/-
# What is written is found again

In the JSON of an expression that can be written, each leaf has a place of its
own: under the names of the junctions above it, the reference of its column and
the symbol of its operator (`Expr.placed`). Leaves that are merged into one
object keep their symbols apart, so nothing is written over, and the operators
that can be read off the JSON are those of the leaves and no others
(`Expr.perm_operators`). Together with the cause of a failure this is
`Expr.dump_lossless`.

Key definitions: `Json.at?`, `Json.operators`, `Expr.placed`.
Key theorems: `Expr.body_junction`, `Expr.at?_inside`, `Expr.nodup_placed`,
`Expr.perm_operators`, `Expr.dump_lossless`.
-/
import Mathlib.Data.List.Perm.Basic
import QueryFilter.Proofs.Expr.Collision

namespace QueryFilter

/-! ### Places in JSON -/

namespace Json

/-- The value at a place, which is a list of keys to follow. -/
def at? : List String → Json → Option Json
  | [], j => some j
  | key :: rest, .object members => (member? key members).bind (at? rest)
  | _ :: _, _ => none

/-- Whether a key is the name that a junction is written under. -/
def isJunctionKey (key : String) : Bool := [Junction.and, .or].any fun kind => kind.name = key

mutual

/-- The operators of the member of a key, with their places: a junction holds
members, and a column holds operators. -/
def operators (key : String) : Json → List (List String × Json)
  | .object members =>
    if isJunctionKey key then (operatorsAll members).map fun p => (key :: p.1, p.2)
    else members.map fun m => ([key, m.1], m.2)
  | j => [([key], j)]

/-- The operators of several members, with their places. -/
def operatorsAll : List (String × Json) → List (List String × Json)
  | [] => []
  | (key, j) :: rest => operators key j ++ operatorsAll rest

end

theorem operatorsAll_eq_flatMap : ∀ ms : List (String × Json),
    operatorsAll ms = ms.flatMap fun m => operators m.1 m.2
  | [] => rfl
  | (key, j) :: rest => by rw [operatorsAll, operatorsAll_eq_flatMap rest, List.flatMap_cons]

theorem mem_of_member? {key : String} {j : Json} : ∀ {ms : List (String × Json)},
    member? key ms = some j → (key, j) ∈ ms
  | (k, v) :: rest, h => by
    rw [member?] at h
    by_cases hk : k = key
    · rw [if_pos hk] at h
      cases h
      rw [hk]
      exact List.mem_cons_self
    · rw [if_neg hk] at h
      exact List.mem_cons_of_mem _ (mem_of_member? h)

theorem member?_of_mem {key : String} {j : Json} : ∀ {ms : List (String × Json)},
    (ms.map Prod.fst).Nodup → (key, j) ∈ ms → member? key ms = some j
  | (k, v) :: rest, hnd, h => by
    rw [List.map_cons, List.nodup_cons] at hnd
    rw [member?]
    rcases List.mem_cons.mp h with h | h
    · obtain ⟨rfl, rfl⟩ := Prod.mk.inj h
      rw [if_pos rfl]
    · have hmem : key ∈ rest.map Prod.fst := List.mem_map.mpr ⟨(key, j), h, rfl⟩
      have hk : k ≠ key := fun hk => hnd.1 (hk ▸ hmem)
      rw [if_neg hk]
      exact member?_of_mem hnd.2 h

/-- What is found in an object is found where its members stand among others. -/
theorem at?_of_subset {ms ms' : List (String × Json)} (hnd : (ms'.map Prod.fst).Nodup)
    (hsub : ms ⊆ ms') {place : List String} (hne : place ≠ []) {j : Json}
    (h : at? place (.object ms) = some j) : at? place (.object ms') = some j := by
  cases place with
  | nil => exact absurd rfl hne
  | cons key rest =>
    rw [at?] at h ⊢
    obtain ⟨inner, hmember, h⟩ := Option.bind_eq_some_iff.mp h
    rw [member?_of_mem hnd (hsub (mem_of_member? hmember))]
    exact h

end Json

namespace Expr

variable {C : Type} [ColumnRef C]

mutual

/-- The values of the leaves from left to right, each with its place: the names of
the junctions above it, the reference of its column and its symbol. -/
def placed : Expr C → List (List String × Json)
  | .leaf column op => [([ColumnRef.reference column, op.symbol], op.value.toJson)]
  | .junction kind children => (placedAll children).map fun p => (kind.name :: p.1, p.2)

def placedAll : List (Expr C) → List (List String × Json)
  | [] => []
  | e :: rest => placed e ++ placedAll rest

end

/-- The same without the key of the expression itself. -/
def inside : Expr C → List (List String × Json)
  | .leaf _ op => [([op.symbol], op.value.toJson)]
  | .junction _ children => children.flatMap placed

theorem placedAll_eq_flatMap : ∀ es : List (Expr C), placedAll es = es.flatMap placed
  | [] => rfl
  | e :: rest => by rw [placedAll, placedAll_eq_flatMap rest, List.flatMap_cons]

theorem placed_eq (e : Expr C) : e.placed = e.inside.map fun p => (e.key :: p.1, p.2) := by
  cases e with
  | leaf column op => rfl
  | junction kind es => rw [placed, placedAll_eq_flatMap, inside, key]

theorem ne_nil_of_mem_inside {e : Expr C} {p : List String × Json} (h : p ∈ e.inside) :
    p.1 ≠ [] := by
  cases e with
  | leaf column op =>
    rw [List.mem_singleton.mp h]
    exact List.cons_ne_nil _ _
  | junction kind es =>
    obtain ⟨e, -, h⟩ := List.mem_flatMap.mp h
    rw [placed_eq] at h
    obtain ⟨q, -, rfl⟩ := List.mem_map.mp h
    exact List.cons_ne_nil _ _

variable {kind : Junction} {es : List (Expr C)}

/-! ### Members put together -/

/-- What stands under a junction that can be written: under each key, what the
members of that key say. -/
theorem body_junction (h : ¬ Collides (.junction kind es)) :
    (Expr.junction kind es).body = (keys es).map fun k => (k, .object ((ofKey k es).flatMap body)) := by
  obtain ⟨en, he⟩ := (entry_ok_iff (.junction kind es)).mpr h
  obtain ⟨-, -, hen⟩ := entry_junction_eq_ok he
  have hbody : (Expr.junction kind es).body = en.2 := (Prod.mk.inj (entry_eq_ok he)).2.symm
  rw [hbody, hen, merged, keysOf_entriesOf, List.map_map]
  refine List.map_congr_left fun k _ => ?_
  rw [Function.comp_apply, under_entriesOf]

/-- Members of one key that do not clash are told apart by their symbols. -/
theorem nodup_flatMap_body (hclear : Clear kind es)
    (hbody : ∀ e ∈ es, (e.body.map Prod.fst).Nodup) (k : String) :
    (((ofKey k es).flatMap body).map Prod.fst).Nodup := by
  rw [List.map_flatMap, List.nodup_flatMap]
  refine ⟨fun e he => hbody e (mem_ofKey.mp he).1, ?_⟩
  rw [ofKey, List.pairwise_filter]
  refine hclear.imp fun {a b} hab ha hb => ?_
  have hkey : a.key = b.key := (of_decide_eq_true ha).trans (of_decide_eq_true hb).symm
  obtain ⟨-, -, column, op, column', op', rfl, rfl, hne⟩ := together_of_not_clashing hab hkey
  intro symbol hs hs'
  have hop : symbol = op.symbol := List.mem_singleton.mp hs
  have hop' : symbol = op'.symbol := List.mem_singleton.mp hs'
  exact hne (OperatorKind.symbol_injective (hop.symm.trans hop'))

theorem nodup_body {e : Expr C} (h : ¬ Collides e) : (e.body.map Prod.fst).Nodup := by
  cases e with
  | leaf column op => exact List.nodup_singleton _
  | junction kind es =>
    have hkeys : (keys es).Nodup := List.nodup_eraseDups _
    rw [body_junction h, List.map_map]
    simpa [Function.comp_def] using hkeys

/-! ### Every leaf at its place -/

/-- **Found again.** The value of each leaf is found at its place. -/
theorem at?_inside {e : Expr C} (h : ¬ Collides e) :
    ∀ p ∈ e.inside, (Json.object e.body).at? p.1 = some p.2 := by
  induction e using induction with
  | leaf column op =>
    intro p hp
    rw [List.mem_singleton.mp hp, body_leaf, Json.at?, Json.member?, if_pos rfl]
    rfl
  | junction kind es ih =>
    intro p hp
    obtain ⟨hall, hclear⟩ := not_collides_junction_iff.mp h
    obtain ⟨e, he, hp⟩ := List.mem_flatMap.mp hp
    rw [placed_eq] at hp
    obtain ⟨q, hq, rfl⟩ := List.mem_map.mp hp
    have hmember : Json.member? e.key (Expr.junction kind es).body =
        some (.object ((ofKey e.key es).flatMap body)) := by
      refine Json.member?_of_mem (nodup_body h) ?_
      rw [body_junction h]
      exact List.mem_map.mpr ⟨e.key, mem_keys.mpr ⟨e, he, rfl⟩, rfl⟩
    have hunder : (((ofKey e.key es).flatMap body).map Prod.fst).Nodup :=
      nodup_flatMap_body hclear (fun e he => nodup_body (hall e he)) e.key
    have hsub : e.body ⊆ (ofKey e.key es).flatMap body := fun m hm =>
      List.mem_flatMap.mpr ⟨e, mem_ofKey.mpr ⟨he, rfl⟩, hm⟩
    rw [Json.at?, hmember]
    exact Json.at?_of_subset hunder hsub (ne_nil_of_mem_inside hq) (ih e he (hall e he) q hq)

theorem nodup_placed_of_inside {e : Expr C} (h : (e.inside.map Prod.fst).Nodup) :
    (e.placed.map Prod.fst).Nodup := by
  have hcons : e.placed.map Prod.fst = (e.inside.map Prod.fst).map (e.key :: ·) := by
    rw [placed_eq, List.map_map, List.map_map]
    rfl
  rw [hcons]
  exact h.map List.cons_injective

/-- Members that do not clash have no place in common. -/
theorem disjoint_placed {a b : Expr C} (hab : ¬ Clashing kind a b) :
    List.Disjoint (a.placed.map Prod.fst) (b.placed.map Prod.fst) := by
  intro place ha hb
  obtain ⟨p, hp, rfl⟩ := List.mem_map.mp ha
  obtain ⟨p', hp', hsame⟩ := List.mem_map.mp hb
  have hkeys : a.key = b.key := by
    rw [placed_eq] at hp hp'
    obtain ⟨q, -, rfl⟩ := List.mem_map.mp hp
    obtain ⟨q', -, rfl⟩ := List.mem_map.mp hp'
    exact (List.cons.inj hsame).1.symm
  -- members of one key are leaves, which their symbols tell apart
  obtain ⟨-, -, column, op, column', op', rfl, rfl, hne⟩ := together_of_not_clashing hab hkeys
  rw [List.mem_singleton.mp hp, List.mem_singleton.mp hp'] at hsame
  have hsymbol : op'.symbol = op.symbol := (List.cons.inj (List.cons.inj hsame).2).1
  exact hne (OperatorKind.symbol_injective hsymbol.symm)

theorem nodup_inside {e : Expr C} (h : ¬ Collides e) : (e.inside.map Prod.fst).Nodup := by
  induction e using induction with
  | leaf column op => exact List.nodup_singleton _
  | junction kind es ih =>
    obtain ⟨hall, hclear⟩ := not_collides_junction_iff.mp h
    rw [inside, List.map_flatMap, List.nodup_flatMap]
    exact ⟨fun e he => nodup_placed_of_inside (ih e he (hall e he)),
      hclear.imp fun hab => disjoint_placed hab⟩

/-- **Places of their own.** No two leaves have one place. -/
theorem nodup_placed {e : Expr C} (h : ¬ Collides e) : (e.placed.map Prod.fst).Nodup :=
  nodup_placed_of_inside (nodup_inside h)

/-! ### Nothing else -/

/-- The members of some keys, put together by their keys. -/
theorem perm_filter_key {ks : List String} (hnd : ks.Nodup) (es : List (Expr C)) :
    (ks.flatMap fun k => ofKey k es).Perm (es.filter fun e => e.key ∈ ks) := by
  induction ks with
  | nil => simp
  | cons k rest ih =>
    obtain ⟨hk, hrest⟩ := List.nodup_cons.mp hnd
    have hfirst : (es.filter fun e => e.key ∈ k :: rest).filter (fun e => e.key = k) =
        ofKey k es := by
      rw [List.filter_filter, ofKey]
      refine List.filter_congr fun e _ => ?_
      by_cases hek : e.key = k <;> simp [hek]
    have hmore : (es.filter fun e => e.key ∈ k :: rest).filter (fun e => !decide (e.key = k)) =
        es.filter fun e => e.key ∈ rest := by
      rw [List.filter_filter]
      refine List.filter_congr fun e _ => ?_
      by_cases hek : e.key = k
      · simp [hek, hk]
      · simp [hek]
    have hboth := List.filter_append_perm (fun e : Expr C => decide (e.key = k))
      (es.filter fun e => e.key ∈ k :: rest)
    rw [hfirst, hmore] at hboth
    exact ((ih hrest).append_left _).trans hboth

/-- Members are put together by their keys, and none is lost. -/
theorem perm_flatMap_ofKey (es : List (Expr C)) :
    ((keys es).flatMap fun k => ofKey k es).Perm es := by
  have hall : es.filter (fun e => e.key ∈ keys es) = es := by
    rw [List.filter_eq_self]
    exact fun e he => decide_eq_true (mem_keys.mpr ⟨e, he, rfl⟩)
  have hkeys : (keys es).Nodup := List.nodup_eraseDups _
  have hperm := perm_filter_key hkeys es
  rwa [hall] at hperm

theorem isJunctionKey_name (kind : Junction) : Json.isJunctionKey kind.name = true := by
  cases kind <;> rfl

theorem name_of_isJunctionKey {k : String} (h : Json.isJunctionKey k = true) :
    ∃ kind : Junction, kind.name = k := by
  obtain ⟨kind, -, hk⟩ := List.any_eq_true.mp h
  exact ⟨kind, of_decide_eq_true hk⟩

/-- The operators under a key are those of its members, one after the other. -/
theorem perm_operators_under {k : String} (hclash : NoClash kind (entriesOf es)) (hk : k ∈ keys es)
    (hes : ∀ e ∈ es, (Json.operators e.key (.object e.body)).Perm e.placed) :
    (Json.operators k (.object ((ofKey k es).flatMap body))).Perm ((ofKey k es).flatMap placed) := by
  have hmembers : ∀ e ∈ ofKey k es, (Json.operators k (.object e.body)).Perm e.placed := by
    intro e he
    obtain ⟨hmem, rfl⟩ := mem_ofKey.mp he
    exact hes e hmem
  by_cases hj : Json.isJunctionKey k = true
  · -- a junction is written once
    have hmerge : ¬ Mergeable kind k := by
      obtain ⟨kind', rfl⟩ := name_of_isJunctionKey hj
      intro hm
      have hname := hm.2
      rw [isName_name kind'] at hname
      cases hname
    have hle : (ofKey k es).length ≤ 1 := ofKey_length_le hclash hmerge
    have hpos : 0 < (ofKey k es).length := List.length_pos_iff.mpr (ofKey_ne_nil hk)
    obtain ⟨e, hone⟩ := List.length_eq_one_iff.mp (by omega : (ofKey k es).length = 1)
    rw [hone] at hmembers ⊢
    simpa using hmembers e (List.mem_singleton_self e)
  · have hcolumn : ∀ ms, Json.operators k (.object ms) = ms.map fun m => ([k, m.1], m.2) :=
      fun ms => by rw [Json.operators, if_neg hj]
    simp only [hcolumn] at hmembers ⊢
    rw [List.map_flatMap]
    exact List.Perm.flatMap_left _ hmembers

/-- **Nothing else.** The operators in what is written are those of the leaves. -/
theorem perm_operators {e : Expr C} (h : ¬ Collides e)
    (hrefs : ∀ l ∈ e.leaves, ∀ kind : Junction, ColumnRef.reference l.1 ≠ kind.name) :
    (Json.operators e.key (.object e.body)).Perm e.placed := by
  induction e using induction with
  | leaf column op =>
    have hkey : ¬ Json.isJunctionKey (ColumnRef.reference column) = true := fun hj => by
      obtain ⟨kind, hk⟩ := name_of_isJunctionKey hj
      exact hrefs (column, op) (List.mem_singleton_self _) kind hk.symm
    rw [key, Json.operators, if_neg hkey]
    exact List.Perm.refl _
  | junction kind es ih =>
    obtain ⟨hall, -⟩ := not_collides_junction_iff.mp h
    obtain ⟨en, he⟩ := (entry_ok_iff (.junction kind es)).mpr h
    obtain ⟨-, hclash, -⟩ := entry_junction_eq_ok he
    have hes : ∀ e ∈ es, (Json.operators e.key (.object e.body)).Perm e.placed := fun e he => by
      refine ih e he (hall e he) fun l hl => hrefs l ?_
      rw [leaves_junction]
      exact List.mem_flatMap.mpr ⟨e, he, hl⟩
    have hkeys : (Json.operatorsAll (Expr.junction kind es).body).Perm (es.flatMap placed) := by
      rw [Json.operatorsAll_eq_flatMap, body_junction h, List.flatMap_map]
      refine (List.Perm.flatMap_left _ fun k hk => perm_operators_under hclash hk hes).trans ?_
      rw [← List.flatMap_assoc]
      exact (perm_flatMap_ofKey es).flatMap_right placed
    rw [key, Json.operators, if_pos (isJunctionKey_name kind), placed, placedAll_eq_flatMap]
    exact hkeys.map _

/-- **Dumping fails on collisions and loses nothing.** An expression cannot be
dumped if some junction of it has two members that clash, and the error is a
collision of keys. Otherwise the value of each leaf is found at its place, no
two leaves have one place, and, if no column has the name of a junction, there
are no other operators. -/
theorem dump_lossless (e : Expr C) :
    ((∃ err, e.dump = .error err) ↔ e.Collides) ∧
    (∀ err, e.dump = .error err → ∃ key, err = .keyCollision key) ∧
    ∀ ms, e.dump = .ok ms →
      (∀ p ∈ e.placed, (Json.object ms).at? p.1 = some p.2) ∧
      (e.placed.map Prod.fst).Nodup ∧
      ((∀ l ∈ e.leaves, ∀ kind : Junction, ColumnRef.reference l.1 ≠ kind.name) →
        (Json.operatorsAll ms).Perm e.placed) := by
  have hok : (∃ ms, e.dump = .ok ms) ↔ ¬ e.Collides := by
    rw [← entry_ok_iff, dump]
    simp only [Except.map_eq_ok]
    exact ⟨fun ⟨_, en, h, _⟩ => ⟨en, h⟩, fun ⟨en, h⟩ => ⟨_, en, h, rfl⟩⟩
  refine ⟨?_, ?_, fun ms hms => ?_⟩
  · rw [← not_iff_not, ← hok]
    cases e.dump with
    | error err => exact ⟨fun h => absurd ⟨err, rfl⟩ h, fun ⟨ms, h⟩ => (by cases h)⟩
    | ok ms => exact ⟨fun _ => ⟨ms, rfl⟩, fun _ ⟨err, h⟩ => (by cases h)⟩
  · exact (onlyCollides_entry e).map _
  · have hclear : ¬ e.Collides := hok.mp ⟨ms, hms⟩
    obtain ⟨en, he, rfl⟩ := Except.map_eq_ok.mp hms
    rw [entry_eq_ok he]
    refine ⟨fun p hp => ?_, nodup_placed hclear, fun hrefs => ?_⟩
    · rw [placed_eq] at hp
      obtain ⟨q, hq, rfl⟩ := List.mem_map.mp hp
      rw [Json.at?, Json.member?, if_pos rfl]
      exact at?_inside hclear q hq
    · rw [Json.operatorsAll, Json.operatorsAll, List.append_nil]
      exact perm_operators hclear hrefs

/-- Two bounds of an age under an `and`, and an `or` between them. -/
def bounded : Expr Column :=
  .junction .and [.leaf (.plain "tt" "age") ⟨.gt, .int 25, by decide⟩,
    .junction .or [.leaf (.plain "tt" "name") ⟨.eq, .string "z", by decide⟩],
    .leaf (.plain "tt" "age") ⟨.lt, .int 65, by decide⟩]

theorem dump_lossless_bounded :
    ∃ ms, bounded.dump = .ok ms ∧
      (∀ l ∈ bounded.leaves, ∀ kind : Junction, ColumnRef.reference l.1 ≠ kind.name) ∧
      (Json.object ms).at? ["and", "age", "lt"] = some (Value.toJson (.int 65)) ∧
      (Json.operatorsAll ms).Perm bounded.placed := by
  have hrefs : ∀ l ∈ bounded.leaves, ∀ kind : Junction, ColumnRef.reference l.1 ≠ kind.name := by
    have hall : ∀ reference ∈ bounded.leaves.map fun l => ColumnRef.reference l.1,
        reference ≠ Junction.and.name ∧ reference ≠ Junction.or.name := by decide
    intro l hl kind
    have hboth := hall (ColumnRef.reference l.1) (List.mem_map.mpr ⟨l, hl, rfl⟩)
    cases kind with
    | and => exact hboth.1
    | or => exact hboth.2
  have hplaced : (["and", "age", "lt"], Value.toJson (.int 65)) ∈ bounded.placed :=
    .tail _ (.tail _ (.head _))
  obtain ⟨hfound, -, hperm⟩ := (dump_lossless bounded).2.2 _ rfl
  exact ⟨_, rfl, hrefs, hfound _ hplaced, hperm hrefs⟩

end Expr
end QueryFilter
