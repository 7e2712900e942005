/-
# Leaves of one column side by side

An object has one member for a key, so leaves of one column that stand under an
`and` are written together and come back as an `and` of their own.
`Expr.gather` says what becomes of an expression that way: wherever the members
of an `and` have at least two keys, those of one key are joined at the place of
the first of them. An expression that can be written stays as it is if such
leaves all have columns of their own (`Expr.gather_eq_self`).

Key definitions: `Expr.keys`, `Expr.bundle`, `Expr.gather`, `Expr.Apart`.
Key theorems: `Expr.joined_bundle`, `Expr.gather_eq_self`.
-/
import QueryFilter.Proofs.Expr.Merge

namespace QueryFilter
namespace Expr

variable {C : Type} [ColumnRef C]

/-- The keys of expressions, each once, in the order of their first appearance. -/
def keys (es : List (Expr C)) : List String := (es.map key).eraseDups

/-- The expressions of a key. -/
def ofKey (k : String) (es : List (Expr C)) : List (Expr C) := es.filter fun e => e.key = k

/-- The expressions with those of one key joined by `and`, at the place of the
first of them. -/
def bundle (es : List (Expr C)) : List (Expr C) :=
  (keys es).filterMap fun k => joined .and (ofKey k es)

/-- The junction of these members, bundled if it is an `and` of several keys. -/
def regroup (kind : Junction) (es : List (Expr C)) : Expr C :=
  if kind = .and ∧ 2 ≤ (keys es).length then .junction kind (bundle es) else .junction kind es

mutual

/-- The expression with the members of every `and` of several keys bundled. -/
def gather : Expr C → Expr C
  | .leaf column op => .leaf column op
  | .junction kind children => regroup kind (gatherAll children)

def gatherAll : List (Expr C) → List (Expr C)
  | [] => []
  | e :: rest => gather e :: gatherAll rest

end

/-- The reference of the column of a leaf. -/
def reference? : Expr C → Option String
  | .leaf column _ => some (ColumnRef.reference column)
  | .junction _ _ => none

mutual

/-- Wherever the members of an `and` have several keys, no two leaves among
them have one reference. -/
def Apart : Expr C → Prop
  | .leaf _ _ => True
  | .junction kind children =>
    (kind = .and → 2 ≤ (keys children).length → (children.filterMap reference?).Nodup) ∧
      AllApart children

def AllApart : List (Expr C) → Prop
  | [] => True
  | e :: rest => Apart e ∧ AllApart rest

end

theorem gatherAll_eq_map : ∀ es : List (Expr C), gatherAll es = es.map gather
  | [] => rfl
  | e :: rest => by rw [gatherAll, gatherAll_eq_map rest, List.map_cons]

theorem allApart_iff : ∀ {es : List (Expr C)}, AllApart es ↔ ∀ e ∈ es, Apart e
  | [] => by simp [AllApart]
  | e :: rest => by rw [AllApart, allApart_iff, List.forall_mem_cons]

theorem gather_junction (kind : Junction) (es : List (Expr C)) :
    gather (.junction kind es) = regroup kind (es.map gather) := by
  rw [gather, gatherAll_eq_map]

/-! ### Keys -/

theorem mem_keys {k : String} {es : List (Expr C)} : k ∈ keys es ↔ ∃ e ∈ es, e.key = k := by
  rw [keys, List.mem_eraseDups, List.mem_map]

theorem mem_ofKey {k : String} {es : List (Expr C)} {e : Expr C} :
    e ∈ ofKey k es ↔ e ∈ es ∧ e.key = k := by
  simp [ofKey]

theorem ofKey_ne_nil {k : String} {es : List (Expr C)} (h : k ∈ keys es) : ofKey k es ≠ [] := by
  obtain ⟨e, he, hk⟩ := mem_keys.mp h
  exact List.ne_nil_of_mem (mem_ofKey.mpr ⟨he, hk⟩)

theorem key_regroup (kind : Junction) (es : List (Expr C)) : (regroup kind es).key = kind.name := by
  unfold regroup
  split <;> rfl

theorem key_gather (e : Expr C) : e.gather.key = e.key := by
  cases e with
  | leaf column op => rfl
  | junction kind es => rw [gather_junction, key_regroup, key]

/-- A function that keeps the keys of members keeps their order of appearance. -/
theorem keys_map {f : Expr C → Expr C} (hf : ∀ e, (f e).key = e.key) (es : List (Expr C)) :
    keys (es.map f) = keys es := by
  rw [keys, keys, List.map_map]
  exact congrArg List.eraseDups (List.map_congr_left fun e _ => hf e)

theorem ofKey_map {f : Expr C → Expr C} (hf : ∀ e, (f e).key = e.key) (k : String)
    (es : List (Expr C)) : ofKey k (es.map f) = (ofKey k es).map f := by
  rw [ofKey, ofKey, List.filter_map]
  congr 1
  exact List.filter_congr fun e _ => by rw [Function.comp_apply, hf]

theorem keysOf_entriesOf (es : List (Expr C)) : keysOf (entriesOf es) = keys es := by
  rw [keysOf, entriesOf, List.map_map]
  rfl

theorem filter_entriesOf (k : String) (es : List (Expr C)) :
    (entriesOf es).filter (fun e => e.1 = k) = entriesOf (ofKey k es) := by
  rw [entriesOf, List.filter_map]
  rfl

theorem under_entriesOf (k : String) (es : List (Expr C)) :
    under k (entriesOf es) = (ofKey k es).flatMap body := by
  rw [under, filter_entriesOf, entriesOf, List.flatMap_map]

/-- Keys that do not clash are those of single expressions, or of leaves under
an `and`. -/
theorem ofKey_length_le {kind : Junction} {es : List (Expr C)} (h : NoClash kind (entriesOf es))
    {k : String} (hk : ¬ Mergeable kind k) : (ofKey k es).length ≤ 1 := by
  have := h k hk
  rwa [filter_entriesOf, entriesOf, List.length_map] at this

theorem isName_name (kind : Junction) : Junction.isName kind.name = true := by
  rw [Junction.isName, Junction.ofName?_name]
  rfl

/-- Under a key that names a junction there is one expression. -/
theorem exists_ofKey_eq {kind : Junction} {es : List (Expr C)} (h : NoClash kind (entriesOf es))
    {k : String} (hname : Junction.isName k = true) (hk : k ∈ keys es) :
    ∃ e ∈ es, e.key = k ∧ ofKey k es = [e] := by
  have hle : (ofKey k es).length ≤ 1 := ofKey_length_le h fun hm => by cases hname ▸ hm.2
  have hpos : 0 < (ofKey k es).length := List.length_pos_iff.mpr (ofKey_ne_nil hk)
  obtain ⟨e, he⟩ := List.length_eq_one_iff.mp (by omega : (ofKey k es).length = 1)
  obtain ⟨hmem, hkey⟩ := mem_ofKey.mp (by rw [he]; exact List.mem_singleton_self e : e ∈ ofKey k es)
  exact ⟨e, hmem, hkey, he⟩

/-- Under a key that names no junction there are only leaves. -/
theorem leaf_of_key {e : Expr C} (h : Junction.isName e.key = false) :
    ∃ column op, e = .leaf column op ∧ ColumnRef.reference column = e.key := by
  cases e with
  | leaf column op => exact ⟨column, op, rfl, rfl⟩
  | junction kind es =>
    rw [key, isName_name] at h
    cases h

/-- Under a key that names no junction there are as many leaves of that reference. -/
theorem length_ofKey_eq_count {k : String} (hk : Junction.isName k = false) (es : List (Expr C)) :
    (ofKey k es).length = (es.filterMap reference?).count k := by
  rw [ofKey, ← List.countP_eq_length_filter, List.count, List.countP_filterMap]
  refine List.countP_congr fun e _ => ?_
  cases e with
  | leaf column op =>
    show decide (ColumnRef.reference column = k) = true ↔ (ColumnRef.reference column == k) = true
    rw [decide_eq_true_eq, beq_iff_eq]
  | junction kind es =>
    have : kind.name ≠ k := fun h => by
      rw [← h, isName_name] at hk
      cases hk
    simp [key, reference?, this]

/-! ### Bundles -/

theorem nodup_map_key {es : List (Expr C)} (h : ∀ k, (ofKey k es).length ≤ 1) :
    (es.map key).Nodup := by
  rw [List.nodup_iff_count_le_one]
  intro k
  rw [List.count, List.countP_map, List.countP_eq_length_filter]
  exact h k

theorem ofKey_key_of_nodup {es : List (Expr C)} (h : (es.map key).Nodup) {e : Expr C} (he : e ∈ es) :
    ofKey e.key es = [e] := by
  induction es with
  | nil => cases he
  | cons e' rest ih =>
    rw [List.map_cons, List.nodup_cons] at h
    rw [ofKey, List.filter_cons]
    rcases List.mem_cons.mp he with rfl | he
    · have hnil : rest.filter (fun x => x.key = e.key) = [] := by
        rw [List.filter_eq_nil_iff]
        intro x hx hk
        exact h.1 (List.mem_map.mpr ⟨x, hx, by simpa using hk⟩)
      simp [hnil]
    · have hk : ¬ e'.key = e.key := fun hk => h.1 (hk ▸ List.mem_map_of_mem he)
      rw [if_neg (by simpa using hk)]
      exact ih h.2 he

/-- Expressions with keys of their own are bundled one by one. -/
theorem bundle_of_nodup {es : List (Expr C)} (h : (es.map key).Nodup) : bundle es = es := by
  rw [bundle, keys, List.eraseDups_of_nodup h, List.filterMap_map]
  have hone : ∀ e ∈ es, ((fun k => joined .and (ofKey k es)) ∘ key) e = some e := fun e he => by
    rw [Function.comp_apply, ofKey_key_of_nodup h he]
    rfl
  rw [List.filterMap_congr hone, List.filterMap_some]

theorem length_bundle (es : List (Expr C)) : (bundle es).length = (keys es).length := by
  rw [bundle, List.length_filterMap_eq_countP, List.countP_eq_length]
  intro k hk
  rw [Option.isSome_iff_ne_none, ne_eq, joined_eq_none_iff]
  exact ofKey_ne_nil hk

/-- Members bundled and joined are the junction regrouped. -/
theorem joined_bundle {kind : Junction} {es : List (Expr C)} (hl : 2 ≤ es.length)
    (h : NoClash kind (entriesOf es)) : joined kind (bundle es) = some (regroup kind es) := by
  cases kind with
  | or =>
    have hnd : (es.map key).Nodup := nodup_map_key fun k => ofKey_length_le h fun hm => by cases hm.1
    rw [bundle_of_nodup hnd, joined_of_two_le hl, regroup, if_neg fun hk => by cases hk.1]
  | and =>
    by_cases hk : 2 ≤ (keys es).length
    · rw [joined_of_two_le (by rwa [length_bundle]), regroup, if_pos ⟨rfl, hk⟩]
    · obtain ⟨e, he⟩ := List.exists_mem_of_length_pos (by omega : 0 < es.length)
      have hpos := List.length_pos_of_mem (mem_keys.mpr ⟨e, he, rfl⟩)
      obtain ⟨k, hone⟩ := List.length_eq_one_iff.mp (by omega : (keys es).length = 1)
      have hall : ofKey k es = es := by
        rw [ofKey, List.filter_eq_self]
        intro x hx
        have hmem : x.key ∈ keys es := mem_keys.mpr ⟨x, hx, rfl⟩
        rw [hone, List.mem_singleton] at hmem
        simpa using hmem
      have hbundle : bundle es = [.junction .and es] := by
        rw [bundle, hone, List.filterMap_cons, hall, joined_of_two_le hl]
        rfl
      rw [hbundle, regroup, if_neg fun hk' => hk hk'.2]
      rfl

theorem noClash_map {kind : Junction} {es : List (Expr C)} {f : Expr C → Expr C}
    (hf : ∀ e, (f e).key = e.key) (h : NoClash kind (entriesOf es)) :
    NoClash kind (entriesOf (es.map f)) := by
  intro k hk
  rw [filter_entriesOf, entriesOf, List.length_map, ofKey_map hf, List.length_map]
  exact ofKey_length_le h hk

/-- Members joined key by key, and then joined, are the junction regrouped. -/
theorem joined_keys {kind : Junction} {es : List (Expr C)} {f : Expr C → Expr C}
    (hf : ∀ e, (f e).key = e.key) (hl : 2 ≤ es.length) (h : NoClash kind (entriesOf es)) :
    joined kind ((keys es).filterMap fun k => joined .and ((ofKey k es).map f)) =
      some (regroup kind (es.map f)) := by
  have hbundle : (keys es).filterMap (fun k => joined .and ((ofKey k es).map f)) =
      bundle (es.map f) := by
    simp only [bundle, keys_map hf, ofKey_map hf]
  rw [hbundle, joined_bundle (by rwa [List.length_map]) (noClash_map hf h)]

/-- Gathering changes nothing in an expression that can be written, where no
two leaves of an `and` of several keys have one reference. -/
theorem gather_eq_self {e : Expr C} {en : Entry} (he : entry e = .ok en) (h : Apart e) :
    e.gather = e := by
  induction e using induction generalizing en with
  | leaf column op => rfl
  | junction kind es ih =>
    obtain ⟨hall, hclash, -⟩ := entry_junction_eq_ok he
    rw [Apart, allApart_iff] at h
    have hes : es.map gather = es := by
      rw [List.map_congr_left fun e he => ih e he (hall e he) (h.2 e he), List.map_id']
    rw [gather_junction, hes, regroup]
    split
    · rename_i hk
      have hnd : (es.map key).Nodup := by
        refine nodup_map_key fun k => ?_
        cases hname : Junction.isName k with
        | true => exact ofKey_length_le hclash fun hm => by cases hname ▸ hm.2
        | false =>
          rw [length_ofKey_eq_count hname]
          exact List.nodup_iff_count_le_one.mp (h.1 hk.1 hk.2) k
      rw [bundle_of_nodup hnd]
    · rfl

end Expr
end QueryFilter
