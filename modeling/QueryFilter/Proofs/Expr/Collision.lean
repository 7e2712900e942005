/-
# When an expression cannot be written

The members of a junction stand in one object, so an expression cannot be
written if two of them have one key. Only an `and` takes several leaves of one
column, with operators that differ. `Expr.Collides` says that some junction of an
expression has two members that clash; those are exactly the expressions that
cannot be written (`Expr.entry_ok_iff`), and the cause is always a collision of
keys (`Expr.onlyCollides_entry`).

Key definitions: `Expr.Clashing`, `Expr.Collides`, `OnlyCollides`.
Key theorems: `Expr.mergeEntry_merged_ok_iff`, `Expr.mergeAll_ok_iff`,
`Expr.entry_ok_iff`, `Expr.onlyCollides_entry`.
-/
import QueryFilter.Proofs.Expr.Gather

namespace QueryFilter

/-! ### Failing with a collision only -/

/-- Whether a run fails with a collision of keys or not at all. -/
def OnlyCollides {α : Type} (run : Except FilterError α) : Prop :=
  ∀ err, run = .error err → ∃ key, err = .keyCollision key

namespace OnlyCollides

variable {α β : Type} {run : Except FilterError α}

theorem ok (a : α) : OnlyCollides (.ok a) := fun _ h => by cases h

theorem collision (key : String) : OnlyCollides (.error (.keyCollision key) : Except FilterError α) :=
  fun _ h => by
    cases h
    exact ⟨key, rfl⟩

theorem bind {next : α → Except FilterError β} (h : OnlyCollides run)
    (h' : ∀ a, OnlyCollides (next a)) : OnlyCollides (run.bind next) := by
  cases run with
  | error err => exact fun _ he => by cases he; exact h err rfl
  | ok a => exact h' a

theorem map (h : OnlyCollides run) (f : α → β) : OnlyCollides (run.map f) := by
  cases run with
  | error err => exact fun _ he => by cases he; exact h err rfl
  | ok a => exact .ok (f a)

end OnlyCollides

/-- Operators are told apart by their symbols. -/
theorem OperatorKind.symbol_injective {a b : OperatorKind} (h : a.symbol = b.symbol) : a = b := by
  have ha : OperatorKind.ofSymbol? b.symbol = some a := h ▸ OperatorKind.ofSymbol?_symbol a
  rw [OperatorKind.ofSymbol?_symbol b] at ha
  exact (Option.some.inj ha).symm

namespace Expr

theorem onlyCollides_mergeOperators (key : String) : ∀ ms done : List (String × Json),
    OnlyCollides (mergeOperators key done ms)
  | [], done => .ok done
  | (symbol, literal) :: rest, done => by
    rw [mergeOperators]
    split
    · exact .collision _
    · exact onlyCollides_mergeOperators key rest _

theorem onlyCollides_mergeEntry (kind : Junction) (en : Entry) : ∀ es : List Entry,
    OnlyCollides (mergeEntry kind en es)
  | [] => .ok [en]
  | (key, members) :: rest => by
    rw [mergeEntry]
    split
    · split
      · exact (onlyCollides_mergeOperators key en.2 members).map _
      · exact .collision key
    · exact (onlyCollides_mergeEntry kind en rest).map _

variable {C : Type} [ColumnRef C]

/-- An expression that cannot be written has keys that collide. -/
theorem onlyCollides_entry (e : Expr C) : OnlyCollides (entry e) := by
  induction e using induction with
  | leaf column op =>
    rw [entry]
    exact .ok _
  | junction kind es ih =>
    have hall : ∀ {es : List (Expr C)}, (∀ e ∈ es, OnlyCollides (entry e)) → ∀ done,
        OnlyCollides (mergeAll kind done es) := by
      intro es
      induction es with
      | nil =>
        intro _ done
        rw [mergeAll]
        exact .ok done
      | cons e rest ih' =>
        intro hes done
        obtain ⟨he, hrest⟩ := List.forall_mem_cons.mp hes
        rw [mergeAll]
        exact he.bind fun en => (onlyCollides_mergeEntry kind en done).bind fun done' =>
          ih' hrest done'
    rw [entry]
    exact (hall ih []).bind fun out => .ok _

/-! ### Members that clash -/

/-- Whether a junction takes two members of one key side by side: leaves of one
column under an `and`, with operators that differ. -/
def Together (kind : Junction) (a b : Expr C) : Prop :=
  kind = .and ∧ Junction.isName a.key = false ∧
    ∃ column op column' op', a = .leaf column op ∧ b = .leaf column' op' ∧ op.kind ≠ op'.kind

/-- Whether two members of a junction clash. -/
def Clashing (kind : Junction) (a b : Expr C) : Prop := a.key = b.key ∧ ¬ Together kind a b

/-- Whether some junction of an expression has two members that clash. -/
inductive Collides : Expr C → Prop
  | here {kind : Junction} {es : List (Expr C)} {a b : Expr C} (hsub : [a, b].Sublist es)
    (h : Clashing kind a b) : Collides (.junction kind es)
  | member {kind : Junction} {es : List (Expr C)} {e : Expr C} (he : e ∈ es) (h : Collides e) :
    Collides (.junction kind es)

/-- Whether no two members of a junction clash. -/
def Clear (kind : Junction) (es : List (Expr C)) : Prop :=
  es.Pairwise fun a b => ¬ Clashing kind a b

variable {kind : Junction} {es prev : List (Expr C)} {a b e : Expr C}

theorem together_of_not_clashing (h : ¬ Clashing kind a b) (hk : a.key = b.key) :
    Together kind a b := by
  by_contra hn
  exact h ⟨hk, hn⟩

theorem not_collides_leaf (column : C) (op : Operator) : ¬ Collides (.leaf column op) := fun h => by
  cases h

theorem not_collides_junction_iff :
    ¬ Collides (.junction kind es) ↔ (∀ e ∈ es, ¬ Collides e) ∧ Clear kind es := by
  rw [Clear, List.pairwise_iff_forall_sublist]
  constructor
  · exact fun h => ⟨fun e he hc => h (.member he hc), fun hsub hc => h (.here hsub hc)⟩
  · rintro ⟨hall, hclear⟩ h
    cases h with
    | here hsub hc => exact hclear hsub hc
    | member he hc => exact hall _ he hc

/-! ### Merging fails on what clashes -/

theorem mergeOperators_single_ok_iff {key symbol : String} {j : Json} {done : List (String × Json)} :
    (∃ out, mergeOperators key done [(symbol, j)] = .ok out) ↔ symbol ∉ done.map Prod.fst := by
  have hany : (done.any fun m => m.1 = symbol) = true ↔ symbol ∈ done.map Prod.fst := by
    simp [List.any_eq_true]
  rw [mergeOperators]
  by_cases h : symbol ∈ done.map Prod.fst
  · rw [if_pos (hany.mpr h)]
    constructor
    · rintro ⟨out, ho⟩
      cases ho
    · exact fun hn => absurd h hn
  · rw [if_neg fun ha => h (hany.mp ha), mergeOperators]
    exact ⟨fun _ => h, fun _ => ⟨_, rfl⟩⟩

/-- An entry is merged if its key is new, or if the junction takes it where its
key is. -/
theorem mergeEntry_ok_iff {en : Entry} : ∀ {es : List Entry}, (es.map Prod.fst).Nodup →
    ((∃ out, mergeEntry kind en es = .ok out) ↔ ∀ members, (en.1, members) ∈ es →
      Mergeable kind en.1 ∧ ∃ out, mergeOperators en.1 members en.2 = .ok out)
  | [], _ => ⟨fun _ _ h => (by cases h), fun _ => ⟨[en], rfl⟩⟩
  | (key, members) :: rest, hnd => by
    rw [List.map_cons, List.nodup_cons] at hnd
    rw [mergeEntry]
    by_cases hk : key = en.1
    · have hone : ∀ members', (en.1, members') ∈ (key, members) :: rest ↔ members' = members := by
        intro members'
        rw [List.mem_cons, hk]
        constructor
        · rintro (h | h)
          · exact (Prod.mk.inj h).2
          · exact absurd (List.mem_map_of_mem h) (hk ▸ hnd.1)
        · rintro rfl
          exact Or.inl rfl
      rw [if_pos hk]
      simp only [hone, forall_eq]
      rw [hk]
      by_cases hm : kind = .and ∧ Junction.isName en.1 = false
      · rw [if_pos hm]
        simp only [Except.map_eq_ok]
        constructor
        · rintro ⟨_, out, h, -⟩
          exact ⟨hm, out, h⟩
        · rintro ⟨-, out, h⟩
          exact ⟨_, out, h, rfl⟩
      · rw [if_neg hm]
        constructor
        · rintro ⟨out, h⟩
          cases h
        · exact fun h => absurd h.1 hm
    · have hrest : ∀ members', (en.1, members') ∈ (key, members) :: rest ↔ (en.1, members') ∈ rest := by
        intro members'
        rw [List.mem_cons]
        exact or_iff_right fun h => hk (Prod.mk.inj h).1.symm
      rw [if_neg hk]
      simp only [hrest, Except.map_eq_ok]
      rw [← mergeEntry_ok_iff hnd.2]
      constructor
      · rintro ⟨_, out, h, -⟩
        exact ⟨out, h⟩
      · rintro ⟨out, h⟩
        exact ⟨_, out, h, rfl⟩

/-- **One member.** It can be written beside others if it clashes with none of them. -/
theorem mergeEntry_merged_ok_iff :
    (∃ out, mergeEntry kind (e.key, e.body) (merged (entriesOf prev)) = .ok out) ↔
      ∀ a ∈ prev, ¬ Clashing kind a e := by
  have hnd : ((merged (entriesOf prev)).map Prod.fst).Nodup := by
    rw [map_fst_merged]
    exact nodup_keysOf _
  have hmem : ∀ members, (e.key, members) ∈ merged (entriesOf prev) ↔
      e.key ∈ keys prev ∧ members = (ofKey e.key prev).flatMap body := by
    intro members
    rw [merged, keysOf_entriesOf, List.mem_map, ← under_entriesOf]
    constructor
    · rintro ⟨k, hk, h⟩
      obtain ⟨rfl, rfl⟩ := Prod.mk.inj h
      exact ⟨hk, rfl⟩
    · rintro ⟨hk, rfl⟩
      exact ⟨e.key, hk, rfl⟩
  rw [mergeEntry_ok_iff hnd]
  constructor
  · rintro h a ha ⟨hkey, hnot⟩
    obtain ⟨hm, hops⟩ := h _ ((hmem _).mpr ⟨mem_keys.mpr ⟨a, ha, hkey⟩, rfl⟩)
    obtain ⟨column, op, rfl, -⟩ := leaf_of_key hm.2
    obtain ⟨column', op', rfl, -⟩ := leaf_of_key (hkey ▸ hm.2)
    refine hnot ⟨hm.1, hkey ▸ hm.2, column', op', column, op, rfl, rfl, fun hkind => ?_⟩
    refine mergeOperators_single_ok_iff.mp hops (List.mem_map.mpr ⟨(op'.symbol, op'.value.toJson), ?_, ?_⟩)
    · exact List.mem_flatMap.mpr ⟨.leaf column' op', mem_ofKey.mpr ⟨ha, hkey⟩, List.mem_singleton_self _⟩
    · exact congrArg OperatorKind.symbol hkind
  · intro h members hmembers
    obtain ⟨hk, rfl⟩ := (hmem members).mp hmembers
    have htogether : ∀ a ∈ prev, a.key = e.key → Together kind a e := fun a ha hkey =>
      together_of_not_clashing (h a ha) hkey
    obtain ⟨a, ha, hkey⟩ := mem_keys.mp hk
    obtain ⟨hkind, hname, -, -, column, op, -, rfl, -⟩ := htogether a ha hkey
    refine ⟨⟨hkind, hkey ▸ hname⟩, mergeOperators_single_ok_iff.mpr fun hsymbol => ?_⟩
    -- a leaf of the column with this symbol would clash
    obtain ⟨m, hm, hsame⟩ := List.mem_map.mp hsymbol
    obtain ⟨a', ha', hm⟩ := List.mem_flatMap.mp hm
    obtain ⟨ha', hkey'⟩ := mem_ofKey.mp ha'
    obtain ⟨-, -, column', op', column'', op'', rfl, heq, hne⟩ := htogether a' ha' hkey'
    cases heq
    rw [List.mem_singleton.mp hm] at hsame
    exact hne (OperatorKind.symbol_injective hsame)

theorem entriesOf_append (es : List (Expr C)) (e : Expr C) :
    entriesOf (es ++ [e]) = entriesOf es ++ [(e.key, e.body)] := by
  simp [entriesOf]

/-- Members can be written one after the other if each of them can be and no two
of them clash. -/
theorem mergeAll_ok_iff : ∀ {es prev : List (Expr C)}, Clear kind prev →
    ((∃ out, mergeAll kind (merged (entriesOf prev)) es = .ok out) ↔
      (∀ e ∈ es, ∃ en, entry e = .ok en) ∧ Clear kind (prev ++ es))
  | [], prev, hprev => by
    rw [mergeAll, List.append_nil]
    exact ⟨fun _ => ⟨fun e he => (by cases he), hprev⟩, fun _ => ⟨_, rfl⟩⟩
  | e :: rest, prev, hprev => by
    have hsplit : prev ++ e :: rest = (prev ++ [e]) ++ rest := by simp
    have hlast : Clear kind (prev ++ [e]) ↔ ∀ a ∈ prev, ¬ Clashing kind a e := by
      rw [Clear, List.pairwise_append]
      simp only [List.mem_singleton, forall_eq]
      exact ⟨fun h => h.2.2, fun h => ⟨hprev, List.pairwise_singleton _ _, h⟩⟩
    rw [mergeAll, hsplit, List.forall_mem_cons]
    constructor
    · rintro ⟨out, h⟩
      obtain ⟨en, he, h⟩ := Except.bind_eq_ok.mp h
      obtain ⟨done, hdone, h⟩ := Except.bind_eq_ok.mp h
      rw [entry_eq_ok he] at hdone
      have hclear := hlast.mpr (mergeEntry_merged_ok_iff.mp ⟨done, hdone⟩)
      rw [mergeEntry_merged hdone, ← entriesOf_append] at h
      obtain ⟨hrest, hall⟩ := (mergeAll_ok_iff hclear).mp ⟨out, h⟩
      exact ⟨⟨⟨en, he⟩, hrest⟩, hall⟩
    · rintro ⟨⟨⟨en, he⟩, hrest⟩, hall⟩
      have hclear : Clear kind (prev ++ [e]) := (List.pairwise_append.mp hall).1
      obtain ⟨done, hdone⟩ := mergeEntry_merged_ok_iff.mpr (hlast.mp hclear)
      obtain ⟨out, h⟩ := (mergeAll_ok_iff hclear).mpr ⟨hrest, hall⟩
      rw [entriesOf_append, ← mergeEntry_merged hdone] at h
      rw [he, entry_eq_ok he]
      exact ⟨out, Except.bind_eq_ok.mpr ⟨_, rfl, Except.bind_eq_ok.mpr ⟨done, hdone, h⟩⟩⟩

/-- **One junction.** It can be written if its members can be and no two of them
clash. -/
theorem entry_junction_ok_iff :
    (∃ en, entry (.junction kind es) = .ok en) ↔
      (∀ e ∈ es, ∃ en, entry e = .ok en) ∧ Clear kind es := by
  have hnone : Clear kind ([] : List (Expr C)) := List.Pairwise.nil
  have hmerge : (∃ out, mergeAll kind [] es = .ok out) ↔
      (∀ e ∈ es, ∃ en, entry e = .ok en) ∧ Clear kind es := mergeAll_ok_iff hnone
  rw [entry, ← hmerge]
  constructor
  · rintro ⟨en, h⟩
    obtain ⟨out, h, -⟩ := Except.bind_eq_ok.mp h
    exact ⟨out, h⟩
  · rintro ⟨out, h⟩
    exact ⟨_, Except.bind_eq_ok.mpr ⟨out, h, rfl⟩⟩

/-- **Collisions.** An expression can be written if nothing in it collides. -/
theorem entry_ok_iff (e : Expr C) : (∃ en, entry e = .ok en) ↔ ¬ Collides e := by
  induction e using induction with
  | leaf column op =>
    rw [entry]
    exact ⟨fun _ => not_collides_leaf column op, fun _ => ⟨_, rfl⟩⟩
  | junction kind es ih =>
    rw [entry_junction_ok_iff, not_collides_junction_iff]
    exact and_congr_left fun _ => forall₂_congr ih

end Expr
end QueryFilter
