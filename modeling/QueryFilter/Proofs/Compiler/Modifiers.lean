/-
# Reading modifiers back

What is written for modifiers compiles to these modifiers and to no expression, if the
orderings are such that their specs can be read (`OrderBy.Readable`). Only the bounds of
the compiler can stop it: the depth, which any member needs one level of, and the largest
limit (`Compiler.compileNodes_dump`). So whatever compiles from it is what was written
(`Compiler.eq_of_compileNodes_dump`).

Key definitions: `OrderBy.Readable`.
Key theorems: `Compiler.orderings_specs`, `Compiler.compileNodes_dump`,
`Compiler.eq_of_compileNodes_dump`, `Compiler.compile_dump`.
-/
import QueryFilter.Proofs.Compiler.Visit
import QueryFilter.Proofs.Modifiers.OrderSpec
import QueryFilter.Proofs.Value.Reread

namespace QueryFilter

/-- A count is read back from what is written for it. -/
theorem Count.ofValue?_ofUInt64 (n : UInt64) :
    ofValue? (Value.ofNumber (Json.Number.ofUInt64 n)) = some n := by
  rw [Json.Number.ofUInt64]
  by_cases hn : Nat.pow 2 63 ≤ n.toNat
  · rw [dif_pos hn]
    rfl
  · have hlt : n.toNat < 2 ^ 63 := by
      rw [Nat.pow_eq] at hn
      omega
    rw [dif_neg hn, Value.ofNumber, ofValue?, Int64.toInt_ofNat_of_lt hlt, if_pos (by omega)]
    simp

/-- Whether an ordering can be read from its spec: its column is found by its reference, and
the reference can stand in a spec. -/
structure OrderBy.Readable {C : Type} [ColumnRef C] (r : Resolver C) (o : OrderBy C) : Prop where
  resolves : r.resolve (ColumnRef.reference o.column) = .ok o.column
  signable : OrderSpec.Signable (ColumnRef.reference o.column)

namespace Compiler

variable {C : Type} [ColumnRef C] {c : Compiler C} {r : Resolver C} {depth : Nat} {m : Modifiers C}

/-! ### Orderings -/

theorem ordering_spec {o : OrderBy C} (h : o.Readable r) : ordering r (.string o.spec) = .ok o := by
  rw [ordering, Value.string?]
  simp only [OrderBy.parse_spec h.signable, h.resolves, bind, Except.bind]

/-- Specs are read one after the other. -/
theorem orderings_specs : ∀ {os : List (OrderBy C)}, (∀ o ∈ os, o.Readable r) →
    orderings r (os.map fun o => .string o.spec) = .ok os
  | [], _ => rfl
  | o :: rest, h => by
    obtain ⟨ho, hrest⟩ := List.forall_mem_cons.mp h
    rw [List.map_cons, orderings]
    simp only [ordering_spec ho, orderings_specs hrest, bind, Except.bind]

/-- Orderings are no member or one, a text or a list of texts, and the specs are read from
either. -/
theorem orderMembers_cases (os : List (OrderBy C)) :
    (os = [] ∧ Modifiers.orderMembers os = []) ∨
      ∃ j, Modifiers.orderMembers os = [(Modifier.orderBy.key, j)] ∧
        orderSpecs (.ofJson Modifier.orderBy.key j) = .ok (os.map fun o => .string o.spec) := by
  match os with
  | [] => exact Or.inl ⟨rfl, rfl⟩
  | [o] => exact Or.inr ⟨_, rfl, rfl⟩
  | o :: o' :: rest =>
    refine Or.inr ⟨_, rfl, ?_⟩
    generalize o :: o' :: rest = os
    have hjson : Json.array (os.map fun o => .string o.spec) =
        (Value.array (os.map fun o => .string o.spec)).toJson := by
      rw [Value.toJson, Value.itemsToJson_eq_map, List.map_map]
      rfl
    have hflat : ∀ v ∈ os.map fun o => Value.string o.spec, v.isArray = false := by
      rw [List.forall_mem_map]
      exact fun _ _ => rfl
    have hportable : Value.AllPortable (os.map fun o => .string o.spec) := by
      rw [Value.allPortable_iff, List.forall_mem_map]
      exact fun _ _ => trivial
    have hsimple : InputNode.isSimpleList (.list Modifier.orderBy.key
        (InputNode.ofItems 0 ((os.map fun o => .string o.spec).map Value.toJson))) = true :=
      InputNode.all_isLeaf_ofItems_iff.mpr hflat
    rw [hjson, InputNode.ofJson_array]
    refine (if_pos hsimple).trans ?_
    rw [InputNode.leafValues, InputNode.children, InputNode.filterMap_ofItems hflat,
      Value.rereadItems_of_portable hportable]

/-! ### One member -/

theorem countOf_written (modifier : Modifier) (n : UInt64) :
    countOf modifier (.ofJson modifier.key (.number (Json.Number.ofUInt64 n))) = .ok n := by
  rw [InputNode.ofJson, countOf, InputNode.value?, Option.bind_some, Count.ofValue?_ofUInt64]

theorem compileNode_modifier {around : Option String} {modifier : Modifier} {j : Json}
    (hd : depth ≤ c.settings.maxDepth.toNat) :
    c.compileNode around depth m (.ofJson modifier.key j) =
      (c.addModifier m modifier (.ofJson modifier.key j)).map fun m' => (none, m') :=
  compileNode_of_modifier (by rw [InputNode.key_ofJson, Modifier.ofKey?_key]) hd

/-- The member of a count that may be missing, before other members. -/
theorem compileNodes_count {modifier : Modifier} {count : Option UInt64}
    {check : UInt64 → Except FilterError Unit} {taken : UInt64 → Modifiers C}
    {rest : List (String × Json)} (hd : depth ≤ c.settings.maxDepth.toNat)
    (hadd : ∀ n, c.addModifier m modifier (.ofJson modifier.key (.number (Json.Number.ofUInt64 n))) =
      (check n).map fun _ => taken n) :
    c.compileNodes none depth m
        (InputNode.ofMembers ((count.map (Modifiers.countMember modifier)).toList ++ rest)) =
      (count.elim (.ok ()) check).bind fun _ =>
        c.compileNodes none depth (count.elim m taken) (InputNode.ofMembers rest) := by
  cases count with
  | none => rfl
  | some n =>
    rw [Option.map_some, Option.toList_some, List.singleton_append, InputNode.ofMembers,
      Modifiers.countMember, compileNodes_cons, compileNode_modifier hd, hadd n]
    simp only [Option.elim_some]
    cases check n with
    | error err => rfl
    | ok _ =>
      simp only [Except.map, Except.bind, Option.toList_none, List.nil_append]
      cases c.compileNodes none depth (taken n) (InputNode.ofMembers rest) <;> rfl

theorem compileNodes_orderings {os : List (OrderBy C)} (hd : depth ≤ c.settings.maxDepth.toNat)
    (ho : ∀ o ∈ os, o.Readable c.resolver) :
    c.compileNodes none depth m (InputNode.ofMembers (Modifiers.orderMembers os)) =
      .ok ([], m.addOrderBy os) := by
  rcases orderMembers_cases os with ⟨rfl, hnone⟩ | ⟨j, hone, hspecs⟩
  · rw [hnone, InputNode.ofMembers, compileNodes_nil, Modifiers.addOrderBy, List.append_nil]
  · have hadd : c.addModifier m .orderBy (.ofJson Modifier.orderBy.key j) = .ok (m.addOrderBy os) := by
      simp only [addModifier, hspecs, orderings_specs ho, bind, Except.bind]
    rw [hone, InputNode.ofMembers, InputNode.ofMembers, compileNodes_cons, compileNode_modifier hd, hadd]
    simp only [Except.map, Except.bind, compileNodes_nil, Option.toList_none, List.append_nil]

/-! ### All members -/

/-- **Modifiers come back.** Within the depth, what is written for modifiers compiles to
them, unless their limit is too large. -/
theorem compileNodes_dump (ho : ∀ o ∈ m.orderBy, o.Readable c.resolver)
    (hd : depth ≤ c.settings.maxDepth.toNat) :
    c.compileNodes none depth .empty (InputNode.ofMembers m.dump) =
      (m.limit.elim (.ok ()) (checkLimit c.settings)).map fun _ => ([], m) := by
  have hlimit : ∀ n, c.addModifier .empty .limit
      (.ofJson Modifier.limit.key (.number (Json.Number.ofUInt64 n))) =
        (checkLimit c.settings n).map fun _ => Modifiers.empty.setLimit n := by
    intro n
    simp only [addModifier, countOf_written, bind, Except.bind]
    cases checkLimit c.settings n <;> rfl
  have hoffset : ∀ (m : Modifiers C) (n : UInt64), c.addModifier m .offset
      (.ofJson Modifier.offset.key (.number (Json.Number.ofUInt64 n))) =
        (Except.ok ()).map fun _ => m.setOffset n := by
    intro m n
    simp only [addModifier, countOf_written, bind, Except.bind]
    rfl
  obtain ⟨limit, offset, os⟩ := m
  rw [Modifiers.dump, List.append_assoc, compileNodes_count hd hlimit,
    compileNodes_count hd (hoffset _), compileNodes_orderings hd ho]
  cases limit <;> cases offset <;> rfl

/-- Nodes that compile are none or have a level. -/
theorem le_maxDepth_of_compileNodes {around : Option String} {nodes : List InputNode}
    {out : List (Expr C) × Modifiers C} (h : c.compileNodes around depth m nodes = .ok out) :
    nodes = [] ∨ depth ≤ c.settings.maxDepth.toNat := by
  cases nodes with
  | nil => exact Or.inl rfl
  | cons node rest =>
    rw [compileNodes_cons] at h
    obtain ⟨first, hfirst, -⟩ := Except.bind_eq_ok.mp h
    exact Or.inr (compileNode_eq_ok hfirst).1

/-- Modifiers for which nothing is written are none. -/
theorem eq_empty_of_dump (h : InputNode.ofMembers m.dump = []) : m = .empty := by
  rw [InputNode.ofMembers_eq_map, List.map_eq_nil_iff] at h
  obtain ⟨limit, offset, os⟩ := m
  obtain ⟨hcounts, horders⟩ := List.append_eq_nil_iff.mp h
  obtain ⟨hlimit, hoffset⟩ := List.append_eq_nil_iff.mp hcounts
  cases limit with
  | some n => cases hlimit
  | none =>
    cases offset with
    | some n => cases hoffset
    | none =>
      rcases orderMembers_cases os with ⟨rfl, -⟩ | ⟨j, hone, -⟩
      · rfl
      · rw [show Modifiers.orderMembers os = [] from horders] at hone
        cases hone

/-- **Nothing else comes back.** If what is written for modifiers compiles, then to them. -/
theorem eq_of_compileNodes_dump (ho : ∀ o ∈ m.orderBy, o.Readable c.resolver)
    {out : List (Expr C) × Modifiers C}
    (h : c.compileNodes none depth .empty (InputNode.ofMembers m.dump) = .ok out) : out = ([], m) := by
  rcases le_maxDepth_of_compileNodes h with hnone | hd
  · rw [hnone, compileNodes_nil] at h
    cases h
    rw [eq_empty_of_dump hnone]
  · rw [compileNodes_dump ho hd] at h
    obtain ⟨-, -, rfl⟩ := Except.map_eq_ok.mp h
    rfl

/-- A limit within its bound passes. -/
theorem checkLimit_eq_ok {settings : CompilerSettings} {n : UInt64}
    (h : ∀ most, settings.maxLimit = some most → n ≤ most) : checkLimit settings n = .ok () := by
  rw [checkLimit]
  cases hmost : settings.maxLimit with
  | none => rfl
  | some most => exact if_neg (UInt64.not_lt.mpr (h most hmost))

/-- **Modifiers survive being written.** Let a compiler have a level, a largest limit that is
not below that of the modifiers, if any, and find the columns of their orderings, by
references that can stand in a spec. Then the input that the modifiers are written as
compiles to no expression and to these modifiers: the counts, and the orderings in their
order with their directions. -/
theorem compile_dump (hd : 1 ≤ c.settings.maxDepth)
    (hlimit : ∀ most, c.settings.maxLimit = some most → ∀ n, m.limit = some n → n ≤ most)
    (horder : ∀ o ∈ m.orderBy, o.Readable c.resolver) :
    c.compile (.ofMembers m.dump) = .ok ⟨none, m⟩ := by
  have hcheck : m.limit.elim (.ok ()) (checkLimit c.settings) = .ok () := by
    cases hn : m.limit with
    | none => rfl
    | some n => exact checkLimit_eq_ok fun most hmost => hlimit most hmost n hn
  have hlevel : 1 ≤ c.settings.maxDepth.toNat := UInt64.le_iff_toNat_le.mp hd
  rw [compile_eq, FilterInput.ofMembers, compileNodes_dump horder hlevel, hcheck]
  rfl

/-- One level and the largest limit there is, over columns whose names look like parts of a
spec. -/
def ofSpecLike : Compiler Column :=
  ⟨.ofCatalog .empty ⟨[.plain "tt" "-asc(name)", .plain "tt" " age"]⟩, ⟨1, some 18446744073709551615⟩,
    .empty⟩

/-- The largest counts, and two orderings. -/
def largestCounts : Modifiers Column :=
  ⟨some 18446744073709551615, some 9223372036854775808,
    [⟨.plain "tt" " age", false⟩, ⟨.plain "tt" "-asc(name)", true⟩]⟩

theorem compile_dump_largestCounts :
    (1 ≤ ofSpecLike.settings.maxDepth ∧
      (∀ most, ofSpecLike.settings.maxLimit = some most → ∀ n, largestCounts.limit = some n →
        n ≤ most) ∧
      ∀ o ∈ largestCounts.orderBy, o.Readable ofSpecLike.resolver) ∧
    ofSpecLike.compile (.ofMembers largestCounts.dump) = .ok ⟨none, largestCounts⟩ := by
  have hdepth : 1 ≤ ofSpecLike.settings.maxDepth := by decide
  have hlimit : ∀ most, ofSpecLike.settings.maxLimit = some most → ∀ n,
      largestCounts.limit = some n → n ≤ most := by
    rintro most ⟨⟩ n ⟨⟩
    decide
  have horder : ∀ o ∈ largestCounts.orderBy, o.Readable ofSpecLike.resolver := by
    intro o ho
    simp only [largestCounts, List.mem_cons, List.not_mem_nil, or_false] at ho
    rcases ho with rfl | rfl <;>
      exact ⟨rfl, by decide, by decide, by rintro ch ⟨⟩; rfl, by decide⟩
  exact ⟨⟨hdepth, hlimit, horder⟩, compile_dump hdepth hlimit horder⟩

end Compiler
end QueryFilter
