/-
# Reading back what is written for a leaf

The JSON of a value that JSON can hold is read as a node of that value, and the
JSON of a list of such values as the list node of them. So the member that is
written for an operator compiles, under its column, to the leaf it was written
for (`Compiler.compileNode_operator`), and the object that is written for the
leaves of one column to these leaves joined by `and`
(`Compiler.compileNode_column`).

Key definitions: `Operator.Plain`, `Compiler.Reads`.
Key theorems: `Compiler.compileNode_operator`, `Compiler.compileNode_column`.
-/
import QueryFilter.Proofs.Compiler.Walk
import QueryFilter.Proofs.Expr.Merge
import QueryFilter.Proofs.Value.Reread

namespace QueryFilter

/-! ### Operators as members -/

namespace Operator

/-- Whether an operator is written so that it can be read: its value is one
that JSON can hold, a list only where the comparison takes one, and then not a
list of lists. -/
structure Plain (op : Operator) : Prop where
  portable : op.value.Portable
  single : op.kind.expectsSequence = false → op.value.isArray = false
  flat : ∀ vs, op.value = .array vs → ∀ v ∈ vs, v.isArray = false

theorem Plain.of_single {op : Operator} (hp : op.value.Portable) (ha : op.value.isArray = false) :
    op.Plain where
  portable := hp
  single _ := ha
  flat vs hv := by
    rw [hv] at ha
    cases ha

theorem Plain.of_list {kind : OperatorKind} {vs : List Value}
    {hs : kind.expectsSequence = true → (Value.array vs).isArray = true}
    (hk : kind.expectsSequence = true) (hp : Value.AllPortable vs)
    (hf : ∀ v ∈ vs, v.isArray = false) : Plain ⟨kind, .array vs, hs⟩ where
  portable := by rwa [Value.Portable]
  single h := by
    rw [hk] at h
    cases h
  flat vs' hv := by
    cases hv
    exact hf

theorem ofSymbol_symbol (op : Operator) : ofSymbol op.symbol op.value = .ok op := by
  rw [ofSymbol, symbol, OperatorKind.ofSymbol?_symbol]
  exact ofKind_eq_ok.mpr ⟨rfl, rfl⟩

theorem ofKey?_symbol (op : Operator) : Modifier.ofKey? op.symbol = none := by
  unfold symbol
  cases op.kind <;> decide

theorem ofName?_symbol (op : Operator) : Junction.ofName? op.symbol = none := by
  unfold symbol
  cases op.kind <;> decide

end Operator

namespace Compiler

variable {C : Type} [ColumnRef C]

/-- Whether the compiler reads a leaf back that is written under the reference
of its column. -/
structure Reads (c : Compiler C) (leaf : C × Operator) : Prop where
  resolves : c.resolver.resolve (ColumnRef.reference leaf.1) = .ok leaf.1
  noJunction : Junction.isName (ColumnRef.reference leaf.1) = false
  noModifier : Modifier.ofKey? (ColumnRef.reference leaf.1) = none
  allowed : c.restrictions.isAllowed (ColumnRef.name leaf.1) leaf.2 = true
  plain : leaf.2.Plain

theorem leaf_of_reads {c : Compiler C} {column : C} {op : Operator} (h : c.Reads (column, op)) :
    c.leaf (ColumnRef.reference column) op.symbol op.value = .ok (.leaf column op) := by
  rw [leaf_eq, h.resolves]
  simp only [Except.bind, op.ofSymbol_symbol, RestrictionSet.check_eq_ok_iff.mpr h.allowed]
  rfl

theorem visit_eq_visitPlain {c : Compiler C} {column : Option String} {depth : Nat}
    {modifiers : Modifiers C} (node : InputNode) (hd : depth ≤ c.settings.maxDepth.toNat)
    (hm : Modifier.ofKey? node.key = none) (hj : Junction.ofName? node.key = none) :
    c.visit column depth modifiers node = c.visitPlain column modifiers node := by
  rw [visit, if_neg (by omega), hm, hj]

/-- The member written for an operator compiles to its leaf. -/
theorem compileNode_operator {c : Compiler C} {column : C} {op : Operator} {depth : Nat}
    (h : c.Reads (column, op)) (hd : depth ≤ c.settings.maxDepth.toNat) (modifiers : Modifiers C) :
    c.compileNode (some (ColumnRef.reference column)) depth modifiers
      (.ofJson op.symbol op.value.toJson) = .ok (some (.leaf column op), modifiers) := by
  have hleaf : ∀ value, value = op.value →
      c.visitLeaf modifiers (ColumnRef.reference column) op.symbol value =
        .ok (.done (some (.leaf column op)) modifiers) := by
    rintro value rfl
    rw [visitLeaf, leaf_of_reads h]
    rfl
  have hback : op.value.reread = op.value := Value.reread_of_portable h.plain.portable
  rw [compileNode_eq]
  cases ha : op.value.isArray with
  | false =>
    rw [InputNode.ofJson_reread ha, hback,
      visit_eq_visitPlain (.leaf op.symbol op.value) hd op.ofKey?_symbol op.ofName?_symbol,
      visitPlain_eq]
    simp only [InputNode.value?, InputNode.key, attached, Except.bind, hleaf op.value rfl]
  | true =>
    obtain ⟨vs, hvs⟩ := Value.exists_of_isArray ha
    have hflat : ∀ v ∈ vs, v.isArray = false := h.plain.flat vs hvs
    have hnode : InputNode.ofJson op.symbol op.value.toJson =
        .list op.symbol (InputNode.ofItems 0 (vs.map Value.toJson)) := by
      rw [hvs, InputNode.ofJson_array]
    have hseq : op.kind.expectsSequence = true := by
      cases hs : op.kind.expectsSequence with
      | true => rfl
      | false => rw [h.plain.single hs] at ha; cases ha
    have hrefuse : refusesList op.symbol = false := by
      rw [refusesList, Operator.symbol, OperatorKind.ofSymbol?_symbol]
      simp [hseq]
    have hvalues : Value.array (InputNode.leafValues
        (.list op.symbol (InputNode.ofItems 0 (vs.map Value.toJson)))) = op.value := by
      rw [InputNode.leafValues, InputNode.children, InputNode.filterMap_ofItems hflat, ← Value.reread,
        ← hvs, hback]
    rw [hnode, visit_eq_visitPlain (.list op.symbol (InputNode.ofItems 0 (vs.map Value.toJson))) hd
      op.ofKey?_symbol op.ofName?_symbol, visitPlain_eq]
    simp only [InputNode.value?, InputNode.isSimpleList, InputNode.all_isLeaf_ofItems_iff.mpr hflat,
      InputNode.key, attached, Except.bind, hrefuse, Bool.false_eq_true, ↓reduceIte,
      hleaf _ hvalues]

/-- A node that is an object under the reference of a column filters by that
column what stands below it. -/
theorem compileNode_reference {c : Compiler C} {key : String} {depth : Nat}
    (hj : Junction.isName key = false) (hm : Modifier.ofKey? key = none)
    (hd : depth ≤ c.settings.maxDepth.toNat) (modifiers : Modifiers C) (children : List InputNode) :
    c.compileNode none depth modifiers (.map key children) =
      (c.compileNodes (some key) (depth + 1) modifiers children).map fun r =>
        (Expr.joined .and r.1, r.2) := by
  have hname : Junction.ofName? key = none := by
    rw [Junction.isName] at hj
    cases hn : Junction.ofName? key with
    | none => rfl
    | some kind => rw [hn] at hj; cases hj
  have hkey : InputNode.ReadAsColumn (none : Option String).isSome key :=
    ⟨hm, hname, fun hbelow => by cases hbelow⟩
  rw [compileNode_eq, c.visit_of_readAsColumn hkey, if_neg (Nat.not_lt.mpr hd)]
  rfl

/-- **Leaves of one column.** The object that is written for them compiles to
the leaves joined by `and`. -/
theorem compileNode_column {c : Compiler C} {key : String} {es : List (Expr C)} {depth : Nat}
    (hj : Junction.isName key = false) (hm : Modifier.ofKey? key = none)
    (hleaf : ∀ e ∈ es, ∃ column op, e = .leaf column op ∧ ColumnRef.reference column = key ∧
      c.Reads (column, op))
    (hd : depth + 1 ≤ c.settings.maxDepth.toNat) (modifiers : Modifiers C) :
    c.compileNode none depth modifiers (.map key (InputNode.ofMembers (es.flatMap Expr.body))) =
      .ok (Expr.joined .and es, modifiers) := by
  have hnodes : ∀ {es : List (Expr C)}, (∀ e ∈ es, ∃ column op, e = .leaf column op ∧
        ColumnRef.reference column = key ∧ c.Reads (column, op)) →
      c.compileNodes (some key) (depth + 1) modifiers
        (InputNode.ofMembers (es.flatMap Expr.body)) = .ok (es, modifiers) := by
    intro es hes
    induction es with
    | nil => exact compileNodes_nil c (some key) (depth + 1) modifiers
    | cons e rest ih =>
      obtain ⟨⟨column, op, rfl, rfl, hreads⟩, hrest⟩ := List.forall_mem_cons.mp hes
      rw [InputNode.ofMembers_eq_map] at ih ⊢
      rw [List.flatMap_cons, Expr.body_leaf, List.singleton_append, List.map_cons, compileNodes_cons,
        compileNode_operator hreads hd, Except.bind, ih hrest]
      rfl
  rw [compileNode_reference hj hm (by omega), hnodes hleaf]
  rfl

end Compiler
end QueryFilter
