/-
# The compiler reads an input literally

The literal tree of an input is what its keys say, one node after the other: a
junction is a junction of the nodes below, a value is a comparison with the
column of the key around it, and any other node joins the nodes below by `and`.
Modifiers are not in it (`FilterInput.literal`). It is made of keys and values
only; a literal tree reads as an expression if each of its values binds a column
and an operator (`Literal.Reads`).

An input that compiles has a literal tree that reads as an expression, and the
predicate is the normal form of it (`Compiler.compile_literal`). The compiler
joins from the bottom up what is left of the nodes; that this is the normal form
of the whole is `Expr.joined_filterMap_normalForm?` at every junction.

Key definitions: `Literal`, `FilterInput.literal`, `Criterion.Binds`,
`Literal.Reads`.
Key theorems: `Literal.Reads.criteria`, `Compiler.visit_follows`,
`Compiler.compileNode_literal`, `Compiler.compile_literal`.
-/
import Mathlib.Data.List.Forall2
import QueryFilter.Proofs.Compiler.Gate
import QueryFilter.Proofs.Compiler.Visit
import QueryFilter.Proofs.Expr.NormalForm

namespace QueryFilter

/-! ### The literal tree -/

/-- A value as it stands in an input: its node, and the key around it that is no
junction, if there is one. -/
structure Criterion where
  around : Option String
  node : InputNode

/-- An input as its keys say. -/
inductive Literal where
  | value (criterion : Criterion)
  | junction (kind : Junction) (children : List Literal)

namespace InputNode

/-- What a node is by its key and its kind. -/
inductive Part where
  /-- A modifier, which is no part of the predicate. -/
  | modifier
  | value (criterion : Criterion)
  /-- A junction of the nodes below, which have this key around them. -/
  | junction (kind : Junction) (around : Option String)

/-- What a node is, with a key around it or none. -/
def part (around : Option String) (node : InputNode) : Part :=
  match Modifier.ofKey? node.key with
  | some _ => .modifier
  | none =>
    match Junction.ofName? node.key with
    | some kind => .junction kind around
    | none =>
      if node.isLeaf || node.isSimpleList then .value ⟨around, node⟩
      else .junction .and (some node.key)

/-- The literal tree of a part, given those of the nodes below. -/
def Part.literal (below : Option String → List Literal) : Part → Option Literal
  | .modifier => none
  | .value criterion => some (.value criterion)
  | .junction kind around => some (.junction kind (below around))

mutual

/-- The literal tree of a node with a key around it or none. -/
def literal (around : Option String) : InputNode → Option Literal
  | .leaf key value => (part around (.leaf key value)).literal fun _ => []
  | .list key children => (part around (.list key children)).literal fun a => literalAll a children
  | .map key children => (part around (.map key children)).literal fun a => literalAll a children

/-- The literal trees of the nodes that are no modifiers. -/
def literalAll (around : Option String) : List InputNode → List Literal
  | [] => []
  | node :: rest => (literal around node).toList ++ literalAll around rest

end

theorem literal_eq (around : Option String) (node : InputNode) :
    node.literal around = (node.part around).literal fun a => literalAll a node.children := by
  cases node with
  | leaf key value =>
    rw [literal]
    cases part around (.leaf key value) <;> rfl
  | list key below | map key below => rw [literal, children]

end InputNode

/-- The literal tree of an input: the nodes at its top joined by `and`. -/
def FilterInput.literal (input : FilterInput) : Literal :=
  .junction .and (InputNode.literalAll none input.nodes)

/-! ### Reading it -/

variable {C : Type}

/-- The value to compare with: the value of a leaf, or the list of the values in a list. -/
def Criterion.value (criterion : Criterion) : Value :=
  match criterion.node.value? with
  | some v => v
  | none => .array criterion.node.leafValues

/-- A value binds the column of the key around it, and the operator that its own
key spells with the value. -/
structure Criterion.Binds (r : Resolver C) (criterion : Criterion) (leaf : C × Operator) : Prop where
  column : ∃ reference, criterion.around = some reference ∧ r.resolve reference = .ok leaf.1
  operator : OperatorKind.ofSymbol? criterion.node.key = some leaf.2.kind
  value : leaf.2.value = criterion.value

namespace Literal

mutual

/-- The values of a literal tree from left to right. -/
def criteria : Literal → List Criterion
  | .value criterion => [criterion]
  | .junction _ children => criteriaAll children

def criteriaAll : List Literal → List Criterion
  | [] => []
  | l :: rest => criteria l ++ criteriaAll rest

end

theorem criteriaAll_eq_flatMap : ∀ ls : List Literal, criteriaAll ls = ls.flatMap criteria
  | [] => rfl
  | l :: rest => by rw [criteriaAll, criteriaAll_eq_flatMap rest, List.flatMap_cons]

/-- A literal tree reads as an expression of the same shape, whose leaves its
values bind. -/
inductive Reads (r : Resolver C) : Literal → Expr C → Prop
  | value {criterion : Criterion} {column : C} {op : Operator} (h : criterion.Binds r (column, op)) :
    Reads r (.value criterion) (.leaf column op)
  | junction {kind : Junction} {ls : List Literal} {es : List (Expr C)}
    (h : List.Forall₂ (Reads r) ls es) : Reads r (.junction kind ls) (.junction kind es)

variable {r : Resolver C}

/-- The leaves are bound by the values, one by one and in their order. -/
theorem Reads.criteria {l : Literal} {e : Expr C} (h : Reads r l e) :
    List.Forall₂ (Criterion.Binds r) l.criteria e.leaves := by
  induction e using Expr.induction generalizing l with
  | leaf column op =>
    cases h with
    | value hb => exact .cons hb .nil
  | junction kind es ih =>
    cases h with
    | junction hall =>
      rw [Literal.criteria, criteriaAll_eq_flatMap, Expr.leaves_junction]
      induction hall with
      | nil => exact .nil
      | cons hfirst _ hrest =>
        obtain ⟨he, hes⟩ := List.forall_mem_cons.mp ih
        rw [List.flatMap_cons, List.flatMap_cons]
        exact List.rel_append (he hfirst) (hrest hes)

/-! ### What is left of it -/

/-- Whether expressions are the normal forms of what literal trees read as,
without the empty ones. -/
def Yields (r : Resolver C) (ls : List Literal) (es : List (Expr C)) : Prop :=
  ∃ read, List.Forall₂ (Reads r) ls read ∧ es = read.filterMap Expr.normalForm?

theorem Yields.append {ls ls' : List Literal} {es es' : List (Expr C)}
    (h : Yields r ls es) (h' : Yields r ls' es') : Yields r (ls ++ ls') (es ++ es') := by
  obtain ⟨read, hread, rfl⟩ := h
  obtain ⟨read', hread', rfl⟩ := h'
  exact ⟨read ++ read', List.rel_append hread hread', (List.filterMap_append ..).symm⟩

/-- A junction of what is read is read as a junction, and joining what is left of
its members leaves the normal form of it. -/
theorem Yields.joined {ls : List Literal} {es : List (Expr C)}
    (h : Yields r ls es) (kind : Junction) :
    ∃ e, Reads r (.junction kind ls) e ∧ Expr.joined kind es = e.normalForm? := by
  obtain ⟨read, hread, rfl⟩ := h
  exact ⟨.junction kind read, .junction hread, Expr.joined_filterMap_normalForm? kind read⟩

end Literal

namespace Compiler

variable [ColumnRef C] {c : Compiler C}

/-- What is done at a node, by what the node is. -/
inductive Follows (r : Resolver C) : InputNode.Part → Step C → Prop
  | modifier (m : Modifiers C) : Follows r .modifier (.done none m)
  | value {criterion : Criterion} {column : C} {op : Operator} (h : criterion.Binds r (column, op))
    (m : Modifiers C) : Follows r (.value criterion) (.done (some (.leaf column op)) m)
  | junction (kind : Junction) (around : Option String) :
    Follows r (.junction kind around) (.descend kind around)

/-- A visit does what the node is. -/
theorem Visits.follows {around : Option String} {m : Modifiers C} {node : InputNode} {step : Step C}
    (h : Visits c around m node step) : Follows c.resolver (node.part around) step := by
  have hleaf : node.isLeaf = node.value?.isSome := by cases node <;> rfl
  rw [InputNode.part]
  cases h with
  | modifier hkey _ =>
    rw [hkey]
    exact .modifier _
  | @value reference column op hm hj ha hresolve hkind hvalue _ =>
    have hpart : (node.isLeaf || node.isSimpleList) = true ∧
        op.value = (Criterion.mk around node).value := by
      rw [Criterion.value, hleaf]
      rcases hvalue with hv | ⟨hl, -, hv⟩
      · simp [hv]
      · have hnone : node.value? = none := by cases node <;> first | rfl | cases hl
        simp [hl, hv, hnone]
    rw [hm, hj]
    dsimp only
    rw [if_pos hpart.1]
    exact .value ⟨⟨reference, ha, hresolve⟩, hkind, hpart.2⟩ m
  | junction hm hj _ =>
    rw [hm, hj]
    exact .junction _ around
  | column hm hj hv hl _ =>
    rw [hm, hj, hleaf, hv, hl]
    exact .junction .and (some node.key)

/-- **One visit.** What is done at a node follows what the node is. -/
theorem visit_follows {around : Option String} {depth : Nat} {m : Modifiers C} {node : InputNode}
    {step : Step C} (h : c.visit around depth m node = .ok step) :
    Follows c.resolver (node.part around) step :=
  (visit_visits h).2.follows

/-! ### The walk -/

theorem compileNodes_literal : ∀ {nodes : List InputNode},
    (∀ node ∈ nodes, ∀ {around depth m e m'}, c.compileNode around depth m node = .ok (e, m') →
      Literal.Yields c.resolver (node.literal around).toList e.toList) →
    ∀ {around depth m es m'}, c.compileNodes around depth m nodes = .ok (es, m') →
      Literal.Yields c.resolver (InputNode.literalAll around nodes) es
  | [], _, around, depth, m, es, m', h => by
    rw [compileNodes_nil] at h
    cases h
    exact ⟨[], .nil, rfl⟩
  | node :: rest, hall, around, depth, m, es, m', h => by
    obtain ⟨hnode, hrest⟩ := List.forall_mem_cons.mp hall
    rw [compileNodes_cons] at h
    obtain ⟨first, hfirst, h⟩ := Except.bind_eq_ok.mp h
    obtain ⟨more, hmore, h⟩ := Except.map_eq_ok.mp h
    cases h
    rw [InputNode.literalAll]
    exact (hnode hfirst).append (compileNodes_literal hrest hmore)

/-- **One node.** What it compiles to is the normal form of what it says, if there
is anything in that. -/
theorem compileNode_literal (node : InputNode) : ∀ {around depth m e m'},
    c.compileNode around depth m node = .ok (e, m') →
      Literal.Yields c.resolver (node.literal around).toList e.toList := by
  induction node using InputNode.induction with
  | step node ih =>
    intro around depth m e m' h
    rw [compileNode_eq] at h
    obtain ⟨step, hstep, h⟩ := Except.bind_eq_ok.mp h
    have hfollows := visit_follows hstep
    rw [InputNode.literal_eq]
    generalize node.part around = part at hfollows
    cases hfollows with
    | modifier m =>
      cases h
      exact ⟨[], .nil, rfl⟩
    | @value criterion column op hb m =>
      cases h
      exact ⟨[.leaf column op], .cons (.value hb) .nil, rfl⟩
    | junction kind around =>
      obtain ⟨r, hr, h⟩ := Except.map_eq_ok.mp h
      cases h
      obtain ⟨e, hread, he⟩ := (compileNodes_literal ih hr).joined kind
      refine ⟨[e], .cons hread .nil, ?_⟩
      rw [he, List.filterMap_cons]
      cases e.normalForm? <;> rfl

/-- **The compiler reads an input literally.** If an input compiles, its literal
tree reads as an expression, of which the predicate is the normal form, and none
if that is empty. So the leaves of the predicate are bound by the values of the
input, in their order and each once; every junction in it has at least two
members, and it is its own normal form. -/
theorem compile_literal (c : Compiler C) (input : FilterInput) (f : Filter C)
    (h : c.compile input = .ok f) :
    ∃ e, input.literal.Reads c.resolver e ∧ f.expression = e.normalForm? ∧
      f.leaves = e.leaves ∧
      List.Forall₂ (Criterion.Binds c.resolver) input.literal.criteria f.leaves ∧
      ∀ e', f.expression = some e' → e'.Full ∧ e'.normalize = e' := by
  rw [compile_eq] at h
  obtain ⟨r, hr, h⟩ := Except.map_eq_ok.mp h
  cases h
  obtain ⟨e, hread, he⟩ := (compileNodes_literal (fun node _ => compileNode_literal node) hr).joined
    .and
  have hleaves : Expr.leavesOf? (Expr.joined .and r.1) = e.leaves := by
    rw [he, Expr.leavesOf?_normalForm?]
  refine ⟨e, hread, he, hleaves, ?_, fun e' he' => ?_⟩
  · rw [Filter.leaves, hleaves]
    exact hread.criteria
  · have hfull : e'.Full := (Expr.normalForm?_eq_some (he ▸ he')).2
    exact ⟨hfull, Expr.normalize_of_full hfull⟩

/-- A limit, an age that is above 21 and one of a list, and a name. -/
def mixed : FilterInput :=
  ⟨[.leaf "limit" (.int 5),
    .map "OR" [.map "age" [.leaf "gt" (.int 21), .map "or" [.list "in" [.leaf "0" (.int 33)]]],
      .map "and" []],
    .map "name" [.leaf "eq" (.string "y")]]⟩

/-- What `mixed` compiles to. -/
def mixedFilter : Filter Column :=
  ⟨some (.junction .and [
      .junction .and [.leaf (.plain "tt" "age") ⟨.gt, .int 21, by decide⟩,
        .leaf (.plain "tt" "age") ⟨.isIn, .array [.int 33], by decide⟩],
      .leaf (.plain "tt" "name") ⟨.eq, .string "y", by decide⟩]),
    Modifiers.empty.setLimit 5⟩

theorem compile_literal_mixed : ofPeople.compile mixed = .ok mixedFilter ∧
    ∃ e, mixed.literal.Reads ofPeople.resolver e ∧ mixedFilter.expression = e.normalForm? := by
  have hcompile : ofPeople.compile mixed = .ok mixedFilter := rfl
  obtain ⟨e, hread, he, -⟩ := compile_literal ofPeople mixed mixedFilter hcompile
  exact ⟨hcompile, e, hread, he⟩

end Compiler
end QueryFilter
