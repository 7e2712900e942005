/-
# The walk over an input, as equations

`Compiler.compileNode` is one visit and then a recursion over the nodes below
(`Compiler.compileNode_eq`), whatever the kind of node; `Compiler.compileNodes`
threads the modifiers through a list of nodes. Nodes that leave the modifiers
as they are compile one by one (`Compiler.compileNodes_map`). A visit sees
little of a node (`InputNode.SeenAs`), and does the same at nodes that look alike
(`Compiler.visit_of_seenAs`).

Key definitions: `InputNode.SeenAs`, `InputNode.ReadAsColumn`.
Key theorems: `Compiler.visit_of_seenAs`, `Compiler.visit_of_readAsColumn`,
`Compiler.compileNode_eq`, `Compiler.compileNodes_map`.
-/
import Mathlib.Data.List.Forall2
import QueryFilter.Compiler
import QueryFilter.Proofs.Expr.Leaves

namespace QueryFilter

/-- Whether a visit sees the same at another node: the key, the value, and the values of a
list of values. It sees nothing else of what is below. -/
structure InputNode.SeenAs (node other : InputNode) : Prop where
  key : other.key = node.key
  value : other.value? = node.value?
  simple : other.isSimpleList = node.isSimpleList
  values : node.isSimpleList = true → other.leafValues = node.leafValues

theorem InputNode.isLeaf_eq (node : InputNode) : node.isLeaf = node.value?.isSome := by
  cases node <;> rfl

namespace InputNode

/-- Whether a map under a key holds what a column is compared with. Below another column the
symbol of an operator is no reference. -/
structure ReadAsColumn (below : Bool) (key : String) : Prop where
  modifier : Modifier.ofKey? key = none
  junction : Junction.ofName? key = none
  operator : below = true → OperatorKind.isSymbol key = false

/-- A visit of a list sees no more of the nodes below than their values. -/
theorem SeenAs.list (key : String) {children children' : List InputNode}
    (h : children'.map value? = children.map value?) :
    (InputNode.list key children).SeenAs (.list key children') := by
  have hleaves : ∀ nodes : List InputNode,
      nodes.all isLeaf = (nodes.map value?).all Option.isSome := fun nodes => by
    rw [List.all_map]
    exact congrArg nodes.all (funext isLeaf_eq)
  have hvalues : ∀ nodes : List InputNode,
      nodes.filterMap value? = (nodes.map value?).filterMap id := fun nodes => by
    rw [List.filterMap_map, Function.id_comp]
  refine ⟨rfl, rfl, ?_, fun _ => ?_⟩
  · show children'.all isLeaf = children.all isLeaf
    rw [hleaves, hleaves, h]
  · show children'.filterMap value? = children.filterMap value?
    rw [hvalues, hvalues, h]

/-- A visit of a map sees nothing of the nodes below. -/
theorem SeenAs.map (key : String) (children children' : List InputNode) :
    (InputNode.map key children).SeenAs (.map key children') :=
  ⟨rfl, rfl, rfl, fun hlist => by cases hlist⟩

theorem map_value?_of_forall₂ {r : InputNode → InputNode → Prop}
    (hr : ∀ {node node' : InputNode}, r node node' → node'.value? = node.value?)
    {nodes nodes' : List InputNode} (h : List.Forall₂ r nodes nodes') :
    nodes'.map value? = nodes.map value? := by
  induction h with
  | nil => rfl
  | cons hfirst _ ih => rw [List.map_cons, List.map_cons, ih, hr hfirst]

end InputNode

namespace Compiler

variable {C : Type} [ColumnRef C]

/-- A leaf, step by step: its column, its operator, the check. -/
theorem leaf_eq (c : Compiler C) (reference symbol : String) (value : Value) :
    c.leaf reference symbol value =
      (c.resolver.resolve reference).bind fun column =>
        (Operator.ofSymbol symbol value).bind fun op =>
          (c.restrictions.check (ColumnRef.name column) op).map fun _ => .leaf column op := by
  unfold leaf
  cases c.resolver.resolve reference with
  | error err => rfl
  | ok column =>
    cases Operator.ofSymbol symbol value with
    | error err => rfl
    | ok op =>
      simp only [bind, Except.bind]
      cases c.restrictions.check (ColumnRef.name column) op <;> rfl

/-- The visit that ends in the leaf of a value. -/
def visitLeaf (c : Compiler C) (modifiers : Modifiers C) (reference symbol : String)
    (value : Value) : Except FilterError (Step C) :=
  (c.leaf reference symbol value).map fun e => .done (some e) modifiers

theorem visitPlain_eq (c : Compiler C) (column : Option String) (modifiers : Modifiers C)
    (node : InputNode) :
    c.visitPlain column modifiers node =
      match node.value? with
      | some value => (attached column node.key).bind fun reference =>
          c.visitLeaf modifiers reference node.key value
      | none =>
        if node.isSimpleList then (attached column node.key).bind fun reference =>
          if refusesList node.key then .error (.listNotTaken node.key)
          else c.visitLeaf modifiers reference node.key (.array node.leafValues)
        else if column.isSome ∧ OperatorKind.isSymbol node.key then
          .error (.operatorWithMembers node.key)
        else .ok (.descend .and (some node.key)) := by
  have hmap : ∀ x : Except FilterError (Expr C),
      (x.bind fun e => .ok (Step.done (some e) modifiers)) =
        x.map fun e => Step.done (some e) modifiers := fun x => by cases x <;> rfl
  unfold visitPlain visitLeaf
  cases node.value? with
  | some value =>
    cases attached column node.key with
    | error err => rfl
    | ok reference => exact hmap _
  | none =>
    dsimp only
    by_cases hl : node.isSimpleList = true
    · rw [if_pos hl, if_pos hl]
      cases attached column node.key with
      | error err => rfl
      | ok reference =>
        simp only [bind, Except.bind]
        cases refusesList node.key with
        | true => rfl
        | false => exact hmap _
    · rw [if_neg hl, if_neg hl]

/-! ### What a visit sees of a node -/

theorem orderSpecs_of_seenAs {node other : InputNode} (h : node.SeenAs other) :
    orderSpecs other = orderSpecs node := by
  rw [orderSpecs, orderSpecs, h.value, h.simple]
  cases node.value? with
  | some v => rfl
  | none =>
    by_cases hl : node.isSimpleList = true
    · simp only [if_pos hl, h.values hl]
    · simp only [if_neg hl]

omit [ColumnRef C] in
theorem addModifier_of_seenAs (c : Compiler C) {node other : InputNode}
    (h : node.SeenAs other) (m : Modifiers C) (modifier : Modifier) :
    c.addModifier m modifier other = c.addModifier m modifier node := by
  cases modifier with
  | limit | offset => rw [addModifier, addModifier, countOf, countOf, h.value]
  | orderBy => rw [addModifier, addModifier, orderSpecs_of_seenAs h]

theorem visitPlain_of_seenAs (c : Compiler C) {node other : InputNode} (h : node.SeenAs other)
    (column : Option String) (modifiers : Modifiers C) :
    c.visitPlain column modifiers other = c.visitPlain column modifiers node := by
  rw [visitPlain_eq, visitPlain_eq, h.key, h.value, h.simple]
  cases node.value? with
  | some v => rfl
  | none =>
    by_cases hl : node.isSimpleList = true
    · simp only [if_pos hl, h.values hl]
    · simp only [if_neg hl]

/-- A visit does the same where it sees the same. -/
theorem visit_of_seenAs (c : Compiler C) {node other : InputNode} (h : node.SeenAs other)
    (column : Option String) (depth : Nat) (modifiers : Modifiers C) :
    c.visit column depth modifiers other = c.visit column depth modifiers node := by
  rw [visit, visit, h.key, other.isLeaf_eq, node.isLeaf_eq, h.value, c.visitPlain_of_seenAs h]
  simp only [c.addModifier_of_seenAs h]

/-- A map under the key of a column is gone into. -/
theorem visit_of_readAsColumn (c : Compiler C) {column : Option String} {key : String}
    (hkey : InputNode.ReadAsColumn column.isSome key) (depth : Nat) (modifiers : Modifiers C)
    (children : List InputNode) :
    c.visit column depth modifiers (.map key children) =
      if c.settings.maxDepth.toNat < depth then .error (.tooDeep c.settings.maxDepth)
      else .ok (.descend .and (some key)) := by
  have hsymbol : ¬ (column.isSome ∧ OperatorKind.isSymbol key) := by
    rintro ⟨hbelow, hsymbol⟩
    rw [hkey.operator hbelow] at hsymbol
    cases hsymbol
  simp only [visit, InputNode.key, hkey.modifier, hkey.junction, visitPlain_eq, InputNode.value?,
    InputNode.isSimpleList, Bool.false_eq_true, hsymbol, ↓reduceIte]

/-! ### The recursion -/

/-- A node is visited, and then, unless it is dealt with, the nodes below are
compiled and joined. A leaf has none, and nothing comes of joining none. -/
theorem compileNode_eq (c : Compiler C) (column : Option String) (depth : Nat)
    (modifiers : Modifiers C) (node : InputNode) :
    c.compileNode column depth modifiers node =
      (c.visit column depth modifiers node).bind fun
        | .done e modifiers => .ok (e, modifiers)
        | .descend kind column =>
          (c.compileNodes column (depth + 1) modifiers node.children).map fun r =>
            (Expr.joined kind r.1, r.2) := by
  cases node with
  | leaf key value =>
    rw [compileNode]
    cases c.visit column depth modifiers (.leaf key value) with
    | error err => rfl
    | ok step =>
      cases step with
      | done e m => rfl
      | descend kind column =>
        simp only [bind, Except.bind, InputNode.children, compileNodes]
        rfl
  | list key children | map key children =>
    rw [compileNode]
    cases c.visit column depth modifiers _ with
    | error err => rfl
    | ok step =>
      cases step with
      | done e m => rfl
      | descend kind column =>
        simp only [bind, Except.bind, InputNode.children]
        cases c.compileNodes column (depth + 1) modifiers children <;> rfl

/-- A modifier within the depth is taken, and nothing else comes of it. -/
theorem compileNode_of_modifier {c : Compiler C} {column : Option String} {depth : Nat}
    {modifiers : Modifiers C} {node : InputNode} {modifier : Modifier}
    (hkey : Modifier.ofKey? node.key = some modifier) (hd : depth ≤ c.settings.maxDepth.toNat) :
    c.compileNode column depth modifiers node =
      (c.addModifier modifiers modifier node).map fun m => (none, m) := by
  rw [compileNode_eq, visit, if_neg (by omega), hkey]
  dsimp only
  cases c.addModifier modifiers modifier node <;> rfl

theorem compileNodes_nil (c : Compiler C) (column : Option String) (depth : Nat)
    (modifiers : Modifiers C) : c.compileNodes column depth modifiers [] = .ok ([], modifiers) := by
  rw [compileNodes]

theorem compileNodes_cons (c : Compiler C) (column : Option String) (depth : Nat)
    (modifiers : Modifiers C) (node : InputNode) (rest : List InputNode) :
    c.compileNodes column depth modifiers (node :: rest) =
      (c.compileNode column depth modifiers node).bind fun first =>
        (c.compileNodes column depth first.2 rest).map fun more =>
          (first.1.toList ++ more.1, more.2) := by
  rw [compileNodes]
  cases c.compileNode column depth modifiers node with
  | error err => rfl
  | ok first =>
    simp only [bind, Except.bind]
    cases c.compileNodes column depth first.2 rest <;> rfl

/-- Nodes that leave the modifiers as they are compile one by one. -/
theorem compileNodes_map {α : Type} {c : Compiler C} {column : Option String} {depth : Nat}
    {modifiers : Modifiers C} {node : α → InputNode} {e : α → Option (Expr C)} :
    ∀ {as : List α},
      (∀ a ∈ as, c.compileNode column depth modifiers (node a) = .ok (e a, modifiers)) →
      c.compileNodes column depth modifiers (as.map node) = .ok (as.filterMap e, modifiers)
  | [], _ => compileNodes_nil c column depth modifiers
  | a :: as, h => by
    have ih := compileNodes_map fun a' ha' => h a' (List.mem_cons_of_mem a ha')
    rw [List.map_cons, compileNodes_cons, h a List.mem_cons_self]
    simp only [Except.bind, ih, Except.map, List.filterMap_cons]
    cases e a <;> rfl

theorem compile_eq (c : Compiler C) (input : FilterInput) :
    c.compile input =
      (c.compileNodes none 1 .empty input.nodes).map fun r => ⟨Expr.joined .and r.1, r.2⟩ := by
  rw [compile]
  simp only [bind, Except.bind]
  cases c.compileNodes none 1 .empty input.nodes <;> rfl

/-- A compiler over one table of which all columns are selected. -/
def ofPeople : Compiler Column :=
  ⟨.ofCatalog (.ofTables [⟨"tt", ["name", "age"]⟩]) ⟨[.plain "tt" "name", .plain "tt" "age"]⟩,
    .default, .empty⟩

end Compiler
end QueryFilter
