/-
# Modifiers and the predicate do not meddle with each other

Modifiers may stand anywhere in an input, between the filters. An input falls into two:
what is left when the modifiers are taken out, at whatever depth they stand
(`FilterInput.withoutModifiers`), and the modifiers that were taken out, side by side and
in their order (`FilterInput.modifierNodes`). If the input compiles, the first compiles to
its predicate alone and the second to its modifiers alone (`Compiler.compile_apart`).

A visit to a node does not see what is taken out below it, since modifiers stand in maps
and among the nodes of a junction, and the nodes of a list are keyed by their places. That
is where it matters how inputs are made: a list with a limit in it would lose a value.

Key definitions: `InputNode.withoutModifiers`, `InputNode.modifierNodes`.
Key theorems: `InputNode.seenAs_withoutModifiers`, `Compiler.compileNode_withoutModifiers`,
`Compiler.compileNodes_modifierNodes`, `Compiler.compile_apart`.
-/
import QueryFilter.Proofs.Compiler.Modifiers
import QueryFilter.Proofs.Compiler.Siblings
import QueryFilter.Proofs.Input.Codec
import QueryFilter.Proofs.Keyword

namespace QueryFilter

/-! ### Taking the modifiers out -/

namespace InputNode

/-- Whether the key of a node is that of a modifier. -/
def isModifier (node : InputNode) : Bool := (Modifier.ofKey? node.key).isSome

mutual

/-- A node without the modifiers below it. -/
def withoutModifiers : InputNode → InputNode
  | .leaf key value => .leaf key value
  | .list key children => .list key (withoutModifiersAll children)
  | .map key children => .map key (withoutModifiersAll children)

/-- The nodes that are no modifiers, without the modifiers below them. -/
def withoutModifiersAll : List InputNode → List InputNode
  | [] => []
  | node :: rest =>
    if node.isModifier then withoutModifiersAll rest
    else withoutModifiers node :: withoutModifiersAll rest

end

mutual

/-- The modifiers at a node and below it, in their order. What is within a modifier is part
of it. -/
def modifierNodes : InputNode → List InputNode
  | .leaf key value => if isModifier (.leaf key value) then [.leaf key value] else []
  | .list key children =>
    if isModifier (.list key children) then [.list key children] else modifierNodesAll children
  | .map key children =>
    if isModifier (.map key children) then [.map key children] else modifierNodesAll children

def modifierNodesAll : List InputNode → List InputNode
  | [] => []
  | node :: rest => modifierNodes node ++ modifierNodesAll rest

end

theorem modifierNodes_eq (node : InputNode) :
    node.modifierNodes = if node.isModifier then [node] else modifierNodesAll node.children := by
  cases node <;> rfl

theorem children_withoutModifiers (node : InputNode) :
    node.withoutModifiers.children = withoutModifiersAll node.children := by
  cases node <;> rfl

theorem value?_withoutModifiers (node : InputNode) : node.withoutModifiers.value? = node.value? := by
  cases node <;> rfl

/-- Where no node is a modifier, none is taken out. -/
theorem withoutModifiersAll_of_none : ∀ {nodes : List InputNode},
    (∀ node ∈ nodes, node.isModifier = false) →
    withoutModifiersAll nodes = nodes.map withoutModifiers
  | [], _ => rfl
  | node :: rest, h => by
    obtain ⟨hnode, hrest⟩ := List.forall_mem_cons.mp h
    rw [withoutModifiersAll, hnode, withoutModifiersAll_of_none hrest]
    rfl

theorem modifierNodesAll_of_leaves : ∀ {nodes : List InputNode},
    (∀ node ∈ nodes, node.isModifier = false) → nodes.all isLeaf = true →
    modifierNodesAll nodes = []
  | [], _, _ => rfl
  | node :: rest, h, hl => by
    obtain ⟨hnode, hrest⟩ := List.forall_mem_cons.mp h
    rw [List.all_cons, Bool.and_eq_true] at hl
    rw [modifierNodesAll, modifierNodesAll_of_leaves hrest hl.2, modifierNodes_eq, hnode]
    cases node with
    | leaf key value => rfl
    | list key children | map key children => cases hl.1

/-! ### The nodes of a list are no modifiers -/

theorem IndexedFrom.forall_mem : ∀ {nodes : List InputNode} {index : Nat}, IndexedFrom index nodes →
    ∀ node ∈ nodes, node.Indexed ∧ node.isModifier = false
  | [], _, _ => fun node hnode => by cases hnode
  | node :: rest, index, h => by
    obtain ⟨hkey, hnode, hrest⟩ := h
    refine List.forall_mem_cons.mpr ⟨⟨hnode, ?_⟩, IndexedFrom.forall_mem hrest⟩
    rw [isModifier, hkey, Modifier.ofKey?_of_digits (isDigit_indexKey index)]
    rfl

theorem Indexed.child {node : InputNode} (h : node.Indexed) :
    ∀ child ∈ node.children, child.Indexed := by
  cases node with
  | leaf key value => exact fun child hchild => by cases hchild
  | list key children => exact fun child hchild => (IndexedFrom.forall_mem h child hchild).1
  | map key children => exact allIndexed_iff.mp h

/-- A visit does not see that the modifiers below a node are taken out. -/
theorem seenAs_withoutModifiers {node : InputNode} (h : node.Indexed) :
    node.SeenAs node.withoutModifiers := by
  cases node with
  | leaf key value => exact ⟨rfl, rfl, rfl, fun _ => rfl⟩
  | map key children => exact .map key ..
  | list key children =>
    have hkept : withoutModifiersAll children = children.map withoutModifiers :=
      withoutModifiersAll_of_none fun child hchild => (IndexedFrom.forall_mem h child hchild).2
    rw [withoutModifiers, hkept]
    refine .list key ?_
    rw [List.map_map]
    exact List.map_congr_left fun child _ => child.value?_withoutModifiers

end InputNode

namespace FilterInput

/-- An input without the modifiers, at whatever depth they stand. -/
def withoutModifiers (input : FilterInput) : FilterInput :=
  ⟨InputNode.withoutModifiersAll input.nodes⟩

/-- The modifiers of an input side by side. -/
def modifierNodes (input : FilterInput) : FilterInput := ⟨InputNode.modifierNodesAll input.nodes⟩

end FilterInput

namespace Compiler

variable {C : Type} [ColumnRef C] {c : Compiler C} {around : Option String} {depth : Nat}
  {m m' : Modifiers C} {node : InputNode}

/-! ### What is left -/

/-- A modifier compiles to no expression. -/
theorem compileNode_of_isModifier {e : Option (Expr C)} (hm : node.isModifier = true)
    (h : c.compileNode around depth m node = .ok (e, m')) : e = none := by
  obtain ⟨modifier, hkey⟩ := Option.isSome_iff_exists.mp hm
  rw [compileNode_of_modifier hkey (compileNode_eq_ok h).1] at h
  obtain ⟨_, -, hr⟩ := Except.map_eq_ok.mp h
  cases hr
  rfl

theorem compileNodes_withoutModifiers_of_nodes : ∀ {nodes : List InputNode},
    (∀ node ∈ nodes, node.isModifier = false → ∀ {around depth e m'},
      c.compileNode around depth .empty node = .ok (e, m') →
      c.compileNode around depth .empty node.withoutModifiers = .ok (e, .empty)) →
    ∀ {around depth es m'}, c.compileNodes around depth .empty nodes = .ok (es, m') →
      c.compileNodes around depth .empty (InputNode.withoutModifiersAll nodes) = .ok (es, .empty)
  | [], _, around, depth, es, m', h => by
    rw [compileNodes_nil] at h
    cases h
    exact compileNodes_nil c around depth .empty
  | node :: rest, hall, around, depth, es, m', h => by
    obtain ⟨hnode, hrest⟩ := List.forall_mem_cons.mp hall
    rw [compileNodes_cons_apart] at h
    obtain ⟨⟨e, m₁⟩, hfirst, h⟩ := Except.bind_eq_ok.mp h
    obtain ⟨⟨es', m₂⟩, hmore, h⟩ := Except.map_eq_ok.mp h
    have ih := compileNodes_withoutModifiers_of_nodes hrest hmore
    cases h
    rw [InputNode.withoutModifiersAll]
    cases hm : node.isModifier with
    | true =>
      rw [compileNode_of_isModifier hm hfirst]
      exact ih
    | false =>
      rw [if_neg Bool.false_ne_true, compileNodes_cons, hnode hm hfirst]
      simp only [Except.bind, ih, Except.map]

/-- **A node without the modifiers below it** compiles to the same expression, and to no
modifiers. -/
theorem compileNode_withoutModifiers (node : InputNode) : node.Indexed → node.isModifier = false →
    ∀ {around depth e m'}, c.compileNode around depth .empty node = .ok (e, m') →
      c.compileNode around depth .empty node.withoutModifiers = .ok (e, .empty) := by
  induction node using InputNode.induction with
  | step node ih =>
    intro hi hm around depth e m' h
    rw [compileNode_eq] at h
    obtain ⟨step, hstep, h⟩ := Except.bind_eq_ok.mp h
    rw [compileNode_eq, visit_of_seenAs c (InputNode.seenAs_withoutModifiers hi), hstep]
    cases (visit_visits hstep).2 with
    | modifier hkey _ =>
      rw [InputNode.isModifier, hkey] at hm
      cases hm
    | value _ _ _ _ _ _ _ =>
      cases h
      rfl
    | junction _ _ _ | column _ _ _ _ _ =>
      obtain ⟨⟨es, m₁⟩, hwalk, h⟩ := Except.map_eq_ok.mp h
      cases h
      have hbelow := compileNodes_withoutModifiers_of_nodes
        (fun child hchild => ih child hchild (hi.child child hchild)) hwalk
      simp only [Except.bind, InputNode.children_withoutModifiers, hbelow, Except.map]

/-! ### What is taken out -/

/-- A value has no modifiers below it. -/
theorem modifierNodes_of_value {v : Value} (hi : node.Indexed) (hm : Modifier.ofKey? node.key = none)
    (hvalue : node.value? = some v ∨ node.isSimpleList = true) : node.modifierNodes = [] := by
  rw [InputNode.modifierNodes_eq, InputNode.isModifier, hm]
  cases node with
  | leaf key value => rfl
  | list key children =>
    have hlist : (InputNode.list key children).isSimpleList = true := by
      rcases hvalue with hv | hl
      · cases hv
      · exact hl
    exact InputNode.modifierNodesAll_of_leaves
      (fun child hchild => (InputNode.IndexedFrom.forall_mem hi child hchild).2) hlist
  | map key children => rcases hvalue with hv | hl <;> contradiction

/-- **The modifiers of nodes**, side by side at the top, add what they add where they
stand. -/
theorem compileNodes_modifierNodes (hd : 1 ≤ c.settings.maxDepth.toNat) {nodes : List InputNode}
    {es : List (Expr C)} (h : c.compileNodes around depth m nodes = .ok (es, m')) :
    (∀ node ∈ nodes, node.Indexed) →
      c.compileNodes none 1 m (InputNode.modifierNodesAll nodes) = .ok ([], m') := by
  -- Along the walk and not over the tree: it goes into no modifier, and hands on the modifiers.
  refine compileNodes_induction
    (motive := fun _ _ m nodes _ m' => (∀ node ∈ nodes, node.Indexed) →
      c.compileNodes none 1 m (InputNode.modifierNodesAll nodes) = .ok ([], m'))
    (fun _ _ m _ => compileNodes_nil c none 1 m) ?_ ?_ h
  · intro around depth m node rest e m₁ es m' _ hvisits ih hnodes
    obtain ⟨hnode, hrest⟩ := List.forall_mem_cons.mp hnodes
    rw [InputNode.modifierNodesAll]
    cases hvisits with
    | modifier hkey hadd =>
      have hself : node.modifierNodes = [node] := by
        rw [InputNode.modifierNodes_eq, InputNode.isModifier, hkey]
        rfl
      rw [hself, List.singleton_append, compileNodes_cons, compileNode_of_modifier hkey hd, hadd]
      simp only [Except.map, Except.bind, ih hrest]
      rfl
    | value hm _ _ _ _ hvalue _ =>
      rw [modifierNodes_of_value hnode hm (hvalue.imp_right And.left), List.nil_append]
      exact ih hrest
  · intro around depth m node rest kind inner below m₁ es m' _ hvisits ihbelow ih hnodes
    obtain ⟨hnode, hrest⟩ := List.forall_mem_cons.mp hnodes
    have hm : Modifier.ofKey? node.key = none := by
      cases hvisits with
      | junction hm _ _ => exact hm
      | column hm _ _ _ _ => exact hm
    have hself : node.modifierNodes = InputNode.modifierNodesAll node.children := by
      rw [InputNode.modifierNodes_eq, InputNode.isModifier, hm]
      rfl
    rw [InputNode.modifierNodesAll, hself, compileNodes_append, ihbelow hnode.child]
    simp only [Except.bind, ih hrest, Except.map, List.nil_append]

/-! ### Whole inputs -/

/-- **Modifiers and the predicate do not meddle with each other.** Let an input compile.
Then it compiles to the same predicate and to no modifiers when the modifiers are taken
out, at whatever depth they stand, and the modifiers, side by side as an input of their
own, compile to no predicate and to the same modifiers. -/
theorem compile_apart {input : FilterInput} {f : Filter C} (hb : input.Built)
    (h : c.compile input = .ok f) :
    c.compile input.withoutModifiers = .ok ⟨f.expression, .empty⟩ ∧
      c.compile input.modifierNodes = .ok ⟨none, f.modifiers⟩ := by
  have hi := InputNode.allIndexed_iff.mp hb.indexed
  rw [compile_eq] at h
  obtain ⟨⟨es, m⟩, hwalk, h⟩ := Except.map_eq_ok.mp h
  cases h
  constructor
  · have hleft := compileNodes_withoutModifiers_of_nodes
      (fun node hnode => compileNode_withoutModifiers node (hi node hnode)) hwalk
    rw [compile_eq, FilterInput.withoutModifiers, hleft]
    rfl
  · rw [compile_eq, FilterInput.modifierNodes]
    rcases le_maxDepth_of_compileNodes hwalk with hnone | hd
    · rw [hnone, compileNodes_nil] at hwalk
      cases hwalk
      rw [hnone, InputNode.modifierNodesAll, compileNodes_nil]
      rfl
    · rw [compileNodes_modifierNodes hd hwalk hi]
      rfl

/-- A limit in a list, an offset beside an operator, an ordering below a column, and a limit
that is all there is in an `and`. -/
def scattered : List (String × Json) :=
  [("or", .array [
      .object [("limit", .number (.int 3)),
        ("name", .object [("eq", .string "p"), ("offset", .number (.int 1))])],
      .object [("age", .object [("order_by", .string "-name"), ("lt", .number (.int 23))])]]),
    ("and", .object [("limit", .number (.int 4))])]

/-- What `scattered` compiles to. -/
def scatteredFilter : Filter Column :=
  ⟨some (.junction .or [.leaf (.plain "tt" "name") ⟨.eq, .string "p", by decide⟩,
    .leaf (.plain "tt" "age") ⟨.lt, .int 23, by decide⟩]),
    ⟨some 4, some 1, [⟨.plain "tt" "name", false⟩]⟩⟩

theorem compile_apart_scattered :
    ((FilterInput.ofMembers scattered).Built ∧
      ofPeople.compile (.ofMembers scattered) = .ok scatteredFilter) ∧
    ofPeople.compile (FilterInput.ofMembers scattered).withoutModifiers =
      .ok ⟨scatteredFilter.expression, .empty⟩ ∧
    ofPeople.compile (FilterInput.ofMembers scattered).modifierNodes =
      .ok ⟨none, scatteredFilter.modifiers⟩ := by
  have hbuilt : (FilterInput.ofMembers scattered).Built := .ofMembers scattered
  have hcompile : ofPeople.compile (.ofMembers scattered) = .ok scatteredFilter := rfl
  exact ⟨⟨hbuilt, hcompile⟩, compile_apart hbuilt hcompile⟩

end Compiler
end QueryFilter
