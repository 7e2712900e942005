/-
# The order of nodes does not matter to the predicate

The nodes of a map, and those at the top of an input, may stand in any order, at any number
of levels at once (`InputNode.Reordered`). The walk stops at the first error, and joins what
is left of the nodes by their number. But whether a node compiles, and to what, does not
depend on the nodes beside it (`Compiler.Makes`). So an input compiles if one with its nodes
in another order does, to a predicate with the same leaves that is true where the other is
(`Compiler.compile_reordered`). That is so with modifiers among the nodes as well, of which
the last one counts.

Reordering goes both ways (`InputNode.Reordered.symm`), so that it is enough to look at a
walk that succeeds.

Key definitions: `InputNode.Reordered`, `FilterInput.Reordered`, `Expr.Agree`,
`Compiler.Makes`.
Key theorems: `InputNode.Reordered.symm`, `Expr.Agree.joined`, `Compiler.indifferent`,
`Compiler.compile_reordered`.
-/
import Mathlib.Data.List.Perm.Basic
import QueryFilter.Proofs.Compiler.Gate
import QueryFilter.Proofs.Compiler.Siblings
import QueryFilter.Proofs.Compiler.Visit

namespace QueryFilter

/-! ### Nodes in another order -/

namespace InputNode

/-- Whether a node is another one with the nodes of maps in another order, in it and below
it. The nodes of a list keep their places. -/
inductive Reordered : InputNode → InputNode → Prop
  | leaf (key : String) (value : Value) : Reordered (.leaf key value) (.leaf key value)
  | list (key : String) {children children' : List InputNode}
    (h : List.Forall₂ Reordered children children') :
    Reordered (.list key children) (.list key children')
  | map (key : String) {children changed children' : List InputNode}
    (h : List.Forall₂ Reordered children changed) (hperm : changed.Perm children') :
    Reordered (.map key children) (.map key children')

variable {node node' : InputNode} {nodes nodes' : List InputNode}

/-- The nodes below are those of the other one, changed and in another order. -/
theorem Reordered.children (h : node.Reordered node') :
    ∃ changed, List.Forall₂ Reordered node.children changed ∧ changed.Perm node'.children := by
  cases h with
  | leaf key value => exact ⟨[], .nil, .nil⟩
  | list key h => exact ⟨_, h, .refl _⟩
  | map key h hperm => exact ⟨_, h, hperm⟩

theorem Reordered.value? (h : node.Reordered node') : node'.value? = node.value? := by
  cases h <;> rfl

/-- A visit does not see the order of the nodes below. -/
theorem Reordered.seenAs (h : node.Reordered node') : node.SeenAs node' := by
  cases h with
  | leaf key value => exact ⟨rfl, rfl, rfl, fun _ => rfl⟩
  | map key h hperm => exact .map key ..
  | list key h => exact .list key (map_value?_of_forall₂ Reordered.value? h)

theorem flip_of_forall₂ (h : List.Forall₂ Reordered nodes nodes')
    (hflip : ∀ node ∈ nodes, ∀ node', node.Reordered node' → node'.Reordered node) :
    List.Forall₂ Reordered nodes' nodes :=
  (((List.forall₂_and_left nodes nodes').mpr ⟨hflip, h⟩).imp fun _ _ hr => hr.1 _ hr.2).flip

/-- Reordering goes both ways. -/
theorem Reordered.symm (h : node.Reordered node') : node'.Reordered node := by
  induction node using InputNode.induction generalizing node' with
  | step node ih =>
    have hflip : ∀ child ∈ node.children, ∀ child', child.Reordered child' →
        child'.Reordered child := fun child hchild child' => ih child hchild
    cases h with
    | leaf key value => exact .leaf key value
    | list key h => exact .list key (flip_of_forall₂ h hflip)
    | map key h hperm =>
      obtain ⟨changed, hchanged, hback⟩ := List.perm_comp_forall₂ hperm.symm (flip_of_forall₂ h hflip)
      exact .map key hchanged hback

end InputNode

/-- Whether an input is another one with nodes in another order, at its top and below. -/
def FilterInput.Reordered (input input' : FilterInput) : Prop :=
  ∃ changed, List.Forall₂ InputNode.Reordered input.nodes changed ∧ changed.Perm input'.nodes

theorem FilterInput.Reordered.symm {input input' : FilterInput} (h : input.Reordered input') :
    input'.Reordered input := by
  obtain ⟨changed, h, hperm⟩ := h
  exact List.perm_comp_forall₂ hperm.symm
    (InputNode.flip_of_forall₂ h fun _ _ _ hr => hr.symm)

/-! ### Expressions that agree -/

namespace Expr

variable {C : Type}

/-- Whether expressions side by side have the same leaves and the same truth values as others,
in any order. -/
structure Agree (es es' : List (Expr C)) : Prop where
  nil_iff : es = [] ↔ es' = []
  leaves : (es.flatMap leaves).Perm (es'.flatMap leaves)
  truth : ∀ v, (es.filterMap (truth? v)).Perm (es'.filterMap (truth? v))

variable {es es' more more' : List (Expr C)} {kind : Junction}

theorem Agree.of_perm (h : es.Perm es') : Agree es es' where
  nil_iff := ⟨fun hn => (hn ▸ h).nil_eq.symm, fun hn => (hn ▸ h).eq_nil⟩
  leaves := h.flatMap_right _
  truth _ := h.filterMap _

theorem Agree.trans {es'' : List (Expr C)} (h : Agree es es') (h' : Agree es' es'') :
    Agree es es'' where
  nil_iff := h.nil_iff.trans h'.nil_iff
  leaves := h.leaves.trans h'.leaves
  truth v := (h.truth v).trans (h'.truth v)

theorem Agree.append (h : Agree es es') (h' : Agree more more') :
    Agree (es ++ more) (es' ++ more') where
  nil_iff := by rw [List.append_eq_nil_iff, List.append_eq_nil_iff, h.nil_iff, h'.nil_iff]
  leaves := by
    rw [List.flatMap_append, List.flatMap_append]
    exact h.leaves.append h'.leaves
  truth v := by
    rw [List.filterMap_append, List.filterMap_append]
    exact (h.truth v).append (h'.truth v)

theorem Agree.of_forall₂ {made made' : List (Option (Expr C))}
    (h : List.Forall₂ (fun e e' => Agree e.toList e'.toList) made made') :
    Agree (made.flatMap Option.toList) (made'.flatMap Option.toList) := by
  induction h with
  | nil => exact .of_perm .nil
  | cons hfirst _ ih => exact hfirst.append ih

theorem Agree.joined_iff (h : Agree es es') : joined kind es = none ↔ joined kind es' = none := by
  rw [joined_eq_none_iff, joined_eq_none_iff, h.nil_iff]

theorem Agree.leavesOf?_joined (h : Agree es es') :
    (leavesOf? (joined kind es)).Perm (leavesOf? (joined kind es')) := by
  rw [Expr.leavesOf?_joined, Expr.leavesOf?_joined]
  exact h.leaves

theorem Agree.truth?_joined (h : Agree es es') (v : C → Operator → Bool) :
    (joined kind es).bind (truth? v) = (joined kind es').bind (truth? v) := by
  rw [Expr.truth?_joined, Expr.truth?_joined, combine_perm v (h.truth v)]

/-- What is joined agrees if the members do. -/
theorem Agree.joined (h : Agree es es') :
    Agree (joined kind es).toList (Expr.joined kind es').toList where
  nil_iff := by
    rw [Option.toList_eq_nil_iff, Option.toList_eq_nil_iff]
    exact h.joined_iff
  leaves := by
    rw [flatMap_toList, flatMap_toList]
    exact h.leavesOf?_joined
  truth v := by
    have hone : ∀ e : Option (Expr C),
        e.toList.filterMap (truth? v) = (e.bind (truth? v)).toList := by
      intro e
      cases e with
      | none => rfl
      | some e => cases he : truth? v e <;> simp [he]
    rw [hone, hone, h.truth?_joined]

end Expr

/-! ### The walk over them -/

namespace Compiler

variable {C : Type} [ColumnRef C] {c : Compiler C} {around : Option String} {depth : Nat}
  {nodes nodes' : List InputNode}

/-- Whether a node compiles to an expression, or to none, with whatever modifiers. -/
def Makes (c : Compiler C) (around : Option String) (depth : Nat) (node : InputNode)
    (e : Option (Expr C)) : Prop :=
  ∃ m, c.compileNode around depth .empty node = .ok (e, m)

/-- Nodes side by side compile if each of them does, to what they compile to one by one. -/
theorem compileNodes_eq_ok_iff {es : List (Expr C)} :
    (∃ m, c.compileNodes around depth .empty nodes = .ok (es, m)) ↔
      ∃ made, List.Forall₂ (c.Makes around depth) nodes made ∧ es = made.flatMap Option.toList := by
  induction nodes generalizing es with
  | nil =>
    rw [compileNodes_nil]
    constructor
    · rintro ⟨m, ⟨⟩⟩
      exact ⟨[], .nil, rfl⟩
    · rintro ⟨made, ⟨⟩, rfl⟩
      exact ⟨_, rfl⟩
  | cons node rest ih =>
    rw [compileNodes_cons_apart]
    constructor
    · rintro ⟨m, h⟩
      obtain ⟨⟨e, m₁⟩, hfirst, h⟩ := Except.bind_eq_ok.mp h
      obtain ⟨⟨es', m₂⟩, hmore, h⟩ := Except.map_eq_ok.mp h
      cases h
      obtain ⟨made, hmade, rfl⟩ := ih.mp ⟨m₂, hmore⟩
      exact ⟨e :: made, .cons ⟨m₁, hfirst⟩ hmade, rfl⟩
    · rintro ⟨made, hmade, rfl⟩
      obtain ⟨e, made, ⟨m₁, hfirst⟩, hrest, rfl⟩ := List.forall₂_cons_left_iff.mp hmade
      obtain ⟨m₂, hmore⟩ := ih.mpr ⟨made, hrest, rfl⟩
      exact ⟨m₁.followedBy m₂, by rw [hfirst, Except.bind, hmore]; rfl⟩

/-- Whether a node in another order compiles to an expression that agrees, wherever it stands. -/
def Indifferent (c : Compiler C) (node : InputNode) : Prop :=
  ∀ around depth node' e, node.Reordered node' → c.Makes around depth node e →
    ∃ e', c.Makes around depth node' e' ∧ Expr.Agree e.toList e'.toList

/-- Nodes that are changed each in its place compile to expressions that agree, if each of them
does. -/
theorem exists_makes_changed {changed : List InputNode} {made : List (Option (Expr C))}
    (hnodes : ∀ node ∈ nodes, c.Indifferent node)
    (hchanged : List.Forall₂ InputNode.Reordered nodes changed)
    (hmade : List.Forall₂ (c.Makes around depth) nodes made) :
    ∃ made', List.Forall₂ (c.Makes around depth) changed made' ∧
      List.Forall₂ (fun e e' => Expr.Agree e.toList e'.toList) made made' := by
  induction hchanged generalizing made with
  | nil =>
    cases hmade
    exact ⟨[], .nil, .nil⟩
  | @cons node node' rest rest' hfirst _ ih =>
    obtain ⟨hnode, hrest⟩ := List.forall_mem_cons.mp hnodes
    obtain ⟨e, _, hmakes, hmakesRest, rfl⟩ := List.forall₂_cons_left_iff.mp hmade
    obtain ⟨e', hmakes', hagree⟩ := hnode around depth node' e hfirst hmakes
    obtain ⟨made', hmade', hagrees⟩ := ih hrest hmakesRest
    exact ⟨e' :: made', .cons hmakes' hmade', .cons hagree hagrees⟩

/-- Nodes in another order compile to expressions that agree, if each of them does. -/
theorem compileNodes_reordered {changed : List InputNode} {es : List (Expr C)} {m : Modifiers C}
    (hnodes : ∀ node ∈ nodes, c.Indifferent node)
    (hchanged : List.Forall₂ InputNode.Reordered nodes changed) (hperm : changed.Perm nodes')
    (h : c.compileNodes around depth .empty nodes = .ok (es, m)) :
    ∃ es' m', c.compileNodes around depth .empty nodes' = .ok (es', m') ∧ Expr.Agree es es' := by
  -- Each node is changed in its place first, and then all of them change places.
  obtain ⟨made, hmade, rfl⟩ := compileNodes_eq_ok_iff.mp ⟨m, h⟩
  obtain ⟨made', hmade', hagrees⟩ := exists_makes_changed hnodes hchanged hmade
  obtain ⟨made'', hmade'', hperm'⟩ := List.perm_comp_forall₂ hperm.symm hmade'
  obtain ⟨m', hm'⟩ := compileNodes_eq_ok_iff.mpr ⟨made'', hmade'', rfl⟩
  have hplaces : Expr.Agree (made'.flatMap Option.toList) (made''.flatMap Option.toList) :=
    .of_perm (hperm'.symm.flatMap_right _)
  exact ⟨_, m', hm', (Expr.Agree.of_forall₂ hagrees).trans hplaces⟩

/-- **A node in another order** compiles to an expression that agrees. -/
theorem indifferent (node : InputNode) : c.Indifferent node := by
  induction node using InputNode.induction with
  | step node ih =>
    intro around depth node' e hr hmakes
    obtain ⟨m, h⟩ := hmakes
    rw [compileNode_eq] at h
    obtain ⟨step, hstep, h⟩ := Except.bind_eq_ok.mp h
    have hstep' : c.visit around depth .empty node' = .ok step := by
      rw [visit_of_seenAs c hr.seenAs, hstep]
    cases step with
    | done made m =>
      cases h
      exact ⟨_, ⟨_, by rw [compileNode_eq, hstep']; rfl⟩, .of_perm (.refl _)⟩
    | descend kind inner =>
      obtain ⟨⟨es, m'⟩, hwalk, h⟩ := Except.map_eq_ok.mp h
      cases h
      obtain ⟨changed, hchanged, hperm⟩ := hr.children
      obtain ⟨es', m'', hwalk', hagree⟩ := compileNodes_reordered ih hchanged hperm hwalk
      refine ⟨Expr.joined kind es', ⟨m'', ?_⟩, hagree.joined⟩
      rw [compileNode_eq, hstep']
      simp only [Except.bind, hwalk', Except.map]

/-- An input in another order compiles to nodes that agree. -/
theorem exists_compile_reordered {input input' : FilterInput} {f : Filter C}
    (hr : input.Reordered input') (h : c.compile input = .ok f) :
    ∃ es es' m', f.expression = Expr.joined .and es ∧ Expr.Agree es es' ∧
      c.compile input' = .ok ⟨Expr.joined .and es', m'⟩ := by
  obtain ⟨changed, hchanged, hperm⟩ := hr
  rw [compile_eq] at h
  obtain ⟨⟨es, m⟩, hwalk, h⟩ := Except.map_eq_ok.mp h
  cases h
  obtain ⟨es', m', hwalk', hagree⟩ :=
    compileNodes_reordered (fun node _ => indifferent node) hchanged hperm hwalk
  refine ⟨es, es', m', rfl, hagree, ?_⟩
  rw [compile_eq, hwalk']
  rfl

/-- **The order of nodes does not matter to the predicate.** Let an input be another one with
the nodes of maps, or those at the top, in another order, at any number of levels. Then it
compiles if the other one does. In that case neither has a predicate, or both have one, with
the same leaves, each as many times, and true where the other is. -/
theorem compile_reordered (c : Compiler C) {input input' : FilterInput}
    (h : input.Reordered input') :
    ((∃ f, c.compile input = .ok f) ↔ ∃ f', c.compile input' = .ok f') ∧
    ∀ f f', c.compile input = .ok f → c.compile input' = .ok f' →
      (f.expression = none ↔ f'.expression = none) ∧ f.leaves.Perm f'.leaves ∧
      ∀ v, f.expression.bind (Expr.truth? v) = f'.expression.bind (Expr.truth? v) := by
  refine ⟨⟨fun ⟨f, hf⟩ => ?_, fun ⟨f', hf'⟩ => ?_⟩, fun f f' hf hf' => ?_⟩
  · obtain ⟨_, _, _, -, -, hcompile⟩ := exists_compile_reordered h hf
    exact ⟨_, hcompile⟩
  · obtain ⟨_, _, _, -, -, hcompile⟩ := exists_compile_reordered h.symm hf'
    exact ⟨_, hcompile⟩
  · obtain ⟨es, es', m', he, hagree, hcompile⟩ := exists_compile_reordered h hf
    rw [hcompile] at hf'
    cases hf'
    rw [Filter.leaves, Filter.leaves, he]
    exact ⟨hagree.joined_iff, hagree.leavesOf?_joined, hagree.truth?_joined⟩

/-- Two bounds of an age, and a choice of people. -/
def ageFirst : FilterInput :=
  ⟨[.map "age" [.leaf "gt" (.int 26), .leaf "lt" (.int 64)],
    .list "or" [.map "0" [.map "name" [.leaf "eq" (.string "q")], .map "age" [.leaf "eq" (.int 23)]],
      .map "1" [.map "name" [.leaf "ne" (.string "z")]]]]⟩

/-- `ageFirst` with nodes in another order at three levels. -/
def ageLast : FilterInput :=
  ⟨[.list "or" [.map "0" [.map "age" [.leaf "eq" (.int 23)], .map "name" [.leaf "eq" (.string "q")]],
      .map "1" [.map "name" [.leaf "ne" (.string "z")]]],
    .map "age" [.leaf "lt" (.int 64), .leaf "gt" (.int 26)]]⟩

/-- What `ageFirst` compiles to. -/
def ageFirstFilter : Filter Column :=
  ⟨some (.junction .and [
    .junction .and [.leaf (.plain "tt" "age") ⟨.gt, .int 26, by decide⟩,
      .leaf (.plain "tt" "age") ⟨.lt, .int 64, by decide⟩],
    .junction .or [
      .junction .and [.leaf (.plain "tt" "name") ⟨.eq, .string "q", by decide⟩,
        .leaf (.plain "tt" "age") ⟨.eq, .int 23, by decide⟩],
      .leaf (.plain "tt" "name") ⟨.ne, .string "z", by decide⟩]]), .empty⟩

theorem reordered_ageFirst : ageFirst.Reordered ageLast := by
  have hleaves : ∀ key value key' value', List.Forall₂ InputNode.Reordered
      [.leaf key value, .leaf key' value'] [.leaf key value, .leaf key' value'] :=
    fun key value key' value' => .cons (.leaf key value) (.cons (.leaf key' value') .nil)
  have hone : ∀ key symbol value,
      InputNode.Reordered (.map key [.leaf symbol value]) (.map key [.leaf symbol value]) :=
    fun key symbol value => .map key (.cons (.leaf symbol value) .nil) (.refl _)
  have hage : InputNode.Reordered (.map "age" [.leaf "gt" (.int 26), .leaf "lt" (.int 64)])
      (.map "age" [.leaf "lt" (.int 64), .leaf "gt" (.int 26)]) :=
    .map "age" (hleaves ..) (.swap ..)
  refine ⟨_, .cons hage (.cons (.list "or" ?_) .nil), .swap ..⟩
  refine .cons (.map "0" (.cons (hone ..) (.cons (hone ..) .nil)) (.swap ..)) (.cons ?_ .nil)
  exact .map "1" (.cons (hone ..) .nil) (.refl _)

theorem compile_reordered_ageFirst :
    (ageFirst.Reordered ageLast ∧ ofPeople.compile ageFirst = .ok ageFirstFilter) ∧
    ∃ f, ofPeople.compile ageLast = .ok f ∧ ageFirstFilter.leaves.Perm f.leaves ∧
      ∀ v, ageFirstFilter.expression.bind (Expr.truth? v) = f.expression.bind (Expr.truth? v) := by
  have hcompile : ofPeople.compile ageFirst = .ok ageFirstFilter := rfl
  obtain ⟨hiff, hagree⟩ := compile_reordered ofPeople reordered_ageFirst
  obtain ⟨f, hf⟩ := hiff.mp ⟨ageFirstFilter, hcompile⟩
  obtain ⟨-, hleaves, htruth⟩ := hagree ageFirstFilter f hcompile hf
  exact ⟨⟨reordered_ageFirst, hcompile⟩, f, hf, hleaves, htruth⟩

end Compiler
end QueryFilter
