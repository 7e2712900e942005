/-
# Nodes side by side

The walk hands the modifiers on from node to node, and nothing else. They are only
written to on the way: what a node compiles to, or the error it ends in, does not depend
on the modifiers that come to it, and what it adds is put behind them
(`Compiler.compileNode_behind`, by `Modifiers.followedBy`). So nodes side by side are
compiled each on its own (`Compiler.compileNodes_cons_apart`).

One input after another is the case of it at the top: the first error of the two ends the
walk, the predicates are joined by `and`, and the modifiers of the second follow those of
the first (`Compiler.compile_append`).

Key definitions: `Modifiers.followedBy`, `FilterInput.append`.
Key theorems: `Compiler.visit_behind`, `Compiler.compileNodes_behind`,
`Compiler.compileNodes_append`, `Compiler.compile_append`.
-/
import QueryFilter.Proofs.Compiler.Walk
import QueryFilter.Proofs.Expr.Truth

namespace QueryFilter

variable {C : Type}

/-! ### Modifiers behind others -/

namespace Modifiers

/-- Modifiers and later ones: a later limit or offset takes the place of an earlier one,
and later orderings stand behind. -/
def followedBy (m later : Modifiers C) : Modifiers C :=
  ⟨later.limit.or m.limit, later.offset.or m.offset, m.orderBy ++ later.orderBy⟩

variable (m m' m'' : Modifiers C)

theorem followedBy_empty : m.followedBy .empty = m := by
  rw [followedBy, empty, Option.none_or, Option.none_or, List.append_nil]

theorem followedBy_assoc : (m.followedBy m').followedBy m'' = m.followedBy (m'.followedBy m'') := by
  simp only [followedBy, Option.or_assoc, List.append_assoc]

theorem setLimit_eq (n : UInt64) : m.setLimit n = m.followedBy (empty.setLimit n) := by
  rw [followedBy, setLimit, setLimit, empty, Option.some_or, Option.none_or, List.append_nil]

theorem setOffset_eq (n : UInt64) : m.setOffset n = m.followedBy (empty.setOffset n) := by
  rw [followedBy, setOffset, setOffset, empty, Option.some_or, Option.none_or, List.append_nil]

theorem addOrderBy_eq (os : List (OrderBy C)) :
    m.addOrderBy os = m.followedBy (empty.addOrderBy os) := by
  rw [followedBy, addOrderBy, addOrderBy, empty, Option.none_or, Option.none_or, List.nil_append]

end Modifiers

namespace Compiler

/-! ### What a node makes of the modifiers -/

/-- What a modifier node says is put behind the modifiers, whatever they are. -/
theorem addModifier_behind (c : Compiler C) (m : Modifiers C) (modifier : Modifier)
    (node : InputNode) :
    c.addModifier m modifier node = (c.addModifier .empty modifier node).map m.followedBy := by
  cases modifier with
  | limit =>
    simp only [addModifier, m.setLimit_eq, bind, Except.bind]
    cases countOf .limit node with
    | error err => rfl
    | ok n =>
      dsimp only
      cases checkLimit c.settings n <;> rfl
  | offset =>
    simp only [addModifier, m.setOffset_eq, bind, Except.bind]
    cases countOf .offset node <;> rfl
  | orderBy =>
    simp only [addModifier, m.addOrderBy_eq, bind, Except.bind]
    cases orderSpecs node with
    | error err => rfl
    | ok specs =>
      dsimp only
      cases orderings c.resolver specs <;> rfl

/-- A step with modifiers before those that it hands on. -/
def Step.behind (m : Modifiers C) : Step C → Step C
  | .done e m' => .done e (m.followedBy m')
  | .descend kind column => .descend kind column

variable [ColumnRef C] (c : Compiler C) (around : Option String) (depth : Nat) (m : Modifiers C)

theorem visitPlain_behind (node : InputNode) :
    c.visitPlain around m node = (c.visitPlain around .empty node).map (Step.behind m) := by
  have hleaf : ∀ reference value, c.visitLeaf m reference node.key value =
      (c.visitLeaf .empty reference node.key value).map (Step.behind m) := by
    intro reference value
    rw [visitLeaf, visitLeaf]
    cases c.leaf reference node.key value with
    | error err => rfl
    | ok e =>
      show Except.ok (Step.done (some e) m) = .ok (.done (some e) (m.followedBy .empty))
      rw [m.followedBy_empty]
  rw [visitPlain_eq, visitPlain_eq]
  cases node.value? with
  | some value =>
    dsimp only
    cases attached around node.key with
    | error err => rfl
    | ok reference => exact hleaf reference value
  | none =>
    dsimp only
    by_cases hl : node.isSimpleList = true
    · rw [if_pos hl, if_pos hl]
      cases attached around node.key with
      | error err => rfl
      | ok reference =>
        simp only [Except.bind]
        cases refusesList node.key with
        | true => rfl
        | false => exact hleaf reference _
    · rw [if_neg hl, if_neg hl]
      split <;> rfl

/-- **One visit** does the same whatever the modifiers, and hands on what it adds behind
them. -/
theorem visit_behind (node : InputNode) :
    c.visit around depth m node = (c.visit around depth .empty node).map (Step.behind m) := by
  rw [visit, visit]
  split
  · rfl
  · cases Modifier.ofKey? node.key with
    | some modifier =>
      simp only [c.addModifier_behind m, bind, Except.bind]
      cases c.addModifier .empty modifier node <;> rfl
    | none =>
      cases Junction.ofName? node.key with
      | some kind =>
        dsimp only
        split <;> rfl
      | none => exact c.visitPlain_behind around m node

/-! ### The walk -/

theorem compileNodes_behind_of_nodes : ∀ {nodes : List InputNode},
    (∀ node ∈ nodes, ∀ around depth m,
      c.compileNode around depth m node =
        (c.compileNode around depth .empty node).map fun r => (r.1, m.followedBy r.2)) →
    ∀ around depth m, c.compileNodes around depth m nodes =
      (c.compileNodes around depth .empty nodes).map fun r => (r.1, m.followedBy r.2)
  | [], _, around, depth, m => by
    rw [compileNodes_nil, compileNodes_nil]
    show Except.ok ([], m) = .ok ([], m.followedBy .empty)
    rw [m.followedBy_empty]
  | node :: rest, h, around, depth, m => by
    obtain ⟨hnode, hrest⟩ := List.forall_mem_cons.mp h
    rw [compileNodes_cons, compileNodes_cons, hnode]
    cases c.compileNode around depth .empty node with
    | error err => rfl
    | ok first =>
      -- Different modifiers come to the rest on the two sides: both go back to the walk from none.
      have ih := compileNodes_behind_of_nodes hrest around depth
      simp only [Except.map, Except.bind]
      rw [ih (m.followedBy first.2), ih first.2]
      cases c.compileNodes around depth .empty rest with
      | error err => rfl
      | ok more =>
        simp only [Except.map, Modifiers.followedBy_assoc]

/-- **One node** compiles to the same whatever the modifiers, and hands on what it adds
behind them. -/
theorem compileNode_behind (node : InputNode) : ∀ around depth m,
    c.compileNode around depth m node =
      (c.compileNode around depth .empty node).map fun r => (r.1, m.followedBy r.2) := by
  induction node using InputNode.induction with
  | step node ih =>
    intro around depth m
    rw [compileNode_eq, compileNode_eq, visit_behind]
    cases c.visit around depth .empty node with
    | error err => rfl
    | ok step =>
      cases step with
      | done e m' => rfl
      | descend kind column =>
        simp only [Except.map, Except.bind, Step.behind]
        rw [c.compileNodes_behind_of_nodes ih column (depth + 1) m]
        cases c.compileNodes column (depth + 1) .empty node.children <;> rfl

/-- **Nodes side by side** compile to the same whatever the modifiers. -/
theorem compileNodes_behind (nodes : List InputNode) :
    c.compileNodes around depth m nodes =
      (c.compileNodes around depth .empty nodes).map fun r => (r.1, m.followedBy r.2) :=
  c.compileNodes_behind_of_nodes (fun node _ => c.compileNode_behind node) around depth m

/-- A node and the rest are compiled apart, and the modifiers put together. -/
theorem compileNodes_cons_apart (node : InputNode) (rest : List InputNode) :
    c.compileNodes around depth .empty (node :: rest) =
      (c.compileNode around depth .empty node).bind fun first =>
        (c.compileNodes around depth .empty rest).map fun more =>
          (first.1.toList ++ more.1, first.2.followedBy more.2) := by
  rw [compileNodes_cons]
  cases c.compileNode around depth .empty node with
  | error err => rfl
  | ok first =>
    simp only [Except.bind]
    rw [compileNodes_behind]
    cases c.compileNodes around depth .empty rest <;> rfl

/-- The nodes in front are compiled first, and their modifiers handed on. -/
theorem compileNodes_append : ∀ (nodes nodes' : List InputNode) (m : Modifiers C),
    c.compileNodes around depth m (nodes ++ nodes') =
      (c.compileNodes around depth m nodes).bind fun first =>
        (c.compileNodes around depth first.2 nodes').map fun more =>
          (first.1 ++ more.1, more.2)
  | [], nodes', m => by
    rw [compileNodes_nil, List.nil_append]
    simp only [Except.bind, List.nil_append]
    cases c.compileNodes around depth m nodes' <;> rfl
  | node :: rest, nodes', m => by
    rw [List.cons_append, compileNodes_cons, compileNodes_cons]
    cases c.compileNode around depth m node with
    | error err => rfl
    | ok first =>
      simp only [Except.bind]
      rw [compileNodes_append rest nodes' first.2]
      cases c.compileNodes around depth first.2 rest with
      | error err => rfl
      | ok more =>
        simp only [Except.bind, Except.map]
        cases c.compileNodes around depth more.2 nodes' with
        | error err => rfl
        | ok last => simp only [List.append_assoc]

/-- Nodes in front and nodes behind are compiled apart, and the modifiers put together. -/
theorem compileNodes_append_apart (nodes nodes' : List InputNode) :
    c.compileNodes around depth .empty (nodes ++ nodes') =
      (c.compileNodes around depth .empty nodes).bind fun first =>
        (c.compileNodes around depth .empty nodes').map fun more =>
          (first.1 ++ more.1, first.2.followedBy more.2) := by
  rw [compileNodes_append]
  cases c.compileNodes around depth .empty nodes with
  | error err => rfl
  | ok first =>
    simp only [Except.bind]
    rw [compileNodes_behind]
    cases c.compileNodes around depth .empty nodes' <;> rfl

end Compiler

/-! ### One input after another -/

/-- The nodes of an input and then those of another. -/
def FilterInput.append (input next : FilterInput) : FilterInput := ⟨input.nodes ++ next.nodes⟩

namespace Compiler

variable [ColumnRef C] (c : Compiler C)

/-- **One input after another.** The first error ends the walk, be it one of the first
input or, if that compiles, of the second. If both compile, so does one after the other: to
a predicate that is as true as both together, where none stands for no condition, to the
limit and the offset of the second where it sets them and of the first elsewhere, and to
the orderings of the first and then those of the second. -/
theorem compile_append (input next : FilterInput) :
    (∀ err, c.compile input = .error err → c.compile (input.append next) = .error err) ∧
    (∀ f err, c.compile input = .ok f → c.compile next = .error err →
      c.compile (input.append next) = .error err) ∧
    ∀ f f', c.compile input = .ok f → c.compile next = .ok f' →
      ∃ both, c.compile (input.append next) = .ok both ∧
        (both.expression = none ↔ f.expression = none ∧ f'.expression = none) ∧
        (∀ v, both.expression.bind (Expr.truth? v) =
          Option.merge (· && ·) (f.expression.bind (Expr.truth? v))
            (f'.expression.bind (Expr.truth? v))) ∧
        both.modifiers.limit = f'.modifiers.limit.or f.modifiers.limit ∧
        both.modifiers.offset = f'.modifiers.offset.or f.modifiers.offset ∧
        both.modifiers.orderBy = f.modifiers.orderBy ++ f'.modifiers.orderBy := by
  rw [compile_eq, compile_eq, compile_eq, FilterInput.append, compileNodes_append_apart]
  cases c.compileNodes none 1 .empty input.nodes with
  | error err =>
    refine ⟨?_, ?_, ?_⟩
    · rintro err' ⟨⟩
      rfl
    · rintro f err' ⟨⟩
    · rintro f f' ⟨⟩
  | ok first =>
    cases c.compileNodes none 1 .empty next.nodes with
    | error err =>
      refine ⟨?_, ?_, ?_⟩
      · rintro err' ⟨⟩
      · rintro f err' - ⟨⟩
        rfl
      · rintro f f' - ⟨⟩
    | ok more =>
      refine ⟨?_, ?_, ?_⟩
      · rintro err' ⟨⟩
      · rintro f err' - ⟨⟩
      · rintro f f' ⟨⟩ ⟨⟩
        refine ⟨_, rfl, ?_, fun v => Expr.truth?_joined_append v first.1 more.1, rfl, rfl, rfl⟩
        rw [Expr.joined_eq_none_iff, Expr.joined_eq_none_iff, Expr.joined_eq_none_iff,
          List.append_eq_nil_iff]

/-- A name, a limit, an offset and an ordering. -/
def named : FilterInput :=
  ⟨[.map "name" [.leaf "eq" (.string "s")], .leaf "limit" (.int 5), .leaf "offset" (.int 2),
    .leaf "order_by" (.string "-name")]⟩

/-- What `named` compiles to. -/
def namedFilter : Filter Column :=
  ⟨some (.leaf (.plain "tt" "name") ⟨.eq, .string "s", by decide⟩),
    ⟨some 5, some 2, [⟨.plain "tt" "name", false⟩]⟩⟩

/-- Another ordering, two bounds of an age, and another limit. -/
def aged : FilterInput :=
  ⟨[.leaf "order_by" (.string "+age"), .map "age" [.leaf "gt" (.int 22), .leaf "lt" (.int 66)],
    .leaf "limit" (.int 9)]⟩

/-- What `aged` compiles to. -/
def agedFilter : Filter Column :=
  ⟨some (.junction .and [.leaf (.plain "tt" "age") ⟨.gt, .int 22, by decide⟩,
    .leaf (.plain "tt" "age") ⟨.lt, .int 66, by decide⟩]),
    ⟨some 9, none, [⟨.plain "tt" "age", true⟩]⟩⟩

theorem compile_append_namedAged :
    (ofPeople.compile named = .ok namedFilter ∧ ofPeople.compile aged = .ok agedFilter) ∧
    ∃ both, ofPeople.compile (named.append aged) = .ok both ∧
      (∀ v, both.expression.bind (Expr.truth? v) =
        Option.merge (· && ·) (namedFilter.expression.bind (Expr.truth? v))
          (agedFilter.expression.bind (Expr.truth? v))) ∧
      both.modifiers.limit = some 9 ∧ both.modifiers.offset = some 2 ∧
      both.modifiers.orderBy = [⟨.plain "tt" "name", false⟩, ⟨.plain "tt" "age", true⟩] := by
  have hnamed : ofPeople.compile named = .ok namedFilter := rfl
  have haged : ofPeople.compile aged = .ok agedFilter := rfl
  obtain ⟨both, hboth, -, htruth, hlimit, hoffset, horder⟩ :=
    (compile_append ofPeople named aged).2.2 namedFilter agedFilter hnamed haged
  exact ⟨⟨hnamed, haged⟩, both, hboth, htruth, hlimit, hoffset, horder⟩

end Compiler
end QueryFilter
