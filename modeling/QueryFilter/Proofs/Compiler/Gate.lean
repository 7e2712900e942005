/-
# Restrictions are a gate and nothing else

Two runs over one input, one under a restriction set and one under none. If
the free run fails, so does the gated one. If it succeeds, the gated run is the
free run behind one check of the leaves it yields, from left to right
(`Compiler.Gated`): so it gives the same filter, or the first leaf refused.

The gated run may meet a refused leaf before an error that the free run ends
in; that is why failing runs are only known to fail together.

Key definitions: `Compiler.under`, `RestrictionSet.gate`, `Compiler.Gated`.
Key theorems: `Compiler.gated_compile`, `Compiler.compile_under`.
-/
import QueryFilter.Proofs.Compiler.Walk

namespace QueryFilter

namespace RestrictionSet

variable {C : Type} [ColumnRef C]

/-- Whether a leaf is allowed, by the name of its column. -/
def allowsLeaf (set : RestrictionSet) (leaf : C × Operator) : Bool :=
  set.isAllowed (ColumnRef.name leaf.1) leaf.2

/-- Refuses the first leaf that is not allowed. -/
def gate (set : RestrictionSet) : List (C × Operator) → Except FilterError Unit
  | [] => .ok ()
  | leaf :: rest =>
    if set.allowsLeaf leaf then gate set rest
    else .error (.notAllowed (ColumnRef.name leaf.1) leaf.2.kind)

theorem check_eq (set : RestrictionSet) (leaf : C × Operator) :
    set.check (ColumnRef.name leaf.1) leaf.2 = set.gate [leaf] := rfl

theorem gate_append (set : RestrictionSet) : ∀ ls ls' : List (C × Operator),
    set.gate (ls ++ ls') = (set.gate ls).bind fun _ => set.gate ls'
  | [], _ => rfl
  | l :: ls, ls' => by
    rw [List.cons_append, gate, gate]
    split
    · exact gate_append set ls ls'
    · rfl

theorem gate_eq_ok_iff {set : RestrictionSet} {ls : List (C × Operator)} :
    set.gate ls = .ok () ↔ ∀ l ∈ ls, set.allowsLeaf l = true := by
  induction ls with
  | nil => simp [gate]
  | cons l ls ih =>
    rw [gate, List.forall_mem_cons]
    by_cases h : set.allowsLeaf l = true
    · rw [if_pos h, ih]
      exact ⟨fun hls => ⟨h, hls⟩, And.right⟩
    · rw [if_neg h]
      refine ⟨fun he => (by cases he), fun hall => absurd hall.1 h⟩

theorem gate_of_find? {set : RestrictionSet} {ls : List (C × Operator)} {l : C × Operator}
    (h : ls.find? (fun l => !set.allowsLeaf l) = some l) :
    set.gate ls = .error (.notAllowed (ColumnRef.name l.1) l.2.kind) := by
  induction ls with
  | nil => cases h
  | cons l' ls ih =>
    rw [gate]
    by_cases hl : set.allowsLeaf l' = true
    · rw [if_pos hl]
      exact ih (by simpa [hl] using h)
    · rw [if_neg hl]
      have : l' = l := by simpa [hl] using h
      rw [this]

end RestrictionSet

namespace Compiler

variable {C : Type} [ColumnRef C]

/-- The compiler under other restrictions. -/
def under (c : Compiler C) (set : RestrictionSet) : Compiler C := ⟨c.resolver, c.settings, set⟩

/-- How a run under a restriction set relates to the run under none, when the
leaves `before` were let through: it gives what the free run gives once the
leaves made since are let through, and nothing unless the free run gives it. -/
structure Gated {α : Type} (set : RestrictionSet) (before : List (C × Operator))
    (leaves : α → List (C × Operator)) (free gated : Except FilterError α) : Prop where
  of_ok : ∀ a, free = .ok a →
    ∃ made, leaves a = before ++ made ∧ gated = (set.gate made).map fun _ => a
  ok_of_gated : ∀ a, gated = .ok a → free = .ok a

namespace Gated

variable {α β : Type} {set : RestrictionSet} {before : List (C × Operator)}
  {leaves : α → List (C × Operator)}

/-- A part of the run that makes no leaf is the same in both runs. -/
theorem of_eq {run : Except FilterError α} (hl : ∀ a, run = .ok a → leaves a = before) :
    Gated set before leaves run run where
  of_ok a ha := ⟨[], by rw [hl a ha, List.append_nil], by rw [ha]; rfl⟩
  ok_of_gated _ ha := ha

/-- Two parts of a run, one after the other. -/
theorem bind {whole : β → List (C × Operator)} {free gated : Except FilterError α}
    {free' gated' : α → Except FilterError β} (h : Gated set before leaves free gated)
    (h' : ∀ a, Gated set (leaves a) whole (free' a) (gated' a)) :
    Gated set before whole (free.bind free') (gated.bind gated') where
  of_ok b hb := by
    obtain ⟨a, ha, hb⟩ := Except.bind_eq_ok.mp hb
    obtain ⟨made, hm, hg⟩ := h.of_ok a ha
    obtain ⟨made', hm', hg'⟩ := (h' a).of_ok b hb
    refine ⟨made ++ made', by rw [hm', hm, List.append_assoc], ?_⟩
    rw [hg, RestrictionSet.gate_append]
    cases set.gate made with
    | error err => rfl
    | ok u => exact hg'
  ok_of_gated b hb := by
    obtain ⟨a, ha, hb⟩ := Except.bind_eq_ok.mp hb
    rw [h.ok_of_gated a ha]
    exact (h' a).ok_of_gated b hb

/-- A first part that makes no leaf is the same in both runs. -/
theorem after {run : Except FilterError α} {whole : β → List (C × Operator)}
    {free gated : α → Except FilterError β} (h : ∀ a, Gated set before whole (free a) (gated a)) :
    Gated set before whole (run.bind free) (run.bind gated) := by
  have hrun : Gated set before (fun _ => before) run run := of_eq fun _ _ => rfl
  exact hrun.bind h

/-- A change of the result that puts `more` before its leaves. -/
theorem map {leaves' : β → List (C × Operator)} {free gated : Except FilterError α}
    (h : Gated set before leaves free gated) (f : α → β) (more : List (C × Operator))
    (hf : ∀ a, leaves' (f a) = more ++ leaves a) :
    Gated set (more ++ before) leaves' (free.map f) (gated.map f) where
  of_ok b hb := by
    cases free with
    | error err => cases hb
    | ok a =>
      cases hb
      obtain ⟨made, hm, hg⟩ := h.of_ok a rfl
      refine ⟨made, by rw [hf, hm, List.append_assoc], ?_⟩
      rw [hg]
      cases set.gate made <;> rfl
  ok_of_gated b hb := by
    cases gated with
    | error err => cases hb
    | ok a =>
      cases hb
      rw [h.ok_of_gated a rfl]
      rfl

end Gated

/-! ### The walk is gated -/

/-- The leaves made at one visit. -/
def Step.leaves : Step C → List (C × Operator)
  | .done e _ => Expr.leavesOf? e
  | .descend _ _ => []

variable (c : Compiler C) (set : RestrictionSet)

theorem gated_leaf (reference symbol : String) (value : Value) :
    Gated set [] Expr.leaves ((c.under .empty).leaf reference symbol value)
      ((c.under set).leaf reference symbol value) := by
  rw [leaf_eq, leaf_eq]
  refine Gated.after fun column => Gated.after fun op => ?_
  have hcheck : ∀ set' : RestrictionSet, (c.under set').restrictions.check (ColumnRef.name column) op =
      set'.gate [(column, op)] := fun set' => set'.check_eq (column, op)
  rw [hcheck, hcheck]
  constructor
  · intro e he
    cases he
    exact ⟨[(column, op)], rfl, rfl⟩
  · intro e he
    cases hgate : set.gate [(column, op)] with
    | error err => rw [hgate] at he; cases he
    | ok u => rw [hgate] at he; exact he

theorem gated_visitLeaf (modifiers : Modifiers C) (reference symbol : String) (value : Value) :
    Gated set [] Step.leaves ((c.under .empty).visitLeaf modifiers reference symbol value)
      ((c.under set).visitLeaf modifiers reference symbol value) :=
  (gated_leaf c set reference symbol value).map _ [] fun _ => rfl

theorem gated_visitPlain (column : Option String) (modifiers : Modifiers C) (node : InputNode) :
    Gated set [] Step.leaves ((c.under .empty).visitPlain column modifiers node)
      ((c.under set).visitPlain column modifiers node) := by
  rw [visitPlain_eq, visitPlain_eq]
  split
  · exact Gated.after fun reference => gated_visitLeaf c set modifiers reference node.key _
  · split
    · refine Gated.after fun reference => ?_
      split
      · exact Gated.of_eq fun _ h => by cases h
      · exact gated_visitLeaf c set modifiers reference node.key _
    · refine Gated.of_eq fun step h => ?_
      split at h
      · cases h
      · cases h
        rfl

theorem gated_visit (column : Option String) (depth : Nat) (modifiers : Modifiers C)
    (node : InputNode) :
    Gated set [] Step.leaves ((c.under .empty).visit column depth modifiers node)
      ((c.under set).visit column depth modifiers node) := by
  unfold visit
  split
  · rw [if_pos ‹_›]
    exact Gated.of_eq fun _ h => by cases h
  · rw [if_neg ‹_›]
    cases Modifier.ofKey? node.key with
    | some modifier =>
      have hmodifier : ∀ set' : RestrictionSet, (c.under set').addModifier modifiers modifier node =
          c.addModifier modifiers modifier node := fun _ => by cases modifier <;> rfl
      simp only [hmodifier]
      exact Gated.after fun m => Gated.of_eq fun _ h => by cases h; rfl
    | none =>
      cases Junction.ofName? node.key with
      | some kind =>
        refine Gated.of_eq fun step h => ?_
        simp only at h
        split at h
        · cases h
        · cases h
          rfl
      | none => exact gated_visitPlain c set column modifiers node

/-- Nodes side by side are gated if each of them is. -/
theorem gated_nodes : ∀ {nodes : List InputNode},
    (∀ node ∈ nodes, ∀ column depth modifiers,
      Gated set [] (fun r => Expr.leavesOf? r.1)
        ((c.under .empty).compileNode column depth modifiers node)
        ((c.under set).compileNode column depth modifiers node)) →
    ∀ column depth modifiers, Gated set [] (fun r => r.1.flatMap Expr.leaves)
      ((c.under .empty).compileNodes column depth modifiers nodes)
      ((c.under set).compileNodes column depth modifiers nodes)
  | [], _, column, depth, modifiers => by
    rw [compileNodes_nil, compileNodes_nil]
    exact Gated.of_eq fun _ h => by cases h; rfl
  | node :: rest, h, column, depth, modifiers => by
    rw [compileNodes_cons, compileNodes_cons]
    refine (h node List.mem_cons_self column depth modifiers).bind fun first => ?_
    have hrest := gated_nodes (fun n hn => h n (List.mem_cons_of_mem node hn)) column depth first.2
    rw [← List.append_nil (Expr.leavesOf? first.1)]
    refine hrest.map _ _ fun more => ?_
    rw [List.flatMap_append, Expr.flatMap_toList]

theorem gated_node (node : InputNode) : ∀ column depth modifiers,
    Gated set [] (fun r => Expr.leavesOf? r.1)
      ((c.under .empty).compileNode column depth modifiers node)
      ((c.under set).compileNode column depth modifiers node) := by
  induction node using InputNode.induction with
  | step node ih =>
    intro column depth modifiers
    rw [compileNode_eq, compileNode_eq]
    refine (gated_visit c set column depth modifiers node).bind fun step => ?_
    cases step with
    | done e m => exact Gated.of_eq fun _ h => by cases h; rfl
    | descend kind column =>
      exact (gated_nodes c set ih column (depth + 1) modifiers).map _ [] fun r =>
        Expr.leavesOf?_joined kind r.1

end Compiler

namespace Filter

variable {C : Type}

/-- The leaves of the predicate from left to right. -/
def leaves (f : Filter C) : List (C × Operator) := Expr.leavesOf? f.expression

end Filter

namespace Compiler

variable {C : Type} [ColumnRef C] (c : Compiler C) (set : RestrictionSet)

theorem gated_compile (input : FilterInput) :
    Gated set [] Filter.leaves ((c.under .empty).compile input) ((c.under set).compile input) := by
  rw [compile_eq, compile_eq]
  refine (gated_nodes c set (fun node _ => gated_node c set node) none 1 .empty).map _ [] fun r => ?_
  exact Expr.leavesOf?_joined .and r.1

/-- **Restrictions are a gate and nothing else.** An input compiles to a filter
under a restriction set if and only if it compiles to that filter under none
and every leaf is allowed. If it compiles under none and a leaf is not allowed,
the first such leaf from the left is the error. -/
theorem compile_under (input : FilterInput) :
    (∀ f, (c.under set).compile input = .ok f ↔
      (c.under .empty).compile input = .ok f ∧
        ∀ l ∈ f.leaves, set.isAllowed (ColumnRef.name l.1) l.2 = true) ∧
    ∀ f l, (c.under .empty).compile input = .ok f →
      f.leaves.find? (fun l => !set.isAllowed (ColumnRef.name l.1) l.2) = some l →
      (c.under set).compile input = .error (.notAllowed (ColumnRef.name l.1) l.2.kind) := by
  have hgated := gated_compile c set input
  have hfree : ∀ f, (c.under .empty).compile input = .ok f →
      (c.under set).compile input = (set.gate f.leaves).map fun _ => f := by
    intro f hf
    obtain ⟨made, hm, hg⟩ := hgated.of_ok f hf
    rw [hg, hm, List.nil_append]
  refine ⟨fun f => ⟨fun hf => ?_, fun ⟨hf, hall⟩ => ?_⟩, fun f l hf hl => ?_⟩
  · have hf' := hgated.ok_of_gated f hf
    refine ⟨hf', RestrictionSet.gate_eq_ok_iff.mp ?_⟩
    rw [hfree f hf'] at hf
    cases hgate : set.gate f.leaves with
    | error err => rw [hgate] at hf; cases hf
    | ok u => rfl
  · rw [hfree f hf, RestrictionSet.gate_eq_ok_iff.mpr hall]
    rfl
  · rw [hfree f hf, RestrictionSet.gate_of_find? hl]
    rfl

/-- Ages may be filtered by `gt` only. -/
def gtOnAge : RestrictionSet :=
  RestrictionSet.empty.insert ((ColumnRestriction.new "age" .allow).withRule .gt .any)

/-- An age above 18 that is 20. -/
def twenty : FilterInput :=
  ⟨[.map "age" [.leaf "gt" (.int 18), .map "or" [.leaf "eq" (.int 20)]]]⟩

/-- What `twenty` compiles to if nothing is restricted. -/
def twentyFilter : Filter Column :=
  ⟨some (.junction .and [.leaf (.plain "tt" "age") ⟨.gt, .int 18, by decide⟩,
    .leaf (.plain "tt" "age") ⟨.eq, .int 20, by decide⟩]), .empty⟩

theorem compile_under_gtOnAge :
    ((ofPeople.under .empty).compile twenty = .ok twentyFilter ∧
      twentyFilter.leaves.find? (fun l => !gtOnAge.isAllowed (ColumnRef.name l.1) l.2) =
        some (.plain "tt" "age", ⟨.eq, .int 20, by decide⟩)) ∧
    (ofPeople.under gtOnAge).compile twenty = .error (.notAllowed "age" .eq) :=
  ⟨⟨rfl, rfl⟩, (compile_under ofPeople gtOnAge twenty).2 twentyFilter _ rfl rfl⟩

end Compiler
end QueryFilter
