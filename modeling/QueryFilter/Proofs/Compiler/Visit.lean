/-
# What a successful walk has done

At each node of an input that compiles, one of four things was done
(`Compiler.Visits`): a modifier was taken, a value was made a leaf with all checks
passed, or the nodes below a junction or below a column were gone into. What holds
after each of them, given that it holds of the nodes gone into, holds of the whole
walk (`Compiler.compileNodes_induction`).

Key definitions: `Compiler.Visits`.
Key theorems: `Compiler.visit_visits`, `Compiler.compileNodes_induction`.
-/
import QueryFilter.Proofs.Compiler.Walk

namespace QueryFilter

theorem Operator.ofSymbol_eq_ok {symbol : String} {value : Value} {op : Operator} :
    ofSymbol symbol value = .ok op ↔
      OperatorKind.ofSymbol? symbol = some op.kind ∧ op.value = value := by
  rw [ofSymbol]
  cases OperatorKind.ofSymbol? symbol with
  | none => exact ⟨fun h => (by cases h), fun h => (by cases h.1)⟩
  | some kind =>
    rw [ofKind_eq_ok, Option.some.injEq]
    exact and_congr_left' eq_comm

namespace Compiler

variable {C : Type} [ColumnRef C] {c : Compiler C} {around : Option String} {depth : Nat}
  {m m' : Modifiers C} {node : InputNode} {step : Step C}

/-- What was done at a node, and what it took. -/
inductive Visits (c : Compiler C) (around : Option String) (m : Modifiers C) (node : InputNode) :
    Step C → Prop
  | modifier {modifier : Modifier} {m' : Modifiers C}
    (hkey : Modifier.ofKey? node.key = some modifier) (h : c.addModifier m modifier node = .ok m') :
    Visits c around m node (.done none m')
  | value {reference : String} {column : C} {op : Operator}
    (hmodifier : Modifier.ofKey? node.key = none) (hjunction : Junction.ofName? node.key = none)
    (haround : around = some reference) (hresolve : c.resolver.resolve reference = .ok column)
    (hkind : OperatorKind.ofSymbol? node.key = some op.kind)
    (hvalue : node.value? = some op.value ∨
      node.isSimpleList = true ∧ op.kind.expectsSequence = true ∧ op.value = .array node.leafValues)
    (hallowed : c.restrictions.isAllowed (ColumnRef.name column) op = true) :
    Visits c around m node (.done (some (.leaf column op)) m)
  | junction {kind : Junction} (hmodifier : Modifier.ofKey? node.key = none)
    (hkey : Junction.ofName? node.key = some kind) (hleaf : node.isLeaf = false) :
    Visits c around m node (.descend kind around)
  | column (hmodifier : Modifier.ofKey? node.key = none)
    (hjunction : Junction.ofName? node.key = none) (hvalue : node.value? = none)
    (hlist : node.isSimpleList = false)
    (hsymbol : ¬ (around.isSome ∧ OperatorKind.isSymbol node.key)) :
    Visits c around m node (.descend .and (some node.key))

theorem attached_eq_ok {key reference : String} (h : attached around key = .ok reference) :
    around = some reference := by
  cases around with
  | none => cases h
  | some a =>
    cases h
    rfl

theorem visitLeaf_eq_ok {reference symbol : String} {value : Value}
    (h : c.visitLeaf m reference symbol value = .ok step) :
    ∃ column op, step = .done (some (.leaf column op)) m ∧
      c.resolver.resolve reference = .ok column ∧ OperatorKind.ofSymbol? symbol = some op.kind ∧
      op.value = value ∧ c.restrictions.isAllowed (ColumnRef.name column) op = true := by
  rw [visitLeaf, leaf_eq] at h
  obtain ⟨e, hleaf, rfl⟩ := Except.map_eq_ok.mp h
  obtain ⟨column, hcolumn, hrest⟩ := Except.bind_eq_ok.mp hleaf
  obtain ⟨op, hop, hrest⟩ := Except.bind_eq_ok.mp hrest
  obtain ⟨⟨⟩, hcheck, rfl⟩ := Except.map_eq_ok.mp hrest
  obtain ⟨hkind, hvalue⟩ := Operator.ofSymbol_eq_ok.mp hop
  exact ⟨column, op, rfl, hcolumn, hkind, hvalue, RestrictionSet.check_eq_ok_iff.mp hcheck⟩

theorem visitPlain_visits (hm : Modifier.ofKey? node.key = none)
    (hj : Junction.ofName? node.key = none) (h : c.visitPlain around m node = .ok step) :
    Visits c around m node step := by
  rw [visitPlain_eq] at h
  cases hv : node.value? with
  | some value =>
    rw [hv] at h
    obtain ⟨reference, ha, h⟩ := Except.bind_eq_ok.mp h
    obtain ⟨column, op, rfl, hresolve, hkind, rfl, hallowed⟩ := visitLeaf_eq_ok h
    exact .value hm hj (attached_eq_ok ha) hresolve hkind (Or.inl hv) hallowed
  | none =>
    rw [hv] at h
    dsimp only at h
    split at h
    · rename_i hl
      obtain ⟨reference, ha, h⟩ := Except.bind_eq_ok.mp h
      split at h
      · cases h
      · rename_i hrefuse
        obtain ⟨column, op, rfl, hresolve, hkind, hvalue, hallowed⟩ := visitLeaf_eq_ok h
        have hseq : op.kind.expectsSequence = true := by
          simpa [refusesList, hkind] using hrefuse
        exact .value hm hj (attached_eq_ok ha) hresolve hkind (Or.inr ⟨hl, hseq, hvalue⟩) hallowed
    · rename_i hl
      split at h
      · cases h
      · rename_i hsymbol
        cases h
        exact .column hm hj hv (by simpa using hl) hsymbol

/-- **One visit.** Where a visit succeeds, the bound on the depth is kept and one of
the four things was done. -/
theorem visit_visits (h : c.visit around depth m node = .ok step) :
    depth ≤ c.settings.maxDepth.toNat ∧ Visits c around m node step := by
  rw [visit] at h
  split at h
  · cases h
  · rename_i hdepth
    refine ⟨Nat.le_of_not_lt hdepth, ?_⟩
    cases hm : Modifier.ofKey? node.key with
    | some modifier =>
      rw [hm] at h
      obtain ⟨m', hadd, h⟩ := Except.bind_eq_ok.mp h
      cases h
      exact .modifier hm hadd
    | none =>
      rw [hm] at h
      cases hj : Junction.ofName? node.key with
      | some kind =>
        rw [hj] at h
        dsimp only at h
        split at h
        · cases h
        · rename_i hleaf
          cases h
          exact .junction hm hj (by simpa using hleaf)
      | none =>
        rw [hj] at h
        exact visitPlain_visits hm hj h

/-! ### The whole walk -/

/-- A node that compiles was visited, and the nodes below it compiled if it was gone into. -/
theorem compileNode_eq_ok {r : Option (Expr C) × Modifiers C}
    (h : c.compileNode around depth m node = .ok r) :
    depth ≤ c.settings.maxDepth.toNat ∧ ∃ step, Visits c around m node step ∧
      match step with
      | .done e m' => r = (e, m')
      | .descend kind inner => ∃ es m', c.compileNodes inner (depth + 1) m node.children = .ok (es, m') ∧
          r = (Expr.joined kind es, m') := by
  rw [compileNode_eq] at h
  obtain ⟨step, hstep, h⟩ := Except.bind_eq_ok.mp h
  obtain ⟨hdepth, hvisits⟩ := visit_visits hstep
  refine ⟨hdepth, step, hvisits, ?_⟩
  cases step with
  | done e m' =>
    cases h
    rfl
  | descend kind inner =>
    obtain ⟨⟨es, m'⟩, hwalk, rfl⟩ := Except.map_eq_ok.mp h
    exact ⟨es, m', hwalk, rfl⟩

/-- **Induction over a walk.** What holds of no nodes, and goes on over a node that
is dealt with and over one that is gone into, holds of every walk that succeeds. -/
theorem compileNodes_induction
    {motive : Option String → Nat → Modifiers C → List InputNode → List (Expr C) → Modifiers C → Prop}
    (nil : ∀ around depth m, motive around depth m [] [] m)
    (done : ∀ {around depth m node rest e m₁ es m'}, depth ≤ c.settings.maxDepth.toNat →
      Visits c around m node (.done e m₁) → motive around depth m₁ rest es m' →
      motive around depth m (node :: rest) (e.toList ++ es) m')
    (descend : ∀ {around depth m node rest kind inner below m₁ es m'},
      depth ≤ c.settings.maxDepth.toNat → Visits c around m node (.descend kind inner) →
      motive inner (depth + 1) m node.children below m₁ → motive around depth m₁ rest es m' →
      motive around depth m (node :: rest) ((Expr.joined kind below).toList ++ es) m') :
    ∀ {nodes around depth m es m'}, c.compileNodes around depth m nodes = .ok (es, m') →
      motive around depth m nodes es m' := by
  have hlist : ∀ nodes : List InputNode,
      (∀ node ∈ nodes, ∀ {around depth m es m'},
        c.compileNodes around depth m node.children = .ok (es, m') →
          motive around depth m node.children es m') →
      ∀ {around depth m es m'}, c.compileNodes around depth m nodes = .ok (es, m') →
        motive around depth m nodes es m' := by
    intro nodes
    induction nodes with
    | nil =>
      intro _ around depth m es m' h
      rw [compileNodes_nil] at h
      cases h
      exact nil around depth m
    | cons node rest ih =>
      intro hbelow around depth m es m' h
      obtain ⟨hnode, hrest⟩ := List.forall_mem_cons.mp hbelow
      rw [compileNodes_cons] at h
      obtain ⟨first, hfirst, h⟩ := Except.bind_eq_ok.mp h
      obtain ⟨more, hmore, h⟩ := Except.map_eq_ok.mp h
      obtain ⟨hdepth, step, hvisits, hfirst⟩ := compileNode_eq_ok hfirst
      cases h
      cases step with
      | done e m₁ =>
        cases hfirst
        exact done hdepth hvisits (ih hrest hmore)
      | descend kind inner =>
        obtain ⟨below, m₁, hwalk, rfl⟩ := hfirst
        exact descend hdepth hvisits (hnode hwalk) (ih hrest hmore)
  have hbelow : ∀ node : InputNode, ∀ {around depth m es m'},
      c.compileNodes around depth m node.children = .ok (es, m') →
        motive around depth m node.children es m' := by
    intro node
    induction node using InputNode.induction with
    | step node ih => exact hlist node.children ih
  exact fun {nodes} => hlist nodes fun node _ => hbelow node

end Compiler
end QueryFilter
