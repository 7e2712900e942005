/-
# Columns that are found again

A filter that was compiled has no column that was not found by some reference: neither in
its leaves nor in its orderings (`Compiler.compile_knows`). What is written for a column is
not always this reference, but if the output columns are told apart by their labels it
finds the same column (`Resolver.resolve_reference`). So all columns of the filter are found
again by what is written for them (`Compiler.columns_found_again`).

Key definitions: `Resolver.Knows`.
Key theorems: `Compiler.addModifier_knows`, `Compiler.compileNodes_knows`,
`Compiler.compile_knows`, `Compiler.columns_found_again`.
-/
import QueryFilter.Proofs.Compiler.Gate
import QueryFilter.Proofs.Compiler.Visit
import QueryFilter.Proofs.Schema.Resolution

namespace QueryFilter

/-- Whether some reference finds a column. -/
def Resolver.Knows {C : Type} (r : Resolver C) (column : C) : Prop :=
  ∃ reference, r.resolve reference = .ok column

namespace Compiler

variable {C : Type} {c : Compiler C} {r : Resolver C} {m m' : Modifiers C}

/-! ### Orderings -/

theorem ordering_knows {v : Value} {o : OrderBy C} (h : ordering r v = .ok o) : r.Knows o.column := by
  rw [ordering] at h
  cases hv : v.string? with
  | none =>
    rw [hv] at h
    cases h
  | some s =>
    rw [hv] at h
    obtain ⟨spec, -, h⟩ := Except.bind_eq_ok.mp h
    obtain ⟨column, hcolumn, h⟩ := Except.bind_eq_ok.mp h
    cases h
    exact ⟨spec.reference, hcolumn⟩

theorem orderings_knows : ∀ {vs : List Value} {os : List (OrderBy C)}, orderings r vs = .ok os →
    ∀ o ∈ os, r.Knows o.column
  | [], _, h => by
    cases h
    exact List.forall_mem_nil _
  | v :: rest, _, h => by
    obtain ⟨o, ho, h⟩ := Except.bind_eq_ok.mp h
    obtain ⟨os, hrest, h⟩ := Except.bind_eq_ok.mp h
    cases h
    exact List.forall_mem_cons.mpr ⟨ordering_knows ho, orderings_knows hrest⟩

/-- A modifier adds no ordering by a column that was not found. -/
theorem addModifier_knows {modifier : Modifier} {node : InputNode}
    (hm : ∀ o ∈ m.orderBy, c.resolver.Knows o.column) (h : c.addModifier m modifier node = .ok m') :
    ∀ o ∈ m'.orderBy, c.resolver.Knows o.column := by
  cases modifier with
  | limit =>
    obtain ⟨n, -, h⟩ := Except.bind_eq_ok.mp h
    obtain ⟨-, -, h⟩ := Except.bind_eq_ok.mp h
    cases h
    exact hm
  | offset =>
    obtain ⟨n, -, h⟩ := Except.bind_eq_ok.mp h
    cases h
    exact hm
  | orderBy =>
    obtain ⟨vs, -, h⟩ := Except.bind_eq_ok.mp h
    obtain ⟨os, hos, h⟩ := Except.bind_eq_ok.mp h
    cases h
    exact List.forall_mem_append.mpr ⟨hm, orderings_knows hos⟩

/-! ### The whole walk -/

variable [ColumnRef C] {around : Option String} {depth : Nat} {node : InputNode}
  {nodes : List InputNode} {es : List (Expr C)} {input : FilterInput} {f : Filter C}

/-- What is done at a node is done with columns that were found. -/
theorem Visits.knows {e : Option (Expr C)} (h : Visits c around m node (.done e m')) :
    (∀ e' ∈ e.toList, ∀ l ∈ e'.leaves, c.resolver.Knows l.1) ∧
      ((∀ o ∈ m.orderBy, c.resolver.Knows o.column) →
        ∀ o ∈ m'.orderBy, c.resolver.Knows o.column) := by
  cases h with
  | modifier _ hadd => exact ⟨fun _ he' => (by cases he'), fun hm => addModifier_knows hm hadd⟩
  | @value reference column op _ _ _ hresolve _ _ _ =>
    refine ⟨fun e' he' l hl => ?_, fun hm => hm⟩
    rw [List.mem_singleton.mp he', Expr.leaves_leaf, List.mem_singleton] at hl
    rw [hl]
    exact ⟨reference, hresolve⟩

/-- **No other columns.** A walk makes leaves and orderings of columns that were found. -/
theorem compileNodes_knows (h : c.compileNodes around depth m nodes = .ok (es, m')) :
    (∀ e ∈ es, ∀ l ∈ e.leaves, c.resolver.Knows l.1) ∧
      ((∀ o ∈ m.orderBy, c.resolver.Knows o.column) →
        ∀ o ∈ m'.orderBy, c.resolver.Knows o.column) := by
  refine compileNodes_induction
    (motive := fun _ _ m _ es m' =>
      (∀ e ∈ es, ∀ l ∈ e.leaves, c.resolver.Knows l.1) ∧
        ((∀ o ∈ m.orderBy, c.resolver.Knows o.column) →
          ∀ o ∈ m'.orderBy, c.resolver.Knows o.column))
    (fun _ _ _ => ⟨List.forall_mem_nil _, fun hm => hm⟩) ?_ ?_ h
  · intro around depth m node rest e m₁ es m' _ hvisits ⟨hleaves, horder⟩
    obtain ⟨hleaf, hmodifier⟩ := hvisits.knows
    exact ⟨List.forall_mem_append.mpr ⟨hleaf, hleaves⟩, fun hm => horder (hmodifier hm)⟩
  · intro around depth m node rest kind inner below m₁ es m' _ _ ⟨hbelow, hinner⟩ ⟨hleaves, horder⟩
    exact ⟨List.forall_mem_append.mpr ⟨Expr.forall_leaves_joined hbelow, hleaves⟩,
      fun hm => horder (hinner hm)⟩

/-- What compiles has no columns but those that were found. -/
theorem compile_knows (h : c.compile input = .ok f) :
    (∀ l ∈ f.leaves, c.resolver.Knows l.1) ∧
      ∀ o ∈ f.modifiers.orderBy, c.resolver.Knows o.column := by
  rw [compile_eq] at h
  obtain ⟨⟨es, m⟩, hwalk, rfl⟩ := Except.map_eq_ok.mp h
  obtain ⟨hleaves, horder⟩ := compileNodes_knows hwalk
  refine ⟨fun l hl => ?_, horder (List.forall_mem_nil _)⟩
  rw [Filter.leaves, Expr.leavesOf?_joined] at hl
  obtain ⟨e, he, hl⟩ := List.mem_flatMap.mp hl
  exact hleaves e he l hl

/-- **Columns are found again.** Let the tables be known under their names, and let each
label stand for one output column and nothing else. What a reference finds is found again
by what is written for it. So is every column of a leaf and of an ordering in a filter that
compiles, under all settings and restrictions. -/
theorem columns_found_again {c : Compiler Column} {tables : List Table} {selection : Selection}
    (hc : c.resolver = .ofCatalog (.ofTables tables) selection)
    (hs : selection.Unambiguous (.ofTables tables)) :
    (∀ reference column, c.resolver.resolve reference = .ok column →
      c.resolver.resolve (ColumnRef.reference column) = .ok column) ∧
    ∀ input f, c.compile input = .ok f →
      (∀ l ∈ f.leaves, c.resolver.resolve (ColumnRef.reference l.1) = .ok l.1) ∧
      ∀ o ∈ f.modifiers.orderBy,
        c.resolver.resolve (ColumnRef.reference o.column) = .ok o.column := by
  have hagain : ∀ reference column, c.resolver.resolve reference = .ok column →
      c.resolver.resolve (ColumnRef.reference column) = .ok column := fun _ _ h => by
    rw [hc] at h ⊢
    exact Resolver.resolve_reference (Catalog.namesKept_ofTables tables) hs h
  refine ⟨hagain, fun input f h => ?_⟩
  obtain ⟨hleaves, horder⟩ := compile_knows h
  refine ⟨fun l hl => ?_, fun o ho => ?_⟩
  · obtain ⟨reference, hfound⟩ := hleaves l hl
    exact hagain reference l.1 hfound
  · obtain ⟨reference, hfound⟩ := horder o ho
    exact hagain reference o.column hfound

/-- A compiler over a table with a point in the name of a column, and over output columns
of which one has the name of another for its label. -/
def ofRelabelled : Compiler Column :=
  ⟨.ofCatalog (.ofTables [⟨"tt", ["age", "dept.id"]⟩])
      ⟨[.plain "tt" "age", ⟨"tt", "name", some "age", false⟩, ⟨"tt", "id", some "dept", true⟩]⟩,
    .default, .empty⟩

/-- A comparison of the column that is called `name` is written with its label `age`. -/
theorem columns_found_again_relabelled :
    ∃ f, ofRelabelled.compile ⟨[.map "name" [.leaf "eq" (.string "x")],
        .leaf "order_by" (.string "-tt.dept.id")]⟩ = .ok f ∧
      f.leaves = [(⟨"tt", "name", some "age", false⟩, ⟨.eq, .string "x", by decide⟩)] ∧
      f.modifiers.orderBy = [⟨⟨"tt", "dept.id", none, true⟩, false⟩] ∧
      ofRelabelled.resolver.resolve "age" = .ok ⟨"tt", "name", some "age", false⟩ ∧
      ofRelabelled.resolver.resolve "tt.dept.id" = .ok ⟨"tt", "dept.id", none, true⟩ := by
  have hs : Selection.Unambiguous
      ⟨[.plain "tt" "age", ⟨"tt", "name", some "age", false⟩, ⟨"tt", "id", some "dept", true⟩]⟩
      (.ofTables [⟨"tt", ["age", "dept.id"]⟩]) := by
    refine ⟨by decide, by simp [Column.plain], fun c hc label hl => ?_⟩
    simp only [List.mem_cons, List.not_mem_nil, or_false] at hc
    rcases hc with rfl | rfl | rfl <;> cases hl <;> rfl
  obtain ⟨-, hcompile⟩ := columns_found_again (c := ofRelabelled) rfl hs
  obtain ⟨hleaves, horder⟩ := hcompile ⟨[.map "name" [.leaf "eq" (.string "x")],
    .leaf "order_by" (.string "-tt.dept.id")]⟩ _ rfl
  exact ⟨_, rfl, rfl, rfl, hleaves _ (List.mem_singleton_self _), horder _ (List.mem_singleton_self _)⟩

end Compiler
end QueryFilter
