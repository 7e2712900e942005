/-
# Compiling what was compiled before

What compiles from JSON can be written and compiled again under the same settings, unless
the bound on the depth stops it. An input may join nodes without a level of its own, at its
top and below a column, and what is written for it has a level for each junction and two
for a leaf. So it compiles exactly if no leaf lies under more junctions than the bound
allows less two, and then to the same modifiers and a predicate that is true where the
first one was (`Compiler.recompile`). Two more levels are always enough.

Key definitions: `Compiler.Readable`, `Compiler.CompilesLike`.
Key theorems: `Compiler.compile_written`, `Compiler.readable_of_compile`,
`Compiler.recompile`.
-/
import QueryFilter.Proofs.Compiler.Depth
import QueryFilter.Proofs.Compiler.Gate
import QueryFilter.Proofs.Compiler.Modifiers
import QueryFilter.Proofs.Compiler.Origin
import QueryFilter.Proofs.Expr.Truth
import QueryFilter.Proofs.Schema.Resolution

namespace QueryFilter

namespace Compiler

variable {C : Type} [ColumnRef C] {c : Compiler C} {depth : Nat} {m : Modifiers C}

/-- What is written for modifiers within bounds compiles to them. -/
theorem compileNodes_dump_within (hm : m.Within c.settings)
    (hd : m = .empty ∨ depth ≤ c.settings.maxDepth.toNat) :
    c.compileNodes none depth .empty (InputNode.ofMembers m.dump) = .ok ([], m) := by
  rcases hd with rfl | hd
  · exact compileNodes_nil c none depth .empty
  have ho : ∀ o ∈ m.orderBy, o.Readable c.resolver := by
    rw [hm.orderBy]
    exact fun o h => by cases h
  have hcheck : m.limit.elim (.ok ()) (checkLimit c.settings) = .ok () := by
    cases hn : m.limit with
    | none => rfl
    | some n => exact hm.limit n hn
  rw [compileNodes_dump ho hd, hcheck]
  rfl

/-! ### Filters that can be read back -/

/-- Whether what is written for a filter can be read back, if the depth allows it. -/
structure Readable (c : Compiler C) (f : Filter C) : Prop where
  full : ∀ e, f.expression = some e → e.Full
  reads : ∀ l ∈ f.leaves, c.Reads l
  within : f.modifiers.Within c.settings

/-- Another bound on the depth makes no difference to that. -/
theorem Readable.deepen {f : Filter C} (h : c.Readable f) (maxDepth : UInt64) :
    Readable ⟨c.resolver, ⟨maxDepth, c.settings.maxLimit⟩, c.restrictions⟩ f where
  full := h.full
  reads l hl :=
    let ⟨hr, hj, hm, ha, hp⟩ := h.reads l hl
    ⟨hr, hj, hm, ha, hp⟩
  within := ⟨h.within.orderBy, h.within.limit⟩

/-- **Reading back.** What is written for a readable filter compiles to the filter gathered,
if its predicate does not lie too deep, and otherwise ends with that error. -/
theorem compile_written {f : Filter C} {input : FilterInput} (h : c.Readable f)
    (hw : f.toInput = .ok input)
    (hd : f.modifiers = .empty ∨ 1 ≤ c.settings.maxDepth.toNat) :
    ((∀ e, f.expression = some e → ¬ Deep c 1 e) →
        c.compile input = .ok ⟨f.expression.map Expr.gather, f.modifiers⟩) ∧
      ∀ e, f.expression = some e → Deep c 1 e →
        c.compile input = .error (.tooDeep c.settings.maxDepth) := by
  have hnormal : f.normalize.expression = f.expression := by
    rw [Filter.expression_normalize]
    cases he : f.expression with
    | none => rfl
    | some e => exact Expr.normalForm?_of_full (h.full e he)
  have hdump := compileNodes_dump_within h.within hd
  rw [compile_eq]
  rcases Filter.toInput_eq_ok hw with ⟨hnone, hnodes⟩ | ⟨e, hsome, hentry, hnodes⟩
  · rw [hnormal] at hnone
    rw [hnodes, hdump, hnone]
    exact ⟨fun _ => rfl, fun e he => by cases he⟩
  · rw [hnormal] at hsome
    have hreads : ∀ l ∈ e.leaves, c.Reads l := by
      have hall := h.reads
      rwa [Filter.leaves, hsome] at hall
    rw [hnodes, hsome, compileNodes_cons]
    refine ⟨fun hshallow => ?_, fun e' he' hdeep => ?_⟩
    · have hnode := compileNode_entry hentry (h.full e hsome) hreads
        (fun d hd => Nat.le_of_not_lt fun hlt => hshallow e rfl ⟨d, hd, hlt⟩) .empty
      rw [nodeOf] at hnode
      rw [hnode, Except.bind, hdump]
      rfl
    · cases he'
      have hnode := compileNode_tooDeep (m := .empty) hentry (h.full e hsome) hreads hdeep
      rw [nodeOf] at hnode
      rw [hnode]
      rfl

/-- **Compiled filters can be read back**, if columns are found by the references that are
written for them. -/
theorem readable_of_compile {input : FilterInput} {f : Filter C} (hc : Faithful c.resolver)
    (hinput : ∀ node ∈ input.nodes, node.Everywhere InputNode.Ordinary)
    (h : c.compile input = .ok f) : c.Readable f := by
  rw [compile_eq] at h
  obtain ⟨⟨es, m⟩, hwalk, rfl⟩ := Except.map_eq_ok.mp h
  refine ⟨fun e he => Expr.full_of_joined (compileNodes_full hwalk) he, fun l hl => ?_, ?_⟩
  · rw [Filter.leaves, Expr.leavesOf?_joined] at hl
    obtain ⟨e, he, hl⟩ := List.mem_flatMap.mp hl
    exact compileNodes_reads hc hwalk hinput (fun r hr => by cases hr) e he l hl
  · exact compileNodes_within hwalk hinput ⟨rfl, fun n hn => by cases hn⟩

/-- Where an input compiles to a modifier, it may have a level. -/
theorem maxDepth_of_compile {input : FilterInput} {f : Filter C} (h : c.compile input = .ok f) :
    f.modifiers = .empty ∨ 1 ≤ c.settings.maxDepth.toNat := by
  rw [compile_eq] at h
  obtain ⟨⟨es, m⟩, hwalk, rfl⟩ := Except.map_eq_ok.mp h
  rcases le_maxDepth_of_compileNodes hwalk with hnone | hd
  · rw [hnone, compileNodes_nil] at hwalk
    cases hwalk
    exact Or.inl rfl
  · exact Or.inr hd

/-- Whether an input compiles to the modifiers of a filter and to a predicate that is true
where the predicate of the filter is. -/
def CompilesLike (c : Compiler C) (input : FilterInput) (f : Filter C) : Prop :=
  ∃ e, c.compile input = .ok ⟨e, f.modifiers⟩ ∧
    ∀ v, e.bind (Expr.truth? v) = f.expression.bind (Expr.truth? v)

/-- What is written for a readable filter compiles like it, if no leaf lies too deep. -/
theorem compilesLike_written {f : Filter C} {input : FilterInput} (h : c.Readable f)
    (hw : f.toInput = .ok input) (hd : f.modifiers = .empty ∨ 1 ≤ c.settings.maxDepth.toNat)
    (hshallow : ∀ e, f.expression = some e → ∀ d ∈ e.leafDepths,
      d + 2 ≤ c.settings.maxDepth.toNat) : c.CompilesLike input f := by
  refine ⟨_, (compile_written h hw hd).1 ?_, fun v => ?_⟩
  · rintro e he ⟨d, hdepth, hlt⟩
    have := hshallow e he d hdepth
    omega
  · cases f.expression with
    | none => rfl
    | some e => exact Expr.truth?_gather v e

end Compiler

/-! ### Filters from JSON -/

/-- An object without orderings has ordinary nodes only. -/
theorem FilterInput.ordinary_ofJson {j : Json} {input : FilterInput}
    (hj : FilterInput.ofJson j = .ok input) (hkeys : j.hasKey Modifier.orderBy.key = false) :
    ∀ node ∈ input.nodes, node.Everywhere InputNode.Ordinary := by
  cases j with
  | object members =>
    cases hj
    rw [Json.hasKey] at hkeys
    exact InputNode.ordinary_ofMembers members hkeys
  | _ => cases hj

namespace Compiler

/-- **Compiling again.** Let JSON without orderings compile, over tables known under their
names and output columns that are plain. What is written for it compiles to the same
modifiers and to a predicate that is true where the first one was, unless a leaf lies under
more junctions than the bound on the depth less two; then it is too deep, and no more is
wrong with it, as it compiles with two levels more. -/
theorem recompile {tables : List Table} {selection : Selection} {settings : CompilerSettings}
    {restrictions : RestrictionSet} {j : Json} {input input' : FilterInput} {f : Filter Column}
    (hselection : selection.Plain) (hkeys : j.hasKey Modifier.orderBy.key = false)
    (hj : FilterInput.ofJson j = .ok input)
    (hc : Compiler.compile ⟨.ofCatalog (.ofTables tables) selection, settings, restrictions⟩ input =
      .ok f)
    (hw : f.toInput = .ok input') :
    ((∀ e, f.expression = some e → ∀ d ∈ e.leafDepths, d + 2 ≤ settings.maxDepth.toNat) →
        CompilesLike ⟨.ofCatalog (.ofTables tables) selection, settings, restrictions⟩ input' f) ∧
      ((∃ e, f.expression = some e ∧ ∃ d ∈ e.leafDepths, settings.maxDepth.toNat < d + 2) →
        Compiler.compile ⟨.ofCatalog (.ofTables tables) selection, settings, restrictions⟩ input' =
          .error (.tooDeep settings.maxDepth)) ∧
      ∀ maxDepth : UInt64, settings.maxDepth.toNat + 2 ≤ maxDepth.toNat →
        CompilesLike ⟨.ofCatalog (.ofTables tables) selection, ⟨maxDepth, settings.maxLimit⟩,
          restrictions⟩ input' f := by
  have hfaithful : Faithful (.ofCatalog (.ofTables tables) selection) := fun _ _ h =>
    Resolver.reference_of_resolve (Catalog.namesKept_ofTables tables) hselection h
  have hreadable := readable_of_compile hfaithful (FilterInput.ordinary_ofJson hj hkeys) hc
  refine ⟨compilesLike_written hreadable hw (maxDepth_of_compile hc), ?_, fun maxDepth hdeeper => ?_⟩
  · rintro ⟨e, he, d, hd, hlt⟩
    exact (compile_written hreadable hw (maxDepth_of_compile hc)).2 e he
      ⟨d, hd, (by omega : settings.maxDepth.toNat < 1 + d + 1)⟩
  · have hlevels : 1 ≤ maxDepth.toNat := by omega
    refine compilesLike_written (hreadable.deepen maxDepth) hw (Or.inr hlevels) fun e he d hd => ?_
    have hd' : d ≤ settings.maxDepth.toNat := leafDepths_of_compile hc e he d hd
    exact (by omega : d + 2 ≤ maxDepth.toNat)

/-- Two bounds of an age, the object that says so without an `and`. -/
def ageBounds : Json :=
  .object [("age", .object [("gt", .number (.int 30)), ("lt", .number (.int 60))])]

/-- What `ageBounds` is as an input. -/
def ageBoundsInput : FilterInput := ⟨[.map "age" [.leaf "gt" (.int 30), .leaf "lt" (.int 60)]]⟩

/-- What `ageBounds` compiles to. -/
def ageBoundsFilter : Filter Column :=
  ⟨some (.junction .and [.leaf (.plain "tt" "age") ⟨.gt, .int 30, by decide⟩,
    .leaf (.plain "tt" "age") ⟨.lt, .int 60, by decide⟩]), .empty⟩

/-- What is written for it. -/
def ageBoundsWritten : FilterInput :=
  ⟨[.map "and" [.map "age" [.leaf "gt" (.int 30), .leaf "lt" (.int 60)]]]⟩

theorem plain_people : Selection.Plain ⟨[.plain "tt" "name", .plain "tt" "age"]⟩ := by
  intro c hc
  simp only [List.mem_cons, List.not_mem_nil, or_false] at hc
  rcases hc with rfl | rfl <;> exact ⟨rfl, rfl⟩

theorem recompile_ageBounds :
    (Selection.Plain ⟨[.plain "tt" "name", .plain "tt" "age"]⟩ ∧
      ageBounds.hasKey Modifier.orderBy.key = false ∧
      FilterInput.ofJson ageBounds = .ok ageBoundsInput ∧
      ofPeople.compile ageBoundsInput = .ok ageBoundsFilter ∧
      ageBoundsFilter.toInput = .ok ageBoundsWritten) ∧
    ofPeople.CompilesLike ageBoundsWritten ageBoundsFilter := by
  have hkeys : ageBounds.hasKey Modifier.orderBy.key = false := by decide
  have hc : ofPeople.compile ageBoundsInput = .ok ageBoundsFilter := rfl
  refine ⟨⟨plain_people, hkeys, rfl, hc, rfl⟩, (recompile plain_people hkeys rfl hc rfl).1 ?_⟩
  rintro e ⟨⟩
  decide

/-- `ofPeople` with two levels. -/
def ofPeopleTwoLevels : Compiler Column := ⟨ofPeople.resolver, ⟨2, none⟩, .empty⟩

/-- Two bounds of an age take two levels to compile, and three to compile again. -/
theorem recompile_tooDeep_ageBounds :
    Selection.Plain ⟨[.plain "tt" "name", .plain "tt" "age"]⟩ ∧
    ageBounds.hasKey Modifier.orderBy.key = false ∧
    FilterInput.ofJson ageBounds = .ok ageBoundsInput ∧
    ofPeopleTwoLevels.compile ageBoundsInput = .ok ageBoundsFilter ∧
    ageBoundsFilter.toInput = .ok ageBoundsWritten ∧
    ofPeopleTwoLevels.compile ageBoundsWritten = .error (.tooDeep 2) :=
  ⟨plain_people, by decide, rfl, rfl, rfl, rfl⟩

end Compiler
end QueryFilter
