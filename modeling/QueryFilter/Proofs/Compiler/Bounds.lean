/-
# What the bounds of the compiler do

Two runs over one input, one under settings of the compiler and one under looser ones. The
bounds are checked at each node and at each limit, among all else that can be wrong there,
and a walk that oversteps one ends. So the two runs go together for as long as the first one
keeps to its bounds, and if it ends at none of them, the other one ends in the same filter or
in the same error (`Compiler.compile_withSettings`). That is a property of each part of the
walk (`Compiler.UpToBound`) that parts one after the other keep.

The settings are read nowhere else: a node that no keyword names does not see them.

What comes out of a walk that succeeds keeps to the bounds as well (`Compiler.compile_capped`).
There are junctions in a predicate that no key names, at the top and below a column, but none
without a level of the input to itself.

Key definitions: `FilterError.ofBound`, `CompilerSettings.Within`, `Compiler.UpToBound`.
Key theorems: `Compiler.UpToBound.bind`, `Compiler.upToBound_visit`,
`Compiler.upToBound_node`, `Compiler.compile_withSettings`, `Compiler.compile_capped`.
-/
import QueryFilter.Proofs.Compiler.Origin

namespace QueryFilter

/-- Whether an error says that a bound of the compiler is overstepped. -/
def FilterError.ofBound : FilterError → Bool
  | .tooDeep _ => true
  | .limitExceeded _ _ => true
  | _ => false

/-- Whether other settings allow all that these allow. -/
structure CompilerSettings.Within (s s' : CompilerSettings) : Prop where
  maxDepth : s.maxDepth ≤ s'.maxDepth
  maxLimit : ∀ most' ∈ s'.maxLimit, ∃ most ∈ s.maxLimit, most ≤ most'

namespace Compiler

variable {C : Type}

/-- The compiler with other settings. -/
def withSettings (c : Compiler C) (s : CompilerSettings) : Compiler C :=
  ⟨c.resolver, s, c.restrictions⟩

/-- Whether a loose run ends as the tight one does, unless that one ends at a bound. -/
def UpToBound {α : Type} (tight loose : Except FilterError α) : Prop :=
  (∀ err, tight = .error err → err.ofBound = false) → loose = tight

namespace UpToBound

variable {α β : Type} {tight loose : Except FilterError α}

theorem refl (run : Except FilterError α) : UpToBound run run := fun _ => rfl

/-- Nothing is said of the loose run once the tight one is at a bound. -/
theorem of_bound {err : FilterError} (h : err.ofBound = true) : UpToBound (.error err) loose := by
  intro hkept
  rw [hkept err rfl] at h
  cases h

/-- Two parts of a run, one after the other. -/
theorem bind (h : UpToBound tight loose) {tight' loose' : α → Except FilterError β}
    (h' : ∀ a, UpToBound (tight' a) (loose' a)) :
    UpToBound (tight.bind tight') (loose.bind loose') := by
  intro hkept
  cases tight with
  | error err =>
    -- An error of the first part is that of the whole, so it is not of a bound.
    have hloose : loose = .error err := h fun err' herr => by
      cases herr
      exact hkept err rfl
    rw [hloose]
    rfl
  | ok a =>
    have hloose : loose = .ok a := h fun err herr => by cases herr
    rw [hloose]
    exact h' a hkept

theorem map (h : UpToBound tight loose) (f : α → β) :
    UpToBound (tight.map f) (loose.map f) := by
  have hbind : ∀ run : Except FilterError α, run.map f = run.bind fun a => .ok (f a) :=
    fun run => by cases run <;> rfl
  rw [hbind, hbind]
  exact h.bind fun a => refl _

end UpToBound

/-! ### The walk up to a bound -/

theorem upToBound_checkLimit {s s' : CompilerSettings} (hw : s.Within s') (limit : UInt64) :
    UpToBound (checkLimit s limit) (checkLimit s' limit) := by
  unfold checkLimit
  cases hs' : s'.maxLimit with
  | none =>
    cases s.maxLimit with
    | none => exact .refl _
    | some most =>
      dsimp only
      split
      · exact .of_bound rfl
      · exact .refl _
  | some most' =>
    obtain ⟨most, hs, hle⟩ := hw.maxLimit most' hs'
    rw [Option.mem_def.mp hs]
    dsimp only
    by_cases hover : most < limit
    · rw [if_pos hover]
      exact .of_bound rfl
    · have hover' : ¬ most' < limit := fun h => hover (UInt64.lt_of_le_of_lt hle h)
      rw [if_neg hover, if_neg hover']
      exact .refl _

variable (c : Compiler C) {s' : CompilerSettings}

theorem upToBound_addModifier (hw : c.settings.Within s') (modifiers : Modifiers C)
    (modifier : Modifier) (node : InputNode) :
    UpToBound (c.addModifier modifiers modifier node)
      ((c.withSettings s').addModifier modifiers modifier node) := by
  cases modifier with
  | offset | orderBy => exact .refl _
  | limit =>
    exact (UpToBound.refl (countOf .limit node)).bind fun limit =>
      (upToBound_checkLimit hw limit).bind fun _ => .refl _

variable [ColumnRef C]

/-- A visit is the same but for the bounds: the depth is checked first, and a limit after it. -/
theorem upToBound_visit (hw : c.settings.Within s') (column : Option String) (depth : Nat)
    (modifiers : Modifiers C) (node : InputNode) :
    UpToBound (c.visit column depth modifiers node)
      ((c.withSettings s').visit column depth modifiers node) := by
  unfold visit
  by_cases hdeep : c.settings.maxDepth.toNat < depth
  · rw [if_pos hdeep]
    exact .of_bound rfl
  · have hdeep' : ¬ (c.withSettings s').settings.maxDepth.toNat < depth := fun h =>
      hdeep (Nat.lt_of_le_of_lt (UInt64.le_iff_toNat_le.mp hw.maxDepth) h)
    rw [if_neg hdeep, if_neg hdeep']
    cases Modifier.ofKey? node.key with
    | some modifier =>
      exact (upToBound_addModifier c hw modifiers modifier node).bind fun _ => .refl _
    | none =>
      cases Junction.ofName? node.key with
      | some kind => exact .refl _
      | none => exact .refl (c.visitPlain column modifiers node)

/-- Nodes side by side go together up to a bound if each of them does. -/
theorem upToBound_nodes : ∀ {nodes : List InputNode},
    (∀ node ∈ nodes, ∀ column depth modifiers,
      UpToBound (c.compileNode column depth modifiers node)
        ((c.withSettings s').compileNode column depth modifiers node)) →
    ∀ column depth modifiers,
      UpToBound (c.compileNodes column depth modifiers nodes)
        ((c.withSettings s').compileNodes column depth modifiers nodes)
  | [], _, column, depth, modifiers => by
    rw [compileNodes_nil, compileNodes_nil]
    exact .refl _
  | node :: rest, h, column, depth, modifiers => by
    obtain ⟨hnode, hrest⟩ := List.forall_mem_cons.mp h
    rw [compileNodes_cons, compileNodes_cons]
    exact (hnode column depth modifiers).bind fun first =>
      (upToBound_nodes hrest column depth first.2).map _

theorem upToBound_node (hw : c.settings.Within s') (node : InputNode) :
    ∀ column depth modifiers,
      UpToBound (c.compileNode column depth modifiers node)
        ((c.withSettings s').compileNode column depth modifiers node) := by
  induction node using InputNode.induction with
  | step node ih =>
    intro column depth modifiers
    rw [compileNode_eq, compileNode_eq]
    refine (upToBound_visit c hw column depth modifiers node).bind fun step => ?_
    cases step with
    | done e m => exact .refl _
    | descend kind column => exact (upToBound_nodes c ih column (depth + 1) modifiers).map _

/-- **Looser settings change no answer.** What an input compiles to under settings, a filter
or an error that is not of a bound, it compiles to under settings that allow more. -/
theorem compile_withSettings (hw : c.settings.Within s') (input : FilterInput)
    (hkept : ∀ err, c.compile input = .error err → err.ofBound = false) :
    (c.withSettings s').compile input = c.compile input := by
  have hnodes : UpToBound (c.compileNodes none 1 .empty input.nodes)
      ((c.withSettings s').compileNodes none 1 .empty input.nodes) :=
    upToBound_nodes c (fun node _ => upToBound_node c hw node) none 1 .empty
  have hcompile : UpToBound (c.compile input) ((c.withSettings s').compile input) := by
    rw [compile_eq, compile_eq]
    exact hnodes.map _
  exact hcompile hkept

/-- A limit, and an age under an operator that does not exist. -/
def ageLikeLimit : FilterInput :=
  ⟨[.leaf "limit" (.int 5), .map "age" [.leaf "gt" (.int 22), .leaf "like" (.int 65)]]⟩

theorem compile_withSettings_ageLikeLimit :
    ((ofPeople.withSettings ⟨2, some 5⟩).settings.Within ⟨3, some 9⟩ ∧
      (ofPeople.withSettings ⟨2, some 5⟩).compile ageLikeLimit = .error (.unknownOperator "like")) ∧
    (ofPeople.withSettings ⟨3, some 9⟩).compile ageLikeLimit = .error (.unknownOperator "like") := by
  have hw : (ofPeople.withSettings ⟨2, some 5⟩).settings.Within ⟨3, some 9⟩ :=
    ⟨by decide, fun _ h => ⟨5, rfl, by cases h; decide⟩⟩
  have hcompile : (ofPeople.withSettings ⟨2, some 5⟩).compile ageLikeLimit =
      .error (.unknownOperator "like") := rfl
  refine ⟨⟨hw, hcompile⟩, ?_⟩
  have hsame := compile_withSettings (ofPeople.withSettings ⟨2, some 5⟩) hw ageLikeLimit
    fun err herr => by rw [hcompile] at herr; cases herr; rfl
  exact hsame.trans hcompile

/-! ### What comes out -/

theorem le_of_checkLimit {settings : CompilerSettings} {n most : UInt64}
    (h : checkLimit settings n = .ok ()) (hmost : settings.maxLimit = some most) : n ≤ most := by
  unfold checkLimit at h
  rw [hmost] at h
  dsimp only at h
  split at h
  · cases h
  · rename_i hle
    exact UInt64.not_lt.mp hle

/-- **Bounds cap what comes out.** The limit of a compiled filter, if it has one, is not above
the largest one allowed, if there is one. No leaf of its predicate lies under more junctions
than an input may have levels. -/
theorem compile_capped {c : Compiler C} {input : FilterInput} {f : Filter C}
    (h : c.compile input = .ok f) :
    (∀ n most, f.modifiers.limit = some n → c.settings.maxLimit = some most → n ≤ most) ∧
      ∀ e, f.expression = some e → ∀ d ∈ e.leafDepths, d ≤ c.settings.maxDepth.toNat := by
  have hdepths := leafDepths_of_compile h
  rw [compile_eq] at h
  obtain ⟨⟨es, m⟩, hwalk, rfl⟩ := Except.map_eq_ok.mp h
  have hlimit : ∀ n, m.limit = some n → checkLimit c.settings n = .ok () :=
    compileNodes_limit hwalk fun n hn => by cases hn
  exact ⟨fun n most hn hmost => le_of_checkLimit (hlimit n hn) hmost, hdepths⟩

/-- Limits at the top, in a junction and below a column, beside ages that are joined by no key
but lie under as many junctions as there are levels. -/
def nestedLimits : FilterInput :=
  ⟨[.leaf "limit" (.int 3),
    .map "or" [.map "age" [.leaf "gt" (.int 23), .leaf "lt" (.int 68), .leaf "limit" (.int 4)],
      .map "name" [.leaf "eq" (.string "Ann")], .leaf "limit" (.int 5)],
    .map "name" [.leaf "ne" (.string "Bob")]]⟩

/-- The predicate of `nestedLimits`. -/
def nestedLimitsExpr : Expr Column :=
  .junction .and
    [.junction .or
      [.junction .and
        [.leaf (.plain "tt" "age") ⟨.gt, .int 23, by decide⟩,
          .leaf (.plain "tt" "age") ⟨.lt, .int 68, by decide⟩],
        .leaf (.plain "tt" "name") ⟨.eq, .string "Ann", by decide⟩],
      .leaf (.plain "tt" "name") ⟨.ne, .string "Bob", by decide⟩]

/-- Neither bound can be lower. -/
theorem compile_capped_nestedLimits :
    (ofPeople.withSettings ⟨3, some 5⟩).compile nestedLimits =
        .ok ⟨some nestedLimitsExpr, ⟨some 5, none, []⟩⟩ ∧
      (5 : UInt64) ≤ 5 ∧ nestedLimitsExpr.leafDepths = [3, 3, 2, 1] ∧
      ∀ d ∈ nestedLimitsExpr.leafDepths, d ≤ 3 := by
  have hcompile : (ofPeople.withSettings ⟨3, some 5⟩).compile nestedLimits =
      .ok ⟨some nestedLimitsExpr, ⟨some 5, none, []⟩⟩ := rfl
  obtain ⟨hlimit, hdepths⟩ := compile_capped hcompile
  exact ⟨hcompile, hlimit 5 5 rfl rfl, rfl, hdepths nestedLimitsExpr rfl⟩

end Compiler
end QueryFilter
