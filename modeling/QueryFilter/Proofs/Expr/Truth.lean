/-
# Truth values of expressions

Let each comparison be true or false. Then an expression that says anything is true or
false as well: it is what a backend makes of it whose predicates are truth values
(`Backend.deciding`). An `and` within an `and` and the order of members make no
difference to it, so gathering an expression does not change its truth value
(`Expr.truth?_gather`).

Key definitions: `Backend.deciding`, `Expr.truth?`.
Key theorems: `Expr.truth?_joined`, `Expr.truth?_gather`.
-/
import QueryFilter.Proofs.Expr.Placement

namespace QueryFilter

variable {C : Type}

/-- The backend that decides predicates by the truth values of comparisons. Its query is
whether anything is let through. -/
def Backend.deciding (valuation : C → Operator → Bool) : Backend C Bool Bool where
  selected := fun _ _ => none
  evaluate := valuation
  conj := fun values => values.all id
  disj := fun values => values.any id
  applyPredicate := fun through value => through && value
  applyLimit := fun through _ => through
  applyOffset := fun through _ => through
  applyOrdering := fun through _ => through

namespace Expr

variable (v : C → Operator → Bool) {kind : Junction} {es : List (Expr C)}

/-- The truth value of an expression, if it says anything. -/
def truth? (e : Expr C) : Option Bool := e.render (.deciding v)

/-! ### Combining truth values -/

theorem combine_deciding (kind : Junction) (bs : List Bool) :
    combine (.deciding v) kind bs =
      if bs = [] then none else some ((Backend.deciding v).join kind bs) := by
  match bs with
  | [] => rfl
  | [b] =>
    cases kind
    · show some b = some ([b].all id)
      simp
    · show some b = some ([b].any id)
      simp
  | _ :: _ :: _ => rfl

theorem combine_perm {bs bs' : List Bool} (h : bs.Perm bs') :
    combine (.deciding v) kind bs = combine (.deciding v) kind bs' := by
  have hnil : bs = [] ↔ bs' = [] := by
    rw [← List.length_eq_zero_iff, ← List.length_eq_zero_iff, h.length_eq]
  have hjoin : (Backend.deciding v).join kind bs = (Backend.deciding v).join kind bs' := by
    cases kind
    · show bs.all id = bs'.all id
      rw [Bool.eq_iff_iff, List.all_eq_true, List.all_eq_true]
      exact forall_congr' fun b => by rw [h.mem_iff]
    · show bs.any id = bs'.any id
      rw [Bool.eq_iff_iff, List.any_eq_true, List.any_eq_true]
      exact exists_congr fun b => by rw [h.mem_iff]
  rw [combine_deciding, combine_deciding, hjoin]
  simp only [hnil]

/-- Members of an `and` that are joined by `and` first make no difference. -/
theorem combine_flatten (bss : List (List Bool)) :
    combine (.deciding v) .and (bss.filterMap (combine (.deciding v) .and)) =
      combine (.deciding v) .and bss.flatten := by
  have hparts : ∀ bss : List (List Bool),
      (bss.filterMap (combine (.deciding v) .and) = [] ↔ bss.flatten = []) ∧
        (bss.filterMap (combine (.deciding v) .and)).all id = bss.flatten.all id := by
    intro bss
    induction bss with
    | nil => exact ⟨Iff.rfl, rfl⟩
    | cons bs rest ih =>
      have hjoin : (Backend.deciding v).join .and bs = bs.all id := rfl
      rw [List.filterMap_cons, combine_deciding, hjoin, List.flatten_cons, List.all_append, ← ih.2]
      by_cases hbs : bs = []
      · simp [hbs, ih.1]
      · simp [hbs]
  have hjoin : ∀ bs, (Backend.deciding v).join .and bs = bs.all id := fun _ => rfl
  rw [combine_deciding, combine_deciding, hjoin, hjoin, (hparts bss).2]
  simp only [(hparts bss).1]

/-- What is said first and what is said next are both to be true, if they are said. -/
theorem combine_append (bs bs' : List Bool) :
    combine (.deciding v) .and (bs ++ bs') =
      Option.merge (· && ·) (combine (.deciding v) .and bs) (combine (.deciding v) .and bs') := by
  have hjoin : ∀ bs, (Backend.deciding v).join .and bs = bs.all id := fun _ => rfl
  rw [combine_deciding, combine_deciding, combine_deciding, hjoin, hjoin, hjoin, List.all_append]
  by_cases hbs : bs = []
  · by_cases hbs' : bs' = []
    · simp [hbs, hbs']
    · simp [hbs, hbs']
  · by_cases hbs' : bs' = []
    · simp [hbs, hbs']
    · simp [hbs, hbs']

/-! ### Expressions -/

theorem truth?_junction (kind : Junction) (es : List (Expr C)) :
    truth? v (.junction kind es) = combine (.deciding v) kind (es.filterMap (truth? v)) :=
  render_junction _ kind es

theorem truth?_joined (kind : Junction) (es : List (Expr C)) :
    (joined kind es).bind (truth? v) = combine (.deciding v) kind (es.filterMap (truth? v)) := by
  match es with
  | [] => rfl
  | [e] =>
    show truth? v e = combine (.deciding v) kind ([e].filterMap (truth? v))
    cases he : truth? v e with
    | none => simp [he, combine]
    | some b => simp [he, combine]
  | e :: e' :: rest => exact truth?_junction v kind _

/-- Expressions joined by `and` are as true as those in front and those behind, each joined
on their own. -/
theorem truth?_joined_append (es es' : List (Expr C)) :
    (joined .and (es ++ es')).bind (truth? v) =
      Option.merge (· && ·) ((joined .and es).bind (truth? v)) ((joined .and es').bind (truth? v)) := by
  rw [truth?_joined, truth?_joined, truth?_joined, List.filterMap_append, combine_append]

variable [ColumnRef C]

/-- Regrouping the members of a junction does not change its truth value. -/
theorem truth?_regroup (kind : Junction) (es : List (Expr C)) :
    truth? v (regroup kind es) = combine (.deciding v) kind (es.filterMap (truth? v)) := by
  rw [regroup]
  split
  · rename_i hkind
    obtain ⟨rfl, -⟩ := hkind
    have hkeys : (bundle es).filterMap (truth? v) =
        ((keys es).map fun k => (ofKey k es).filterMap (truth? v)).filterMap
          (combine (.deciding v) .and) := by
      rw [bundle, List.filterMap_filterMap, List.filterMap_map]
      exact List.filterMap_congr fun k _ => truth?_joined v .and _
    have hmembers : ((keys es).map fun k => (ofKey k es).filterMap (truth? v)).flatten =
        ((keys es).flatMap fun k => ofKey k es).filterMap (truth? v) := by
      rw [List.filterMap_flatMap]
      rfl
    rw [truth?_junction, hkeys, combine_flatten, hmembers]
    exact combine_perm v ((perm_flatMap_ofKey es).filterMap _)
  · exact truth?_junction v kind es

/-- **Gathering keeps truth values.** -/
theorem truth?_gather (e : Expr C) : truth? v e.gather = truth? v e := by
  induction e using induction with
  | leaf column op => rfl
  | junction kind es ih =>
    rw [gather_junction, truth?_regroup, truth?_junction, List.filterMap_map]
    exact congrArg _ (List.filterMap_congr ih)

end Expr
end QueryFilter
