/-
# Readings of expressions

A reading depends on a junction through its members only and cannot tell it from the
settled one; so it reads the same before and after an expression is normalized
(`Expr.Reading.normalize`). The predicate of a backend is such a reading: empty junctions
have none, and one predicate alone is not joined.

Key definitions: `Expr.Compositional`, `Expr.Reading`.
Key theorems: `Expr.reading_render`, `Expr.Reading.normalize`,
`Expr.bind_render_normalForm?`.
-/
import QueryFilter.Proofs.Expr.Algebra
import QueryFilter.Proofs.Expr.NormalForm

namespace QueryFilter
namespace Expr

variable {C P Q β : Type}

/-- A function of expressions that depends on a junction through its members only. -/
structure Compositional (f : Expr C → β) : Prop where
  members : ∀ {kind es es'}, es.map f = es'.map f → f (.junction kind es) = f (.junction kind es')

/-- Such a function that does not tell a junction from the settled one. -/
structure Reading (f : Expr C → β) : Prop extends Compositional f where
  settle : ∀ kind es, f (settle kind es) = f (.junction kind es)

theorem render_of_isEmpty (b : Backend C P Q) {e : Expr C} (he : e.isEmpty = true) :
    e.render b = none := by
  cases e with
  | leaf column op => cases he
  | junction kind es =>
    rw [List.isEmpty_iff.mp he]
    rfl

/-- Members that say nothing have no predicate. -/
theorem filterMap_render_filter (b : Backend C P Q) (es : List (Expr C)) :
    (es.filter fun e => !e.isEmpty).filterMap (render b) = es.filterMap (render b) := by
  rw [List.filterMap_filter]
  refine List.filterMap_congr fun e _ => ?_
  cases he : e.isEmpty with
  | true => simp [render_of_isEmpty b he]
  | false => simp

/-- The predicate of a backend is a reading. -/
theorem reading_render (b : Backend C P Q) : Reading (render b) where
  members := (computes_rendering b).members
  settle kind es := by
    rw [render_junction, ← filterMap_render_filter]
    rcases settle_cases kind es with ⟨e, hone, he⟩ | ⟨-, he⟩
    · rw [he, hone, List.filterMap_cons]
      cases render b e <;> rfl
    · rw [he, render_junction]

/-- A reading reads the same after normalizing. -/
theorem Reading.normalize {f : Expr C → β} (hf : Reading f) (e : Expr C) : f e.normalize = f e := by
  induction e using induction with
  | leaf column op => rfl
  | junction kind es ih =>
    rw [normalize_junction, hf.settle]
    refine hf.members ?_
    rw [List.map_map]
    exact List.map_congr_left ih

/-- An expression has the predicate of its normal form, and none if that is empty. -/
theorem bind_render_normalForm? (b : Backend C P Q) (e : Expr C) :
    e.normalForm?.bind (render b) = e.render b := by
  rw [← (reading_render b).normalize e, normalForm?]
  cases he : e.normalize.isEmpty with
  | true => exact (render_of_isEmpty b he).symm
  | false => rfl

end Expr
end QueryFilter
