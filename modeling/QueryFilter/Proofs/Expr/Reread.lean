/-
# Expressions read back

An expression with its values reread has the junctions, columns and comparisons that it
had, so it can be written, and written again, exactly if it could before. If JSON can hold
all its values it is the expression itself.

Key definitions: `Expr.reread`.
Key theorems: `Expr.reread_of_portable`, `Expr.face_reread`,
`Expr.not_collides_reread_iff`, `Expr.rewritable_reread_iff`.
-/
import QueryFilter.Proofs.Expr.Rewrite
import QueryFilter.Proofs.Value.Reread

namespace QueryFilter
namespace Expr

variable {C : Type}

mutual

/-- The expression with its operators as they are read back. -/
def reread : Expr C → Expr C
  | .leaf column op => .leaf column op.reread
  | .junction kind children => .junction kind (rereadAll children)

def rereadAll : List (Expr C) → List (Expr C)
  | [] => []
  | e :: rest => reread e :: rereadAll rest

end

theorem rereadAll_eq_map : ∀ es : List (Expr C), rereadAll es = es.map reread
  | [] => rfl
  | e :: rest => by rw [rereadAll, rereadAll_eq_map rest, List.map_cons]

theorem reread_junction (kind : Junction) (es : List (Expr C)) :
    reread (.junction kind es) = .junction kind (es.map reread) := by
  rw [reread, rereadAll_eq_map]

/-- An expression of values that JSON can hold is read back as it is. -/
theorem reread_of_portable {e : Expr C} (h : ∀ l ∈ e.leaves, l.2.value.Portable) : e.reread = e := by
  induction e using induction with
  | leaf column op =>
    have hop : op.reread = op :=
      Operator.eq_of rfl (Value.reread_of_portable (h (column, op) (by simp)))
    rw [reread, hop]
  | junction kind es ih =>
    have hes : ∀ e ∈ es, e.reread = id e := fun e he =>
      ih e he (forall_leaves_junction.mp h e he)
    rw [reread_junction, List.map_congr_left hes, List.map_id]

theorem full_reread {e : Expr C} (h : Full e) : Full e.reread := by
  induction e using induction with
  | leaf column op => trivial
  | junction kind es ih =>
    obtain ⟨hl, hes⟩ := full_junction_iff.mp h
    rw [reread_junction, full_junction_iff, List.length_map, List.forall_mem_map]
    exact ⟨hl, fun e he => ih e he (hes e he)⟩

variable [ColumnRef C]

theorem face_reread (e : Expr C) : e.reread.face = e.face := by
  cases e <;> rfl

theorem not_collides_reread_iff (e : Expr C) : ¬ Collides e.reread ↔ ¬ Collides e := by
  induction e using induction with
  | leaf column op =>
    exact ⟨fun _ => not_collides_leaf column op, fun _ => not_collides_leaf column op.reread⟩
  | junction kind es ih =>
    rw [reread_junction, not_collides_junction_iff, not_collides_junction_iff, clear_map face_reread,
      List.forall_mem_map]
    exact and_congr_left' (forall₂_congr ih)

theorem rewritable_reread_iff (e : Expr C) : Rewritable e.reread ↔ Rewritable e := by
  induction e using induction with
  | leaf column op => exact Iff.rfl
  | junction kind es ih =>
    rw [reread_junction, rewritable_junction_iff, rewritable_junction_iff,
      keys_map (key_of_face face_reread), crowded_map face_reread, List.forall_mem_map]
    exact and_congr_right' (forall₂_congr ih)

end Expr
end QueryFilter
