/-
# The leaves of an expression

What an expression compares, read from left to right, and how many junctions
stand above each comparison. The functions on expressions recurse through
lists of members; here each of them is also given as a plain list operation on
the members, and `Expr.induction` is the one induction that all proofs about
expressions use.

Key definitions: `Expr.leaves`, `Expr.leafDepths`.
Key theorems: `Expr.induction`, `Expr.leavesOf?_joined`.
-/
import Mathlib.Data.List.Basic
import QueryFilter.Expr.Dump
import QueryFilter.Expr.Normalize
import QueryFilter.Expr.Render

namespace QueryFilter
namespace Expr

variable {C P Q : Type}

/-- What holds of the leaves, and of a junction if it holds of its members,
holds of every expression. -/
@[elab_as_elim]
theorem induction {motive : Expr C → Prop} (leaf : ∀ column op, motive (.leaf column op))
    (junction : ∀ kind children, (∀ e ∈ children, motive e) → motive (.junction kind children)) :
    ∀ e, motive e
  | .leaf column op => leaf column op
  | .junction kind children => junction kind children fun e he =>
    have := List.sizeOf_lt_of_mem he
    induction leaf junction e
termination_by e => sizeOf e
decreasing_by simp_wf; omega

/-! ### Leaves -/

mutual

/-- The leaves from left to right. -/
def leaves : Expr C → List (C × Operator)
  | .leaf column op => [(column, op)]
  | .junction _ children => leavesAll children

def leavesAll : List (Expr C) → List (C × Operator)
  | [] => []
  | e :: rest => leaves e ++ leavesAll rest

end

mutual

/-- For each leaf from left to right, how many junctions it lies under. -/
def leafDepths : Expr C → List Nat
  | .leaf _ _ => [0]
  | .junction _ children => leafDepthsAll children

/-- The same for the leaves of the members of one more junction. -/
def leafDepthsAll : List (Expr C) → List Nat
  | [] => []
  | e :: rest => (leafDepths e).map (· + 1) ++ leafDepthsAll rest

end

/-! ### Members as a list -/

theorem leavesAll_eq_flatMap : ∀ es : List (Expr C), leavesAll es = es.flatMap leaves
  | [] => rfl
  | e :: rest => by rw [leavesAll, leavesAll_eq_flatMap rest, List.flatMap_cons]

theorem leafDepthsAll_eq_flatMap : ∀ es : List (Expr C),
    leafDepthsAll es = es.flatMap fun e => (leafDepths e).map (· + 1)
  | [] => rfl
  | e :: rest => by rw [leafDepthsAll, leafDepthsAll_eq_flatMap rest, List.flatMap_cons]

theorem normalizeAll_eq_map : ∀ es : List (Expr C), normalizeAll es = es.map normalize
  | [] => rfl
  | e :: rest => by rw [normalizeAll, normalizeAll_eq_map rest, List.map_cons]

theorem allFull_iff : ∀ {es : List (Expr C)}, AllFull es ↔ ∀ e ∈ es, Full e
  | [] => by simp [AllFull]
  | e :: rest => by rw [AllFull, allFull_iff, List.forall_mem_cons]

theorem renderAll_eq_filterMap (b : Backend C P Q) : ∀ es : List (Expr C),
    renderAll b es = es.filterMap (render b)
  | [] => rfl
  | e :: rest => by
    rw [renderAll, renderAll_eq_filterMap b rest, List.filterMap_cons]
    cases render b e <;> rfl

@[simp]
theorem leaves_leaf (column : C) (op : Operator) : leaves (.leaf column op) = [(column, op)] := rfl

@[simp]
theorem leaves_junction (kind : Junction) (es : List (Expr C)) :
    leaves (.junction kind es) = es.flatMap leaves := by
  rw [leaves, leavesAll_eq_flatMap]

/-- The leaves of a junction are those of its members. -/
theorem forall_leaves_junction {p : C × Operator → Prop} {kind : Junction} {es : List (Expr C)} :
    (∀ l ∈ leaves (.junction kind es), p l) ↔ ∀ e ∈ es, ∀ l ∈ leaves e, p l := by
  rw [leaves_junction, List.forall_mem_flatMap]

theorem mem_leafDepths_junction {kind : Junction} {es : List (Expr C)} {d : Nat} :
    d ∈ leafDepths (.junction kind es) ↔ ∃ e ∈ es, ∃ d' ∈ leafDepths e, d = d' + 1 := by
  rw [leafDepths, leafDepthsAll_eq_flatMap, List.mem_flatMap]
  simp only [List.mem_map, eq_comm]

/-- There is one depth for each leaf. -/
theorem length_leafDepths (e : Expr C) : e.leafDepths.length = e.leaves.length := by
  induction e using induction with
  | leaf column op => rfl
  | junction kind es ih =>
    rw [leafDepths, leafDepthsAll_eq_flatMap, leaves_junction, List.length_flatMap,
      List.length_flatMap]
    refine congrArg List.sum (List.map_congr_left fun e he => ?_)
    rw [List.length_map, ih e he]

theorem normalize_junction (kind : Junction) (es : List (Expr C)) :
    normalize (.junction kind es) = settle kind (es.map normalize) := by
  rw [normalize, normalizeAll_eq_map]

theorem render_junction (b : Backend C P Q) (kind : Junction) (es : List (Expr C)) :
    render b (.junction kind es) = combine b kind (es.filterMap (render b)) := by
  rw [render, renderAll_eq_filterMap]

/-! ### Joined expressions -/

theorem joined_of_two_le {kind : Junction} {es : List (Expr C)} (h : 2 ≤ es.length) :
    joined kind es = some (.junction kind es) := by
  match es, h with
  | e :: e' :: rest, _ => rfl

/-- Expressions joined are a single one, or a junction of them. -/
theorem joined_eq_some {kind : Junction} {es : List (Expr C)} {e : Expr C}
    (h : joined kind es = some e) : es = [e] ∨ 2 ≤ es.length ∧ e = .junction kind es := by
  match es, h with
  | [_], rfl => exact Or.inl rfl
  | _ :: _ :: _, rfl => exact Or.inr ⟨by simp, rfl⟩

/-- The leaves of an expression that may be missing. -/
def leavesOf? (e : Option (Expr C)) : List (C × Operator) := e.elim [] leaves

theorem leavesOf?_joined (kind : Junction) (es : List (Expr C)) :
    leavesOf? (joined kind es) = es.flatMap leaves := by
  match es with
  | [] => rfl
  | [e] => simp [joined, leavesOf?]
  | e :: e' :: rest => simp [joined, leavesOf?]

theorem flatMap_toList (e : Option (Expr C)) : e.toList.flatMap leaves = leavesOf? e := by
  cases e <;> simp [leavesOf?]

/-- What all leaves of expressions have, those of the expressions joined have. -/
theorem forall_leaves_joined {p : C × Operator → Prop} {kind : Junction} {es : List (Expr C)}
    (h : ∀ e ∈ es, ∀ l ∈ e.leaves, p l) :
    ∀ e ∈ (joined kind es).toList, ∀ l ∈ e.leaves, p l := by
  intro e he l hl
  have hmem : l ∈ es.flatMap leaves := by
    rw [← leavesOf?_joined kind, ← flatMap_toList]
    exact List.mem_flatMap.mpr ⟨e, he, hl⟩
  obtain ⟨e', he', hl'⟩ := List.mem_flatMap.mp hmem
  exact h e' he' l hl'

/-- Joining puts leaves under one more junction at most. -/
theorem leafDepths_joined {kind : Junction} {es : List (Expr C)} {depth bound : Nat}
    (h : ∀ e ∈ es, ∀ d ∈ e.leafDepths, depth + 1 + d ≤ bound) :
    ∀ e ∈ (joined kind es).toList, ∀ d ∈ e.leafDepths, depth + d ≤ bound := by
  intro e he d hd
  rcases joined_eq_some (Option.mem_toList.mp he) with rfl | ⟨-, rfl⟩
  · have := h e (List.mem_singleton_self e) d hd
    omega
  · obtain ⟨e', he', d', hd', rfl⟩ := mem_leafDepths_junction.mp hd
    have := h e' he' d' hd'
    omega

end Expr
end QueryFilter
