/-
# What the normal form is

`Expr.normalize` always gives a normal expression (`Expr.isNormal_normalize`)
with the leaves of the one it was given (`Expr.leaves_normalize`), and it leaves
a normal expression as it is (`Expr.normalize_of_isNormal`). A normal expression
without leaves is an empty junction, for which no expression may stand as well
(`Expr.normalForm?`).

Key definitions: `Expr.normalForm?`.
Key theorems: `Expr.isNormal_normalize`, `Expr.leaves_normalize`,
`Expr.normalize_of_isNormal`, `Expr.isEmpty_normalize_iff`,
`Expr.joined_filterMap_normalForm?`.
-/
import QueryFilter.Proofs.Expr.Leaves

namespace QueryFilter
namespace Expr

variable {C : Type}

/-- Settling a junction either leaves its only member that says something, or
keeps the junction over all such members. -/
theorem settle_cases (kind : Junction) (es : List (Expr C)) :
    (∃ e, es.filter (fun e => !e.isEmpty) = [e] ∧ settle kind es = e) ∨
      ((es.filter fun e => !e.isEmpty).length ≠ 1 ∧
        settle kind es = .junction kind (es.filter fun e => !e.isEmpty)) := by
  unfold settle
  split
  · rename_i e he
    exact Or.inl ⟨e, he, rfl⟩
  · rename_i he
    refine Or.inr ⟨fun hl => ?_, rfl⟩
    obtain ⟨e, hl⟩ := List.length_eq_one_iff.mp hl
    exact he e hl

theorem leaves_of_isEmpty {e : Expr C} (h : e.isEmpty = true) : e.leaves = [] := by
  cases e with
  | leaf column op => simp [isEmpty] at h
  | junction kind es =>
    rw [List.isEmpty_iff.mp h]
    rfl

theorem flatMap_leaves_filter (es : List (Expr C)) :
    (es.filter fun e => !e.isEmpty).flatMap leaves = es.flatMap leaves := by
  induction es with
  | nil => rfl
  | cons e rest ih =>
    cases he : e.isEmpty with
    | true => simp [he, ih, leaves_of_isEmpty he]
    | false => simp [he, ih]

theorem leaves_settle (kind : Junction) (es : List (Expr C)) :
    (settle kind es).leaves = es.flatMap leaves := by
  rw [← flatMap_leaves_filter es]
  rcases settle_cases kind es with ⟨e, he, hs⟩ | ⟨_, hs⟩
  · rw [hs, he]
    simp
  · rw [hs, leaves_junction]

/-- Normalizing keeps the leaves and their order. -/
theorem leaves_normalize (e : Expr C) : e.normalize.leaves = e.leaves := by
  induction e using induction with
  | leaf column op => rfl
  | junction kind es ih =>
    rw [normalize_junction, leaves_settle, leaves_junction, List.flatMap_map]
    exact List.flatMap_congr ih

theorem full_of_isNormal {e : Expr C} (h : IsNormal e) (he : e.isEmpty = false) : Full e := by
  rcases h with h | h
  · exact h
  · rw [he] at h
    cases h

theorem isNormal_settle {kind : Junction} {es : List (Expr C)} (h : ∀ e ∈ es, IsNormal e) :
    IsNormal (settle kind es) := by
  have hfull : ∀ e ∈ es.filter (fun e => !e.isEmpty), Full e := by
    intro e he
    obtain ⟨hm, hne⟩ := List.mem_filter.mp he
    exact full_of_isNormal (h e hm) (by simpa using hne)
  rcases settle_cases kind es with ⟨e, he, hs⟩ | ⟨hl, hs⟩
  · rw [hs]
    exact Or.inl (hfull e (by simp [he]))
  · rw [hs]
    by_cases hn : es.filter (fun e => !e.isEmpty) = []
    · exact Or.inr (by rw [hn]; rfl)
    · have hpos := List.length_pos_iff.mpr hn
      exact Or.inl ⟨by omega, allFull_iff.mpr hfull⟩

/-- The normal form is normal. -/
theorem isNormal_normalize (e : Expr C) : IsNormal e.normalize := by
  induction e using induction with
  | leaf column op => exact Or.inl trivial
  | junction kind es ih =>
    rw [normalize_junction]
    refine isNormal_settle fun e he => ?_
    obtain ⟨e', he', rfl⟩ := List.mem_map.mp he
    exact ih e' he'

theorem full_normalize {e : Expr C} (h : e.normalize.isEmpty = false) : Full e.normalize :=
  full_of_isNormal (isNormal_normalize e) h

theorem full_junction_iff {kind : Junction} {es : List (Expr C)} :
    Full (.junction kind es) ↔ 2 ≤ es.length ∧ ∀ e ∈ es, Full e := by
  rw [Full, allFull_iff]

theorem full_of_joined {kind : Junction} {es : List (Expr C)} {e : Expr C} (h : ∀ e ∈ es, Full e)
    (he : joined kind es = some e) : Full e := by
  rcases joined_eq_some he with hone | ⟨hl, rfl⟩
  · exact h e (by rw [hone]; exact List.mem_singleton_self e)
  · exact full_junction_iff.mpr ⟨hl, h⟩

/-- An expression whose junctions are full has a leaf. -/
theorem leaves_ne_nil {e : Expr C} (h : Full e) : e.leaves ≠ [] := by
  induction e using induction with
  | leaf column op => simp
  | junction kind es ih =>
    obtain ⟨hl, hes⟩ := full_junction_iff.mp h
    obtain ⟨e, he⟩ := List.exists_mem_of_length_pos (by omega : 0 < es.length)
    obtain ⟨l, hl⟩ := List.exists_mem_of_ne_nil _ (ih e he (hes e he))
    rw [leaves_junction]
    exact List.ne_nil_of_mem (List.mem_flatMap.mpr ⟨e, he, hl⟩)

/-- So it has a leaf at some depth. -/
theorem leafDepths_ne_nil {e : Expr C} (h : Full e) : e.leafDepths ≠ [] := by
  rw [← List.length_pos_iff, length_leafDepths, List.length_pos_iff]
  exact leaves_ne_nil h

/-! ### Normal expressions stay as they are -/

theorem isEmpty_of_full {e : Expr C} (h : Full e) : e.isEmpty = false := by
  cases e with
  | leaf column op => rfl
  | junction kind es =>
    obtain ⟨hl, -⟩ := full_junction_iff.mp h
    cases es with
    | nil => simp at hl
    | cons e rest => rfl

theorem settle_of_full {kind : Junction} {es : List (Expr C)} (h : Full (.junction kind es)) :
    settle kind es = .junction kind es := by
  obtain ⟨hl, hes⟩ := full_junction_iff.mp h
  have hall : es.filter (fun e => !e.isEmpty) = es := by
    rw [List.filter_eq_self]
    intro e he
    rw [isEmpty_of_full (hes e he), Bool.not_false]
  rcases settle_cases kind es with ⟨e, hone, -⟩ | ⟨-, hs⟩
  · rw [hall] at hone
    simp [hone] at hl
  · rw [hs, hall]

theorem normalize_of_full {e : Expr C} (h : Full e) : e.normalize = e := by
  induction e using induction with
  | leaf column op => rfl
  | junction kind es ih =>
    have hes : es.map normalize = es := by
      rw [List.map_congr_left fun e he => ih e he ((full_junction_iff.mp h).2 e he), List.map_id']
    rw [normalize_junction, hes, settle_of_full h]

/-- A normal expression is its own normal form. -/
theorem normalize_of_isNormal {e : Expr C} (h : IsNormal e) : e.normalize = e := by
  rcases h with h | h
  · exact normalize_of_full h
  · cases e with
    | leaf column op => rfl
    | junction kind es =>
      rw [List.isEmpty_iff.mp h]
      rfl

/-- A junction of normal expressions is settled on the way to its normal form. -/
theorem normalize_settle {kind : Junction} {es : List (Expr C)} (h : ∀ e ∈ es, IsNormal e) :
    (settle kind es).normalize = (junction kind es).normalize := by
  have hes : es.map normalize = es := by
    rw [List.map_congr_left fun e he => normalize_of_isNormal (h e he), List.map_id']
  rw [normalize_of_isNormal (isNormal_settle h), normalize_junction, hes]

/-- The normal form is empty if there is no leaf. -/
theorem isEmpty_normalize_iff {e : Expr C} : e.normalize.isEmpty = true ↔ e.leaves = [] := by
  rw [← leaves_normalize]
  refine ⟨leaves_of_isEmpty, fun h => ?_⟩
  cases he : e.normalize.isEmpty with
  | true => rfl
  | false => exact absurd h (leaves_ne_nil (full_normalize he))

/-! ### Normal forms that are not empty -/

/-- The normal form, and none if it is empty. -/
def normalForm? (e : Expr C) : Option (Expr C) :=
  if e.normalize.isEmpty then none else some e.normalize

theorem normalForm?_eq_some {e e' : Expr C} (h : e.normalForm? = some e') :
    e' = e.normalize ∧ Full e' := by
  unfold normalForm? at h
  split at h
  · cases h
  · rename_i hne
    cases h
    exact ⟨rfl, full_normalize (by simpa using hne)⟩

theorem normalForm?_of_full {e : Expr C} (h : Full e) : e.normalForm? = some e := by
  rw [normalForm?, normalize_of_full h, isEmpty_of_full h]
  rfl

/-- The members of a settled junction are the normal forms that are not empty. -/
theorem filterMap_normalForm? (es : List (Expr C)) :
    es.filterMap normalForm? = (es.map normalize).filter fun e => !e.isEmpty := by
  induction es with
  | nil => rfl
  | cons e rest ih =>
    rw [List.filterMap_cons, List.map_cons, List.filter_cons, normalForm?, ih]
    cases e.normalize.isEmpty <;> rfl

/-- Joining the normal forms of several expressions gives that of a junction of them. -/
theorem joined_filterMap_normalForm? (kind : Junction) (es : List (Expr C)) :
    joined kind (es.filterMap normalForm?) = normalForm? (.junction kind es) := by
  rw [filterMap_normalForm?, normalForm?, normalize_junction]
  rcases settle_cases kind (es.map normalize) with ⟨e, hone, hs⟩ | ⟨hl, hs⟩
  · have hmem : e ∈ (es.map normalize).filter fun e => !e.isEmpty := by
      rw [hone]
      exact List.mem_singleton_self e
    have hne : e.isEmpty = false := by simpa using (List.mem_filter.mp hmem).2
    rw [hone, hs, hne]
    rfl
  · rw [hs]
    generalize (es.map normalize).filter (fun e => !e.isEmpty) = kept at hl ⊢
    match kept, hl with
    | [], _ => rfl
    | _ :: _ :: _, _ => rfl

theorem leavesOf?_normalForm? (e : Expr C) : leavesOf? e.normalForm? = e.leaves := by
  rw [normalForm?]
  by_cases he : e.normalize.isEmpty = true
  · rw [if_pos he, isEmpty_normalize_iff.mp he]
    rfl
  · rw [if_neg he]
    exact leaves_normalize e

end Expr
end QueryFilter
