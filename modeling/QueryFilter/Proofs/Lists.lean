/-
# Facts about lists

Laws of lists that speak of nothing else: what stands once in a list, what is found first in
a list in order, and runs over the members of a list that all go well.

Key theorems: `List.nodup_eraseDups`, `List.eq_or_rel_of_find?_eq_some`, `List.mapM_eq_ok`.
-/
import Mathlib.Data.List.Nodup

namespace List

variable {α β ε : Type}

/-! ### What stands once -/

theorem nodup_eraseDups [BEq α] [LawfulBEq α] : ∀ l : List α, l.eraseDups.Nodup
  | [] => by simp
  | a :: rest => by
    have := List.length_filter_le (fun b => !b == a) rest
    rw [List.eraseDups_cons, List.nodup_cons]
    exact ⟨by simp [List.mem_eraseDups], nodup_eraseDups _⟩
termination_by l => l.length
decreasing_by simp_wf; omega

theorem eraseDups_of_nodup [BEq α] [LawfulBEq α] : ∀ {l : List α}, l.Nodup → l.eraseDups = l
  | [], _ => rfl
  | a :: rest, h => by
    rw [List.nodup_cons] at h
    have hrest : rest.filter (fun b => !b == a) = rest := by
      rw [List.filter_eq_self]
      intro b hb
      have : b ≠ a := fun hba => h.1 (hba ▸ hb)
      simpa using this
    rw [List.eraseDups_cons, hrest, eraseDups_of_nodup h.2]

theorem notMem_of_nodup_append_cons {l l' : List α} {a : α} (h : (l ++ a :: l').Nodup) : a ∉ l :=
  fun hmem => (List.nodup_cons.mp (List.nodup_middle.mp h)).1 (List.mem_append_left l' hmem)

/-! ### Members in pairs -/

/-- A list with one member or none has no two members. -/
theorem length_le_one_iff_pairwise {l : List α} : l.length ≤ 1 ↔ l.Pairwise fun _ _ => False := by
  match l with
  | [] => simp
  | [_] => simp
  | a :: b :: rest =>
    refine ⟨fun h => (by simp at h), fun h => ?_⟩
    exact absurd (List.mem_cons_self (a := b) (l := rest)) fun hb => (List.pairwise_cons.mp h).1 b hb

/-- What is found first in a list in order comes before all else that could be found. -/
theorem eq_or_rel_of_find?_eq_some {r : α → α → Prop} {p : α → Bool} {l : List α} {a : α}
    (h : l.Pairwise r) (ha : l.find? p = some a) : ∀ b ∈ l, p b = true → b = a ∨ r a b := by
  obtain ⟨_, before, after, rfl, hbefore⟩ := List.find?_eq_some_iff_append.mp ha
  intro b hb hp
  rcases List.mem_append.mp hb with hb | hb
  · have := hbefore b hb
    simp [hp] at this
  · rcases List.mem_cons.mp hb with rfl | hb
    · exact Or.inl rfl
    · exact Or.inr ((List.pairwise_cons.mp (List.pairwise_append.mp h).2.1).1 b hb)

/-! ### Runs that all go well -/

theorem mapM_eq_ok {g : α → Except ε β} {f : α → β} :
    ∀ {l : List α}, (∀ a ∈ l, g a = .ok (f a)) → l.mapM g = .ok (l.map f)
  | [], _ => rfl
  | a :: rest, h => by
    obtain ⟨ha, hrest⟩ := List.forall_mem_cons.mp h
    rw [List.mapM_cons, ha, mapM_eq_ok hrest]
    rfl

theorem anyM_eq_ok {g : α → Except ε Bool} {f : α → Bool} :
    ∀ {l : List α}, (∀ a ∈ l, g a = .ok (f a)) → l.anyM g = .ok (l.any f)
  | [], _ => rfl
  | a :: rest, h => by
    obtain ⟨ha, hrest⟩ := List.forall_mem_cons.mp h
    rw [List.anyM, ha, List.any_cons]
    cases f a with
    | true => rfl
    | false => exact anyM_eq_ok hrest

theorem allM_eq_ok {g : α → Except ε Bool} {f : α → Bool} :
    ∀ {l : List α}, (∀ a ∈ l, g a = .ok (f a)) → l.allM g = .ok (l.all f)
  | [], _ => rfl
  | a :: rest, h => by
    obtain ⟨ha, hrest⟩ := List.forall_mem_cons.mp h
    rw [List.allM, ha, List.all_cons]
    cases f a with
    | true => exact allM_eq_ok hrest
    | false => rfl

end List
