/-
# Cutting text at a separator

A reference `table.column`, a path `and.or.name` and a selector
`name:eq-John` are all texts cut at a single character: once, at its first
occurrence, or everywhere.

Key definitions: `Text.cutFirst`, `Text.pieces`, `Text.cut?`, `Text.split`,
`Text.afterFront?`, `Text.beforeBack?`.
Key theorems: `Text.cutFirst_eq_some`, `Text.cut?_append`,
`Text.afterFront?_eq_some`, `Text.beforeBack?_eq_some`.
-/

namespace QueryFilter
namespace Text

/-- The characters before and after the first `sep`, if there is one. -/
def cutFirst (sep : Char) : List Char → Option (List Char × List Char)
  | [] => none
  | c :: rest =>
    if c = sep then some ([], rest)
    else (cutFirst sep rest).map fun p => (c :: p.1, p.2)

/-- The pieces between the separators; always at least one. -/
def pieces (sep : Char) : List Char → List (List Char)
  | [] => [[]]
  | c :: rest =>
    if c = sep then [] :: pieces sep rest
    else match pieces sep rest with
      | [] => [[c]]
      | p :: ps => (c :: p) :: ps

/-- The text before and after the first `sep`, if there is one. -/
def cut? (sep : Char) (s : String) : Option (String × String) :=
  (cutFirst sep s.toList).map fun p => (String.ofList p.1, String.ofList p.2)

/-- All texts between the separators, empty ones included. -/
def split (sep : Char) (s : String) : List String :=
  (pieces sep s.toList).map String.ofList

/-- What follows `front` in a text that begins with it. -/
def afterFront? : List Char → List Char → Option (List Char)
  | [], cs => some cs
  | _ :: _, [] => none
  | f :: front, c :: cs => if f = c then afterFront? front cs else none

/-- What comes before `back` in a text that ends with it. -/
def beforeBack? (back cs : List Char) : Option (List Char) :=
  (afterFront? back.reverse cs.reverse).map List.reverse

/-- A cut gives the two sides of the first separator. -/
theorem cutFirst_eq_some (sep : Char) : ∀ (cs before after : List Char),
    cutFirst sep cs = some (before, after) → cs = before ++ sep :: after ∧ sep ∉ before
  | [], _, _, h => by simp [cutFirst] at h
  | c :: rest, before, after, h => by
    by_cases hc : c = sep
    · simp only [cutFirst, hc, ↓reduceIte, Option.some.injEq, Prod.mk.injEq] at h
      obtain ⟨rfl, rfl⟩ := h
      simp [hc]
    · simp only [cutFirst, hc, ↓reduceIte, Option.map_eq_some_iff, Prod.mk.injEq] at h
      obtain ⟨⟨b, a⟩, hb, rfl, rfl⟩ := h
      obtain ⟨hr, hn⟩ := cutFirst_eq_some sep rest b a hb
      exact ⟨by simp [hr], by simp [hn, Ne.symm hc]⟩

/-- The first separator is the one behind a text that has none. -/
theorem cutFirst_append {sep : Char} : ∀ {before : List Char} (after : List Char), sep ∉ before →
    cutFirst sep (before ++ sep :: after) = some (before, after)
  | [], after, _ => by simp [cutFirst]
  | c :: before, after, h => by
    have hc : c ≠ sep := fun hc => h (hc ▸ List.mem_cons_self)
    have hbefore : sep ∉ before := fun hm => h (List.mem_cons_of_mem c hm)
    simp [cutFirst, hc, cutFirst_append after hbefore]

theorem cut?_append {sep : Char} {before : String} (after : String) (h : sep ∉ before.toList) :
    cut? sep (before ++ String.singleton sep ++ after) = some (before, after) := by
  have hlist : (before ++ String.singleton sep ++ after).toList =
      before.toList ++ sep :: after.toList := by simp
  rw [cut?, hlist, cutFirst_append _ h]
  simp

theorem afterFront?_eq_some : ∀ {front cs rest : List Char},
    afterFront? front cs = some rest ↔ cs = front ++ rest
  | [], cs, rest => by simp [afterFront?]
  | _ :: _, [], rest => by simp [afterFront?]
  | f :: front, c :: cs, rest => by
    by_cases h : f = c
    · simp [afterFront?, h, afterFront?_eq_some]
    · simp [afterFront?, h, Ne.symm h]

theorem beforeBack?_eq_some {back cs rest : List Char} :
    beforeBack? back cs = some rest ↔ cs = rest ++ back := by
  unfold beforeBack?
  rw [Option.map_eq_some_iff]
  constructor
  · intro ⟨r, hr, he⟩
    rw [afterFront?_eq_some] at hr
    rw [← he, ← List.reverse_reverse cs, hr]
    simp
  · intro h
    exact ⟨rest.reverse, by rw [afterFront?_eq_some, h]; simp, by simp⟩

end Text
end QueryFilter
