/-
# Order specs with a sign

An ordering is written as a spec with a sign, in which the reference stands as it is.
The notation with a point is tried first and blanks at the ends are taken off, so a
reference comes back if it does not end like a spec in that notation or with a blank,
has no end of line in it and is not empty (`OrderSpec.Signable`). It may begin with
blanks or with a sign, or look like a spec in brackets.

Key definitions: `OrderSpec.Signable`.
Key theorems: `OrderSpec.Signable.ofTrimmed?_signed`, `OrderBy.parse_spec`.
-/
import QueryFilter.Modifiers.Basic
import QueryFilter.Proofs.Text.Blank

namespace QueryFilter
namespace OrderSpec

/-- A text that is a spec in a notation for one direction only is read in this one. -/
theorem inNotation?_of_one {reference? : Bool → List Char → Option (List Char)}
    {cs r : List Char} {ascending : Bool} (hself : reference? ascending cs = some r)
    (hother : reference? (!ascending) cs = none) :
    inNotation? reference? cs = some ⟨String.ofList r, ascending⟩ := by
  cases ascending with
  | true => rw [inNotation?, hself]
  | false => rw [inNotation?, hself, show reference? true cs = none from hother]

/-- A text that does not end with a point and the word is no spec in this notation. -/
theorem suffixed?_eq_none {direction : Bool} {cs : List Char}
    (h : ∀ front, cs ≠ front ++ '.' :: word direction) : suffixed? direction cs = none := by
  rw [suffixed?]
  cases hback : Text.beforeBack? ('.' :: word direction) cs with
  | none => rfl
  | some front => exact absurd (Text.beforeBack?_eq_some.mp hback) (h front)

/-- What may be a reference in a spec with a sign. -/
structure Signable (reference : String) : Prop where
  nonempty : reference ≠ ""
  oneLine : '\n' ∉ reference.toList
  noBlankEnd : ∀ ch ∈ reference.toList.getLast?, Text.isBlank ch = false
  noSuffix : ∀ ascending, ¬ ('.' :: word ascending) <:+ reference.toList

variable {reference : String}

theorem Signable.toList_ne_nil (h : Signable reference) : reference.toList ≠ [] := fun hnil =>
  h.nonempty (String.toList_inj.mp hnil)

theorem Signable.isReference (h : Signable reference) : isReference reference.toList = true := by
  simp [OrderSpec.isReference, h.toList_ne_nil, h.oneLine]

theorem isBlank_sign (ascending : Bool) : Text.isBlank (sign ascending) = false := by
  cases ascending <;> decide

/-- No blank is taken off a signed reference. -/
theorem Signable.trimChars_signed (h : Signable reference) (ascending : Bool) :
    Text.trimChars (sign ascending :: reference.toList) = sign ascending :: reference.toList := by
  have hfront : (sign ascending :: reference.toList).dropWhile Text.isBlank =
      sign ascending :: reference.toList :=
    List.dropWhile_cons_of_neg (by simp [isBlank_sign])
  rw [Text.trimChars, hfront]
  refine Text.trimEnd_eq_self fun ch hch => h.noBlankEnd ch ?_
  rwa [List.getLast?_cons_of_ne_nil h.toList_ne_nil] at hch

/-- A signed reference is not in the notation with a point. -/
theorem Signable.suffixed?_signed (h : Signable reference) (ascending direction : Bool) :
    suffixed? direction (sign ascending :: reference.toList) = none := by
  refine suffixed?_eq_none fun front hback => ?_
  cases front with
  | nil =>
    -- no sign is a point
    injection hback with hpoint
    cases ascending <;> cases hpoint
  | cons ch front =>
    injection hback with _ hreference
    exact h.noSuffix direction ⟨front, hreference.symm⟩

/-- **The notation with a sign.** A signed reference is read as the reference and the
direction of its sign. -/
theorem Signable.ofTrimmed?_signed (h : Signable reference) (ascending : Bool) :
    ofTrimmed? (sign ascending :: reference.toList) = some ⟨reference, ascending⟩ := by
  have hsuffixed : inNotation? suffixed? (sign ascending :: reference.toList) = none := by
    rw [inNotation?, h.suffixed?_signed ascending true, h.suffixed?_signed ascending false]
  have hself : signed? ascending (sign ascending :: reference.toList) = some reference.toList := by
    simp [signed?, Text.afterFront?, h.isReference]
  have hother : signed? (!ascending) (sign ascending :: reference.toList) = none := by
    cases ascending <;> simp [signed?, Text.afterFront?, sign]
  have hsigned := inNotation?_of_one hself hother
  rw [String.ofList_toList] at hsigned
  rw [ofTrimmed?, List.findSome?_cons, hsuffixed, List.findSome?_cons, hsigned]

end OrderSpec

/-- **What is written for an ordering** is read as its reference and its direction. -/
theorem OrderBy.parse_spec {C : Type} [ColumnRef C] {o : OrderBy C}
    (h : OrderSpec.Signable (ColumnRef.reference o.column)) :
    OrderSpec.parse o.spec = .ok ⟨ColumnRef.reference o.column, o.ascending⟩ := by
  rw [OrderSpec.parse, spec, String.toList_ofList, h.trimChars_signed, h.ofTrimmed?_signed]

end QueryFilter
