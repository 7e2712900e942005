/-
# The forms of an order spec

A reference and a direction are written in three forms: before a point and a word, behind
a sign, and in brackets behind a word. The first and the last are read as they were
written, whatever the reference is. A reference behind a sign is read as it was written
unless it ends like a spec with a point: then the sign in front of a spec with a point is
the same text as a point behind a signed reference (`OrderSpec.Form.sign_point`), and it
is taken for the latter.

Key definitions: `OrderSpec.Form`, `OrderSpec.Form.write`, `OrderSpec.Tight`.
Key theorems: `OrderSpec.ofTrimmed?_point`, `OrderSpec.ofTrimmed?_call`, `OrderSpec.parse_write`.
-/
import Mathlib.Data.List.Basic
import QueryFilter.Proofs.Modifiers.OrderSpec

namespace QueryFilter
namespace OrderSpec

/-- The forms in which a reference and a direction are written. -/
inductive Form where
  | point
  | sign
  | call
  deriving DecidableEq, Repr

/-- What is written for a direction and a reference. -/
def Form.write (ascending : Bool) (reference : String) : Form → String
  | .point => reference ++ String.ofList ('.' :: word ascending)
  | .sign => String.ofList [OrderSpec.sign ascending] ++ reference
  | .call => String.ofList (word ascending ++ ['(']) ++ reference ++ ")"

/-- What may be a reference in a spec: a text on one line without blanks at its ends. -/
structure Tight (reference : String) : Prop where
  nonempty : reference ≠ ""
  oneLine : '\n' ∉ reference.toList
  noBlankStart : ∀ ch ∈ reference.toList.head?, Text.isBlank ch = false
  noBlankEnd : ∀ ch ∈ reference.toList.getLast?, Text.isBlank ch = false

variable {reference before : String}

theorem Tight.toList_ne_nil (h : Tight reference) : reference.toList ≠ [] := fun hnil =>
  h.nonempty (String.toList_inj.mp hnil)

theorem Tight.isReference (h : Tight reference) : isReference reference.toList = true := by
  simp [OrderSpec.isReference, h.toList_ne_nil, h.oneLine]

/-! ### The three forms one by one -/

/-- A sign before a spec with a point is a point behind a signed reference. -/
theorem Form.sign_point (ascending direction : Bool) (before : String) :
    Form.sign.write ascending (Form.point.write direction before) =
      Form.point.write direction (Form.sign.write ascending before) := by
  simp only [Form.write, String.append_assoc]

/-- A sign is shorter than a point and a word. -/
theorem Form.sign_ne_point (ascending direction : Bool) (before : String) :
    Form.sign.write ascending before ≠ Form.point.write direction before := by
  intro hsame
  have hlength := congrArg (fun text => text.toList.length) hsame
  cases direction <;> simp [Form.write, word] at hlength

theorem Tight.isReference_signed {direction : Bool}
    (h : Tight (Form.point.write direction before)) (ascending : Bool) :
    OrderSpec.isReference (Form.sign.write ascending before).toList = true := by
  have hbefore : '\n' ∉ before.toList := fun hmem => h.oneLine (by simp [Form.write, hmem])
  have hsign : '\n' ≠ OrderSpec.sign ascending := by cases ascending <;> decide
  simp [OrderSpec.isReference, Form.write, hbefore, hsign]

/-- No text ends with both words. -/
theorem suffixed?_other (ascending : Bool) (cs : List Char) :
    suffixed? (!ascending) (cs ++ '.' :: word ascending) = none := by
  refine suffixed?_eq_none fun front hback => ?_
  have hreverse := congrArg List.reverse hback
  cases ascending <;> simp [word] at hreverse

theorem suffixed?_self {cs : List Char} (h : isReference cs = true) (ascending : Bool) :
    suffixed? ascending (cs ++ '.' :: word ascending) = some cs := by
  rw [suffixed?, Text.beforeBack?_eq_some.mpr rfl, Option.filter_some, if_pos h]

/-- **The form with a point.** It is tried first. -/
theorem ofTrimmed?_point (h : isReference reference.toList = true) (ascending : Bool) :
    ofTrimmed? (Form.point.write ascending reference).toList = some ⟨reference, ascending⟩ := by
  have hlist : (Form.point.write ascending reference).toList =
      reference.toList ++ '.' :: word ascending := by simp [Form.write]
  have hpoint := inNotation?_of_one (suffixed?_self h ascending)
    (suffixed?_other ascending reference.toList)
  rw [hlist, ofTrimmed?, List.findSome?_cons, hpoint, String.ofList_toList]

/-- **The form with brackets.** It ends with no word and begins with no sign. -/
theorem ofTrimmed?_call (h : isReference reference.toList = true) (ascending : Bool) :
    ofTrimmed? (Form.call.write ascending reference).toList = some ⟨reference, ascending⟩ := by
  have hlist : (Form.call.write ascending reference).toList =
      word ascending ++ ['('] ++ (reference.toList ++ [')']) := by simp [Form.write]
  rw [hlist]
  have hsuffixed : inNotation? suffixed? (word ascending ++ ['('] ++ (reference.toList ++ [')'])) =
      none := by
    have hnone : ∀ direction,
        suffixed? direction (word ascending ++ ['('] ++ (reference.toList ++ [')'])) = none := by
      refine fun direction => suffixed?_eq_none fun front hback => ?_
      have hreverse := congrArg List.reverse hback
      cases direction <;> simp [word] at hreverse
    rw [inNotation?, hnone, hnone]
  have hsigned : inNotation? signed? (word ascending ++ ['('] ++ (reference.toList ++ [')'])) =
      none := by
    cases ascending <;> rfl
  have hcalled : called? ascending (word ascending ++ ['('] ++ (reference.toList ++ [')'])) =
      some reference.toList := by
    rw [called?, Text.afterFront?_eq_some.mpr rfl, Option.bind_some,
      Text.beforeBack?_eq_some.mpr rfl, Option.filter_some, if_pos h]
  have hother : called? (!ascending) (word ascending ++ ['('] ++ (reference.toList ++ [')'])) =
      none := by
    cases ascending <;> rfl
  rw [ofTrimmed?, List.findSome?_cons, hsuffixed, List.findSome?_cons, hsigned,
    List.findSome?_cons, inNotation?_of_one hcalled hother, String.ofList_toList]

theorem Tight.ofTrimmed?_sign (h : Tight reference)
    (hno : ∀ direction before, reference ≠ Form.point.write direction before) (ascending : Bool) :
    ofTrimmed? (Form.sign.write ascending reference).toList = some ⟨reference, ascending⟩ := by
  have hsignable : Signable reference := by
    refine ⟨h.nonempty, h.oneLine, h.noBlankEnd, fun direction ⟨before, hbefore⟩ => ?_⟩
    refine hno direction (String.ofList before) (String.toList_inj.mp ?_)
    simp [Form.write, hbefore]
  have hlist : (Form.sign.write ascending reference).toList =
      OrderSpec.sign ascending :: reference.toList := by simp [Form.write]
  rw [hlist, hsignable.ofTrimmed?_signed]

/-! ### With blanks around them -/

/-- What is written for a reference has no blanks at its ends. -/
theorem Tight.ends_write (h : Tight reference) (ascending : Bool) (form : Form) :
    (∀ ch ∈ (form.write ascending reference).toList.head?, Text.isBlank ch = false) ∧
      ∀ ch ∈ (form.write ascending reference).toList.getLast?, Text.isBlank ch = false := by
  have hne := h.toList_ne_nil
  cases form with
  | point =>
    rw [Form.write, String.toList_append, String.toList_ofList, List.head?_append_of_ne_nil _ hne,
      List.getLast?_append_of_ne_nil _ (List.cons_ne_nil _ _)]
    exact ⟨h.noBlankStart, by cases ascending <;> rintro ch ⟨⟩ <;> rfl⟩
  | sign =>
    rw [Form.write, String.toList_append, String.toList_ofList,
      List.head?_append_of_ne_nil _ (List.cons_ne_nil _ _), List.getLast?_append_of_ne_nil _ hne]
    exact ⟨by rintro ch ⟨⟩; exact isBlank_sign ascending, h.noBlankEnd⟩
  | call =>
    have hopen : word ascending ++ ['('] ≠ [] := by simp
    rw [Form.write, String.toList_append, String.toList_append, String.toList_ofList,
      List.getLast?_append_of_ne_nil _ (by decide), List.append_assoc,
      List.head?_append_of_ne_nil _ hopen]
    exact ⟨by cases ascending <;> rintro ch ⟨⟩ <;> rfl, by rintro ch ⟨⟩; rfl⟩

theorem Tight.parse_surrounded (h : Tight reference) {front back : String}
    (hfront : ∀ ch ∈ front.toList, Text.isBlank ch = true)
    (hback : ∀ ch ∈ back.toList, Text.isBlank ch = true) {ascending : Bool} {form : Form}
    {spec : OrderSpec} (hspec : ofTrimmed? (form.write ascending reference).toList = some spec) :
    parse (front ++ form.write ascending reference ++ back) = .ok spec := by
  obtain ⟨hhead, hlast⟩ := h.ends_write ascending form
  have hne : (form.write ascending reference).toList ≠ [] := fun hnil => by
    rw [hnil] at hspec
    cases hspec
  rw [parse, String.toList_append, String.toList_append,
    Text.trimChars_surrounded hfront hback hne hhead hlast, hspec]

/-- **What the forms are read as.** With any blanks around it, a reference on one line without
blanks at its ends is read as it was written before a point or in brackets. Behind a sign it
is read so exactly if it is not itself written with a point and a word; where it is, these
give the direction, and the sign becomes part of the reference. -/
theorem parse_write {reference front back : String} (h : Tight reference)
    (hfront : ∀ ch ∈ front.toList, Text.isBlank ch = true)
    (hback : ∀ ch ∈ back.toList, Text.isBlank ch = true) (ascending : Bool) :
    (∀ form : Form, form ≠ .sign →
      parse (front ++ form.write ascending reference ++ back) = .ok ⟨reference, ascending⟩) ∧
    (parse (front ++ Form.sign.write ascending reference ++ back) = .ok ⟨reference, ascending⟩ ↔
      ∀ direction before, reference ≠ Form.point.write direction before) ∧
    ∀ direction before, reference = Form.point.write direction before →
      parse (front ++ Form.sign.write ascending reference ++ back) =
        .ok ⟨Form.sign.write ascending before, direction⟩ := by
  have hsign : ∀ direction before, reference = Form.point.write direction before →
      parse (front ++ Form.sign.write ascending reference ++ back) =
        .ok ⟨Form.sign.write ascending before, direction⟩ := by
    rintro direction before rfl
    refine h.parse_surrounded hfront hback ?_
    rw [Form.sign_point]
    exact ofTrimmed?_point (h.isReference_signed ascending) direction
  refine ⟨fun form hform => h.parse_surrounded hfront hback ?_, ⟨fun hread => ?_, fun hno => ?_⟩, hsign⟩
  · cases form with
    | point => exact ofTrimmed?_point h.isReference ascending
    | sign => exact absurd rfl hform
    | call => exact ofTrimmed?_call h.isReference ascending
  · rintro direction before rfl
    rw [hsign direction before rfl] at hread
    injection hread with hread
    injection hread with hsame _
    exact Form.sign_ne_point ascending direction before hsame
  · exact h.parse_surrounded hfront hback (h.ofTrimmed?_sign hno ascending)

/-- A point is kept, and the word behind it too where it is not the end. -/
theorem parse_write_point_inside :
    Tight "tt.desc text" ∧
      parse "\t tt.desc text.asc\n" = .ok ⟨"tt.desc text", true⟩ ∧
      parse "\t +tt.desc text\n" = .ok ⟨"tt.desc text", true⟩ ∧
      parse "\t asc(tt.desc text)\n" = .ok ⟨"tt.desc text", true⟩ := by
  have htight : Tight "tt.desc text" :=
    ⟨by decide, by decide, by rintro ch ⟨⟩; rfl, by rintro ch ⟨⟩; rfl⟩
  have hfront : ∀ ch ∈ "\t ".toList, Text.isBlank ch = true := List.all_eq_true.mp (by decide)
  have hback : ∀ ch ∈ "\n".toList, Text.isBlank ch = true := List.all_eq_true.mp (by decide)
  obtain ⟨hform, hsign, -⟩ := parse_write htight hfront hback true
  have hno : ∀ direction before, "tt.desc text" ≠ Form.point.write direction before := by
    intro direction before hsame
    have hlast := congrArg (fun text => text.toList.getLast?) hsame
    cases direction <;> simp [Form.write, word] at hlast
  exact ⟨htight, hform .point (by decide), hsign.mpr hno, hform .call (by decide)⟩

/-- An ordering by a column that is called `desc` in its table is written as a spec that is
read as one by another column. -/
theorem parse_sign_not_always :
    ∃ o : OrderBy Column, Tight (ColumnRef.reference o.column) ∧
      o.spec = Form.sign.write o.ascending (ColumnRef.reference o.column) ∧
      o.spec = "-tt.desc" ∧ parse o.spec = .ok ⟨"-tt", false⟩ ∧
      parse o.spec ≠ .ok ⟨ColumnRef.reference o.column, o.ascending⟩ := by
  refine ⟨⟨⟨"tt", "desc", none, true⟩, false⟩, ?_, by decide, by decide, by rfl, ?_⟩
  · exact ⟨by decide, by decide, by rintro ch ⟨⟩; rfl, by rintro ch ⟨⟩; rfl⟩
  · intro hread
    injection hread with hread
    exact absurd hread (by decide)

end OrderSpec
end QueryFilter
