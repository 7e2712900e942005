/-
# Values from JSON and back

Every JSON value without an object in it is a value (`Value.ofJson?_eq_none_iff`). What is
written of a value is read back as what JSON keeps of it (`Value.ofJson?_toJson_reread`),
which is the value itself if JSON can hold it; and what is read is written as it was
(`Value.ofJson?_eq_some_iff`).

Key theorems: `Value.ofJson?_eq_none_iff`, `Value.ofJson?_toJson_reread`,
`Value.ofJson?_toJson`, `Value.ofJson?_eq_some_iff`.
-/
import QueryFilter.Proofs.Value.Reread

namespace QueryFilter
namespace Value

mutual

/-- Only an object keeps a JSON value from being a value. -/
theorem ofJson?_eq_none_iff : ∀ {j : Json}, ofJson? j = none ↔ j.hasObject = true
  | .null | .bool _ | .number _ | .string _ => by simp [ofJson?, Json.hasObject]
  | .object _ => by simp [ofJson?, Json.hasObject]
  | .array items => by
    rw [ofJson?, Option.map_eq_none_iff, Json.hasObject, ofItems?_eq_none_iff]

theorem ofItems?_eq_none_iff : ∀ {items : List Json},
    ofItems? items = none ↔ Json.anyHasObject items = true
  | [] => by simp [ofItems?, Json.anyHasObject]
  | item :: rest => by
    rw [Json.anyHasObject, Bool.or_eq_true, ← ofJson?_eq_none_iff, ← ofItems?_eq_none_iff, ofItems?]
    cases ofJson? item with
    | none => simp
    | some v => cases ofItems? rest <;> simp

end

/-- A double that is finite is a number of JSON. -/
theorem jsonOfFloat_of_isFinite {x : Binary64} (h : x.isFinite = true) :
    jsonOfFloat x = .number (.float x h) := by
  rw [jsonOfFloat, Json.Number.ofFloat?, dif_pos h]

mutual

/-- Every value is read back from its JSON, as what JSON keeps of it. -/
theorem ofJson?_toJson_reread : ∀ v : Value, ofJson? v.toJson = some v.reread
  | .null | .bool _ | .int _ | .string _ => rfl
  | .uint u => by
    rw [toJson, Json.Number.ofUInt64, reread, ofUInt64]
    by_cases hu : Nat.pow 2 63 ≤ u.toNat
    · rw [dif_pos hu, if_neg (by omega)]
      rfl
    · rw [dif_neg hu, if_pos (by omega)]
      rfl
  | .float x => by
    rw [reread]
    by_cases hx : x.isFinite = true
    · rw [toJson, jsonOfFloat_of_isFinite hx, if_pos hx]
      rfl
    · rw [toJson, jsonOfFloat, Json.Number.ofFloat?, dif_neg hx, if_neg hx]
      rfl
  | .array items => by
    rw [toJson, ofJson?, ofItems?_itemsToJson_reread items, Option.map_some, reread]

theorem ofItems?_itemsToJson_reread : ∀ vs : List Value,
    ofItems? (itemsToJson vs) = some (rereadItems vs)
  | [] => rfl
  | v :: rest => by
    rw [itemsToJson, ofItems?, ofJson?_toJson_reread v, ofItems?_itemsToJson_reread rest]
    rfl

end

/-- A value that JSON can hold comes back. -/
theorem ofJson?_toJson {v : Value} (h : v.Portable) : ofJson? v.toJson = some v := by
  rw [ofJson?_toJson_reread, reread_of_portable h]

mutual

/-- What is read is written as it was read, and JSON can hold it. -/
theorem toJson_of_ofJson? : ∀ {j : Json} {v : Value}, ofJson? j = some v →
    v.toJson = j ∧ v.Portable
  | .null, _, h | .bool _, _, h | .string _, _, h => by
    cases h
    exact ⟨rfl, trivial⟩
  | .number n, _, h => by
    cases h
    exact ⟨toJson_ofNumber n, (plain_ofNumber n).1⟩
  | .object _, _, h => by cases h
  | .array items, _, h => by
    rw [ofJson?] at h
    obtain ⟨vs, hvs, rfl⟩ := Option.map_eq_some_iff.mp h
    obtain ⟨hwritten, hall⟩ := itemsToJson_of_ofItems? hvs
    rw [toJson, hwritten, Portable]
    exact ⟨rfl, hall⟩

theorem itemsToJson_of_ofItems? : ∀ {items : List Json} {vs : List Value},
    ofItems? items = some vs → itemsToJson vs = items ∧ AllPortable vs
  | [], _, h => by
    cases h
    exact ⟨rfl, trivial⟩
  | item :: rest, _, h => by
    rw [ofItems?] at h
    obtain ⟨v, hv, h⟩ := Option.bind_eq_some_iff.mp h
    obtain ⟨vs, hvs, h⟩ := Option.bind_eq_some_iff.mp h
    cases h
    obtain ⟨hwritten, hplain⟩ := toJson_of_ofJson? hv
    obtain ⟨hrest, hall⟩ := itemsToJson_of_ofItems? hvs
    rw [itemsToJson, hwritten, hrest, AllPortable]
    exact ⟨rfl, hplain, hall⟩

end

/-- **What is read** is the one value that JSON can hold and that is written so. -/
theorem ofJson?_eq_some_iff {j : Json} {v : Value} :
    ofJson? j = some v ↔ v.toJson = j ∧ v.Portable := by
  constructor
  · exact toJson_of_ofJson?
  · rintro ⟨rfl, h⟩
    exact ofJson?_toJson h

end Value
end QueryFilter
