/-
# Values without tags

Next to `Value.ofJson?` and `Value.toJson`, which go by what is there, stand the reader and
the writer of a type of seven kinds whose kinds carry no tag. The reader tries the kinds in
their order and takes the first that accepts (`Value.firstKind?`). The writer hands on what
is under the kind and says nothing of the kind itself (`Value.datum`); the JSON of that is
chosen by what was handed on (`Datum.toJson`).

The order of the kinds decides which kind a number gets: each integer is accepted by a kind
of integers before the doubles are tried, the integers with a sign come first, and so both
readers see the same value (`Value.firstKind?_eq_ofJson?`).

Key definitions: `Datum`, `Datum.toJson`, `Value.datum`.
Key theorems: `Value.firstKind?_eq_ofJson?`, `Value.toJson_datum`, `Value.codecs_agree`.
-/
import QueryFilter.Proofs.Value.Codec
import QueryFilter.Proofs.Value.Equality

namespace QueryFilter

/-- What a writer of any format is given: a scalar of a kind that formats have, or a sequence. -/
inductive Datum where
  | unit
  | bool (value : Bool)
  | signed (value : Int64)
  | unsigned (value : UInt64)
  | double (value : Binary64)
  | text (value : String)
  | sequence (items : List Datum)

namespace Datum

mutual

/-- The JSON of a datum. An integer has the kind of its size, whichever way it was given, and
a double without a number is nothing. -/
def toJson : Datum → Json
  | .unit => .null
  | .bool b => .bool b
  | .signed i => .number (.int i)
  | .unsigned u => .number (Json.Number.ofUInt64 u)
  | .double x => if h : x.isFinite = true then .number (.float x h) else .null
  | .text s => .string s
  | .sequence items => .array (itemsToJson items)

def itemsToJson : List Datum → List Json
  | [] => []
  | item :: rest => toJson item :: itemsToJson rest

end

end Datum

namespace Value

mutual

/-- What a value hands to a writer. -/
def datum : Value → Datum
  | .null => .unit
  | .bool b => .bool b
  | .int i => .signed i
  | .uint u => .unsigned u
  | .float x => .double x
  | .string s => .text s
  | .array items => .sequence (itemData items)

def itemData : List Value → List Datum
  | [] => []
  | item :: rest => datum item :: itemData rest

end

mutual

/-- Both writers write the same. -/
theorem toJson_datum : ∀ v : Value, v.datum.toJson = v.toJson
  | .null | .bool _ | .int _ | .uint _ | .string _ => rfl
  | .float x => by
    rw [datum, Datum.toJson, toJson]
    by_cases hx : x.isFinite = true
    · rw [dif_pos hx, jsonOfFloat_of_isFinite hx]
    · rw [dif_neg hx, jsonOfFloat, Json.Number.ofFloat?, dif_neg hx]
  | .array items => by
    rw [datum, Datum.toJson, toJson, itemsToJson_itemData items]

theorem itemsToJson_itemData : ∀ vs : List Value,
    Datum.itemsToJson (itemData vs) = itemsToJson vs
  | [] => rfl
  | v :: rest => by
    rw [itemData, Datum.itemsToJson, itemsToJson, toJson_datum v, itemsToJson_itemData rest]

end

/-! ### The first kind that accepts -/

/-- An array is of no kind without items. -/
theorem firstPlainKind?_array (items : List Json) : firstPlainKind? (.array items) = none := rfl

theorem firstPlainKind?_number (n : Json.Number) :
    firstPlainKind? (.number n) = some (ofNumber n) := by
  cases n <;> rfl

mutual

/-- **Both readers** read the same, or neither reads anything. -/
theorem firstKind?_eq_ofJson? : ∀ j : Json, firstKind? j = ofJson? j
  | .null | .bool _ | .string _ | .object _ => rfl
  | .number n => firstPlainKind?_number n
  | .array items => by
    rw [firstKind?, firstPlainKind?_array, Option.orElse_none, firstKinds?_eq_ofItems? items, ofJson?]

theorem firstKinds?_eq_ofItems? : ∀ items : List Json, firstKinds? items = ofItems? items
  | [] => rfl
  | item :: rest => by
    rw [firstKinds?, ofItems?, firstKind?_eq_ofJson? item, firstKinds?_eq_ofItems? rest]

end

/-! ### Back to the value -/

mutual

/-- A value that equals what it is read back as can be held by JSON: what cannot be held comes
back as a value of another kind. -/
theorem portable_of_same_reread : ∀ {v : Value}, same v.reread v = true → v.Portable
  | .null, _ | .bool _, _ | .int _, _ | .string _, _ => trivial
  | .uint u, h => by
    rw [Portable]
    by_cases hu : Nat.pow 2 63 ≤ u.toNat
    · exact hu
    · rw [reread, ofUInt64, if_pos (by omega)] at h
      cases h
  | .float x, h => by
    rw [Portable]
    by_cases hx : x.isFinite = true
    · exact hx
    · rw [reread, if_neg hx] at h
      cases h
  | .array items, h => by
    rw [reread, same] at h
    rw [Portable]
    exact allPortable_of_sameItems_reread h

theorem allPortable_of_sameItems_reread : ∀ {vs : List Value},
    sameItems (rereadItems vs) vs = true → AllPortable vs
  | [], _ => trivial
  | v :: rest, h => by
    rw [rereadItems, sameItems, Bool.and_eq_true] at h
    rw [AllPortable]
    exact ⟨portable_of_same_reread h.1, allPortable_of_sameItems_reread h.2⟩

end

/-- **The codecs agree and lose nothing.** A JSON value is read by both readers alike, and
read by neither just if it is or has an object; what is read is written as it was, and JSON
can hold it: its doubles are finite and its unsigned integers too large for a sign. Both
writers write the same of every value, and a value comes back from that just if JSON can hold
it, whether it is asked for the value itself or for one that equals it. -/
theorem codecs_agree :
    (∀ j : Json, (ofJson? j = none ↔ j.hasObject = true) ∧ firstKind? j = ofJson? j ∧
      ∀ v, ofJson? j = some v ↔ v.toJson = j ∧ v.Portable) ∧
    ∀ v : Value, v.datum.toJson = v.toJson ∧ (ofJson? v.datum.toJson = some v ↔ v.Portable) ∧
      ((∃ w, ofJson? v.datum.toJson = some w ∧ same w v = true) ↔ v.Portable) := by
  refine ⟨fun j => ⟨ofJson?_eq_none_iff, firstKind?_eq_ofJson? j, fun v => ofJson?_eq_some_iff⟩,
    fun v => ?_⟩
  have hback : ofJson? v.datum.toJson = some v ↔ v.Portable := by
    rw [toJson_datum, ofJson?_eq_some_iff, eq_self_iff_true, true_and]
  refine ⟨toJson_datum v, hback, ?_⟩
  constructor
  · rintro ⟨w, hw, hsame⟩
    rw [toJson_datum, ofJson?_toJson_reread, Option.some.injEq] at hw
    rw [← hw] at hsame
    exact portable_of_same_reread hsame
  · intro h
    exact ⟨v, hback.mpr h, same_self_of_portable h⟩

end Value
end QueryFilter
