/-
# JSON values

A JSON value whose numbers are classified once and for all: an integer that
fits 64 bits with a sign, a larger one that fits 64 bits without, or a finite
double. An object is the list of its members in order of first appearance;
`Json.setMember` keeps that order and lets the last value of a repeated key
win.

Key definitions: `Json`, `Json.Number`, `Json.Number.ofUInt64`,
`Json.Number.ofFloat?`, `Json.setMember`, `Json.ofMembers`, `Json.hasObject`.
Key theorems: `Json.keys_setMember`, `Json.ofMembers_of_nodup`.
-/
import QueryFilter.Decimal.Notation

namespace QueryFilter
namespace Json

/-- A number as JSON holds it: the smallest of three kinds that has it. -/
inductive Number where
  | int (value : Int64)
  /-- An integer too large for `int`. -/
  | uint (value : UInt64) (large : Nat.pow 2 63 ≤ value.toNat)
  | float (value : Binary64) (finite : value.isFinite = true)
  deriving DecidableEq

namespace Number

/-- The number of an unsigned integer. -/
def ofUInt64 (u : UInt64) : Number :=
  if h : Nat.pow 2 63 ≤ u.toNat then .uint u h else .int (Int64.ofNat u.toNat)

/-- The number of a double, if it is finite. -/
def ofFloat? (x : Binary64) : Option Number :=
  if h : x.isFinite = true then some (.float x h) else none

end Number
end Json

/-- A JSON value. -/
inductive Json where
  | null
  | bool (value : Bool)
  | number (value : Json.Number)
  | string (value : String)
  | array (items : List Json)
  | object (members : List (String × Json))
  deriving Inhabited

namespace Json

/-- The value under a key. -/
def member? (key : String) : List (String × Json) → Option Json
  | [] => none
  | (k, v) :: rest => if k = key then some v else member? key rest

/-- The members with `key` set to `value`: in its place if the key is there,
and at the end if it is not. -/
def setMember : List (String × Json) → String → Json → List (String × Json)
  | [], key, value => [(key, value)]
  | (k, v) :: rest, key, value =>
    if k = key then (k, value) :: rest else (k, v) :: setMember rest key value

/-- The members of a list in which keys may repeat: a key keeps its first
place and takes its last value. -/
def ofMembers (members : List (String × Json)) : List (String × Json) :=
  members.foldl (fun done m => setMember done m.1 m.2) []

mutual

/-- Whether the value is an object or an array that has one inside. -/
def hasObject : Json → Bool
  | .object _ => true
  | .array items => anyHasObject items
  | _ => false

/-- Whether one of the values is or has an object. -/
def anyHasObject : List Json → Bool
  | [] => false
  | item :: rest => hasObject item || anyHasObject rest

end

/-- Setting a member adds its key at the end, unless it is there. -/
theorem keys_setMember : ∀ (ms : List (String × Json)) (key : String) (value : Json),
    (setMember ms key value).map Prod.fst =
      if key ∈ ms.map Prod.fst then ms.map Prod.fst else ms.map Prod.fst ++ [key]
  | [], key, value => by simp [setMember]
  | (k, v) :: rest, key, value => by
    by_cases h : k = key
    · simp [setMember, h]
    · have ih := keys_setMember rest key value
      simp only [setMember, h, ↓reduceIte, List.map_cons, ih, List.mem_cons, Ne.symm h, false_or]
      split <;> simp

theorem setMember_of_notMem : ∀ (ms : List (String × Json)) (key : String) (value : Json),
    key ∉ ms.map Prod.fst → setMember ms key value = ms ++ [(key, value)]
  | [], _, _, _ => rfl
  | (k, v) :: rest, key, value, h => by
    simp only [List.map_cons, List.mem_cons, not_or] at h
    simp [setMember, Ne.symm h.1, setMember_of_notMem rest key value h.2]

theorem foldl_setMember_of_nodup : ∀ (ms done : List (String × Json)),
    ((done ++ ms).map Prod.fst).Nodup →
    ms.foldl (fun done m => setMember done m.1 m.2) done = done ++ ms
  | [], done, _ => by simp
  | (k, v) :: rest, done, h => by
    have hk : k ∉ done.map Prod.fst := by
      simp only [List.map_append, List.map_cons, List.nodup_append, List.mem_cons, ne_eq] at h
      exact fun hm => h.2.2 k hm k (Or.inl rfl) rfl
    rw [List.foldl_cons, setMember_of_notMem done k v hk,
      foldl_setMember_of_nodup rest (done ++ [(k, v)]) (by simpa using h)]
    simp

/-- Members without a repeated key stay as they are. -/
theorem ofMembers_of_nodup (ms : List (String × Json)) (h : (ms.map Prod.fst).Nodup) :
    ofMembers ms = ms := by
  simpa [ofMembers] using foldl_setMember_of_nodup ms [] (by simpa using h)

end Json
end QueryFilter
