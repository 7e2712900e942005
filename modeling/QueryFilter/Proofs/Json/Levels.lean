/-
# JSON values as documents

A JSON value that is at hand is a document as well, in which nothing is missing
(`Json.toDocument`). Read as a value it is itself again, if it has no key twice and the reader
goes as deep as it nests (`Json.value?_toDocument`).

Key definitions: `Json.toDocument`, `Json.levels`.
Key theorems: `Json.value?_toDocument`, `Json.entries?_toDocument`.
-/
import QueryFilter.Json.Record
import QueryFilter.Proofs.Json.Keys

namespace QueryFilter
namespace Json

mutual

/-- The document of a value. -/
def toDocument : Json → Document
  | .null => .null
  | .bool b => .bool b
  | .number n => .number (some n)
  | .string s => .string (some s)
  | .array items => .array (itemsToDocument items)
  | .object members => .object (membersToDocument members)

def itemsToDocument : List Json → List Document
  | [] => []
  | item :: rest => toDocument item :: itemsToDocument rest

def membersToDocument : List (String × Json) → List (Option String × Document)
  | [] => []
  | (key, item) :: rest => (some key, toDocument item) :: membersToDocument rest

end

mutual

/-- How many arrays and objects of a value lie one in another. -/
def levels : Json → Nat
  | .array items => itemLevels items + 1
  | .object members => memberLevels members + 1
  | _ => 0

/-- The most levels of the items of an array. -/
def itemLevels : List Json → Nat
  | [] => 0
  | item :: rest => max (levels item) (itemLevels rest)

/-- The most levels of the members of an object. -/
def memberLevels : List (String × Json) → Nat
  | [] => 0
  | (_, item) :: rest => max (levels item) (memberLevels rest)

end

theorem levels_le_memberLevels {m : String × Json} : ∀ {members : List (String × Json)},
    m ∈ members → m.2.levels ≤ memberLevels members
  | first :: rest, h => by
    unfold memberLevels
    rcases List.mem_cons.mp h with rfl | h
    · exact Nat.le_max_left _ _
    · exact Nat.le_trans (levels_le_memberLevels h) (Nat.le_max_right _ _)

/-- A member lies below its object. -/
theorem levels_lt_object {m : String × Json} {members : List (String × Json)} (h : m ∈ members) :
    m.2.levels < (Json.object members).levels := by
  rw [levels]
  exact Nat.lt_succ_of_le (levels_le_memberLevels h)

mutual

/-- **Values at hand** are the values of their documents. -/
theorem value?_toDocument : ∀ {j : Json} {n : Nat}, j.UniqueKeys → j.levels ≤ n →
    j.toDocument.value? n = some j
  | .null, _, _, _ | .bool _, _, _, _ | .number _, _, _, _ | .string _, _, _, _ => rfl
  | .array items, n, hk, hn => by
    rw [levels] at hn
    have hitems : Document.itemValues? (n - 1) (itemsToDocument items) = some items :=
      itemValues?_toDocument hk (by omega)
    rw [toDocument, Document.value?, if_neg (by omega), hitems, Option.map_some]
  | .object members, n, hk, hn => by
    rw [levels] at hn
    have hmembers : Document.memberValues? (n - 1) (membersToDocument members) = some members :=
      memberValues?_toDocument hk.2 (by omega)
    rw [toDocument, Document.value?, if_neg (by omega), hmembers, Option.map_some,
      ofMembers_of_nodup members hk.1]

theorem itemValues?_toDocument : ∀ {items : List Json} {n : Nat}, AllUniqueKeys items →
    itemLevels items ≤ n → Document.itemValues? n (itemsToDocument items) = some items
  | [], _, _, _ => rfl
  | item :: rest, n, hk, hn => by
    rw [itemLevels, Nat.max_le] at hn
    rw [itemsToDocument, Document.itemValues?, value?_toDocument hk.1 hn.1,
      itemValues?_toDocument hk.2 hn.2]
    rfl

theorem memberValues?_toDocument : ∀ {members : List (String × Json)} {n : Nat},
    MembersUniqueKeys members → memberLevels members ≤ n →
    Document.memberValues? n (membersToDocument members) = some members
  | [], _, _, _ => rfl
  | (key, item) :: rest, n, hk, hn => by
    rw [memberLevels, Nat.max_le] at hn
    rw [membersToDocument, Document.memberValues?, value?_toDocument hk.1 hn.1,
      memberValues?_toDocument hk.2 hn.2]
    rfl

end

/-- A table is read back entry by entry. -/
theorem entries?_toDocument {α β : Type} (read : String → Document → Option β)
    (member : α → String × Json) (out : α → β) : ∀ {es : List α},
    (∀ e ∈ es, read (member e).1 (member e).2.toDocument = some (out e)) →
    (Json.object (es.map member)).toDocument.entries? read = some (es.map out)
  | [], _ => rfl
  | e :: rest, h => by
    obtain ⟨he, hrest⟩ := List.forall_mem_cons.mp h
    have ih := entries?_toDocument read member out hrest
    rw [toDocument, Document.entries?] at ih
    rw [List.map_cons, toDocument, membersToDocument, Document.entries?, List.mapM_cons, ih]
    simp only [Option.bind_some, he]
    rfl

end Json
end QueryFilter
