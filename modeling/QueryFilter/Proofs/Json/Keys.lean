/-
# JSON without repeated keys

In the JSON values that a program holds, no object has a key twice. Setting members one
after another keeps it so (`Json.uniqueKeys_ofMembers`), whatever keys they have.

Key definitions: `Json.UniqueKeys`.
Key theorems: `Json.uniqueKeys_setMember`, `Json.uniqueKeys_ofMembers`.
-/
import Mathlib.Data.List.Nodup
import QueryFilter.Json.Basic

namespace QueryFilter
namespace Json

mutual

/-- Whether no object in a value has a key twice. -/
def UniqueKeys : Json → Prop
  | .array items => AllUniqueKeys items
  | .object members => (members.map Prod.fst).Nodup ∧ MembersUniqueKeys members
  | _ => True

def AllUniqueKeys : List Json → Prop
  | [] => True
  | item :: rest => UniqueKeys item ∧ AllUniqueKeys rest

def MembersUniqueKeys : List (String × Json) → Prop
  | [] => True
  | (_, item) :: rest => UniqueKeys item ∧ MembersUniqueKeys rest

end

/-- Setting a member leaves no key twice. -/
theorem uniqueKeys_setMember : ∀ {ms : List (String × Json)} {key : String} {value : Json},
    (Json.object ms).UniqueKeys → value.UniqueKeys → (Json.object (setMember ms key value)).UniqueKeys
  | [], key, value, _, hv => ⟨List.nodup_singleton key, hv, trivial⟩
  | (k, v) :: rest, key, value, h, hv => by
    obtain ⟨hkeys, hk, hrest⟩ := h
    rw [List.map_cons, List.nodup_cons] at hkeys
    by_cases he : k = key
    · rw [setMember, if_pos he]
      exact ⟨List.nodup_cons.mpr hkeys, hv, hrest⟩
    · have ih : (Json.object (setMember rest key value)).UniqueKeys :=
        uniqueKeys_setMember ⟨hkeys.2, hrest⟩ hv
      obtain ⟨hkeys', hrest'⟩ := ih
      rw [setMember, if_neg he]
      refine ⟨List.nodup_cons.mpr ⟨fun hm => hkeys.1 ?_, hkeys'⟩, hk, hrest'⟩
      rw [keys_setMember] at hm
      split at hm
      · exact hm
      · exact (List.mem_append.mp hm).resolve_right fun hm => he (List.mem_singleton.mp hm)

/-- Members of which each has no key twice make an object that has none. -/
theorem uniqueKeys_ofMembers {ms : List (String × Json)} (h : MembersUniqueKeys ms) :
    (Json.object (ofMembers ms)).UniqueKeys := by
  have hfold : ∀ {ms done : List (String × Json)}, MembersUniqueKeys ms →
      (Json.object done).UniqueKeys →
      (Json.object (ms.foldl (fun done m => setMember done m.1 m.2) done)).UniqueKeys := by
    intro ms
    induction ms with
    | nil => exact fun _ hdone => hdone
    | cons m rest ih => exact fun h hdone => ih h.2 (uniqueKeys_setMember hdone h.1)
  exact hfold h ⟨List.nodup_nil, trivial⟩

end Json
end QueryFilter
