/-
# What JSON keeps of values

Not every value can be held by JSON as it is: a double without a number is written as
nothing, and a small unsigned integer is read as one with a sign. `Value.reread` is the
value that a value is read back as, and it is the value itself if JSON can hold it
(`Value.reread_of_portable`). A value that is no list is read back as a leaf
(`InputNode.ofJson_reread`), and a list without lists item by item
(`InputNode.filterMap_ofItems`).

Key definitions: `Value.Plain`, `Value.reread`, `Operator.reread`.
Key theorems: `Value.plain_ofNumber`, `Value.reread_of_portable`, `InputNode.ofJson_reread`,
`InputNode.all_isLeaf_ofItems_iff`, `InputNode.filterMap_ofItems`.
-/
import QueryFilter.Input
import QueryFilter.Operator

namespace QueryFilter

/-! ### Values read back -/

namespace Value

theorem allPortable_iff : ∀ {vs : List Value}, AllPortable vs ↔ ∀ v ∈ vs, Portable v
  | [] => by simp [AllPortable]
  | v :: rest => by rw [AllPortable, allPortable_iff, List.forall_mem_cons]

theorem itemsToJson_eq_map : ∀ vs : List Value, itemsToJson vs = vs.map toJson
  | [] => rfl
  | v :: rest => by rw [itemsToJson, itemsToJson_eq_map rest, List.map_cons]

/-- Whether JSON has a place of its own for a value: it is one that JSON can hold, and no
list. -/
def Plain (v : Value) : Prop := v.Portable ∧ v.isArray = false

theorem plain_ofNumber (n : Json.Number) : (ofNumber n).Plain := by
  cases n with
  | int i => exact ⟨trivial, rfl⟩
  | uint u large => exact ⟨large, rfl⟩
  | float x finite => exact ⟨finite, rfl⟩

theorem toJson_ofNumber (n : Json.Number) : (ofNumber n).toJson = .number n := by
  cases n with
  | int i => rfl
  | uint u large => rw [ofNumber, toJson, Json.Number.ofUInt64, dif_pos large]
  | float x finite => rw [ofNumber, toJson, jsonOfFloat, Json.Number.ofFloat?, dif_pos finite]

theorem exists_of_isArray {v : Value} (h : v.isArray = true) : ∃ vs, v = .array vs := by
  cases v with
  | array vs => exact ⟨vs, rfl⟩
  | _ => cases h

mutual

/-- The value that a value is read back as. -/
def reread : Value → Value
  | .uint u => ofUInt64 u
  | .float x => if x.isFinite then .float x else .null
  | .array items => .array (rereadItems items)
  | v => v

def rereadItems : List Value → List Value
  | [] => []
  | item :: rest => reread item :: rereadItems rest

end

theorem isArray_reread (v : Value) : v.reread.isArray = v.isArray := by
  cases v with
  | uint u =>
    rw [reread, ofUInt64]
    split <;> rfl
  | float x =>
    rw [reread]
    split <;> rfl
  | _ => rfl

mutual

/-- A value that JSON can hold is read back as it is. -/
theorem reread_of_portable : ∀ {v : Value}, v.Portable → v.reread = v
  | .null, _ | .bool _, _ | .int _, _ | .string _, _ => rfl
  | .uint u, h => by
    rw [Portable] at h
    rw [reread, ofUInt64, if_neg (by omega)]
  | .float x, h => by
    rw [Portable] at h
    rw [reread, if_pos h]
  | .array items, h => by
    rw [Portable] at h
    rw [reread, rereadItems_of_portable h]

theorem rereadItems_of_portable : ∀ {vs : List Value}, AllPortable vs → rereadItems vs = vs
  | [], _ => rfl
  | v :: rest, h => by
    rw [AllPortable] at h
    rw [rereadItems, reread_of_portable h.1, rereadItems_of_portable h.2]

end

end Value

theorem Operator.eq_of {a b : Operator} (hkind : a.kind = b.kind) (hvalue : a.value = b.value) :
    a = b := by
  cases a
  cases b
  cases hkind
  cases hvalue
  rfl

/-- The operator that an operator is read back as. -/
def Operator.reread (op : Operator) : Operator :=
  ⟨op.kind, op.value.reread, fun h => by rw [Value.isArray_reread]; exact op.sequence h⟩

/-! ### Values as nodes -/

namespace InputNode

theorem ofMembers_eq_map : ∀ ms : List (String × Json),
    ofMembers ms = ms.map fun m => ofJson m.1 m.2
  | [] => rfl
  | (key, j) :: rest => by rw [ofMembers, ofMembers_eq_map rest, List.map_cons]

theorem key_ofJson (key : String) (j : Json) : (ofJson key j).key = key := by cases j <;> rfl

/-- A value that is no list is read back as a leaf. -/
theorem ofJson_reread {v : Value} (ha : v.isArray = false) (key : String) :
    ofJson key v.toJson = .leaf key v.reread := by
  cases v with
  | null | bool b | int i | string s => rfl
  | uint u =>
    rw [Value.toJson, ofJson, Json.Number.ofUInt64, Value.reread, Value.ofUInt64]
    by_cases hu : Nat.pow 2 63 ≤ u.toNat
    · rw [dif_pos hu, if_neg (by omega)]
      rfl
    · rw [dif_neg hu, if_pos (by omega)]
      rfl
  | float x =>
    rw [Value.toJson, Value.jsonOfFloat, Json.Number.ofFloat?, Value.reread]
    by_cases hx : x.isFinite = true
    · rw [dif_pos hx, if_pos hx]
      rfl
    · rw [dif_neg hx, if_neg hx]
      rfl
  | array items => cases ha

theorem ofJson_array (key : String) (items : List Value) :
    ofJson key (Value.array items).toJson = .list key (ofItems 0 (items.map Value.toJson)) := by
  rw [Value.toJson, Value.itemsToJson_eq_map, ofJson]

/-- The items of a list are read back as leaves if none of them is a list. -/
theorem all_isLeaf_ofItems_iff : ∀ {vs : List Value} {index : Nat},
    (ofItems index (vs.map Value.toJson)).all isLeaf = true ↔ ∀ v ∈ vs, v.isArray = false
  | [], _ => by simp [ofItems]
  | v :: rest, index => by
    have hleaf : (ofJson (indexKey index) v.toJson).isLeaf = true ↔ v.isArray = false := by
      cases ha : v.isArray with
      | false =>
        rw [ofJson_reread ha]
        simp [isLeaf]
      | true =>
        cases v with
        | array items =>
          rw [ofJson_array]
          simp [isLeaf]
        | _ => cases ha
    rw [List.map_cons, ofItems, List.all_cons, Bool.and_eq_true, List.forall_mem_cons, hleaf,
      all_isLeaf_ofItems_iff]

/-- The items of a list without lists are read back one by one. -/
theorem filterMap_ofItems : ∀ {vs : List Value} {index : Nat}, (∀ v ∈ vs, v.isArray = false) →
    (ofItems index (vs.map Value.toJson)).filterMap value? = Value.rereadItems vs
  | [], _, _ => rfl
  | v :: rest, index, h => by
    obtain ⟨hv, hrest⟩ := List.forall_mem_cons.mp h
    rw [List.map_cons, ofItems, ofJson_reread hv, List.filterMap_cons, filterMap_ofItems hrest,
      Value.rereadItems]
    rfl

/-- A value whose node is neither a leaf nor a list of leaves is a list with an item. -/
theorem exists_item {key : String} {v : Value} (hv : (ofJson key v.toJson).value? = none)
    (hl : (ofJson key v.toJson).isSimpleList = false) : ∃ item rest, v = .array (item :: rest) := by
  cases ha : v.isArray with
  | false =>
    rw [ofJson_reread ha] at hv
    cases hv
  | true =>
    match v, ha with
    | .array [], _ => cases hl
    | .array (item :: rest), _ => exact ⟨item, rest, rfl⟩

end InputNode
end QueryFilter
