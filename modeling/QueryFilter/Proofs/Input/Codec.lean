/-
# Filters to JSON and back

A JSON object is read as a filter that is written as the same object
(`InputNode.toJson_ofJson`). The other way, JSON says less than nodes do: it has no
place for a key that stands twice in a map, a leaf that holds a list is read back as a
list node, a double without a number is written as nothing, and a small unsigned
integer is read back as one with a sign.

A node with none of these is exact (`InputNode.Exact`), and it comes back as it is
(`InputNode.ofJson_toJson`) if the nodes in its lists are keyed by their places. What
is written never has a key twice (`InputNode.uniqueKeys_toJson`), what is read from
such JSON is exact (`InputNode.exact_ofJson`), and so is what equals it
(`InputNode.Exact.of_same`). So no other filter comes back, not even as an equal one
(`FilterInput.exact_codec`).

Key definitions: `InputNode.Built`, `InputNode.Indexed`, `InputNode.Exact`.
Key theorems: `InputNode.uniqueKeys_toJson`, `InputNode.toJson_ofJson`,
`InputNode.exact_ofJson`, `InputNode.Exact.of_same`, `InputNode.ofJson_toJson`,
`FilterInput.exact_codec`.
-/
import QueryFilter.Proofs.Json.Keys
import QueryFilter.Proofs.Value.Equality

namespace QueryFilter

/-! ### What is written -/

theorem Value.uniqueKeys_jsonOfFloat (x : Binary64) : (jsonOfFloat x).UniqueKeys := by
  rw [jsonOfFloat]
  cases Json.Number.ofFloat? x <;> trivial

mutual

theorem Value.uniqueKeys_toJson : ∀ v : Value, v.toJson.UniqueKeys
  | .null | .bool _ | .int _ | .uint _ | .string _ => trivial
  | .float x => uniqueKeys_jsonOfFloat x
  | .array items => Value.allUniqueKeys_itemsToJson items

theorem Value.allUniqueKeys_itemsToJson : ∀ vs : List Value, Json.AllUniqueKeys (itemsToJson vs)
  | [] => trivial
  | v :: rest => ⟨Value.uniqueKeys_toJson v, Value.allUniqueKeys_itemsToJson rest⟩

end

namespace InputNode

mutual

/-- **What is written** for a node has no key twice. -/
theorem uniqueKeys_toJson : ∀ node : InputNode, node.toJson.UniqueKeys
  | .leaf _ value => Value.uniqueKeys_toJson value
  | .list _ children => allUniqueKeys_itemsToJson children
  | .map _ children => Json.uniqueKeys_ofMembers (membersUniqueKeys_membersToJson children)

theorem allUniqueKeys_itemsToJson : ∀ nodes : List InputNode, Json.AllUniqueKeys (itemsToJson nodes)
  | [] => trivial
  | node :: rest => ⟨uniqueKeys_toJson node, allUniqueKeys_itemsToJson rest⟩

theorem membersUniqueKeys_membersToJson : ∀ nodes : List InputNode,
    Json.MembersUniqueKeys (membersToJson nodes)
  | [] => trivial
  | node :: rest => ⟨uniqueKeys_toJson node, membersUniqueKeys_membersToJson rest⟩

end

/-! ### From JSON and back -/

mutual

/-- **JSON comes back.** A value in which no key is repeated is what its node is
written as. -/
theorem toJson_ofJson : ∀ {j : Json} (key : String), j.UniqueKeys → (ofJson key j).toJson = j
  | .null, _, _ | .bool _, _, _ | .string _, _, _ => rfl
  | .number n, _, _ => Value.toJson_ofNumber n
  | .array items, _, h => by
    rw [Json.UniqueKeys] at h
    rw [ofJson, toJson, itemsToJson_ofItems 0 h]
  | .object members, _, h => by
    rw [Json.UniqueKeys] at h
    rw [ofJson, toJson, membersToJson_ofMembers h.2, Json.ofMembers_of_nodup members h.1]

theorem itemsToJson_ofItems : ∀ {items : List Json} (index : Nat), Json.AllUniqueKeys items →
    itemsToJson (ofItems index items) = items
  | [], _, _ => rfl
  | item :: rest, index, h => by
    rw [Json.AllUniqueKeys] at h
    rw [ofItems, itemsToJson, toJson_ofJson (indexKey index) h.1, itemsToJson_ofItems (index + 1) h.2]

theorem membersToJson_ofMembers : ∀ {members : List (String × Json)},
    Json.MembersUniqueKeys members → membersToJson (ofMembers members) = members
  | [], _ => rfl
  | (key, item) :: rest, h => by
    rw [Json.MembersUniqueKeys] at h
    rw [ofMembers, membersToJson, key_ofJson, toJson_ofJson key h.1, membersToJson_ofMembers h.2]

end

/-! ### Exact nodes -/

mutual

/-- Whether JSON can hold a node as it is: no key stands twice in a map, and it has a
place for the values of all leaves. -/
def Exact : InputNode → Prop
  | .leaf _ value => value.Plain
  | .list _ children => AllExact children
  | .map _ children => (children.map key).Nodup ∧ AllExact children

def AllExact : List InputNode → Prop
  | [] => True
  | node :: rest => Exact node ∧ AllExact rest

end

theorem allExact_iff : ∀ {nodes : List InputNode}, AllExact nodes ↔ ∀ node ∈ nodes, node.Exact
  | [] => by simp [AllExact]
  | node :: rest => by rw [AllExact, allExact_iff, List.forall_mem_cons]

theorem keys_ofMembers (members : List (String × Json)) :
    (ofMembers members).map key = members.map Prod.fst := by
  rw [ofMembers_eq_map, List.map_map]
  exact List.map_congr_left fun m _ => key_ofJson m.1 m.2

mutual

/-- **What is read** from JSON without repeated keys is exact. -/
theorem exact_ofJson : ∀ {j : Json} (key : String), j.UniqueKeys → (ofJson key j).Exact
  | .null, _, _ | .bool _, _, _ | .string _, _, _ => ⟨trivial, rfl⟩
  | .number n, _, _ => Value.plain_ofNumber n
  | .array _, _, h => allExact_ofItems 0 h
  | .object members, _, h => ⟨by rw [keys_ofMembers]; exact h.1, allExact_ofMembers h.2⟩

theorem allExact_ofItems : ∀ {items : List Json} (index : Nat), Json.AllUniqueKeys items →
    AllExact (ofItems index items)
  | [], _, _ => trivial
  | _ :: _, index, h => ⟨exact_ofJson (indexKey index) h.1, allExact_ofItems (index + 1) h.2⟩

theorem allExact_ofMembers : ∀ {members : List (String × Json)}, Json.MembersUniqueKeys members →
    AllExact (ofMembers members)
  | [], _ => trivial
  | (key, _) :: _, h => ⟨exact_ofJson key h.1, allExact_ofMembers h.2⟩

end

theorem same_key : ∀ {a b : InputNode}, same a b = true → a.key = b.key
  | .leaf _ _, .leaf _ _, h | .list _ _, .list _ _, h | .map _ _, .map _ _, h => by
    rw [same, Bool.and_eq_true, beq_iff_eq] at h
    exact h.1

theorem sameAll_keys : ∀ {as bs : List InputNode}, sameAll as bs = true → as.map key = bs.map key
  | [], [], _ => rfl
  | a :: as, b :: bs, h => by
    rw [sameAll, Bool.and_eq_true] at h
    rw [List.map_cons, List.map_cons, same_key h.1, sameAll_keys h.2]

mutual

/-- **What equals** an exact node is exact. -/
theorem Exact.of_same : ∀ {a b : InputNode}, a.Exact → same a b = true → b.Exact
  | .leaf _ v, .leaf _ w, ha, h => by
    rw [same, Bool.and_eq_true] at h
    exact Value.Plain.of_same ha h.2
  | .list _ as, .list _ bs, ha, h => by
    rw [same, Bool.and_eq_true] at h
    exact AllExact.of_sameAll ha h.2
  | .map _ as, .map _ bs, ha, h => by
    rw [same, Bool.and_eq_true] at h
    exact ⟨sameAll_keys h.2 ▸ ha.1, AllExact.of_sameAll ha.2 h.2⟩

theorem AllExact.of_sameAll : ∀ {as bs : List InputNode}, AllExact as → sameAll as bs = true →
    AllExact bs
  | [], [], _, _ => trivial
  | a :: as, b :: bs, ha, h => by
    rw [sameAll, Bool.and_eq_true] at h
    exact ⟨Exact.of_same ha.1 h.1, AllExact.of_sameAll ha.2 h.2⟩

end

mutual

theorem Exact.same_self : ∀ {node : InputNode}, node.Exact → same node node = true
  | .leaf _ _, h => by
    rw [same, beq_self_eq_true, Bool.true_and]
    exact Value.same_self_of_portable h.1
  | .list _ _, h => by
    rw [same, beq_self_eq_true, Bool.true_and, AllExact.sameAll_self h]
  | .map _ _, h => by
    rw [same, beq_self_eq_true, Bool.true_and, AllExact.sameAll_self h.2]

theorem AllExact.sameAll_self : ∀ {nodes : List InputNode}, AllExact nodes → sameAll nodes nodes = true
  | [], _ => rfl
  | _ :: _, h => by
    rw [sameAll, Exact.same_self h.1, AllExact.sameAll_self h.2, Bool.and_true]

end

/-! ### Nodes that can be made -/

/-- The nodes that can be made: leaves, lists of values, maps of nodes, and what JSON is
read as. -/
inductive Built : InputNode → Prop
  | leaf (key : String) (value : Value) : Built (.leaf key value)
  | ofValues (key : String) (values : List Value) : Built (ofValues key values)
  | map (key : String) {children : List InputNode} (h : ∀ child ∈ children, Built child) :
    Built (.map key children)
  | ofJson (key : String) (j : Json) : Built (ofJson key j)

mutual

/-- Whether the nodes in every list are keyed by their places. -/
def Indexed : InputNode → Prop
  | .leaf _ _ => True
  | .list _ children => IndexedFrom 0 children
  | .map _ children => AllIndexed children

def IndexedFrom : Nat → List InputNode → Prop
  | _, [] => True
  | index, node :: rest => node.key = indexKey index ∧ Indexed node ∧ IndexedFrom (index + 1) rest

def AllIndexed : List InputNode → Prop
  | [] => True
  | node :: rest => Indexed node ∧ AllIndexed rest

end

theorem allIndexed_iff : ∀ {nodes : List InputNode}, AllIndexed nodes ↔ ∀ node ∈ nodes, node.Indexed
  | [] => by simp [AllIndexed]
  | node :: rest => by rw [AllIndexed, allIndexed_iff, List.forall_mem_cons]

mutual

theorem indexed_ofJson : ∀ (j : Json) (key : String), (ofJson key j).Indexed
  | .null, _ | .bool _, _ | .number _, _ | .string _, _ => trivial
  | .array items, _ => indexedFrom_ofItems items 0
  | .object members, _ => allIndexed_ofMembers members

theorem indexedFrom_ofItems : ∀ (items : List Json) (index : Nat), IndexedFrom index (ofItems index items)
  | [], _ => trivial
  | item :: rest, index =>
    ⟨key_ofJson (indexKey index) item, indexed_ofJson item (indexKey index),
      indexedFrom_ofItems rest (index + 1)⟩

theorem allIndexed_ofMembers : ∀ members : List (String × Json), AllIndexed (ofMembers members)
  | [] => trivial
  | (key, item) :: rest => ⟨indexed_ofJson item key, allIndexed_ofMembers rest⟩

end

theorem indexedFrom_leavesFrom : ∀ (values : List Value) (index : Nat),
    IndexedFrom index (leavesFrom index values)
  | [], _ => trivial
  | _ :: rest, index => ⟨rfl, trivial, indexedFrom_leavesFrom rest (index + 1)⟩

theorem Built.indexed {node : InputNode} (h : node.Built) : node.Indexed := by
  induction h with
  | leaf key value => exact trivial
  | ofValues key values => exact indexedFrom_leavesFrom values 0
  | map key _ ih => exact allIndexed_iff.mpr ih
  | ofJson key j => exact indexed_ofJson j key

/-! ### To JSON and back -/

theorem keys_membersToJson : ∀ nodes : List InputNode,
    (membersToJson nodes).map Prod.fst = nodes.map key
  | [] => rfl
  | node :: rest => by rw [membersToJson, List.map_cons, List.map_cons, keys_membersToJson rest]

/-- Nodes of which no two have one key are written as members in their order. -/
theorem ofMembers_membersToJson_keys {nodes : List InputNode} (h : (nodes.map key).Nodup) :
    Json.ofMembers (membersToJson nodes) = membersToJson nodes :=
  Json.ofMembers_of_nodup _ (by rwa [keys_membersToJson])

mutual

/-- **Exact nodes come back** as they are. -/
theorem ofJson_toJson : ∀ {node : InputNode}, node.Indexed → node.Exact →
    ofJson node.key node.toJson = node
  | .leaf k v, _, h => by
    rw [toJson, ofJson_reread h.2, Value.reread_of_portable h.1]
    rfl
  | .list k cs, hi, h => by
    rw [toJson, ofJson, ofItems_itemsToJson hi h]
    rfl
  | .map k cs, hi, h => by
    rw [toJson, ofMembers_membersToJson_keys h.1, ofJson, ofMembers_membersToJson hi h.2]
    rfl

theorem ofItems_itemsToJson : ∀ {nodes : List InputNode} {index : Nat}, IndexedFrom index nodes →
    AllExact nodes → ofItems index (itemsToJson nodes) = nodes
  | [], _, _, _ => rfl
  | node :: rest, index, hi, h => by
    obtain ⟨hkey, hnode, hrest⟩ := hi
    rw [itemsToJson, ofItems, ← hkey, ofJson_toJson hnode h.1, ofItems_itemsToJson hrest h.2]

theorem ofMembers_membersToJson : ∀ {nodes : List InputNode}, AllIndexed nodes → AllExact nodes →
    ofMembers (membersToJson nodes) = nodes
  | [], _, _ => rfl
  | node :: rest, hi, h => by
    rw [membersToJson, ofMembers, ofJson_toJson hi.1 h.1, ofMembers_membersToJson hi.2 h.2]

end

end InputNode

/-! ### Whole filters -/

namespace FilterInput

/-- The filters that can be made: one without nodes, what a JSON object is read as, and
one with a node more at the end. -/
inductive Built : FilterInput → Prop
  | empty : Built ⟨[]⟩
  | ofMembers (members : List (String × Json)) : Built (ofMembers members)
  | push {input : FilterInput} {node : InputNode} (hi : Built input) (hn : node.Built) :
    Built (input.push node)

/-- Whether JSON can hold a filter as it is. -/
def Exact (input : FilterInput) : Prop :=
  (input.nodes.map InputNode.key).Nodup ∧ InputNode.AllExact input.nodes

variable {input input' : FilterInput}

theorem Built.indexed (h : input.Built) : InputNode.AllIndexed input.nodes := by
  induction h with
  | empty => exact trivial
  | ofMembers members => exact InputNode.allIndexed_ofMembers members
  | @push input node _ hn ih =>
    rw [InputNode.allIndexed_iff] at ih ⊢
    exact List.forall_mem_append.mpr ⟨ih, List.forall_mem_singleton.mpr hn.indexed⟩

/-- What comes back of a filter is one that JSON can hold. -/
theorem exact_of_ofJson_toJson (h : ofJson input.toJson = .ok input') : input'.Exact := by
  have hmembers : (Json.object (Json.ofMembers (InputNode.membersToJson input.nodes))).UniqueKeys :=
    Json.uniqueKeys_ofMembers (InputNode.membersUniqueKeys_membersToJson input.nodes)
  cases h
  refine ⟨?_, InputNode.allExact_ofMembers hmembers.2⟩
  rw [ofMembers, InputNode.keys_ofMembers]
  exact hmembers.1

/-- A filter that JSON can hold comes back as it is. -/
theorem Exact.ofJson_toJson (h : input.Exact) (hi : InputNode.AllIndexed input.nodes) :
    ofJson input.toJson = .ok input := by
  rw [toJson, InputNode.ofMembers_membersToJson_keys h.1, ofJson, ofMembers,
    InputNode.ofMembers_membersToJson hi h.2]

theorem Exact.of_same (h : input'.Exact) (hsame : (input' == input) = true) : input.Exact := by
  change InputNode.sameAll input'.nodes input.nodes = true at hsame
  exact ⟨InputNode.sameAll_keys hsame ▸ h.1, h.2.of_sameAll hsame⟩

/-- **Exact in both directions.** Every JSON object is read as a filter that is written as
the same object, its members in their order. A filter that can be made is read back from
what it is written as, the same or only an equal one, exactly if no key stands twice at
its top or in one of its maps, no leaf holds a list, all doubles are finite, and all
unsigned integers are too large for a sign. -/
theorem exact_codec :
    (∀ members, (Json.object members).UniqueKeys →
      ∃ input, ofJson (.object members) = .ok input ∧ input.toJson = .object members) ∧
    ∀ input : FilterInput, input.Built →
      (ofJson input.toJson = .ok input ↔ input.Exact) ∧
      ((∃ input', ofJson input.toJson = .ok input' ∧ (input' == input) = true) ↔ input.Exact) := by
  refine ⟨fun members h => ⟨ofMembers members, rfl, ?_⟩, fun input hbuilt => ?_⟩
  · rw [toJson, ofMembers, InputNode.membersToJson_ofMembers h.2, Json.ofMembers_of_nodup _ h.1]
  · have hback : input.Exact → ofJson input.toJson = .ok input := fun h =>
      h.ofJson_toJson hbuilt.indexed
    have hself : input.Exact → (input == input) = true := fun h => h.2.sameAll_self
    exact ⟨⟨exact_of_ofJson_toJson, hback⟩,
      fun ⟨_, h, hsame⟩ => (exact_of_ofJson_toJson h).of_same hsame,
      fun h => ⟨input, hback h, hself h⟩⟩

/-- Members with a value of every kind, the numbers at the ends of their kinds. -/
def everyKind : List (String × Json) :=
  [("or", .array [.null, .bool true, .object [("", .array []), ("or", .string "and")]]),
    ("age", .object [("lt", .number (.int (-9223372036854775808))),
      ("in", .array [.number (.uint 9223372036854775808 (by decide)),
        .number (.float ⟨0x8000000000000000⟩ (by decide))])])]

/-- The same as a filter, with a list and a map pushed behind. -/
def pushed : FilterInput :=
  ((ofMembers everyKind).push (.ofValues "city" [.string "Oslo", .null])).push
    (.map "name" [.leaf "eq" (.uint 18446744073709551615)])

/-- The JSON comes back, and so does the filter; with one more node under a key that is
there it does not. -/
theorem exact_codec_pushed :
    ((Json.object everyKind).UniqueKeys ∧ pushed.Built ∧ (pushed.push (.leaf "or" .null)).Built) ∧
    (∃ input, ofJson (.object everyKind) = .ok input ∧ input.toJson = .object everyKind) ∧
    ofJson pushed.toJson = .ok pushed ∧
    ofJson (pushed.push (.leaf "or" .null)).toJson ≠ .ok (pushed.push (.leaf "or" .null)) := by
  have hkeys : (Json.object everyKind).UniqueKeys := by
    refine ⟨by decide, ⟨trivial, trivial, ⟨by decide, ?_⟩, trivial⟩, ⟨by decide, ?_⟩, trivial⟩
    · exact ⟨trivial, trivial, trivial⟩
    · exact ⟨trivial, ⟨trivial, trivial, trivial⟩, trivial⟩
  have hmap : (InputNode.map "name" [.leaf "eq" (.uint 18446744073709551615)]).Built :=
    .map _ (List.forall_mem_singleton.mpr (.leaf _ _))
  have hbuilt : pushed.Built := .push (.push (.ofMembers everyKind) (.ofValues _ _)) hmap
  have htwice : (pushed.push (.leaf "or" .null)).Built := .push hbuilt (.leaf _ _)
  have hexact : pushed.Exact := by
    have hmembers := InputNode.allExact_ofMembers hkeys.2
    rw [InputNode.allExact_iff] at hmembers
    refine ⟨by decide, InputNode.allExact_iff.mpr ?_⟩
    refine List.forall_mem_append.mpr ⟨List.forall_mem_append.mpr ⟨hmembers, ?_⟩, ?_⟩
    · exact List.forall_mem_singleton.mpr ⟨⟨trivial, rfl⟩, ⟨trivial, rfl⟩, trivial⟩
    · have hlarge : (Value.uint 18446744073709551615).Plain :=
        ⟨show Nat.pow 2 63 ≤ (18446744073709551615 : UInt64).toNat by decide, rfl⟩
      exact List.forall_mem_singleton.mpr ⟨List.nodup_singleton "eq", hlarge, trivial⟩
  refine ⟨⟨hkeys, hbuilt, htwice⟩, exact_codec.1 everyKind hkeys,
    (exact_codec.2 pushed hbuilt).1.mpr hexact, fun h => ?_⟩
  have hnodup := ((exact_codec.2 _ htwice).1.mp h).1
  exact absurd hnodup (by decide)

end FilterInput
end QueryFilter
