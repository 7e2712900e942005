/-
# Stored restrictions are read back

Rules are stored without a tag: a literal is told from the mark of any value by its shape.
That is enough, since no literal is stored as an object. So what is stored for a set of
restrictions is read back as that set (`RestrictionSet.ofDocument?_toJson_of_built`), if JSON
can hold its literals and the reader goes as deep as they nest. A JSON value that is at hand
can be read to any depth, while a text has a bound. What is in the set when it is stored
counts, not what was replaced before.

Key definitions: `ColumnRestriction.Built`, `RestrictionSet.Built`,
`RestrictionSet.Portable`.
Key theorems: `Permitted.ofDocument?_toJson`, `ColumnRestriction.ofDocument?_toJson`,
`RestrictionSet.ofDocument?_toJson_of_built`.
-/
import QueryFilter.Proofs.Input.Codec
import QueryFilter.Proofs.Json.Levels
import QueryFilter.Proofs.SortedMap
import QueryFilter.Proofs.Value.Codec
import QueryFilter.Restriction.Stored

namespace QueryFilter

/-! ### Rules -/

namespace Permitted

/-- Whether JSON can hold the literal of a rule. -/
def Portable : Permitted → Prop
  | .any => True
  | .exact value => value.Portable

/-- A rule for one value is read as such: the JSON of a value is no object. -/
theorem ofJson_toJson : ∀ {rule : Permitted}, rule.Portable → ofJson rule.toJson = .ok rule
  | .any, _ => rfl
  | .exact value, h => by
    have hvalue : Value.ofJson? value.toJson = some value := Value.ofJson?_toJson h
    rw [toJson, ofJson.eq_def]
    split
    · rename_i hobj
      rw [hobj] at hvalue
      cases hvalue
    · rename_i hobj
      rw [hobj] at hvalue
      cases hvalue
    · rw [hvalue]

theorem uniqueKeys_toJson : ∀ rule : Permitted, rule.toJson.UniqueKeys
  | .any => ⟨List.nodup_singleton anyKey, trivial, trivial⟩
  | .exact value => Value.uniqueKeys_toJson value

/-- **Rules are read back.** -/
theorem ofDocument?_toJson {rule : Permitted} (h : rule.Portable) {levels : Nat}
    (hl : rule.toJson.levels ≤ levels) : ofDocument? levels rule.toJson.toDocument = some rule := by
  rw [ofDocument?, Json.value?_toDocument (uniqueKeys_toJson rule) hl, Option.bind_some,
    ofJson_toJson h]
  rfl

end Permitted

/-! ### Restrictions -/

theorem Policy.ofDocument?_name (policy : Policy) :
    Policy.ofDocument? (some (Json.string policy.name).toDocument) = some policy := by
  cases policy <;> decide

namespace ColumnRestriction

/-- What is made of a restriction without rules by giving it rules one by one. -/
inductive Built : ColumnRestriction → Prop
  | new (column : String) (policy : Policy) : Built (.new column policy)
  | withRule {r : ColumnRestriction} (h : Built r) (kind : OperatorKind) (rule : Permitted) :
    Built (r.withRule kind rule)

theorem Built.sorted {r : ColumnRestriction} (h : r.Built) : r.rules.Sorted := by
  induction h with
  | new column policy => exact List.Pairwise.nil
  | withRule _ kind rule ih => exact SortedMap.sorted_insert _ kind rule ih

/-- A rule lies two levels below its restriction. -/
theorem levels_toJson {r : ColumnRestriction} {e : OperatorKind × Permitted}
    (he : e ∈ r.rules.entries) : e.2.toJson.levels + 2 ≤ r.toJson.levels := by
  have hrule : e.2.toJson.levels <
      (Json.object (r.rules.entries.map fun e => (e.1.symbol, e.2.toJson))).levels :=
    Json.levels_lt_object (m := (e.1.symbol, e.2.toJson)) (List.mem_map_of_mem he)
  have hrules : (Json.object (r.rules.entries.map fun e => (e.1.symbol, e.2.toJson))).levels <
      r.toJson.levels :=
    Json.levels_lt_object (m := ("rules", _)) (by simp)
  omega

/-- What is read of a member of the rules. -/
def namedRule? (levels : Nat) (symbol : String) (item : Json.Document) :
    Option (OperatorKind × Permitted) := do
  let kind ← OperatorKind.ofWritten? symbol
  let rule ← Permitted.ofDocument? levels item
  some (kind, rule)

theorem namedRule?_toJson {levels : Nat} (kind : OperatorKind) {rule : Permitted}
    (h : rule.Portable) (hl : rule.toJson.levels ≤ levels) :
    namedRule? levels kind.symbol rule.toJson.toDocument = some (kind, rule) := by
  unfold namedRule?
  rw [OperatorKind.ofWritten?_symbol, Permitted.ofDocument?_toJson h hl]
  rfl

/-- **Restrictions are read back,** with their rules in the order of comparisons. -/
theorem ofDocument?_toJson {r : ColumnRestriction} (hsorted : r.rules.Sorted)
    (hp : ∀ e ∈ r.rules.entries, e.2.Portable) {levels : Nat} (hl : r.toJson.levels ≤ levels) :
    ofDocument? levels r.toJson.toDocument = some r := by
  have hrules := Json.entries?_toDocument (namedRule? (levels - 2))
    (fun e : OperatorKind × Permitted => (e.1.symbol, e.2.toJson)) (fun e => e)
    fun e he => namedRule?_toJson e.1 (hp e he) (by have := levels_toJson he; omega)
  have hfields : r.toJson.toDocument.fields? ["column", "policy", "rules"] =
      some [some (Json.string r.column).toDocument, some (Json.string r.policy.name).toDocument,
        some (Json.object (r.rules.entries.map fun e => (e.1.symbol, e.2.toJson))).toDocument] := rfl
  rw [ofDocument?, hfields]
  show (Policy.ofDocument? (some (Json.string r.policy.name).toDocument)).bind (fun policy =>
    (Json.Document.entries? (namedRule? (levels - 2)) _).bind fun rules =>
      some ⟨r.column, policy, SortedMap.ofList rules⟩) = some r
  rw [Policy.ofDocument?_name, Option.bind_some, hrules, Option.bind_some, List.map_id',
    SortedMap.ofList_entries hsorted]

end ColumnRestriction

/-! ### Sets -/

namespace RestrictionSet

/-- What is made of the set without restrictions by putting in one after another. -/
inductive Built : RestrictionSet → Prop
  | empty : Built empty
  | insert {set : RestrictionSet} {r : ColumnRestriction} (h : Built set) (hr : r.Built) :
    Built (set.insert r)

/-- Whether JSON can hold all literals in a set. -/
def Portable (set : RestrictionSet) : Prop :=
  ∀ column ∈ set.columns.entries, ∀ rule ∈ column.2.rules.entries, rule.2.Portable

/-- Columns are in the order of their names, and the rules of each in that of comparisons. -/
theorem Built.sorted {set : RestrictionSet} (h : set.Built) :
    set.columns.Sorted ∧ ∀ e ∈ set.columns.entries, e.2.rules.Sorted := by
  induction h with
  | empty => exact ⟨List.Pairwise.nil, fun e he => by cases he⟩
  | @insert set r _ hr ih =>
    refine ⟨SortedMap.sorted_insert _ r.column r ih.1, fun e he => ?_⟩
    rcases SortedMap.mem_insertEntry he with rfl | he
    · exact hr.sorted
    · exact ih.2 e he

/-- A restriction lies two levels below its set. -/
theorem levels_toJson {set : RestrictionSet} {e : String × ColumnRestriction}
    (he : e ∈ set.columns.entries) : e.2.toJson.levels + 2 ≤ set.toJson.levels := by
  have hcolumn : e.2.toJson.levels <
      (Json.object (set.columns.entries.map fun e => (e.1, e.2.toJson))).levels :=
    Json.levels_lt_object (m := (e.1, e.2.toJson)) (List.mem_map_of_mem he)
  have hcolumns : (Json.object (set.columns.entries.map fun e => (e.1, e.2.toJson))).levels <
      set.toJson.levels :=
    Json.levels_lt_object (m := ("columns", _)) (List.mem_singleton_self _)
  omega

/-- **Sets of restrictions survive being stored.** Let a set be built of restrictions that are
built rule by rule, in any order and however often one takes the place of another. If JSON can
hold the literals that are in it in the end, then what is stored for the set is read back as
the set itself, so that it allows the same, by every reader that goes as deep as the literals
do. -/
theorem ofDocument?_toJson_of_built {set : RestrictionSet} (hset : set.Built) (hp : set.Portable) :
    ∀ levels, set.toJson.levels ≤ levels → ofDocument? levels set.toJson.toDocument = some set := by
  intro levels hl
  obtain ⟨hsorted, hrules⟩ := hset.sorted
  have hcolumn : ∀ e ∈ set.columns.entries,
      ((ColumnRestriction.ofDocument? (levels - 2) e.2.toJson.toDocument).map fun r => (e.1, r)) =
        some e := by
    intro e he
    have hbelow := levels_toJson he
    rw [ColumnRestriction.ofDocument?_toJson (hrules e he) (hp e he) (by omega)]
    rfl
  have hcolumns := Json.entries?_toDocument
    (fun key item => (ColumnRestriction.ofDocument? (levels - 2) item).map fun r => (key, r))
    (fun e : String × ColumnRestriction => (e.1, e.2.toJson)) (fun e => e) hcolumn
  have hfields : set.toJson.toDocument.fields? ["columns"] =
      some [some (Json.object (set.columns.entries.map fun e => (e.1, e.2.toJson))).toDocument] := rfl
  rw [ofDocument?, hfields]
  show (Json.Document.entries? (fun key item =>
    (ColumnRestriction.ofDocument? (levels - 2) item).map fun r => (key, r)) _).bind
      (fun columns => some ⟨SortedMap.ofList columns⟩) = some set
  rw [hcolumns, Option.bind_some, List.map_id', SortedMap.ofList_entries hsorted]

/-- Cities may not be none, nor in a list within lists, and a NaN that they might not be has
been replaced. Ages may only be the largest or not a negative zero. -/
def citiesAndAges : RestrictionSet :=
  ((empty.insert (.new "age" .deny)).insert
    ((((ColumnRestriction.new "city" .deny).withRule .notIn
        (.exact (.array [.array [.array [.null], .string "any"], .bool true]))).withRule .eq
          (.exact (.float ⟨0x7ff8000000000000⟩))).withRule .eq (.exact .null))).insert
    (((ColumnRestriction.new "age" .allow).withRule .ne (.exact (.float ⟨0x8000000000000000⟩))).withRule
      .eq (.exact (.uint 18446744073709551615)) |>.withRule .isIn .any)

theorem ofDocument?_toJson_of_built_citiesAndAges :
    (citiesAndAges.Built ∧ citiesAndAges.Portable ∧ citiesAndAges.toJson.levels = 7) ∧
      ofDocument? 7 citiesAndAges.toJson.toDocument = some citiesAndAges := by
  have hbuilt : citiesAndAges.Built :=
    .insert (.insert (.insert .empty (.new _ _)) (.withRule (.withRule (.withRule (.new _ _) _ _) _ _) _ _))
      (.withRule (.withRule (.withRule (.new _ _) _ _) _ _) _ _)
  have hportable : citiesAndAges.Portable := by
    have hage : (Value.uint 18446744073709551615).Portable :=
      show Nat.pow 2 63 ≤ (18446744073709551615 : UInt64).toNat by decide
    refine List.forall_mem_cons.mpr ⟨?_, List.forall_mem_singleton.mpr ?_⟩
    · refine List.forall_mem_cons.mpr ⟨hage, List.forall_mem_cons.mpr ⟨?_, ?_⟩⟩
      · exact show (⟨0x8000000000000000⟩ : Binary64).isFinite = true by decide
      · exact List.forall_mem_singleton.mpr trivial
    · refine List.forall_mem_cons.mpr ⟨trivial, List.forall_mem_singleton.mpr ?_⟩
      exact ⟨⟨⟨trivial, trivial⟩, trivial, trivial⟩, trivial, trivial⟩
  have hlevels : citiesAndAges.toJson.levels = 7 := by decide
  exact ⟨⟨hbuilt, hportable, hlevels⟩,
    ofDocument?_toJson_of_built hbuilt hportable 7 (Nat.le_of_eq hlevels)⟩

end RestrictionSet
end QueryFilter
