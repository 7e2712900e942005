/-
# What can be wrong with a filter

`FilterError` names the cause; `FilterError.kind` sorts the causes into the
eight kinds a caller can tell apart; `FilterError.message` is the one place
where a cause becomes words.

Key definitions: `FilterError`, `FilterError.kind`, `FilterError.message`.
Key theorems: `Except.bind_eq_ok`, `Except.map_eq_ok`.
-/
import QueryFilter.Keyword
import QueryFilter.Value.Basic
import QueryFilter.Json.Printer

/-! ### Runs that may fail -/

/-- A run of two parts succeeds if both do. -/
theorem Except.bind_eq_ok {ε α β : Type} {x : Except ε α} {f : α → Except ε β} {b : β} :
    x.bind f = .ok b ↔ ∃ a, x = .ok a ∧ f a = .ok b := by
  cases x with
  | error err => exact ⟨fun h => (by cases h), fun ⟨a, h, _⟩ => (by cases h)⟩
  | ok a => exact ⟨fun h => ⟨a, rfl, h⟩, fun ⟨a', h, hb⟩ => (by cases h; exact hb)⟩

theorem Except.map_eq_ok {ε α β : Type} {x : Except ε α} {f : α → β} {b : β} :
    x.map f = .ok b ↔ ∃ a, x = .ok a ∧ f a = b := by
  cases x with
  | error err => exact ⟨fun h => (by cases h), fun ⟨a, h, _⟩ => (by cases h)⟩
  | ok a => exact ⟨fun h => ⟨a, rfl, (by cases h; rfl)⟩, fun ⟨a', h, hb⟩ => (by cases h; rw [← hb]; rfl)⟩

namespace QueryFilter

/-- The kinds of error that a caller can tell apart. -/
inductive ErrorKind where
  | noSuchOperation
  | invalidValueType
  | invalidStructure
  | badFormat
  | column
  | notAllowed
  | cannotAdjust
  | keyCollision
  deriving DecidableEq, Repr

/-- The words that open the message of a kind. -/
def ErrorKind.opening : ErrorKind → String
  | .noSuchOperation => "No such operation: "
  | .invalidValueType => "Invalid value type: "
  | .invalidStructure => "Invalid filtering structure: "
  | .badFormat => "Bad format: "
  | .column => "Column error: "
  | .notAllowed => ""
  | .cannotAdjust => "Cannot adjust expression: "
  | .keyCollision => ""

/-- Why a filter cannot be read, compiled, edited or written. -/
inductive FilterError where
  /-- No operator has this symbol. -/
  | unknownOperator (symbol : String)
  /-- The operator compares with a sequence, and this is none. -/
  | sequenceRequired (operator : OperatorKind) (given : Value)
  /-- A limit or an offset is not a count. -/
  | countRequired (modifier : Modifier)
  | limitExceeded (limit : UInt64) (most : UInt64)
  /-- An ordering is neither one spec nor a list of them. -/
  | orderSpecsRequired
  | orderSpecNotText (given : Value)
  | badOrderSpec (spec : String)
  /-- The text is not JSON. -/
  | notJson
  /-- The JSON of a filter is not an object. -/
  | notAnObject
  | tooDeep (most : UInt64)
  /-- A junction holds a value where its members belong. -/
  | junctionWithoutMembers (key : String)
  /-- A value stands under a key with no column around it. -/
  | unattached (key : String)
  /-- The operator compares with one value and is given a list. -/
  | listNotTaken (symbol : String)
  /-- An operator holds members where its value belongs. -/
  | operatorWithMembers (symbol : String)
  /-- A restriction model is not of the right shape; the rule at fault, if
  the fault is an object that is not the mark of any value. -/
  | badModel (rule : Option Json)
  | unresolvedColumn (reference : String)
  | notAllowed (column : String) (operator : OperatorKind)
  /-- A segment that has to name a junction does not. -/
  | notAJunction (segment : String)
  | destinationNotFound
  | addedIntoItself
  | rootNotRemovable
  | keyCollision (key : String)

namespace FilterError

def kind : FilterError → ErrorKind
  | .unknownOperator _ => .noSuchOperation
  | .sequenceRequired _ _ => .invalidValueType
  | .countRequired _ => .invalidValueType
  | .limitExceeded _ _ => .invalidValueType
  | .orderSpecsRequired => .invalidValueType
  | .orderSpecNotText _ => .badFormat
  | .badOrderSpec _ => .badFormat
  | .notJson => .invalidStructure
  | .notAnObject => .invalidStructure
  | .tooDeep _ => .invalidStructure
  | .junctionWithoutMembers _ => .invalidStructure
  | .unattached _ => .invalidStructure
  | .listNotTaken _ => .invalidStructure
  | .operatorWithMembers _ => .invalidStructure
  | .badModel _ => .badFormat
  | .unresolvedColumn _ => .column
  | .notAllowed _ _ => .notAllowed
  | .notAJunction _ => .cannotAdjust
  | .destinationNotFound => .cannotAdjust
  | .addedIntoItself => .cannotAdjust
  | .rootNotRemovable => .cannotAdjust
  | .keyCollision _ => .keyCollision

/-- The text of an unsigned integer. -/
def count (n : UInt64) : String := String.ofList (Nat.toDigits 10 n.toNat)

/-- What a cause is in words, without the opening of its kind. -/
def detail : FilterError → String
  | .unknownOperator symbol => symbol
  | .sequenceRequired operator given =>
    "operator '" ++ operator.symbol ++ "' requires a sequence of values, got " ++ given.display
  | .countRequired modifier => modifier.key ++ " must be a non-negative integer"
  | .limitExceeded limit most =>
    "limit " ++ count limit ++ " exceeds the maximum of " ++ count most
  | .orderSpecsRequired => "order_by must be a single spec or a list of specs"
  | .orderSpecNotText given => "order spec " ++ given.display ++ " is not a string"
  | .badOrderSpec spec => "'" ++ spec ++ "' is not a valid order specification"
  | .notJson => "invalid JSON"
  | .notAnObject => "filter input must be an object"
  | .tooDeep most => "input nested deeper than " ++ count most ++ " levels"
  | .junctionWithoutMembers key => "junction '" ++ key ++ "' must contain filters"
  | .unattached key => "'" ++ key ++ "' is not attached to any column"
  | .listNotTaken symbol => "operator '" ++ symbol ++ "' does not take a list of values"
  | .operatorWithMembers symbol => "operator '" ++ symbol ++ "' cannot contain nested filters"
  | .badModel none => "invalid restriction model"
  | .badModel (some rule) =>
    "invalid restriction model: expected a literal or \x7b\"any\": true\x7d, got " ++ rule.print
  | .unresolvedColumn reference => "column '" ++ reference ++ "' cannot be resolved"
  | .notAllowed column operator =>
    "Filtering operation '" ++ operator.symbol ++ "' is not allowed on column '" ++ column ++ "'"
  | .notAJunction segment => "invalid path: '" ++ segment ++ "' is not a junction"
  | .destinationNotFound => "destination expression not found"
  | .addedIntoItself => "expression cannot be added into itself"
  | .rootNotRemovable => "cannot remove the root expression"
  | .keyCollision key => "Key '" ++ key ++ "' appears more than once in the same junction"

/-- The message of an error. -/
def message (e : FilterError) : String := e.kind.opening ++ e.detail

end FilterError
end QueryFilter
