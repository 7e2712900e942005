/-
# Operators

A comparison together with the value it compares with. A comparison with a
list has a sequence as its value; the type carries the proof, so no operator
without one can be built.

Key definitions: `Operator`, `Operator.ofKind`, `Operator.ofSymbol`,
`Operator.dump`.
Key theorems: `Operator.ofKind_eq_ok`.
-/
import QueryFilter.Error
import QueryFilter.Value.Json

namespace QueryFilter

/-- A comparison and the value to compare with. -/
structure Operator where
  kind : OperatorKind
  value : Value
  sequence : kind.expectsSequence = true → value.isArray = true

namespace Operator

/-- The operator of a comparison and a value. -/
def ofKind (kind : OperatorKind) (value : Value) : Except FilterError Operator :=
  if h : kind.expectsSequence = true → value.isArray = true then .ok ⟨kind, value, h⟩
  else .error (.sequenceRequired kind value)

/-- The operator of a symbol and a value. -/
def ofSymbol (symbol : String) (value : Value) : Except FilterError Operator :=
  match OperatorKind.ofSymbol? symbol with
  | some kind => ofKind kind value
  | none => .error (.unknownOperator symbol)

def symbol (op : Operator) : String := op.kind.symbol

/-- The text of an operator: its symbol and its value. -/
def display (op : Operator) : String := op.symbol ++ " " ++ op.value.display

/-- The operator as the one member of an object. -/
def dump (op : Operator) : List (String × Json) := [(op.symbol, op.value.toJson)]

/-- Whether two operators compare alike with equal values. -/
def same (a b : Operator) : Bool := a.kind = b.kind && a.value == b.value

instance : BEq Operator := ⟨same⟩

theorem ofKind_eq_ok {kind : OperatorKind} {value : Value} {op : Operator} :
    ofKind kind value = .ok op ↔ op.kind = kind ∧ op.value = value := by
  unfold ofKind
  split
  · constructor
    · intro h
      cases h
      exact ⟨rfl, rfl⟩
    · intro ⟨hk, hv⟩
      cases hk
      cases hv
      rfl
  · rename_i h
    refine ⟨fun hc => (by cases hc), fun ⟨hk, hv⟩ => ?_⟩
    cases hk
    cases hv
    exact absurd op.sequence h

end Operator
end QueryFilter
