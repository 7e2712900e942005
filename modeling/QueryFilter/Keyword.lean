/-
# Words with a fixed meaning

The keys of a filter that are not references to columns: the junctions `and`
and `or`, which are read in any letter case, the operators, two of which have
an older spelling, and the three modifiers. The first two are found by name in
paths as well.

Key definitions: `Junction.ofName?`, `OperatorKind.ofSymbol?`,
`Modifier.ofKey?`.
Key theorems: `Junction.ofName?_name`, `OperatorKind.ofSymbol?_symbol`,
`Modifier.ofKey?_key`.
-/

namespace QueryFilter

/-! ### Junctions -/

/-- How the members of a junction are combined. -/
inductive Junction where
  | and
  | or
  deriving DecidableEq, Repr

namespace Junction

/-- The name under which a junction is written. -/
def name : Junction → String
  | .and => "and"
  | .or => "or"

/-- The word between the members when a junction is shown. -/
def connective : Junction → String
  | .and => "AND"
  | .or => "OR"

/-- The junction of a name, in any case of its ASCII letters. -/
def ofName? (s : String) : Option Junction :=
  let letters := s.toList.map Char.toLower
  if letters = ['a', 'n', 'd'] then some .and
  else if letters = ['o', 'r'] then some .or
  else none

/-- Whether a text names a junction. -/
def isName (s : String) : Bool := (ofName? s).isSome

theorem ofName?_name (kind : Junction) : ofName? kind.name = some kind := by
  cases kind <;> decide

end Junction

/-! ### Operators -/

/-- The comparisons of a column with a value or a list of values. -/
inductive OperatorKind where
  | eq
  | ne
  | gt
  | ge
  | lt
  | le
  | isIn
  | notIn
  deriving DecidableEq, Repr

namespace OperatorKind

/-- All comparisons, in their order. -/
def all : List OperatorKind := [.eq, .ne, .gt, .ge, .lt, .le, .isIn, .notIn]

/-- The place of a comparison in the order of all. -/
def rank : OperatorKind → Nat
  | .eq => 0
  | .ne => 1
  | .gt => 2
  | .ge => 3
  | .lt => 4
  | .le => 5
  | .isIn => 6
  | .notIn => 7

instance : Ord OperatorKind := ⟨fun a b => compare a.rank b.rank⟩

/-- The symbol under which a comparison is written. -/
def symbol : OperatorKind → String
  | .eq => "eq"
  | .ne => "ne"
  | .gt => "gt"
  | .ge => "ge"
  | .lt => "lt"
  | .le => "le"
  | .isIn => "in"
  | .notIn => "not_in"

/-- The comparison of a symbol as it is written, and of nothing else. -/
def ofWritten? (s : String) : Option OperatorKind :=
  all.find? fun kind => kind.symbol = s

/-- The comparison of a symbol; `in_` and `nin` are read as `in` and `not_in`. -/
def ofSymbol? (s : String) : Option OperatorKind :=
  if s = "in_" then some .isIn
  else if s = "nin" then some .notIn
  else ofWritten? s

/-- Whether a text is a symbol. -/
def isSymbol (s : String) : Bool := (ofSymbol? s).isSome

/-- Whether the comparison is with a list of values. -/
def expectsSequence : OperatorKind → Bool
  | .isIn => true
  | .notIn => true
  | _ => false

theorem ofWritten?_symbol (kind : OperatorKind) : ofWritten? kind.symbol = some kind := by
  cases kind <;> decide

theorem ofSymbol?_symbol (kind : OperatorKind) : ofSymbol? kind.symbol = some kind := by
  cases kind <;> decide

instance : Std.LawfulEqOrd OperatorKind where
  eq_of_compare {a b} h := by
    revert h
    cases a <;> cases b <;> decide
  compare_self {a} := by cases a <;> decide

instance : Std.TransOrd OperatorKind where
  eq_swap {a b} := by cases a <;> cases b <;> decide
  isLE_trans {a b c} h h' := by
    have hab : compare a b = compare a.rank b.rank := rfl
    have hbc : compare b c = compare b.rank c.rank := rfl
    have hac : compare a c = compare a.rank c.rank := rfl
    rw [hab] at h
    rw [hbc] at h'
    rw [hac]
    exact Std.TransCmp.isLE_trans h h'

end OperatorKind

/-! ### Modifiers -/

/-- What a filter says about the result beside its predicate. -/
inductive Modifier where
  | limit
  | offset
  | orderBy
  deriving DecidableEq, Repr

namespace Modifier

/-- The key of a modifier. -/
def key : Modifier → String
  | .limit => "limit"
  | .offset => "offset"
  | .orderBy => "order_by"

/-- The modifier of a key. -/
def ofKey? (s : String) : Option Modifier :=
  [Modifier.limit, .offset, .orderBy].find? fun m => m.key = s

theorem ofKey?_key (m : Modifier) : ofKey? m.key = some m := by
  cases m <;> decide

end Modifier
end QueryFilter
