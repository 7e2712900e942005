/-
# Recursions over expressions

A recursion over an expression puts together what the members of a junction
give, in their order (`Expr.Algebra`). Copying an expression, writing it, its
text and its predicate are all of that form.

Key definitions: `Expr.Algebra`, `Expr.Computes`.
Key theorems: `Expr.computes_showing`, `Expr.computes_writing`,
`Expr.computes_rendering`.
-/
import QueryFilter.Proofs.Expr.Leaves

namespace QueryFilter
namespace Expr

variable {C P Q β : Type}

/-- What is made of a leaf, and of a junction from what is made of its members. -/
structure Algebra (C β : Type) where
  leaf : C → Operator → β
  junction : Junction → List β → β

/-- Whether a function of expressions is the recursion of an algebra. -/
structure Computes (a : Algebra C β) (f : Expr C → β) : Prop where
  leaf : ∀ column op, f (.leaf column op) = a.leaf column op
  junction : ∀ kind es, f (.junction kind es) = a.junction kind (es.map f)

/-- The expression again. -/
def rebuilding : Algebra C (Expr C) := ⟨.leaf, .junction⟩

/-- Texts with the word of a junction between them. -/
def between (kind : Junction) : List String → String
  | [] => ""
  | [text] => text
  | text :: next :: rest => text ++ " " ++ kind.connective ++ " " ++ between kind (next :: rest)

/-- The text of an expression. -/
def showing [ColumnRef C] : Algebra C String :=
  ⟨fun column op => ColumnRef.name column ++ " " ++ op.display,
    fun kind texts => "(" ++ between kind texts ++ ")"⟩

/-- The entries of a junction with those that its members gave, up to the first error. -/
def mergeResults (kind : Junction) (done : List Entry) :
    List (Except FilterError Entry) → Except FilterError (List Entry)
  | [] => .ok done
  | result :: rest => do
    let next ← result
    let done ← mergeEntry kind next done
    mergeResults kind done rest

/-- The member that an expression is written as. -/
def writing [ColumnRef C] : Algebra C (Except FilterError Entry) :=
  ⟨fun column op => .ok (ColumnRef.reference column, op.dump), fun kind results => do
    let entries ← mergeResults kind [] results
    .ok (kind.name, entries.map fun e => (e.1, .object e.2))⟩

/-- The predicate of an expression, if it has one. -/
def rendering (b : Backend C P Q) : Algebra C (Option P) :=
  ⟨fun column op => some (b.evaluate column op), fun kind ps => combine b kind (ps.filterMap id)⟩

/-- Such a function depends on a junction through its members only. -/
theorem Computes.members {a : Algebra C β} {f : Expr C → β} (hf : Computes a f) {kind : Junction}
    {es es' : List (Expr C)} (h : es.map f = es'.map f) :
    f (.junction kind es) = f (.junction kind es') := by
  rw [hf.junction, hf.junction, h]

theorem computes_rebuilding : Computes (rebuilding : Algebra C (Expr C)) id where
  leaf _ _ := rfl
  junction kind es := by
    rw [List.map_id]
    rfl

theorem displayAll_eq_between [ColumnRef C] (kind : Junction) : ∀ es : List (Expr C),
    displayAll kind es = between kind (es.map display)
  | [] => rfl
  | [_] => rfl
  | e :: next :: rest => by
    rw [displayAll, displayAll_eq_between kind (next :: rest)]
    rfl

theorem computes_showing [ColumnRef C] : Computes showing (display (C := C)) where
  leaf _ _ := rfl
  junction kind es := by
    rw [display, displayAll_eq_between]
    rfl

theorem mergeAll_eq_mergeResults [ColumnRef C] (kind : Junction) :
    ∀ (es : List (Expr C)) (done : List Entry),
      mergeAll kind done es = mergeResults kind done (es.map entry)
  | [], _ => rfl
  | e :: rest, done => by
    rw [mergeAll, List.map_cons, mergeResults]
    simp only [mergeAll_eq_mergeResults kind rest]

theorem computes_writing [ColumnRef C] : Computes writing (entry (C := C)) where
  leaf _ _ := rfl
  junction kind es := by
    rw [entry, mergeAll_eq_mergeResults]
    rfl

theorem computes_rendering (b : Backend C P Q) : Computes (rendering b) (render b) where
  leaf _ _ := rfl
  junction kind es := by
    show render b (.junction kind es) = combine b kind ((es.map (render b)).filterMap id)
    rw [render_junction, List.filterMap_map, Function.id_comp]

end Expr
end QueryFilter
