/-
# Writing a filter never changes it silently

What is written for a filter may not compile: a column may have the name of a junction, of
a modifier or of an operator, and a value may be a list of lists. But if it compiles, to
anything at all, then to a filter that says the same. Its predicate is the normal form of
the one that was written, reread and gathered; rereading changes no value that JSON can
hold, and neither the normal form nor gathering makes a difference to what is true. Its
modifiers are those that were written (`Compiler.compile_faithful`).

Key theorems: `Filter.bind_truth?_normalize`, `Compiler.compile_faithful`.
-/
import QueryFilter.Proofs.Compiler.Modifiers
import QueryFilter.Proofs.Compiler.SecondTrip
import QueryFilter.Proofs.Expr.Reading
import QueryFilter.Proofs.Expr.Truth

namespace QueryFilter

variable {C : Type}

namespace Filter

/-- A predicate is true where its normal form is. -/
theorem bind_truth?_normalize (v : C → Operator → Bool) (f : Filter C) :
    f.normalize.expression.bind (Expr.truth? v) = f.expression.bind (Expr.truth? v) := by
  rw [expression_normalize, Option.bind_assoc]
  congr 1
  exact funext fun e => Expr.bind_render_normalForm? (.deciding v) e

theorem expression_normalize_eq_none_iff {f : Filter C} :
    f.normalize.expression = none ↔ f.leaves = [] := by
  rw [expression_normalize, leaves]
  cases f.expression with
  | none => exact ⟨fun _ => rfl, fun _ => rfl⟩
  | some e =>
    show e.normalForm? = none ↔ e.leaves = []
    rw [← Expr.isEmpty_normalize_iff, Expr.normalForm?]
    cases e.normalize.isEmpty <;> simp

end Filter

namespace Compiler

variable [ColumnRef C] {c : Compiler C} {f f' : Filter C} {input : FilterInput}

/-- **Nothing is changed silently.** Let the columns of a filter be found by their
references, whatever these are, let JSON hold its values, which may be lists of lists, and
let the references of its orderings be such that they can stand in a spec. If the filter can
be written and what is written compiles, then it compiles to the same modifiers and to a
predicate that is true where that of the filter is, and to none exactly if the filter
compares nothing. So a filter for which there is no such input ends in an error. -/
theorem compile_faithful
    (hcolumns : ∀ l ∈ f.leaves, c.resolver.resolve (ColumnRef.reference l.1) = .ok l.1)
    (hvalues : ∀ l ∈ f.leaves, l.2.value.Portable)
    (horder : ∀ o ∈ f.modifiers.orderBy, o.Readable c.resolver)
    (hw : f.toInput = .ok input) (hc : c.compile input = .ok f') :
    f'.modifiers = f.modifiers ∧
      (∀ v, f'.expression.bind (Expr.truth? v) = f.expression.bind (Expr.truth? v)) ∧
      (f'.expression = none ↔ f.leaves = []) := by
  obtain ⟨hback, -, es, hmodifiers⟩ := compile_reread hw hcolumns hc
  have hsame : f'.expression = f.normalize.expression.map Expr.gather := by
    rw [hback]
    refine Option.map_congr fun e he => ?_
    have hportable : ∀ l ∈ e.leaves, l.2.value.Portable := by
      rwa [Filter.leaves_normalize he]
    rw [Expr.reread_of_portable hportable]
  refine ⟨?_, fun v => ?_, ?_⟩
  · exact (Prod.mk.inj (eq_of_compileNodes_dump horder hmodifiers)).2
  · have hgather : (Expr.truth? v ∘ Expr.gather : Expr C → Option Bool) = Expr.truth? v :=
      funext (Expr.truth?_gather v)
    rw [hsame, Option.bind_map, hgather, Filter.bind_truth?_normalize]
  · rw [hsame, Option.map_eq_none_iff, Filter.expression_normalize_eq_none_iff]

/-- `nameTwice` in an order, from the third on. -/
def nameTwiceOrdered : Filter Column :=
  ⟨some (.junction .or [nameTwice]),
    ⟨none, some 3, [⟨.plain "tt" "age", false⟩, ⟨.plain "tt" "name", true⟩]⟩⟩

/-- What `nameTwiceOrdered` is written as. -/
def nameTwiceOrderedInput : FilterInput :=
  (nameTwiceInput.push (.leaf "offset" (.int 3))).push
    (.list "order_by" [.leaf "0" (.string "-age"), .leaf "1" (.string "+name")])

theorem compile_faithful_nameTwice :
    ((∀ l ∈ nameTwiceOrdered.leaves,
        ofPeople.resolver.resolve (ColumnRef.reference l.1) = .ok l.1) ∧
      (∀ l ∈ nameTwiceOrdered.leaves, l.2.value.Portable) ∧
      (∀ o ∈ nameTwiceOrdered.modifiers.orderBy, o.Readable ofPeople.resolver) ∧
      nameTwiceOrdered.toInput = .ok nameTwiceOrderedInput ∧
      ofPeople.compile nameTwiceOrderedInput =
        .ok ⟨some nameTwiceGathered, nameTwiceOrdered.modifiers⟩) ∧
    ∀ v, nameTwiceGathered.truth? v = nameTwice.truth? v := by
  have hreads : ∀ l ∈ nameTwiceOrdered.leaves, ofPeople.Reads l := reads_nameTwice
  have hcolumns : ∀ l ∈ nameTwiceOrdered.leaves,
      ofPeople.resolver.resolve (ColumnRef.reference l.1) = .ok l.1 := fun l hl =>
    (hreads l hl).resolves
  have hvalues : ∀ l ∈ nameTwiceOrdered.leaves, l.2.value.Portable := fun l hl =>
    (hreads l hl).plain.portable
  have horder : ∀ o ∈ nameTwiceOrdered.modifiers.orderBy, o.Readable ofPeople.resolver := by
    intro o ho
    simp only [nameTwiceOrdered, List.mem_cons, List.not_mem_nil, or_false] at ho
    rcases ho with rfl | rfl <;>
      exact ⟨rfl, by decide, by decide, by rintro ch ⟨⟩; rfl, by decide⟩
  have hw : nameTwiceOrdered.toInput = .ok nameTwiceOrderedInput := rfl
  have hc : ofPeople.compile nameTwiceOrderedInput =
      .ok ⟨some nameTwiceGathered, nameTwiceOrdered.modifiers⟩ := rfl
  exact ⟨⟨hcolumns, hvalues, horder, hw, hc⟩,
    (compile_faithful hcolumns hvalues horder hw hc).2.1⟩

/-- A filter whose value is a list of lists can be written, and is refused when it is read. -/
example : (Filter.toInput ⟨some (.leaf (Column.plain "tt" "name")
    ⟨.ne, .array [.array [.int 7]], by decide⟩), .empty⟩).bind ofPeople.compile =
      .error (.operatorWithMembers "ne") := rfl

end Compiler
end QueryFilter
