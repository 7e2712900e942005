/-
# Runs of operations on a store

A store is reachable if some run of operations makes it from the empty one.
Each operation takes handles to any nodes of the store, so one node may be
held, shared and edited under many handles; an operation that fails leaves the
store as it was. Every reachable store is sound.

Key definitions: `Store.Action`, `Store.after`, `Store.Reachable`.
Key theorems: `Store.Sound.after`, `Store.Reachable.sound`.
-/
import QueryFilter.Compiler
import QueryFilter.Proofs.Store.Edits

namespace QueryFilter
namespace Store

variable {C : Type}

/-- An operation on the nodes of a store. -/
inductive Action (C : Type) where
  | leaf (column : C) (op : Operator)
  | junction (kind : Junction) (children : List Handle)
  | joined (kind : Junction) (children : List Handle)
  /-- One more handle to a node. -/
  | share (h : Handle)
  | copy (h : Handle)
  | find (h : Handle) (path : Path)
  | add (h : Handle) (path : Path) (added : Handle)
  | addWith (h : Handle) (path : Path) (added : Handle) (implicit : Junction)
  | replace (h : Handle) (path : Path) (source : Handle)
  | remove (h : Handle) (path : Path)
  | normalize (h : Handle)
  | compile (c : Compiler C) (input : FilterInput)
  | reconstruct (h : Option Handle) (modifiers : Modifiers C)

/-- The handles that an operation is given. -/
def Action.handles : Action C → List Handle
  | .leaf _ _ => []
  | .junction _ children => children
  | .joined _ children => children
  | .share h => [h]
  | .copy h => [h]
  | .find h _ => [h]
  | .add h _ added => [h, added]
  | .addWith h _ added _ => [h, added]
  | .replace h _ source => [h, source]
  | .remove h _ => [h]
  | .normalize h => [h]
  | .compile _ _ => []
  | .reconstruct h _ => h.toList

/-- The store that an edit leaves: the one it was made on if it fails. -/
def edited (s : Store C) : Except FilterError (Store C) → Store C
  | .ok s' => s'
  | .error _ => s

variable {s : Store C}

theorem Sound.edited (hs : s.Sound) {result : Except FilterError (Store C)}
    (h : ∀ s', result = .ok s' → s'.Sound) : (s.edited result).Sound := by
  cases result with
  | error err => exact hs
  | ok s' => exact h s' rfl

variable [ColumnRef C]

/-- The store after an operation. -/
def after (s : Store C) : Action C → Store C
  | .leaf column op => (s.leaf column op).1
  | .junction kind children => (s.junction kind children).1
  | .joined kind children => (s.joined kind children).1
  | .share _ => s
  | .copy h => (s.copy h).1
  | .find _ _ => s
  | .add h path added => s.edited (s.add h path added .and)
  | .addWith h path added implicit => s.edited (s.add h path added implicit)
  | .replace h path source => s.edited (s.replace h path source)
  | .remove h path => s.edited (s.remove h path)
  | .normalize h => s.normalize h
  | .compile c input =>
    match c.compile input with
    | .ok f => f.expression.elim s fun e => (s.plant e).1
    | .error _ => s
  | .reconstruct h modifiers => (s.write h modifiers).1

/-- The stores that runs of operations make from the empty one. -/
inductive Reachable : Store C → Prop
  | empty : Reachable .empty
  | step {s : Store C} (hr : Reachable s) (a : Action C) (hh : ∀ h ∈ a.handles, s.Has h) :
    Reachable (s.after a)

/-- **One operation.** Whatever nodes it is given, it keeps a store sound. -/
theorem Sound.after (hs : s.Sound) {a : Action C} (hh : ∀ h ∈ a.handles, s.Has h) :
    (s.after a).Sound := by
  cases a with
  | leaf column op => exact hs.alloc fun c hc => by cases hc
  | junction kind children => exact hs.alloc hh
  | joined kind children => exact hs.joined kind hh
  | share h | find h path => exact hs
  | copy h => exact (hs.plant (s.tree h)).sound
  | add h path added | addWith h path added implicit =>
    exact hs.edited fun s' he => hs.add (hh added (by simp [Action.handles])) he
  | replace h path source =>
    exact hs.edited fun s' he => hs.replace (hh h (by simp [Action.handles])) he
  | remove h path => exact hs.edited fun s' he => hs.remove he
  | normalize h => exact hs.normalize h
  | compile c input =>
    rw [Store.after]
    split
    · rename_i f _
      cases f.expression with
      | none => exact hs
      | some e => exact (hs.plant e).sound
    · exact hs
  | reconstruct h modifiers =>
    cases h with
    | none => exact hs
    | some h => exact hs.normalize h

/-- Every run makes a sound store. -/
theorem Reachable.sound (hr : s.Reachable) : s.Sound := by
  induction hr with
  | empty => exact Sound.empty
  | step _ a hh ih => exact ih.after hh

/-- A leaf alone in an `or`, which stands beside nothing in an `and`, and both
of these again in an `or`. -/
def shared : Store Column :=
  ((((empty.after (.leaf (.plain "tt" "name") ⟨.eq, .string "x", by decide⟩)).after
    (.junction .or [⟨0⟩])).after (.junction .or [])).after (.junction .and [⟨1⟩, ⟨2⟩])).after
    (.junction .or [⟨1⟩, ⟨3⟩])

theorem reachable_shared : shared.Reachable :=
  .step (.step (.step (.step (.step .empty _ (by decide)) _ (by decide)) _ (by decide)) _
    (by decide)) _ (by decide)

end Store
end QueryFilter
