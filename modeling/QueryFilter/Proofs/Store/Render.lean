/-
# Normalizing in place is not seen

A reading of expressions that cannot tell a junction from the settled one
(`Expr.Reading`) reads the same at every handle of a store before and after any
of its nodes is normalized, whatever nodes are shared
(`Sound.reading_normalize`). The predicate of a backend is such a reading.

Key theorems: `Store.Sound.reading_normalize`, `Store.Reachable.render_normalize`.
-/
import QueryFilter.Backend.Transcript
import QueryFilter.Proofs.Expr.Reading
import QueryFilter.Proofs.Store.Run

namespace QueryFilter
namespace Store

variable {C P Q β : Type} {s : Store C} {h : Handle} {n : Node C} {f : Expr C → β}

theorem reading_unfold {s' : Store C} (hf : Expr.Compositional f)
    (hc : ∀ c ∈ n.children, f (s'.tree c) = f (s.tree c)) : f (s'.unfold n) = f (s.unfold n) := by
  cases n with
  | leaf column op => rfl
  | junction kind children =>
    refine hf.members ?_
    rw [List.map_map, List.map_map]
    exact List.map_congr_left hc

/-- **One node.** If a node is overwritten with content that reads the same, then
every handle reads the same: the node's own, those above it, and all others. -/
theorem Sound.reading_overwrite (hs : s.Sound) (hf : Expr.Compositional f)
    (hs' : (s.overwrite h n).Sound) (hn : f (s.unfold n) = f (s.tree h)) (p : Handle) :
    f ((s.overwrite h n).tree p) = f (s.tree p) := by
  induction p using hs'.induction with
  | step p ih =>
    cases hp : s.node? p with
    | none =>
      have hnot : ¬ s.Has p := not_has_of_node? hp
      rw [tree_of_not_has hnot, tree_of_not_has fun hh => hnot (has_overwrite.mp hh)]
    | some m =>
      have hh : s.Has p := has_iff.mpr ⟨m, hp⟩
      by_cases hpq : h = p
      · subst hpq
        have hself := node?_overwrite_self s h n hh
        rw [children_eq hself] at ih
        rw [hs'.tree_eq hself, reading_unfold hf ih, hn]
      · have hother := (node?_overwrite_of_ne s n hpq).trans hp
        rw [children_eq hother] at ih
        rw [hs'.tree_eq hother, reading_unfold hf ih, hs.tree_eq hp]

/-- Settling one node is not seen at any handle. -/
theorem Sound.reading_settle (hs : s.Sound) (hf : Expr.Reading f) (h p : Handle) :
    f ((s.settle h).tree p) = f (s.tree p) := by
  rcases hs.settle_cases h with he | ⟨n, he, hbelow, kind, es, htree, hunfold⟩
  · rw [he]
  · rw [he]
    refine hs.reading_overwrite hf.toCompositional (hs.overwrite_below hbelow) ?_ p
    rw [hunfold, htree, hf.settle]

/-- Normalizing a node is not seen at any handle. -/
theorem Sound.reading_normalize (hs : s.Sound) (hf : Expr.Reading f) (h p : Handle) :
    f ((s.normalize h).tree p) = f (s.tree p) := by
  have hstep : ∀ (s' : Store C) (h : Handle),
      s'.Sound ∧ (∀ p, f (s'.tree p) = f (s.tree p)) →
      (s'.settle h).Sound ∧ ∀ p, f ((s'.settle h).tree p) = f (s.tree p) := by
    rintro s' h ⟨hs', hsame⟩
    exact ⟨hs'.settle h, fun p => by rw [hs'.reading_settle hf h p, hsame p]⟩
  exact (normalizeWithin_keeps hstep s.size h ⟨hs, fun _ => rfl⟩).2 p

variable [ColumnRef C]

/-- **Normalizing is not seen by a backend.** On every reachable store and for
every node that is normalized, each handle has the very predicate that it had
before, and none if it had none. -/
theorem Reachable.render_normalize (hr : s.Reachable) (b : Backend C P Q) (n p : Handle) :
    ((s.normalize n).tree p).render b = (s.tree p).render b :=
  hr.sound.reading_normalize (Expr.reading_render b) n p

theorem render_normalize_shared :
    shared.Reachable ∧ ((shared.normalize ⟨3⟩).tree ⟨4⟩).render Transcript.backend =
      (shared.tree ⟨4⟩).render Transcript.backend :=
  ⟨reachable_shared, reachable_shared.render_normalize Transcript.backend ⟨3⟩ ⟨4⟩⟩

end Store
end QueryFilter
