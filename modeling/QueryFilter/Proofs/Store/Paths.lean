/-
# Paths step by step

A path whose segments all name junctions leads where their kinds lead
(`Store.find_of_junctions`), and one more segment selects a child of the node
reached there (`Store.find_concat`). So a path goes on from where its first
segments lead (`Store.find_append`), and the node at a path is a child of the
node at its parent path.

Key theorems: `Store.descend_append`, `Store.find_concat`,
`Store.find_of_junctions`, `Store.find_append`, `Store.child_of_find`.
-/
import Mathlib.Data.List.Basic
import QueryFilter.Proofs.Store.Below
import QueryFilter.Store.Find

namespace QueryFilter

theorem Path.junctions_concat {segments : List String} {last : String} {kinds : List Junction}
    (h : Path.junctions (segments ++ [last]) = .ok kinds) :
    ∃ first kind, Path.junctions segments = .ok first ∧ Junction.ofName? last = some kind ∧
      kinds = first ++ [kind] := by
  induction segments generalizing kinds with
  | nil =>
    rw [List.nil_append, Path.junctions] at h
    cases hk : Junction.ofName? last with
    | none => rw [hk] at h; cases h
    | some kind => rw [hk] at h; cases h; exact ⟨[], kind, rfl, rfl, rfl⟩
  | cons segment rest ih =>
    rw [List.cons_append, Path.junctions] at h
    cases hs : Junction.ofName? segment with
    | none => rw [hs] at h; cases h
    | some k =>
      rw [hs] at h
      obtain ⟨kinds', hr, rfl⟩ := Except.map_eq_ok.mp h
      obtain ⟨first, kind, hfirst, hkind, rfl⟩ := ih hr
      refine ⟨k :: first, kind, ?_, hkind, rfl⟩
      rw [Path.junctions, hs, hfirst]
      rfl

theorem Path.junctions_append {front : List String} {kinds : List Junction}
    (hfront : Path.junctions front = .ok kinds)
    (rest : List String) : Path.junctions (front ++ rest) = (Path.junctions rest).map (kinds ++ ·) := by
  induction front generalizing kinds with
  | nil =>
    cases hfront
    rw [List.nil_append]
    cases Path.junctions rest <;> rfl
  | cons segment front ih =>
    rw [Path.junctions] at hfront
    cases hs : Junction.ofName? segment with
    | none => rw [hs] at hfront; cases hfront
    | some kind =>
      rw [hs] at hfront
      obtain ⟨kinds', hk, rfl⟩ := Except.map_eq_ok.mp hfront
      rw [List.cons_append, Path.junctions, hs]
      dsimp only
      rw [ih hk]
      cases Path.junctions rest <;> rfl

namespace Store

variable {C : Type} {s : Store C} {h p t : Handle}

theorem descend_append (s : Store C) : ∀ (h : Handle) (kinds kinds' : List Junction),
    s.descend h (kinds ++ kinds') = (s.descend h kinds).bind fun p => s.descend p kinds'
  | _, [], _ => rfl
  | h, kind :: rest, kinds' => by
    rw [List.cons_append, descend, descend, Option.bind_assoc]
    congr 1
    exact funext fun c => descend_append s c rest kinds'

variable [ColumnRef C] {path : Path}

/-- A segment that names a junction selects the first child of that kind. -/
theorem select_of_junction {segment : String} {kind : Junction}
    (hk : Junction.ofName? segment = some kind) : s.select p segment = s.descend p [kind] := by
  have hparse : Selector.parse segment = .junction kind := by rw [Selector.parse, hk]
  have hsame : s.isSelected (.junction kind) = fun c => decide (s.kind? c = some kind) := by
    funext c
    rw [isSelected, kind?]
    cases s.node? c with
    | none => simp
    | some n => cases n <;> simp [Node.kind?, Selector.matchesLeaf, eq_comm]
  rw [select, hparse, hsame, descend]
  cases (s.children p).find? fun c => decide (s.kind? c = some kind) <;> rfl

/-- One more segment selects a child of the node that the others lead to. -/
theorem find_concat (segments : List String) (last : String) :
    s.find h ⟨segments ++ [last]⟩ = (Path.junctions segments).bind fun kinds =>
      .ok ((s.descend h kinds).bind fun p => s.select p last) := by
  rw [find, List.getLast?_concat, Path.parent]
  simp only [List.dropLast_concat]
  rfl

/-- Segments that all name junctions lead where their kinds lead. -/
theorem find_of_junctions {segments : List String} {kinds : List Junction}
    (hk : Path.junctions segments = .ok kinds) :
    s.find h ⟨segments⟩ = .ok (s.descend h kinds) := by
  rcases List.eq_nil_or_concat' segments with rfl | ⟨front, last, rfl⟩
  · cases hk
    rfl
  · obtain ⟨first, kind, hfirst, hkind, rfl⟩ := Path.junctions_concat hk
    rw [find_concat, hfirst, descend_append]
    simp only [Except.bind, select_of_junction hkind]

/-- Behind segments that lead to a node, the others lead on from it. -/
theorem find_append {front : List String} {kinds : List Junction}
    (hk : Path.junctions front = .ok kinds) (hp : s.descend h kinds = some p)
    (segments : List String) : s.find h ⟨front ++ segments⟩ = s.find p ⟨segments⟩ := by
  rcases List.eq_nil_or_concat' segments with rfl | ⟨rest, last, rfl⟩
  · rw [List.append_nil, find_of_junctions hk, hp]
    rfl
  · rw [← List.append_assoc, find_concat, find_concat, Path.junctions_append hk]
    cases Path.junctions rest with
    | error err => rfl
    | ok kinds' => simp only [Except.map, Except.bind, descend_append, hp, Option.bind_some]

/-- The node at a path is a child of the node at its parent path. -/
theorem child_of_find (hne : path.isEmpty = false) (ht : s.find h path = .ok (some t)) :
    ∃ p, s.find h path.parent = .ok (some p) ∧ s.Child p t := by
  obtain ⟨segments⟩ := path
  rcases List.eq_nil_or_concat' segments with rfl | ⟨front, last, rfl⟩
  · cases hne
  · rw [find_concat] at ht
    obtain ⟨kinds, hk, ht⟩ := Except.bind_eq_ok.mp ht
    injection ht with ht
    obtain ⟨p, hp, hselect⟩ := Option.bind_eq_some_iff.mp ht
    refine ⟨p, ?_, List.mem_of_find?_eq_some hselect⟩
    rw [Path.parent, List.dropLast_concat, find_of_junctions hk, hp]

end Store
end QueryFilter
