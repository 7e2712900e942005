/-
# Where finding goes and what removing takes

Whether a path is one that leads anywhere is seen from the path alone: finding fails if and
only if a segment before the last names no junction (`Store.find_eq_error_iff`). Behind
segments that all name junctions it goes on from the node they lead to, and if they lead
to none there is none behind them (`Store.find_append_of_absent`).

Removing looks for the parent and for the node apart. It looks twice for one thing: the
parent is the node whose children the last segment selects from, so that the node is
always among them (`Store.remove_eq_ok_iff`), and one entry for it goes
(`Store.Detached`).

Key definitions: `Store.Detached`.
Key theorems: `Path.junctions_eq_ok_iff`, `Store.find_eq_error_iff`,
`Store.find_append_of_absent`, `Store.remove_eq_ok_iff`, `Store.detached_of_remove`,
`Store.find_and_remove`.
-/
import QueryFilter.Proofs.Store.Paths
import QueryFilter.Proofs.Store.Run

namespace QueryFilter

/-! ### Segments that name junctions -/

namespace Path

variable {segments : List String}

theorem junctions_eq_ok_iff : (∃ kinds, junctions segments = .ok kinds) ↔
    ∀ segment ∈ segments, Junction.isName segment = true := by
  induction segments with
  | nil => exact iff_of_true ⟨[], rfl⟩ (List.forall_mem_nil _)
  | cons segment rest ih =>
    rw [List.forall_mem_cons, ← ih, junctions, Junction.isName]
    cases Junction.ofName? segment with
    | none =>
      refine iff_of_false ?_ fun h => by cases h.1
      rintro ⟨_, ⟨⟩⟩
    | some kind =>
      constructor
      · rintro ⟨_, h⟩
        obtain ⟨kinds, h, -⟩ := Except.map_eq_ok.mp h
        exact ⟨rfl, kinds, h⟩
      · rintro ⟨-, kinds, h⟩
        exact ⟨kind :: kinds, by rw [h]; rfl⟩

theorem junctions_eq_error_iff : (∃ err, junctions segments = .error err) ↔
    ∃ segment ∈ segments, Junction.isName segment = false := by
  have hnot : (∃ segment ∈ segments, Junction.isName segment = false) ↔
      ¬ ∃ kinds, junctions segments = .ok kinds := by
    simp [junctions_eq_ok_iff]
  rw [hnot]
  cases junctions segments <;> simp

end Path

namespace Store

variable {C : Type} {s s' : Store C} {h p t : Handle}

/-- The second store is the first with one entry of a junction taken away, the first one
that is the node. -/
structure Detached (s s' : Store C) (parent target : Handle) : Prop where
  entry : ∃ kind before after,
    s.node? parent = some (.junction kind (before ++ target :: after)) ∧ target ∉ before ∧
      s'.node? parent = some (.junction kind (before ++ after))
  others : ∀ q, q ≠ parent → s'.node? q = s.node? q
  size_eq : s'.size = s.size

/-- A child that is taken away is gone from the list of its parent. -/
theorem detached_of_child (hc : s.Child p t) : Detached s (s.detach p t) p t := by
  cases hn : s.node? p with
  | none =>
    rw [Child, children, hn] at hc
    cases hc
  | some n =>
    rw [Child, children_eq hn] at hc
    cases n with
    | leaf column op => cases hc
    | junction kind children =>
      obtain ⟨before, after, hfirst, hsplit, herase⟩ := List.exists_erase_eq hc
      have hp : p.index < s.size := has_iff.mpr ⟨_, hn⟩
      have hdetach : s.detach p t = s.overwrite p (.junction kind (before ++ after)) := by
        rw [detach, hn]
        exact congrArg (fun children' => s.overwrite p (.junction kind children')) herase
      have hsplit : children = before ++ t :: after := hsplit
      refine ⟨⟨kind, before, after, by rw [hn, hsplit], hfirst, ?_⟩, fun q hq => ?_, ?_⟩
      · rw [hdetach, node?_overwrite_self s p _ hp]
      · rw [hdetach, node?_overwrite_of_ne s _ hq.symm]
      · rw [hdetach, size_overwrite]

variable [ColumnRef C] {path : Path}

/-- Whether finding fails is seen from the path, whatever the nodes are. -/
theorem find_eq_error_iff : (∃ err, s.find h path = .error err) ↔
    ∃ segment ∈ path.parent.segments, Junction.isName segment = false := by
  obtain ⟨segments⟩ := path
  rcases List.eq_nil_or_concat' segments with rfl | ⟨front, last, rfl⟩
  · exact iff_of_false (fun ⟨_, h⟩ => (by cases h)) (fun ⟨_, hmem, _⟩ => (by cases hmem))
  · have hparent : (Path.mk (front ++ [last])).parent.segments = front := List.dropLast_concat
    rw [hparent, ← Path.junctions_eq_error_iff, find_concat]
    cases Path.junctions front with
    | error err => exact iff_of_true ⟨err, rfl⟩ ⟨err, rfl⟩
    | ok kinds => exact iff_of_false (fun ⟨_, h⟩ => (by cases h)) (fun ⟨_, h⟩ => (by cases h))

/-- Behind segments that lead to no node there is none. -/
theorem find_append_of_absent {front : List String} {kinds : List Junction}
    (hk : Path.junctions front = .ok kinds) (hp : s.descend h kinds = none)
    {rest : List String} (hrest : ∀ segment ∈ rest.dropLast, Junction.isName segment = true) :
    s.find h ⟨front ++ rest⟩ = .ok none := by
  rcases List.eq_nil_or_concat' rest with rfl | ⟨between, last, rfl⟩
  · rw [List.append_nil, find_of_junctions hk, hp]
  · rw [List.dropLast_concat] at hrest
    obtain ⟨kinds', hk'⟩ := Path.junctions_eq_ok_iff.mpr hrest
    rw [← List.append_assoc, find_concat, Path.junctions_append hk, hk']
    simp only [Except.map, Except.bind, descend_append, hp, Option.bind_none]

theorem remove_of_find (hne : path.isEmpty = false) (hp : s.find h path.parent = .ok (some p))
    (ht : s.find h path = .ok (some t)) : s.remove h path = .ok (s.detach p t) := by
  rw [remove, hne, resolve_eq_ok.mpr hp, resolve_eq_ok.mpr ht]
  rfl

/-- What is found can be removed, and nothing else but the start of the path. -/
theorem remove_eq_ok_iff : (∃ s', s.remove h path = .ok s') ↔
    path.isEmpty = false ∧ ∃ t, s.find h path = .ok (some t) := by
  refine ⟨fun ⟨s', he⟩ => ?_, fun ⟨hne, t, ht⟩ => ?_⟩
  · obtain ⟨-, t, -, ht, hne, -⟩ := remove_eq_ok he
    exact ⟨hne, t, resolve_eq_ok.mp ht⟩
  · obtain ⟨p, hp, -⟩ := child_of_find hne ht
    exact ⟨_, remove_of_find hne hp ht⟩

/-- Removing never leaves all as it was: the node is among the children of the parent. -/
theorem detached_of_remove (he : s.remove h path = .ok s') :
    ∃ p t, s.find h path.parent = .ok (some p) ∧ s.find h path = .ok (some t) ∧
      Detached s s' p t := by
  obtain ⟨p, t, hp, ht, hne, rfl⟩ := remove_eq_ok he
  have hp : s.find h path.parent = .ok (some p) := resolve_eq_ok.mp hp
  have ht : s.find h path = .ok (some t) := resolve_eq_ok.mp ht
  obtain ⟨p', hp', hchild⟩ := child_of_find hne ht
  obtain rfl : p' = p := by
    rw [hp] at hp'
    cases hp'
    rfl
  exact ⟨p', t, hp, ht, detached_of_child hchild⟩

/-- **Finding goes on from a junction, and removing takes what is found.** Whatever the
nodes are, from any of them: behind segments that name junctions a path goes on from the
node these lead to, and where they lead to none the path does not either, unless finding
fails. It fails exactly if a segment before the last names no junction. A path can be
removed exactly if it has a segment and leads to a node; then the first entry for this
node is gone from the junction that the parent path leads to, and all else is as it was. -/
theorem find_and_remove (s : Store C) (h : Handle) :
    (∀ front rest : List String, (∀ segment ∈ front, Junction.isName segment = true) →
      (∀ p, s.find h ⟨front⟩ = .ok (some p) → s.find h ⟨front ++ rest⟩ = s.find p ⟨rest⟩) ∧
      (s.find h ⟨front⟩ = .ok none →
        (∀ segment ∈ rest.dropLast, Junction.isName segment = true) →
        s.find h ⟨front ++ rest⟩ = .ok none)) ∧
    (∀ path : Path, (∃ err, s.find h path = .error err) ↔
      ∃ segment ∈ path.segments.dropLast, Junction.isName segment = false) ∧
    (∀ path : Path, (∃ s', s.remove h path = .ok s') ↔
      path.isEmpty = false ∧ ∃ t, s.find h path = .ok (some t)) ∧
    ∀ (path : Path) (s' : Store C), s.remove h path = .ok s' →
      ∃ p t, s.find h path.parent = .ok (some p) ∧ s.find h path = .ok (some t) ∧
        Detached s s' p t := by
  refine ⟨fun front rest hfront => ?_, fun _ => find_eq_error_iff, fun _ => remove_eq_ok_iff,
    fun _ _ => detached_of_remove⟩
  obtain ⟨kinds, hk⟩ := Path.junctions_eq_ok_iff.mpr hfront
  rw [find_of_junctions hk]
  refine ⟨fun p hp => ?_, fun hp hrest => ?_⟩
  · injection hp with hp
    exact find_append hk hp rest
  · injection hp with hp
    exact find_append_of_absent hk hp hrest

/-- An `and`, in an `or`, of one `or` twice and a leaf between. -/
def twice : Store Column :=
  (((empty.after (.leaf (.plain "tt" "age") ⟨.lt, .int 7, by decide⟩)).after
    (.junction .or [⟨0⟩])).after (.junction .and [⟨1⟩, ⟨0⟩, ⟨1⟩])).after (.junction .or [⟨2⟩])

theorem find_and_remove_twice :
    twice.find ⟨3⟩ ⟨["AND", "Or"] ++ ["age"]⟩ = twice.find ⟨1⟩ ⟨["age"]⟩ ∧
      twice.find ⟨3⟩ ⟨["or"] ++ ["and", "age"]⟩ = .ok none ∧
      (∃ err, twice.find ⟨3⟩ ⟨["or", "age", "and"]⟩ = .error err) ∧
      ∃ s', twice.remove ⟨3⟩ ⟨["AND", "Or"]⟩ = .ok s' ∧ Detached twice s' ⟨2⟩ ⟨1⟩ := by
  obtain ⟨hfind, herror, hremove, hdetached⟩ := find_and_remove twice ⟨3⟩
  obtain ⟨s', hs'⟩ := (hremove ⟨["AND", "Or"]⟩).mpr ⟨rfl, ⟨1⟩, rfl⟩
  obtain ⟨p, t, hp, ht, hone⟩ := hdetached _ _ hs'
  obtain rfl : p = ⟨2⟩ := by cases hp; rfl
  obtain rfl : t = ⟨1⟩ := by cases ht; rfl
  exact ⟨(hfind _ _ (by decide)).1 _ rfl, (hfind _ _ (by decide)).2 rfl (by decide),
    (herror _).mpr ⟨"age", by decide, by decide⟩, s', hs', hone⟩

end Store
end QueryFilter
