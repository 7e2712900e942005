/-
# Copies share nothing

A copy is made of new nodes, which lead to new nodes only. So the nodes of the copy and
those from before it are two sets of nodes, and no node outside one of them leads into it
(`Store.Secluded`). An operation that is given no node of such a set, except to look at
it, writes to none of them and puts none below another node
(`Store.Sound.spares_after`). That goes on over runs of any length (`Store.Run.spares`):
the copy never sees what is done elsewhere, and what is done with the copy is never seen
elsewhere.

Key definitions: `Store.Secluded`, `Store.Spares`, `Store.Action.touched`, `Store.Run`.
Key theorems: `Store.Sound.reached_plant`, `Store.Sound.secluded_copy`,
`Store.Sound.spares_after`, `Store.Run.spares`, `Store.Reachable.copy_independent`.
-/
import QueryFilter.Proofs.Store.Frame

namespace QueryFilter
namespace Store

variable {C : Type} {s s' s'' : Store C} {F : Handle → Prop} {h p q x target added : Handle}
  {n : Node C}

/-! ### Sets of nodes that are left alone -/

/-- A set of nodes of the store into which no other node leads. -/
structure Secluded (s : Store C) (F : Handle → Prop) : Prop where
  has : ∀ h, F h → s.Has h
  apart : ∀ p c, s.Child p c → F c → F p

/-- A change that leaves a set of nodes as they are, and no other node leading into it. -/
structure Spares (F : Handle → Prop) (s s' : Store C) : Prop where
  secluded : s'.Secluded F
  kept : ∀ h, F h → s'.node? h = s.node? h

theorem Secluded.not_of_reaches (hf : s.Secluded F) (hp : ¬ F p) (hr : s.Reaches p q) : ¬ F q := by
  induction hr with
  | refl => exact hp
  | tail _ hc ih => exact fun hq => ih (hf.apart _ _ hc hq)

namespace Spares

theorem refl (hf : s.Secluded F) : Spares F s s := ⟨hf, fun _ _ => rfl⟩

theorem trans (hone : Spares F s s') (htwo : Spares F s' s'') : Spares F s s'' :=
  ⟨htwo.secluded, fun h hh => (htwo.kept h hh).trans (hone.kept h hh)⟩

/-- A node that reaches nothing outside the set stands for what it stood for, and it
reaches what it reached. -/
theorem tree_eq (hspares : Spares F s s') (hs : s.Sound) (hs' : s'.Sound)
    (hF : ∀ q, s.Reaches p q → F q) :
    s'.tree p = s.tree p ∧ ∀ q, s'.Reaches p q ↔ s.Reaches p q := by
  have hchild : ∀ {q c}, s.Reaches p q → (s'.Child q c ↔ s.Child q c) := fun {q c} hq => by
    rw [Child, Child, children_of_node?_eq (hspares.kept q (hF q hq))]
  refine ⟨hs.tree_congr hs' fun q hq => hspares.kept q (hF q hq), fun q => ⟨fun hr => ?_, fun hr => ?_⟩⟩
  · induction hr with
    | refl => exact .refl
    | tail _ hc ih => exact .tail ih ((hchild ih).mp hc)
  · induction hr with
    | refl => exact .refl
    | tail hr hc ih => exact .tail ih ((hchild hr).mpr hc)

end Spares

/-! ### The nodes of a copy -/

/-- A new node over all nodes that are new since a store reaches all of them. -/
theorem reaches_alloc_self (hall : ∀ q, s'.Has q → ¬ s.Has q → ∃ c ∈ n.children, s'.Reaches c q)
    (hq : (s'.alloc n).1.Has q) (hnew : ¬ s.Has q) :
    (s'.alloc n).1.Reaches (s'.alloc n).2 q := by
  have hkept : ∀ p c, s'.Child p c → (s'.alloc n).1.Child p c := fun p c hc =>
    child_alloc.mpr (Or.inl hc)
  rcases has_alloc.mp hq with hq | rfl
  · obtain ⟨c, hc, hr⟩ := hall q hq hnew
    exact .head (child_of_mem (node?_alloc_self s' n) hc)
      (Relation.ReflTransGen.mono hkept _ _ hr)
  · exact .refl

mutual

/-- All new nodes made for an expression are below its own node. -/
theorem Sound.reached_graft : ∀ (e : Expr C) {s : Store C}, s.Sound → ∀ q, (s.graft e).1.Has q →
    ¬ s.Has q → ∃ c ∈ (s.graft e).2.children, (s.graft e).1.Reaches c q
  | .leaf _ _, _, _, _, hq, hnew => absurd hq hnew
  | .junction _ children, _, hs, q, hq, hnew => hs.reached_graftAll children q hq hnew

theorem Sound.reached_graftAll : ∀ (es : List (Expr C)) {s : Store C}, s.Sound → ∀ q,
    (s.graftAll es).1.Has q → ¬ s.Has q → ∃ c ∈ (s.graftAll es).2, (s.graftAll es).1.Reaches c q
  | [], _, _, _, hq, hnew => absurd hq hnew
  | e :: rest, s, hs, q, hq, hnew => by
    have hfirst : Grafted s (s.plant e).1 [(s.plant e).2] := hs.plant e
    have hmore := hfirst.sound.graftAll rest
    rw [graftAll_cons] at hq ⊢
    by_cases hp : (s.plant e).1.Has q
    · have hself : (s.plant e).1.Has (s.plant e).2 := hfirst.has _ (List.mem_singleton_self _)
      refine ⟨(s.plant e).2, List.mem_cons_self, (hmore.grown.reaches_iff hfirst.sound hself).mpr ?_⟩
      exact reaches_alloc_self (hs.reached_graft e) hp hnew
    · obtain ⟨c, hc, hr⟩ := hfirst.sound.reached_graftAll rest q hq hp
      exact ⟨c, List.mem_cons_of_mem _ hc, hr⟩

end

/-- **New nodes.** What an expression is planted as reaches all nodes made for it. -/
theorem Sound.reached_plant (hs : s.Sound) (e : Expr C) (hq : (s.plant e).1.Has q)
    (hnew : ¬ s.Has q) : (s.plant e).1.Reaches (s.plant e).2 q :=
  reaches_alloc_self (hs.reached_graft e) hq hnew

/-- A copy reaches new nodes only. -/
theorem Sound.not_has_of_reaches_copy (hs : s.Sound)
    (hr : (s.copy x).1.Reaches (s.copy x).2 q) : ¬ s.Has q := by
  have hplant := hs.plant (s.tree x)
  have hle : s.size ≤ q.index :=
    hplant.grown.le_of_reaches (hplant.new _ (List.mem_singleton_self _)) hr
  rw [Has]
  omega

/-- Into the nodes of a copy no other node leads: it reaches all new nodes, and the others
lead to nodes from before. -/
theorem Sound.secluded_copy (hs : s.Sound) (x : Handle) :
    (s.copy x).1.Secluded ((s.copy x).1.Reaches (s.copy x).2) where
  has q hr := by
    have hplant := hs.plant (s.tree x)
    exact hplant.sound.has_of_reaches (hplant.has _ (List.mem_singleton_self _)) hr
  apart p c hc hr := by
    refine hs.reached_plant (s.tree x) hc.has_left fun hp => ?_
    have hold : s.Child p c := ((hs.plant (s.tree x)).grown.child_iff hp).mp hc
    exact hs.not_has_of_reaches_copy hr (hs.closed p c hold)

/-- Into the nodes from before no new node leads. -/
theorem Grown.secluded (hg : Grown s s') : s'.Secluded s.Has where
  has _ hh := hg.has hh
  apart p c hc hh := by
    by_contra hp
    have hle : s.size ≤ c.index := hg.apart p c hc (by rw [Has] at hp; omega)
    rw [Has] at hh
    omega

/-! ### Changes elsewhere -/

namespace Secluded

/-- A new node is outside, and it leads inside only if one of its children is there. -/
theorem alloc (hf : s.Secluded F) (hn : ∀ c ∈ n.children, ¬ F c) : Spares F s (s.alloc n).1 where
  secluded := by
    refine ⟨fun h hh => has_alloc.mpr (Or.inl (hf.has h hh)), fun p c hc hF => ?_⟩
    rcases child_alloc.mp hc with hc | ⟨-, hc⟩
    · exact hf.apart p c hc hF
    · exact absurd hF (hn c hc)
  kept h hh := node?_alloc_of_lt s n h (hf.has h hh)

theorem grown (hf : s.Secluded F) (hg : Grown s s') : Spares F s s' where
  secluded := by
    refine ⟨fun h hh => hg.has (hf.has h hh), fun p c hc hF => ?_⟩
    have hc' : s.Has c := hf.has c hF
    have hp : s.Has p := hg.secluded.apart p c hc hc'
    exact hf.apart p c ((hg.child_iff hp).mp hc) hF
  kept h hh := hg.kept h (hf.has h hh)

/-- A node outside may be overwritten with nodes outside. -/
theorem overwrite (hf : s.Secluded F) (hh : ¬ F h) (hn : ∀ c ∈ n.children, ¬ F c) :
    Spares F s (s.overwrite h n) where
  secluded := by
    refine ⟨fun p hp => has_overwrite.mpr (hf.has p hp), fun p c hc hF => ?_⟩
    by_cases hp : h = p
    · rw [← hp] at hc
      have hhas : s.Has h := has_overwrite.mp hc.has_left
      exact absurd hF (hn c ((child_overwrite_self hhas).mp hc))
    · exact hf.apart p c ((child_overwrite_of_ne hp).mp hc) hF
  kept p hp := node?_overwrite_of_ne s n fun he => hh (he ▸ hp)

theorem settle (hf : s.Secluded F) (hs : s.Sound) (hh : ¬ F h) : Spares F s (s.settle h) := by
  rcases hs.settle_cases h with he | ⟨n, he, hbelow, -⟩
  · rw [he]
    exact .refl hf
  · rw [he]
    exact hf.overwrite hh fun c hc => hf.not_of_reaches hh (hbelow c hc).to_reflTransGen

theorem normalize (hf : s.Secluded F) (hs : s.Sound) (hh : ¬ F h) : Spares F s (s.normalize h) := by
  have hdown : ∀ (s' : Store C) (p c : Handle), s'.Sound ∧ Spares F s s' → ¬ F p → s'.Child p c →
      ¬ F c := fun s' p c ⟨_, hspares⟩ hp hc hF => hp (hspares.secluded.apart p c hc hF)
  have hstep : ∀ (s' : Store C) (h : Handle), s'.Sound ∧ Spares F s s' → ¬ F h →
      (s'.settle h).Sound ∧ Spares F s (s'.settle h) := fun s' h ⟨hs', hspares⟩ hh =>
    ⟨hs'.settle h, hspares.trans (hspares.secluded.settle hs' hh)⟩
  exact (normalizeWithin_keeps_below hdown hstep s.size h ⟨hs, .refl hf⟩ hh).2

theorem attach (hf : s.Secluded F) {implicit : Junction} (ht : ¬ F target) (ha : ¬ F added) :
    Spares F s (s.attach target added implicit) := by
  unfold Store.attach
  split
  · rename_i kind children hn
    refine hf.overwrite ht fun c hc => ?_
    rcases List.mem_append.mp hc with hc | hc
    · exact fun hF => ht (hf.apart target c (child_of_mem hn hc) hF)
    · rwa [List.mem_singleton.mp hc]
  · rename_i column op hn
    have hone : Spares F s (s.alloc (.leaf column op)).1 := hf.alloc fun c hc => by cases hc
    refine hone.trans (hone.secluded.overwrite ht fun c hc => ?_)
    rcases List.mem_cons.mp hc with rfl | hc
    · exact fun hF => not_has_alloc s (.leaf column op) (hf.has _ hF)
    · rwa [List.mem_singleton.mp hc]
  · exact .refl hf

theorem detach (hf : s.Secluded F) (hp : ¬ F p) (q : Handle) : Spares F s (s.detach p q) := by
  unfold Store.detach
  split
  · rename_i kind children hn
    refine hf.overwrite hp fun c hc hF => hp (hf.apart p c (child_of_mem hn ?_) hF)
    exact List.mem_of_mem_erase hc
  · exact .refl hf

theorem joined (hf : s.Secluded F) (kind : Junction) {hs : List Handle} (hh : ∀ h ∈ hs, ¬ F h) :
    Spares F s (s.joined kind hs).1 := by
  match hs, hh with
  | [], _ => exact .refl hf
  | [_], _ => exact .refl hf
  | _ :: _ :: _, hh => exact hf.alloc hh

theorem edited (hf : s.Secluded F) {result : Except FilterError (Store C)}
    (h : ∀ s', result = .ok s' → Spares F s s') : Spares F s (s.edited result) := by
  cases result with
  | error err => exact .refl hf
  | ok s' => exact h s' rfl

variable [ColumnRef C] {path : Path}

theorem add (hf : s.Secluded F) {implicit : Junction} (hh : ¬ F h) (ha : ¬ F added)
    (he : s.add h path added implicit = .ok s') : Spares F s s' := by
  obtain ⟨target, ht, -, rfl⟩ := add_eq_ok he
  exact hf.attach (hf.not_of_reaches hh (resolve_reaches ht)) ha

/-- What a node is replaced with may be inside: it is copied. -/
theorem replace (hf : s.Secluded F) (hs : s.Sound) {source : Handle} (hh : ¬ F h)
    (he : s.replace h path source = .ok s') : Spares F s s' := by
  obtain ⟨target, ht, rfl⟩ := replace_eq_ok he
  have hgraft := hs.graft (s.tree source)
  have hone : Spares F s (s.graft (s.tree source)).1 := hf.grown hgraft.grown
  refine hone.trans (hone.secluded.overwrite ?_ fun c hc hF => ?_)
  · exact hf.not_of_reaches hh (resolve_reaches ht)
  · have hlt : s.Has c := hf.has c hF
    have hle : s.size ≤ c.index := hgraft.new c hc
    rw [Has] at hlt
    omega

theorem remove (hf : s.Secluded F) (hh : ¬ F h) (he : s.remove h path = .ok s') :
    Spares F s s' := by
  obtain ⟨parent, target, hp, -, -, rfl⟩ := remove_eq_ok he
  exact hf.detach (hf.not_of_reaches hh (resolve_reaches hp)) target

end Secluded

/-! ### Runs elsewhere -/

/-- The handles that an operation is given to write to or to build on. What is copied,
searched or put in the place of a node is only looked at. -/
def Action.touched : Action C → List Handle
  | .leaf _ _ => []
  | .junction _ children => children
  | .joined _ children => children
  | .share _ => []
  | .copy _ => []
  | .find _ _ => []
  | .add h _ added => [h, added]
  | .addWith h _ added _ => [h, added]
  | .replace h _ _ => [h]
  | .remove h _ => [h]
  | .normalize h => [h]
  | .compile _ _ => []
  | .reconstruct h _ => h.toList

variable [ColumnRef C]

/-- The stores that runs of operations make from a store, of which each operation touches
only handles with a property. -/
inductive Run (P : Handle → Prop) (s : Store C) : Store C → Prop
  | refl : Run P s s
  | step {s' : Store C} (hr : Run P s s') (a : Action C) (hh : ∀ h ∈ a.handles, s'.Has h)
    (hP : ∀ h ∈ a.touched, P h) : Run P s (s'.after a)

/-- **One operation.** If it touches nothing inside a secluded set, it leaves the set as it
is. -/
theorem Sound.spares_after (hs : s.Sound) (hf : s.Secluded F) {a : Action C}
    (hh : ∀ h ∈ a.touched, ¬ F h) : Spares F s (s.after a) := by
  cases a with
  | leaf column op => exact hf.alloc fun c hc => by cases hc
  | junction kind children => exact hf.alloc hh
  | joined kind children => exact hf.joined kind hh
  | share h | find h path => exact .refl hf
  | copy h => exact hf.grown (hs.plant (s.tree h)).grown
  | add h path added | addWith h path added implicit =>
    exact hf.edited fun s' he =>
      hf.add (hh h (by simp [Action.touched])) (hh added (by simp [Action.touched])) he
  | replace h path source =>
    exact hf.edited fun s' he => hf.replace hs (hh h (by simp [Action.touched])) he
  | remove h path => exact hf.edited fun s' he => hf.remove (hh h (by simp [Action.touched])) he
  | normalize h => exact hf.normalize hs (hh h (by simp [Action.touched]))
  | compile c input =>
    rw [Store.after]
    split
    · rename_i f _
      cases f.expression with
      | none => exact .refl hf
      | some e => exact hf.grown (hs.plant e).grown
    · exact .refl hf
  | reconstruct h modifiers =>
    cases h with
    | none => exact .refl hf
    | some h => exact hf.normalize hs (hh h (by simp [Action.touched]))

/-- **Runs.** A run that touches nothing inside a secluded set leaves the set as it is. -/
theorem Run.spares {P : Handle → Prop} (hr : Run P s s') (hs : s.Sound) (hf : s.Secluded F)
    (hP : ∀ h, P h → ¬ F h) : s'.Sound ∧ Spares F s s' := by
  induction hr with
  | refl => exact ⟨hs, .refl hf⟩
  | step _ a hh htouched ih =>
    obtain ⟨hs', hspares⟩ := ih
    have hnone : ∀ h ∈ a.touched, ¬ F h := fun h hm => hP h (htouched h hm)
    exact ⟨hs'.after hh, hspares.trans (hs'.spares_after hspares.secluded hnone)⟩

/-- **Copies are independent for ever.** A copy stands for what it is a copy of, and no
handle from before reaches a node of it. After every run of operations that touches none
of its nodes it stands for that still, and reaches the same nodes; it may be looked at
all the while, and copied into other expressions. And after every run that touches no node
from before the copy, each handle from before stands for what it stood for; nodes that
are reached from the copy, or from nodes made later, are never among those from before. -/
theorem Reachable.copy_independent (hr : s.Reachable) (x : Handle) :
    (s.copy x).1.tree (s.copy x).2 = s.tree x ∧
    (∀ q, (s.copy x).1.Reaches (s.copy x).2 q → ∀ h, s.Has h → ¬ (s.copy x).1.Reaches h q) ∧
    (∀ s', Run (fun h => ¬ (s.copy x).1.Reaches (s.copy x).2 h) (s.copy x).1 s' →
      s'.tree (s.copy x).2 = s.tree x ∧
        ∀ q, s'.Reaches (s.copy x).2 q ↔ (s.copy x).1.Reaches (s.copy x).2 q) ∧
    ∀ s', Run (fun h => ¬ s.Has h) (s.copy x).1 s' →
      (∀ h, s.Has h → s'.tree h = s.tree h) ∧ ∀ p q, ¬ s.Has p → s'.Reaches p q → ¬ s.Has q := by
  have hs : s.Sound := hr.sound
  have hplant := hs.plant (s.tree x)
  have htree : (s.copy x).1.tree (s.copy x).2 = s.tree x := hs.tree_copy x
  refine ⟨htree, fun q hq h hh hreach => ?_, fun s' hrun => ?_, fun s' hrun => ?_⟩
  · have hold : s.Reaches h q := (hplant.grown.reaches_iff hs hh).mp hreach
    exact hs.not_has_of_reaches_copy hq (hs.has_of_reaches hh hold)
  · obtain ⟨hs', hspares⟩ := hrun.spares hplant.sound (hs.secluded_copy x) fun _ hh => hh
    rw [← htree]
    exact hspares.tree_eq hplant.sound hs' fun _ hq => hq
  · obtain ⟨hs', hspares⟩ := hrun.spares hplant.sound hplant.grown.secluded fun _ hh => hh
    refine ⟨fun h hh => ?_, fun p q hp hreach => hspares.secluded.not_of_reaches hp hreach⟩
    have hbelow : ∀ q, (s.copy x).1.Reaches h q → s.Has q := fun q hq =>
      hs.has_of_reaches hh ((hplant.grown.reaches_iff hs hh).mp hq)
    exact (hspares.tree_eq hplant.sound hs' hbelow).1.trans (hplant.grown.tree_eq hs hplant.sound hh)

/-- `shared` with a copy of its `and`. -/
def sharedAndCopy : Store Column := (shared.copy ⟨3⟩).1

/-- What stands for the copy is put below another node and that is normalized; then the
copy is added to and replaced with a node from before. -/
theorem copy_independent_shared :
    shared.Reachable ∧ (shared.copy ⟨3⟩).2 = ⟨8⟩ ∧
    ((sharedAndCopy.after (.replace ⟨4⟩ ⟨["or"]⟩ ⟨8⟩)).after (.normalize ⟨4⟩)).tree ⟨8⟩ =
      shared.tree ⟨3⟩ ∧
    ((sharedAndCopy.after (.add ⟨8⟩ ⟨["or"]⟩ ⟨7⟩)).after (.replace ⟨8⟩ .root ⟨4⟩)).tree ⟨4⟩ =
      shared.tree ⟨4⟩ := by
  obtain ⟨-, -, hcopy, hbefore⟩ := reachable_shared.copy_independent ⟨3⟩
  have hs : sharedAndCopy.Sound := (reachable_shared.sound.plant (shared.tree ⟨3⟩)).sound
  have houtside : ¬ sharedAndCopy.Reaches ⟨8⟩ ⟨4⟩ := fun hr => by
    have hcontains : sharedAndCopy.contains ⟨8⟩ ⟨4⟩ = true := hs.contains_iff.mpr hr
    revert hcontains
    decide
  have hfour : ∀ h ∈ [(⟨4⟩ : Handle)], ¬ sharedAndCopy.Reaches ⟨8⟩ h := fun h hh => by
    rwa [List.mem_singleton.mp hh]
  refine ⟨reachable_shared, rfl, (hcopy _ ?_).1, (hbefore _ ?_).1 ⟨4⟩ (by decide)⟩
  · exact .step (.step .refl (.replace ⟨4⟩ ⟨["or"]⟩ ⟨8⟩) (by decide) hfour)
      (.normalize ⟨4⟩) (by decide) hfour
  · exact .step (.step .refl (.add ⟨8⟩ ⟨["or"]⟩ ⟨7⟩) (by decide) (by decide))
      (.replace ⟨8⟩ .root ⟨4⟩) (by decide) (by decide)

end Store
end QueryFilter
