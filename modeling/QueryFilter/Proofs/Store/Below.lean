/-
# Nodes below nodes

The children of nodes make a graph. A store is sound if its children are in
the store and no node is below itself. Making a node of nodes that are there
keeps a store sound, and so does overwriting a node with children from which
it is not reached (`Sound.alloc`, `Sound.overwrite`); all edits are made of
these two. A store grows if the new nodes lead to new nodes only
(`Store.Grown`): then nothing is seen of them from the nodes before.

Key definitions: `Store.Child`, `Store.Below`, `Store.Reaches`, `Store.Sound`,
`Store.Grown`.
Key theorems: `Store.Sound.alloc`, `Store.Sound.overwrite`,
`Store.Sound.plant`.
-/
import Mathlib.Logic.Relation
import QueryFilter.Store.Normalize

namespace QueryFilter
namespace Store

variable {C : Type} {s s' s'' : Store C} {h p q c : Handle} {n : Node C}

/-- Whether a handle has a node in the store. -/
def Has (s : Store C) (h : Handle) : Prop := h.index < s.size

instance : Decidable (s.Has h) := inferInstanceAs (Decidable (h.index < s.size))

/-- Whether the second node is a child of the first. -/
def Child (s : Store C) (p c : Handle) : Prop := c ∈ s.children p

instance : Decidable (s.Child p c) := inferInstanceAs (Decidable (c ∈ s.children p))

/-- Whether the second node is below the first. -/
def Below (s : Store C) : Handle → Handle → Prop := Relation.TransGen s.Child

/-- Whether the second node is the first or below it. -/
def Reaches (s : Store C) : Handle → Handle → Prop := Relation.ReflTransGen s.Child

/-- No node is below itself. -/
def Acyclic (s : Store C) : Prop := ∀ h, ¬ s.Below h h

/-- All children are in the store, and no node is below itself. -/
structure Sound (s : Store C) : Prop where
  closed : ∀ p c, s.Child p c → s.Has c
  acyclic : s.Acyclic

/-! ### Nodes and children after an edit -/

theorem has_iff : s.Has h ↔ ∃ n, s.node? h = some n := by
  unfold Has size node?
  rw [← Option.isSome_iff_exists, getElem?_def]
  split <;> simp_all

theorem node?_eq_none (hs : ¬ s.Has h) : s.node? h = none := by
  cases hn : s.node? h with
  | none => rfl
  | some n => exact absurd (has_iff.mpr ⟨n, hn⟩) hs

theorem not_has_of_node? (hn : s.node? h = none) : ¬ s.Has h := fun hh => by
  obtain ⟨n, hn'⟩ := has_iff.mp hh
  rw [hn] at hn'
  cases hn'

theorem children_eq (hn : s.node? h = some n) : s.children h = n.children := by
  rw [children, hn]

theorem child_of_mem (hn : s.node? p = some n) (hc : c ∈ n.children) : s.Child p c := by
  rwa [Child, children_eq hn]

theorem children_of_node?_eq (hn : s'.node? h = s.node? h) : s'.children h = s.children h := by
  rw [children, children, hn]

theorem Child.has_left (hc : s.Child p c) : s.Has p := by
  by_cases hp : s.Has p
  · exact hp
  · rw [Child, children, node?_eq_none hp] at hc
    cases hc

theorem size_alloc (s : Store C) (n : Node C) : (s.alloc n).1.size = s.size + 1 := by
  simp [alloc, size]

theorem index_alloc (s : Store C) (n : Node C) : (s.alloc n).2.index = s.size := rfl

theorem has_alloc : (s.alloc n).1.Has p ↔ s.Has p ∨ p = (s.alloc n).2 := by
  have hself : p = (s.alloc n).2 ↔ p.index = s.size :=
    ⟨fun hp => hp ▸ index_alloc s n, fun hp => by cases p; rw [alloc, ← hp]⟩
  rw [Has, Has, size_alloc, hself]
  omega

theorem not_has_alloc (s : Store C) (n : Node C) : ¬ s.Has (s.alloc n).2 := by
  rw [Has, index_alloc]
  omega

/-- A new node has its own children, and all others keep theirs. -/
theorem child_alloc :
    (s.alloc n).1.Child p c ↔ s.Child p c ∨ (p = (s.alloc n).2 ∧ c ∈ n.children) := by
  by_cases hp : s.Has p
  · have hne : p ≠ (s.alloc n).2 := fun he => not_has_alloc s n (he ▸ hp)
    simp only [hne, false_and, or_false]
    rw [Child, Child, children_of_node?_eq (node?_alloc_of_lt s n p hp)]
  · have hold : ¬ s.Child p c := fun hc => hp hc.has_left
    simp only [hold, false_or]
    constructor
    · intro hc
      obtain hp' | rfl := has_alloc.mp hc.has_left
      · exact absurd hp' hp
      · exact ⟨rfl, by rwa [Child, children_eq (node?_alloc_self s n)] at hc⟩
    · rintro ⟨rfl, hc⟩
      rwa [Child, children_eq (node?_alloc_self s n)]

theorem has_overwrite : (s.overwrite h n).Has p ↔ s.Has p := by
  rw [Has, Has, size_overwrite]

/-- A handle without a node has nothing to overwrite. -/
theorem overwrite_of_not_has (hs : ¬ s.Has h) (n : Node C) : s.overwrite h n = s := by
  unfold overwrite
  rw [Array.setIfInBounds_eq_of_size_le (by rw [Has, size] at hs; omega)]

theorem child_overwrite_self (hs : s.Has h) : (s.overwrite h n).Child h c ↔ c ∈ n.children := by
  rw [Child, children_eq (node?_overwrite_self s h n hs)]

theorem child_overwrite_of_ne (hne : h ≠ p) : (s.overwrite h n).Child p c ↔ s.Child p c := by
  rw [Child, Child, children_of_node?_eq (node?_overwrite_of_ne s n hne)]

/-! ### Reaching -/

theorem Child.below (hc : s.Child p c) : s.Below p c := Relation.TransGen.single hc

theorem Sound.has_of_reaches (hs : s.Sound) (hp : s.Has p) (hr : s.Reaches p q) : s.Has q := by
  rcases Relation.ReflTransGen.cases_tail hr with rfl | ⟨x, -, hx⟩
  · exact hp
  · exact hs.closed x q hx

/-! ### Growing -/

/-- The store with new nodes, which only lead to new nodes. -/
structure Grown (s s' : Store C) : Prop where
  size_le : s.size ≤ s'.size
  kept : ∀ h, s.Has h → s'.node? h = s.node? h
  apart : ∀ p c, s'.Child p c → s.size ≤ p.index → s.size ≤ c.index

namespace Grown

theorem refl (s : Store C) : Grown s s where
  size_le := Nat.le_refl _
  kept _ _ := rfl
  apart p c hc hp := by
    have := hc.has_left
    rw [Has] at this
    omega

theorem has (hg : Grown s s') (hh : s.Has h) : s'.Has h := Nat.lt_of_lt_of_le hh hg.size_le

theorem child_iff (hg : Grown s s') (hp : s.Has p) : s'.Child p c ↔ s.Child p c := by
  rw [Child, Child, children_of_node?_eq (hg.kept p hp)]

theorem trans (hg : Grown s s') (hg' : Grown s' s'') : Grown s s'' where
  size_le := Nat.le_trans hg.size_le hg'.size_le
  kept h hh := by rw [hg'.kept h (hg.has hh), hg.kept h hh]
  apart p c hc hp := by
    by_cases hp' : s'.Has p
    · exact hg.apart p c ((hg'.child_iff hp').mp hc) hp
    · have := hg'.apart p c hc (by rw [Has] at hp'; omega)
      have := hg.size_le
      omega

/-- What is reached from a node that was there was reached before. -/
theorem reaches_iff (hg : Grown s s') (hs : s.Sound) (hp : s.Has p) :
    s'.Reaches p q ↔ s.Reaches p q := by
  constructor
  · intro hr
    induction hr with
    | refl => exact .refl
    | tail _ hc ih => exact .tail ih ((hg.child_iff (hs.has_of_reaches hp ih)).mp hc)
  · intro hr
    induction hr with
    | refl => exact .refl
    | tail hr hc ih => exact .tail ih ((hg.child_iff (hs.has_of_reaches hp hr)).mpr hc)

/-- A new node reaches new nodes only. -/
theorem le_of_reaches (hg : Grown s s') (hp : s.size ≤ p.index) (hr : s'.Reaches p q) :
    s.size ≤ q.index := by
  induction hr with
  | refl => exact hp
  | tail _ hc ih => exact hg.apart _ _ hc ih

end Grown

/-- A new node of new nodes makes a store grow. -/
theorem Grown.alloc (hg : Grown s s') (hn : ∀ c ∈ n.children, s.size ≤ c.index) :
    Grown s (s'.alloc n).1 where
  size_le := by
    rw [size_alloc]
    have := hg.size_le
    omega
  kept h hh := by rw [node?_alloc_of_lt s' n h (hg.has hh), hg.kept h hh]
  apart p c hc hp := by
    obtain hc | ⟨-, hc⟩ := child_alloc.mp hc
    · exact hg.apart p c hc hp
    · exact hn c hc

/-! ### Sound stores -/

theorem Sound.empty : (Store.empty : Store C).Sound where
  closed p c hc := by
    have := hc.has_left
    cases this
  acyclic h hb := by
    obtain ⟨c, hc, -⟩ := Relation.TransGen.head'_iff.mp hb
    cases hc.has_left

/-- A new node is a child of none. -/
theorem Sound.alloc (hs : s.Sound) (hn : ∀ c ∈ n.children, s.Has c) : (s.alloc n).1.Sound := by
  have hchild : ∀ {p c}, (s.alloc n).1.Child p c → s.Has c := by
    intro p c hc
    obtain hc | ⟨-, hc⟩ := child_alloc.mp hc
    · exact hs.closed p c hc
    · exact hn c hc
  have hold : ∀ {p c}, s.Has p → (s.alloc n).1.Child p c → s.Child p c := by
    intro p c hp hc
    obtain hc | ⟨rfl, -⟩ := child_alloc.mp hc
    · exact hc
    · exact absurd hp (not_has_alloc s n)
  have hbelow : ∀ {p q}, s.Has p → (s.alloc n).1.Below p q → s.Below p q := by
    intro p q hp hb
    induction hb with
    | single hc => exact .single (hold hp hc)
    | tail hb hc ih =>
      obtain ⟨x, -, hx⟩ := Relation.TransGen.tail'_iff.mp hb
      exact .tail ih (hold (hchild hx) hc)
  refine ⟨fun p c hc => has_alloc.mpr (Or.inl (hchild hc)), fun h hb => ?_⟩
  obtain ⟨x, -, hx⟩ := Relation.TransGen.tail'_iff.mp hb
  exact hs.acyclic h (hbelow (hchild hx) hb)

/-- What leads to the overwritten node led to it before. -/
theorem reaches_of_reaches_overwrite (hr : (s.overwrite h n).Reaches p h) : s.Reaches p h := by
  induction hr using Relation.ReflTransGen.head_induction_on with
  | refl => exact .refl
  | @head x y hc _ ih =>
    by_cases hx : h = x
    · rw [← hx]
      exact .refl
    · exact .head ((child_overwrite_of_ne hx).mp hc) ih

/-- What is below a node was below it before, or is below the overwritten node
on the way. -/
theorem below_overwrite (hb : (s.overwrite h n).Below p q) :
    s.Below p q ∨ ((s.overwrite h n).Reaches p h ∧ (s.overwrite h n).Below h q) := by
  induction hb using Relation.TransGen.head_induction_on with
  | @single x hc =>
    by_cases hx : h = x
    · rw [← hx] at hc ⊢
      exact Or.inr ⟨.refl, .single hc⟩
    · exact Or.inl (.single ((child_overwrite_of_ne hx).mp hc))
  | @head x y hc hb ih =>
    by_cases hx : h = x
    · rw [← hx] at hc ⊢
      exact Or.inr ⟨.refl, .head hc hb⟩
    · rcases ih with ih | ⟨hr, hb'⟩
      · exact Or.inl (.head ((child_overwrite_of_ne hx).mp hc) ih)
      · exact Or.inr ⟨.head hc hr, hb'⟩

/-- **Overwriting.** A node may be overwritten with children that are in the
store and do not lead to it. -/
theorem Sound.overwrite (hs : s.Sound) (hn : ∀ c ∈ n.children, s.Has c ∧ ¬ s.Reaches c h) :
    (s.overwrite h n).Sound := by
  by_cases hh : s.Has h
  · refine ⟨fun p c hc => ?_, fun x hb => ?_⟩
    · rw [has_overwrite]
      by_cases hp : h = p
      · exact (hn c ((child_overwrite_self hh).mp (hp ▸ hc))).1
      · exact hs.closed p c ((child_overwrite_of_ne hp).mp hc)
    · rcases below_overwrite hb with hb | ⟨hr, hb⟩
      · exact hs.acyclic x hb
      · obtain ⟨c, hc, hcx⟩ := Relation.TransGen.head'_iff.mp hb
        exact (hn c ((child_overwrite_self hh).mp hc)).2
          (reaches_of_reaches_overwrite (hcx.trans hr))
  · rw [overwrite_of_not_has hh]
    exact hs

end Store
end QueryFilter
