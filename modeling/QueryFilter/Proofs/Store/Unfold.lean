/-
# Following children to the end

In a sound store every way down ends, within as many steps as there are nodes.
The rank of a node, the number of nodes below it, goes down with every step
and is less than the number of nodes; so fuel for every node is fuel enough.
With that the functions that follow children have the equations that one
expects of them: the view of a node is the expression of its content
(`Sound.tree_eq`), and a node contains what it reaches (`Sound.contains_iff`).

Key definitions: `Store.Ranked`, `Store.rank`, `Store.unfold`.
Key theorems: `Store.Sound.induction`, `Store.Sound.tree_eq`,
`Store.Sound.contains_iff`.
-/
import Mathlib.Data.Finset.Card
import Mathlib.Data.Finset.Filter
import Mathlib.Data.Finset.Range
import QueryFilter.Proofs.Store.Below

namespace QueryFilter
namespace Store

variable {C : Type} {s : Store C} {r : Handle → Nat} {h p q c : Handle} {n : Node C}

/-! ### Ranks -/

/-- A measure that goes down from a node to its children. -/
def Ranked (s : Store C) (r : Handle → Nat) : Prop := ∀ p c, s.Child p c → r c < r p

open Classical in
/-- The nodes below a node, by their places. -/
noncomputable def below (s : Store C) (h : Handle) : Finset Nat :=
  (Finset.range s.size).filter fun i => s.Below h ⟨i⟩

/-- The number of nodes below a node. -/
noncomputable def rank (s : Store C) (h : Handle) : Nat := (s.below h).card

theorem mem_below {i : Nat} : i ∈ s.below h ↔ s.Has ⟨i⟩ ∧ s.Below h ⟨i⟩ := by
  simp only [below, Finset.mem_filter, Finset.mem_range, Has]

theorem below_subset (s : Store C) (h : Handle) : s.below h ⊆ Finset.range s.size := fun _ hi =>
  Finset.mem_range.mpr (mem_below.mp hi).1

theorem Sound.ranked (hs : s.Sound) : s.Ranked s.rank := by
  intro p c hc
  have hsub : s.below c ⊆ s.below p := fun i hi => by
    obtain ⟨hi, hb⟩ := mem_below.mp hi
    exact mem_below.mpr ⟨hi, .head hc hb⟩
  refine Finset.card_lt_card ((Finset.ssubset_iff_of_subset hsub).mpr ⟨c.index, ?_, fun hmem => ?_⟩)
  · exact mem_below.mpr ⟨hs.closed p c hc, .single hc⟩
  · exact hs.acyclic c (mem_below.mp hmem).2

theorem rank_le_size (s : Store C) (h : Handle) : s.rank h ≤ s.size := by
  have := Finset.card_le_card (s.below_subset h)
  rwa [Finset.card_range] at this

theorem Sound.rank_lt_size (hs : s.Sound) (hh : s.Has h) : s.rank h < s.size := by
  have hlt := Finset.card_lt_card ((Finset.ssubset_iff_of_subset (s.below_subset h)).mpr
    ⟨h.index, Finset.mem_range.mpr hh, fun hmem => hs.acyclic h (mem_below.mp hmem).2⟩)
  rwa [Finset.card_range] at hlt

theorem Ranked.lt_of_below (hr : s.Ranked r) (hb : s.Below p q) : r q < r p := by
  induction hb with
  | single hc => exact hr p _ hc
  | tail _ hc ih => exact Nat.lt_trans (hr _ _ hc) ih

/-- Overwriting a node with nodes from below it keeps a measure. -/
theorem Ranked.overwrite_below (hr : s.Ranked r) (hn : ∀ c ∈ n.children, s.Below h c) :
    (s.overwrite h n).Ranked r := by
  intro p c hc
  by_cases hp : h = p
  · rw [← hp] at hc ⊢
    have hh : s.Has h := has_overwrite.mp hc.has_left
    exact hr.lt_of_below (hn c ((child_overwrite_self hh).mp hc))
  · exact hr p c ((child_overwrite_of_ne hp).mp hc)

/-- What holds of a node if it holds of its children holds of every node. -/
@[elab_as_elim]
theorem Sound.induction (hs : s.Sound) {motive : Handle → Prop}
    (step : ∀ p, (∀ c ∈ s.children p, motive c) → motive p) (p : Handle) : motive p := by
  have hbound : ∀ m p, s.rank p < m → motive p := by
    intro m
    induction m with
    | zero =>
      intro p hp
      omega
    | succ m ih =>
      intro p hp
      refine step p fun c hc => ih c ?_
      have := hs.ranked p c hc
      omega
  exact hbound (s.rank p + 1) p (by omega)

/-! ### The view of a node -/

/-- The expression of a node of which the children stand for theirs. -/
def unfold (s : Store C) : Node C → Expr C
  | .leaf column op => .leaf column op
  | .junction kind children => .junction kind (children.map s.tree)

/-- More fuel than the rank is enough. -/
theorem treeWithin_eq (hr : s.Ranked r) : ∀ {fuel fuel' : Nat} {h : Handle},
    r h < fuel → r h < fuel' → s.treeWithin fuel h = s.treeWithin fuel' h
  | fuel + 1, fuel' + 1, h, hf, hf' => by
    rw [treeWithin, treeWithin]
    split
    · rfl
    · rename_i kind children hn
      congr 1
      refine List.map_congr_left fun c hc => ?_
      have := hr h c (child_of_mem hn hc)
      exact treeWithin_eq hr (by omega) (by omega)
    · rfl

/-- **The view.** In a sound store a handle stands for the expression of its node. -/
theorem Sound.tree_eq (hs : s.Sound) (hn : s.node? h = some n) : s.tree h = s.unfold n := by
  have hh := hs.rank_lt_size (has_iff.mpr ⟨n, hn⟩)
  obtain ⟨k, hk⟩ : ∃ k, s.size = k + 1 := ⟨s.size - 1, by omega⟩
  rw [tree, hk, treeWithin, hn]
  cases n with
  | leaf column op => rfl
  | junction kind children =>
    simp only [unfold]
    congr 1
    refine List.map_congr_left fun c hc => ?_
    have := hs.ranked h c (child_of_mem hn hc)
    exact treeWithin_eq hs.ranked (by omega) (by omega)

theorem tree_of_not_has (hh : ¬ s.Has h) : s.tree h = .junction .and [] := by
  rw [tree]
  cases s.size with
  | zero => rfl
  | succ k => rw [treeWithin, node?_eq_none hh]

/-- A junction of nothing stands for a junction of nothing. -/
theorem Sound.isEmpty_tree (hs : s.Sound) (hh : s.Has h) : (s.tree h).isEmpty = s.isEmpty h := by
  obtain ⟨n, hn⟩ := has_iff.mp hh
  rw [hs.tree_eq hn, isEmpty, hn]
  cases n with
  | leaf column op => rfl
  | junction kind children =>
    rw [unfold, Expr.isEmpty]
    cases children <;> rfl

/-! ### What a node contains -/

theorem containsWithin_iff (hr : s.Ranked r) : ∀ {fuel : Nat} {h : Handle}, r h ≤ fuel →
    (s.containsWithin q fuel h = true ↔ s.Reaches h q)
  | 0, h, hf => by
    have hleaf : ∀ c, ¬ s.Child h c := fun c hc => by
      have := hr h c hc
      omega
    rw [containsWithin, decide_eq_true_eq]
    constructor
    · rintro rfl
      exact .refl
    · intro hreach
      rcases Relation.ReflTransGen.cases_head hreach with hq | ⟨c, hc, -⟩
      · exact hq
      · exact absurd hc (hleaf c)
  | fuel + 1, h, hf => by
    rw [containsWithin, Bool.or_eq_true, decide_eq_true_eq, List.any_eq_true]
    constructor
    · rintro (rfl | ⟨c, hc, hq⟩)
      · exact .refl
      · have := hr h c hc
        exact .head hc ((containsWithin_iff hr (by omega)).mp hq)
    · intro hreach
      rcases Relation.ReflTransGen.cases_head hreach with hq | ⟨c, hc, hq⟩
      · exact Or.inl hq
      · have := hr h c hc
        exact Or.inr ⟨c, hc, (containsWithin_iff hr (by omega)).mpr hq⟩

/-- **Containment.** In a sound store a node contains what it reaches. -/
theorem Sound.contains_iff (hs : s.Sound) : s.contains h q = true ↔ s.Reaches h q :=
  containsWithin_iff hs.ranked (rank_le_size s h)

end Store
end QueryFilter
