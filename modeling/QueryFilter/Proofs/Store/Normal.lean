/-
# Normalizing in place computes the normal form

Normalizing a node settles the junctions below it, from the children up. A node
with several parents is met several times, and in between other nodes that lead
to it are half rewritten. What carries the result through is said of every
handle of the store (`Store.Normalizing`): its normal form is that of the start,
and a handle that stands for a normal expression is not changed again. So when
a node is settled its children are in normal form, in whatever order they were
met, and the node then stands for the normal form of what it stood for
(`Sound.tree_normalize`). A node in normal form is settled already, and nothing
is written when it is normalized once more (`Sound.normalize_of_isNormal`).

Key definitions: `Store.Normalizing`.
Key theorems: `Store.Sound.settle_of_isNormal`, `Store.Sound.settle_normalizing`,
`Store.Sound.normalizeWithin_normalizing`, `Store.Reachable.normalize_normalForm`.
-/
import QueryFilter.Proofs.Store.Frame
import QueryFilter.Proofs.Store.Render

namespace QueryFilter

/-- The normal form of a junction depends on that of its members. -/
theorem Expr.compositional_normalize {C : Type} : Compositional (normalize : Expr C → Expr C) where
  members {kind es es'} h := by rw [normalize_junction, normalize_junction, h]

namespace Store

variable {C : Type} {s s' s'' : Store C} {r : Handle → Nat} {h p q : Handle} {n : Node C}
  {kind : Junction} {children : List Handle} {level level' : Nat}

/-! ### Nodes in normal form -/

theorem isNormal_tree_of_not_has (hh : ¬ s.Has h) : (s.tree h).IsNormal := by
  rw [tree_of_not_has hh]
  exact Or.inr rfl

/-- The children of a node in normal form are full. -/
theorem Sound.full_child (hs : s.Sound) (hp : (s.tree p).IsNormal) (hc : s.Child p q) :
    (s.tree q).Full := by
  obtain ⟨n, hn⟩ := has_iff.mp hc.has_left
  rw [Child, children_eq hn] at hc
  rw [hs.tree_eq hn] at hp
  cases n with
  | leaf column op => cases hc
  | junction kind children =>
    rcases hp with hfull | hempty
    · exact (Expr.full_junction_iff.mp hfull).2 _ (List.mem_map_of_mem hc)
    · rw [List.map_eq_nil_iff.mp (List.isEmpty_iff.mp hempty)] at hc
      cases hc

/-- What is below a node in normal form is in normal form. -/
theorem Sound.isNormal_of_reaches (hs : s.Sound) (hp : (s.tree p).IsNormal)
    (hr : s.Reaches p q) : (s.tree q).IsNormal := by
  induction hr with
  | refl => exact hp
  | tail _ hc ih => exact Or.inl (hs.full_child ih hc)

theorem overwrite_self (hn : s.node? h = some n) : s.overwrite h n = s := by
  obtain ⟨hlt, hget⟩ := Array.getElem?_eq_some_iff.mp hn
  rw [overwrite, ← hget, Array.setIfInBounds_def, dif_pos hlt, Array.set_getElem_self]

/-- **Settled already.** A node in normal form is overwritten with its own content. -/
theorem Sound.settle_of_isNormal (hs : s.Sound) (hq : (s.tree q).IsNormal) : s.settle q = s := by
  by_cases hj : ∃ kind children, s.node? q = some (.junction kind children)
  · obtain ⟨kind, children, hn⟩ := hj
    have hall : children.filter (fun c => !s.isEmpty c) = children := by
      rw [List.filter_eq_self]
      intro c hc
      have hchild : s.Child q c := child_of_mem hn hc
      rw [← hs.isEmpty_tree (hs.closed q c hchild), Expr.isEmpty_of_full (hs.full_child hq hchild),
        Bool.not_false]
    rw [Store.settle, hn]
    dsimp only
    rw [hall]
    split
    · rename_i only
      -- a junction of one member would not be normal
      rw [hs.tree_eq hn] at hq
      rcases hq with hfull | hempty
      · have htwo : 2 ≤ ([only].map s.tree).length := (Expr.full_junction_iff.mp hfull).1
        rw [List.length_map, List.length_singleton] at htwo
        omega
      · cases hempty
    · exact overwrite_self hn
  · exact settle_of_not_junction fun kind children hn => hj ⟨kind, children, hn⟩

/-- Settling any node leaves handles in normal form as they are. -/
theorem Sound.tree_settle_of_isNormal (hs : s.Sound) (hp : (s.tree p).IsNormal) (q : Handle) :
    (s.settle q).tree p = s.tree p := by
  by_cases hr : s.Reaches p q
  · rw [hs.settle_of_isNormal (hs.isNormal_of_reaches hp hr)]
  · rcases hs.settle_cases q with he | ⟨n, he, -⟩
    · rw [he]
    · have hs' : (s.settle q).Sound := hs.settle q
      rw [he] at hs' ⊢
      refine hs.tree_congr hs' fun x hx => node?_overwrite_of_ne s n fun hqx => hr ?_
      rwa [hqx]

/-! ### A run that normalizes -/

/-- The invariant of a run that normalizes nodes of less than a level: every
handle has the normal form that it had, those in normal form stand for what they
stood for, and nodes from the level on keep their content. -/
structure Normalizing (s s' : Store C) (r : Handle → Nat) (level : Nat) : Prop
    extends Settling s s' r where
  reads : ∀ p, (s'.tree p).normalize = (s.tree p).normalize
  normal : ∀ p, (s.tree p).IsNormal → s'.tree p = s.tree p
  above : ∀ p, level ≤ r p → s'.node? p = s.node? p

namespace Normalizing

theorem refl (hs : s.Sound) (hr : s.Ranked r) (level : Nat) : Normalizing s s r level where
  sound := hs
  ranked := hr
  size_eq := rfl
  reads _ := rfl
  normal _ _ := rfl
  above _ _ := rfl

theorem trans (h₁ : Normalizing s s' r level) (h₂ : Normalizing s' s'' r level) :
    Normalizing s s'' r level where
  sound := h₂.sound
  ranked := h₂.ranked
  size_eq := h₂.size_eq.trans h₁.size_eq
  reads p := (h₂.reads p).trans (h₁.reads p)
  normal p hp := by
    have hsame : s'.tree p = s.tree p := h₁.normal p hp
    rw [h₂.normal p (hsame ▸ hp), hsame]
  above p hp := (h₂.above p hp).trans (h₁.above p hp)

theorem mono (hn : Normalizing s s' r level) (hle : level ≤ level') :
    Normalizing s s' r level' where
  toSettling := hn.toSettling
  reads := hn.reads
  normal := hn.normal
  above p hp := hn.above p (Nat.le_trans hle hp)

/-- Nodes normalized one after the other are all in normal form in the end. -/
theorem foldl {f : Store C → Handle → Store C}
    (hf : ∀ {s : Store C} {c : Handle}, s.Sound → s.Ranked r → r c < level →
      Normalizing s (f s c) r level ∧ ((f s c).tree c).IsNormal) :
    ∀ (cs : List Handle) {s : Store C}, s.Sound → s.Ranked r → (∀ c ∈ cs, r c < level) →
      Normalizing s (cs.foldl f s) r level ∧ ∀ c ∈ cs, ((cs.foldl f s).tree c).IsNormal
  | [], _, hs, hr, _ => ⟨.refl hs hr level, fun _ hc => by cases hc⟩
  | c :: rest, s, hs, hr, hcs => by
    obtain ⟨hc, hrest⟩ := List.forall_mem_cons.mp hcs
    obtain ⟨hfirst, hnormal⟩ := hf hs hr hc
    obtain ⟨hmore, hall⟩ := foldl hf rest hfirst.sound hfirst.ranked hrest
    refine ⟨hfirst.trans hmore, List.forall_mem_cons.mpr ⟨?_, hall⟩⟩
    rw [List.foldl_cons, hmore.normal c hnormal]
    exact hnormal

end Normalizing

/-- **One node.** A junction of nodes in normal form is in normal form when it is
settled, and no other content is written. -/
theorem Sound.settle_normalizing (hs : s.Sound) (hr : s.Ranked r)
    (hn : s.node? h = some (.junction kind children))
    (hall : ∀ c ∈ children, (s.tree c).IsNormal) :
    Normalizing s (s.settle h) r (r h + 1) ∧ ((s.settle h).tree h).IsNormal := by
  have hsettling : Settling s (s.settle h) r := Settling.settle ⟨hs, hr, rfl⟩ h
  have hmembers : ∀ e ∈ children.map s.tree, e.IsNormal := fun e he => by
    obtain ⟨c, hc, rfl⟩ := List.mem_map.mp he
    exact hall c hc
  obtain ⟨n, he, hbelow, hunfold⟩ := hs.settle_junction hn
  have hself : (s.settle h).tree h = Expr.settle kind (children.map s.tree) := by
    have hapart : ∀ c ∈ n.children, s.Has c ∧ ¬ s.Reaches c h := fun c hc =>
      hs.below_apart (hbelow c hc)
    rw [he, (hs.rewrites_overwrite (has_iff.mpr ⟨_, hn⟩) hapart).tree_self, hunfold]
  refine ⟨⟨hsettling, fun p => ?_, fun p hp => hs.tree_settle_of_isNormal hp h, fun p hp => ?_⟩, ?_⟩
  · have hsame : (s.unfold n).normalize = (s.tree h).normalize := by
      rw [hunfold, Expr.normalize_settle hmembers, hs.tree_eq hn, unfold]
    rw [he]
    exact hs.reading_overwrite Expr.compositional_normalize (hs.overwrite_below hbelow) hsame p
  · have hne : h ≠ p := fun heq => by
      rw [heq] at hp
      omega
    rw [he, node?_overwrite_of_ne s n hne]
  · rw [hself]
    exact Expr.isNormal_settle hmembers

/-- **The run.** Normalizing a node within any measure that goes down from nodes to
their children brings it into normal form. -/
theorem Sound.normalizeWithin_normalizing : ∀ {fuel : Nat} {s : Store C} {h : Handle},
    s.Sound → s.Ranked r → r h < fuel →
    Normalizing s (normalizeWithin fuel s h) r (r h + 1) ∧
      ((normalizeWithin fuel s h).tree h).IsNormal
  | fuel + 1, s, h, hs, hr, hfuel => by
    rw [normalizeWithin]
    cases hn : s.node? h with
    | none => exact ⟨.refl hs hr _, isNormal_tree_of_not_has (not_has_of_node? hn)⟩
    | some n =>
      cases n with
      | leaf column op =>
        dsimp only
        rw [hs.tree_eq hn]
        exact ⟨.refl hs hr _, Or.inl trivial⟩
      | junction kind children =>
        have hstep : ∀ {s : Store C} {c : Handle}, s.Sound → s.Ranked r → r c < r h →
            Normalizing s (normalizeWithin fuel s c) r (r h) ∧
              ((normalizeWithin fuel s c).tree c).IsNormal := by
          intro s c hs hr hc
          have hlt : r c < fuel := by omega
          obtain ⟨hrun, hnormal⟩ := normalizeWithin_normalizing hs hr hlt
          exact ⟨hrun.mono hc, hnormal⟩
        obtain ⟨hrun, hall⟩ := Normalizing.foldl hstep children hs hr fun c hc =>
          hr h c (child_of_mem hn hc)
        -- the children are below the level of their parent, which is still as it was
        have hself := (hrun.above h (Nat.le_refl _)).trans hn
        obtain ⟨hlast, hnormal⟩ := hrun.sound.settle_normalizing hrun.ranked hself hall
        exact ⟨(hrun.mono (Nat.le_succ _)).trans hlast, hnormal⟩

/-! ### Normalizing once more -/

theorem Sound.normalizeWithin_of_isNormal (hs : s.Sound) : ∀ (fuel : Nat) {h : Handle},
    (s.tree h).IsNormal → normalizeWithin fuel s h = s
  | 0, _, _ => rfl
  | fuel + 1, h, hh => by
    rw [normalizeWithin]
    split
    · rename_i kind children hn
      have hall : ∀ cs : List Handle, (∀ c ∈ cs, s.Child h c) →
          cs.foldl (normalizeWithin fuel) s = s := by
        intro cs
        induction cs with
        | nil => exact fun _ => rfl
        | cons c rest ih =>
          intro hcs
          obtain ⟨hc, hrest⟩ := List.forall_mem_cons.mp hcs
          rw [List.foldl_cons, hs.normalizeWithin_of_isNormal fuel (Or.inl (hs.full_child hh hc)),
            ih hrest]
      rw [hall children fun c hc => child_of_mem hn hc, hs.settle_of_isNormal hh]
    · rfl

/-- Normalizing a node in normal form writes nothing. -/
theorem Sound.normalize_of_isNormal (hs : s.Sound) (hh : (s.tree h).IsNormal) :
    s.normalize h = s :=
  hs.normalizeWithin_of_isNormal s.size hh

/-- After normalizing a node, it stands for the normal form of what it stood for. -/
theorem Sound.tree_normalize (hs : s.Sound) (h : Handle) :
    (s.normalize h).tree h = (s.tree h).normalize := by
  by_cases hh : s.Has h
  · obtain ⟨hrun, hnormal⟩ := Sound.normalizeWithin_normalizing hs hs.ranked (hs.rank_lt_size hh)
    rw [← hrun.reads h]
    exact (Expr.normalize_of_isNormal hnormal).symm
  · have hnormal : (s.tree h).IsNormal := isNormal_tree_of_not_has hh
    rw [hs.normalize_of_isNormal hnormal, Expr.normalize_of_isNormal hnormal]

variable [ColumnRef C]

/-- **Normalizing computes the normal form.** On a reachable store, whatever nodes
are shared, a normalized node stands for the normal form of what it stood for,
as does a normalized copy of it, which shares nothing. That is a leaf, a
junction with at least two members at every level, or an empty junction, and it
is empty if there was no leaf. Normalizing the node again changes no node. -/
theorem Reachable.normalize_normalForm (hr : s.Reachable) (n : Handle) :
    (s.normalize n).tree n = (s.tree n).normalize ∧
    ((s.copy n).1.normalize (s.copy n).2).tree (s.copy n).2 = (s.normalize n).tree n ∧
    ((s.normalize n).tree n).IsNormal ∧
    (((s.normalize n).tree n).isEmpty = true ↔ (s.tree n).leaves = []) ∧
    (s.normalize n).normalize n = s.normalize n := by
  have hs : s.Sound := hr.sound
  have htree : (s.normalize n).tree n = (s.tree n).normalize := hs.tree_normalize n
  have hnormal : ((s.normalize n).tree n).IsNormal := by
    rw [htree]
    exact Expr.isNormal_normalize (s.tree n)
  refine ⟨htree, ?_, hnormal, ?_, (hs.normalize n).normalize_of_isNormal hnormal⟩
  · have hcopy : (s.copy n).1.Sound := (hs.plant (s.tree n)).sound
    rw [hcopy.tree_normalize (s.copy n).2, hs.tree_copy n, htree]
  · rw [htree]
    exact Expr.isEmpty_normalize_iff

theorem normalize_normalForm_shared :
    shared.Reachable ∧ (shared.normalize ⟨4⟩).tree ⟨4⟩ = (shared.tree ⟨4⟩).normalize ∧
      (shared.normalize ⟨4⟩).normalize ⟨4⟩ = shared.normalize ⟨4⟩ := by
  obtain ⟨htree, -, -, -, hagain⟩ := reachable_shared.normalize_normalForm ⟨4⟩
  exact ⟨reachable_shared, htree, hagain⟩

end Store
end QueryFilter
