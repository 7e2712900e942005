/-
# Equality of shared expressions

Two handles are compared by their nodes first: a node equals itself without a look at its
content. Nodes that are not one are compared by content and child by child. On a leaf with a
NaN in it the two ways differ, as its content does not equal itself.

Seen from outside, two expressions agree at each position: there or above it both have one
node, or their contents are equal (`Sound.same_iff_agree`). What has one node at a position
has one node at every position below, since each part of an expression is what its node
stands for. So of two nodes that are shared, the lower one is shared by all three of a chain
of expressions, and equality is an equivalence (`Sound.same_equivalence`). Where every node
that is shared equals itself by its content too, it is equality of the expressions
(`Sound.same_eq_same_tree`): so it is without NaNs, and so it is between an expression and its
copy, which share nothing.

Key definitions: `Located.at?`, `Located.Alike`, `Located.SharedAt`, `Located.AgreeAt`,
`Node.Matches`, `Expr.NaNFree`.
Key theorems: `Store.Sound.same_iff`, `Store.Sound.same_iff_agree`,
`Store.Sound.same_equivalence`, `Store.Sound.same_eq_same_tree`,
`Store.Reachable.equality`.
-/
import Mathlib.Data.List.Forall2
import QueryFilter.Proofs.Expr.Leaves
import QueryFilter.Proofs.Store.Copies
import QueryFilter.Proofs.Value.Equality

namespace QueryFilter

variable {C : Type}

theorem Operator.same_iff {op op' : Operator} :
    (op == op') = true ↔ op.kind = op'.kind ∧ op.value.Equal op'.value := by
  show (decide (op.kind = op'.kind) && Value.same op.value op'.value) = true ↔ _
  rw [Bool.and_eq_true, decide_eq_true_iff, Value.same_iff_equal]

/-! ### Expressions that equal themselves -/

namespace Expr

/-- Whether there is no NaN in the values of the leaves. -/
def NaNFree (e : Expr C) : Prop := ∀ l ∈ e.leaves, l.2.value.hasNaN = false

theorem sameAll_iff [BEq C] : ∀ {es es' : List (Expr C)},
    sameAll es es' = true ↔ List.Forall₂ (fun e e' => same e e' = true) es es'
  | [], [] => by simp [sameAll]
  | [], _ :: _ => by simp [sameAll]
  | _ :: _, [] => by simp [sameAll]
  | e :: es, e' :: es' => by
    rw [sameAll, Bool.and_eq_true, List.forall₂_cons, sameAll_iff]

/-- An expression equals itself unless there is a NaN in a leaf. -/
theorem same_self_iff [BEq C] [ReflBEq C] (e : Expr C) : same e e = true ↔ e.NaNFree := by
  induction e using Expr.induction with
  | leaf column op =>
    have hop : (op == op) = true ↔ op.value.hasNaN = false := by
      rw [Operator.same_iff, ← Value.same_iff_equal, Value.same_self]
      simp
    simp [same, NaNFree, hop]
  | junction kind children ih =>
    have hmembers : List.Forall₂ (fun e e' => same e e' = true) children children ↔
        ∀ e ∈ children, same e e = true := List.forall₂_same
    rw [same, beq_self_eq_true, Bool.true_and, sameAll_iff, hmembers, NaNFree,
      forall_leaves_junction]
    exact forall₂_congr ih

end Expr

/-! ### Positions -/

namespace Located

/-- The node of an expression. -/
def node : Located C → Handle
  | .leaf node _ _ => node
  | .junction node _ _ => node

def children : Located C → List (Located C)
  | .leaf _ _ _ => []
  | .junction _ _ children => children

/-- The part at a position: the place of a member, the place of a member of this, and so on. -/
def at? : Located C → List Nat → Option (Located C)
  | l, [] => some l
  | l, i :: pos => l.children[i]?.bind fun c => at? c pos

theorem at?_append : ∀ (l : Located C) (p q : List Nat),
    l.at? (p ++ q) = (l.at? p).bind fun c => c.at? q
  | _, [], _ => rfl
  | l, i :: p, q => by
    rw [List.cons_append, at?, at?, Option.bind_assoc]
    exact congrArg (l.children[i]?.bind) (funext fun c => at?_append c p q)

/-- Whether two expressions have one node at a position. -/
def SharedAt (a b : Located C) (pos : List Nat) : Prop :=
  ∃ h, (a.at? pos).map node = some h ∧ (b.at? pos).map node = some h

theorem SharedAt.symm {a b : Located C} {pos : List Nat} (h : SharedAt a b pos) :
    SharedAt b a pos := by
  obtain ⟨h, ha, hb⟩ := h
  exact ⟨h, hb, ha⟩

variable [BEq C]

/-- Whether two parts have equal content: equal columns, comparisons and values, or junctions
of one kind with as many members, which have positions of their own. -/
def Alike : Located C → Located C → Prop
  | .leaf _ c op, .leaf _ c' op' => (c == c') = true ∧ op.kind = op'.kind ∧ op.value.Equal op'.value
  | .junction _ kind as, .junction _ kind' bs => kind = kind' ∧ as.length = bs.length
  | _, _ => False

/-- Whether two expressions agree at a position: they have one node there or above, or equal
content there, or neither has the position. -/
def AgreeAt (a b : Located C) (pos : List Nat) : Prop :=
  (∃ up, up <+: pos ∧ SharedAt a b up) ∨ Option.Rel Alike (a.at? pos) (b.at? pos)

theorem Alike.length_eq {a b : Located C} (h : Alike a b) :
    a.children.length = b.children.length := by
  cases a <;> cases b
  · rfl
  · exact h.elim
  · exact h.elim
  · exact h.2

variable [PartialEquivBEq C]

theorem Alike.symm {a b : Located C} (h : Alike a b) : Alike b a := by
  cases a <;> cases b
  · obtain ⟨hcolumn, hkind, hvalue⟩ := h
    exact ⟨PartialEquivBEq.symm hcolumn, hkind.symm, hvalue.symm⟩
  · exact h.elim
  · exact h.elim
  · exact ⟨h.1.symm, h.2.symm⟩

theorem Alike.trans {a b c : Located C} (hab : Alike a b) (hbc : Alike b c) : Alike a c := by
  cases b with
  | leaf _ _ _ =>
    cases a with
    | junction _ _ _ => exact hab.elim
    | leaf _ _ _ =>
      cases c with
      | junction _ _ _ => exact hbc.elim
      | leaf _ _ _ =>
        obtain ⟨hcolumn, hkind, hvalue⟩ := hab
        obtain ⟨hcolumn', hkind', hvalue'⟩ := hbc
        exact ⟨PartialEquivBEq.trans hcolumn hcolumn', hkind.trans hkind', hvalue.trans hvalue'⟩
  | junction _ _ _ =>
    cases a with
    | leaf _ _ _ => exact hab.elim
    | junction _ _ _ =>
      cases c with
      | leaf _ _ _ => exact hbc.elim
      | junction _ _ _ => exact ⟨hab.1.trans hbc.1, hab.2.trans hbc.2⟩

theorem rel_symm {a b : Option (Located C)} (h : Option.Rel Alike a b) : Option.Rel Alike b a := by
  cases h with
  | none => exact .none
  | some h => exact .some h.symm

theorem rel_trans {a b c : Option (Located C)} (hab : Option.Rel Alike a b)
    (hbc : Option.Rel Alike b c) : Option.Rel Alike a c := by
  cases hab with
  | none => exact hbc
  | some hab =>
    cases hbc with
    | some hbc => exact .some (hab.trans hbc)

theorem AgreeAt.symm {a b : Located C} {pos : List Nat} (h : AgreeAt a b pos) : AgreeAt b a pos := by
  rcases h with ⟨up, hup, hshared⟩ | h
  · exact .inl ⟨up, hup, hshared.symm⟩
  · exact .inr (rel_symm h)

end Located

namespace Node

variable [BEq C] {n m : Node C} {r r' : Handle → Handle → Prop}

/-- Whether two nodes have equal content, their children being compared by `r`. -/
def Matches (r : Handle → Handle → Prop) : Node C → Node C → Prop
  | .leaf c op, .leaf c' op' => (c == c') = true ∧ (op == op') = true
  | .junction kind as, .junction kind' bs => kind = kind' ∧ List.Forall₂ r as bs
  | _, _ => False

/-- The children are compared pair by pair, apart from the rest of the content. -/
theorem matches_iff : n.Matches r m ↔
    n.Matches (fun _ _ => True) m ∧ ∀ z ∈ n.children.zip m.children, r z.1 z.2 := by
  cases n with
  | leaf c op => cases m <;> simp [Matches, children]
  | junction kind as =>
    cases m with
    | leaf c op => simp [Matches]
    | junction kind' bs => simp [Matches, children, List.forall₂_iff_zip, and_assoc]

theorem matches_congr (h : ∀ z ∈ n.children.zip m.children, (r z.1 z.2 ↔ r' z.1 z.2)) :
    n.Matches r m ↔ n.Matches r' m := by
  rw [matches_iff, @matches_iff _ _ _ _ r']
  exact and_congr_right fun _ => forall₂_congr h

end Node

namespace Store

variable {s : Store C} {r : Handle → Nat} {a b c p q h : Handle} {pos up : List Nat}

/-! ### Parts and their nodes -/

theorem node_located (s : Store C) (h : Handle) : (s.located h).node = h := by
  unfold located
  cases s.size with
  | zero => rfl
  | succ fuel =>
    rw [locatedWithin]
    split <;> rfl

theorem Sound.children_located (hs : s.Sound) (h : Handle) :
    (s.located h).children = (s.children h).map s.located := by
  cases hn : s.node? h with
  | none =>
    have hleaf : (s.located h).children = [] := by
      unfold located
      cases s.size with
      | zero => rfl
      | succ fuel =>
        rw [locatedWithin, hn]
        rfl
    rw [hleaf, children, hn, List.map_nil]
  | some n =>
    rw [hs.located_eq hn, children_eq hn]
    cases n <;> rfl

/-- Each part of an expression is what its own node stands for. -/
theorem Sound.at?_located (hs : s.Sound) : ∀ {pos : List Nat} {h : Handle} {l : Located C},
    (s.located h).at? pos = some l → l = s.located l.node
  | [], h, l, hl => by
    cases hl
    rw [node_located]
  | i :: pos, h, l, hl => by
    rw [Located.at?, hs.children_located, List.getElem?_map] at hl
    obtain ⟨_, hc, hl⟩ := Option.bind_eq_some_iff.mp hl
    obtain ⟨c, -, rfl⟩ := Option.map_eq_some_iff.mp hc
    exact hs.at?_located hl

/-- Below a shared node all is shared. -/
theorem Sound.at?_eq_of_sharedAt (hs : s.Sound) (hshared : (s.located a).SharedAt (s.located b) up)
    (hup : up <+: pos) : (s.located a).at? pos = (s.located b).at? pos := by
  obtain ⟨h, ha, hb⟩ := hshared
  obtain ⟨la, hla, rfl⟩ := Option.map_eq_some_iff.mp ha
  obtain ⟨lb, hlb, hnode⟩ := Option.map_eq_some_iff.mp hb
  have hone : la = lb := by rw [hs.at?_located hla, hs.at?_located hlb, hnode]
  obtain ⟨down, rfl⟩ := hup
  rw [Located.at?_append, Located.at?_append, hla, hlb, hone]

theorem Sound.sharedAt_of_prefix (hs : s.Sound)
    (hshared : (s.located a).SharedAt (s.located b) up) (hup : up <+: pos)
    (hpos : (s.located b).SharedAt (s.located c) pos) : (s.located a).SharedAt (s.located c) pos := by
  obtain ⟨h, hb, hc⟩ := hpos
  exact ⟨h, by rw [hs.at?_eq_of_sharedAt hshared hup, hb], hc⟩

/-- What reaches a node has all its leaves. -/
theorem Sound.leaves_subset (hs : s.Sound) (hr : s.Reaches a h) :
    (s.tree h).leaves ⊆ (s.tree a).leaves := by
  induction hr with
  | refl => exact List.Subset.refl _
  | @tail p c hp hc ih =>
    obtain ⟨n, hn⟩ := has_iff.mp hc.has_left
    refine List.Subset.trans (fun l hl => ?_) ih
    rw [Child, children_eq hn] at hc
    rw [hs.tree_eq hn]
    cases n with
    | leaf column op => cases hc
    | junction kind children =>
      rw [unfold, Expr.leaves_junction, List.mem_flatMap]
      exact ⟨s.tree c, List.mem_map_of_mem hc, hl⟩

variable [BEq C]

/-- **Chains.** Of the positions at which two neighbours share a node one is above the other,
and at the lower one all three share it. -/
theorem Sound.agreeAt_trans [PartialEquivBEq C] (hs : s.Sound)
    (hab : (s.located a).AgreeAt (s.located b) pos)
    (hbc : (s.located b).AgreeAt (s.located c) pos) : (s.located a).AgreeAt (s.located c) pos := by
  rcases hab with ⟨up, hup, hab⟩ | hab
  · rcases hbc with ⟨up', hup', hbc⟩ | hbc
    · rcases List.prefix_or_prefix_of_prefix hup hup' with hle | hle
      · exact .inl ⟨up', hup', hs.sharedAt_of_prefix hab hle hbc⟩
      · exact .inl ⟨up, hup, (hs.sharedAt_of_prefix hbc.symm hle hab.symm).symm⟩
    · rw [← hs.at?_eq_of_sharedAt hab hup] at hbc
      exact .inr hbc
  · rcases hbc with ⟨up', hup', hbc⟩ | hbc
    · rw [hs.at?_eq_of_sharedAt hbc hup'] at hab
      exact .inr hab
    · exact .inr (Located.rel_trans hab hbc)

/-! ### The comparison -/

/-- More fuel than the rank is enough. -/
theorem sameWithin_eq (hr : s.Ranked r) : ∀ {fuel fuel' : Nat} {a b : Handle},
    r a < fuel → r a < fuel' → s.sameWithin fuel a b = s.sameWithin fuel' a b
  | fuel + 1, fuel' + 1, a, b, hf, hf' => by
    have hchildren : ∀ {kind as}, s.node? a = some (.junction kind as) → ∀ bs : List Handle,
        ((as.zip bs).all fun p => s.sameWithin fuel p.1 p.2) =
          (as.zip bs).all fun p => s.sameWithin fuel' p.1 p.2 := by
      intro kind as hn bs
      rw [Bool.eq_iff_iff, List.all_eq_true, List.all_eq_true]
      refine forall₂_congr fun p hp => ?_
      have hlt : r p.1 < r a := hr a p.1 (child_of_mem hn (List.of_mem_zip hp).1)
      have hpair : s.sameWithin fuel p.1 p.2 = s.sameWithin fuel' p.1 p.2 :=
        sameWithin_eq hr (by omega) (by omega)
      rw [hpair]
    rw [sameWithin, sameWithin]
    congr 1
    cases hn : s.node? a with
    | none => rfl
    | some n =>
      cases hm : s.node? b with
      | none => cases n <;> rfl
      | some m =>
        cases n with
        | leaf c op => cases m <;> rfl
        | junction kind as =>
          cases m with
          | leaf c op => rfl
          | junction kind' bs => simp only [hchildren hn bs]

/-- **The comparison.** A handle equals itself, and others if their nodes have equal content. -/
theorem Sound.same_iff (hs : s.Sound) : s.same a b = true ↔ a = b ∨
    ∃ n m, s.node? a = some n ∧ s.node? b = some m ∧
      n.Matches (fun p q => s.same p q = true) m := by
  cases hn : s.node? a with
  | none =>
    rw [same]
    cases s.size <;> simp [sameWithin, hn]
  | some n =>
    have hmore : s.same a b = s.sameWithin (s.size + 1) a b :=
      have hrank : s.rank a < s.size := hs.rank_lt_size (has_iff.mpr ⟨n, hn⟩)
      sameWithin_eq hs.ranked hrank (by omega)
    rw [hmore, sameWithin, Bool.or_eq_true, decide_eq_true_iff, hn]
    refine or_congr_right ?_
    cases hm : s.node? b with
    | none => simp
    | some m =>
      cases n with
      | leaf c op =>
        cases m with
        | leaf c' op' => simp [Node.Matches]
        | junction kind bs => simp [Node.Matches]
      | junction kind as =>
        cases m with
        | leaf c op => simp [Node.Matches]
        | junction kind' bs => simp [Node.Matches, List.forall₂_iff_zip, and_assoc, same]

theorem Sound.same_iff_matches (hs : s.Sound) {n m : Node C} (hn : s.node? a = some n)
    (hm : s.node? b = some m) :
    s.same a b = true ↔ a = b ∨ n.Matches (fun p q => s.same p q = true) m := by
  rw [hs.same_iff]
  simp [hn, hm]

theorem Sound.same_self (hs : s.Sound) (a : Handle) : s.same a a = true :=
  hs.same_iff.mpr (.inl rfl)

/-! ### Position by position -/

/-- Different nodes agree at the top if their contents are equal. -/
theorem agreeAt_nil {A B : Located C} (hne : A.node ≠ B.node) : A.AgreeAt B [] ↔ A.Alike B := by
  constructor
  · rintro (⟨up, hup, h, ha, hb⟩ | hrel)
    · rw [List.prefix_nil.mp hup] at ha hb
      simp only [Located.at?, Option.map_some, Option.some.injEq] at ha hb
      exact absurd (ha.trans hb.symm) hne
    · cases hrel with
      | some h => exact h
  · exact fun h => .inr (.some h)

/-- Below different nodes agreement is that of the members. -/
theorem agreeAt_cons {A B x y : Located C} {i : Nat} (hne : A.node ≠ B.node)
    (hx : A.children[i]? = some x) (hy : B.children[i]? = some y) :
    A.AgreeAt B (i :: pos) ↔ x.AgreeAt y pos := by
  have hA : ∀ p, A.at? (i :: p) = x.at? p := fun p => by rw [Located.at?, hx, Option.bind_some]
  have hB : ∀ p, B.at? (i :: p) = y.at? p := fun p => by rw [Located.at?, hy, Option.bind_some]
  unfold Located.AgreeAt
  rw [hA, hB]
  refine or_congr_left ?_
  constructor
  · rintro ⟨up, hup, h, ha, hb⟩
    rcases List.prefix_cons_iff.mp hup with rfl | ⟨rest, rfl, hrest⟩
    · simp only [Located.at?, Option.map_some, Option.some.injEq] at ha hb
      exact absurd (ha.trans hb.symm) hne
    · exact ⟨rest, hrest, h, by rwa [hA] at ha, by rwa [hB] at hb⟩
  · rintro ⟨up, hup, h, ha, hb⟩
    exact ⟨i :: up, List.cons_prefix_cons.mpr ⟨rfl, hup⟩, h, by rwa [hA], by rwa [hB]⟩

theorem agree_iff {A B : Located C} (hne : A.node ≠ B.node) :
    (∀ pos, A.AgreeAt B pos) ↔
      A.Alike B ∧ ∀ z ∈ A.children.zip B.children, ∀ pos, z.1.AgreeAt z.2 pos := by
  constructor
  · refine fun h => ⟨(agreeAt_nil hne).mp (h []), fun z hz pos => ?_⟩
    obtain ⟨i, hi⟩ := List.mem_iff_getElem?.mp hz
    obtain ⟨hx, hy⟩ := List.getElem?_zip_eq_some.mp hi
    exact (agreeAt_cons hne hx hy).mp (h (i :: pos))
  · rintro ⟨halike, hmembers⟩ pos
    cases pos with
    | nil => exact (agreeAt_nil hne).mpr halike
    | cons i pos =>
      have hlength : A.children.length = B.children.length := halike.length_eq
      cases hx : A.children[i]? with
      | none =>
        -- neither expression has the position
        have hy : B.children[i]? = none :=
          List.getElem?_eq_none (hlength ▸ List.getElem?_eq_none_iff.mp hx)
        right
        rw [Located.at?, Located.at?, hx, hy]
        exact .none
      | some x =>
        have hi : i < A.children.length := (List.getElem?_eq_some_iff.mp hx).1
        obtain ⟨y, hy⟩ : ∃ y, B.children[i]? = some y :=
          ⟨_, List.getElem?_eq_getElem (hlength ▸ hi)⟩
        have hz : (x, y) ∈ A.children.zip B.children :=
          List.mem_iff_getElem?.mpr ⟨i, List.getElem?_zip_eq_some.mpr ⟨hx, hy⟩⟩
        exact (agreeAt_cons hne hx hy).mpr (hmembers _ hz pos)

theorem alike_locate (s : Store C) {n m : Node C} :
    (s.locate a n).Alike (s.locate b m) ↔ n.Matches (fun _ _ => True) m := by
  cases n with
  | leaf c op =>
    cases m with
    | leaf c' op' => simp [locate, Located.Alike, Node.Matches, Operator.same_iff]
    | junction kind bs => simp [locate, Located.Alike, Node.Matches]
  | junction kind as =>
    cases m with
    | leaf c op => simp [locate, Located.Alike, Node.Matches]
    | junction kind' bs => simp [locate, Located.Alike, Node.Matches, List.forall₂_iff_zip]

/-- **Position by position.** Two handles are equal if what they stand for agrees at each
position. -/
theorem Sound.same_iff_agree (hs : s.Sound) (ha : s.Has a) (hb : s.Has b) :
    s.same a b = true ↔ ∀ pos, (s.located a).AgreeAt (s.located b) pos := by
  induction a using hs.induction generalizing b with
  | step a ih =>
    by_cases hab : a = b
    · have hshared : (s.located a).SharedAt (s.located b) [] :=
        ⟨a, by simp [Located.at?, node_located], by simp [Located.at?, node_located, hab]⟩
      refine iff_of_true (hs.same_iff.mpr (.inl hab)) fun pos => ?_
      exact .inl ⟨[], List.nil_prefix, hshared⟩
    · have hne : (s.located a).node ≠ (s.located b).node := by rwa [node_located, node_located]
      obtain ⟨n, hn⟩ := has_iff.mp ha
      obtain ⟨m, hm⟩ := has_iff.mp hb
      have hmembers : ∀ z ∈ n.children.zip m.children,
          (s.same z.1 z.2 = true ↔ ∀ pos, (s.located z.1).AgreeAt (s.located z.2) pos) := by
        rintro ⟨p, q⟩ hpq
        have hp : s.Child a p := child_of_mem hn (List.of_mem_zip hpq).1
        have hq : s.Child b q := child_of_mem hm (List.of_mem_zip hpq).2
        exact ih p hp (hs.closed a p hp) (hs.closed b q hq)
      rw [hs.same_iff_matches hn hm, or_iff_right hab, Node.matches_iff, agree_iff hne,
        hs.children_located, hs.children_located, children_eq hn, children_eq hm, List.zip_map,
        List.forall_mem_map, hs.located_eq hn, hs.located_eq hm, alike_locate]
      exact and_congr_right fun _ => forall₂_congr hmembers

/-- **An equivalence.** Whatever is in the leaves, equality of handles is one. -/
theorem Sound.same_equivalence [PartialEquivBEq C] (hs : s.Sound) :
    Equivalence fun a b => s.same a b = true := by
  have hhas : ∀ {a b}, s.same a b = true → a = b ∨ s.Has a ∧ s.Has b := by
    intro a b hab
    rcases hs.same_iff.mp hab with hab | ⟨n, m, hn, hm, -⟩
    · exact .inl hab
    · exact .inr ⟨has_iff.mpr ⟨n, hn⟩, has_iff.mpr ⟨m, hm⟩⟩
  refine ⟨hs.same_self, fun {a b} hab => ?_, fun {a b c} hab hbc => ?_⟩
  · rcases hhas hab with rfl | ⟨ha, hb⟩
    · exact hab
    · exact (hs.same_iff_agree hb ha).mpr fun pos => ((hs.same_iff_agree ha hb).mp hab pos).symm
  · rcases hhas hab with rfl | ⟨ha, hb⟩
    · exact hbc
    · rcases hhas hbc with rfl | ⟨-, hc⟩
      · exact hab
      · exact (hs.same_iff_agree ha hc).mpr fun pos =>
          hs.agreeAt_trans ((hs.same_iff_agree ha hb).mp hab pos) ((hs.same_iff_agree hb hc).mp hbc pos)

/-! ### Equality of the expressions -/

theorem same_unfold (s : Store C) {n m : Node C} : (s.unfold n).same (s.unfold m) = true ↔
    n.Matches (fun p q => (s.tree p).same (s.tree q) = true) m := by
  cases n with
  | leaf c op =>
    cases m with
    | leaf c' op' => simp [Node.Matches, unfold, Expr.same]
    | junction kind bs => simp [Node.Matches, unfold, Expr.same]
  | junction kind as =>
    cases m with
    | leaf c op => simp [Node.Matches, unfold, Expr.same]
    | junction kind' bs => simp [Node.Matches, unfold, Expr.same, Expr.sameAll_iff]

/-- Where what is shared equals itself, handles are equal if what they stand for is. -/
theorem Sound.same_eq_same_tree (hs : s.Sound) (ha : s.Has a) (hb : s.Has b)
    (hshared : ∀ h, s.Reaches a h → s.Reaches b h → (s.tree h).same (s.tree h) = true) :
    s.same a b = (s.tree a).same (s.tree b) := by
  induction a using hs.induction generalizing b with
  | step a ih =>
    obtain ⟨n, hn⟩ := has_iff.mp ha
    obtain ⟨m, hm⟩ := has_iff.mp hb
    have hmembers : ∀ z ∈ n.children.zip m.children,
        (s.same z.1 z.2 = true ↔ (s.tree z.1).same (s.tree z.2) = true) := by
      rintro ⟨p, q⟩ hpq
      have hp : s.Child a p := child_of_mem hn (List.of_mem_zip hpq).1
      have hq : s.Child b q := child_of_mem hm (List.of_mem_zip hpq).2
      rw [ih p hp (hs.closed a p hp) (hs.closed b q hq)
        fun h hph hqh => hshared h (.head hp hph) (.head hq hqh)]
    have hcontent : n.Matches (fun p q => s.same p q = true) m ↔
        (s.tree a).same (s.tree b) = true := by
      rw [hs.tree_eq hn, hs.tree_eq hm, same_unfold]
      exact Node.matches_congr hmembers
    rw [Bool.eq_iff_iff, hs.same_iff_matches hn hm, hcontent]
    constructor
    · rintro (rfl | h)
      · exact hshared a .refl .refl
      · exact h
    · exact .inr

/-- **Equality of handles.** Two handles are equal just if what they stand for agrees at each
position: there or above it both have one node, or their contents are equal. This is an
equivalence, whatever is in the leaves. It is equality of the expressions if one of them has
no NaN in its leaves, and a copy equals what it is a copy of just if there is none. -/
theorem Reachable.equality [ColumnRef C] [EquivBEq C] (hr : s.Reachable) :
    (∀ a b, s.Has a → s.Has b →
      (s.same a b = true ↔ ∀ pos, (s.located a).AgreeAt (s.located b) pos)) ∧
    (Equivalence fun a b => s.same a b = true) ∧
    (∀ a b, s.Has a → s.Has b → (s.tree a).NaNFree →
      s.same a b = (s.tree a).same (s.tree b)) ∧
    ∀ x, s.Has x → ((s.copy x).1.same (s.copy x).2 x = true ↔ (s.tree x).NaNFree) := by
  have hs : s.Sound := hr.sound
  refine ⟨fun a b => hs.same_iff_agree, hs.same_equivalence, fun a b ha hb hfree => ?_,
    fun x hx => ?_⟩
  · refine hs.same_eq_same_tree ha hb fun h hah _ => (Expr.same_self_iff _).mpr fun l hl => ?_
    exact hfree l (hs.leaves_subset hah hl)
  · have hplant := hs.plant (s.tree x)
    have hcopy : (s.copy x).1.Sound := hplant.sound
    have hself : (s.copy x).1.tree (s.copy x).2 = s.tree x := hs.tree_copy x
    have hkept : (s.copy x).1.tree x = s.tree x := hplant.grown.tree_eq hs hcopy hx
    have hapart : ∀ h, (s.copy x).1.Reaches (s.copy x).2 h → ¬ (s.copy x).1.Reaches x h := by
      intro h hnew hold
      refine hs.not_has_of_reaches_copy hnew (hs.has_of_reaches hx ?_)
      exact (hplant.grown.reaches_iff hs hx).mp hold
    have hnew : (s.copy x).1.Has (s.copy x).2 := hplant.has _ (List.mem_singleton_self _)
    have hsame : (s.copy x).1.same (s.copy x).2 x =
        ((s.copy x).1.tree (s.copy x).2).same ((s.copy x).1.tree x) :=
      hcopy.same_eq_same_tree hnew (hplant.grown.has hx) fun h hn ho => absurd ho (hapart h hn)
    rw [hsame, hself, hkept, Expr.same_self_iff]

/-- Two leaves with a NaN each: the first below two junctions, the second below a third. -/
def twoNaNs : Store Column :=
  ((((empty.after (.leaf (.plain "tt" "size") ⟨.gt, .float .nan, by decide⟩)).after
    (.leaf (.plain "tt" "size") ⟨.gt, .float .nan, by decide⟩)).after
    (.junction .and [⟨0⟩])).after (.junction .and [⟨0⟩])).after (.junction .and [⟨1⟩])

theorem reachable_twoNaNs : twoNaNs.Reachable :=
  .step (.step (.step (.step (.step .empty _ (by decide)) _ (by decide)) _ (by decide)) _
    (by decide)) _ (by decide)

/-- Junctions of one leaf are equal through it; junctions of two leaves are not, though these
have the same content, and neither is a junction and its copy. -/
theorem equality_twoNaNs :
    twoNaNs.Reachable ∧
      (∀ pos, (twoNaNs.located ⟨2⟩).AgreeAt (twoNaNs.located ⟨3⟩) pos) ∧
      ¬ (∀ pos, (twoNaNs.located ⟨2⟩).AgreeAt (twoNaNs.located ⟨4⟩) pos) ∧
      twoNaNs.same ⟨3⟩ ⟨2⟩ = true ∧
      (twoNaNs.copy ⟨2⟩).1.same (twoNaNs.copy ⟨2⟩).2 ⟨2⟩ = false := by
  obtain ⟨hagree, hequiv, -, hcopy⟩ := reachable_twoNaNs.equality
  have hnan : ¬ (twoNaNs.tree ⟨2⟩).NaNFree := by
    have hleaves : (twoNaNs.tree ⟨2⟩).leaves =
        [(.plain "tt" "size", ⟨.gt, .float .nan, by decide⟩)] := rfl
    simp only [Expr.NaNFree, hleaves, List.forall_mem_singleton]
    decide
  refine ⟨reachable_twoNaNs, ?_, ?_, hequiv.symm (by decide), ?_⟩
  · exact (hagree ⟨2⟩ ⟨3⟩ (by decide) (by decide)).mp (by decide)
  · exact fun hall => absurd ((hagree ⟨2⟩ ⟨4⟩ (by decide) (by decide)).mpr hall) (by decide)
  · exact Bool.eq_false_iff.mpr fun hsame => hnan ((hcopy ⟨2⟩ (by decide)).mp hsame)

end Store
end QueryFilter
