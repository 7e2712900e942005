/-
# Edits keep a store sound

Every operation on a store makes new nodes or overwrites one node. New nodes
are made of nodes that are there. A node is overwritten with nodes from below
it, with new ones, or with one that does not contain it. So no operation puts
a node below itself, and none leaves a child without a node.

Key definitions: `Store.Grafted`, `Store.Settling`.
Key theorems: `Store.Sound.graft`, `Store.Sound.settle_junction`,
`Store.Sound.normalize`, `Store.Sound.add`, `Store.Sound.replace`,
`Store.Sound.remove`.
-/
import QueryFilter.Proofs.Store.Unfold
import QueryFilter.Store.Edit

namespace QueryFilter
namespace Store

variable {C : Type} {s s' : Store C} {h p q c : Handle} {n : Node C}

/-! ### New nodes for an expression -/

/-- A store that has grown by new nodes for expressions, which have these handles. -/
structure Grafted (s s' : Store C) (hs : List Handle) : Prop where
  sound : s'.Sound
  grown : Grown s s'
  has : ∀ h ∈ hs, s'.Has h
  new : ∀ h ∈ hs, s.size ≤ h.index

theorem Grafted.none (hs : s.Sound) : Grafted s s [] where
  sound := hs
  grown := .refl s
  has _ hh := by cases hh
  new _ hh := by cases hh

mutual

/-- The nodes below a new node are new. -/
theorem Sound.graft : ∀ (e : Expr C) {s : Store C}, s.Sound →
    Grafted s (s.graft e).1 (s.graft e).2.children
  | .leaf _ _, _, hs => .none hs
  | .junction _ children, _, hs => hs.graftAll children

theorem Sound.graftAll : ∀ (es : List (Expr C)) {s : Store C}, s.Sound →
    Grafted s (s.graftAll es).1 (s.graftAll es).2
  | [], _, hs => .none hs
  | e :: rest, s, hs => by
    have hfirst := hs.graft e
    have hgrown := hfirst.grown.alloc hfirst.new
    have hmore := (hfirst.sound.alloc hfirst.has).graftAll rest
    refine ⟨hmore.sound, hgrown.trans hmore.grown, fun h hh => ?_, fun h hh => ?_⟩
    · rcases List.mem_cons.mp hh with rfl | hh
      · exact hmore.grown.has (has_alloc.mpr (Or.inr rfl))
      · exact hmore.has h hh
    · rcases List.mem_cons.mp hh with rfl | hh
      · exact hfirst.grown.size_le
      · exact Nat.le_trans hgrown.size_le (hmore.new h hh)

end

theorem Sound.plant (hs : s.Sound) (e : Expr C) :
    Grafted s (s.plant e).1 [(s.plant e).2] := by
  have hgraft := hs.graft e
  refine ⟨hgraft.sound.alloc hgraft.has, hgraft.grown.alloc hgraft.new, fun h hh => ?_, fun h hh => ?_⟩
  · rw [List.mem_singleton.mp hh]
    exact has_alloc.mpr (Or.inr rfl)
  · rw [List.mem_singleton.mp hh]
    exact hgraft.grown.size_le

theorem Sound.joined (hs : s.Sound) (kind : Junction) {hs' : List Handle}
    (hh : ∀ h ∈ hs', s.Has h) : (s.joined kind hs').1.Sound := by
  match hs', hh with
  | [], _ => exact hs
  | [_], _ => exact hs
  | _ :: _ :: _, hh => exact hs.alloc hh

/-! ### What does not lead to a node -/

/-- What is below a node is in the store and does not lead back. -/
theorem Sound.below_apart (hs : s.Sound) (hb : s.Below p c) : s.Has c ∧ ¬ s.Reaches c p := by
  obtain ⟨x, -, hx⟩ := Relation.TransGen.tail'_iff.mp hb
  refine ⟨hs.closed x c hx, fun hr => ?_⟩
  exact hs.acyclic p (Relation.TransGen.trans_left hb hr)

theorem Sound.child_apart (hs : s.Sound) (hc : s.Child p c) : s.Has c ∧ ¬ s.Reaches c p :=
  hs.below_apart hc.below

/-- New nodes do not lead to a node that was there. -/
theorem Grafted.apart {hs' : List Handle} (hg : Grafted s s' hs') (hp : s.Has p) :
    ∀ c ∈ hs', s'.Has c ∧ ¬ s'.Reaches c p := by
  refine fun c hc => ⟨hg.has c hc, fun hreach => ?_⟩
  have hle : s.size ≤ p.index := hg.grown.le_of_reaches (hg.new c hc) hreach
  rw [Has] at hp
  omega

/-! ### Overwriting with what is below -/

/-- A node may be overwritten with nodes from below it. -/
theorem Sound.overwrite_below (hs : s.Sound) (hn : ∀ c ∈ n.children, s.Below h c) :
    (s.overwrite h n).Sound :=
  hs.overwrite fun c hc => hs.below_apart (hn c hc)

/-- Taking a child away overwrites its parent with the others. -/
theorem Sound.detach (hs : s.Sound) (p q : Handle) : (s.detach p q).Sound := by
  unfold Store.detach
  split
  · rename_i kind children hn
    exact hs.overwrite_below fun c hc => .single (child_of_mem hn (List.mem_of_mem_erase hc))
  · exact hs

/-! ### Settling -/

theorem Sound.filter_tree (hs : s.Sound) {cs : List Handle} (hc : ∀ c ∈ cs, s.Has c) :
    (cs.map s.tree).filter (fun e => !e.isEmpty) = (cs.filter fun c => !s.isEmpty c).map s.tree := by
  rw [List.filter_map]
  congr 1
  refine List.filter_congr fun c hmem => ?_
  rw [Function.comp_apply, hs.isEmpty_tree (hc c hmem)]

/-- A junction is overwritten with nodes from below it, so that it stands for
the settled junction of what its children stand for. -/
theorem Sound.settle_junction (hs : s.Sound) {kind : Junction} {children : List Handle}
    (hn : s.node? h = some (.junction kind children)) :
    ∃ n, s.settle h = s.overwrite h n ∧ (∀ c ∈ n.children, s.Below h c) ∧
      s.unfold n = Expr.settle kind (children.map s.tree) := by
  have hchild : ∀ c ∈ children, s.Child h c := fun c hc => child_of_mem hn hc
  have hfilter := hs.filter_tree fun c hc => hs.closed h c (hchild c hc)
  rw [Store.settle, hn]
  dsimp only
  split
  · rename_i only hone
    have honly : only ∈ children := (List.mem_filter.mp (by rw [hone]; simp)).1
    obtain ⟨content, hc⟩ := has_iff.mp (hs.closed h only (hchild only honly))
    refine ⟨content, by rw [hc], fun c hmem => ?_, ?_⟩
    · exact .head (hchild only honly) (.single (child_of_mem hc hmem))
    · rw [Expr.settle, hfilter, hone, ← hs.tree_eq hc]
      rfl
  · rename_i hone
    refine ⟨_, rfl, fun c hmem => .single (hchild c (List.mem_filter.mp hmem).1), ?_⟩
    rw [Expr.settle, hfilter]
    rcases hkept : children.filter fun c => !s.isEmpty c with _ | ⟨c, _ | ⟨c', rest⟩⟩
    · rfl
    · exact absurd hkept (hone c)
    · rfl

theorem settle_of_not_junction (hn : ∀ kind children, s.node? h ≠ some (.junction kind children)) :
    s.settle h = s := by
  unfold Store.settle
  split
  · rename_i kind children hjunction
    exact absurd hjunction (hn kind children)
  · rfl

/-- **Settling.** A junction is overwritten with nodes from below it, so that it
stands for the settled junction of what its children stand for; nothing happens
to other nodes. -/
theorem Sound.settle_cases (hs : s.Sound) (h : Handle) :
    s.settle h = s ∨ ∃ n, s.settle h = s.overwrite h n ∧ (∀ c ∈ n.children, s.Below h c) ∧
      ∃ kind es, s.tree h = .junction kind es ∧ s.unfold n = Expr.settle kind es := by
  by_cases hj : ∃ kind children, s.node? h = some (.junction kind children)
  · obtain ⟨kind, children, hn⟩ := hj
    obtain ⟨n, he, hbelow, hunfold⟩ := hs.settle_junction hn
    exact Or.inr ⟨n, he, hbelow, kind, children.map s.tree, hs.tree_eq hn, hunfold⟩
  · exact Or.inl (settle_of_not_junction fun kind children hn => hj ⟨kind, children, hn⟩)

theorem Sound.settle (hs : s.Sound) (h : Handle) : (s.settle h).Sound := by
  rcases hs.settle_cases h with he | ⟨n, he, hbelow, -⟩
  · rw [he]
    exact hs
  · rw [he]
    exact hs.overwrite_below hbelow

/-- What every settling of nodes of one kind keeps, normalizing a node of that kind keeps, if
the children of such nodes are of that kind. -/
theorem normalizeWithin_keeps_below {P : Store C → Prop} {Q : Handle → Prop}
    (hQ : ∀ s p c, P s → Q p → s.Child p c → Q c) (hP : ∀ s h, P s → Q h → P (s.settle h)) :
    ∀ (fuel : Nat) {s : Store C} (h : Handle), P s → Q h → P (normalizeWithin fuel s h)
  | 0, s, h, hs, _ => hs
  | fuel + 1, s, h, hs, hh => by
    have hall : ∀ (children : List Handle) {s : Store C}, P s → (∀ c ∈ children, Q c) →
        P (children.foldl (normalizeWithin fuel) s) := by
      intro children
      induction children with
      | nil => exact fun hs _ => hs
      | cons c rest ih =>
        intro s hs hcs
        obtain ⟨hc, hrest⟩ := List.forall_mem_cons.mp hcs
        exact ih (normalizeWithin_keeps_below hQ hP fuel c hs hc) hrest
    rw [normalizeWithin]
    split
    · rename_i kind children hn
      exact hP _ h (hall _ hs fun c hc => hQ s h c hs hh (child_of_mem hn hc)) hh
    · exact hs

/-- What every settling keeps, normalizing keeps. -/
theorem normalizeWithin_keeps {P : Store C → Prop} (hP : ∀ s h, P s → P (s.settle h)) (fuel : Nat)
    {s : Store C} (h : Handle) (hs : P s) : P (normalizeWithin fuel s h) :=
  normalizeWithin_keeps_below (Q := fun _ => True) (fun _ _ _ _ _ _ => trivial)
    (fun s h hs _ => hP s h hs) fuel h hs trivial

theorem Sound.normalize (hs : s.Sound) (h : Handle) : (s.normalize h).Sound :=
  normalizeWithin_keeps (fun _ h hs => hs.settle h) s.size h hs

/-- The invariant of a run that normalizes: the measure of the start still goes
down from nodes to children, though there are other nodes below than there were. -/
structure Settling (s s' : Store C) (r : Handle → Nat) : Prop where
  sound : s'.Sound
  ranked : s'.Ranked r
  size_eq : s'.size = s.size

theorem Settling.has {s' : Store C} (hs : Settling s s' r) (hh : s.Has h) : s'.Has h := by
  rwa [Has, hs.size_eq]

theorem Settling.settle {s' : Store C} (hs : Settling s s' r) (h : Handle) :
    Settling s (s'.settle h) r := by
  rcases hs.sound.settle_cases h with he | ⟨n, he, hbelow, -⟩
  · rw [he]
    exact hs
  · rw [he]
    exact ⟨hs.sound.overwrite_below hbelow, hs.ranked.overwrite_below hbelow,
      by rw [size_overwrite, hs.size_eq]⟩

/-! ### Edits by path -/

/-- The members of a junction and an addition that does not contain it. -/
theorem Sound.appended_apart (hs : s.Sound) {kind : Junction} {children : List Handle}
    {target added : Handle} (hn : s.node? target = some (.junction kind children))
    (ha : s.Has added) (hr : ¬ s.Reaches added target) :
    ∀ c ∈ children ++ [added], s.Has c ∧ ¬ s.Reaches c target := by
  intro c hc
  rcases List.mem_append.mp hc with hc | hc
  · exact hs.child_apart (child_of_mem hn hc)
  · rw [List.mem_singleton.mp hc]
    exact ⟨ha, hr⟩

/-- The former leaf, which gets a new node, and an addition that does not
contain the target. -/
theorem Sound.promoted_apart (hs : s.Sound) {column : C} {op : Operator} {target added : Handle}
    (ht : s.Has target) (ha : s.Has added) (hr : ¬ s.Reaches added target) :
    ∀ c ∈ [(s.alloc (.leaf column op)).2, added],
      (s.alloc (.leaf column op)).1.Has c ∧ ¬ (s.alloc (.leaf column op)).1.Reaches c target := by
  have hplant : Grafted s (s.alloc (.leaf column op)).1 [(s.alloc (.leaf column op)).2] :=
    hs.plant (.leaf column op)
  intro c hc
  rcases List.mem_cons.mp hc with rfl | hc
  · exact hplant.apart ht _ (List.mem_singleton_self _)
  · rw [List.mem_singleton.mp hc]
    exact ⟨hplant.grown.has ha, fun hreach => hr ((hplant.grown.reaches_iff hs ha).mp hreach)⟩

/-- An expression may be added to a node that it does not reach. -/
theorem Sound.attach (hs : s.Sound) {implicit : Junction} {target added : Handle}
    (ha : s.Has added) (hr : ¬ s.Reaches added target) : (s.attach target added implicit).Sound := by
  unfold Store.attach
  split
  · rename_i kind children hn
    exact hs.overwrite (hs.appended_apart hn ha hr)
  · rename_i column op hn
    have hsound : (s.alloc (.leaf column op)).1.Sound := hs.alloc fun c hc => by cases hc
    exact hsound.overwrite (hs.promoted_apart (has_iff.mpr ⟨_, hn⟩) ha hr)
  · exact hs

theorem descend_reaches : ∀ {kinds : List Junction} {h : Handle}, s.descend h kinds = some q →
    s.Reaches h q
  | [], h, hd => by
    cases hd
    exact .refl
  | kind :: rest, h, hd => by
    obtain ⟨c, hc, hd⟩ := Option.bind_eq_some_iff.mp hd
    exact .head (List.mem_of_find?_eq_some hc) (descend_reaches hd)

variable [ColumnRef C]

theorem resolve_eq_ok {path : Path} : s.resolve h path = .ok q ↔ s.find h path = .ok (some q) := by
  rw [resolve]
  cases s.find h path with
  | error err => exact ⟨fun ht => (by cases ht), fun hf => (by cases hf)⟩
  | ok found =>
    cases found with
    | none => exact ⟨fun ht => (by cases ht), fun hf => (by cases hf)⟩
    | some t => exact ⟨fun ht => (by cases ht; rfl), fun hf => (by cases hf; rfl)⟩

/-- A path leads down. -/
theorem resolve_reaches {path : Path} (ht : s.resolve h path = .ok q) : s.Reaches h q := by
  have hfind : s.find h path = .ok (some q) := resolve_eq_ok.mp ht
  rw [find] at hfind
  split at hfind
  · cases hfind
    exact .refl
  · obtain ⟨kinds, -, hfind⟩ := Except.bind_eq_ok.mp hfind
    injection hfind with hfind
    obtain ⟨parent, hp, hs⟩ := Option.bind_eq_some_iff.mp hfind
    exact (descend_reaches hp).tail (List.mem_of_find?_eq_some hs)

theorem add_eq_ok {path : Path} {added : Handle} {implicit : Junction}
    (he : s.add h path added implicit = .ok s') : ∃ target, s.resolve h path = .ok target ∧
      s.contains added target = false ∧ s' = s.attach target added implicit := by
  rw [Store.add] at he
  obtain ⟨target, ht, he⟩ := Except.bind_eq_ok.mp he
  split at he
  · cases he
  · rename_i hc
    cases he
    exact ⟨target, ht, by simpa using hc, rfl⟩

theorem replace_eq_ok {path : Path} {source : Handle} (he : s.replace h path source = .ok s') :
    ∃ target, s.resolve h path = .ok target ∧
      s' = (s.graft (s.tree source)).1.overwrite target (s.graft (s.tree source)).2 := by
  rw [Store.replace] at he
  obtain ⟨target, ht, he⟩ := Except.bind_eq_ok.mp he
  cases he
  exact ⟨target, ht, rfl⟩

theorem remove_eq_ok {path : Path} (he : s.remove h path = .ok s') :
    ∃ parent target, s.resolve h path.parent = .ok parent ∧ s.resolve h path = .ok target ∧
      path.isEmpty = false ∧ s' = s.detach parent target := by
  rw [Store.remove] at he
  cases hr : path.isEmpty with
  | true => rw [hr] at he; cases he
  | false =>
    rw [hr] at he
    obtain ⟨parent, hp, he⟩ := Except.bind_eq_ok.mp he
    obtain ⟨target, ht, he⟩ := Except.bind_eq_ok.mp he
    cases he
    exact ⟨parent, target, hp, ht, rfl, rfl⟩

/-- An expression that is added does not contain the node it is added to. -/
theorem Sound.add (hs : s.Sound) {path : Path} {added : Handle} {implicit : Junction}
    (ha : s.Has added) (he : s.add h path added implicit = .ok s') : s'.Sound := by
  obtain ⟨target, -, hc, rfl⟩ := add_eq_ok he
  exact hs.attach ha fun hr => by rw [hs.contains_iff.mpr hr] at hc; cases hc

/-- What a node is replaced with is new. -/
theorem Sound.replace (hs : s.Sound) {path : Path} {source : Handle} (hh : s.Has h)
    (he : s.replace h path source = .ok s') : s'.Sound := by
  obtain ⟨target, ht, rfl⟩ := replace_eq_ok he
  have hgraft := hs.graft (s.tree source)
  exact hgraft.sound.overwrite (hgraft.apart (hs.has_of_reaches hh (resolve_reaches ht)))

theorem Sound.remove (hs : s.Sound) {path : Path} (he : s.remove h path = .ok s') : s'.Sound := by
  obtain ⟨parent, target, -, -, -, rfl⟩ := remove_eq_ok he
  exact hs.detach parent target

end Store
end QueryFilter
