/-
# What an edit changes

An edit by path finds a node and gives it other content. What is seen of it
follows from the change in that one node (`Store.Rewrites`); here it is said for
each edit which node that is and what it stands for afterwards. What is added
does not contain the node, so it stands for what it stood for; what a node is
replaced with is copied first, so it may contain the node or be inside it.

A failed edit leaves the store as it was. To say so, each edit is also given
write by write (`Store.Edit.program`): what such a program has written stays
written when it fails. It writes nothing before the last step that can fail.

Key definitions: `Store.Program`, `Store.Edit`, `Store.Edit.Yields`.
Key theorems: `Store.Sound.unfold_graft`, `Store.Edit.run_program`,
`Store.Sound.edit_rewrites`, `Store.Reachable.edit_frame`.
-/
import QueryFilter.Proofs.Store.Located
import QueryFilter.Proofs.Store.Paths
import QueryFilter.Proofs.Store.Run

namespace QueryFilter

namespace Expr

variable {C : Type}

/-- The expression with one more under it: at the end of a junction; a leaf is
joined to it under a new one. -/
def extend (e : Expr C) (implicit : Junction) (added : Expr C) : Expr C :=
  match e with
  | .leaf column op => .junction implicit [.leaf column op, added]
  | .junction kind children => .junction kind (children ++ [added])

end Expr

namespace Store

variable {C : Type} {s s' : Store C} {h p t target added source : Handle} {path : Path}
  {implicit : Junction}

/-! ### New nodes stand for what they are made for -/

theorem Grown.tree_eq (hg : Grown s s') (hs : s.Sound) (hs' : s'.Sound) (hp : s.Has p) :
    s'.tree p = s.tree p :=
  hs.tree_congr hs' fun q hq => hg.kept q (hs.has_of_reaches hp hq)

/-- A new node of nodes that are there stands for its content. -/
theorem Sound.tree_alloc (hs : s.Sound) {n : Node C} (hn : ∀ c ∈ n.children, s.Has c) :
    (s.alloc n).1.tree (s.alloc n).2 = s.unfold n := by
  have hs' : (s.alloc n).1.Sound := hs.alloc hn
  rw [hs'.tree_eq (node?_alloc_self s n)]
  refine unfold_congr fun c hc => hs.tree_congr hs' fun q hq => ?_
  exact node?_alloc_of_lt s n q (hs.has_of_reaches (hn c hc) hq)

theorem graftAll_cons (s : Store C) (e : Expr C) (rest : List (Expr C)) :
    s.graftAll (e :: rest) = (((s.plant e).1.graftAll rest).1,
      (s.plant e).2 :: ((s.plant e).1.graftAll rest).2) := rfl

mutual

/-- The nodes made for an expression stand for it. -/
theorem Sound.unfold_graft : ∀ (e : Expr C) {s : Store C}, s.Sound →
    (s.graft e).1.unfold (s.graft e).2 = e
  | .leaf _ _, _, _ => rfl
  | .junction kind children, s, hs => by
    have hall : (s.graftAll children).2.map (s.graftAll children).1.tree = children :=
      hs.map_tree_graftAll children
    show Expr.junction kind ((s.graftAll children).2.map (s.graftAll children).1.tree) =
      .junction kind children
    rw [hall]

theorem Sound.map_tree_graftAll : ∀ (es : List (Expr C)) {s : Store C}, s.Sound →
    (s.graftAll es).2.map (s.graftAll es).1.tree = es
  | [], _, _ => rfl
  | e :: rest, s, hs => by
    have hgraft : Grafted s (s.graft e).1 (s.graft e).2.children := hs.graft e
    have hself : (s.plant e).1.tree (s.plant e).2 = e :=
      (hgraft.sound.tree_alloc hgraft.has).trans (hs.unfold_graft e)
    have hfirst : Grafted s (s.plant e).1 [(s.plant e).2] := hs.plant e
    have hmore := hfirst.sound.graftAll rest
    have hkept := hmore.grown.tree_eq hfirst.sound hmore.sound
      (hfirst.has (s.plant e).2 (List.mem_singleton_self _))
    have hrest := hfirst.sound.map_tree_graftAll rest
    simp only [graftAll_cons, List.map_cons, hkept, hself, hrest]

end

/-- A copy stands for what it is a copy of. -/
theorem Sound.tree_copy (hs : s.Sound) (h : Handle) :
    (s.copy h).1.tree (s.copy h).2 = s.tree h := by
  have hgraft := hs.graft (s.tree h)
  exact (hgraft.sound.tree_alloc hgraft.has).trans (hs.unfold_graft (s.tree h))

/-! ### The node of an edit and what it stands for -/

/-- What is added comes last under a junction, and after the former leaf under
a new junction in the place of a leaf. -/
theorem Sound.attach_rewrites (hs : s.Sound) (ht : s.Has target) (ha : s.Has added)
    (hr : ¬ s.Reaches added target) :
    Rewrites s (s.attach target added implicit) target
      ((s.tree target).extend implicit (s.tree added)) := by
  have hs' : (s.attach target added implicit).Sound := hs.attach ha hr
  obtain ⟨n, hn⟩ := has_iff.mp ht
  rw [Store.attach, hn] at hs' ⊢
  cases n with
  | junction kind children =>
    have hunfold : s.unfold (.junction kind (children ++ [added])) =
        (s.tree target).extend implicit (s.tree added) := by
      simp only [hs.tree_eq hn, unfold, Expr.extend, List.map_append, List.map_cons, List.map_nil]
    rw [← hunfold]
    exact hs.rewrites_overwrite ht (hs.appended_apart hn ha hr)
  | leaf column op =>
    have hplant : Grafted s (s.alloc (.leaf column op)).1 [(s.alloc (.leaf column op)).2] :=
      hs.plant (.leaf column op)
    have hformer : (s.alloc (.leaf column op)).1.tree (s.alloc (.leaf column op)).2 =
        .leaf column op := hplant.sound.tree_eq (node?_alloc_self s _)
    have hadded : (s.alloc (.leaf column op)).1.tree added = s.tree added :=
      hplant.grown.tree_eq hs hplant.sound ha
    have hunfold : (s.alloc (.leaf column op)).1.unfold
        (.junction implicit [(s.alloc (.leaf column op)).2, added]) =
        (s.tree target).extend implicit (s.tree added) := by
      simp only [hs.tree_eq hn, unfold, Expr.extend, List.map_cons, List.map_nil, hformer, hadded]
    rw [← hunfold]
    have hone := hplant.sound.rewrites_overwrite (hplant.grown.has ht)
      (n := .junction implicit [(s.alloc (.leaf column op)).2, added]) (hs.promoted_apart ht ha hr)
    exact hone.of_grown hs hplant.grown hs' ht

/-- A node that is replaced stands for what the source stood for before, whether
or not one of them contains the other. -/
theorem Sound.replace_rewrites (hs : s.Sound) (ht : s.Has target) (source : Handle) :
    Rewrites s ((s.graft (s.tree source)).1.overwrite target (s.graft (s.tree source)).2) target
      (s.tree source) := by
  have hgraft := hs.graft (s.tree source)
  have hchildren := hgraft.apart ht
  have hone := hgraft.sound.rewrites_overwrite (hgraft.grown.has ht) hchildren
  rw [hs.unfold_graft (s.tree source)] at hone
  exact hone.of_grown hs hgraft.grown (hgraft.sound.overwrite hchildren) ht

/-- A parent from which a child is taken keeps the children before it and those
behind it. -/
theorem Sound.detach_rewrites (hs : s.Sound) {parent : Handle} {kind : Junction}
    {before after : List Handle} (hn : s.node? parent = some (.junction kind (before ++ t :: after)))
    (hfirst : t ∉ before) :
    Rewrites s (s.detach parent t) parent (.junction kind ((before ++ after).map s.tree)) := by
  have herase : (before ++ t :: after).erase t = before ++ after := by
    rw [List.erase_append_right _ hfirst, List.erase_cons_head]
  rw [Store.detach, hn]
  simp only [herase]
  refine hs.rewrites_overwrite (has_iff.mpr ⟨_, hn⟩) fun c hc => hs.child_apart (child_of_mem hn ?_)
  rw [← herase] at hc
  exact List.mem_of_mem_erase hc

/-! ### Edits write by write -/

/-- A program on a store that may fail. What it has written stays when it does. -/
abbrev Program (C α : Type) := ExceptT FilterError (StateM (Store C)) α

namespace Program

variable {α : Type}

/-- A look at the store. -/
def look (f : Store C → Except FilterError α) : Program C α := fun s => (f s, s)

/-- One new node. -/
def make (n : Node C) : Program C Handle := fun s => (.ok (s.alloc n).2, (s.alloc n).1)

/-- New nodes for all that is below an expression. -/
def graft (e : Expr C) : Program C (Node C) := fun s => (.ok (s.graft e).2, (s.graft e).1)

/-- New content for a node. -/
def write (h : Handle) (n : Node C) : Program C Unit := fun s => (.ok (), s.overwrite h n)

/-- A look that fails ends the program and writes nothing. -/
theorem run_look_bind {β : Type} (f : Store C → Except FilterError α) (k : α → Program C β)
    (s : Store C) : (look f >>= k).run s =
      match f s with
      | .ok a => (k a).run s
      | .error err => (.error err, s) := by
  have hstep : (look f >>= k).run s = (ExceptT.bindCont k (f s) : StateM (Store C) _) s := rfl
  rw [hstep]
  cases f s <;> rfl

end Program

/-- An edit by path. -/
inductive Edit where
  | add (path : Path) (added : Handle) (implicit : Junction)
  | replace (path : Path) (source : Handle)
  | remove (path : Path)

namespace Edit

/-- The handles that an edit is given beside its receiver. -/
def handles : Edit → List Handle
  | .add _ added _ => [added]
  | .replace _ source => [source]
  | .remove _ => []

/-- The path of the node that the edit rewrites. -/
def place : Edit → Path
  | .add path _ _ => path
  | .replace path _ => path
  | .remove path => path.parent

variable [ColumnRef C]

/-- The store after the edit. -/
def result (s : Store C) (h : Handle) : Edit → Except FilterError (Store C)
  | .add path added implicit => s.add h path added implicit
  | .replace path source => s.replace h path source
  | .remove path => s.remove h path

/-- The edit write by write. -/
def program (h : Handle) : Edit → Program C Unit
  | .add path added implicit => do
    let target ← Program.look fun s => s.resolve h path
    if ← Program.look fun s => .ok (s.contains added target) then throw .addedIntoItself
    else
      match ← Program.look fun s => .ok (s.node? target) with
      | some (.junction kind children) => Program.write target (.junction kind (children ++ [added]))
      | some (.leaf column op) => do
        let former ← Program.make (.leaf column op)
        Program.write target (.junction implicit [former, added])
      | none => pure ()
  | .replace path source => do
    let target ← Program.look fun s => s.resolve h path
    let e ← Program.look fun s => .ok (s.tree source)
    let content ← Program.graft e
    Program.write target content
  | .remove path => do
    if path.isEmpty then throw .rootNotRemovable
    else
      let parent ← Program.look fun s => s.resolve h path.parent
      let target ← Program.look fun s => s.resolve h path
      match ← Program.look fun s => .ok (s.node? parent) with
      | some (.junction kind children) => Program.write parent (.junction kind (children.erase target))
      | _ => pure ()

/-- What a program on a store ends with if it writes all or nothing. -/
def allOrNothing (s : Store C) : Except FilterError (Store C) → Except FilterError Unit × Store C
  | .ok s' => (.ok (), s')
  | .error err => (.error err, s)

/-- **All or nothing.** The program of an edit ends with the store of the edit, and
with the store that it began with if the edit fails. -/
theorem run_program (s : Store C) (h : Handle) (edit : Edit) :
    (edit.program h).run s = allOrNothing s (edit.result s h) := by
  cases edit with
  | add path added implicit =>
    rw [program, result, Program.run_look_bind]
    cases ht : s.resolve h path with
    | error err =>
      have hadd : s.add h path added implicit = .error err := by rw [Store.add, ht]; rfl
      rw [hadd]
      rfl
    | ok target =>
      have hadd : s.add h path added implicit =
          if s.contains added target then .error .addedIntoItself
          else .ok (s.attach target added implicit) := by rw [Store.add, ht]; rfl
      rw [hadd]
      dsimp only
      rw [Program.run_look_bind]
      cases s.contains added target with
      | true => rfl
      | false =>
        simp only [Bool.false_eq_true, ↓reduceIte]
        rw [Program.run_look_bind, attach]
        rcases s.node? target with _ | ⟨column, op⟩ | ⟨kind, children⟩ <;> rfl
  | replace path source =>
    rw [program, result, Store.replace, Program.run_look_bind]
    cases s.resolve h path <;> rfl
  | remove path =>
    rw [program, result, Store.remove]
    cases path.isEmpty with
    | true => rfl
    | false =>
      simp only [Bool.false_eq_true, ↓reduceIte]
      rw [Program.run_look_bind]
      cases s.resolve h path.parent with
      | error err => rfl
      | ok parent =>
        dsimp only
        rw [Program.run_look_bind]
        cases s.resolve h path with
        | error err => rfl
        | ok target =>
          have hremove : (do
              let parent ← Except.ok parent
              let target ← Except.ok target
              .ok (s.detach parent target) : Except FilterError (Store C)) =
                .ok (s.detach parent target) := rfl
          rw [hremove, detach]
          dsimp only
          rw [Program.run_look_bind]
          rcases s.node? parent with _ | ⟨column, op⟩ | ⟨kind, children⟩ <;> rfl

/-- What the rewritten node stands for. What is removed is the first entry of
the child of that node that the path leads to. -/
def Yields (s : Store C) (h t : Handle) (e : Expr C) : Edit → Prop
  | .add _ added implicit => e = (s.tree t).extend implicit (s.tree added)
  | .replace _ source => e = s.tree source
  | .remove path => ∃ target kind before after,
    s.find h path = .ok (some target) ∧
      s.node? t = some (.junction kind (before ++ target :: after)) ∧ target ∉ before ∧
      e = .junction kind ((before ++ after).map s.tree)

end Edit

variable [ColumnRef C]

/-- The node that an edit finds is rewritten. -/
theorem Sound.edit_rewrites (hs : s.Sound) {edit : Edit} (hh : s.Has h)
    (hall : ∀ x ∈ edit.handles, s.Has x) (he : edit.result s h = .ok s') :
    ∃ t e, s.find h edit.place = .ok (some t) ∧ edit.Yields s h t e ∧ Rewrites s s' t e := by
  cases edit with
  | add path added implicit =>
    obtain ⟨t, ht, hc, rfl⟩ := add_eq_ok he
    have hreach : ¬ s.Reaches added t := fun hr => by
      rw [hs.contains_iff.mpr hr] at hc
      cases hc
    exact ⟨t, _, resolve_eq_ok.mp ht, rfl,
      hs.attach_rewrites (hs.has_of_reaches hh (resolve_reaches ht))
        (hall added (List.mem_singleton_self _)) hreach⟩
  | replace path source =>
    obtain ⟨t, ht, rfl⟩ := replace_eq_ok he
    exact ⟨t, _, resolve_eq_ok.mp ht, rfl,
      hs.replace_rewrites (hs.has_of_reaches hh (resolve_reaches ht)) source⟩
  | remove path =>
    obtain ⟨parent, target, hp, ht, hne, rfl⟩ := remove_eq_ok he
    have htarget : s.find h path = .ok (some target) := resolve_eq_ok.mp ht
    have hparent : s.find h path.parent = .ok (some parent) := resolve_eq_ok.mp hp
    have hchild : s.Child parent target := by
      obtain ⟨p, hp, hchild⟩ := child_of_find hne htarget
      rw [hparent] at hp
      cases hp
      exact hchild
    obtain ⟨n, hn⟩ := has_iff.mp hchild.has_left
    rw [Child, children_eq hn] at hchild
    cases n with
    | leaf column op => cases hchild
    | junction kind children =>
      obtain ⟨before, after, rfl, hfirst⟩ := List.eq_append_cons_of_mem hchild
      exact ⟨parent, _, hparent, ⟨target, kind, before, after, htarget, hn, hfirst, rfl⟩,
        hs.detach_rewrites hn hfirst⟩

/-- **Each edit rewrites one node, and a failed edit none.** On a reachable store,
an edit that fails has written nothing. One that succeeds has given new content
to the node at its path (the parent path, if something is removed): an addition
comes last under a junction, and joined to it in the place of a leaf; a
replacement stands for what its source stood for before; what is removed goes
once. Every other node that was there is as before, every handle sees what it
saw with that node rewritten wherever it is met, and a handle that does not
reach the node sees no change. -/
theorem Reachable.edit_frame (hr : s.Reachable) (edit : Edit) (hh : s.Has h)
    (hall : ∀ x ∈ edit.handles, s.Has x) :
    (∀ err, edit.result s h = .error err → (edit.program h).run s = (.error err, s)) ∧
    ∀ s', edit.result s h = .ok s' → (edit.program h).run s = (.ok (), s') ∧
      ∃ t e, s.find h edit.place = .ok (some t) ∧ edit.Yields s h t e ∧ Rewrites s s' t e := by
  refine ⟨fun err he => ?_, fun s' he => ⟨?_, hr.sound.edit_rewrites hh hall he⟩⟩
  · rw [Edit.run_program, he, Edit.allOrNothing]
  · rw [Edit.run_program, he, Edit.allOrNothing]

/-- The `and` inside `shared` is replaced with the `or` around it. -/
theorem edit_frame_shared :
    (shared.Reachable ∧ shared.Has ⟨4⟩ ∧ ∀ x ∈ (Edit.replace ⟨["and"]⟩ ⟨4⟩).handles, shared.Has x) ∧
    ∃ s', shared.replace ⟨4⟩ ⟨["and"]⟩ ⟨4⟩ = .ok s' ∧ Rewrites shared s' ⟨3⟩ (shared.tree ⟨4⟩) := by
  refine ⟨⟨reachable_shared, by decide, by decide⟩, _, rfl, ?_⟩
  obtain ⟨-, t, e, ht, rfl, hone⟩ :=
    (reachable_shared.edit_frame (.replace ⟨["and"]⟩ ⟨4⟩) (show shared.Has ⟨4⟩ by decide)
      (by decide)).2 _ rfl
  have hthree : shared.find ⟨4⟩ ⟨["and"]⟩ = .ok (some ⟨3⟩) := rfl
  obtain rfl : t = ⟨3⟩ := by
    rw [Edit.place, hthree] at ht
    cases ht
    rfl
  exact hone

end Store
end QueryFilter
