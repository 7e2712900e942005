/-
# Runs on cells end, and never look at a held node

In a sound store no child of a node is that node, so a node may look at its
children while it is held; and the rank of a node bounds how deep a recursion
below it goes. So each operation on cells, with as many levels as there are
nodes, gives what the operation on the store gives, and no fault.

Key definitions: `Store.Safe`.
Key theorems: `Cells.foldWithin_eq`, `Cells.normalizeWithin_eq`,
`Store.Sound.safe`, `Store.Reachable.always_safe`.
-/
import QueryFilter.Proofs.Lists
import QueryFilter.Proofs.Store.Cells
import QueryFilter.Proofs.Store.Run

namespace QueryFilter

namespace Cells

open Store

variable {C β : Type} {s : Store C} {h p q c : Handle} {n : Node C} {fuel : Nat} {r : Handle → Nat}

theorem read_eq {held : List Handle} (hn : s.node? h = some n) (hh : h ∉ held) :
    read ⟨s, held⟩ h = .ok n := by
  rw [read, if_neg hh, hn]

theorem read_idle (hn : s.node? h = some n) : (idle s).read h = .ok n :=
  read_eq hn List.not_mem_nil

theorem hold_eq (hn : s.node? h = some n) : (idle s).hold h = .ok (n, ⟨s, [h]⟩) := by
  rw [hold, read_idle hn]
  rfl

/-- A held node that gets its new content is let go. -/
theorem put_eq (s : Store C) (h : Handle) (n : Node C) :
    put ⟨s, [h]⟩ h n = idle (s.overwrite h n) := by
  rw [put, List.erase_cons_head]
  rfl

/-! ### Looking below a node -/

theorem child_lt (hs : s.Sound) (hn : s.node? h = some n) (hc : c ∈ n.children) :
    s.Has c ∧ s.rank c < s.rank h :=
  ⟨hs.closed h c (child_of_mem hn hc), hs.ranked h c (child_of_mem hn hc)⟩

/-- A recursion gives its result within the rank of the node. -/
theorem foldWithin_eq {a : Expr.Algebra C β} {f : Expr C → β} (hs : s.Sound)
    (hf : Expr.Computes a f) : ∀ {fuel : Nat} {h : Handle}, s.Has h → s.rank h < fuel →
      (idle s).foldWithin a fuel h = .ok (f (s.tree h))
  | fuel + 1, h, hh, hfuel => by
    obtain ⟨n, hn⟩ := has_iff.mp hh
    rw [foldWithin, read_idle hn, hs.tree_eq hn]
    cases n with
    | leaf column op =>
      rw [unfold, hf.leaf]
      rfl
    | junction kind children =>
      have hall : ∀ c ∈ children, (idle s).foldWithin a fuel c = .ok (f (s.tree c)) := by
        intro c hc
        obtain ⟨hhas, hlt⟩ := child_lt hs hn hc
        exact foldWithin_eq hs hf hhas (by omega)
      simp only [bind, Except.bind, List.mapM_eq_ok hall, unfold, hf.junction, List.map_map]
      rfl

theorem fold_eq {a : Expr.Algebra C β} {f : Expr C → β} (hs : s.Sound) (hf : Expr.Computes a f)
    (hh : s.Has h) : (idle s).fold a h = .ok (f (s.tree h)) :=
  foldWithin_eq hs hf hh (hs.rank_lt_size hh)

theorem copy_eq (hs : s.Sound) (hh : s.Has h) :
    (idle s).copy h = .ok (idle (s.copy h).1, (s.copy h).2) := by
  rw [copy, fold_eq hs Expr.computes_rebuilding hh]
  rfl

theorem containsWithin_eq (hs : s.Sound) : ∀ {fuel : Nat} {h : Handle}, s.Has h →
    s.rank h < fuel → (idle s).containsWithin q fuel h = .ok (s.containsWithin q fuel h)
  | fuel + 1, h, hh, hfuel => by
    obtain ⟨n, hn⟩ := has_iff.mp hh
    rw [containsWithin, Store.containsWithin]
    by_cases hq : h = q
    · rw [if_pos hq, decide_eq_true hq, Bool.true_or]
    · have hall : ∀ c ∈ n.children,
          (idle s).containsWithin q fuel c = .ok (s.containsWithin q fuel c) := by
        intro c hc
        obtain ⟨hhas, hlt⟩ := child_lt hs hn hc
        exact containsWithin_eq hs hhas (by omega)
      rw [if_neg hq, decide_eq_false hq, Bool.false_or, children_eq hn, ← List.anyM_eq_ok hall,
        read_idle hn]
      rfl

theorem contains_eq (hs : s.Sound) (hh : s.Has h) :
    (idle s).contains h q = .ok (s.contains h q) :=
  containsWithin_eq hs hh (hs.rank_lt_size hh)

theorem sameWithin_eq [BEq C] (hs : s.Sound) : ∀ {fuel : Nat} {p q : Handle}, s.Has p → s.Has q →
    s.rank p < fuel → (idle s).sameWithin fuel p q = .ok (s.sameWithin fuel p q)
  | fuel + 1, p, q, hp, hq, hfuel => by
    obtain ⟨n, hn⟩ := has_iff.mp hp
    obtain ⟨n', hn'⟩ := has_iff.mp hq
    rw [sameWithin, Store.sameWithin, hn, hn']
    by_cases hpq : p = q
    · rw [if_pos hpq, decide_eq_true hpq, Bool.true_or]
    · rw [if_neg hpq, decide_eq_false hpq, Bool.false_or, read_idle hn, read_idle hn']
      simp only [bind, Except.bind]
      cases n with
      | leaf c op => cases n' <;> rfl
      | junction k as =>
        cases n' with
        | leaf c op => rfl
        | junction k' bs =>
          have hall : ∀ x ∈ as.zip bs,
              (idle s).sameWithin fuel x.1 x.2 = .ok (s.sameWithin fuel x.1 x.2) := by
            rintro ⟨x, y⟩ hxy
            obtain ⟨hx, hy⟩ := List.of_mem_zip hxy
            obtain ⟨hx, hlt⟩ := child_lt hs hn hx
            obtain ⟨hy, -⟩ := child_lt hs hn' hy
            exact sameWithin_eq hs hx hy (Nat.lt_of_lt_of_le hlt (Nat.le_of_lt_succ hfuel))
          dsimp only
          rw [List.allM_eq_ok hall]
          cases k == k' && as.length == bs.length <;> rfl

theorem same_eq [BEq C] (hs : s.Sound) (hp : s.Has p) (hq : s.Has q) :
    (idle s).same p q = .ok (s.same p q) :=
  sameWithin_eq hs hp hq (hs.rank_lt_size hp)

/-! ### Normalizing -/

/-- The children of a node may be looked at while it is held. -/
theorem read_child (hs : s.Sound) (hc : s.Child h c) : ∃ n, s.node? c = some n ∧
    read ⟨s, [h]⟩ c = .ok n := by
  obtain ⟨n, hn⟩ := has_iff.mp (hs.closed h c hc)
  refine ⟨n, hn, read_eq hn fun hmem => ?_⟩
  rw [List.mem_singleton.mp hmem] at hc
  exact hs.acyclic h hc.below

theorem keep_eq {held : List Handle} : ∀ {cs : List Handle},
    (∀ c ∈ cs, ∃ n, read ⟨s, held⟩ c = .ok n) →
    keep ⟨s, held⟩ cs = .ok (cs.filter fun c => !s.isEmpty c)
  | [], _ => rfl
  | c :: rest, hall => by
    obtain ⟨⟨n, hn⟩, hrest⟩ := List.forall_mem_cons.mp hall
    rw [keep, hn, keep_eq hrest, List.filter_cons]
    simp only [bind, Except.bind]
    cases s.isEmpty c <;> rfl

theorem settle_eq (hs : s.Sound) (hh : s.Has h) : (idle s).settle h = .ok (idle (s.settle h)) := by
  obtain ⟨n, hn⟩ := has_iff.mp hh
  rw [settle, Store.settle, hold_eq hn, hn]
  cases n with
  | leaf column op => rfl
  | junction kind children =>
    have hchild : ∀ c ∈ children, s.Child h c := fun c hc => child_of_mem hn hc
    have hkeep : keep ⟨s, [h]⟩ children = .ok (children.filter fun c => !s.isEmpty c) :=
      keep_eq fun c hc => by
        obtain ⟨n, -, hread⟩ := read_child hs (hchild c hc)
        exact ⟨n, hread⟩
    have honly : ∀ c ∈ children.filter fun c => !s.isEmpty c, s.Child h c := fun c hc =>
      hchild c (List.mem_filter.mp hc).1
    simp only [bind, Except.bind, hkeep]
    generalize children.filter (fun c => !s.isEmpty c) = kept at honly ⊢
    rcases kept with _ | ⟨only, _ | ⟨next, rest⟩⟩
    · simp only [put_eq]
    · obtain ⟨content, hn', hread⟩ := read_child hs (honly only (List.mem_singleton_self only))
      simp only [hread, hn', put_eq]
    · simp only [put_eq]

-- a junction that is its own child would be held when it is looked at
example : (idle ⟨#[.junction .and [⟨0⟩]]⟩ : Cells Column).settle ⟨0⟩ = .error (.held ⟨0⟩) := rfl

/-- **Normalizing.** A node is normalized within any measure that goes down from
nodes to their children. -/
theorem normalizeWithin_eq : ∀ {fuel : Nat} {s : Store C} {h : Handle}, s.Sound → s.Ranked r →
    s.Has h → r h < fuel →
    normalizeWithin fuel (idle s) h = .ok (idle (Store.normalizeWithin fuel s h))
  | fuel + 1, s, h, hs, hr, hh, hfuel => by
    obtain ⟨n, hn⟩ := has_iff.mp hh
    rw [normalizeWithin, Store.normalizeWithin, read_idle hn, hn]
    cases n with
    | leaf column op => rfl
    | junction kind children =>
      have hfold : ∀ (cs : List Handle) {s' : Store C}, Settling s s' r →
          (∀ c ∈ cs, s.Has c ∧ r c < fuel) →
          cs.foldlM (normalizeWithin fuel) (idle s') =
              .ok (idle (cs.foldl (Store.normalizeWithin fuel) s')) ∧
            Settling s (cs.foldl (Store.normalizeWithin fuel) s') r := by
        intro cs
        induction cs with
        | nil => exact fun hs' _ => ⟨rfl, hs'⟩
        | cons c rest ih =>
          intro s' hs' hcs
          obtain ⟨⟨hc, hlt⟩, hrest⟩ := List.forall_mem_cons.mp hcs
          have hnext : Settling s (Store.normalizeWithin fuel s' c) r :=
            normalizeWithin_keeps (P := fun s' => Settling s s' r) (fun _ h hs => hs.settle h) fuel c
              hs'
          rw [List.foldlM_cons, normalizeWithin_eq hs'.sound hs'.ranked (hs'.has hc) hlt]
          exact ih hnext hrest
      have hchildren : ∀ c ∈ children, s.Has c ∧ r c < fuel := by
        intro c hc
        have hchild : s.Child h c := child_of_mem hn hc
        have := hr h c hchild
        exact ⟨hs.closed h c hchild, by omega⟩
      obtain ⟨hok, hs'⟩ := hfold children ⟨hs, hr, rfl⟩ hchildren
      simp only [bind, Except.bind, hok]
      exact settle_eq hs'.sound (hs'.has hh)

theorem normalize_eq (hs : s.Sound) (hh : s.Has h) :
    (idle s).normalize h = .ok (idle (s.normalize h)) :=
  normalizeWithin_eq hs hs.ranked hh (hs.rank_lt_size hh)

/-! ### Finding -/

theorem first_eq (p : Handle → Bool) : ∀ {cs : List Handle}, (∀ c ∈ cs, s.Has c) →
    (idle s).first p cs = .ok (cs.find? p)
  | [], _ => rfl
  | c :: rest, hall => by
    obtain ⟨hc, hrest⟩ := List.forall_mem_cons.mp hall
    obtain ⟨n, hn⟩ := has_iff.mp hc
    rw [first, read_idle hn, List.find?_cons]
    simp only [bind, Except.bind]
    cases p c with
    | true => rfl
    | false => exact first_eq p hrest

theorem descend_eq (hs : s.Sound) : ∀ {kinds : List Junction} {h : Handle}, s.Has h →
    (idle s).descend h kinds = .ok (s.descend h kinds)
  | [], _, _ => rfl
  | kind :: rest, h, hh => by
    obtain ⟨n, hn⟩ := has_iff.mp hh
    have hchildren : ∀ c ∈ n.children, s.Has c := fun c hc => (child_lt hs hn hc).1
    have hfirst := first_eq (fun c => s.kind? c = some kind) hchildren
    rw [descend, Store.descend, read_idle hn, children_eq hn]
    simp only [bind, Except.bind]
    rw [show (idle s).store = s from rfl, hfirst]
    cases hf : n.children.find? fun c => s.kind? c = some kind with
    | none => rfl
    | some c => exact descend_eq hs (hchildren c (List.mem_of_find?_eq_some hf))

variable [ColumnRef C] {path : Path}

theorem select_eq (hs : s.Sound) (hh : s.Has h) (segment : String) :
    (idle s).select h segment = .ok (s.select h segment) := by
  obtain ⟨n, hn⟩ := has_iff.mp hh
  rw [select, Store.select, read_idle hn, children_eq hn]
  exact first_eq _ fun c hc => (child_lt hs hn hc).1

theorem find_eq (hs : s.Sound) (hh : s.Has h) : (idle s).find h path = .ok (s.find h path) := by
  rw [find, Store.find]
  cases path.segments.getLast? with
  | none => rfl
  | some last =>
    cases Path.junctions path.parent.segments with
    | error err => rfl
    | ok kinds =>
      simp only [bind, Except.bind, descend_eq hs hh]
      cases hd : s.descend h kinds with
      | none => rfl
      | some parent =>
        dsimp only
        rw [select_eq hs (hs.has_of_reaches hh (descend_reaches hd))]
        rfl

theorem resolve_eq (hs : s.Sound) (hh : s.Has h) :
    (idle s).resolve h path = .ok (s.resolve h path) := by
  rw [resolve, find_eq hs hh, Store.resolve]
  cases s.find h path with
  | error err => rfl
  | ok found => cases found <;> rfl

/-! ### Edits by path -/

theorem add_eq (hs : s.Sound) (hh : s.Has h) {added : Handle} (ha : s.Has added)
    (implicit : Junction) :
    (idle s).add h path added implicit = .ok ((s.add h path added implicit).map idle) := by
  rw [add, Store.add, resolve_eq hs hh]
  cases ht : s.resolve h path with
  | error err => rfl
  | ok target =>
    obtain ⟨n, hn⟩ := has_iff.mp (hs.has_of_reaches hh (resolve_reaches ht))
    simp only [bind, Except.bind, contains_eq hs ha, hold_eq hn]
    cases s.contains added target with
    | true => rfl
    | false =>
      simp only [Bool.false_eq_true, ↓reduceIte, attach, hn]
      cases n with
      | leaf column op =>
        dsimp only
        rw [put_eq]
        rfl
      | junction kind children =>
        dsimp only
        rw [put_eq]
        rfl

theorem replace_eq (hs : s.Sound) (hh : s.Has h) {source : Handle} (hsource : s.Has source) :
    (idle s).replace h path source = .ok ((s.replace h path source).map idle) := by
  rw [replace, Store.replace, resolve_eq hs hh]
  cases ht : s.resolve h path with
  | error err => rfl
  | ok target =>
    have htarget := hs.has_of_reaches hh (resolve_reaches ht)
    obtain ⟨n, hn⟩ := has_iff.mp htarget
    have hn' : (s.graft (s.tree source)).1.node? target = some n := by
      rw [(hs.graft (s.tree source)).grown.kept target htarget, hn]
    have hhold := hold_eq hn'
    rw [idle] at hhold
    simp only [bind, Except.bind, fold_eq hs Expr.computes_rebuilding hsource]
    rw [show (idle s).store = s from rfl, show (idle s).held = [] from rfl]
    simp only [id_eq, hhold, put_eq]
    rfl

theorem remove_eq (hs : s.Sound) (hh : s.Has h) :
    (idle s).remove h path = .ok ((s.remove h path).map idle) := by
  rw [remove, Store.remove]
  cases path.isEmpty with
  | true => rfl
  | false =>
    simp only [Bool.false_eq_true, ↓reduceIte, resolve_eq hs hh, bind, Except.bind]
    cases hp : s.resolve h path.parent with
    | error err => rfl
    | ok parent =>
      obtain ⟨n, hn⟩ := has_iff.mp (hs.has_of_reaches hh (resolve_reaches hp))
      dsimp only
      cases s.resolve h path with
      | error err => rfl
      | ok target =>
        simp only [hold_eq hn, detach, hn]
        cases n with
        | leaf column op => rfl
        | junction kind children =>
          dsimp only
          rw [put_eq]
          rfl

end Cells

namespace Store

variable {C : Type} [ColumnRef C] {s : Store C}

/-- No node is below itself, and every operation on nodes of the store, as it
runs on cells, gives what it gives on the store: it comes to its end, and never
looks at a node that it holds. -/
structure Safe (s : Store C) : Prop where
  acyclic : s.Acyclic
  contains : ∀ h target, s.Has h → (Cells.idle s).contains h target = .ok (s.contains h target)
  same : ∀ [BEq C] a b, s.Has a → s.Has b → (Cells.idle s).same a b = .ok (s.same a b)
  copy : ∀ h, s.Has h → (Cells.idle s).copy h = .ok (.idle (s.copy h).1, (s.copy h).2)
  render : ∀ {P Q : Type} (b : Backend C P Q) h, s.Has h →
    (Cells.idle s).render b h = .ok ((s.tree h).render b)
  display : ∀ h, s.Has h → (Cells.idle s).display h = .ok (s.tree h).display
  dump : ∀ h, s.Has h → (Cells.idle s).dump h = .ok (s.tree h).dump
  normalize : ∀ h, s.Has h → (Cells.idle s).normalize h = .ok (.idle (s.normalize h))
  find : ∀ h path, s.Has h → (Cells.idle s).find h path = .ok (s.find h path)
  add : ∀ h path added implicit, s.Has h → s.Has added →
    (Cells.idle s).add h path added implicit = .ok ((s.add h path added implicit).map .idle)
  replace : ∀ h path source, s.Has h → s.Has source →
    (Cells.idle s).replace h path source = .ok ((s.replace h path source).map .idle)
  remove : ∀ h path, s.Has h →
    (Cells.idle s).remove h path = .ok ((s.remove h path).map .idle)

theorem Sound.safe (hs : s.Sound) : s.Safe where
  acyclic := hs.acyclic
  contains _ _ hh := Cells.contains_eq hs hh
  same _ _ ha hb := Cells.same_eq hs ha hb
  copy _ hh := Cells.copy_eq hs hh
  render b _ hh := Cells.fold_eq hs (Expr.computes_rendering b) hh
  display _ hh := Cells.fold_eq hs Expr.computes_showing hh
  dump h hh := by
    rw [Cells.dump, Cells.fold_eq hs Expr.computes_writing hh]
    rfl
  normalize _ hh := Cells.normalize_eq hs hh
  find _ _ hh := Cells.find_eq hs hh
  add _ _ _ implicit hh ha := Cells.add_eq hs hh ha implicit
  replace _ _ _ hh hsource := Cells.replace_eq hs hh hsource
  remove _ _ hh := Cells.remove_eq hs hh

/-- **No run makes a cycle.** After any run of operations no node is below
itself; so all operations come to their end, and none looks at a node while it
rewrites it. -/
theorem Reachable.always_safe (hr : s.Reachable) : s.Safe := hr.sound.safe

theorem safe_shared : shared.Reachable ∧ shared.Acyclic ∧
    (Cells.idle shared).normalize ⟨3⟩ = .ok (.idle (shared.normalize ⟨3⟩)) :=
  ⟨reachable_shared, reachable_shared.always_safe.acyclic,
    reachable_shared.always_safe.normalize ⟨3⟩ (by decide)⟩

end Store
end QueryFilter
