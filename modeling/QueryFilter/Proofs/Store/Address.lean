/-
# Every node has an address

Below an expression that can be written, a junction is addressed by the names of the
junctions from the first one down to it, and a leaf by the names of those around it and a
segment with its column, its operator and the text of its value
(`Store.Addresses`). Finding takes the first child that a segment selects and never
goes back. That it finds the node that is meant is because no two members of a junction
clash: members that one such segment selects would be written under one key, and an `and`
would not take them together.

Key definitions: `Selector.ofLeaf`, `Expr.Addressable`, `Store.Addresses`,
`Store.LeadsTo`.
Key theorems: `Selector.parse_ofLeaf`, `Store.Sound.eq_of_clashing`,
`Store.Addresses.find`, `Store.Reachable.addresses_lead`.
-/
import Mathlib.Data.List.Pairwise
import QueryFilter.Proofs.Expr.Collision
import QueryFilter.Proofs.Keyword
import QueryFilter.Proofs.Store.Frame

namespace QueryFilter

/-! ### The segment of a leaf -/

namespace Selector

variable {C : Type} [ColumnRef C]

/-- The segment with all that can be said of a leaf. -/
def ofLeaf (column : C) (op : Operator) : String :=
  ColumnRef.reference column ++ ":" ++ op.symbol ++ "-" ++ op.value.display

/-- **Reading it.** Whatever characters are in the reference, a colon excepted, and in the
value, the parts of the segment are read as they were written. -/
theorem parse_ofLeaf {column : C} (hcolon : ':' ∉ (ColumnRef.reference column).toList)
    (op : Operator) :
    parse (ofLeaf column op) = .value (ColumnRef.reference column) op.symbol op.value.display := by
  have hjunction : Junction.ofName? (ofLeaf column op) = none :=
    Junction.ofName?_of_mem (show ':' ∈ (ofLeaf column op).toList by simp [ofLeaf]) (by decide)
  have hcolumn : Text.cut? ':' (ofLeaf column op) =
      some (ColumnRef.reference column, op.symbol ++ String.singleton '-' ++ op.value.display) := by
    rw [← Text.cut?_append _ hcolon]
    simp [ofLeaf, String.append_assoc]
  have hsymbol : Text.cut? '-' (op.symbol ++ String.singleton '-' ++ op.value.display) =
      some (op.symbol, op.value.display) := by
    refine Text.cut?_append _ ?_
    rw [Operator.symbol]
    cases op.kind <;> decide
  rw [parse, hjunction, hcolumn]
  dsimp only
  rw [hsymbol]

end Selector

namespace Expr

variable {C : Type} [ColumnRef C] {kind : Junction} {es : List (Expr C)} {a b e : Expr C}

/-! ### Members that are told apart -/

theorem Together.symm (h : Together kind a b) (hk : a.key = b.key) : Together kind b a := by
  obtain ⟨hkind, hname, column, op, column', op', rfl, rfl, hne⟩ := h
  exact ⟨hkind, hk ▸ hname, column', op', column, op, rfl, rfl, hne.symm⟩

theorem Clashing.symm (h : Clashing kind a b) : Clashing kind b a :=
  ⟨h.1.symm, fun ht => h.2 (ht.symm h.1.symm)⟩

theorem clashing_self (kind : Junction) (e : Expr C) : Clashing kind e e := by
  refine ⟨rfl, ?_⟩
  rintro ⟨-, -, column, op, column', op', rfl, heq, hne⟩
  cases heq
  exact hne rfl

/-- Two junctions of one kind clash. -/
theorem clashing_junctions (kind inner : Junction) (es es' : List (Expr C)) :
    Clashing kind (.junction inner es) (.junction inner es') := by
  refine ⟨rfl, ?_⟩
  rintro ⟨-, -, column, op, -, -, heq, -⟩
  cases heq

/-- Two leaves of one reference and one comparison clash. -/
theorem clashing_leaves {column column' : C} {op op' : Operator}
    (hcolumn : ColumnRef.reference column = ColumnRef.reference column')
    (hkind : op.kind = op'.kind) : Clashing kind (.leaf column op) (.leaf column' op') := by
  refine ⟨hcolumn, ?_⟩
  rintro ⟨-, -, column, op, column', op', heq, heq', hne⟩
  cases heq
  cases heq'
  exact hne hkind

/-- What paths can tell apart: an expression that can be written, with columns that have
one name, without a colon in it. -/
structure Addressable (e : Expr C) : Prop where
  clear : ¬ e.Collides
  named : ∀ l ∈ e.leaves, ColumnRef.name l.1 = ColumnRef.reference l.1 ∧
    ':' ∉ (ColumnRef.reference l.1).toList

theorem Addressable.member (h : Addressable (.junction kind es)) (he : e ∈ es) : Addressable e where
  clear := (not_collides_junction_iff.mp h.clear).1 e he
  named := forall_leaves_junction.mp h.named e he

end Expr

namespace Store

variable {C : Type} [ColumnRef C] {s s' : Store C} {h p c d : Handle} {kind : Junction}
  {children : List Handle}

/-! ### Children that are told apart -/

/-- No two children of a node clash. -/
theorem Sound.pairwise_children (hs : s.Sound) (hp : s.node? p = some (.junction kind children))
    (haddr : (s.tree p).Addressable) :
    children.Pairwise fun a b => ¬ Expr.Clashing kind (s.tree a) (s.tree b) := by
  have hclear := haddr.clear
  rw [hs.tree_eq hp, unfold, Expr.not_collides_junction_iff] at hclear
  exact List.pairwise_map.mp hclear.2

/-- **One child.** Children that clash are one. -/
theorem Sound.eq_of_clashing (hs : s.Sound) (hp : s.node? p = some (.junction kind children))
    (haddr : (s.tree p).Addressable) (hc : c ∈ children) (hd : d ∈ children)
    (hclash : Expr.Clashing kind (s.tree c) (s.tree d)) : c = d := by
  by_contra hne
  have hsymm : Std.Symm fun a b => ¬ Expr.Clashing kind (s.tree a) (s.tree b) :=
    ⟨fun _ _ h hc => h hc.symm⟩
  exact (hs.pairwise_children hp haddr).forall hc hd hne hclash

/-- A child stands in its place only. -/
theorem Sound.nodup_children (hs : s.Sound) (hp : s.node? p = some (.junction kind children))
    (haddr : (s.tree p).Addressable) : children.Nodup :=
  (hs.pairwise_children hp haddr).imp fun {a b} hclear he => by
    rw [he] at hclear
    exact hclear (Expr.clashing_self kind _)

theorem Sound.addressable_child (hs : s.Sound) (haddr : (s.tree p).Addressable)
    (hc : s.Child p c) : (s.tree c).Addressable := by
  obtain ⟨n, hn⟩ := has_iff.mp hc.has_left
  rw [Child, children_eq hn] at hc
  rw [hs.tree_eq hn] at haddr
  cases n with
  | leaf column op => cases hc
  | junction kind children => exact haddr.member (List.mem_map_of_mem hc)

theorem Sound.addressable_of_reaches (hs : s.Sound) (haddr : (s.tree p).Addressable)
    (hr : s.Reaches p c) : (s.tree c).Addressable := by
  induction hr with
  | refl => exact haddr
  | tail _ hc ih => exact hs.addressable_child ih hc

/-- What selects a child, and else only children that clash with it, finds it. -/
theorem Sound.find?_children (hs : s.Sound) (haddr : (s.tree p).Addressable) (hd : s.Child p d)
    {selects : Handle → Bool} (hself : selects d = true)
    (hclash : ∀ kind c, s.Child p c → selects c = true → Expr.Clashing kind (s.tree c) (s.tree d)) :
    (s.children p).find? selects = some d := by
  obtain ⟨n, hn⟩ := has_iff.mp hd.has_left
  cases n with
  | leaf column op =>
    rw [Child, children_eq hn] at hd
    cases hd
  | junction kind children =>
    cases hfound : (s.children p).find? selects with
    | none =>
      rw [List.find?_eq_none] at hfound
      exact absurd hself (hfound d hd)
    | some c =>
      have hc : s.Child p c := List.mem_of_find?_eq_some hfound
      have hclashing := hclash kind c hc (List.find?_some hfound)
      rw [Child, children_eq hn] at hc hd
      rw [hs.eq_of_clashing hn haddr hc hd hclashing]

/-- A junction is found by its kind. -/
theorem Sound.descend_child (hs : s.Sound) (haddr : (s.tree p).Addressable) (hd : s.Child p d)
    (hkind : s.kind? d = some kind) : s.descend p [kind] = some d := by
  have htree : ∀ {c}, s.kind? c = some kind → ∃ es, s.tree c = .junction kind es := by
    intro c hc
    obtain ⟨n, hn, hk⟩ := Option.bind_eq_some_iff.mp hc
    cases n with
    | leaf column op => cases hk
    | junction kind' children =>
      cases hk
      exact ⟨children.map s.tree, hs.tree_eq hn⟩
  have hfound : ((s.children p).find? fun c => decide (s.kind? c = some kind)) = some d := by
    refine hs.find?_children haddr hd (decide_eq_true hkind) fun outer c _ hc => ?_
    obtain ⟨es, hes⟩ := htree (of_decide_eq_true hc)
    obtain ⟨es', hes'⟩ := htree hkind
    rw [hes, hes']
    exact Expr.clashing_junctions outer kind es es'
  rw [descend, hfound]
  rfl

/-- A leaf is found by all that can be said of it. -/
theorem Sound.select_child (hs : s.Sound) (haddr : (s.tree p).Addressable) (hd : s.Child p d)
    {column : C} {op : Operator} (hn : s.node? d = some (.leaf column op)) :
    s.select p (Selector.ofLeaf column op) = some d := by
  have hnamed : ∀ {c column op}, s.Child p c → s.node? c = some (.leaf column op) →
      ColumnRef.name column = ColumnRef.reference column ∧
        ':' ∉ (ColumnRef.reference column).toList := by
    intro c column op hc hn
    refine (hs.addressable_child haddr hc).named (column, op) ?_
    rw [hs.tree_eq hn, unfold, Expr.leaves_leaf]
    exact List.mem_singleton_self _
  obtain ⟨hname, hcolon⟩ := hnamed hd hn
  rw [select, Selector.parse_ofLeaf hcolon]
  refine hs.find?_children haddr hd ?_ fun outer c hc hselected => ?_
  · rw [isSelected, hn]
    simp [Selector.matchesLeaf, hname, Operator.symbol, OperatorKind.ofSymbol?_symbol]
  · rw [isSelected] at hselected
    split at hselected
    · simp at hselected
    · rename_i column' op' hn'
      have hname' := (hnamed hc hn').1
      simp only [Selector.matchesLeaf, hname', Bool.or_self, Operator.symbol,
        OperatorKind.ofSymbol?_symbol, Bool.and_eq_true, decide_eq_true_eq, Option.some.injEq]
        at hselected
      obtain ⟨⟨hcolumn, hkind⟩, -⟩ := hselected
      rw [hs.tree_eq hn', hs.tree_eq hn]
      exact Expr.clashing_leaves hcolumn.symm hkind.symm
    · cases hselected

/-! ### Addresses -/

/-- The addresses of nodes below a node: the names of the junctions from the first below it
on, with the segment of a leaf behind the names of those around it. -/
inductive Addresses (s : Store C) : Handle → List String → Handle → Prop
  | junction {p d : Handle} {kind : Junction} (hd : s.Child p d) (hkind : s.kind? d = some kind) :
    Addresses s p [kind.name] d
  | leaf {p d : Handle} {column : C} {op : Operator} (hd : s.Child p d)
    (hn : s.node? d = some (.leaf column op)) : Addresses s p [Selector.ofLeaf column op] d
  | inside {p c d : Handle} {kind : Junction} {segments : List String} (hc : s.Child p c)
    (hkind : s.kind? c = some kind) (hd : Addresses s c segments d) :
    Addresses s p (kind.name :: segments) d

namespace Addresses

variable {segments : List String}

theorem ne_nil (ha : s.Addresses p segments d) : segments ≠ [] := by
  cases ha <;> exact List.cons_ne_nil _ _

/-- Every node below a node has an address. -/
theorem of_below (hs : s.Sound) (hb : s.Below p d) : ∃ segments, s.Addresses p segments d := by
  induction hb using Relation.TransGen.head_induction_on with
  | @single p hd =>
    obtain ⟨n, hn⟩ := has_iff.mp (hs.closed p d hd)
    cases n with
    | leaf column op => exact ⟨_, .leaf hd hn⟩
    | junction kind children => exact ⟨[kind.name], .junction hd (by rw [kind?, hn]; rfl)⟩
  | @head p c hc hb ih =>
    obtain ⟨segments, ha⟩ := ih
    obtain ⟨x, hx, -⟩ := Relation.TransGen.head'_iff.mp hb
    obtain ⟨n, hn⟩ := has_iff.mp hx.has_left
    rw [Child, children_eq hn] at hx
    cases n with
    | leaf column op => cases hx
    | junction kind children =>
      exact ⟨kind.name :: segments, .inside hc (by rw [kind?, hn]; rfl) ha⟩

/-- **Finding.** An address leads to its node and to no other. -/
theorem find (ha : s.Addresses p segments d) (hs : s.Sound) (haddr : (s.tree p).Addressable) :
    s.find p ⟨segments⟩ = .ok (some d) := by
  have hname : ∀ kind : Junction, Path.junctions [kind.name] = .ok [kind] := fun kind => by
    rw [Path.junctions, Junction.ofName?_name]
    rfl
  induction ha with
  | junction hd hkind => rw [find_of_junctions (hname _), hs.descend_child haddr hd hkind]
  | leaf hd hn =>
    have hselect := hs.select_child haddr hd hn
    exact congrArg Except.ok hselect
  | inside hc hkind _ ih =>
    have hdescend := hs.descend_child haddr hc hkind
    exact (find_append (hname _) hdescend _).trans (ih (hs.addressable_child haddr hc))

end Addresses

/-- A path that leads to a node, and through which edits act on that node only: it gets what
is added and what it is replaced with, and it is the one entry of its parent that is taken
away. -/
structure LeadsTo (s : Store C) (h : Handle) (path : Path) (d : Handle) : Prop where
  find : s.find h path = .ok (some d)
  add : ∀ added implicit, s.Has added → ¬ s.Reaches added d → ∃ s',
    s.add h path added implicit = .ok s' ∧
      Rewrites s s' d ((s.tree d).extend implicit (s.tree added))
  replace : ∀ source, ∃ s', s.replace h path source = .ok s' ∧ Rewrites s s' d (s.tree source)
  remove : ∃ s' p kind before after, s.remove h path = .ok s' ∧
    s.find h path.parent = .ok (some p) ∧
      s.node? p = some (.junction kind (before ++ d :: after)) ∧ d ∉ before ∧ d ∉ after ∧
        Rewrites s s' p (.junction kind ((before ++ after).map s.tree))

/-- A path that finds a node below leads to it. -/
theorem Sound.leadsTo (hs : s.Sound) (hh : s.Has h) (haddr : (s.tree h).Addressable) {path : Path}
    (hne : path.isEmpty = false) (hfind : s.find h path = .ok (some d)) : s.LeadsTo h path d where
  find := hfind
  add added implicit ha hr := by
    have ht : s.resolve h path = .ok d := resolve_eq_ok.mpr hfind
    have hcontains : s.contains added d = false := by
      rw [← Bool.not_eq_true, hs.contains_iff]
      exact hr
    refine ⟨s.attach d added implicit, ?_, hs.attach_rewrites ?_ ha hr⟩
    · rw [Store.add, ht]
      show (if s.contains added d = true then _ else _) = _
      rw [hcontains]
      rfl
    · exact hs.has_of_reaches hh (resolve_reaches ht)
  replace source := by
    have ht : s.resolve h path = .ok d := resolve_eq_ok.mpr hfind
    refine ⟨_, ?_, hs.replace_rewrites (hs.has_of_reaches hh (resolve_reaches ht)) source⟩
    rw [Store.replace, ht]
    rfl
  remove := by
    obtain ⟨parent, hparent, -⟩ := child_of_find hne hfind
    have he : (Edit.remove path).result s h = .ok (s.detach parent d) := by
      rw [Edit.result, Store.remove, hne, resolve_eq_ok.mpr hparent, resolve_eq_ok.mpr hfind]
      rfl
    obtain ⟨p, e, hp, ⟨target, kind, before, after, ht, hn, hbefore, rfl⟩, hone⟩ :=
      hs.edit_rewrites hh (fun x hx => by cases hx) he
    obtain rfl : target = d := by
      rw [hfind] at ht
      cases ht
      rfl
    have haddr' : (s.tree p).Addressable :=
      hs.addressable_of_reaches haddr (resolve_reaches (resolve_eq_ok.mpr hp))
    have hrest := (List.nodup_append.mp (hs.nodup_children hn haddr')).2.1
    exact ⟨_, p, kind, before, after, he, hp, hn, hbefore, (List.nodup_cons.mp hrest).1, hone⟩

/-- **Paths address every node.** Below a node of a reachable store, of which the expression
can be written and the columns have one name without a colon, every node has an address,
and each of its addresses leads to it. -/
theorem Reachable.addresses_lead (hr : s.Reachable) {members : List (String × Json)}
    (hdump : (s.tree h).dump = .ok members)
    (hnamed : ∀ l ∈ (s.tree h).leaves, ColumnRef.name l.1 = ColumnRef.reference l.1 ∧
      ':' ∉ (ColumnRef.reference l.1).toList) :
    (∀ d, s.Below h d → ∃ segments, s.Addresses h segments d) ∧
    ∀ segments d, s.Addresses h segments d → s.LeadsTo h ⟨segments⟩ d := by
  have hs : s.Sound := hr.sound
  have haddr : (s.tree h).Addressable := by
    obtain ⟨en, hen, -⟩ := Except.map_eq_ok.mp hdump
    exact ⟨(Expr.entry_ok_iff _).mp ⟨en, hen⟩, hnamed⟩
  refine ⟨fun d hd => Addresses.of_below hs hd, fun segments d ha => ?_⟩
  have hh : s.Has h := by
    cases ha with
    | junction hd _ | leaf hd _ => exact hd.has_left
    | inside hc _ _ => exact hc.has_left
  exact hs.leadsTo hh haddr (by simpa [Path.isEmpty] using ha.ne_nil) (ha.find hs haddr)

/-- An `and` of two comparisons of one column, in an `or` beside one of them. -/
def hyphenated : Store Column :=
  (((empty.after (.leaf (.plain "tt" "a-b") ⟨.eq, .string "x:y-z", by decide⟩)).after
    (.leaf (.plain "tt" "a-b") ⟨.notIn, .array [.int 1], by decide⟩)).after
    (.junction .and [⟨1⟩, ⟨0⟩])).after (.junction .or [⟨2⟩, ⟨0⟩])

theorem addresses_lead_hyphenated :
    hyphenated.Reachable ∧ hyphenated.LeadsTo ⟨3⟩ ⟨["and", "a-b:eq-x:y-z"]⟩ ⟨0⟩ ∧
      hyphenated.LeadsTo ⟨3⟩ ⟨["a-b:eq-x:y-z"]⟩ ⟨0⟩ := by
  have hreachable : hyphenated.Reachable :=
    .step (.step (.step (.step .empty _ (by decide)) _ (by decide)) _ (by decide)) _ (by decide)
  obtain ⟨-, hlead⟩ := hreachable.addresses_lead (h := ⟨3⟩) rfl (by decide)
  have hsegment : Selector.ofLeaf (Column.plain "tt" "a-b") ⟨.eq, .string "x:y-z", by decide⟩ =
      "a-b:eq-x:y-z" := by decide
  have hleaf : ∀ p, hyphenated.Child p ⟨0⟩ → hyphenated.Addresses p ["a-b:eq-x:y-z"] ⟨0⟩ :=
    fun p hp => hsegment ▸ .leaf hp rfl
  refine ⟨hreachable, hlead _ _ ?_, hlead _ _ (hleaf ⟨3⟩ (by decide))⟩
  have hand : hyphenated.kind? ⟨2⟩ = some .and := rfl
  exact .inside (show hyphenated.Child ⟨3⟩ ⟨2⟩ by decide) hand (hleaf ⟨2⟩ (by decide))

end Store
end QueryFilter
