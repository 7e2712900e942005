/-
# Where the bound on the depth stops a walk

What is written for an expression compiles if its leaves do not lie too deep
(`Compiler.compileNode_entry`). If one of them does, the walk ends there, and with no other
error: what it meets before either compiles or is too deep as well
(`Compiler.compileNode_tooDeep`).

Key definitions: `Compiler.Deep`.
Key theorems: `Compiler.compileNodes_error`, `Compiler.compileNode_tooDeep`.
-/
import QueryFilter.Proofs.Compiler.RoundTrip

namespace QueryFilter
namespace Compiler

variable {C : Type} [ColumnRef C] {c : Compiler C} {around : Option String} {depth : Nat}
  {m : Modifiers C}

/-! ### Below the bound -/

theorem compileNode_of_lt (hd : c.settings.maxDepth.toNat < depth) (node : InputNode) :
    c.compileNode around depth m node = .error (.tooDeep c.settings.maxDepth) := by
  rw [compileNode_eq, visit, if_pos hd]
  rfl

theorem compileNodes_of_lt (hd : c.settings.maxDepth.toNat < depth) {nodes : List InputNode}
    (hne : nodes ≠ []) :
    c.compileNodes around depth m nodes = .error (.tooDeep c.settings.maxDepth) := by
  obtain ⟨node, rest, rfl⟩ := List.exists_cons_of_ne_nil hne
  rw [compileNodes_cons, compileNode_of_lt hd]
  rfl

/-- Where each node compiles or ends in one error, and one of them ends in it, so do all of
them side by side. -/
theorem compileNodes_error {α : Type} {node : α → InputNode} {err : FilterError} :
    ∀ {as : List α},
      (∀ a ∈ as, (∃ e, c.compileNode around depth m (node a) = .ok (e, m)) ∨
        c.compileNode around depth m (node a) = .error err) →
      (∃ a ∈ as, c.compileNode around depth m (node a) = .error err) →
      c.compileNodes around depth m (as.map node) = .error err
  | [], _, ⟨a, ha, _⟩ => by cases ha
  | a :: rest, hall, ⟨a', ha', herr⟩ => by
    obtain ⟨ha, hrest⟩ := List.forall_mem_cons.mp hall
    rw [List.map_cons, compileNodes_cons]
    rcases ha with ⟨e, hok⟩ | herr'
    · have hlater : a' ∈ rest := by
        rcases List.mem_cons.mp ha' with rfl | h
        · rw [hok] at herr
          cases herr
        · exact h
      rw [hok]
      simp only [Except.bind, compileNodes_error hrest ⟨a', hlater, herr⟩, Except.map]
    · rw [herr']
      rfl

/-! ### Expressions that lie too deep -/

/-- Whether a leaf of an expression lies below the bound, if the expression is written
`depth` levels down. -/
def Deep (c : Compiler C) (depth : Nat) (e : Expr C) : Prop :=
  ∃ d ∈ e.leafDepths, c.settings.maxDepth.toNat < depth + d + 1

omit [ColumnRef C] in
theorem deep_junction_iff {kind : Junction} {es : List (Expr C)} :
    Deep c depth (.junction kind es) ↔ ∃ e ∈ es, Deep c (depth + 1) e := by
  constructor
  · rintro ⟨d, hd, hlt⟩
    obtain ⟨e, he, d', hd', rfl⟩ := Expr.mem_leafDepths_junction.mp hd
    exact ⟨e, he, d', hd', by omega⟩
  · rintro ⟨e, he, d, hd, hlt⟩
    exact ⟨d + 1, Expr.mem_leafDepths_junction.mpr ⟨e, he, d, hd, rfl⟩, by omega⟩

omit [ColumnRef C] in
theorem deep_leaf_iff {column : C} {op : Operator} :
    Deep c depth (.leaf column op) ↔ c.settings.maxDepth.toNat < depth + 1 := by
  simp [Deep, Expr.leafDepths]

/-- Leaves of one column lie too deep if their operators do. -/
theorem compileNode_leaves_tooDeep {k : String} {es : List (Expr C)}
    (hk : Junction.isName k = false) (hm : Modifier.ofKey? k = none)
    (hne : es.flatMap Expr.body ≠ []) (hd : c.settings.maxDepth.toNat < depth + 1) :
    c.compileNode none depth m (.map k (InputNode.ofMembers (es.flatMap Expr.body))) =
      .error (.tooDeep c.settings.maxDepth) := by
  by_cases hlt : c.settings.maxDepth.toNat < depth
  · exact compileNode_of_lt hlt _
  · have hnodes : InputNode.ofMembers (es.flatMap Expr.body) ≠ [] := by
      rw [InputNode.ofMembers_eq_map]
      simpa using hne
    rw [compileNode_reference hk hm (by omega), compileNodes_of_lt hd hnodes]
    rfl

/-- Under each key of a junction the walk goes on, or it ends at the bound; and it ends if
a member of the key lies too deep. -/
theorem compileNode_key_tooDeep {kind : Junction} {es : List (Expr C)} {k : String}
    (hclash : Expr.NoClash kind (Expr.entriesOf es)) (hr : ∀ e ∈ es, ∀ l ∈ e.leaves, c.Reads l)
    (hok : ∀ e ∈ es, ¬ Deep c depth e → ∃ r, c.compileNode none depth m (nodeOf e) = .ok (r, m))
    (herr : ∀ e ∈ es, Deep c depth e →
      c.compileNode none depth m (nodeOf e) = .error (.tooDeep c.settings.maxDepth))
    (hk : k ∈ Expr.keys es) :
    ((∃ r, c.compileNode none depth m
        (.map k (InputNode.ofMembers ((Expr.ofKey k es).flatMap Expr.body))) = .ok (r, m)) ∧
      ¬ ∃ e ∈ Expr.ofKey k es, Deep c depth e) ∨
    c.compileNode none depth m
        (.map k (InputNode.ofMembers ((Expr.ofKey k es).flatMap Expr.body))) =
      .error (.tooDeep c.settings.maxDepth) := by
  cases hname : Junction.isName k with
  | true =>
    obtain ⟨e, he, hkey, hone⟩ := Expr.exists_ofKey_eq hclash hname hk
    rw [hone, List.flatMap_singleton, ← hkey]
    simp only [List.mem_singleton, exists_eq_left]
    by_cases hdeep : Deep c depth e
    · exact Or.inr (herr e he hdeep)
    · exact Or.inl ⟨hok e he hdeep, hdeep⟩
  | false =>
    have hne := Expr.ofKey_ne_nil hk
    have hkey : ∀ e ∈ Expr.ofKey k es, e.key = k := fun e he => (Expr.mem_ofKey.mp he).2
    have hleaves : ∀ e ∈ Expr.ofKey k es, ∃ column op, e = .leaf column op ∧
        ColumnRef.reference column = k ∧ c.Reads (column, op) := by
      intro e he
      obtain ⟨column, op, rfl, href⟩ := Expr.leaf_of_key (e := e) (by rwa [hkey e he])
      exact ⟨column, op, rfl, href.trans (hkey _ he), hr _ (Expr.mem_ofKey.mp he).1 _ (by simp)⟩
    by_cases hd : c.settings.maxDepth.toNat < depth + 1
    · obtain ⟨e, he⟩ := List.exists_mem_of_ne_nil _ hne
      obtain ⟨column, op, rfl, href, hreads⟩ := hleaves e he
      have hbody : (op.symbol, op.value.toJson) ∈ (Expr.ofKey k es).flatMap Expr.body :=
        List.mem_flatMap.mpr ⟨_, he, List.mem_singleton_self _⟩
      exact Or.inr (compileNode_leaves_tooDeep hname (href ▸ hreads.noModifier)
        (List.ne_nil_of_mem hbody) hd)
    · refine Or.inl ⟨⟨_, compileNode_leaves hname hkey hne
        (fun e he => hr e (Expr.mem_ofKey.mp he).1) (by omega) m⟩, ?_⟩
      rintro ⟨e, he, hdeep⟩
      obtain ⟨column, op, rfl, -, -⟩ := hleaves e he
      exact hd (deep_leaf_iff.mp hdeep)

/-- **Too deep.** What is written for an expression with a leaf below the bound does not
compile, and that is the error. -/
theorem compileNode_tooDeep {e : Expr C} : ∀ {en : Expr.Entry} {depth : Nat},
    Expr.entry e = .ok en → e.Full → (∀ l ∈ e.leaves, c.Reads l) → Deep c depth e →
    c.compileNode none depth m (nodeOf e) = .error (.tooDeep c.settings.maxDepth) := by
  induction e using Expr.induction with
  | leaf column op =>
    intro en depth _ _ hr hdeep
    have hreads : c.Reads (column, op) := hr (column, op) (by simp)
    have hne : [Expr.leaf column op].flatMap Expr.body ≠ [] := List.cons_ne_nil _ _
    have hnode := compileNode_leaves_tooDeep (m := m) hreads.noJunction hreads.noModifier hne
      (deep_leaf_iff.mp hdeep)
    rwa [← nodeOf_leaf] at hnode
  | junction kind es ih =>
    intro en depth he hfull hr hdeep
    obtain ⟨hall, hclash, -⟩ := Expr.entry_junction_eq_ok he
    obtain ⟨-, hes⟩ := Expr.full_junction_iff.mp hfull
    have hreads : ∀ e ∈ es, ∀ l ∈ e.leaves, c.Reads l := Expr.forall_leaves_junction.mp hr
    by_cases hlt : c.settings.maxDepth.toNat < depth
    · exact compileNode_of_lt hlt _
    · have hok : ∀ e ∈ es, ¬ Deep c (depth + 1) e →
          ∃ r, c.compileNode none (depth + 1) m (nodeOf e) = .ok (r, m) := fun e he' hshallow =>
        ⟨_, compileNode_entry (hall e he') (hes e he') (hreads e he')
          (fun d hd => Nat.le_of_not_lt fun hlt' => hshallow ⟨d, hd, hlt'⟩) m⟩
      have hkeys := fun k (hk : k ∈ Expr.keys es) => compileNode_key_tooDeep hclash hreads hok
        (fun e he' hdeep' => ih e he' (hall e he') (hes e he') (hreads e he') hdeep') hk
      obtain ⟨e, he', hdeep'⟩ := deep_junction_iff.mp hdeep
      have hk : e.key ∈ Expr.keys es := Expr.mem_keys.mpr ⟨e, he', rfl⟩
      have hends := (hkeys e.key hk).resolve_left fun hgoes =>
        hgoes.2 ⟨e, Expr.mem_ofKey.mpr ⟨he', rfl⟩, hdeep'⟩
      rw [nodeOf_junction he, compileNode_junction (by omega),
        compileNodes_error (fun k hk => (hkeys k hk).imp_left And.left) ⟨e.key, hk, hends⟩]
      rfl

end Compiler
end QueryFilter
