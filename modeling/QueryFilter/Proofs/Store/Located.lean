/-
# Expressions and the nodes they are made of

What a handle stands for, with the node of every part written beside it: the
parts of one node show where that node is seen, through however many parents.
So it can be said of an expression what becomes of it if one node gets other
content (`Located.rewrite`). When a store changes in one node only, and by new
nodes, each handle stands for what it stood for with every part of that node
rewritten, and nothing changes for a handle that does not reach the node
(`Sound.rewrites`).

Key definitions: `Located`, `Located.rewrite`, `Store.located`,
`Store.Rewrites`.
Key theorems: `Store.Sound.located_eq`, `Store.Sound.mem_nodes_located`,
`Store.Sound.tree_congr`, `Store.Sound.rewrites`,
`Store.Sound.rewrites_overwrite`.
-/
import QueryFilter.Proofs.Store.Unfold

namespace QueryFilter

variable {C : Type}

/-- An expression every part of which carries the handle of its node. -/
inductive Located (C : Type) where
  | leaf (node : Handle) (column : C) (op : Operator)
  | junction (node : Handle) (kind : Junction) (children : List (Located C))

namespace Located

mutual

/-- The expression without the handles. -/
def expr : Located C → Expr C
  | .leaf _ column op => .leaf column op
  | .junction _ kind children => .junction kind (exprAll children)

def exprAll : List (Located C) → List (Expr C)
  | [] => []
  | l :: rest => expr l :: exprAll rest

end

mutual

/-- The nodes of all parts. -/
def nodes : Located C → List Handle
  | .leaf node _ _ => [node]
  | .junction node _ children => node :: nodesAll children

def nodesAll : List (Located C) → List Handle
  | [] => []
  | l :: rest => nodes l ++ nodesAll rest

end

mutual

/-- The expression with `e` for every part of the node `t`. -/
def rewrite (t : Handle) (e : Expr C) : Located C → Expr C
  | .leaf node column op => if node = t then e else .leaf column op
  | .junction node kind children =>
    if node = t then e else .junction kind (rewriteAll t e children)

def rewriteAll (t : Handle) (e : Expr C) : List (Located C) → List (Expr C)
  | [] => []
  | l :: rest => rewrite t e l :: rewriteAll t e rest

end

theorem exprAll_eq_map : ∀ ls : List (Located C), exprAll ls = ls.map expr
  | [] => rfl
  | l :: rest => by rw [exprAll, exprAll_eq_map rest, List.map_cons]

theorem nodesAll_eq_flatMap : ∀ ls : List (Located C), nodesAll ls = ls.flatMap nodes
  | [] => rfl
  | l :: rest => by rw [nodesAll, nodesAll_eq_flatMap rest, List.flatMap_cons]

theorem rewriteAll_eq_map (t : Handle) (e : Expr C) :
    ∀ ls : List (Located C), rewriteAll t e ls = ls.map (rewrite t e)
  | [] => rfl
  | l :: rest => by rw [rewriteAll, rewriteAll_eq_map t e rest, List.map_cons]

mutual

/-- Without a part of the node there is nothing to rewrite. -/
theorem rewrite_of_notMem {t : Handle} {e : Expr C} :
    ∀ {l : Located C}, t ∉ l.nodes → l.rewrite t e = l.expr
  | .leaf node column op, h => by
    have hne : node ≠ t := fun he => h (by simp [nodes, he])
    simp only [rewrite, if_neg hne, expr]
  | .junction node kind children, h => by
    have hne : node ≠ t := fun he => h (by simp [nodes, he])
    have hrest : t ∉ nodesAll children := fun hm => h (by simp [nodes, hm])
    simp only [rewrite, if_neg hne, expr, rewriteAll_of_notMem hrest]

theorem rewriteAll_of_notMem {t : Handle} {e : Expr C} :
    ∀ {ls : List (Located C)}, t ∉ nodesAll ls → rewriteAll t e ls = exprAll ls
  | [], _ => rfl
  | l :: rest, h => by
    have hl : t ∉ l.nodes := fun hm => h (by simp [nodesAll, hm])
    have hrest : t ∉ nodesAll rest := fun hm => h (by simp [nodesAll, hm])
    simp only [rewriteAll, exprAll, rewrite_of_notMem hl, rewriteAll_of_notMem hrest]

end

end Located

namespace Store

variable {s s' : Store C} {r : Handle → Nat} {p q t h : Handle} {n : Node C}

/-! ### The located view -/

/-- The located expression unfolded from a node, following children `fuel` times. -/
def locatedWithin (s : Store C) : Nat → Handle → Located C
  | 0, h => .junction h .and []
  | fuel + 1, h =>
    match s.node? h with
    | some (.leaf column op) => .leaf h column op
    | some (.junction kind children) => .junction h kind (children.map (locatedWithin s fuel))
    | none => .junction h .and []

/-- What a handle stands for, with the node of every part. -/
def located (s : Store C) (h : Handle) : Located C := s.locatedWithin s.size h

/-- The located expression of a node of which the children stand for theirs. -/
def locate (s : Store C) (h : Handle) : Node C → Located C
  | .leaf column op => .leaf h column op
  | .junction kind children => .junction h kind (children.map s.located)

theorem expr_locatedWithin (s : Store C) : ∀ (fuel : Nat) (h : Handle),
    (s.locatedWithin fuel h).expr = s.treeWithin fuel h
  | 0, h => rfl
  | fuel + 1, h => by
    rw [locatedWithin, treeWithin]
    rcases s.node? h with _ | ⟨column, op⟩ | ⟨kind, children⟩
    · rfl
    · rfl
    · have hall : ∀ c ∈ children,
          (Located.expr ∘ s.locatedWithin fuel) c = s.treeWithin fuel c :=
        fun c _ => expr_locatedWithin s fuel c
      simp only [Located.expr, Located.exprAll_eq_map, List.map_map, List.map_congr_left hall]

/-- Without the handles, it is the expression that the handle stands for. -/
theorem expr_located (s : Store C) (h : Handle) : (s.located h).expr = s.tree h :=
  expr_locatedWithin s s.size h

theorem locatedWithin_eq (hr : s.Ranked r) : ∀ {fuel fuel' : Nat} {h : Handle},
    r h < fuel → r h < fuel' → s.locatedWithin fuel h = s.locatedWithin fuel' h
  | fuel + 1, fuel' + 1, h, hf, hf' => by
    rw [locatedWithin, locatedWithin]
    cases hn : s.node? h with
    | none => rfl
    | some n =>
      cases n with
      | leaf column op => rfl
      | junction kind children =>
        have hall : ∀ c ∈ children, s.locatedWithin fuel c = s.locatedWithin fuel' c := by
          intro c hc
          have hlt : r c < r h := hr h c (child_of_mem hn hc)
          exact locatedWithin_eq hr (by omega) (by omega)
        simp only [List.map_congr_left hall]

/-- **The located view.** In a sound store it is that of the node of the handle. -/
theorem Sound.located_eq (hs : s.Sound) (hn : s.node? h = some n) :
    s.located h = s.locate h n := by
  have hh : s.rank h < s.size := hs.rank_lt_size (has_iff.mpr ⟨n, hn⟩)
  obtain ⟨k, hk⟩ : ∃ k, s.size = k + 1 := ⟨s.size - 1, by omega⟩
  rw [located, hk, locatedWithin, hn]
  cases n with
  | leaf column op => rfl
  | junction kind children =>
    have hall : ∀ c ∈ children, s.locatedWithin k c = s.located c := by
      intro c hc
      have hlt : s.rank c < s.rank h := hs.ranked h c (child_of_mem hn hc)
      exact locatedWithin_eq hs.ranked (by omega) (by omega)
    simp only [locate, List.map_congr_left hall]

/-- The parts are of the nodes that are reached. -/
theorem Sound.mem_nodes_located (hs : s.Sound) (hp : s.Has p) :
    q ∈ (s.located p).nodes ↔ s.Reaches p q := by
  induction p using hs.induction with
  | step p ih =>
    obtain ⟨n, hn⟩ := has_iff.mp hp
    have hreach : s.Reaches p q ↔ q = p ∨ ∃ c ∈ n.children, s.Reaches c q := by
      rw [Reaches, Relation.ReflTransGen.cases_head_iff, eq_comm]
      simp only [Child, children_eq hn]
    rw [hs.located_eq hn, hreach]
    cases n with
    | leaf column op => simp [locate, Located.nodes, Node.children]
    | junction kind children =>
      simp only [locate, Located.nodes, Located.nodesAll_eq_flatMap, List.mem_cons,
        List.mem_flatMap, List.mem_map, exists_exists_and_eq_and, Node.children]
      refine or_congr_right (exists_congr fun c => and_congr_right fun hc => ?_)
      have hchild : s.Child p c := child_of_mem hn hc
      exact ih c hchild (hs.closed p c hchild)

/-! ### One node rewritten -/

/-- A node whose children stand for what they stood for does so too. -/
theorem unfold_congr (hc : ∀ c ∈ n.children, s'.tree c = s.tree c) : s'.unfold n = s.unfold n := by
  cases n with
  | leaf column op => rfl
  | junction kind children =>
    have hmap : children.map s'.tree = children.map s.tree := List.map_congr_left hc
    rw [unfold, unfold, hmap]

/-- What a handle stands for depends on the nodes it reaches only. -/
theorem Sound.tree_congr (hs : s.Sound) (hs' : s'.Sound)
    (hkept : ∀ q, s.Reaches p q → s'.node? q = s.node? q) : s'.tree p = s.tree p := by
  induction p using hs.induction with
  | step p ih =>
    have hself : s'.node? p = s.node? p := hkept p .refl
    cases hn : s.node? p with
    | none =>
      rw [tree_of_not_has (not_has_of_node? hn), tree_of_not_has (not_has_of_node? (hself.trans hn))]
    | some n =>
      have hchildren : ∀ c ∈ n.children, s'.tree c = s.tree c := fun c hc => by
        have hchild : s.Child p c := child_of_mem hn hc
        exact ih c hchild fun q hq => hkept q (.head hchild hq)
      rw [hs.tree_eq hn, hs'.tree_eq (hself.trans hn), unfold_congr hchildren]

/-- What is seen of a change in one node: it stands for `e`, all other nodes that
were there keep their content, and each handle stands for what it stood for
with `e` for every part of that node. -/
structure Rewrites (s s' : Store C) (t : Handle) (e : Expr C) : Prop where
  has : s.Has t
  size_le : s.size ≤ s'.size
  kept : ∀ p, s.Has p → p ≠ t → s'.node? p = s.node? p
  tree_self : s'.tree t = e
  tree_eq : ∀ p, s.Has p →
    (s.located p).expr = s.tree p ∧ s'.tree p = (s.located p).rewrite t e
  tree_of_not_reaches : ∀ p, s.Has p → ¬ s.Reaches p t → s'.tree p = s.tree p

/-- **One node.** If a store changes in one node and by new nodes, then every
handle sees that node rewritten wherever it reaches it, and nothing else. -/
theorem Sound.rewrites (hs : s.Sound) (hs' : s'.Sound) (ht : s.Has t) (hle : s.size ≤ s'.size)
    (hkept : ∀ p, s.Has p → p ≠ t → s'.node? p = s.node? p) : Rewrites s s' t (s'.tree t) := by
  have hrewrite : ∀ p, s.Has p → s'.tree p = (s.located p).rewrite t (s'.tree t) := by
    intro p hp
    induction p using hs.induction with
    | step p ih =>
      obtain ⟨n, hn⟩ := has_iff.mp hp
      rw [hs.located_eq hn]
      by_cases hpt : p = t
      · subst hpt
        cases n <;> simp only [locate, Located.rewrite, ↓reduceIte]
      · have hchildren : ∀ c ∈ n.children,
            s'.tree c = (s.located c).rewrite t (s'.tree t) := fun c hc => by
          have hchild : s.Child p c := child_of_mem hn hc
          exact ih c hchild (hs.closed p c hchild)
        rw [hs'.tree_eq ((hkept p hp hpt).trans hn)]
        cases n with
        | leaf column op => simp only [locate, Located.rewrite, if_neg hpt, unfold]
        | junction kind children =>
          simp only [locate, Located.rewrite, if_neg hpt, unfold, Located.rewriteAll_eq_map,
            List.map_map]
          congr 1
          exact List.map_congr_left hchildren
  refine ⟨ht, hle, hkept, rfl, fun p hp => ⟨s.expr_located p, hrewrite p hp⟩, fun p hp hr => ?_⟩
  have hnone : t ∉ (s.located p).nodes := fun hm => hr ((hs.mem_nodes_located hp).mp hm)
  rw [hrewrite p hp, Located.rewrite_of_notMem hnone, expr_located]

/-- **Overwriting.** A node that is overwritten with nodes that do not reach it
stands for what these stood for before. -/
theorem Sound.rewrites_overwrite (hs : s.Sound) (ht : s.Has t)
    (hn : ∀ c ∈ n.children, s.Has c ∧ ¬ s.Reaches c t) :
    Rewrites s (s.overwrite t n) t (s.unfold n) := by
  have hs' : (s.overwrite t n).Sound := hs.overwrite hn
  have hone : Rewrites s (s.overwrite t n) t ((s.overwrite t n).tree t) :=
    hs.rewrites hs' ht (Nat.le_of_eq (size_overwrite s t n).symm) fun p _ hp =>
      node?_overwrite_of_ne s n (Ne.symm hp)
  have hself : (s.overwrite t n).tree t = s.unfold n := by
    rw [hs'.tree_eq (node?_overwrite_self s t n ht)]
    exact unfold_congr fun c hc => hone.tree_of_not_reaches c (hn c hc).1 (hn c hc).2
  rwa [hself] at hone

/-- New nodes made before the change are not seen either. -/
theorem Rewrites.of_grown {s₁ : Store C} {e : Expr C} (hs : s.Sound) (hg : Grown s s₁)
    (hs' : s'.Sound) (ht : s.Has t) (hr : Rewrites s₁ s' t e) : Rewrites s s' t e := by
  have hone : Rewrites s s' t (s'.tree t) :=
    hs.rewrites hs' ht (Nat.le_trans hg.size_le hr.size_le) fun p hp hpt =>
      (hr.kept p (hg.has hp) hpt).trans (hg.kept p hp)
  rwa [hr.tree_self] at hone

end Store
end QueryFilter
