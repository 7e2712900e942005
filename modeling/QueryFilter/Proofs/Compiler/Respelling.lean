/-
# A column under another reference

Two references may lead to columns that go by one name and look the same to a function of
columns (`Resolver.Synonyms`). A map that is keyed by one of them may then be keyed by the
other, in any number of places at once (`InputNode.Respelled`), where both keys are read as
references (`InputNode.ReadAsColumn`): the key of a modifier and the name of a junction never
are, and the symbol of an operator is not below a column.

The restrictions know a column by its name, and nothing else is done with it than to put it
into a leaf. So the two walks go side by side, one with the one reference around it where the
other has the other. They end in the same error, or in filters that look the same to the
function (`Compiler.compile_respelled`).

Key definitions: `Except.Rel`, `Expr.mapColumns`, `Filter.Alike`, `InputNode.Respelled`,
`FilterInput.Respelled`, `Resolver.Synonyms`.
Key theorems: `Compiler.rel_visit`, `Compiler.rel_visit_column`, `Compiler.rel_node`,
`Compiler.compile_respelled`.
-/
import QueryFilter.Proofs.Compiler.Walk

/-! ### Runs that end alike -/

/-- Whether two runs end in the same error, or in answers that stand in a relation. -/
inductive Except.Rel {ε α β : Type} (r : α → β → Prop) : Except ε α → Except ε β → Prop
  | error (err : ε) : Rel r (.error err) (.error err)
  | ok {a : α} {b : β} (h : r a b) : Rel r (.ok a) (.ok b)

namespace Except.Rel

variable {ε α β γ δ : Type} {r : α → β → Prop} {s : γ → δ → Prop} {run : Except ε α}
  {run' : Except ε β}

theorem refl {r : α → α → Prop} (hr : ∀ a, r a a) (run : Except ε α) : Except.Rel r run run := by
  cases run with
  | error err => exact .error err
  | ok a => exact .ok (hr a)

theorem error_iff (h : Except.Rel r run run') (err : ε) : run = .error err ↔ run' = .error err := by
  cases h with
  | error err' => rw [Except.error.injEq, Except.error.injEq]
  | ok h => exact ⟨fun hrun => (by cases hrun), fun hrun => (by cases hrun)⟩

/-- Two parts of each run, one after the other. -/
theorem bind (h : Except.Rel r run run') {next : α → Except ε γ} {next' : β → Except ε δ}
    (hnext : ∀ {a b}, r a b → Except.Rel s (next a) (next' b)) :
    Except.Rel s (run.bind next) (run'.bind next') := by
  cases h with
  | error err => exact .error err
  | ok h => exact hnext h

/-- Runs that begin with the same part. -/
theorem same_bind (part : Except ε α) {next : α → Except ε γ} {next' : α → Except ε δ}
    (hnext : ∀ a, Except.Rel s (next a) (next' a)) :
    Except.Rel s (part.bind next) (part.bind next') :=
  (refl Eq.refl part).bind fun hab => hab ▸ hnext _

theorem map (h : Except.Rel r run run') {f : α → γ} {f' : β → δ}
    (hf : ∀ {a b}, r a b → s (f a) (f' b)) : Except.Rel s (run.map f) (run'.map f') := by
  cases h with
  | error err => exact .error err
  | ok h => exact .ok (hf h)

/-- Runs that part at one condition. -/
theorem ite {p : Prop} [Decidable p] {other : Except ε α} {other' : Except ε β}
    (h : p → Except.Rel r run run') (hother : ¬ p → Except.Rel r other other') :
    Except.Rel r (if p then run else other) (if p then run' else other') := by
  by_cases hp : p
  · rw [if_pos hp, if_pos hp]
    exact h hp
  · rw [if_neg hp, if_neg hp]
    exact hother hp

end Except.Rel

namespace QueryFilter

/-! ### Filters up to their columns -/

namespace Expr

variable {C D : Type}

mutual

/-- The expression with what a function makes of its columns. -/
def mapColumns (f : C → D) : Expr C → Expr D
  | .leaf column op => .leaf (f column) op
  | .junction kind children => .junction kind (mapColumnsAll f children)

def mapColumnsAll (f : C → D) : List (Expr C) → List (Expr D)
  | [] => []
  | e :: rest => mapColumns f e :: mapColumnsAll f rest

end

theorem mapColumnsAll_eq_map (f : C → D) : ∀ es : List (Expr C),
    mapColumnsAll f es = es.map (mapColumns f)
  | [] => rfl
  | e :: rest => by rw [mapColumnsAll, mapColumnsAll_eq_map f rest, List.map_cons]

/-- What is joined looks the same if the members do. -/
theorem map_joined (f : C → D) (kind : Junction) (es : List (Expr C)) :
    (joined kind es).map (mapColumns f) = joined kind (es.map (mapColumns f)) := by
  match es with
  | [] => rfl
  | [_] => rfl
  | e :: e' :: rest =>
    rw [joined_of_two_le (by simp), joined_of_two_le (by simp), Option.map_some, mapColumns,
      mapColumnsAll_eq_map]

end Expr

/-- Whether two filters look the same to a function of their columns: the modifiers are the
same, and the predicates are with what the function makes of each column in its place. -/
structure Filter.Alike {C D : Type} (f : C → D) (filter filter' : Filter C) : Prop where
  expression : filter.expression.map (Expr.mapColumns f) =
    filter'.expression.map (Expr.mapColumns f)
  modifiers : filter.modifiers = filter'.modifiers

/-! ### One reference in place of another -/

namespace InputNode

/-- Whether what stands under a key is below a column, given whether the key is. -/
def leadsBelow (below : Bool) (key : String) : Bool := below || (Junction.ofName? key).isNone

mutual

/-- Whether a node is another one with maps under the one reference put under the other, in
it and below it, given whether the node is below a column. A list keeps its key: nothing is
compared with that column, since the nodes of a list are keyed by their places. -/
inductive Respelled (reference reference' : String) : Bool → InputNode → InputNode → Prop
  | leaf {below : Bool} (key : String) (value : Value) :
    Respelled reference reference' below (.leaf key value) (.leaf key value)
  | list {below : Bool} (key : String) {children children' : List InputNode}
    (h : RespelledAll reference reference' (leadsBelow below key) children children') :
    Respelled reference reference' below (.list key children) (.list key children')
  | map {below : Bool} (key : String) {children children' : List InputNode}
    (h : RespelledAll reference reference' (leadsBelow below key) children children') :
    Respelled reference reference' below (.map key children) (.map key children')
  | column {below : Bool} {children children' : List InputNode}
    (hkey : ReadAsColumn below reference) (hkey' : ReadAsColumn below reference')
    (h : RespelledAll reference reference' true children children') :
    Respelled reference reference' below (.map reference children) (.map reference' children')

/-- The same for nodes side by side. -/
inductive RespelledAll (reference reference' : String) :
    Bool → List InputNode → List InputNode → Prop
  | nil {below : Bool} : RespelledAll reference reference' below [] []
  | cons {below : Bool} {node node' : InputNode} {rest rest' : List InputNode}
    (h : Respelled reference reference' below node node')
    (hrest : RespelledAll reference reference' below rest rest') :
    RespelledAll reference reference' below (node :: rest) (node' :: rest')

end

variable {reference reference' : String} {below : Bool}

theorem Respelled.value? {node node' : InputNode}
    (h : Respelled reference reference' below node node') : node'.value? = node.value? := by
  cases h <;> rfl

theorem RespelledAll.forall₂ : ∀ {nodes nodes' : List InputNode},
    RespelledAll reference reference' below nodes nodes' →
    List.Forall₂ (Respelled reference reference' below) nodes nodes'
  | [], [], .nil => .nil
  | _ :: _, _ :: _, .cons h hrest => .cons h hrest.forall₂

end InputNode

/-- Whether an input is another one with maps under the one reference put under the other. -/
def FilterInput.Respelled (reference reference' : String) (input input' : FilterInput) : Prop :=
  InputNode.RespelledAll reference reference' false input.nodes input'.nodes

/-- Whether two references lead to columns that go by one name and look the same to a
function. -/
def Resolver.Synonyms {C D : Type} [ColumnRef C] (r : Resolver C) (f : C → D)
    (reference reference' : String) : Prop :=
  ∃ column column', r.resolve reference = .ok column ∧ r.resolve reference' = .ok column' ∧
    ColumnRef.name column = ColumnRef.name column' ∧ f column = f column'

/-! ### Two walks side by side -/

namespace Compiler

variable {C D : Type} {f : C → D} {reference reference' : String} {below : Bool}
  {around around' : Option String} {depth : Nat} {m : Modifiers C}

/-- Whether the other walk has one reference where this one has the other. -/
inductive Spells (reference reference' : String) : String → String → Prop
  | same (other : String) : Spells reference reference' other other
  | respelled : Spells reference reference' reference reference'

/-- Whether the columns around two walks are such references, or both walks have none. -/
structure AroundAlike (reference reference' : String) (below : Bool)
    (around around' : Option String) : Prop where
  spells : Option.Rel (Spells reference reference') around around'
  below : around.isSome = below

theorem AroundAlike.isSome_eq (h : AroundAlike reference reference' below around around') :
    around'.isSome = around.isSome := by
  cases h.spells <;> rfl

/-- Whether the same is to be done next in two walks. -/
inductive Step.Alike (f : C → D) (reference reference' : String) (below : Bool) :
    Step C → Step C → Prop
  | done {e e' : Option (Expr C)}
    (h : e.map (Expr.mapColumns f) = e'.map (Expr.mapColumns f)) (m : Modifiers C) :
    Alike f reference reference' below (.done e m) (.done e' m)
  | descend (kind : Junction) {around around' : Option String}
    (h : AroundAlike reference reference' below around around') :
    Alike f reference reference' below (.descend kind around) (.descend kind around')

variable [ColumnRef C] {c : Compiler C}

/-- Leaves of the two columns are let through alike, for the restrictions know them by
their name. -/
theorem rel_leaf (h : c.resolver.Synonyms f reference reference') {spelled spelled' : String}
    (hs : Spells reference reference' spelled spelled') (symbol : String) (value : Value) :
    Except.Rel (fun e e' => e.mapColumns f = e'.mapColumns f) (c.leaf spelled symbol value)
      (c.leaf spelled' symbol value) := by
  cases hs with
  | same => exact .refl (fun e => Eq.refl (e.mapColumns f)) _
  | respelled =>
    obtain ⟨column, column', hc, hc', hname, hf⟩ := h
    rw [leaf_eq, leaf_eq, hc, hc']
    refine .same_bind (Operator.ofSymbol symbol value) fun op => ?_
    rw [hname]
    refine (Except.Rel.refl Eq.refl _).map fun _ => ?_
    rw [Expr.mapColumns, Expr.mapColumns, hf]

theorem rel_attached (h : AroundAlike reference reference' below around around') (key : String) :
    Except.Rel (Spells reference reference') (attached around key) (attached around' key) := by
  cases h.spells with
  | none => exact .error _
  | some hs => exact .ok hs

/-- A visit that ends in a leaf, with the column that is around it. -/
theorem rel_visitLeaf (h : c.resolver.Synonyms f reference reference') {spelled spelled' : String}
    (hs : Spells reference reference' spelled spelled') (symbol : String) (value : Value) :
    Except.Rel (Step.Alike f reference reference' below) (c.visitLeaf m spelled symbol value)
      (c.visitLeaf m spelled' symbol value) := by
  refine (rel_leaf h hs symbol value).map fun he => .done ?_ m
  rw [Option.map_some, Option.map_some, he]

theorem rel_visitPlain (h : c.resolver.Synonyms f reference reference')
    (ha : AroundAlike reference reference' below around around') (node : InputNode) :
    Except.Rel (Step.Alike f reference reference' true) (c.visitPlain around m node)
      (c.visitPlain around' m node) := by
  rw [visitPlain_eq, visitPlain_eq, ha.isSome_eq]
  cases node.value? with
  | some value => exact (rel_attached ha node.key).bind fun hs => rel_visitLeaf h hs _ _
  | none =>
    refine .ite (fun _ => ?_) fun _ => .ite (fun _ => .error _) fun _ => ?_
    · exact (rel_attached ha node.key).bind fun hs =>
        .ite (fun _ => .error _) fun _ => rel_visitLeaf h hs _ _
    · exact .ok (.descend .and ⟨.some (.same node.key), rfl⟩)

/-- Nodes that look the same are visited alike below the one reference and below the other. -/
theorem rel_visit (depth : Nat) (m : Modifiers C)
    (h : c.resolver.Synonyms f reference reference')
    (ha : AroundAlike reference reference' below around around') {node node' : InputNode}
    (hs : node.SeenAs node') :
    Except.Rel (Step.Alike f reference reference' (InputNode.leadsBelow below node.key))
      (c.visit around depth m node) (c.visit around' depth m node') := by
  rw [c.visit_of_seenAs hs]
  unfold visit
  refine .ite (fun _ => .error _) fun _ => ?_
  cases Modifier.ofKey? node.key with
  | some modifier =>
    exact .same_bind (c.addModifier m modifier node) fun m' => .ok (.done rfl m')
  | none =>
    rw [InputNode.leadsBelow]
    cases Junction.ofName? node.key with
    | some kind =>
      rw [Option.isNone_some, Bool.or_false]
      exact .ite (fun _ => .error _) fun _ => .ok (.descend kind ha)
    | none =>
      rw [Option.isNone_none, Bool.or_true]
      exact rel_visitPlain h ha node

/-- A map under the one reference is gone into as it is under the other. -/
theorem rel_visit_column (ha : AroundAlike reference reference' below around around')
    (hkey : InputNode.ReadAsColumn below reference)
    (hkey' : InputNode.ReadAsColumn below reference') (children children' : List InputNode) :
    Except.Rel (Step.Alike f reference reference' true)
      (c.visit around depth m (.map reference children))
      (c.visit around' depth m (.map reference' children')) := by
  have hbelow : around.isSome = below := ha.below
  have hbelow' : around'.isSome = below := ha.isSome_eq.trans ha.below
  rw [c.visit_of_readAsColumn (hbelow ▸ hkey), c.visit_of_readAsColumn (hbelow' ▸ hkey')]
  exact .ite (fun _ => .error _) fun _ => .ok (.descend .and ⟨.some .respelled, rfl⟩)

/-! ### The whole walk -/

/-- Whether what comes of a node, or of nodes side by side, looks the same. -/
def MadeAlike {F : Type → Type} [Functor F] (f : C → D) (made made' : F (Expr C) × Modifiers C) :
    Prop :=
  Expr.mapColumns f <$> made.1 = Expr.mapColumns f <$> made'.1 ∧ made.2 = made'.2

omit [ColumnRef C] in
theorem MadeAlike.joined {made made' : List (Expr C) × Modifiers C} (h : MadeAlike f made made')
    (kind : Junction) :
    MadeAlike f (Expr.joined kind made.1, made.2) (Expr.joined kind made'.1, made'.2) := by
  obtain ⟨hes, hm⟩ := h
  refine ⟨?_, hm⟩
  rw [List.map_eq_map, List.map_eq_map] at hes
  show (Expr.joined kind made.1).map _ = (Expr.joined kind made'.1).map _
  rw [Expr.map_joined, Expr.map_joined, hes]

omit [ColumnRef C] in
/-- What comes of the first node stands before what comes of the others. -/
theorem MadeAlike.cons {first first' : Option (Expr C) × Modifiers C}
    {more more' : List (Expr C) × Modifiers C} (h : MadeAlike f first first')
    (hmore : MadeAlike f more more') :
    MadeAlike f (first.1.toList ++ more.1, more.2) (first'.1.toList ++ more'.1, more'.2) := by
  obtain ⟨he, -⟩ := h
  obtain ⟨hes, hm⟩ := hmore
  refine ⟨?_, hm⟩
  rw [List.map_eq_map, List.map_eq_map] at hes
  rw [Option.map_eq_map] at he
  show (first.1.toList ++ more.1).map _ = (first'.1.toList ++ more'.1).map _
  rw [List.map_append, List.map_append, ← Option.toList_map, ← Option.toList_map, he, hes]

/-- Nodes side by side compile alike if each of them does. -/
theorem rel_nodes {nodes nodes' : List InputNode}
    (h : List.Forall₂ (fun node node' => ∀ m, Except.Rel (MadeAlike f)
      (c.compileNode around depth m node) (c.compileNode around' depth m node')) nodes nodes') :
    ∀ m, Except.Rel (MadeAlike f) (c.compileNodes around depth m nodes)
      (c.compileNodes around' depth m nodes') := by
  induction h with
  | nil =>
    intro m
    rw [compileNodes_nil, compileNodes_nil]
    exact .ok ⟨rfl, rfl⟩
  | cons hfirst _ ih =>
    intro m
    rw [compileNodes_cons, compileNodes_cons]
    refine (hfirst m).bind fun hmade => ?_
    rw [hmade.2]
    exact (ih _).map hmade.cons

/-- A visit of a node and one of the same node respelled go on alike. -/
theorem rel_visit_respelled (depth : Nat) (m : Modifiers C)
    (h : c.resolver.Synonyms f reference reference')
    (ha : AroundAlike reference reference' below around around') {node node' : InputNode}
    (hn : node.Respelled reference reference' below node') :
    ∃ below', InputNode.RespelledAll reference reference' below' node.children node'.children ∧
      Except.Rel (Step.Alike f reference reference' below') (c.visit around depth m node)
        (c.visit around' depth m node') := by
  cases hn with
  | leaf key value => exact ⟨_, .nil, rel_visit depth m h ha ⟨rfl, rfl, rfl, fun _ => rfl⟩⟩
  | @map _ key children children' hbelow =>
    have hs : (InputNode.map key children).SeenAs (.map key children') := .map key ..
    have hvisit := rel_visit depth m h ha hs
    exact ⟨_, hbelow, hvisit⟩
  | @list _ key children children' hbelow =>
    have hs : (InputNode.list key children).SeenAs (.list key children') :=
      .list key (InputNode.map_value?_of_forall₂ InputNode.Respelled.value? hbelow.forall₂)
    have hvisit := rel_visit depth m h ha hs
    exact ⟨_, hbelow, hvisit⟩
  | column hkey hkey' hbelow => exact ⟨true, hbelow, rel_visit_column ha hkey hkey' _ _⟩

theorem rel_node (h : c.resolver.Synonyms f reference reference') (node : InputNode) :
    ∀ {node' below around around' depth m},
      AroundAlike reference reference' below around around' →
      node.Respelled reference reference' below node' →
      Except.Rel (MadeAlike f) (c.compileNode around depth m node)
        (c.compileNode around' depth m node') := by
  induction node using InputNode.induction with
  | step node ih =>
    intro node' below around around' depth m ha hn
    obtain ⟨below', hbelow, hvisit⟩ := rel_visit_respelled depth m h ha hn
    rw [compileNode_eq, compileNode_eq]
    refine hvisit.bind fun hstep => ?_
    cases hstep with
    | done he m => exact .ok ⟨he, rfl⟩
    | descend kind ha' =>
      refine (rel_nodes ?_ m).map fun hmade => hmade.joined kind
      exact ((List.forall₂_and_left _ _).mpr ⟨ih, hbelow.forall₂⟩).imp
        fun _ _ hr _ => hr.1 ha' hr.2

/-- **One reference in place of another.** An input compiles as it does with maps under the
one reference put under the other: to the same error, or to a filter that looks the same. -/
theorem compile_respelled (h : c.resolver.Synonyms f reference reference')
    {input input' : FilterInput} (hinput : input.Respelled reference reference' input') :
    Except.Rel (Filter.Alike f) (c.compile input) (c.compile input') := by
  have hnone : AroundAlike reference reference' false none none := ⟨.none, rfl⟩
  have hnodes : Except.Rel (MadeAlike f) (c.compileNodes none 1 .empty input.nodes)
      (c.compileNodes none 1 .empty input'.nodes) :=
    rel_nodes (hinput.forall₂.imp fun node _ hn _ => rel_node h node hnone hn) .empty
  rw [compile_eq, compile_eq]
  refine hnodes.map fun hmade => ?_
  obtain ⟨he, hm⟩ := hmade.joined .and
  exact ⟨he, hm⟩

end Compiler
end QueryFilter
