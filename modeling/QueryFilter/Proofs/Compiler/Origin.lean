/-
# What compiles from JSON

A JSON value becomes nodes whose values JSON can hold (`InputNode.ordinary_ofJson`). So
each leaf of what compiles from JSON can be read back, if the reference of its column is
the one that it was found by (`Compiler.compileNodes_reads`); that is where a column can
have the name of no modifier and of no junction. No leaf lies deeper in the predicate than
the bound on the depth of the input (`Compiler.compileNodes_leafDepths`), and the limit is
within its bound (`Compiler.compileNodes_within`).

Key definitions: `Json.hasKey`, `InputNode.Everywhere`, `InputNode.Ordinary`,
`Modifiers.Within`.
Key theorems: `InputNode.ordinary_ofJson`, `Compiler.compileNodes_reads`,
`Compiler.compileNodes_leafDepths`, `Compiler.compileNodes_limit`,
`Compiler.compileNodes_within`.
-/
import QueryFilter.Proofs.Compiler.Reading
import QueryFilter.Proofs.Compiler.Visit
import QueryFilter.Proofs.Expr.NormalForm
import QueryFilter.Proofs.Keyword

namespace QueryFilter

/-! ### Nodes of JSON -/

namespace Json

mutual

/-- Whether some object in a value has a key. -/
def hasKey (key : String) : Json → Bool
  | .object members => membersHaveKey key members
  | .array items => itemsHaveKey key items
  | _ => false

def itemsHaveKey (key : String) : List Json → Bool
  | [] => false
  | item :: rest => hasKey key item || itemsHaveKey key rest

def membersHaveKey (key : String) : List (String × Json) → Bool
  | [] => false
  | (k, item) :: rest => k == key || hasKey key item || membersHaveKey key rest

end

end Json

namespace InputNode

/-- What holds of a node and of all nodes below it. -/
inductive Everywhere (p : InputNode → Prop) : InputNode → Prop
  | intro {node : InputNode} (here : p node) (below : ∀ child ∈ node.children, Everywhere p child) :
    Everywhere p node

/-- Whether a node is no ordering, and its value, if it has one, is one that JSON can hold
and no list. -/
structure Ordinary (node : InputNode) : Prop where
  key : node.key ≠ Modifier.orderBy.key
  value : ∀ v, node.value? = some v → v.Portable ∧ v.isArray = false

theorem Everywhere.here {p : InputNode → Prop} {node : InputNode} (h : node.Everywhere p) : p node := by
  cases h with
  | intro here below => exact here

theorem Everywhere.child {p : InputNode → Prop} {node : InputNode} (h : node.Everywhere p) :
    ∀ child ∈ node.children, Everywhere p child := by
  cases h with
  | intro here below => exact below

theorem ordinary_leaf {key : String} {v : Value} (hkey : key ≠ Modifier.orderBy.key)
    (hv : v.Portable ∧ v.isArray = false) : (InputNode.leaf key v).Everywhere Ordinary :=
  .intro ⟨hkey, fun v' hv' => by cases hv'; exact hv⟩ fun child hchild => by cases hchild

theorem indexKey_ne_orderBy (index : Nat) : indexKey index ≠ Modifier.orderBy.key := by
  intro h
  have hnone := Modifier.ofKey?_of_digits (isDigit_indexKey index)
  rw [h, Modifier.ofKey?_key] at hnone
  cases hnone

mutual

/-- **Nodes of JSON** are ordinary, if nothing in it is an ordering. -/
theorem ordinary_ofJson : ∀ (j : Json) {key : String}, key ≠ Modifier.orderBy.key →
    j.hasKey Modifier.orderBy.key = false → (ofJson key j).Everywhere Ordinary
  | .null, _, hkey, _ => ordinary_leaf hkey ⟨trivial, rfl⟩
  | .bool _, _, hkey, _ => ordinary_leaf hkey ⟨trivial, rfl⟩
  | .number n, _, hkey, _ => ordinary_leaf hkey (Value.plain_ofNumber n)
  | .string _, _, hkey, _ => ordinary_leaf hkey ⟨trivial, rfl⟩
  | .array items, key, hkey, h => by
    rw [Json.hasKey] at h
    exact .intro ⟨hkey, fun v hv => by cases hv⟩ (ordinary_ofItems items h)
  | .object members, key, hkey, h => by
    rw [Json.hasKey] at h
    exact .intro ⟨hkey, fun v hv => by cases hv⟩ (ordinary_ofMembers members h)

theorem ordinary_ofItems : ∀ (items : List Json) {index : Nat},
    Json.itemsHaveKey Modifier.orderBy.key items = false →
    ∀ node ∈ ofItems index items, node.Everywhere Ordinary
  | [], _, _ => fun node hnode => by cases hnode
  | item :: rest, index, h => by
    rw [Json.itemsHaveKey, Bool.or_eq_false_iff] at h
    rw [ofItems, List.forall_mem_cons]
    exact ⟨ordinary_ofJson item (indexKey_ne_orderBy index) h.1, ordinary_ofItems rest h.2⟩

theorem ordinary_ofMembers : ∀ (members : List (String × Json)),
    Json.membersHaveKey Modifier.orderBy.key members = false →
    ∀ node ∈ ofMembers members, node.Everywhere Ordinary
  | [], _ => fun node hnode => by cases hnode
  | (key, item) :: rest, h => by
    rw [Json.membersHaveKey, Bool.or_eq_false_iff, Bool.or_eq_false_iff] at h
    rw [ofMembers, List.forall_mem_cons]
    exact ⟨ordinary_ofJson item (by simpa using h.1.1) h.1.2, ordinary_ofMembers rest h.2⟩

end

/-- The values in a list of ordinary leaves. -/
theorem ordinary_leafValues {node : InputNode} (h : node.Everywhere Ordinary) :
    ∀ v ∈ node.leafValues, v.Portable ∧ v.isArray = false := by
  intro v hv
  obtain ⟨child, hchild, hvalue⟩ := List.mem_filterMap.mp hv
  exact (h.child child hchild).here.value v hvalue

end InputNode

/-! ### What a walk over them makes -/

/-- Whether modifiers have no ordering, and a limit within its bound. -/
structure Modifiers.Within {C : Type} (m : Modifiers C) (settings : CompilerSettings) : Prop where
  orderBy : m.orderBy = []
  limit : ∀ n, m.limit = some n → Compiler.checkLimit settings n = .ok ()

namespace Compiler

variable {C : Type} [ColumnRef C] {c : Compiler C} {around : Option String} {depth : Nat}
  {m m' : Modifiers C} {nodes : List InputNode} {node : InputNode} {es : List (Expr C)}

/-- Whether a column that is found has the reference that it was found by. -/
def Faithful (r : Resolver C) : Prop :=
  ∀ reference column, r.resolve reference = .ok column → ColumnRef.reference column = reference

/-- The leaf that is made of an ordinary node can be read back. -/
theorem reads_of_visits {e : Option (Expr C)} (hc : Faithful c.resolver)
    (hnode : node.Everywhere InputNode.Ordinary)
    (haround : ∀ r, around = some r → Junction.ofName? r = none ∧ Modifier.ofKey? r = none)
    (h : Visits c around m node (.done e m')) : ∀ e' ∈ e.toList, ∀ l ∈ e'.leaves, c.Reads l := by
  cases h with
  | modifier _ _ => exact fun e' he' => by cases he'
  | @value reference column op _ _ ha hresolve _ hvalue hallowed =>
    intro e' he' l hl
    rw [List.mem_singleton.mp he', Expr.leaves_leaf, List.mem_singleton] at hl
    obtain ⟨hj, hm⟩ := haround reference ha
    have href : ColumnRef.reference column = reference := hc reference column hresolve
    have hplain : op.Plain := by
      rcases hvalue with hv | ⟨-, hseq, hv⟩
      · obtain ⟨hp, ha'⟩ := hnode.here.value op.value hv
        exact .of_single hp ha'
      · have hvalues := InputNode.ordinary_leafValues hnode
        refine ⟨?_, fun hs => ?_, fun vs hvs => ?_⟩
        · rw [hv, Value.Portable, Value.allPortable_iff]
          exact fun v hv => (hvalues v hv).1
        · rw [hseq] at hs
          cases hs
        · rw [hv] at hvs
          cases hvs
          exact fun v hv => (hvalues v hv).2
    rw [hl]
    exact ⟨by rw [href]; exact hresolve, by rw [href, Junction.isName, hj]; rfl, by rwa [href],
      hallowed, hplain⟩

/-- **Leaves that can be read back.** A walk over ordinary nodes makes no others. -/
theorem compileNodes_reads (hc : Faithful c.resolver)
    (h : c.compileNodes around depth m nodes = .ok (es, m')) :
    (∀ node ∈ nodes, node.Everywhere InputNode.Ordinary) →
    (∀ r, around = some r → Junction.ofName? r = none ∧ Modifier.ofKey? r = none) →
    ∀ e ∈ es, ∀ l ∈ e.leaves, c.Reads l := by
  refine compileNodes_induction
    (motive := fun around _ _ nodes es _ =>
      (∀ node ∈ nodes, node.Everywhere InputNode.Ordinary) →
      (∀ r, around = some r → Junction.ofName? r = none ∧ Modifier.ofKey? r = none) →
      ∀ e ∈ es, ∀ l ∈ e.leaves, c.Reads l)
    (fun _ _ _ _ _ e he => by cases he) ?_ ?_ h
  · intro around depth m node rest e m₁ es m' _ hvisits ih hnodes haround
    obtain ⟨hnode, hrest⟩ := List.forall_mem_cons.mp hnodes
    exact List.forall_mem_append.mpr ⟨reads_of_visits hc hnode haround hvisits, ih hrest haround⟩
  · intro around depth m node rest kind inner below m₁ es m' _ hvisits ihbelow ih hnodes haround
    obtain ⟨hnode, hrest⟩ := List.forall_mem_cons.mp hnodes
    refine List.forall_mem_append.mpr ⟨Expr.forall_leaves_joined (ihbelow hnode.child ?_), ih hrest haround⟩
    cases hvisits with
    | junction _ _ _ => exact haround
    | column hm hj _ _ _ =>
      rintro r ⟨⟩
      exact ⟨hj, hm⟩

/-- **Full junctions.** A walk makes no others. -/
theorem compileNodes_full (h : c.compileNodes around depth m nodes = .ok (es, m')) :
    ∀ e ∈ es, e.Full := by
  refine compileNodes_induction (motive := fun _ _ _ _ es _ => ∀ e ∈ es, e.Full)
    (fun _ _ _ e he => by cases he) ?_ ?_ h
  · intro around depth m node rest e m₁ es m' _ hvisits ih
    refine List.forall_mem_append.mpr ⟨?_, ih⟩
    cases hvisits with
    | modifier _ _ => exact fun e he => by cases he
    | value _ _ _ _ _ _ _ =>
      intro e he
      rw [List.mem_singleton.mp he]
      exact trivial
  · intro around depth m node rest kind inner below m₁ es m' _ _ ihbelow ih
    refine List.forall_mem_append.mpr ⟨fun e he => ?_, ih⟩
    exact Expr.full_of_joined ihbelow (Option.mem_toList.mp he)

/-- **Leaves that are not too deep.** Each level of a predicate is one of its input, or the
one that joins the nodes at the top. -/
theorem compileNodes_leafDepths (h : c.compileNodes around depth m nodes = .ok (es, m')) :
    ∀ e ∈ es, ∀ d ∈ e.leafDepths, depth + d ≤ c.settings.maxDepth.toNat := by
  refine compileNodes_induction
    (motive := fun _ depth _ _ es _ =>
      ∀ e ∈ es, ∀ d ∈ e.leafDepths, depth + d ≤ c.settings.maxDepth.toNat)
    (fun _ _ _ e he => by cases he) ?_ ?_ h
  · intro around depth m node rest e m₁ es m' hdepth hvisits ih
    refine List.forall_mem_append.mpr ⟨?_, ih⟩
    cases hvisits with
    | modifier _ _ => exact fun e he => by cases he
    | value _ _ _ _ _ _ _ =>
      intro e he d hd
      rw [List.mem_singleton.mp he, Expr.leafDepths, List.mem_singleton] at hd
      rw [hd]
      exact hdepth
  · intro around depth m node rest kind inner below m₁ es m' _ _ ihbelow ih
    exact List.forall_mem_append.mpr ⟨Expr.leafDepths_joined ihbelow, ih⟩

/-- No leaf of a compiled filter lies under more junctions than its input may have levels. -/
theorem leafDepths_of_compile {input : FilterInput} {f : Filter C} (h : c.compile input = .ok f) :
    ∀ e, f.expression = some e → ∀ d ∈ e.leafDepths, d ≤ c.settings.maxDepth.toNat := by
  rw [compile_eq] at h
  obtain ⟨⟨es, m⟩, hwalk, rfl⟩ := Except.map_eq_ok.mp h
  intro e he d hd
  have hle : ∀ e ∈ es, ∀ d ∈ e.leafDepths, 0 + 1 + d ≤ c.settings.maxDepth.toNat :=
    compileNodes_leafDepths hwalk
  have := Expr.leafDepths_joined hle e (Option.mem_toList.mpr he) d hd
  omega

omit [ColumnRef C] in
/-- A modifier that is taken leaves a limit within its bound: a new limit is checked, and
the others do not touch it. -/
theorem addModifier_limit {modifier : Modifier} (h : c.addModifier m modifier node = .ok m')
    (hm : ∀ n, m.limit = some n → checkLimit c.settings n = .ok ()) :
    ∀ n, m'.limit = some n → checkLimit c.settings n = .ok () := by
  cases modifier with
  | limit =>
    obtain ⟨n, -, h⟩ := Except.bind_eq_ok.mp h
    obtain ⟨⟨⟩, hcheck, h⟩ := Except.bind_eq_ok.mp h
    cases h
    intro n' hn'
    cases hn'
    exact hcheck
  | offset =>
    obtain ⟨n, -, h⟩ := Except.bind_eq_ok.mp h
    cases h
    exact hm
  | orderBy =>
    obtain ⟨specs, -, h⟩ := Except.bind_eq_ok.mp h
    obtain ⟨os, -, h⟩ := Except.bind_eq_ok.mp h
    cases h
    exact hm

/-- **Limits within their bound.** A walk keeps them so, however many limits it meets and
wherever they stand. -/
theorem compileNodes_limit (h : c.compileNodes around depth m nodes = .ok (es, m')) :
    (∀ n, m.limit = some n → checkLimit c.settings n = .ok ()) →
    ∀ n, m'.limit = some n → checkLimit c.settings n = .ok () := by
  refine compileNodes_induction
    (motive := fun _ _ m _ _ m' =>
      (∀ n, m.limit = some n → checkLimit c.settings n = .ok ()) →
      ∀ n, m'.limit = some n → checkLimit c.settings n = .ok ())
    (fun _ _ _ hm => hm) ?_ ?_ h
  · intro around depth m node rest e m₁ es m' _ hvisits ih hm
    cases hvisits with
    | modifier _ hadd => exact ih (addModifier_limit hadd hm)
    | value _ _ _ _ _ _ _ => exact ih hm
  · intro around depth m node rest kind inner below m₁ es m' _ _ ihbelow ih hm
    exact ih (ihbelow hm)

/-- **Modifiers within bounds.** A walk over ordinary nodes keeps them so. -/
theorem compileNodes_within (h : c.compileNodes around depth m nodes = .ok (es, m'))
    (hnodes : ∀ node ∈ nodes, node.Everywhere InputNode.Ordinary) (hm : m.Within c.settings) :
    m'.Within c.settings := by
  refine ⟨?_, compileNodes_limit h hm.limit⟩
  refine compileNodes_induction
    (motive := fun _ _ m nodes _ m' =>
      (∀ node ∈ nodes, node.Everywhere InputNode.Ordinary) → m.orderBy = [] → m'.orderBy = [])
    (fun _ _ _ _ hm => hm) ?_ ?_ h hnodes hm.orderBy
  · intro around depth m node rest e m₁ es m' _ hvisits ih hnodes hm
    obtain ⟨hnode, hrest⟩ := List.forall_mem_cons.mp hnodes
    refine ih hrest ?_
    cases hvisits with
    | value _ _ _ _ _ _ _ => exact hm
    | @modifier modifier _ hkey hadd =>
      cases modifier with
      | orderBy => exact absurd (Modifier.ofKey?_eq_some_iff.mp hkey) hnode.here.key
      | limit =>
        obtain ⟨n, -, hadd⟩ := Except.bind_eq_ok.mp hadd
        obtain ⟨⟨⟩, -, hadd⟩ := Except.bind_eq_ok.mp hadd
        cases hadd
        exact hm
      | offset =>
        obtain ⟨n, -, hadd⟩ := Except.bind_eq_ok.mp hadd
        cases hadd
        exact hm
  · intro around depth m node rest kind inner below m₁ es m' _ _ ihbelow ih hnodes hm
    obtain ⟨hnode, hrest⟩ := List.forall_mem_cons.mp hnodes
    exact ih hrest (ihbelow hnode.child hm)

end Compiler
end QueryFilter
