/-
# What is written for an expression compiles to it

A filter is written in normal form, and what is written compiles to that normal
form again, except that the leaves of one column under an `and` come back as an
`and` of their own if there are other members (`Expr.gather`). The walk goes
one level down for each junction, and two for a leaf: one for its column and
one for its operator.

Key theorems: `Compiler.compileNode_entry`, `Compiler.compile_toInput`.
-/
import QueryFilter.Proofs.Compiler.Reading
import QueryFilter.Proofs.Filter.Write

namespace QueryFilter
namespace Compiler

variable {C : Type} [ColumnRef C] {c : Compiler C}

/-- The node that an expression is written as. -/
def nodeOf (e : Expr C) : InputNode := .map e.key (InputNode.ofMembers e.body)

/-- The node of a leaf is that of the one leaf of its column. -/
theorem nodeOf_leaf (column : C) (op : Operator) :
    nodeOf (.leaf column op) = .map (ColumnRef.reference column)
      (InputNode.ofMembers ([Expr.leaf column op].flatMap Expr.body)) := by
  rw [List.flatMap_singleton]
  rfl

/-- The nodes below that of a junction: one for each key, with all that the
members of that key say. -/
theorem nodeOf_junction {kind : Junction} {es : List (Expr C)} {en : Expr.Entry}
    (he : Expr.entry (.junction kind es) = .ok en) :
    nodeOf (.junction kind es) = .map kind.name ((Expr.keys es).map fun k =>
      .map k (InputNode.ofMembers ((Expr.ofKey k es).flatMap Expr.body))) := by
  have hbody : (Expr.junction kind es).body =
      (Expr.merged (Expr.entriesOf es)).map fun e => (e.1, .object e.2) := by
    rw [Expr.body, he, (Expr.entry_junction_eq_ok he).2.2]
  rw [nodeOf, Expr.key, hbody, InputNode.ofMembers_eq_map, Expr.merged, Expr.keysOf_entriesOf,
    List.map_map, List.map_map]
  refine congrArg _ (List.map_congr_left fun k _ => ?_)
  simp only [Function.comp_apply, InputNode.ofJson, Expr.under_entriesOf]

/-- A node under the name of a junction is the junction of the nodes below it. -/
theorem compileNode_junction {kind : Junction} {depth : Nat}
    (hd : depth ≤ c.settings.maxDepth.toNat) (modifiers : Modifiers C) (children : List InputNode) :
    c.compileNode none depth modifiers (.map kind.name children) =
      (c.compileNodes none (depth + 1) modifiers children).map fun r =>
        (Expr.joined kind r.1, r.2) := by
  have hm : Modifier.ofKey? kind.name = none := by cases kind <;> decide
  have hvisit : c.visit none depth modifiers (.map kind.name children) =
      .ok (.descend kind none) := by
    rw [visit, if_neg (by omega)]
    simp only [InputNode.key, hm, Junction.ofName?_name, InputNode.isLeaf, Bool.false_eq_true,
      ↓reduceIte]
  rw [compileNode_eq, hvisit]
  rfl

/-- The one or more leaves of a key compile to their join. -/
theorem compileNode_leaves {k : String} {es : List (Expr C)} {depth : Nat}
    (hk : Junction.isName k = false) (hes : ∀ e ∈ es, e.key = k) (hne : es ≠ [])
    (hr : ∀ e ∈ es, ∀ l ∈ e.leaves, c.Reads l) (hd : depth + 1 ≤ c.settings.maxDepth.toNat)
    (modifiers : Modifiers C) :
    c.compileNode none depth modifiers (.map k (InputNode.ofMembers (es.flatMap Expr.body))) =
      .ok (Expr.joined .and (es.map Expr.gather), modifiers) := by
  have hleaf : ∀ e ∈ es, ∃ column op, e = .leaf column op ∧ ColumnRef.reference column = k ∧
      c.Reads (column, op) := by
    intro e he
    obtain ⟨column, op, rfl, href⟩ := Expr.leaf_of_key (e := e) (by rwa [hes e he])
    exact ⟨column, op, rfl, href.trans (hes _ he), hr _ he (column, op) (by simp)⟩
  have hgather : es.map Expr.gather = es := by
    have hid : ∀ e ∈ es, e.gather = e := fun e he => by
      obtain ⟨column, op, rfl, -⟩ := hleaf e he
      rfl
    rw [List.map_congr_left hid, List.map_id']
  obtain ⟨e, he⟩ := List.exists_mem_of_ne_nil es hne
  obtain ⟨column, op, rfl, href, hreads⟩ := hleaf e he
  have hm : Modifier.ofKey? k = none := href ▸ hreads.noModifier
  rw [hgather, compileNode_column hk hm hleaf hd]

/-- The members of one key compile to their join: a single member, or leaves. -/
theorem compileNode_key {kind : Junction} {es : List (Expr C)} {depth : Nat}
    {modifiers : Modifiers C} (hclash : Expr.NoClash kind (Expr.entriesOf es))
    (hr : ∀ e ∈ es, ∀ l ∈ e.leaves, c.Reads l) (hd : depth + 1 ≤ c.settings.maxDepth.toNat)
    (hes : ∀ e ∈ es, c.compileNode none depth modifiers (nodeOf e) = .ok (some e.gather, modifiers))
    {k : String} (hk : k ∈ Expr.keys es) :
    c.compileNode none depth modifiers
        (.map k (InputNode.ofMembers ((Expr.ofKey k es).flatMap Expr.body))) =
      .ok (Expr.joined .and ((Expr.ofKey k es).map Expr.gather), modifiers) := by
  cases hname : Junction.isName k with
  | true =>
    obtain ⟨e, hmem, hkey, he⟩ := Expr.exists_ofKey_eq hclash hname hk
    rw [he, List.flatMap_singleton, ← hkey]
    exact hes e hmem
  | false =>
    exact compileNode_leaves hname (fun e he => (Expr.mem_ofKey.mp he).2) (Expr.ofKey_ne_nil hk)
      (fun e he => hr e (Expr.mem_ofKey.mp he).1) hd modifiers

/-- **One expression.** What is written for an expression of full junctions
compiles to that expression, gathered. -/
theorem compileNode_entry {e : Expr C} : ∀ {en : Expr.Entry} {depth : Nat},
    Expr.entry e = .ok en → e.Full → (∀ l ∈ e.leaves, c.Reads l) →
    (∀ d ∈ e.leafDepths, depth + d + 1 ≤ c.settings.maxDepth.toNat) → ∀ modifiers : Modifiers C,
    c.compileNode none depth modifiers (nodeOf e) = .ok (some e.gather, modifiers) := by
  induction e using Expr.induction with
  | leaf column op =>
    intro en depth _ _ hr hd modifiers
    have hreads : c.Reads (column, op) := hr (column, op) (by simp)
    have hkey : ∀ e ∈ [Expr.leaf column op], e.key = ColumnRef.reference column := fun e he => by
      rw [List.mem_singleton.mp he]
      rfl
    have hall : ∀ e ∈ [Expr.leaf column op], ∀ l ∈ e.leaves, c.Reads l := fun e he => by
      rwa [List.mem_singleton.mp he]
    have hnode := compileNode_leaves hreads.noJunction hkey (List.cons_ne_nil _ _) hall
      (hd 0 (by simp [Expr.leafDepths])) modifiers
    rwa [← nodeOf_leaf] at hnode
  | junction kind es ih =>
    intro en depth he hfull hr hd modifiers
    obtain ⟨hall, hclash, -⟩ := Expr.entry_junction_eq_ok he
    obtain ⟨hl, hes⟩ := Expr.full_junction_iff.mp hfull
    have hdepth : ∀ e ∈ es, ∀ d ∈ e.leafDepths, depth + 1 + d + 1 ≤ c.settings.maxDepth.toNat := by
      intro e he' d hd'
      have := hd (d + 1) (Expr.mem_leafDepths_junction.mpr ⟨e, he', d, hd', rfl⟩)
      omega
    have hreads : ∀ e ∈ es, ∀ l ∈ e.leaves, c.Reads l := Expr.forall_leaves_junction.mp hr
    have hnode : ∀ e ∈ es, c.compileNode none (depth + 1) modifiers (nodeOf e) =
        .ok (some e.gather, modifiers) := fun e he' =>
      ih e he' (hall e he') (hes e he') (hreads e he') (hdepth e he') modifiers
    -- a junction that is full has a leaf, and that lies deep enough for all keys
    obtain ⟨d, hd'⟩ := List.exists_mem_of_ne_nil _ (Expr.leafDepths_ne_nil hfull)
    obtain ⟨e, he', d', hd'', rfl⟩ := Expr.mem_leafDepths_junction.mp hd'
    have hle := hdepth e he' d' hd''
    have hkeys := compileNodes_map fun k (hk : k ∈ Expr.keys es) =>
      compileNode_key hclash hreads (by omega) hnode hk
    have hjoined := Expr.joined_keys Expr.key_gather hl hclash
    rw [nodeOf_junction he, compileNode_junction (by omega), hkeys,
      Except.map, hjoined, Expr.gather_junction]

/-- What is written for an expression alone: nothing if its normal form is
empty, and else the node of the normal form. -/
theorem toInput_eq_ok {T : Expr C} {input : FilterInput}
    (h : Filter.toInput ⟨some T, .empty⟩ = .ok input) :
    (T.normalize.isEmpty = true ∧ input = ⟨[]⟩) ∨
      (T.normalize.isEmpty = false ∧ input = ⟨[nodeOf T.normalize]⟩ ∧
        Expr.entry T.normalize = .ok (T.normalize.key, T.normalize.body)) := by
  have hdump : InputNode.ofMembers (Modifiers.empty : Modifiers C).dump = [] := rfl
  have hnormal : (Filter.normalize ⟨some T, .empty⟩).expression = T.normalForm? :=
    Filter.expression_normalize _
  rcases Filter.toInput_eq_ok h with ⟨hnone, hnodes⟩ | ⟨e, hsome, hentry, hnodes⟩
  · rw [hnormal, Expr.normalForm?] at hnone
    rw [hdump] at hnodes
    cases hn : T.normalize.isEmpty with
    | true => exact Or.inl ⟨rfl, by cases input; exact congrArg FilterInput.mk hnodes⟩
    | false =>
      rw [hn] at hnone
      cases hnone
  · rw [hnormal] at hsome
    obtain ⟨rfl, hfull⟩ := Expr.normalForm?_eq_some hsome
    rw [hdump] at hnodes
    exact Or.inr ⟨Expr.isEmpty_of_full hfull, by cases input; exact congrArg FilterInput.mk hnodes,
      hentry⟩

/-- **Round trip of expressions.** If a filter without modifiers can be written,
its leaves can be read back, and no leaf of its normal form lies too deep, then
what is written compiles to the normal form, gathered, and to no predicate if
the normal form is empty. Where no two leaves of an `and` of several keys have
one reference, that is the normal form itself. -/
theorem compile_toInput {T : Expr C} {input : FilterInput}
    (hw : Filter.toInput ⟨some T, .empty⟩ = .ok input) (hr : ∀ l ∈ T.leaves, c.Reads l)
    (hd : ∀ d ∈ T.normalize.leafDepths, d + 2 ≤ c.settings.maxDepth.toNat) :
    c.compile input =
        .ok ⟨if T.normalize.isEmpty then none else some T.normalize.gather, .empty⟩ ∧
      (T.normalize.Apart → T.normalize.gather = T.normalize) := by
  rcases toInput_eq_ok hw with ⟨hn, rfl⟩ | ⟨hn, rfl, he⟩
  · have hself : T.normalize.gather = T.normalize := by
      cases hT : T.normalize with
      | leaf column op => rfl
      | junction kind es =>
        rw [hT] at hn
        rw [List.isEmpty_iff.mp hn, Expr.gather_junction, List.map_nil, Expr.regroup, if_neg]
        rintro ⟨-, hl⟩
        cases hl
    rw [hn, if_pos rfl]
    exact ⟨rfl, fun _ => hself⟩
  · have hreads : ∀ l ∈ T.normalize.leaves, c.Reads l := by
      rwa [Expr.leaves_normalize]
    have hdepth : ∀ d ∈ T.normalize.leafDepths, 1 + d + 1 ≤ c.settings.maxDepth.toNat := by
      intro d hd'
      have := hd d hd'
      omega
    have hnode := compileNode_entry he (Expr.full_normalize hn) hreads hdepth .empty
    rw [compile_eq, compileNodes_cons, hnode]
    refine ⟨?_, fun h => Expr.gather_eq_self he h⟩
    rw [hn, if_neg Bool.false_ne_true, Except.bind, compileNodes_nil]
    rfl

/-- Two filters by name around one by age, a junction of one member, an empty
one, and an `or`. -/
def nameTwice : Expr Column :=
  .junction .and [.leaf (.plain "tt" "name") ⟨.ne, .string "x", by decide⟩, .junction .or [],
    .junction .or [.leaf (Column.plain "tt" "age").qualify ⟨.gt, .int 17, by decide⟩],
    .leaf (.plain "tt" "name") ⟨.isIn, .array [.string "a", .null], by decide⟩,
    .junction .or [.leaf (.plain "tt" "name") ⟨.eq, .bool true, by decide⟩,
      .leaf (.plain "tt" "age") ⟨.eq, .int 40, by decide⟩]]

/-- What `nameTwice` is written as. -/
def nameTwiceInput : FilterInput :=
  ⟨[.map "and" [
    .map "name" [.leaf "ne" (.string "x"), .list "in" [.leaf "0" (.string "a"), .leaf "1" .null]],
    .map "tt.age" [.leaf "gt" (.int 17)],
    .map "or" [.map "name" [.leaf "eq" (.bool true)], .map "age" [.leaf "eq" (.int 40)]]]]⟩

/-- What `nameTwice` comes back as. -/
def nameTwiceGathered : Expr Column :=
  .junction .and [
    .junction .and [.leaf (.plain "tt" "name") ⟨.ne, .string "x", by decide⟩,
      .leaf (.plain "tt" "name") ⟨.isIn, .array [.string "a", .null], by decide⟩],
    .leaf (Column.plain "tt" "age").qualify ⟨.gt, .int 17, by decide⟩,
    .junction .or [.leaf (.plain "tt" "name") ⟨.eq, .bool true, by decide⟩,
      .leaf (.plain "tt" "age") ⟨.eq, .int 40, by decide⟩]]

theorem reads_nameTwice : ∀ l ∈ nameTwice.leaves, ofPeople.Reads l := by
  have hreads : ∀ {column : Column},
      ofPeople.resolver.resolve (ColumnRef.reference column) = .ok column →
      Junction.isName (ColumnRef.reference column) = false →
      Modifier.ofKey? (ColumnRef.reference column) = none →
      ∀ {op : Operator}, op.Plain → ofPeople.Reads (column, op) :=
    fun hr hj hm op hp => ⟨hr, hj, hm, RestrictionSet.isAllowed_empty _ op, hp⟩
  have hname : ∀ {op : Operator}, op.Plain → ofPeople.Reads (.plain "tt" "name", op) :=
    hreads rfl rfl rfl
  have hage : ∀ {op : Operator}, op.Plain → ofPeople.Reads (.plain "tt" "age", op) :=
    hreads rfl rfl rfl
  have hqualified : ∀ {op : Operator}, op.Plain →
      ofPeople.Reads ((Column.plain "tt" "age").qualify, op) :=
    hreads rfl rfl rfl
  intro l hl
  change l ∈ [_, _, _, _, _] at hl
  simp only [List.mem_cons, List.not_mem_nil, or_false] at hl
  rcases hl with rfl | rfl | rfl | rfl | rfl
  · exact hname (.of_single trivial rfl)
  · exact hqualified (.of_single trivial rfl)
  · exact hname (.of_list rfl ⟨trivial, trivial, trivial⟩ (by simp [Value.isArray]))
  · exact hname (.of_single trivial rfl)
  · exact hage (.of_single trivial rfl)

theorem compile_toInput_nameTwice :
    (Filter.toInput ⟨some nameTwice, .empty⟩ = .ok nameTwiceInput ∧
      (∀ l ∈ nameTwice.leaves, ofPeople.Reads l) ∧
      ∀ d ∈ nameTwice.normalize.leafDepths, d + 2 ≤ ofPeople.settings.maxDepth.toNat) ∧
    ofPeople.compile nameTwiceInput = .ok ⟨some nameTwiceGathered, .empty⟩ :=
  ⟨⟨rfl, reads_nameTwice, by decide⟩,
    (compile_toInput (show Filter.toInput ⟨some nameTwice, .empty⟩ = .ok nameTwiceInput from rfl)
      reads_nameTwice (by decide)).1⟩

end Compiler
end QueryFilter
