/-
# Writing what was read back

What is written for a filter may compile although JSON cannot hold all of it. Whatever
comes back has the junctions, columns and comparisons of what was written, gathered
(`Compiler.compileNode_reread`). So it can be written again exactly if the normal form of
the filter is rewritable (`Compiler.toInput_again`); two pairs of bounds are not
(`Compiler.toInput_once_twoPairs`).

That it compiles excludes columns that have the name of a modifier or of a junction, and
lists of lists: no object is a modifier, and no value stands without a column
(`Compiler.not_compileNode_value`).

Key theorems: `Compiler.not_compileNode_value`, `Compiler.compileNode_symbol`,
`Compiler.compileNode_reread`, `Compiler.compile_reread`, `Compiler.toInput_again`.
-/
import QueryFilter.Proofs.Compiler.Gate
import QueryFilter.Proofs.Compiler.RoundTrip
import QueryFilter.Proofs.Compiler.Visit
import QueryFilter.Proofs.Expr.Reread

namespace QueryFilter

/-- The leaves of the normal form are those of the predicate. -/
theorem Filter.leaves_normalize {C : Type} {f : Filter C} {e : Expr C}
    (h : f.normalize.expression = some e) : e.leaves = f.leaves := by
  rw [Filter.expression_normalize] at h
  obtain ⟨T, hT, h⟩ := Option.bind_eq_some_iff.mp h
  rw [(Expr.normalForm?_eq_some h).1, Expr.leaves_normalize, Filter.leaves, hT]
  rfl

namespace Compiler

variable {C : Type} [ColumnRef C] {c : Compiler C} {depth : Nat} {m : Modifiers C}
  {reference : String} {column : C} {op : Operator} {r : Option (Expr C) × Modifiers C}

/-- A value does not compile where no column is around it, or under a key that is no
operator; if it is a list of lists, its places are such keys. -/
theorem not_compileNode_value : ∀ (v : Value) {key : String} {around : Option String} {depth : Nat}
    {r : Option (Expr C) × Modifiers C}, Modifier.ofKey? key = none → Junction.ofName? key = none →
    around = none ∨ OperatorKind.ofSymbol? key = none →
    c.compileNode around depth m (.ofJson key v.toJson) ≠ .ok r := by
  intro v key around depth r hm hj hnone h
  obtain ⟨-, step, hvisits, hstep⟩ := compileNode_eq_ok h
  cases hvisits with
  | modifier hkey _ =>
    rw [InputNode.key_ofJson, hm] at hkey
    cases hkey
  | junction _ hkey _ =>
    rw [InputNode.key_ofJson, hj] at hkey
    cases hkey
  | value _ _ haround _ hkind _ _ =>
    rw [InputNode.key_ofJson] at hkind
    rcases hnone with rfl | hsymbol
    · cases haround
    · rw [hsymbol] at hkind
      cases hkind
  | column _ _ hv hl _ =>
    obtain ⟨item, rest, rfl⟩ := InputNode.exists_item hv hl
    obtain ⟨es, m', hwalk, -⟩ := hstep
    rw [InputNode.ofJson_array, InputNode.children, List.map_cons, InputNode.ofItems,
      compileNodes_cons] at hwalk
    obtain ⟨first, hfirst, -⟩ := Except.bind_eq_ok.mp hwalk
    have hplace := isDigit_indexKey 0
    exact not_compileNode_value item (Modifier.ofKey?_of_digits hplace)
      (Junction.ofName?_of_digits hplace) (Or.inr (OperatorKind.ofSymbol?_of_digits hplace)) hfirst

/-- **One operator.** What is written for it under a column comes back as the leaf of that
column with the operator reread. -/
theorem compileNode_symbol (hcolumn : c.resolver.resolve reference = .ok column)
    (h : c.compileNode (some reference) depth m (.ofJson op.symbol op.value.toJson) = .ok r) :
    r = (some (.leaf column op.reread), m) := by
  obtain ⟨-, step, hvisits, hstep⟩ := compileNode_eq_ok h
  cases hvisits with
  | modifier hkey _ =>
    rw [InputNode.key_ofJson, op.ofKey?_symbol] at hkey
    cases hkey
  | @value reference' column' op' _ _ haround hresolve hkind hvalue _ =>
    cases haround
    rw [hcolumn] at hresolve
    cases hresolve
    rw [InputNode.key_ofJson, Operator.symbol, OperatorKind.ofSymbol?_symbol] at hkind
    have hop : op' = op.reread := by
      refine Operator.eq_of (Option.some.inj hkind).symm ?_
      show op'.value = op.value.reread
      cases ha : op.value.isArray with
      | false =>
        rw [InputNode.ofJson_reread ha] at hvalue
        rcases hvalue with hv | ⟨hl, -⟩
        · exact (Option.some.inj hv).symm
        · cases hl
      | true =>
        obtain ⟨vs, hvs⟩ := Value.exists_of_isArray ha
        rw [hvs, InputNode.ofJson_array] at hvalue
        rcases hvalue with hv | ⟨hl, -, hv⟩
        · cases hv
        · rw [hv, hvs, Value.reread]
          exact congrArg Value.array
            (InputNode.filterMap_ofItems (InputNode.all_isLeaf_ofItems_iff.mp hl))
    rw [hstep, hop]
  | junction _ hkey _ =>
    rw [InputNode.key_ofJson, op.ofName?_symbol] at hkey
    cases hkey
  | column _ _ _ _ hsymbol =>
    refine absurd ⟨rfl, ?_⟩ hsymbol
    rw [InputNode.key_ofJson, Operator.symbol, OperatorKind.isSymbol, OperatorKind.ofSymbol?_symbol]
    rfl

/-- **Leaves of one column.** What is written for them comes back as their join, if it
compiles at all, and then their reference is no modifier. -/
theorem compileNode_column_reread {es : List (Expr C)} (hne : es ≠ [])
    (hes : ∀ e ∈ es, ∃ column op, e = .leaf column op ∧ c.resolver.resolve reference = .ok column)
    (h : c.compileNode none depth m (.map reference (InputNode.ofMembers (es.flatMap Expr.body))) =
      .ok r) :
    r = (Expr.joined .and (es.map Expr.reread), m) ∧ Modifier.ofKey? reference = none := by
  have hnodes : ∀ {es : List (Expr C)} {depth : Nat} {r : List (Expr C) × Modifiers C},
      (∀ e ∈ es, ∃ column op, e = .leaf column op ∧ c.resolver.resolve reference = .ok column) →
      c.compileNodes (some reference) depth m (InputNode.ofMembers (es.flatMap Expr.body)) = .ok r →
      r = (es.map Expr.reread, m) := by
    intro es depth r hes h
    induction es generalizing r with
    | nil =>
      rw [List.flatMap_nil, InputNode.ofMembers, compileNodes_nil] at h
      cases h
      rfl
    | cons e rest ih =>
      obtain ⟨⟨column, op, rfl, hcolumn⟩, hrest⟩ := List.forall_mem_cons.mp hes
      rw [List.flatMap_cons, Expr.body_leaf, List.singleton_append, InputNode.ofMembers, compileNodes_cons] at h
      obtain ⟨first, hfirst, h⟩ := Except.bind_eq_ok.mp h
      obtain ⟨more, hmore, rfl⟩ := Except.map_eq_ok.mp h
      rw [compileNode_symbol hcolumn hfirst] at hmore ⊢
      rw [ih hrest hmore]
      rfl
  obtain ⟨-, step, hvisits, hstep⟩ := compileNode_eq_ok h
  cases hvisits with
  | @modifier modifier m' _ hadd =>
    -- a modifier takes no object
    cases modifier <;> cases hadd
  | value _ _ haround _ _ _ _ => cases haround
  | junction _ _ _ =>
    obtain ⟨below, m', hwalk, -⟩ := hstep
    obtain ⟨e, rest, rfl⟩ := List.exists_cons_of_ne_nil hne
    obtain ⟨column, op, rfl, -⟩ := hes e List.mem_cons_self
    rw [InputNode.children, List.flatMap_cons, Expr.body_leaf, List.singleton_append, InputNode.ofMembers,
      compileNodes_cons] at hwalk
    obtain ⟨first, hfirst, -⟩ := Except.bind_eq_ok.mp hwalk
    exact absurd hfirst
      (not_compileNode_value op.value op.ofKey?_symbol op.ofName?_symbol (Or.inl rfl))
  | column hm _ _ _ _ =>
    obtain ⟨below, m', hwalk, rfl⟩ := hstep
    cases hnodes hes hwalk
    exact ⟨rfl, hm⟩

/-- Nodes of which each leaves the modifiers as they are come back one by one. -/
theorem compileNodes_map_eq_ok {α : Type} {around : Option String} {node : α → InputNode}
    {e : α → Option (Expr C)} : ∀ {as : List α} {r : List (Expr C) × Modifiers C},
      (∀ a ∈ as, ∀ {r}, c.compileNode around depth m (node a) = .ok r → r = (e a, m)) →
      c.compileNodes around depth m (as.map node) = .ok r → r = (as.filterMap e, m)
  | [], r, _, h => by
    rw [List.map_nil, compileNodes_nil] at h
    cases h
    rfl
  | a :: rest, r, hall, h => by
    obtain ⟨ha, hrest⟩ := List.forall_mem_cons.mp hall
    rw [List.map_cons, compileNodes_cons] at h
    obtain ⟨first, hfirst, h⟩ := Except.bind_eq_ok.mp h
    obtain ⟨more, hmore, rfl⟩ := Except.map_eq_ok.mp h
    rw [ha hfirst] at hmore ⊢
    rw [compileNodes_map_eq_ok hrest hmore, List.filterMap_cons]
    cases e a <;> rfl

theorem key_reread_gather (e : Expr C) : e.reread.gather.key = e.key := by
  rw [Expr.key_gather, Expr.key_of_face Expr.face_reread]

/-- Under each key of a junction stands one member, or leaves of one column. -/
theorem compileNode_key_reread {kind : Junction} {es : List (Expr C)} {k : String}
    (hclash : Expr.NoClash kind (Expr.entriesOf es))
    (hr : ∀ e ∈ es, ∀ l ∈ e.leaves, c.resolver.resolve (ColumnRef.reference l.1) = .ok l.1)
    (hes : ∀ e ∈ es, ∀ {r}, c.compileNode none depth m (nodeOf e) = .ok r →
      r = (some e.reread.gather, m))
    (hk : k ∈ Expr.keys es)
    (h : c.compileNode none depth m
      (.map k (InputNode.ofMembers ((Expr.ofKey k es).flatMap Expr.body))) = .ok r) :
    r = (Expr.joined .and ((Expr.ofKey k es).map fun e => e.reread.gather), m) := by
  cases hname : Junction.isName k with
  | true =>
    obtain ⟨e, hmem, hek, he⟩ := Expr.exists_ofKey_eq hclash hname hk
    rw [he, List.flatMap_singleton, ← hek] at h
    rw [he, hes e hmem h]
    rfl
  | false =>
    have hleaf : ∀ e ∈ Expr.ofKey k es, ∃ column op, e = .leaf column op ∧
        c.resolver.resolve k = .ok column := by
      intro e he
      obtain ⟨hmem, hek⟩ := Expr.mem_ofKey.mp he
      obtain ⟨column, op, rfl, href⟩ := Expr.leaf_of_key (e := e) (by rwa [hek])
      have hcolumn := hr _ hmem (column, op) (by simp)
      rw [href, hek] at hcolumn
      exact ⟨column, op, rfl, hcolumn⟩
    have hsame : (Expr.ofKey k es).map Expr.reread =
        (Expr.ofKey k es).map fun e => e.reread.gather :=
      List.map_congr_left fun e he => by
        obtain ⟨column, op, rfl, -⟩ := hleaf e he
        rfl
    rw [(compileNode_column_reread (Expr.ofKey_ne_nil hk) hleaf h).1, hsame]

/-- **One expression.** If what is written for an expression of full junctions compiles, it
comes back reread and gathered, and the expression has no key of a modifier. -/
theorem compileNode_reread {e : Expr C} : ∀ {en : Expr.Entry} {depth : Nat}
    {r : Option (Expr C) × Modifiers C}, Expr.entry e = .ok en → e.Full →
    (∀ l ∈ e.leaves, c.resolver.resolve (ColumnRef.reference l.1) = .ok l.1) →
    c.compileNode none depth m (nodeOf e) = .ok r →
    r = (some e.reread.gather, m) ∧ Modifier.ofKey? e.key = none := by
  induction e using Expr.induction with
  | leaf column op =>
    intro en depth r _ _ hr h
    have hleaf : ∀ e ∈ [Expr.leaf column op], ∃ column' op', e = .leaf column' op' ∧
        c.resolver.resolve (ColumnRef.reference column) = .ok column' := fun e he => by
      rw [List.mem_singleton.mp he]
      exact ⟨column, op, rfl, hr (column, op) (by simp)⟩
    rw [nodeOf_leaf] at h
    exact compileNode_column_reread (List.cons_ne_nil _ _) hleaf h
  | junction kind es ih =>
    intro en depth r he hfull hr h
    obtain ⟨hall, hclash, -⟩ := Expr.entry_junction_eq_ok he
    obtain ⟨hl, hes⟩ := Expr.full_junction_iff.mp hfull
    have hresolves : ∀ e ∈ es, ∀ l ∈ e.leaves,
        c.resolver.resolve (ColumnRef.reference l.1) = .ok l.1 := Expr.forall_leaves_junction.mp hr
    have hnode : ∀ e ∈ es, ∀ {r}, c.compileNode none (depth + 1) m (nodeOf e) = .ok r →
        r = (some e.reread.gather, m) := fun e he' {r} hr' =>
      (ih e he' (hall e he') (hes e he') (hresolves e he') hr').1
    rw [nodeOf_junction he, compileNode_junction (compileNode_eq_ok h).1] at h
    obtain ⟨below, hwalk, rfl⟩ := Except.map_eq_ok.mp h
    rw [compileNodes_map_eq_ok (fun k hk {r} => compileNode_key_reread hclash hresolves hnode hk) hwalk,
      Expr.joined_keys key_reread_gather hl hclash, Expr.reread_junction, Expr.gather_junction,
      List.map_map]
    exact ⟨rfl, by rw [Expr.key]; cases kind <;> decide⟩

/-- Modifiers side by side make no expression. -/
theorem compile_modifiers {around : Option String} {nodes : List InputNode} {es : List (Expr C)}
    {m' : Modifiers C} (h : c.compileNodes around depth m nodes = .ok (es, m')) :
    (∀ node ∈ nodes, ∃ modifier, Modifier.ofKey? node.key = some modifier) → es = [] := by
  refine compileNodes_induction
    (motive := fun _ _ _ nodes es _ =>
      (∀ node ∈ nodes, ∃ modifier, Modifier.ofKey? node.key = some modifier) → es = [])
    (fun _ _ _ _ => rfl) (fun _ hvisits ih hall => ?_) (fun _ hvisits _ _ hall => ?_) h
  · obtain ⟨⟨modifier, hkey⟩, hrest⟩ := List.forall_mem_cons.mp hall
    rw [ih hrest]
    cases hvisits with
    | modifier _ _ => rfl
    | value hm _ _ _ _ _ _ =>
      rw [hm] at hkey
      cases hkey
  · obtain ⟨⟨modifier, hkey⟩, -⟩ := List.forall_mem_cons.mp hall
    cases hvisits with
    | junction hm _ _ | column hm _ _ _ _ =>
      rw [hm] at hkey
      cases hkey

/-- **What comes back.** If what is written for a filter compiles, its predicate comes back
reread and gathered, it has no key of a modifier, and the modifiers are what compiles from
those that were written. -/
theorem compile_reread {f f' : Filter C} {input : FilterInput} (hw : f.toInput = .ok input)
    (hr : ∀ l ∈ f.leaves, c.resolver.resolve (ColumnRef.reference l.1) = .ok l.1)
    (hc : c.compile input = .ok f') :
    f'.expression = f.normalize.expression.map (fun e => e.reread.gather) ∧
      (∀ e, f.normalize.expression = some e → ¬ e.Collides ∧ Modifier.ofKey? e.key = none) ∧
      ∃ es, c.compileNodes none 1 .empty (InputNode.ofMembers f.modifiers.dump) =
        .ok (es, f'.modifiers) := by
  have hmodifiers : ∀ node ∈ InputNode.ofMembers f.modifiers.dump,
      ∃ modifier, Modifier.ofKey? node.key = some modifier := by
    intro node hnode
    rw [InputNode.ofMembers_eq_map] at hnode
    obtain ⟨member, hmember, rfl⟩ := List.mem_map.mp hnode
    rw [InputNode.key_ofJson]
    exact Modifiers.ofKey?_of_mem_dump (List.mem_map_of_mem hmember)
  rw [compile_eq] at hc
  obtain ⟨r, hwalk, rfl⟩ := Except.map_eq_ok.mp hc
  rcases Filter.toInput_eq_ok hw with ⟨hnone, hnodes⟩ | ⟨e, hsome, hentry, hnodes⟩
  · rw [hnodes] at hwalk
    refine ⟨?_, fun e he => ?_, r.1, hwalk⟩
    · rw [compile_modifiers hwalk hmodifiers, hnone]
      rfl
    · rw [hnone] at he
      cases he
  · have hleaves : ∀ l ∈ e.leaves, c.resolver.resolve (ColumnRef.reference l.1) = .ok l.1 := by
      rwa [Filter.leaves_normalize hsome]
    rw [hnodes, compileNodes_cons] at hwalk
    obtain ⟨first, hfirst, hwalk⟩ := Except.bind_eq_ok.mp hwalk
    obtain ⟨more, hmore, rfl⟩ := Except.map_eq_ok.mp hwalk
    obtain ⟨hback, hkey⟩ := compileNode_reread hentry (Filter.full_of_normalize hsome) hleaves hfirst
    rw [hback] at hmore ⊢
    refine ⟨?_, fun e' he' => ?_, more.1, hmore⟩
    · rw [hsome, compile_modifiers hmore hmodifiers]
      rfl
    · rw [hsome] at he'
      cases he'
      exact ⟨(Expr.entry_ok_iff e).mp ⟨_, hentry⟩, hkey⟩

/-- **The second trip.** A filter that was written and has been read back can be written
again exactly if its normal form is rewritable: every `and` of several keys has at most one
key of an `and` or of several leaves. If not, keys collide. -/
theorem toInput_again {f f' : Filter C} {input : FilterInput} (hw : f.toInput = .ok input)
    (hr : ∀ l ∈ f.leaves, c.resolver.resolve (ColumnRef.reference l.1) = .ok l.1)
    (hc : c.compile input = .ok f') :
    ((∃ input', f'.toInput = .ok input') ↔
        ∀ e, f.normalize.expression = some e → e.Rewritable) ∧
      ∀ err, f'.toInput = .error err → ∃ key, err = .keyCollision key := by
  obtain ⟨hback, hwritten, -⟩ := compile_reread hw hr hc
  refine ⟨?_, Filter.onlyCollides_toInput f'⟩
  have hnormal : f'.normalize.expression =
      f.normalize.expression.map fun e => e.reread.gather := by
    rw [Filter.expression_normalize, hback]
    cases he : f.normalize.expression with
    | none => rfl
    | some e =>
      exact Expr.normalForm?_of_full (Expr.full_gather (Expr.full_reread (Filter.full_of_normalize he)))
  have hkey : ∀ e', f'.normalize.expression = some e' → Modifier.ofKey? e'.key = none := by
    intro e' he'
    rw [hnormal] at he'
    obtain ⟨e, he, rfl⟩ := Option.map_eq_some_iff.mp he'
    rw [key_reread_gather]
    exact (hwritten e he).2
  have hagain : ∀ e, f.normalize.expression = some e →
      (¬ e.reread.gather.Collides ↔ e.Rewritable) := by
    intro e he
    have hclear : ¬ e.reread.Collides := (Expr.not_collides_reread_iff e).mpr (hwritten e he).1
    rw [Expr.not_collides_gather_iff hclear, Expr.rewritable_reread_iff]
  rw [Filter.toInput_ok_iff hkey, hnormal]
  constructor
  · exact fun h e he => (hagain e he).mp (h _ (by rw [he]; rfl))
  · intro h e' he'
    obtain ⟨e, he, rfl⟩ := Option.map_eq_some_iff.mp he'
    exact (hagain e he).mpr (h e he)

/-- Five of those of `nameTwice`. -/
def fiveOfNameTwice : Filter Column := ⟨some nameTwice, Modifiers.empty.setLimit 5⟩

theorem toInput_again_nameTwice :
    (fiveOfNameTwice.toInput = .ok (nameTwiceInput.push (.leaf "limit" (.int 5))) ∧
      (∀ l ∈ fiveOfNameTwice.leaves, ofPeople.resolver.resolve (ColumnRef.reference l.1) = .ok l.1) ∧
      ofPeople.compile (nameTwiceInput.push (.leaf "limit" (.int 5))) =
        .ok ⟨some nameTwiceGathered, Modifiers.empty.setLimit 5⟩) ∧
    ∃ input, Filter.toInput ⟨some nameTwiceGathered, Modifiers.empty.setLimit 5⟩ = .ok input := by
  have hr : ∀ l ∈ fiveOfNameTwice.leaves,
      ofPeople.resolver.resolve (ColumnRef.reference l.1) = .ok l.1 := fun l hl =>
    (reads_nameTwice l hl).resolves
  have hw : fiveOfNameTwice.toInput = .ok (nameTwiceInput.push (.leaf "limit" (.int 5))) := rfl
  have hc : ofPeople.compile (nameTwiceInput.push (.leaf "limit" (.int 5))) =
      .ok ⟨some nameTwiceGathered, Modifiers.empty.setLimit 5⟩ := rfl
  have hrewritable : ∀ e, fiveOfNameTwice.normalize.expression = some e → e.Rewritable := by
    rintro e ⟨⟩
    exact ⟨fun _ _ => by decide, trivial, trivial, trivial,
      ⟨fun hk => (by cases hk), trivial, trivial, trivial⟩, trivial⟩
  exact ⟨⟨hw, hr, hc⟩, (toInput_again hw hr hc).1.mpr hrewritable⟩

/-- Two bounds of an age and two of a name, side by side. -/
def twoPairs : Expr Column :=
  .junction .and [.leaf (.plain "tt" "age") ⟨.gt, .int 1, by decide⟩,
    .leaf (.plain "tt" "age") ⟨.lt, .int 5, by decide⟩,
    .leaf (.plain "tt" "name") ⟨.ne, .string "a", by decide⟩,
    .leaf (.plain "tt" "name") ⟨.ge, .string "b", by decide⟩]

/-- What `twoPairs` is written as. -/
def twoPairsInput : FilterInput :=
  ⟨[.map "and" [.map "age" [.leaf "gt" (.int 1), .leaf "lt" (.int 5)],
    .map "name" [.leaf "ne" (.string "a"), .leaf "ge" (.string "b")]]]⟩

/-- What `twoPairs` comes back as. -/
def twoPairsGathered : Expr Column :=
  .junction .and [
    .junction .and [.leaf (.plain "tt" "age") ⟨.gt, .int 1, by decide⟩,
      .leaf (.plain "tt" "age") ⟨.lt, .int 5, by decide⟩],
    .junction .and [.leaf (.plain "tt" "name") ⟨.ne, .string "a", by decide⟩,
      .leaf (.plain "tt" "name") ⟨.ge, .string "b", by decide⟩]]

/-- Two pairs of bounds can be written and read back, and then not written again. -/
theorem toInput_once_twoPairs :
    Filter.toInput ⟨some twoPairs, .empty⟩ = .ok twoPairsInput ∧
    (∀ l ∈ twoPairs.leaves, ofPeople.resolver.resolve (ColumnRef.reference l.1) = .ok l.1) ∧
    ofPeople.compile twoPairsInput = .ok ⟨some twoPairsGathered, .empty⟩ ∧
    Filter.toInput ⟨some twoPairsGathered, .empty⟩ = .error (.keyCollision "and") := by
  refine ⟨rfl, fun l hl => ?_, rfl, rfl⟩
  change l ∈ [_, _, _, _] at hl
  simp only [List.mem_cons, List.not_mem_nil, or_false] at hl
  rcases hl with rfl | rfl | rfl | rfl <;> rfl

end Compiler
end QueryFilter
