/-
# Which models are read

A model is an object of objects, and each rule in it is the mark of any value or a value
without an object in it (`RestrictionSet.IsModel`). The shape is read first, in the order in
which the model is written, and whatever is wrong with it is found before any symbol is looked
up (`RestrictionSet.shapeOf_judges`). Then the symbols are looked up column by column, and the
first that is unknown ends the run (`RestrictionSet.addColumns_stopsAt`). By then they are in
order, so the first is the least by the bytes of its column and then by its own
(`RestrictionSet.pairwise_symbolsOf`).

Key definitions: `RestrictionSet.IsModel`, `RestrictionSet.HasRule`,
`RestrictionSet.FirstUnknown`.
Key theorems: `RestrictionSet.shapeOf_judges`, `RestrictionSet.addColumns_stopsAt`,
`RestrictionSet.ofModel_grammar`.
-/
import QueryFilter.Proofs.Lists
import QueryFilter.Proofs.Restriction.Model
import QueryFilter.Proofs.Text.Bytes
import QueryFilter.Proofs.Value.Codec

namespace QueryFilter

namespace RestrictionSet

open SortedMap (last?)

/-! ### The grammar -/

/-- A rule is the mark of any value, or a value without an object in it. -/
def IsRule (j : Json) : Prop := j = .object [(anyKey, .bool true)] ∨ j.hasObject = false

/-- A model is an object of objects of rules. -/
def IsModel (model : Json) : Prop :=
  ∃ columns, model = .object columns ∧
    ∀ c ∈ columns, ∃ entry, c.2 = .object entry ∧ ∀ r ∈ entry, IsRule r.2

/-- A model has a rule for a column under a symbol. Of entries for one column it is the last
that counts. -/
def HasRule (model : Json) (column symbol : String) : Prop :=
  ∃ columns entry, model = .object columns ∧ last? column columns = some (.object entry) ∧
    symbol ∈ entry.map Prod.fst

/-- Where every column has one entry, the rules are those in the entries. -/
theorem hasRule_iff_mem {columns : List (String × Json)} (h : (columns.map Prod.fst).Nodup)
    (column symbol : String) : HasRule (.object columns) column symbol ↔
      ∃ entry, (column, Json.object entry) ∈ columns ∧ symbol ∈ entry.map Prod.fst := by
  unfold HasRule
  simp only [Json.object.injEq, exists_and_left, exists_eq_left', SortedMap.last?_eq_some_iff_mem h]

/-- One column and symbol come before others in the order of bytes, columns first. -/
def Before (p q : String × String) : Prop :=
  Text.bytes p.1 < Text.bytes q.1 ∨ p.1 = q.1 ∧ Text.bytes p.2 < Text.bytes q.2

/-- The rule of a model under an unknown symbol that comes before all others of that kind. -/
structure FirstUnknown (model : Json) (column symbol : String) : Prop where
  hasRule : HasRule model column symbol
  unknown : ∀ kind : OperatorKind, symbol ∉ kind.spellings
  first : ∀ column' symbol', HasRule model column' symbol' →
    (∀ kind : OperatorKind, symbol' ∉ kind.spellings) →
      (column', symbol') = (column, symbol) ∨ Before (column, symbol) (column', symbol')

/-! ### The shape -/

/-- A reading that gives something if `p` holds, and finds fault with the shape if not. -/
def Judges {α : Type} (x : Except FilterError α) (p : Prop) : Prop :=
  (p ∧ ∃ a, x = .ok a) ∨ (¬ p ∧ ∃ rule, x = .error (.badModel rule))

theorem Judges.bind {α β : Type} {x : Except FilterError α} {f : α → Except FilterError β}
    {p q : Prop} (hx : Judges x p) (hf : ∀ a, Judges (f a) q) : Judges (x.bind f) (p ∧ q) := by
  rcases hx with ⟨hp, a, rfl⟩ | ⟨hp, rule, rfl⟩
  · rcases hf a with ⟨hq, hb⟩ | ⟨hq, herr⟩
    · exact Or.inl ⟨⟨hp, hq⟩, hb⟩
    · exact Or.inr ⟨fun h => hq h.2, herr⟩
  · exact Or.inr ⟨fun h => hp h.1, rule, rfl⟩

theorem ofJson_judges (j : Json) : Judges (Permitted.ofJson j) (IsRule j) := by
  unfold Permitted.ofJson
  split
  · rename_i key
    split
    · rename_i hkey
      exact Or.inl ⟨Or.inl (by rw [hkey]), _, rfl⟩
    · rename_i hkey
      refine Or.inr ⟨?_, _, rfl⟩
      rintro (h | h)
      · cases h
        exact hkey rfl
      · rw [Json.hasObject] at h
        cases h
  · rename_i members hmark
    refine Or.inr ⟨?_, _, rfl⟩
    rintro (h | h)
    · cases h
      exact hmark anyKey rfl
    · rw [Json.hasObject] at h
      cases h
  · rename_i hobject
    cases hv : Value.ofJson? j with
    | some v =>
      refine Or.inl ⟨Or.inr (Bool.eq_false_iff.mpr fun h => ?_), _, rfl⟩
      rw [Value.ofJson?_eq_none_iff.mpr h] at hv
      cases hv
    | none =>
      refine Or.inr ⟨?_, _, rfl⟩
      rintro (h | h)
      · exact hobject _ h
      · rw [Value.ofJson?_eq_none_iff.mp hv] at h
        cases h

theorem rulesOf_judges (entry : List (String × Json)) :
    Judges (rulesOf entry) (∀ r ∈ entry, IsRule r.2) := by
  induction entry with
  | nil => exact Or.inl ⟨fun r hr => absurd hr List.not_mem_nil, _, rfl⟩
  | cons r rest ih =>
    rw [rulesOf, List.forall_mem_cons, ← and_true (∀ r ∈ rest, IsRule r.2)]
    exact (ofJson_judges r.2).bind fun rule => ih.bind fun rules => Or.inl ⟨trivial, _, rfl⟩

theorem columnsOf_judges (columns : List (String × Json)) :
    Judges (columnsOf columns)
      (∀ c ∈ columns, ∃ entry, c.2 = .object entry ∧ ∀ r ∈ entry, IsRule r.2) := by
  induction columns with
  | nil => exact Or.inl ⟨fun c hc => absurd hc List.not_mem_nil, _, rfl⟩
  | cons c rest ih =>
    rw [List.forall_mem_cons]
    obtain ⟨column, j⟩ := c
    cases j with
    | object entry =>
      rw [columnsOf, ← and_true (∀ c ∈ rest, _)]
      simp only [Json.object.injEq, exists_eq_left']
      exact (rulesOf_judges entry).bind fun rules =>
        ih.bind fun columns => Or.inl ⟨trivial, _, rfl⟩
    | _ =>
      refine Or.inr ⟨?_, none, rfl⟩
      rintro ⟨⟨entry, hentry, -⟩, -⟩
      cases hentry

/-- **The shape decides first.** The shape of a model is read, and of nothing else. -/
theorem shapeOf_judges (model : Json) : Judges (shapeOf model) (IsModel model) := by
  cases model with
  | object columns =>
    have h := columnsOf_judges columns
    unfold IsModel
    simp only [Json.object.injEq, exists_eq_left']
    exact h
  | _ =>
    refine Or.inr ⟨?_, none, rfl⟩
    rintro ⟨columns, hcolumns, -⟩
    cases hcolumns

/-! ### The symbols -/

/-- A run that goes through where no symbol is unknown, and that ends at an unknown one. -/
def StopsAt {α : Type} (x : Except FilterError α) : Option String → Prop
  | none => ∃ a, x = .ok a
  | some symbol => x = .error (.unknownOperator symbol)

theorem StopsAt.bind {α β : Type} {x : Except FilterError α} {f : α → Except FilterError β}
    {s t : Option String} (hx : StopsAt x s) (hf : ∀ a, StopsAt (f a) t) :
    StopsAt (x.bind f) (s.or t) := by
  cases s with
  | none =>
    obtain ⟨a, rfl⟩ := hx
    exact hf a
  | some symbol =>
    rw [StopsAt] at hx
    rw [hx]
    rfl

/-- The columns with the symbols of their rules, in the order in which they are looked up. -/
def symbolsOf (columns : List (String × List (String × Permitted))) : List (String × String) :=
  columns.flatMap fun c => (SortedMap.ofList c.2).entries.map fun r => (c.1, r.1)

theorem addRules_stopsAt : ∀ (rules : List (String × Permitted)) (r : ColumnRestriction),
    StopsAt (addRules r rules) ((rules.map Prod.fst).find? fun s => !OperatorKind.isSymbol s)
  | [], r => ⟨r, rfl⟩
  | (symbol, rule) :: rest, r => by
    rw [addRules, List.map_cons, List.find?_cons, OperatorKind.isSymbol]
    cases OperatorKind.ofSymbol? symbol with
    | none => rfl
    | some kind => exact addRules_stopsAt rest (r.withRule kind rule)

/-- The columns are gone through up to the first unknown symbol. -/
theorem addColumns_stopsAt (policy : Policy) :
    ∀ (columns : List (String × List (String × Permitted))) (set : RestrictionSet),
      StopsAt (addColumns policy set columns)
        (((symbolsOf columns).find? fun p => !OperatorKind.isSymbol p.2).map Prod.snd)
  | [], set => ⟨set, rfl⟩
  | (column, rules) :: rest, set => by
    have hrules := addRules_stopsAt (SortedMap.ofList rules).entries (.new column policy)
    -- Under a column the symbol alone decides which rule is the first unknown one.
    have hcolumn : ((((SortedMap.ofList rules).entries.map fun r => (column, r.1)).find?
        fun p => !OperatorKind.isSymbol p.2).map Prod.snd) =
        ((SortedMap.ofList rules).entries.map Prod.fst).find?
          fun s => !OperatorKind.isSymbol s := by
      rw [List.find?_map, List.find?_map, Option.map_map]
      rfl
    rw [addColumns, symbolsOf, List.flatMap_cons, List.find?_append, Option.map_or, hcolumn]
    exact hrules.bind fun r => addColumns_stopsAt policy rest (set.insert r)

/-! ### Their order -/

/-- Columns in order have their symbols in order. -/
theorem pairwise_symbolsOf {columns : List (String × List (String × Permitted))}
    (h : (columns.map Prod.fst).Pairwise fun a b => compare a b = .lt) :
    (symbolsOf columns).Pairwise Before := by
  rw [symbolsOf, List.pairwise_flatMap]
  constructor
  · intro c _
    have hsorted := SortedMap.sorted_ofList c.2
    rw [SortedMap.Sorted, List.pairwise_map] at hsorted
    exact List.pairwise_map.mpr <|
      hsorted.imp fun hlt => Or.inr ⟨rfl, Text.compare_eq_lt_iff.mp hlt⟩
  · rw [List.pairwise_map] at h
    refine h.imp fun {c d} hlt p hp q hq => Or.inl ?_
    obtain ⟨_, _, rfl⟩ := List.mem_map.mp hp
    obtain ⟨_, _, rfl⟩ := List.mem_map.mp hq
    exact Text.compare_eq_lt_iff.mp hlt

theorem keys_rulesOf : ∀ {entry : List (String × Json)} {rules : List (String × Permitted)},
    List.Forall₂ (fun m r => m.1 = r.1 ∧ Permitted.ofJson m.2 = .ok r.2) entry rules →
    entry.map Prod.fst = rules.map Prod.fst
  | [], [], .nil => rfl
  | m :: entry, r :: rules, .cons hr hrest => by
    rw [List.map_cons, List.map_cons, hr.1, keys_rulesOf hrest]

theorem mem_symbolsOf_iff {columns : List (String × List (String × Permitted))}
    {column symbol : String} :
    (column, symbol) ∈ symbolsOf (SortedMap.ofList columns).entries ↔
      ∃ rules, last? column columns = some rules ∧ symbol ∈ rules.map Prod.fst := by
  rw [symbolsOf, List.mem_flatMap]
  constructor
  · rintro ⟨⟨column', rules⟩, hc, hsymbol⟩
    obtain ⟨r, hr, heq⟩ := List.mem_map.mp hsymbol
    cases heq
    have hkey : r.1 ∈ (SortedMap.ofList rules).entries.map Prod.fst := List.mem_map_of_mem hr
    exact ⟨rules, SortedMap.mem_entries_ofList_iff.mp hc, SortedMap.mem_keys_ofList_iff.mp hkey⟩
  · rintro ⟨rules, hc, hsymbol⟩
    obtain ⟨r, hr, rfl⟩ := List.mem_map.mp (SortedMap.mem_keys_ofList_iff.mpr hsymbol)
    exact ⟨(column, rules), SortedMap.mem_entries_ofList_iff.mpr hc,
      List.mem_map.mpr ⟨r, hr, rfl⟩⟩

/-- The symbols looked up are those that the model has rules under. -/
theorem hasRule_iff {model : Json} {columns : List (String × List (String × Permitted))}
    (h : shapeOf model = .ok columns) (column symbol : String) :
    HasRule model column symbol ↔
      (column, symbol) ∈ symbolsOf (SortedMap.ofList columns).entries := by
  rw [mem_symbolsOf_iff]
  cases model with
  | object members =>
    have hrel := SortedMap.lastWhere_rel (r := fun j rules => ∃ entry, j = Json.object entry ∧
      rulesOf entry = .ok rules) (fun k => decide (k = column)) (columnsOf_eq_ok h)
    rw [← last?, ← last?] at hrel
    unfold HasRule
    simp only [Json.object.injEq, exists_and_left, exists_eq_left']
    generalize last? column members = j at hrel
    generalize last? column columns = rules at hrel
    cases hrel with
    | none => simp only [reduceCtorEq, false_and, exists_false]
    | some hentry =>
      obtain ⟨entry, rfl, hrules⟩ := hentry
      simp only [Option.some.injEq, Json.object.injEq, exists_eq_left']
      rw [keys_rulesOf (rulesOf_eq_ok hrules)]
  | _ => cases h

/-! ### What is read -/

/-- A model is ill-formed, or it is read, or the first unknown symbol in it is named. -/
theorem ofModel_cases (policy : Policy) (model : Json) :
    (¬ IsModel model ∧ ∃ rule, ofModel policy model = .error (.badModel rule)) ∨
    (IsModel model ∧
      ((∀ column symbol, HasRule model column symbol →
          ∃ kind : OperatorKind, symbol ∈ kind.spellings) ∧ (∃ set, ofModel policy model = .ok set) ∨
        ∃ column symbol, FirstUnknown model column symbol ∧
          ofModel policy model = .error (.unknownOperator symbol))) := by
  rw [ofModel]
  rcases shapeOf_judges model with ⟨hmodel, columns, hshape⟩ | ⟨hmodel, rule, hshape⟩
  · -- What is left of the run is a search for the first unknown symbol in a list in order.
    refine Or.inr ⟨hmodel, ?_⟩
    have hstop := addColumns_stopsAt policy (SortedMap.ofList columns).entries empty
    have hsorted := pairwise_symbolsOf (SortedMap.sorted_ofList columns)
    simp only [hasRule_iff hshape, hshape]
    cases hfind : (symbolsOf (SortedMap.ofList columns).entries).find?
        fun p => !OperatorKind.isSymbol p.2 with
    | none =>
      rw [hfind] at hstop
      refine Or.inl ⟨fun column symbol hrule => OperatorKind.isSymbol_iff.mp ?_, hstop⟩
      simpa using List.find?_eq_none.mp hfind _ hrule
    | some p =>
      rw [hfind] at hstop
      have hunknown := List.find?_some hfind
      refine Or.inr ⟨p.1, p.2, ⟨(hasRule_iff hshape _ _).mpr (List.mem_of_find?_eq_some hfind), ?_,
        fun column symbol hrule hother => ?_⟩, hstop⟩
      · exact OperatorKind.isSymbol_eq_false_iff.mp (by simpa using hunknown)
      · refine List.eq_or_rel_of_find?_eq_some hsorted hfind _ ((hasRule_iff hshape _ _).mp hrule) ?_
        simpa using OperatorKind.isSymbol_eq_false_iff.mpr hother
  · rw [hshape]
    exact Or.inl ⟨hmodel, rule, rfl⟩

/-- **The grammar of models.** A model is read exactly if its shape is right and every symbol
in it is known. It is ill-formed exactly if its shape is wrong, whatever its symbols. If the
shape is right and a symbol is unknown, the error names the first that is. -/
theorem ofModel_grammar (policy : Policy) (model : Json) :
    ((∃ set, ofModel policy model = .ok set) ↔
      IsModel model ∧ ∀ column symbol, HasRule model column symbol →
        ∃ kind : OperatorKind, symbol ∈ kind.spellings) ∧
    ((∃ err, ofModel policy model = .error err ∧ err.kind = .badFormat) ↔ ¬ IsModel model) ∧
    (IsModel model →
      (∃ column symbol, HasRule model column symbol ∧
        ∀ kind : OperatorKind, symbol ∉ kind.spellings) →
      ∃ column symbol, FirstUnknown model column symbol ∧
        ofModel policy model = .error (.unknownOperator symbol)) := by
  rcases ofModel_cases policy model with
    ⟨hmodel, rule, herr⟩ | ⟨hmodel, ⟨hknown, set, hset⟩ | ⟨column, symbol, hfirst, herr⟩⟩
  · rw [herr]
    exact ⟨iff_of_false (fun ⟨_, h⟩ => (by cases h)) fun h => hmodel h.1,
      iff_of_true ⟨_, rfl, rfl⟩ hmodel, fun h => absurd h hmodel⟩
  · rw [hset]
    refine ⟨iff_of_true ⟨set, rfl⟩ ⟨hmodel, hknown⟩,
      iff_of_false (fun ⟨_, h, _⟩ => (by cases h)) (not_not_intro hmodel), ?_⟩
    rintro - ⟨column, symbol, hrule, hunknown⟩
    obtain ⟨kind, hkind⟩ := hknown column symbol hrule
    exact absurd hkind (hunknown kind)
  · rw [herr]
    refine ⟨iff_of_false (fun ⟨_, h⟩ => (by cases h)) fun ⟨_, hknown⟩ => ?_,
      iff_of_false ?_ (not_not_intro hmodel), fun _ _ => ⟨column, symbol, hfirst, rfl⟩⟩
    · obtain ⟨kind, hkind⟩ := hknown column symbol hfirst.hasRule
      exact hfirst.unknown kind hkind
    · rintro ⟨err, h, hbad⟩
      cases h
      cases hbad

/-- Two symbols that are unknown, the later one first, beside one in the older spelling. -/
def misspelt : Json :=
  .object [("name", .object [("like", .string "O%"), ("in_", .array [.string "Oslo"])]),
    ("age", .object [("gt", .object [(anyKey, .bool true)]), ("between", .array [.null])])]

theorem ofModel_grammar_misspelt : IsModel misspelt ∧
    ∃ column, FirstUnknown misspelt column "between" := by
  have hmodel : IsModel misspelt := by
    refine ⟨_, rfl, List.forall_mem_cons.mpr ⟨⟨_, rfl, ?_⟩, List.forall_mem_singleton.mpr ⟨_, rfl, ?_⟩⟩⟩
    · exact List.forall_mem_cons.mpr ⟨Or.inr rfl, List.forall_mem_singleton.mpr (Or.inr rfl)⟩
    · exact List.forall_mem_cons.mpr ⟨Or.inl rfl, List.forall_mem_singleton.mpr (Or.inr rfl)⟩
  have hunknown : HasRule misspelt "name" "like" ∧
      ∀ kind : OperatorKind, "like" ∉ kind.spellings :=
    ⟨(hasRule_iff_mem (by decide) _ _).mpr ⟨_, List.mem_cons_self, by decide⟩,
      fun kind => by cases kind <;> decide⟩
  obtain ⟨column, symbol, hfirst, herr⟩ :=
    (ofModel_grammar .allow misspelt).2.2 hmodel ⟨"name", "like", hunknown⟩
  cases herr
  exact ⟨hmodel, column, hfirst⟩

end RestrictionSet
end QueryFilter
