/-
# What a restriction model allows

A model has an entry for a column or none, and an entry has rules under the
symbols of operators. A column without an entry is free. With an entry, the rule
for the operator decides: under `allow` what it covers is let through, and under
`deny` what it does not cover (`RestrictionSet.ofModel_allows`).

Two comparisons have an older spelling, and a restriction has one rule for a
comparison. So where an entry has rules under both spellings, only one of them
counts, that of the symbol that is later in the order of texts
(`RestrictionSet.countingRule?`), and the other is lost
(`RestrictionSet.ofModel_overruled`).

Key definitions: `RestrictionSet.RuleCovers`, `RestrictionSet.EntryCovers`,
`RestrictionSet.countingRule?`.
Key theorems: `RestrictionSet.addRules_eq_ok`, `RestrictionSet.addColumns_eq_ok`,
`RestrictionSet.ofModel_allows`.
-/
import QueryFilter.Proofs.Keyword
import QueryFilter.Proofs.SortedMap
import QueryFilter.Restriction.Model

namespace QueryFilter

namespace RestrictionSet

open SortedMap (last? lastWhere)

/-! ### What a model says -/

/-- Whether a rule as it is written covers a value. The mark of any value covers
every value, and a literal covers what equals it. -/
def RuleCovers (rule : Json) (value : Value) : Prop :=
  rule = .object [(anyKey, .bool true)] ∨
    ∃ literal, Value.ofJson? rule = some literal ∧ (literal == value) = true

/-- Whether a rule of an entry is for the comparison of an operator and covers its value. -/
def EntryCovers (entry : List (String × Json)) (op : Operator) : Prop :=
  ∃ symbol rule, (symbol, rule) ∈ entry ∧ OperatorKind.ofSymbol? symbol = some op.kind ∧
    RuleCovers rule op.value

/-- The rule of an entry that counts for a comparison. -/
def countingRule? (entry : List (String × Json)) (kind : OperatorKind) : Option Json :=
  kind.spellings.findSome? fun symbol => last? symbol entry

/-- Whether the rule that counts covers an operator. -/
def EntryCounts (entry : List (String × Json)) (op : Operator) : Prop :=
  ∃ rule, countingRule? entry op.kind = some rule ∧ RuleCovers rule op.value

theorem covers_iff {j : Json} {rule : Permitted} (h : Permitted.ofJson j = .ok rule) (v : Value) :
    rule.covers v = true ↔ RuleCovers j v := by
  unfold Permitted.ofJson at h
  split at h
  · rename_i key
    split at h
    · rename_i hk
      cases h
      simp [Permitted.covers, RuleCovers, hk]
    · cases h
  · cases h
  · rename_i hobj
    split at h
    · rename_i literal hv
      cases h
      have hne : j ≠ .object [(anyKey, .bool true)] := fun hj => hobj _ hj
      simp [Permitted.covers, RuleCovers, hv, hne]
    · cases h

/-! ### The shape of a model -/

theorem rulesOf_eq_ok : ∀ {members : List (String × Json)} {rules : List (String × Permitted)},
    rulesOf members = .ok rules →
    List.Forall₂ (fun m r => m.1 = r.1 ∧ Permitted.ofJson m.2 = .ok r.2) members rules
  | [], rules, h => by
    cases h
    exact .nil
  | (symbol, j) :: rest, rules, h => by
    rw [rulesOf] at h
    obtain ⟨rule, hrule, h⟩ := Except.bind_eq_ok.mp h
    obtain ⟨more, hmore, h⟩ := Except.bind_eq_ok.mp h
    cases h
    exact .cons ⟨rfl, hrule⟩ (rulesOf_eq_ok hmore)

theorem columnsOf_eq_ok : ∀ {members : List (String × Json)}
    {columns : List (String × List (String × Permitted))}, columnsOf members = .ok columns →
    List.Forall₂ (fun m c => m.1 = c.1 ∧ ∃ entry, m.2 = .object entry ∧ rulesOf entry = .ok c.2)
      members columns
  | [], columns, h => by
    cases h
    exact .nil
  | (column, j) :: rest, columns, h => by
    cases j with
    | object entry =>
      rw [columnsOf] at h
      obtain ⟨rules, hrules, h⟩ := Except.bind_eq_ok.mp h
      obtain ⟨more, hmore, h⟩ := Except.bind_eq_ok.mp h
      cases h
      exact .cons ⟨rfl, entry, rfl, hrules⟩ (columnsOf_eq_ok hmore)
    | _ => cases h

/-! ### Rules and columns in turn -/

/-- Rules are added one by one, so the last for a comparison is the one kept. -/
theorem addRules_eq_ok : ∀ {rules : List (String × Permitted)} {r r' : ColumnRestriction},
    addRules r rules = .ok r' → r'.column = r.column ∧ r'.policy = r.policy ∧
      ∀ kind, r'.rules.get? kind =
        (lastWhere (fun s => OperatorKind.ofSymbol? s = some kind) rules).or (r.rules.get? kind)
  | [], r, r', h => by
    cases h
    exact ⟨rfl, rfl, fun _ => rfl⟩
  | (symbol, rule) :: rest, r, r', h => by
    rw [addRules] at h
    cases hs : OperatorKind.ofSymbol? symbol with
    | none =>
      rw [hs] at h
      cases h
    | some kind' =>
      rw [hs] at h
      obtain ⟨hcolumn, hpolicy, hget⟩ := addRules_eq_ok h
      refine ⟨hcolumn, hpolicy, fun kind => ?_⟩
      rw [hget kind, lastWhere, ColumnRestriction.withRule, SortedMap.get?_insert_ite, hs]
      by_cases hk : kind = kind'
      · simp [hk]
      · simp [hk, Ne.symm hk]

/-- A column has the restriction of its last entry, if it has one. -/
theorem addColumns_eq_ok {policy : Policy} (column : String) :
    ∀ {columns : List (String × List (String × Permitted))} {set set' : RestrictionSet},
      addColumns policy set columns = .ok set' →
      match last? column columns with
      | none => set'.columns.get? column = set.columns.get? column
      | some rules => ∃ r, addRules (.new column policy) (SortedMap.ofList rules).entries = .ok r ∧
          set'.columns.get? column = some r
  | [], set, set', h => by
    cases h
    rfl
  | (column', rules) :: rest, set, set', h => by
    rw [addColumns] at h
    obtain ⟨r, hr, h⟩ := Except.bind_eq_ok.mp h
    have ih := addColumns_eq_ok column h
    have hcolumn : r.column = column' := (addRules_eq_ok hr).1
    rw [insert, SortedMap.get?_insert_ite, hcolumn] at ih
    rw [last?] at ih ⊢
    rw [lastWhere]
    cases hl : lastWhere (fun k => decide (k = column)) rest with
    | some rules' =>
      rw [hl] at ih
      exact ih
    | none =>
      rw [hl] at ih
      by_cases hk : column' = column
      · subst hk
        simp only [decide_true, ↓reduceIte, Option.none_or]
        exact ⟨r, hr, by simpa using ih⟩
      · simpa [hk, Ne.symm hk] using ih

/-! ### The rule that counts -/

/-- In the order of their symbols, the last rule for a comparison is the one that counts. -/
theorem lastWhere_spelled (rules : List (String × Permitted)) (kind : OperatorKind) :
    lastWhere (fun s => OperatorKind.ofSymbol? s = some kind) (SortedMap.ofList rules).entries =
      kind.spellings.findSome? fun s => last? s rules := by
  have hspelled : kind.spellings.Pairwise fun a b => compare b a = .lt := by
    cases kind <;> decide
  simp only [OperatorKind.ofSymbol?_eq_some_iff]
  rw [SortedMap.lastWhere_mem (SortedMap.sorted_ofList rules) hspelled]
  simp only [SortedMap.last?_entries]

/-- What is read of an entry lists an operator if the rule that counts covers it. -/
theorem lists_iff {entry : List (String × Json)} {rules : List (String × Permitted)}
    {column : String} {policy : Policy} {r : ColumnRestriction} (hrules : rulesOf entry = .ok rules)
    (hr : addRules (.new column policy) (SortedMap.ofList rules).entries = .ok r) (op : Operator) :
    r.lists op = true ↔ EntryCounts entry op := by
  have hget : r.rules.get? op.kind = op.kind.spellings.findSome? fun s => last? s rules := by
    rw [(addRules_eq_ok hr).2.2 op.kind, lastWhere_spelled]
    exact Option.or_none
  have hrel : ∀ symbols : List String,
      Option.Rel (fun j rule => Permitted.ofJson j = .ok rule)
        (symbols.findSome? fun s => last? s entry) (symbols.findSome? fun s => last? s rules) := by
    intro symbols
    induction symbols with
    | nil => exact .none
    | cons symbol rest ih =>
      rw [List.findSome?_cons, List.findSome?_cons]
      have hsymbol := SortedMap.lastWhere_rel (r := fun j rule => Permitted.ofJson j = .ok rule)
        (fun s => decide (s = symbol)) (rulesOf_eq_ok hrules)
      rw [← last?, ← last?] at hsymbol
      generalize last? symbol entry = x at hsymbol
      generalize last? symbol rules = y at hsymbol
      cases hsymbol with
      | some h => exact .some h
      | none => exact ih
  have hcount := hrel op.kind.spellings
  rw [ColumnRestriction.lists, hget, EntryCounts, countingRule?]
  generalize (op.kind.spellings.findSome? fun s => last? s entry) = x at hcount ⊢
  generalize (op.kind.spellings.findSome? fun s => last? s rules) = y at hcount ⊢
  cases hcount with
  | none => simp
  | some h => simpa using covers_iff h op.value

/-- The rule that counts is a rule of the entry for the comparison. -/
theorem mem_of_countingRule? {entry : List (String × Json)} {kind : OperatorKind} {rule : Json}
    (h : countingRule? entry kind = some rule) :
    ∃ symbol, OperatorKind.ofSymbol? symbol = some kind ∧ (symbol, rule) ∈ entry := by
  obtain ⟨symbol, hsymbol, hlast⟩ := List.exists_of_findSome?_eq_some h
  obtain ⟨k, hk, heq⟩ := SortedMap.lastWhere_eq_some hlast
  rw [of_decide_eq_true heq] at hk
  exact ⟨symbol, OperatorKind.ofSymbol?_eq_some_iff.mpr hsymbol, hk⟩

/-- If an entry has one rule for a comparison, that is the rule that counts. -/
theorem entryCounts_iff {entry : List (String × Json)} {op : Operator}
    (hone : ∀ a ∈ entry, ∀ b ∈ entry, OperatorKind.ofSymbol? a.1 = some op.kind →
      OperatorKind.ofSymbol? b.1 = some op.kind → a = b) :
    EntryCounts entry op ↔ EntryCovers entry op := by
  constructor
  · rintro ⟨rule, hrule, hcovers⟩
    obtain ⟨symbol, hsymbol, hmem⟩ := mem_of_countingRule? hrule
    exact ⟨symbol, rule, hmem, hsymbol, hcovers⟩
  · rintro ⟨symbol, rule, hmem, hsymbol, hcovers⟩
    have hspelled := OperatorKind.ofSymbol?_eq_some_iff.mp hsymbol
    have hsome : (countingRule? entry op.kind).isSome = true :=
      List.findSome?_isSome_iff.mpr ⟨symbol, hspelled,
        SortedMap.isSome_lastWhere (e := (symbol, rule)) (by simp) hmem⟩
    obtain ⟨rule', hrule'⟩ := Option.isSome_iff_exists.mp hsome
    obtain ⟨symbol', hsymbol', hmem'⟩ := mem_of_countingRule? hrule'
    cases hone _ hmem _ hmem' hsymbol hsymbol'
    exact ⟨rule, hrule', hcovers⟩

/-! ### What is allowed -/

/-- **What a model allows.** A model that is read is an object. A column without
an entry in it is free. An entry is an object, and the rule that counts for the
operator decides: under `allow` it lets through what it covers, under `deny` what
it does not cover. If the entry has one rule for the comparison, that is to say
whether any of its rules covers the operator. -/
theorem ofModel_allows {policy : Policy} {model : Json} {set : RestrictionSet}
    (h : ofModel policy model = .ok set) (column : String) (op : Operator) :
    ∃ columns, model = .object columns ∧
      match last? column columns with
      | none => set.isAllowed column op = true
      | some j => ∃ entry, j = .object entry ∧
        (policy = .allow → (set.isAllowed column op = true ↔ EntryCounts entry op)) ∧
        (policy = .deny → (set.isAllowed column op = true ↔ ¬ EntryCounts entry op)) ∧
        ((∀ a ∈ entry, ∀ b ∈ entry, OperatorKind.ofSymbol? a.1 = some op.kind →
            OperatorKind.ofSymbol? b.1 = some op.kind → a = b) →
          (EntryCounts entry op ↔ EntryCovers entry op)) := by
  obtain ⟨columns, hshape, hadd⟩ := Except.bind_eq_ok.mp h
  cases model with
  | object members =>
    refine ⟨members, rfl, ?_⟩
    have hrel := SortedMap.lastWhere_rel (r := fun j rules => ∃ entry, j = Json.object entry ∧
      rulesOf entry = .ok rules) (fun k => decide (k = column)) (columnsOf_eq_ok hshape)
    have hcolumn := addColumns_eq_ok column hadd
    rw [SortedMap.last?_entries] at hcolumn
    rw [← last?, ← last?] at hrel
    generalize last? column members = j at hrel
    generalize last? column columns = rules at hrel hcolumn
    cases hrel with
    | none =>
      dsimp only at hcolumn
      rw [isAllowed, hcolumn]
      rfl
    | some hentry =>
      obtain ⟨entry, rfl, hrules⟩ := hentry
      obtain ⟨r, hr, hget⟩ := hcolumn
      have hlists := lists_iff hrules hr op
      have hpolicy : r.policy = policy := (addRules_eq_ok hr).2.1
      have hallowed : set.isAllowed column op = r.isAllowed op := by rw [isAllowed, hget]
      refine ⟨entry, rfl, ?_, ?_, entryCounts_iff⟩
      · rintro rfl
        rw [hallowed, ColumnRestriction.isAllowed, hpolicy, ← hlists]
      · rintro rfl
        rw [hallowed, ColumnRestriction.isAllowed, hpolicy, ← hlists]
        simp
  | _ => cases hshape

/-- Ages may be 20 or above something, and cities only in a list that is written
with the older spelling. -/
def agesAndCities : Json :=
  .object [("age", .object [("eq", .number (.int 20)), ("gt", .object [(anyKey, .bool true)])]),
    ("city", .object [("in_", .array [.string "Oslo", .null])])]

theorem ofModel_allows_agesAndCities : ∃ set, ofModel .allow agesAndCities = .ok set ∧
    set.isAllowed "city" ⟨.isIn, .array [.string "Oslo", .null], by decide⟩ = true := by
  obtain ⟨set, hset⟩ : ∃ set, ofModel .allow agesAndCities = .ok set := ⟨_, rfl⟩
  refine ⟨set, hset, ?_⟩
  obtain ⟨columns, hcolumns, h⟩ := ofModel_allows hset "city"
    ⟨.isIn, .array [.string "Oslo", .null], by decide⟩
  cases hcolumns
  obtain ⟨entry, hentry, hallow, -, hone⟩ := h
  cases hentry
  refine (hallow rfl).mpr ((hone fun a ha b hb _ _ => ?_).mpr ?_)
  · rw [List.mem_singleton.mp ha, List.mem_singleton.mp hb]
  · exact ⟨"in_", _, List.mem_singleton_self _, rfl, Or.inr ⟨.array [.string "Oslo", .null], rfl, rfl⟩⟩

/-- Rules for one comparison under both of its spellings: any list of cities,
and the list of Oslo. -/
def citiesTwice : List (String × Json) :=
  [("in", .object [(anyKey, .bool true)]), ("in_", .array [.string "Oslo"])]

/-- **A rule under the spelling that does not count is lost.** The rule for any
list of cities covers the list of Bergen. Still that list is let through where the
rules forbid, and refused where they permit. -/
theorem ofModel_overruled :
    EntryCovers citiesTwice ⟨.isIn, .array [.string "Bergen"], by decide⟩ ∧
      (∃ set, ofModel .deny (.object [("city", .object citiesTwice)]) = .ok set ∧
        set.isAllowed "city" ⟨.isIn, .array [.string "Bergen"], by decide⟩ = true) ∧
      ∃ set, ofModel .allow (.object [("city", .object citiesTwice)]) = .ok set ∧
        set.isAllowed "city" ⟨.isIn, .array [.string "Bergen"], by decide⟩ = false :=
  ⟨⟨"in", _, List.mem_cons_self, rfl, Or.inl rfl⟩, ⟨_, rfl, rfl⟩, ⟨_, rfl, rfl⟩⟩

end RestrictionSet
end QueryFilter
