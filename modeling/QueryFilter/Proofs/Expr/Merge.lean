/-
# What an expression is written as

An expression that can be written is written under its key (`Expr.key`), and a
junction's members are the entries of its children put together by their keys
(`Expr.merged`): every key once, at the place of the first child that has it,
and under it all that the children of that key say, in order. Two children of
one key are leaves of one column under an `and`
(`Expr.entry_junction_eq_ok`).

Key definitions: `Expr.key`, `Expr.body`, `Expr.merged`, `Expr.Mergeable`.
Key theorems: `Expr.entry_eq_ok`, `Expr.entry_junction_eq_ok`.
-/
import QueryFilter.Proofs.Expr.Leaves
import QueryFilter.Proofs.Lists

namespace QueryFilter
namespace Expr

/-! ### Entries put together by their keys -/

/-- The keys of entries, each once, in the order of their first appearance. -/
def keysOf (es : List Entry) : List String := (es.map Prod.fst).eraseDups

/-- All that stands under a key. -/
def under (key : String) (es : List Entry) : List (String × Json) :=
  (es.filter fun e => e.1 = key).flatMap Prod.snd

/-- The entries put together by their keys. -/
def merged (es : List Entry) : List Entry := (keysOf es).map fun key => (key, under key es)

/-- Whether a junction takes several entries of one key. -/
def Mergeable (kind : Junction) (key : String) : Prop :=
  kind = .and ∧ Junction.isName key = false

/-- The entries with what stands in one more entry of a key that is there. -/
def addUnder (e : Entry) (es : List Entry) : List Entry :=
  es.map fun x => if x.1 = e.1 then (x.1, x.2 ++ e.2) else x

theorem mem_keysOf {key : String} {es : List Entry} : key ∈ keysOf es ↔ key ∈ es.map Prod.fst :=
  List.mem_eraseDups

theorem map_fst_merged (es : List Entry) : (merged es).map Prod.fst = keysOf es := by
  simp [merged, Function.comp_def]

theorem nodup_keysOf (es : List Entry) : (keysOf es).Nodup := List.nodup_eraseDups _

theorem keysOf_append (es : List Entry) (e : Entry) :
    keysOf (es ++ [e]) = if e.1 ∈ keysOf es then keysOf es else keysOf es ++ [e.1] := by
  rw [keysOf, List.map_append, List.eraseDups_append, ← keysOf]
  by_cases h : e.1 ∈ es.map Prod.fst
  · rw [if_pos (mem_keysOf.mpr h)]
    simp only [List.removeAll, List.map_cons, List.map_nil, List.filter_cons, List.elem_eq_mem, h]
    simp
  · rw [if_neg fun hk => h (mem_keysOf.mp hk)]
    simp only [List.removeAll, List.map_cons, List.map_nil, List.filter_cons, List.elem_eq_mem, h]
    simp [List.eraseDups_cons]

theorem under_append (key : String) (es : List Entry) (e : Entry) :
    under key (es ++ [e]) = under key es ++ if e.1 = key then e.2 else [] := by
  unfold under
  rw [List.filter_append, List.flatMap_append]
  by_cases h : e.1 = key <;> simp [h]

theorem filter_of_notMem {key : String} {es : List Entry} (h : key ∉ keysOf es) :
    es.filter (fun e => e.1 = key) = [] := by
  rw [List.filter_eq_nil_iff]
  intro e he hk
  exact h (mem_keysOf.mpr (List.mem_map.mpr ⟨e, he, by simpa using hk⟩))

theorem under_of_notMem {key : String} {es : List Entry} (h : key ∉ keysOf es) :
    under key es = [] := by
  rw [under, filter_of_notMem h]
  rfl

/-- One more entry goes to its key, or to the end. -/
theorem merged_append (es : List Entry) (e : Entry) :
    merged (es ++ [e]) =
      if e.1 ∈ keysOf es then addUnder e (merged es) else merged es ++ [e] := by
  have hother : ∀ key, key ≠ e.1 → under key (es ++ [e]) = under key es := fun key hk => by
    rw [under_append, if_neg (Ne.symm hk), List.append_nil]
  unfold merged addUnder
  rw [keysOf_append]
  by_cases h : e.1 ∈ keysOf es
  · rw [if_pos h, if_pos h, List.map_map]
    refine List.map_congr_left fun key _ => ?_
    by_cases hk : key = e.1
    · simp [hk, under_append]
    · simp [hk, hother key hk]
  · rw [if_neg h, if_neg h, List.map_append]
    have hkeys : ∀ key ∈ keysOf es, (key, under key (es ++ [e])) = (key, under key es) := by
      intro key hm
      rw [hother key fun hk => h (hk ▸ hm)]
    rw [List.map_congr_left hkeys]
    simp [under_append, under_of_notMem h]

/-! ### Merging -/

theorem mergeOperators_eq_ok {key : String} : ∀ {ms done out : List (String × Json)},
    mergeOperators key done ms = .ok out → out = done ++ ms
  | [], done, out, h => by
    cases h
    simp
  | (symbol, literal) :: rest, done, out, h => by
    rw [mergeOperators] at h
    split at h
    · cases h
    · rw [mergeOperators_eq_ok h, List.append_assoc]
      rfl

theorem addUnder_of_notMem {e : Entry} {es : List Entry} (h : e.1 ∉ es.map Prod.fst) :
    addUnder e es = es := by
  have hid : ∀ x ∈ es, (if x.1 = e.1 then (x.1, x.2 ++ e.2) else x) = x := fun x hx =>
    if_neg fun (he : x.1 = e.1) => h (he ▸ List.mem_map_of_mem hx)
  rw [addUnder, List.map_congr_left hid, List.map_id']

/-- Merging puts a new key at the end; a key that is there is only taken where
the junction takes several of it. -/
theorem mergeEntry_eq_ok {kind : Junction} {e : Entry} : ∀ {es out : List Entry},
    (es.map Prod.fst).Nodup → mergeEntry kind e es = .ok out →
    (e.1 ∉ es.map Prod.fst ∧ out = es ++ [e]) ∨
      (e.1 ∈ es.map Prod.fst ∧ Mergeable kind e.1 ∧ out = addUnder e es)
  | [], out, _, h => by
    cases h
    exact Or.inl ⟨by simp, rfl⟩
  | (key, members) :: rest, out, hnd, h => by
    rw [List.map_cons, List.nodup_cons] at hnd
    rw [mergeEntry] at h
    split at h
    · rename_i hk
      split at h
      · rename_i hm
        obtain ⟨out', hops, rfl⟩ := Except.map_eq_ok.mp h
        refine Or.inr ⟨by simp [← hk], hk ▸ hm, ?_⟩
        have hrest : addUnder e rest = rest := addUnder_of_notMem (hk ▸ hnd.1)
        rw [mergeOperators_eq_ok hops, addUnder, List.map_cons, if_pos hk, ← addUnder, hrest]
      · cases h
    · rename_i hk
      obtain ⟨out', hrec, rfl⟩ := Except.map_eq_ok.mp h
      have hkey : ¬ e.1 = key := fun he => hk he.symm
      rcases mergeEntry_eq_ok hnd.2 hrec with ⟨hn, rfl⟩ | ⟨hm, hmerge, rfl⟩
      · have hnew : e.1 ∉ ((key, members) :: rest).map Prod.fst := by
          rw [List.map_cons, List.mem_cons]
          exact not_or.mpr ⟨hkey, hn⟩
        exact Or.inl ⟨hnew, rfl⟩
      · refine Or.inr ⟨List.mem_cons_of_mem _ hm, hmerge, ?_⟩
        simp only [addUnder, List.map_cons, if_neg hk]

/-- No key occurs twice, unless the junction takes several of it. -/
def NoClash (kind : Junction) (es : List Entry) : Prop :=
  ∀ key, ¬ Mergeable kind key → (es.filter fun e => e.1 = key).length ≤ 1

theorem mergeEntry_merged {kind : Junction} {e : Entry} {es out : List Entry}
    (h : mergeEntry kind e (merged es) = .ok out) : out = merged (es ++ [e]) := by
  have hkeys := map_fst_merged es
  rw [merged_append]
  rcases mergeEntry_eq_ok (hkeys ▸ nodup_keysOf es) h with ⟨hn, rfl⟩ | ⟨hm, -, rfl⟩
  · rw [if_neg (hkeys ▸ hn)]
  · rw [if_pos (hkeys ▸ hm)]

theorem NoClash.append {kind : Junction} {e : Entry} {es out : List Entry}
    (hes : NoClash kind es) (h : mergeEntry kind e (merged es) = .ok out) :
    NoClash kind (es ++ [e]) := by
  have hkeys := map_fst_merged es
  intro key hkey
  rw [List.filter_append, List.length_append]
  rcases mergeEntry_eq_ok (hkeys ▸ nodup_keysOf es) h with ⟨hn, -⟩ | ⟨-, hmerge, -⟩
  · rw [hkeys] at hn
    by_cases hk : e.1 = key
    · simp [filter_of_notMem (hk ▸ hn), hk]
    · simpa [hk] using hes key hkey
  · have hk : e.1 ≠ key := fun hk => hkey (hk ▸ hmerge)
    simpa [hk] using hes key hkey

/-! ### Entries of expressions -/

variable {C : Type} [ColumnRef C]

/-- The key that an expression is written under. -/
def key : Expr C → String
  | .leaf column _ => ColumnRef.reference column
  | .junction kind _ => kind.name

/-- What stands under the key of an expression, if it can be written. -/
def body (e : Expr C) : List (String × Json) :=
  match entry e with
  | .ok en => en.2
  | .error _ => []

theorem body_leaf (column : C) (op : Operator) :
    body (.leaf column op) = [(op.symbol, op.value.toJson)] := rfl

/-- An expression that can be written is written under its key. -/
theorem entry_eq_ok {e : Expr C} {en : Entry} (h : entry e = .ok en) : en = (e.key, e.body) := by
  have hb : e.body = en.2 := by rw [body, h]
  rw [hb]
  cases e with
  | leaf column op =>
    rw [entry] at h
    cases h
    rfl
  | junction kind es =>
    rw [entry] at h
    obtain ⟨out, -, h⟩ := Except.bind_eq_ok.mp h
    cases h
    rfl

/-- The entries of expressions, each under its own key. -/
def entriesOf (es : List (Expr C)) : List Entry := es.map fun e => (e.key, e.body)

theorem mergeAll_eq_ok {kind : Junction} : ∀ {es : List (Expr C)} {done out : List Entry},
    NoClash kind done → mergeAll kind (merged done) es = .ok out →
    (∀ e ∈ es, entry e = .ok (e.key, e.body)) ∧ out = merged (done ++ entriesOf es) ∧
      NoClash kind (done ++ entriesOf es)
  | [], done, out, hd, h => by
    rw [mergeAll] at h
    cases h
    simpa [entriesOf] using hd
  | e :: rest, done, out, hd, h => by
    rw [mergeAll] at h
    obtain ⟨en, he, h⟩ := Except.bind_eq_ok.mp h
    obtain ⟨done', hm, h⟩ := Except.bind_eq_ok.mp h
    have hd' : NoClash kind (done ++ [en]) := hd.append hm
    rw [mergeEntry_merged hm] at h
    obtain ⟨hall, hout, hclash⟩ := mergeAll_eq_ok hd' h
    have hen : en = (e.key, e.body) := entry_eq_ok he
    have happ : done ++ [en] ++ entriesOf rest = done ++ entriesOf (e :: rest) := by
      rw [hen, List.append_assoc]
      rfl
    rw [happ] at hout hclash
    exact ⟨List.forall_mem_cons.mpr ⟨by rw [he, hen], hall⟩, hout, hclash⟩

/-- **What a junction is written as.** If it can be written at all, then so can
its children, no key of theirs clashes, and its members are the entries of the
children put together by their keys. -/
theorem entry_junction_eq_ok {kind : Junction} {es : List (Expr C)} {en : Entry}
    (h : entry (.junction kind es) = .ok en) :
    (∀ e ∈ es, entry e = .ok (e.key, e.body)) ∧ NoClash kind (entriesOf es) ∧
      en = (kind.name, (merged (entriesOf es)).map fun e => (e.1, .object e.2)) := by
  rw [entry] at h
  obtain ⟨out, hm, h⟩ := Except.bind_eq_ok.mp h
  cases h
  have hempty : NoClash kind [] := fun key _ => by simp
  have hmerged : mergeAll kind (merged []) es = .ok out := hm
  obtain ⟨hall, hout, hclash⟩ := mergeAll_eq_ok hempty hmerged
  rw [List.nil_append] at hout hclash
  exact ⟨hall, hclash, by rw [hout]⟩

end Expr
end QueryFilter
