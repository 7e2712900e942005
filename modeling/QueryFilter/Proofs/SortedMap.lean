/-
# Maps made of lists of entries

A map made of a list has, for each key, the last value that the list has for it
(`SortedMap.get?_ofList`). Its entries are those last ones
(`SortedMap.mem_entries_ofList_iff`), in the order of their keys
(`SortedMap.sorted_ofList`). So a map is made again of its own entries
(`SortedMap.ofList_entries`). In entries in order, the last one of several keys
is that of the greatest of them that is there (`SortedMap.lastWhere_mem`).

Key definitions: `SortedMap.lastWhere`, `SortedMap.last?`.
Key theorems: `SortedMap.get?_ofList`, `SortedMap.mem_entries_ofList_iff`,
`SortedMap.ofList_entries`, `SortedMap.last?_entries`, `SortedMap.lastWhere_mem`.
-/
import Mathlib.Data.List.Forall2
import Mathlib.Data.List.Nodup
import QueryFilter.SortedMap

namespace QueryFilter
namespace SortedMap

variable {κ α : Type}

/-- The value of the last entry whose key is of a kind. -/
def lastWhere (p : κ → Bool) : List (κ × α) → Option α
  | [] => none
  | (k, v) :: rest => (lastWhere p rest).or (if p k then some v else none)

/-- The value of the last entry of a key. -/
def last? [DecidableEq κ] (key : κ) (entries : List (κ × α)) : Option α :=
  lastWhere (fun k => k = key) entries

theorem lastWhere_eq_none {p : κ → Bool} : ∀ {entries : List (κ × α)},
    (∀ e ∈ entries, p e.1 = false) → lastWhere p entries = none
  | [], _ => rfl
  | (k, v) :: rest, h => by
    obtain ⟨hk, hrest⟩ := List.forall_mem_cons.mp h
    simp [lastWhere, lastWhere_eq_none hrest, hk]

/-- The value found is that of an entry whose key is of the kind. -/
theorem lastWhere_eq_some {p : κ → Bool} {v : α} : ∀ {entries : List (κ × α)},
    lastWhere p entries = some v → ∃ k, (k, v) ∈ entries ∧ p k = true
  | [], h => by cases h
  | (k, w) :: rest, h => by
    rw [lastWhere] at h
    cases hrest : lastWhere p rest with
    | some w' =>
      rw [hrest] at h
      cases h
      obtain ⟨k', hk', hp⟩ := lastWhere_eq_some hrest
      exact ⟨k', List.mem_cons_of_mem _ hk', hp⟩
    | none =>
      rw [hrest] at h
      by_cases hp : p k = true
      · simp only [Option.none_or, hp, ↓reduceIte, Option.some.injEq] at h
        exact ⟨k, h ▸ List.mem_cons_self, hp⟩
      · simp [hp] at h

/-- Some entry is found if the key of one is of the kind. -/
theorem isSome_lastWhere {p : κ → Bool} {e : κ × α} (hp : p e.1 = true) :
    ∀ {entries : List (κ × α)}, e ∈ entries → (lastWhere p entries).isSome = true
  | (k, v) :: rest, hm => by
    rw [lastWhere, Option.isSome_or]
    rcases List.mem_cons.mp hm with rfl | hm
    · simp [hp]
    · simp [isSome_lastWhere hp hm]

/-- Where a key has one entry, that is its last. -/
theorem last?_eq_some_iff_mem [DecidableEq κ] {entries : List (κ × α)}
    (h : (entries.map Prod.fst).Nodup) {key : κ} {value : α} :
    last? key entries = some value ↔ (key, value) ∈ entries := by
  have hmem : ∀ {v : α}, last? key entries = some v → (key, v) ∈ entries := by
    intro v hv
    obtain ⟨k, hk, heq⟩ := lastWhere_eq_some hv
    rwa [← of_decide_eq_true heq]
  refine ⟨hmem, fun hm => ?_⟩
  have hsome : (last? key entries).isSome = true := isSome_lastWhere (e := (key, value)) (by simp) hm
  obtain ⟨v, hv⟩ := Option.isSome_iff_exists.mp hsome
  have heq : (key, v) = (key, value) := List.inj_on_of_nodup_map h (hmem hv) hm rfl
  rw [hv, (Prod.mk.inj heq).2]

/-- Lists with the same keys and related values have related last values. -/
theorem lastWhere_rel {β : Type} {r : α → β → Prop} (p : κ → Bool) {as : List (κ × α)}
    {bs : List (κ × β)} (h : List.Forall₂ (fun a b => a.1 = b.1 ∧ r a.2 b.2) as bs) :
    Option.Rel r (lastWhere p as) (lastWhere p bs) := by
  induction h with
  | nil => exact .none
  | @cons a b as bs hab _ ih =>
    rw [lastWhere, lastWhere, ← hab.1]
    generalize lastWhere p as = x at ih
    generalize lastWhere p bs = y at ih
    cases ih with
    | some hr => exact .some hr
    | none =>
      cases p a.1 with
      | true => exact .some hab.2
      | false => exact .none

variable [Ord κ] [Std.LawfulEqOrd κ]

/-- In entries in order, the last of a key is the one of that key. -/
theorem last?_eq_lookup? [DecidableEq κ] (key : κ) : ∀ {entries : List (κ × α)},
    (entries.map Prod.fst).Pairwise (fun a b => compare a b = .lt) →
    last? key entries = lookup? key entries
  | [], _ => rfl
  | (k, v) :: rest, h => by
    rw [List.map_cons, List.pairwise_cons] at h
    have ih := last?_eq_lookup? key h.2
    rw [last?] at ih
    rw [last?, lastWhere, lookup?]
    by_cases hk : k = key
    · have hnone : lastWhere (fun k => decide (k = key)) rest = none := by
        refine lastWhere_eq_none fun e he => ?_
        have hlt := h.1 e.1 (List.mem_map_of_mem he)
        have hne : e.1 ≠ key := fun heq => by
          rw [heq, hk, Std.compare_eq_iff_eq.mpr rfl] at hlt
          cases hlt
        simpa using hne
      simp [hnone, hk]
    · have hc : ¬ compare key k = .eq := fun hc => hk (Std.LawfulEqOrd.eq_of_compare hc).symm
      simp [hk, hc, ih]

variable [Std.TransOrd κ]

/-- The map's law where keys can be told apart. -/
theorem get?_insert_ite [DecidableEq κ] (m : SortedMap κ α) (key : κ) (value : α) (other : κ) :
    (m.insert key value).get? other = if other = key then some value else m.get? other := by
  rw [get?_insert]
  exact if_congr Std.compare_eq_iff_eq rfl rfl

theorem get?_foldl_insert [DecidableEq κ] (key : κ) : ∀ (entries : List (κ × α)) (m : SortedMap κ α),
    (entries.foldl (fun m e => m.insert e.1 e.2) m).get? key = (last? key entries).or (m.get? key)
  | [], m => rfl
  | (k, v) :: rest, m => by
    rw [List.foldl_cons, get?_foldl_insert key rest, get?_insert_ite, last?, last?, lastWhere]
    by_cases hk : k = key
    · simp [hk]
    · simp [hk, Ne.symm hk]

/-- **Lists as maps.** The last value for a key is the value of the key. -/
theorem get?_ofList [DecidableEq κ] (entries : List (κ × α)) (key : κ) :
    (ofList entries).get? key = last? key entries := by
  rw [ofList, get?_foldl_insert, get?_empty, Option.or_none]

theorem sorted_ofList (entries : List (κ × α)) : (ofList entries).Sorted := by
  have hfold : ∀ (es : List (κ × α)) (m : SortedMap κ α), m.Sorted →
      (es.foldl (fun m e => m.insert e.1 e.2) m).Sorted := by
    intro es
    induction es with
    | nil => exact fun m h => h
    | cons e rest ih => exact fun m h => ih _ (sorted_insert m e.1 e.2 h)
  exact hfold entries empty List.Pairwise.nil

/-! ### Entries of maps -/

omit [Std.LawfulEqOrd κ] [Std.TransOrd κ] in
theorem mem_insertEntry {key : κ} {value : α} {e : κ × α} : ∀ {entries : List (κ × α)},
    e ∈ insertEntry key value entries → e = (key, value) ∨ e ∈ entries
  | [], h => Or.inl (List.mem_singleton.mp h)
  | (k, v) :: rest, h => by
    unfold insertEntry at h
    split at h
    · exact List.mem_cons.mp h
    · exact (List.mem_cons.mp h).imp_right (List.mem_cons_of_mem _)
    · rcases List.mem_cons.mp h with rfl | h
      · exact Or.inr List.mem_cons_self
      · exact (mem_insertEntry h).imp_right (List.mem_cons_of_mem _)

omit [Std.LawfulEqOrd κ] in
/-- A key above all others goes to the end. -/
theorem insertEntry_of_above {key : κ} {value : α} : ∀ {entries : List (κ × α)},
    (∀ e ∈ entries, compare e.1 key = .lt) →
    insertEntry key value entries = entries ++ [(key, value)]
  | [], _ => rfl
  | (k, v) :: rest, h => by
    obtain ⟨hk, hrest⟩ := List.forall_mem_cons.mp h
    have hgt : compare key k = .gt := Std.OrientedCmp.gt_of_lt hk
    rw [insertEntry, hgt, insertEntry_of_above hrest, List.cons_append]

omit [Std.LawfulEqOrd κ] in
/-- **Maps of their entries.** A map is made again of its own entries. -/
theorem ofList_entries {m : SortedMap κ α} (h : m.Sorted) : ofList m.entries = m := by
  have hfold : ∀ rest done : List (κ × α),
      ((done ++ rest).map Prod.fst).Pairwise (fun a b => compare a b = .lt) →
      rest.foldl (fun m e => m.insert e.1 e.2) ⟨done⟩ = (⟨done ++ rest⟩ : SortedMap κ α) := by
    intro rest
    induction rest with
    | nil => intro done _; simp
    | cons e rest ih =>
      intro done hsorted
      have habove : ∀ d ∈ done, compare d.1 e.1 = .lt := by
        rw [List.map_append, List.pairwise_append] at hsorted
        exact fun d hd => hsorted.2.2 d.1 (List.mem_map_of_mem hd) e.1 (by simp)
      rw [List.foldl_cons, insert, insertEntry_of_above habove, ih (done ++ [e]) (by simpa using hsorted)]
      simp
  exact hfold m.entries [] h

/-- The entries of the map of a list have the same last values as the list. -/
theorem last?_entries [DecidableEq κ] (entries : List (κ × α)) (key : κ) :
    last? key (ofList entries).entries = last? key entries := by
  rw [last?_eq_lookup? key (sorted_ofList entries), ← get?_ofList]
  rfl

/-- The entries of the map of a list are the last ones of their keys. -/
theorem mem_entries_ofList_iff [DecidableEq κ] {entries : List (κ × α)} {key : κ} {value : α} :
    (key, value) ∈ (ofList entries).entries ↔ last? key entries = some value := by
  have hnodup : ((ofList entries).entries.map Prod.fst).Nodup := by
    refine (sorted_ofList entries).imp fun {a b} hlt heq => ?_
    rw [heq, Std.compare_eq_iff_eq.mpr rfl] at hlt
    cases hlt
  rw [← last?_entries, last?_eq_some_iff_mem hnodup]

/-- The map of a list has the keys of the list. -/
theorem mem_keys_ofList_iff [DecidableEq κ] {entries : List (κ × α)} {key : κ} :
    key ∈ (ofList entries).entries.map Prod.fst ↔ key ∈ entries.map Prod.fst := by
  constructor
  · intro h
    obtain ⟨⟨k, v⟩, hmem, rfl⟩ := List.mem_map.mp h
    obtain ⟨k', hk', heq⟩ := lastWhere_eq_some (mem_entries_ofList_iff.mp hmem)
    exact List.mem_map.mpr ⟨(k', v), hk', of_decide_eq_true heq⟩
  · intro h
    obtain ⟨e, hmem, rfl⟩ := List.mem_map.mp h
    have hsome : (last? e.1 entries).isSome = true := isSome_lastWhere (by simp) hmem
    obtain ⟨v, hv⟩ := Option.isSome_iff_exists.mp hsome
    exact List.mem_map.mpr ⟨(e.1, v), mem_entries_ofList_iff.mpr hv, rfl⟩

/-- In entries in order, the last entry of two kinds of keys is that of the
greater keys, if there is one. -/
theorem lastWhere_or {p q : κ → Bool} (hpq : ∀ k k', p k = true → q k' = true → compare k' k = .lt) :
    ∀ {entries : List (κ × α)},
      (entries.map Prod.fst).Pairwise (fun a b => compare a b = .lt) →
      lastWhere (fun k => p k || q k) entries = (lastWhere p entries).or (lastWhere q entries)
  | [], _ => rfl
  | (k, v) :: rest, h => by
    rw [List.map_cons, List.pairwise_cons] at h
    rw [lastWhere, lastWhere, lastWhere, lastWhere_or hpq h.2]
    cases hp : p k with
    | false => cases lastWhere p rest <;> simp
    | true =>
      have hnone : lastWhere q rest = none := by
        refine lastWhere_eq_none fun e he => ?_
        have hlt := h.1 e.1 (List.mem_map_of_mem he)
        by_contra hq
        have hback := hpq k e.1 hp (by simpa using hq)
        have hself := Std.TransCmp.lt_trans hlt hback
        rw [Std.compare_eq_iff_eq.mpr rfl] at hself
        cases hself
      have hqk : q k = false := by
        by_contra hq
        have hself := hpq k k hp (by simpa using hq)
        rw [Std.compare_eq_iff_eq.mpr rfl] at hself
        cases hself
      simp [hnone, hqk]

/-- In entries in order, the last entry of several keys is that of the greatest
of them that is there. -/
theorem lastWhere_mem [DecidableEq κ] {entries : List (κ × α)}
    (h : (entries.map Prod.fst).Pairwise fun a b => compare a b = .lt) :
    ∀ {keys : List κ}, keys.Pairwise (fun a b => compare b a = .lt) →
      lastWhere (fun k => k ∈ keys) entries = keys.findSome? fun k => last? k entries
  | [], _ => lastWhere_eq_none fun _ _ => by simp
  | key :: rest, hkeys => by
    rw [List.pairwise_cons] at hkeys
    have hor : (fun k => decide (k ∈ key :: rest)) =
        fun k => decide (k = key) || decide (k ∈ rest) := by
      funext k
      simp
    have hless : ∀ k k', decide (k = key) = true → decide (k' ∈ rest) = true →
        compare k' k = .lt := fun k k' hk hk' => by
      rw [of_decide_eq_true hk]
      exact hkeys.1 k' (of_decide_eq_true hk')
    rw [hor, lastWhere_or hless h, lastWhere_mem h hkeys.2, List.findSome?_cons, ← last?]
    cases last? key entries <;> rfl

end SortedMap
end QueryFilter
