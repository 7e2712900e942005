/-
# Maps in key order

A map kept as the list of its entries in the order of their keys. Restrictions
and tables are stored this way, so that what is written out does not depend on
the order in which it was put in.

`SortedMap.get?_insert` is the map's law, and `SortedMap.sorted_insert` says
that insertion keeps the order.

Key definitions: `SortedMap`, `SortedMap.insert`, `SortedMap.get?`,
`SortedMap.Sorted`.
Key theorems: `SortedMap.get?_insert`, `SortedMap.sorted_insert`.
-/

namespace QueryFilter

/-- Entries in increasing order of their keys. -/
structure SortedMap (κ : Type) (α : Type) where
  entries : List (κ × α)

namespace SortedMap

variable {κ α : Type} [Ord κ]

/-- The entries with `key` bound to `value`, in its place in the order. -/
def insertEntry (key : κ) (value : α) : List (κ × α) → List (κ × α)
  | [] => [(key, value)]
  | (k, v) :: rest =>
    match compare key k with
    | .lt => (key, value) :: (k, v) :: rest
    | .eq => (key, value) :: rest
    | .gt => (k, v) :: insertEntry key value rest

/-- The value of a key among entries. -/
def lookup? (key : κ) : List (κ × α) → Option α
  | [] => none
  | (k, v) :: rest => if compare key k = .eq then some v else lookup? key rest

def empty : SortedMap κ α := ⟨[]⟩

/-- The map with `key` bound to `value`, in place of an earlier value. -/
def insert (m : SortedMap κ α) (key : κ) (value : α) : SortedMap κ α :=
  ⟨insertEntry key value m.entries⟩

/-- The value of a key. -/
def get? (m : SortedMap κ α) (key : κ) : Option α := lookup? key m.entries

def isEmpty (m : SortedMap κ α) : Bool := m.entries.isEmpty

/-- The map of a list of entries, of which the last for a key counts. -/
def ofList (entries : List (κ × α)) : SortedMap κ α :=
  entries.foldl (fun m e => m.insert e.1 e.2) empty

/-- Keys strictly increase along the entries. -/
def Sorted (m : SortedMap κ α) : Prop :=
  (m.entries.map Prod.fst).Pairwise fun a b => compare a b = .lt

theorem get?_empty (key : κ) : (empty : SortedMap κ α).get? key = none := rfl

theorem lookup?_insertEntry [Std.TransOrd κ] [Std.LawfulEqOrd κ] (key : κ) (value : α)
    (other : κ) : ∀ entries : List (κ × α),
    lookup? other (insertEntry key value entries) =
      if compare other key = .eq then some value else lookup? other entries
  | [] => rfl
  | (k, v) :: rest => by
    unfold insertEntry
    cases hc : compare key k with
    | lt => simp [lookup?]
    | eq =>
      have hk : key = k := Std.LawfulEqOrd.eq_of_compare hc
      subst hk
      by_cases ho : compare other key = .eq <;> simp [lookup?, ho]
    | gt =>
      have ih := lookup?_insertEntry key value other rest
      simp only [lookup?, ih]
      by_cases ho : compare other key = .eq
      · have hk : other = key := Std.LawfulEqOrd.eq_of_compare ho
        subst hk
        simp [hc]
      · simp [ho]

/-- A key inserted is found with its value, and no other key is disturbed. -/
theorem get?_insert [Std.TransOrd κ] [Std.LawfulEqOrd κ] (m : SortedMap κ α) (key : κ)
    (value : α) (other : κ) :
    (m.insert key value).get? other =
      if compare other key = .eq then some value else m.get? other :=
  lookup?_insertEntry key value other m.entries

theorem mem_keys_insertEntry {key : κ} {value : α} {other : κ} : ∀ {entries : List (κ × α)},
    other ∈ (insertEntry key value entries).map Prod.fst →
      other = key ∨ other ∈ entries.map Prod.fst
  | [], h => by simpa [insertEntry] using h
  | (k, v) :: rest, h => by
    unfold insertEntry at h
    split at h
    · simpa using h
    · simp only [List.map_cons, List.mem_cons] at h ⊢
      exact h.imp_right Or.inr
    · simp only [List.map_cons, List.mem_cons] at h ⊢
      rcases h with h | h
      · exact Or.inr (Or.inl h)
      · exact (mem_keys_insertEntry h).imp_right Or.inr

theorem pairwise_insertEntry [Std.TransOrd κ] [Std.LawfulEqOrd κ] (key : κ) (value : α) :
    ∀ entries : List (κ × α),
      (entries.map Prod.fst).Pairwise (fun a b => compare a b = .lt) →
      ((insertEntry key value entries).map Prod.fst).Pairwise fun a b => compare a b = .lt
  | [], _ => by simp [insertEntry]
  | (k, v) :: rest, h => by
    rw [List.map_cons, List.pairwise_cons] at h
    unfold insertEntry
    split
    · rename_i hc
      rw [List.map_cons, List.pairwise_cons, List.map_cons, List.pairwise_cons]
      refine ⟨fun b hb => ?_, h⟩
      rcases List.mem_cons.mp hb with rfl | hb
      · exact hc
      · exact Std.TransCmp.lt_trans hc (h.1 b hb)
    · rename_i hc
      rw [List.map_cons, List.pairwise_cons]
      rw [Std.LawfulEqOrd.eq_of_compare hc]
      exact h
    · rename_i hc
      rw [List.map_cons, List.pairwise_cons]
      refine ⟨fun b hb => ?_, pairwise_insertEntry key value rest h.2⟩
      rcases mem_keys_insertEntry hb with rfl | hb
      · exact Std.OrientedCmp.lt_of_gt hc
      · exact h.1 b hb

/-- Insertion keeps the order of the keys. -/
theorem sorted_insert [Std.TransOrd κ] [Std.LawfulEqOrd κ] (m : SortedMap κ α) (key : κ)
    (value : α) (h : m.Sorted) : (m.insert key value).Sorted :=
  pairwise_insertEntry key value m.entries h

end SortedMap
end QueryFilter
