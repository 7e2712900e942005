/-
# What a filter is written as

A filter is written as the member of its predicate in normal form, if that says
anything, with the modifiers behind it (`Filter.toInput_eq_ok`). The modifiers have
keys of their own, so what is left to collide is inside the predicate, or a column
that has the name of a modifier (`Filter.toInput_ok_iff`). Nothing else can go wrong
(`Filter.onlyCollides_toInput`).

Key theorems: `Modifiers.dump_keys_sublist`, `Filter.addMembers_ok_iff`,
`Filter.toInput_eq_ok`, `Filter.toInput_ok_iff`, `Filter.onlyCollides_toInput`.
-/
import QueryFilter.Filter
import QueryFilter.Proofs.Expr.Collision
import QueryFilter.Proofs.Expr.NormalForm
import QueryFilter.Proofs.Keyword

namespace QueryFilter

variable {C : Type} [ColumnRef C]

/-! ### Modifiers -/

namespace Modifiers

/-- The keys of modifiers stand in one order. -/
theorem dump_keys_sublist (m : Modifiers C) :
    (m.dump.map Prod.fst).Sublist [Modifier.limit.key, Modifier.offset.key, Modifier.orderBy.key] := by
  have hcount : ∀ (modifier : Modifier) (n : Option UInt64),
      ((n.map (countMember modifier)).toList.map Prod.fst).Sublist [modifier.key] := by
    intro modifier n
    cases n with
    | none => exact List.nil_sublist _
    | some n => exact List.Sublist.refl _
  have horder : ((orderMembers m.orderBy).map Prod.fst).Sublist [Modifier.orderBy.key] := by
    match m.orderBy with
    | [] => exact List.nil_sublist _
    | [_] => exact List.Sublist.refl _
    | _ :: _ :: _ => exact List.Sublist.refl _
  rw [dump, List.map_append, List.map_append]
  exact ((hcount .limit m.limit).append (hcount .offset m.offset)).append horder

theorem nodup_dump (m : Modifiers C) : (m.dump.map Prod.fst).Nodup :=
  m.dump_keys_sublist.nodup (by decide)

theorem ofKey?_of_mem_dump {m : Modifiers C} {key : String} (h : key ∈ m.dump.map Prod.fst) :
    ∃ modifier, Modifier.ofKey? key = some modifier := by
  have hkey := m.dump_keys_sublist.subset h
  simp only [List.mem_cons, List.not_mem_nil, or_false] at hkey
  rcases hkey with rfl | rfl | rfl
  · exact ⟨.limit, Modifier.ofKey?_key _⟩
  · exact ⟨.offset, Modifier.ofKey?_key _⟩
  · exact ⟨.orderBy, Modifier.ofKey?_key _⟩

end Modifiers

/-! ### Members behind others -/

namespace Filter

theorem addMembers_eq_ok : ∀ {ms done out : List (String × Json)},
    addMembers done ms = .ok out → out = done ++ ms
  | [], done, out, h => by
    cases h
    simp
  | (key, j) :: rest, done, out, h => by
    rw [addMembers] at h
    split at h
    · cases h
    · rw [addMembers_eq_ok h, List.append_assoc]
      rfl

/-- Members are put behind others if all their keys are new. -/
theorem addMembers_ok_iff : ∀ {ms done : List (String × Json)},
    (∃ out, addMembers done ms = .ok out) ↔
      (ms.map Prod.fst).Nodup ∧ ∀ key ∈ ms.map Prod.fst, key ∉ done.map Prod.fst
  | [], done => ⟨fun _ => ⟨List.nodup_nil, fun key h => (by cases h)⟩, fun _ => ⟨done, rfl⟩⟩
  | (key, j) :: rest, done => by
    have hany : (done.any fun m => m.1 = key) = true ↔ key ∈ done.map Prod.fst := by
      simp [List.any_eq_true]
    have ih : (∃ out, addMembers (done ++ [(key, j)]) rest = .ok out) ↔ _ := addMembers_ok_iff
    rw [addMembers, List.map_cons, List.nodup_cons, List.forall_mem_cons]
    by_cases hk : key ∈ done.map Prod.fst
    · rw [if_pos (hany.mpr hk)]
      exact ⟨fun ⟨out, h⟩ => (by cases h), fun h => absurd hk h.2.1⟩
    · rw [if_neg fun ha => hk (hany.mp ha), ih]
      simp only [List.map_append, List.map_cons, List.map_nil, List.mem_append, List.mem_singleton,
        not_or]
      constructor
      · rintro ⟨hnd, hnew⟩
        exact ⟨⟨fun hm => (hnew key hm).2 rfl, hnd⟩, hk, fun k hm => (hnew k hm).1⟩
      · rintro ⟨⟨hm, hnd⟩, -, hnew⟩
        exact ⟨hnd, fun k hkm => ⟨hnew k hkm, fun he => hm (he ▸ hkm)⟩⟩

theorem onlyCollides_addMembers : ∀ ms done : List (String × Json),
    OnlyCollides (addMembers done ms)
  | [], done => .ok done
  | (key, j) :: rest, done => by
    rw [addMembers]
    split
    · exact .collision key
    · exact onlyCollides_addMembers rest _

/-! ### Whole filters -/

omit [ColumnRef C] in
theorem expression_normalize (f : Filter C) :
    f.normalize.expression = f.expression.bind Expr.normalForm? := by
  cases hf : f.expression with
  | none => simp [normalize, hf]
  | some e =>
    cases he : e.normalize.isEmpty <;> simp [normalize, hf, Expr.normalForm?, he]

omit [ColumnRef C] in
theorem full_of_normalize {f : Filter C} {e : Expr C} (h : f.normalize.expression = some e) :
    e.Full := by
  rw [expression_normalize] at h
  obtain ⟨T, -, h⟩ := Option.bind_eq_some_iff.mp h
  exact (Expr.normalForm?_eq_some h).2

/-- A filter with nothing to say is written as its modifiers. -/
theorem toInput_of_none {f : Filter C} (h : f.normalize.expression = none) :
    f.toInput = .ok ⟨InputNode.ofMembers f.modifiers.dump⟩ := by
  have hempty : ∀ key ∈ f.modifiers.dump.map Prod.fst, key ∉ ([] : List (String × Json)).map Prod.fst :=
    fun key _ hk => by cases hk
  obtain ⟨out, hout⟩ := addMembers_ok_iff.mpr ⟨f.modifiers.nodup_dump, hempty⟩
  rw [toInput, write, writeAsIs, h]
  show (addMembers [] f.modifiers.dump).map FilterInput.ofMembers = _
  rw [hout, addMembers_eq_ok hout]
  rfl

/-- Any other is written as its predicate, with the modifiers behind it. -/
theorem toInput_of_some {f : Filter C} {e : Expr C} (h : f.normalize.expression = some e) :
    f.toInput = (Expr.entry e).bind fun en =>
      (addMembers [(en.1, .object en.2)] f.modifiers.dump).map FilterInput.ofMembers := by
  have hne : e.isEmpty = false := Expr.isEmpty_of_full (full_of_normalize h)
  have hkept : (some e).filter (fun e => !e.isEmpty) = some e := by simp [hne]
  rw [toInput, write, writeAsIs, h, hkept]
  show (e.dump.bind fun members => addMembers members f.modifiers.dump).map FilterInput.ofMembers = _
  rw [Expr.dump]
  cases Expr.entry e <;> rfl

/-- **What is written.** The node of the predicate, if there is one, and those of the
modifiers. -/
theorem toInput_eq_ok {f : Filter C} {input : FilterInput} (h : f.toInput = .ok input) :
    (f.normalize.expression = none ∧ input.nodes = InputNode.ofMembers f.modifiers.dump) ∨
      ∃ e, f.normalize.expression = some e ∧ Expr.entry e = .ok (e.key, e.body) ∧
        input.nodes =
          .map e.key (InputNode.ofMembers e.body) :: InputNode.ofMembers f.modifiers.dump := by
  cases he : f.normalize.expression with
  | none =>
    rw [toInput_of_none he] at h
    cases h
    exact Or.inl ⟨rfl, rfl⟩
  | some e =>
    rw [toInput_of_some he] at h
    obtain ⟨en, hentry, h⟩ := Except.bind_eq_ok.mp h
    obtain ⟨out, hout, rfl⟩ := Except.map_eq_ok.mp h
    have hen := Expr.entry_eq_ok hentry
    refine Or.inr ⟨e, rfl, by rw [hentry, hen], ?_⟩
    rw [addMembers_eq_ok hout, hen]
    rfl

/-- **Whether it can be written.** If the predicate has no key of a modifier, it has to
be one that can be written. -/
theorem toInput_ok_iff {f : Filter C}
    (hkey : ∀ e, f.normalize.expression = some e → Modifier.ofKey? e.key = none) :
    (∃ input, f.toInput = .ok input) ↔
      ∀ e, f.normalize.expression = some e → ¬ e.Collides := by
  cases he : f.normalize.expression with
  | none =>
    rw [toInput_of_none he]
    exact ⟨fun _ e h => (by cases h), fun _ => ⟨_, rfl⟩⟩
  | some e =>
    simp only [Option.some.injEq, forall_eq']
    rw [toInput_of_some he, ← Expr.entry_ok_iff]
    constructor
    · rintro ⟨input, h⟩
      obtain ⟨en, hentry, -⟩ := Except.bind_eq_ok.mp h
      exact ⟨en, hentry⟩
    · rintro ⟨en, hentry⟩
      have hnew : ∀ key ∈ f.modifiers.dump.map Prod.fst,
          key ∉ [(en.1, Json.object en.2)].map Prod.fst := by
        intro key hm hk
        obtain ⟨modifier, hmodifier⟩ := Modifiers.ofKey?_of_mem_dump hm
        rw [List.mem_singleton.mp hk, Expr.entry_eq_ok hentry, hkey e he] at hmodifier
        cases hmodifier
      obtain ⟨out, hout⟩ := addMembers_ok_iff.mpr ⟨f.modifiers.nodup_dump, hnew⟩
      exact ⟨.ofMembers out, Except.bind_eq_ok.mpr ⟨en, hentry, Except.map_eq_ok.mpr ⟨out, hout, rfl⟩⟩⟩

/-- **Nothing else goes wrong.** A filter that cannot be written has keys that collide. -/
theorem onlyCollides_toInput (f : Filter C) : OnlyCollides f.toInput := by
  cases he : f.normalize.expression with
  | none =>
    rw [toInput_of_none he]
    exact .ok _
  | some e =>
    rw [toInput_of_some he]
    exact (Expr.onlyCollides_entry e).bind fun en => (onlyCollides_addMembers _ _).map _

end Filter
end QueryFilter
