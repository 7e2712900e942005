/-
# Equality of values

Values are compared kind by kind and doubles as numbers, so a value equals itself unless
there is a NaN in it (`Value.same_self`). A value that JSON has a place for has none, and
what equals it is such a value too (`Value.Plain.of_same`). Apart from NaNs, doubles that are
equal numbers differ in the sign of a zero at most, so two values are equal if no NaN is in
them and they are one but for the signs of zeros (`Value.same_iff_equal`).

Key definitions: `Value.canonical`, `Value.Equal`.
Key theorems: `Value.same_self`, `Value.same_self_of_portable`, `Value.Plain.of_same`,
`Value.same_iff_equal`.
-/
import QueryFilter.Proofs.Value.Reread

namespace QueryFilter
namespace Value

mutual

/-- A value differs from itself only if there is a NaN in it. -/
theorem same_self : ∀ v : Value, same v v = !v.hasNaN
  | .null => rfl
  | .bool b => by simp [same, hasNaN]
  | .int i => by simp [same, hasNaN]
  | .uint u => by simp [same, hasNaN]
  | .float x => by rw [same, hasNaN, Binary64.ieeeEq_self]
  | .string s => by simp [same, hasNaN]
  | .array items => by rw [same, hasNaN, sameItems_self items]

theorem sameItems_self : ∀ vs : List Value, sameItems vs vs = !anyHasNaN vs
  | [] => rfl
  | v :: rest => by rw [sameItems, anyHasNaN, same_self v, sameItems_self rest, Bool.not_or]

end

/-- A finite double is a number. -/
theorem isNaN_of_isFinite {x : Binary64} (h : x.isFinite = true) : x.isNaN = false := by
  rw [Binary64.isFinite, decide_eq_true_eq] at h
  have hne : (x.exponentField == 2047) = false := by simpa using Nat.ne_of_lt h
  rw [Binary64.isNaN, hne, Bool.false_and]

mutual

/-- No NaN is in what JSON can hold. -/
theorem hasNaN_of_portable : ∀ {v : Value}, v.Portable → v.hasNaN = false
  | .null, _ | .bool _, _ | .int _, _ | .uint _, _ | .string _, _ => rfl
  | .float x, h => by
    rw [Portable] at h
    rw [hasNaN, isNaN_of_isFinite h]
  | .array items, h => by
    rw [Portable] at h
    rw [hasNaN, anyHasNaN_of_allPortable h]

theorem anyHasNaN_of_allPortable : ∀ {vs : List Value}, AllPortable vs → anyHasNaN vs = false
  | [], _ => rfl
  | v :: rest, h => by
    rw [AllPortable] at h
    rw [anyHasNaN, hasNaN_of_portable h.1, anyHasNaN_of_allPortable h.2, Bool.or_false]

end

/-- A double that equals a finite one is finite. -/
theorem isFinite_of_ieeeEq {x y : Binary64} (h : x.ieeeEq y = true) (hx : x.isFinite = true) :
    y.isFinite = true := by
  simp only [Binary64.ieeeEq, Bool.and_eq_true, Bool.or_eq_true, beq_iff_eq] at h
  rcases h.2 with rfl | ⟨-, hy⟩
  · exact hx
  · rw [Binary64.isZero, beq_iff_eq] at hy
    simp [Binary64.isFinite, Binary64.exponentField, hy]

/-- A value that JSON can hold equals itself: no NaN is in it. -/
theorem same_self_of_portable {v : Value} (h : v.Portable) : same v v = true := by
  rw [same_self, hasNaN_of_portable h, Bool.not_false]

/-- What equals a value that JSON has a place for is one itself. -/
theorem Plain.of_same {a b : Value} (h : a.Plain) (hab : same a b = true) : b.Plain := by
  obtain ⟨hv, ha⟩ := h
  cases a with
  | array items => cases ha
  | uint u =>
    cases b with
    | uint u' =>
      rw [same, beq_iff_eq] at hab
      exact ⟨hab ▸ hv, rfl⟩
    | _ => simp [same] at hab
  | float x =>
    cases b with
    | float y =>
      rw [same] at hab
      exact ⟨isFinite_of_ieeeEq hab hv, rfl⟩
    | _ => simp [same] at hab
  | null | bool _ | int _ | string _ =>
    cases b with
    | null | bool _ | int _ | string _ => exact ⟨trivial, rfl⟩
    | _ => simp [same] at hab

/-! ### Equality without a comparison -/

/-- A double with the sign of a zero taken off. -/
def unsignedZero (x : Binary64) : Binary64 := if x.isZero then .zero false else x

theorem isNaN_of_isZero {x : Binary64} (h : x.isZero = true) : x.isNaN = false := by
  rw [Binary64.isZero, beq_iff_eq] at h
  simp [Binary64.isNaN, Binary64.exponentField, h]

/-- Equal doubles are numbers, and the same but for the signs of zeros. -/
theorem ieeeEq_iff {x y : Binary64} :
    x.ieeeEq y = true ↔ x.isNaN = false ∧ y.isNaN = false ∧ unsignedZero x = unsignedZero y := by
  have hzero : ∀ z : Binary64, z.isZero = false → Binary64.zero false ≠ z := by
    rintro z hz rfl
    exact absurd hz (by decide)
  have hne : ∀ z w : Binary64, z.isZero = true → w.isZero = false → z ≠ w := by
    rintro z w hz hw rfl
    rw [hz] at hw
    cases hw
  unfold unsignedZero Binary64.ieeeEq
  cases hx : x.isZero <;> cases hy : y.isZero
  · simp [and_assoc]
  · simp [(hzero x hx).symm, (hne y x hy hx).symm]
  · simp [hzero y hy, hne x y hx hy]
  · simp [isNaN_of_isZero hx, isNaN_of_isZero hy]

mutual

/-- The value with the signs of zeros taken off. -/
def canonical : Value → Value
  | .float x => .float (unsignedZero x)
  | .array items => .array (canonicalItems items)
  | v => v

def canonicalItems : List Value → List Value
  | [] => []
  | item :: rest => canonical item :: canonicalItems rest

end

/-- Whether two values are equal: no NaN is in them, and they are of one kind and the same but
for the signs of zeros. -/
def Equal (a b : Value) : Prop := a.hasNaN = false ∧ b.hasNaN = false ∧ a.canonical = b.canonical

theorem Equal.symm {a b : Value} (h : a.Equal b) : b.Equal a := ⟨h.2.1, h.1, h.2.2.symm⟩

theorem Equal.trans {a b c : Value} (hab : a.Equal b) (hbc : b.Equal c) : a.Equal c :=
  ⟨hab.1, hbc.2.1, hab.2.2.trans hbc.2.2⟩

mutual

/-- **Equality of values** in the words of `Value.Equal`. -/
theorem same_iff_equal : ∀ {a b : Value}, same a b = true ↔ a.Equal b
  | .float x, b => by
    cases b with
    | float y => simp [same, Equal, hasNaN, canonical, ieeeEq_iff]
    | _ => simp [same, Equal, canonical]
  | .array xs, b => by
    cases b with
    | array ys => simp [same, Equal, hasNaN, canonical, sameItems_iff]
    | _ => simp [same, Equal, canonical]
  | .null, b | .bool _, b | .int _, b | .uint _, b | .string _, b => by
    cases b <;> simp [same, Equal, hasNaN, canonical]

theorem sameItems_iff : ∀ {as bs : List Value}, sameItems as bs = true ↔
    anyHasNaN as = false ∧ anyHasNaN bs = false ∧ canonicalItems as = canonicalItems bs
  | [], [] => by simp [sameItems, anyHasNaN]
  | [], _ :: _ => by simp [sameItems, canonicalItems]
  | _ :: _, [] => by simp [sameItems, canonicalItems]
  | a :: as, b :: bs => by
    rw [sameItems, Bool.and_eq_true, same_iff_equal, sameItems_iff, Equal]
    simp only [anyHasNaN, canonicalItems, Bool.or_eq_false_iff, List.cons.injEq]
    constructor
    · rintro ⟨⟨ha, hb, h⟩, has, hbs, hs⟩
      exact ⟨⟨ha, has⟩, ⟨hb, hbs⟩, h, hs⟩
    · rintro ⟨⟨ha, has⟩, ⟨hb, hbs⟩, h, hs⟩
      exact ⟨⟨ha, hb, h⟩, has, hbs, hs⟩

end

end Value
end QueryFilter
