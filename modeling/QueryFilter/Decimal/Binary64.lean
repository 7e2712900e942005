/-
# Double-precision numbers

A `Binary64` is the 64 bits of an IEEE 754 double: a sign bit, an eleven-bit
exponent field and a 52-bit fraction. Its fields and its comparison are read
off the bits, so that every statement about a number is a statement about
natural numbers. A finite number is `± significand · 2 ^ scale`.

`Binary64.round?` is the other direction: the double nearest to an exact
quotient, the even neighbour on a tie, `none` when the quotient is beyond the
largest finite double.

Key definitions: `Binary64`, `Binary64.significand`, `Binary64.scale`,
`Binary64.ieeeEq`, `Binary64.round?`, `Binary64.ofDecimal?`.
Key theorems: `Binary64.ieeeEq_self`.
-/

namespace QueryFilter

/-- An IEEE 754 double, by its bits. -/
structure Binary64 where
  bits : UInt64
  deriving DecidableEq

namespace Binary64

/-- Whether the sign bit is set. -/
def isNegative (x : Binary64) : Bool := Nat.pow 2 63 ≤ x.bits.toNat

/-- The bits below the sign: the number's size, in an order that is the order of sizes. -/
def magnitude (x : Binary64) : Nat := x.bits.toNat % Nat.pow 2 63

/-- The eleven bits of the exponent. -/
def exponentField (x : Binary64) : Nat := x.magnitude / Nat.pow 2 52

/-- The 52 bits of the fraction. -/
def fraction (x : Binary64) : Nat := x.magnitude % Nat.pow 2 52

/-- Neither infinite nor a NaN. -/
def isFinite (x : Binary64) : Bool := x.exponentField < 2047

def isNaN (x : Binary64) : Bool := x.exponentField == 2047 && x.fraction != 0

def isZero (x : Binary64) : Bool := x.magnitude == 0

/-- The integer that a finite number is a power of two times. -/
def significand (x : Binary64) : Nat :=
  if x.exponentField = 0 then x.fraction else Nat.pow 2 52 + x.fraction

/-- The power of two that goes with `significand`. -/
def scale (x : Binary64) : Int :=
  if x.exponentField = 0 then -1074 else (x.exponentField : Int) - 1075

/-- Equality of numbers: a NaN equals nothing, and the two zeros are equal. -/
def ieeeEq (x y : Binary64) : Bool :=
  !x.isNaN && !y.isNaN && (x == y || (x.isZero && y.isZero))

/-- Only a NaN differs from itself. -/
theorem ieeeEq_self (x : Binary64) : ieeeEq x x = !x.isNaN := by
  unfold ieeeEq
  rw [beq_self_eq_true]
  cases x.isNaN <;> rfl

/-! ### Special values -/

/-- The zero of the given sign. -/
def zero (negative : Bool) : Binary64 := ⟨if negative then 0x8000000000000000 else 0⟩

/-- The infinity of the given sign. -/
def infinity (negative : Bool) : Binary64 :=
  ⟨if negative then 0xFFF0000000000000 else 0x7FF0000000000000⟩

/-- The quiet NaN without a payload. -/
def nan : Binary64 := ⟨0x7FF8000000000000⟩

/-! ### Rounding -/

/-- The quotient of `num` by `den`, rounded to the nearest integer and to the
even one of two nearest. -/
def roundDiv (num den : Nat) : Nat :=
  let low := num / den
  let twice := 2 * (num % den)
  if twice < den then low
  else if den < twice then low + 1
  else if low % 2 = 0 then low else low + 1

/-- The double `± m · 2 ^ q`, for `m` of at most 53 bits, `q` at least `-1074`,
and `m` of 53 bits unless `q` is `-1074`; `none` beyond the largest double.

The bits below the sign count the doubles in order of size, so a significand
that has carried to `2 ^ 53` lands on the next power of two by itself. -/
def ofScaled? (negative : Bool) (m : Nat) (q : Int) : Option Binary64 :=
  let size := (q + 1074).toNat * Nat.pow 2 52 + m
  if size < 2047 * Nat.pow 2 52 then
    some ⟨UInt64.ofNat (if negative then Nat.pow 2 63 + size else size)⟩
  else none

/-- The power of two at which `num / den` has a significand of 53 bits, or
`-1074` for a number below the normal ones. -/
def scaleFor (num den : Nat) : Int :=
  let q : Int := (num.log2 : Int) - den.log2 - 53
  let q := if num * Nat.pow 2 (-q).toNat < Nat.pow 2 53 * (den * Nat.pow 2 q.toNat) then q else q + 1
  max q (-1074)

/-- The double nearest to `± num / den`, the even one of two nearest; `none`
if it would be infinite. -/
def round? (negative : Bool) (num den : Nat) : Option Binary64 :=
  if num = 0 then some (zero negative)
  else
    let q := scaleFor num den
    ofScaled? negative (roundDiv (num * Nat.pow 2 (-q).toNat) (den * Nat.pow 2 q.toNat)) q

/-- The double nearest to `± digits · 10 ^ exponent`; `none` if it would be
infinite. Exponents beyond every double are answered without computing the
power of ten. -/
def ofDecimal? (negative : Bool) (digits : Nat) (exponent : Int) : Option Binary64 :=
  let size := exponent + (digits.log2 : Int) / 4
  if digits = 0 then some (zero negative)
  else if 400 < size then none
  else if exponent + (digits.log2 : Int) < -400 then some (zero negative)
  else round? negative (digits * Nat.pow 10 exponent.toNat) (Nat.pow 10 (-exponent).toNat)

end Binary64
end QueryFilter
