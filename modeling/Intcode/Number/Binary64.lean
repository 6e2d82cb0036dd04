/-
# Binary floating point numbers

Positive double precision numbers, exactly: a mantissa of 53 bits and a power
of two. `ofRatio` rounds a quotient of naturals to the nearest of them, a tie
to the even mantissa; products and sums are rounded likewise. Numbers outside
the normal range are not represented.

Key definitions: `roundRatio`, `Binary64`, `Binary64.ofRatio`, `Binary64.mul`,
`Binary64.bits`, `Binary64.tenths`.
Key theorem: `roundRatio_near`.
-/

namespace Intcode

/-- The natural number nearest to a quotient, a tie going to the even one. -/
def roundRatio (num den : Nat) : Nat :=
  let rest := num % den
  if 2 * rest < den then num / den
  else if den < 2 * rest then num / den + 1
  else num / den + num / den % 2

/-- Rounding is off by half a unit at most. -/
theorem roundRatio_near (num : Nat) {den : Nat} (h : 0 < den) :
    2 * num ≤ 2 * (roundRatio num den * den) + den ∧ 2 * (roundRatio num den * den) ≤ 2 * num + den := by
  have hd := Nat.div_add_mod num den
  have hm := Nat.mod_lt num h
  rw [Nat.mul_comm] at hd
  unfold roundRatio
  dsimp only
  split
  · omega
  · split
    · rw [Nat.add_mul]; omega
    · rcases Nat.mod_two_eq_zero_or_one (num / den) with he | he <;> rw [he]
      · rw [Nat.add_zero]; omega
      · rw [Nat.add_mul]; omega

/-- A positive binary floating point number, or zero: the mantissa times two
to the exponent. -/
structure Binary64 where
  mantissa : Nat
  exponent : Int
  deriving DecidableEq, Repr

namespace Binary64

/-- The number as a quotient. -/
def num (x : Binary64) : Nat := x.mantissa <<< x.exponent.toNat

/-- The divisor of the number as a quotient. -/
def den (x : Binary64) : Nat := 1 <<< (-x.exponent).toNat

/-- The number nearest to a quotient. -/
def ofRatio (num den : Nat) : Binary64 :=
  if num = 0 then ⟨0, 0⟩
  else
    let above : Int := (num.log2 : Int) - den.log2 - 52
    let scaled (e : Int) : Nat × Nat := (num <<< (-e).toNat, den <<< e.toNat)
    let exponent := if (scaled above).1 < (scaled above).2 <<< 52 then above - 1 else above
    let mantissa := roundRatio (scaled exponent).1 (scaled exponent).2
    if mantissa = 1 <<< 53 then ⟨1 <<< 52, exponent + 1⟩ else ⟨mantissa, exponent⟩

/-- The rounded product. -/
def mul (x y : Binary64) : Binary64 := ofRatio (x.num * y.num) (x.den * y.den)

/-- The rounded sum. -/
def add (x y : Binary64) : Binary64 := ofRatio (x.num * y.den + y.num * x.den) (x.den * y.den)

/-- Whether a quotient is less than the number. -/
def exceeds (x : Binary64) (num den : Nat) : Bool := num * x.den < x.num * den

/-- The number in the interchange format of 64 bits: a sign, eleven bits of
exponent and the mantissa without its leading bit. -/
def bits (x : Binary64) : Nat :=
  if x.mantissa = 0 then 0
  else (x.exponent + 1075).toNat <<< 52 + (x.mantissa - 1 <<< 52)

/-- The number rounded to tenths, a tie going to the even digit, and written
with one digit after the point. -/
def tenths (x : Binary64) : String :=
  let n := roundRatio (10 * x.num) x.den
  s!"{n / 10}.{n % 10}"

theorem bits_one : (ofRatio 1 1).bits = 0x3FF0000000000000 := by decide +kernel

theorem bits_tenth : (ofRatio 1 10).bits = 0x3FB999999999999A := by decide +kernel

end Binary64
end Intcode
