/-
# Sources of random numbers

A source gives numerators of fractions of two to the power 53, and natural
numbers below a bound. That its draws lie in these ranges is part of being a
source, and nothing else is assumed of one, so what is built on draws is
built for every source. The Mersenne Twister is one.

Key definitions: `Source`, `Twister.bits`, `Twister.below`.
-/
import Intcode.Random.Twister

namespace Intcode

/-- A source of random numbers. -/
class Source (σ : Type) where
  /-- A fraction of one, by its numerator over two to the power 53. -/
  fraction : σ → Nat × σ
  /-- A natural number below a bound. -/
  below : Nat → σ → Nat × σ
  fraction_lt : ∀ s, (fraction s).1 < 1 <<< 53
  below_lt : ∀ {n : Nat}, 0 < n → ∀ s, (below n s).1 < n

namespace Twister

/-- A fraction of one with 53 bits: 27 of one word and then 26 of the
next. -/
def fraction (t : Twister) : Nat × Twister :=
  let (a, t) := t.next
  let (b, t) := t.next
  ((a >>> 5).toNat <<< 26 + (b >>> 6).toNat, t)

/-- Random bits in whole words, least significant first, the last word cut to
what is left. -/
def wordsOf : Nat → Nat → Twister → Nat × Twister
  | 0, _, t => (0, t)
  | n + 1, width, t =>
    let (w, t) := t.next
    if width ≤ 32 then ((w >>> UInt32.ofNat (32 - width)).toNat, t)
    else
      let (high, t) := wordsOf n (width - 32) t
      (w.toNat + high <<< 32, t)

/-- A number of `width` random bits. -/
def bits (width : Nat) (t : Twister) : Nat × Twister :=
  if width = 0 then (0, t) else wordsOf ((width + 31) / 32) width t

/-- Draws numbers of `width` bits until one is below the bound. Each draw is
below it at least every other time; after `n` that are not, the last is cut
down. -/
def tryBelow (bound width : Nat) : Nat → Twister → Nat × Twister
  | 0, t =>
    let (r, t) := t.bits width
    (r % bound, t)
  | n + 1, t =>
    let (r, t) := t.bits width
    if r < bound then (r, t) else tryBelow bound width n t

/-- The most draws that are thrown away. -/
def patience : Nat := 4096

/-- A number below a bound, drawn with as many bits as the bound has. -/
def below (bound : Nat) (t : Twister) : Nat × Twister :=
  tryBelow bound (bound.log2 + 1) patience t

theorem fraction_lt (t : Twister) : t.fraction.1 < 1 <<< 53 := by
  have shifted (w : UInt32) (k : Nat) (hk : k < 32) :
      (w >>> UInt32.ofNat k).toNat < 2 ^ (32 - k) := by
    have hw := w.toNat_lt
    rw [UInt32.toNat_shiftRight, UInt32.toNat_ofNat', Nat.mod_eq_of_lt (a := k) (by omega),
      Nat.mod_eq_of_lt hk, Nat.shiftRight_eq_div_pow]
    apply Nat.div_lt_of_lt_mul
    rw [← Nat.pow_add, Nat.add_sub_cancel' (by omega)]
    exact hw
  have ha := shifted t.next.1 5 (by decide)
  have hb := shifted t.next.2.next.1 6 (by decide)
  show (t.next.1 >>> 5).toNat <<< 26 + (t.next.2.next.1 >>> 6).toNat < 1 <<< 53
  simp only [Nat.shiftLeft_eq]
  change (t.next.1 >>> 5).toNat < 2 ^ 27 at ha
  change (t.next.2.next.1 >>> 6).toNat < 2 ^ 26 at hb
  omega

theorem tryBelow_lt {bound : Nat} (h : 0 < bound) (width n : Nat) (t : Twister) :
    (tryBelow bound width n t).1 < bound := by
  induction n generalizing t with
  | zero => exact Nat.mod_lt _ h
  | succ n ih =>
    unfold tryBelow
    dsimp only
    split
    · assumption
    · exact ih _

theorem below_lt {bound : Nat} (h : 0 < bound) (t : Twister) : (t.below bound).1 < bound :=
  tryBelow_lt h _ _ t

instance : Source Twister where
  fraction := fraction
  below := below
  fraction_lt := fraction_lt
  below_lt := below_lt

end Twister
end Intcode
