/-!
Pseudo-random numbers.

A generator steps through all 64-bit states and scrambles each by a multiplication of 128 bits.
Numbers below a bound are taken from the high half of a product, where products with too small a low
half are drawn again, so that all results are equally likely.  `nextBelow_lt` and
`natAbs_nextAround_le` give their ranges.
-/

namespace ClauseForm.Random

/-- The state of a generator. -/
structure Generator where
  state : UInt64
deriving DecidableEq

/-- Computations that draw random numbers. -/
abbrev Draw := StateM Generator

/-- The number of words of 64 bits, and so of states.  No number is drawn again more often than once
for each state. -/
def words64 : Nat := 18446744073709551616

/-- The number of words of 32 bits. -/
def words32 : Nat := 4294967296

/-- The next 64 random bits. -/
def nextBits : Draw UInt64 := do
  let s := (← get).state + 0x2d358dccaa6c78a5
  set (Generator.mk s)
  let t := s.toNat * (s ^^^ 0x8bb84b93962eacc9).toNat
  return t.toUInt64 ^^^ (t >>> 64).toUInt64

/-- A random truth value. -/
def nextBool : Draw Bool := do
  return (← nextBits) % 2 == 0

/-- Draws a fraction until it is below one; `tries` bounds the number of further draws. -/
def unitFraction : Nat → Draw Float32
  | 0 => return 0
  | tries + 1 => do
    let x := ((← nextBits) >>> 1).toFloat32 / 9223372036854775808
    if x < 1 then return x else unitFraction tries

/-- A random number from zero up to one, without one. -/
def nextUnit : Draw Float32 := unitFraction words64

/-- The high half of the product of a random word and a bound, once its low half is at least
`least`; `tries` bounds the number of further draws. -/
def highHalf (words bound least : Nat) : Nat → Nat → Draw Nat
  | _, 0 => return 0
  | bits, tries + 1 => do
    let product := bits % words * bound
    if product % words < least then
      highHalf words bound least (← nextBits).toNat tries
    else
      return product / words

/-- A random number below a positive bound, from random words of which there are `words` many. -/
def nextBelow (words bound : Nat) : Draw Nat := do
  highHalf words bound ((words - bound) % bound) (← nextBits).toNat words64

/-- A random integer between the negation of a bound and the bound. -/
def nextAround (bound : Nat) : Draw Int := do
  let n ← nextBelow words64 (2 * bound + 1)
  return (n : Int) - bound

/-- The high half of a product is below the other factor. -/
theorem highHalf_lt {words bound : Nat} (least : Nat) (hwords : 0 < words) (hbound : 0 < bound)
    (tries bits : Nat) (g : Generator) :
    ((highHalf words bound least bits tries).run g).1 < bound := by
  induction tries generalizing bits g with
  | zero => exact hbound
  | succ tries ih =>
    rw [highHalf]
    split
    · rw [StateT.run_bind]
      generalize nextBits.run g = drawn
      exact ih _ _
    · have small : bits % words < words := Nat.mod_lt _ hwords
      exact Nat.div_lt_of_lt_mul (Nat.mul_lt_mul_of_pos_right small hbound)

/-- A number that is drawn below a bound is below it. -/
theorem nextBelow_lt {words bound : Nat} (hwords : 0 < words) (hbound : 0 < bound)
    (g : Generator) : ((nextBelow words bound).run g).1 < bound := by
  rw [nextBelow, StateT.run_bind]
  generalize nextBits.run g = drawn
  exact highHalf_lt _ hwords hbound _ _ _

/-- An integer that is drawn around zero is within the bound. -/
theorem natAbs_nextAround_le (bound : Nat) (g : Generator) :
    ((nextAround bound).run g).1.natAbs ≤ bound := by
  have below := nextBelow_lt (show 0 < words64 by decide) (show 0 < 2 * bound + 1 by omega) g
  rw [nextAround, StateT.run_bind]
  generalize (nextBelow words64 (2 * bound + 1)).run g = drawn at below ⊢
  change ((drawn.1 : Int) - bound).natAbs ≤ bound
  omega

end ClauseForm.Random
