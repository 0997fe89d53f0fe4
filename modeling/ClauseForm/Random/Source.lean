import ClauseForm.Random.Generator

/-!
Where random values are drawn from.

Random formulas need nothing of a source but that the values of a range are in the range.
-/

namespace ClauseForm.Random

/-- A source of random values, which has a state. -/
structure Source (σ : Type) where
  /-- A truth value. -/
  bool : StateM σ Bool
  /-- A share, from zero up to one. -/
  share : StateM σ Float32
  /-- A position in a list of some length. -/
  position : Nat → StateM σ Nat
  /-- A number from one up to another, without the latter. -/
  between : Nat → Nat → StateM σ Nat
  /-- An integer between the negation of a bound and the bound. -/
  around : Nat → StateM σ Int

/-- The values of every range that is not empty are in the range. -/
structure Source.InRange {σ : Type} (source : Source σ) : Prop where
  position_lt {length : Nat} (hlength : 0 < length) (s : σ) :
    ((source.position length).run s).1 < length
  le_between {low high : Nat} (hrange : low < high) (s : σ) :
    low ≤ ((source.between low high).run s).1
  between_lt {low high : Nat} (hrange : low < high) (s : σ) :
    ((source.between low high).run s).1 < high
  natAbs_around_le (bound : Nat) (s : σ) : ((source.around bound).run s).1.natAbs ≤ bound

/-- The generator as a source. -/
def Generator.source : Source Generator where
  bool := nextBool
  share := nextUnit
  position := nextBelow words64
  between low high := do return low + (← nextBelow words32 (high - low))
  around := nextAround

theorem Generator.run_between (low high : Nat) (g : Generator) :
    ((source.between low high).run g).1 = low + ((nextBelow words32 (high - low)).run g).1 := by
  rw [source, StateT.run_bind]
  generalize (nextBelow words32 (high - low)).run g = drawn
  rfl

/-- The generator keeps to the ranges. -/
theorem Generator.inRange_source : source.InRange where
  position_lt hlength := nextBelow_lt (by decide) hlength
  le_between _ g := by
    rw [run_between]
    exact Nat.le_add_right ..
  between_lt {low high} hrange g := by
    have below := nextBelow_lt (show 0 < words32 by decide) (show 0 < high - low by omega) g
    rw [run_between]
    omega
  natAbs_around_le := natAbs_nextAround_le

end ClauseForm.Random
