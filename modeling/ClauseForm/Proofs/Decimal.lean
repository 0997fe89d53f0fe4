import ClauseForm.Text.Decimal
import Mathlib.Data.List.Basic

/-!
Reading integers that were written in decimal.

What was written is read back between any bounds around it and zero, because reading the digits one
by one passes only through smaller numbers.
-/

namespace ClauseForm.Text

/-- A number with a minus sign, or without one. -/
def signed (negative : Bool) (n : Nat) : Int := if negative then -n else n

variable {least greatest i : Int} {negative : Bool} {cs : List Char} {n : Nat} {c : Char}

theorem le_ofDigitChars (cs : List Char) (n : Nat) : n ≤ Nat.ofDigitChars 10 cs n := by
  induction cs generalizing n with
  | nil => exact Nat.le_refl n
  | cons c cs ih =>
      rw [Nat.ofDigitChars_cons]
      have := ih (10 * n + (c.toNat - '0'.toNat))
      omega

/-- Numbers between zero and one within the bounds are within the bounds. -/
theorem signed_within {m : Nat} (hle : m ≤ n) (hleast : least ≤ 0) (hgreatest : 0 ≤ greatest)
    (hlow : least ≤ signed negative n) (hhigh : signed negative n ≤ greatest) :
    least ≤ signed negative m ∧ signed negative m ≤ greatest := by
  unfold signed at *
  split at hlow <;> simp_all <;> omega

theorem signed_digit (negative : Bool) (n : Nat) (hc : c.isDigit = true) :
    (if negative then 10 * signed negative n - ((c.toNat : Int) - ('0'.toNat : Int))
      else 10 * signed negative n + ((c.toNat : Int) - ('0'.toNat : Int))) =
      signed negative (10 * n + (c.toNat - '0'.toNat)) := by
  have hzero := (Char.isDigit_iff_toNat.mp hc).1
  unfold signed
  split <;> omega

/-- Digits are read as the number that they stand for, if it is within the bounds. -/
theorem readDigits_eq (negative : Bool) (hleast : least ≤ 0) (hgreatest : 0 ≤ greatest)
    (hdigits : ∀ c ∈ cs, c.isDigit = true)
    (hlow : least ≤ signed negative (Nat.ofDigitChars 10 cs n))
    (hhigh : signed negative (Nat.ofDigitChars 10 cs n) ≤ greatest) :
    readDigits least greatest negative cs (signed negative n) =
      .ok (signed negative (Nat.ofDigitChars 10 cs n)) := by
  induction cs generalizing n with
  | nil => rfl
  | cons c cs ih =>
      obtain ⟨hc, hcs⟩ := List.forall_mem_cons.mp hdigits
      rw [Nat.ofDigitChars_cons] at hlow hhigh ⊢
      obtain ⟨hl, hg⟩ := signed_within (le_ofDigitChars cs _) hleast hgreatest hlow hhigh
      rw [readDigits, if_pos hc]
      dsimp only
      rw [signed_digit negative n hc, if_neg (Int.not_lt.mpr hg), if_neg (Int.not_lt.mpr hl)]
      exact ih hcs hlow hhigh

theorem toList_toString_natCast (n : Nat) : (toString (n : Int)).toList = Nat.toDigits 10 n :=
  Nat.toList_repr

theorem toList_toString_negSucc (n : Nat) :
    (toString (Int.negSucc n)).toList = '-' :: Nat.toDigits 10 (n + 1) := by
  change ("-" ++ (n + 1).repr).toList = _
  rw [String.toList_append, Nat.toList_repr]
  rfl

theorem isDigit_of_mem_toDigits (n : Nat) : ∀ c ∈ Nat.toDigits 10 n, c.isDigit = true :=
  fun _ => Nat.isDigit_of_mem_toDigits (by decide) (by decide)

/-- An integer is written with a minus sign and digits. -/
theorem mem_toString {d : Char} (hd : d ∈ (toString i).toList) : d = '-' ∨ d.isDigit = true := by
  cases i with
  | ofNat n =>
      rw [Int.ofNat_eq_natCast, toList_toString_natCast] at hd
      exact Or.inr (isDigit_of_mem_toDigits n d hd)
  | negSucc n =>
      rw [toList_toString_negSucc, List.mem_cons] at hd
      exact hd.imp_right (isDigit_of_mem_toDigits (n + 1) d)

theorem toString_ne_nil (i : Int) : (toString i).toList ≠ [] := by
  cases i with
  | ofNat n =>
      rw [Int.ofNat_eq_natCast, toList_toString_natCast]
      exact Nat.toDigits_ne_nil
  | negSucc n =>
      rw [toList_toString_negSucc]
      exact List.cons_ne_nil _ _

/-- What holds for no minus sign and no digit. -/
theorem eq_false_of_part {p : Char → Bool} (hminus : p '-' = false)
    (hdigits : ∀ n < 10, p (Char.ofNat ('0'.toNat + n)) = false) {d : Char}
    (hd : d = '-' ∨ d.isDigit = true) : p d = false := by
  rcases hd with rfl | hd
  · exact hminus
  · obtain ⟨hlow, hhigh⟩ := Char.isDigit_iff_toNat.mp hd
    have hnine : '9'.toNat = '0'.toNat + 9 := rfl
    have hcode : '0'.toNat + (d.toNat - '0'.toNat) = d.toNat := by omega
    have hdigit := hdigits (d.toNat - '0'.toNat) (by omega)
    rwa [hcode, Char.ofNat_toNat] at hdigit

/-- Digits after a minus sign are read as a negative number. -/
theorem readInteger_minus (hne : cs ≠ []) :
    readInteger least greatest ('-' :: cs) = readDigits least greatest true cs 0 := by
  obtain ⟨c, cs, rfl⟩ := List.exists_cons_of_ne_nil hne
  rfl

theorem readInteger_digits (hne : cs ≠ []) (hdigits : ∀ c ∈ cs, c.isDigit = true) :
    readInteger least greatest cs = readDigits least greatest false cs 0 := by
  obtain ⟨c, cs, rfl⟩ := List.exists_cons_of_ne_nil hne
  have hc := hdigits c List.mem_cons_self
  unfold readInteger
  split <;> first | rfl | simp_all

/-- The decimal text of an integer is read as the integer. -/
theorem readInteger_toString (hleast : least ≤ 0) (hgreatest : 0 ≤ greatest) (hlow : least ≤ i)
    (hhigh : i ≤ greatest) : readInteger least greatest (toString i).toList = .ok i := by
  have read : ∀ negative n, signed negative n = i →
      readDigits least greatest negative (Nat.toDigits 10 n) 0 = .ok i := by
    rintro negative n rfl
    have hread := readDigits_eq (n := 0) negative hleast hgreatest
      (isDigit_of_mem_toDigits n)
    rw [Nat.ofDigitChars_ten_toDigits] at hread
    cases negative <;> exact hread hlow hhigh
  cases i with
  | ofNat n =>
      rw [Int.ofNat_eq_natCast, toList_toString_natCast,
        readInteger_digits Nat.toDigits_ne_nil (isDigit_of_mem_toDigits n)]
      exact read false n rfl
  | negSucc n =>
      rw [toList_toString_negSucc, readInteger_minus Nat.toDigits_ne_nil]
      exact read true (n + 1) rfl

/-- Only integers within the bounds are read. -/
theorem within_of_readDigits {v : Int} (hv : least ≤ v ∧ v ≤ greatest)
    (h : readDigits least greatest negative cs v = .ok i) : least ≤ i ∧ i ≤ greatest := by
  induction cs generalizing v with
  | nil => exact Except.ok.inj h ▸ hv
  | cons c cs ih =>
      rw [readDigits] at h
      split at h
      · dsimp only at h
        generalize (if negative = true then 10 * v - ((c.toNat : Int) - ('0'.toNat : Int))
          else 10 * v + ((c.toNat : Int) - ('0'.toNat : Int))) = next at h
        split at h
        · contradiction
        · next hhigh =>
            split at h
            · contradiction
            · next hlow => exact ih ⟨Int.not_lt.mp hlow, Int.not_lt.mp hhigh⟩ h
      · contradiction

theorem within_of_readInteger (hleast : least ≤ 0) (hgreatest : 0 ≤ greatest)
    (h : readInteger least greatest cs = .ok i) : least ≤ i ∧ i ≤ greatest := by
  unfold readInteger at h
  split at h <;> first | contradiction | exact within_of_readDigits ⟨hleast, hgreatest⟩ h

end ClauseForm.Text
