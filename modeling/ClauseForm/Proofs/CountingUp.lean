import ClauseForm.Proofs.Valuations

/-!
Counting up in place.

One step of the counter takes the valuation of a number to that of the next one, and it stops at the
number whose digits are all one.  So a sweep that starts where the free indices are false visits the
valuations of all numbers with as many digits as there are free indices, by increasing number.

Assumptions that are made one after another fail exactly if two of them have the same index and
different signs.  Otherwise they fix the indices that they have, and the others are false.
-/

namespace ClauseForm

namespace Valuation

variable {v : Valuation} {free : List Nat} {index number : Nat}

/-- An index that is not free may as well be set first. -/
theorem setIfInBounds_numbered (hnew : index ∉ free) (b : Bool) :
    (numbered free number v).setIfInBounds index b =
      numbered free number (v.setIfInBounds index b) := by
  induction free generalizing number v with
  | nil => rfl
  | cons other free ih =>
      have hne := List.ne_of_not_mem_cons hnew
      rw [numbered, numbered, ih (List.not_mem_of_not_mem_cons hnew),
        Array.setIfInBounds_comm _ _ (Ne.symm hne)]

theorem numbered_zero (hclear : ∀ i ∈ free, v.value i = false) : numbered free 0 v = v := by
  induction free with
  | nil => rfl
  | cons index free ih =>
      obtain ⟨hindex, hclear⟩ := List.forall_mem_cons.mp hclear
      rw [value, Array.getD_eq_getD_getElem?] at hindex
      have hsame : v.setIfInBounds index false = v := by
        apply Array.ext (by simp)
        grind
      rw [numbered]
      exact (congrArg _ hsame).trans (ih hclear)

/-- Counting up takes the valuation of a number to that of the next one.  There is a next one unless
all digits are one. -/
theorem increment_numbered (hnodup : free.Nodup) (hinside : ∀ i ∈ free, i < v.size)
    (hnumber : number < 2 ^ free.length) :
    increment free (numbered free number v) =
      (decide (number + 1 < 2 ^ free.length), numbered free (number + 1) v) := by
  induction free generalizing number v with
  | nil =>
      have hlast : ¬ number + 1 < 2 ^ ([] : List Nat).length := by simp
      rw [decide_eq_false hlast]
      rfl
  | cons index free ih =>
      obtain ⟨hnew, hnodup⟩ := List.nodup_cons.mp hnodup
      obtain ⟨hindex, hinside⟩ := List.forall_mem_cons.mp hinside
      have hinside' : ∀ b, ∀ i ∈ free, i < (v.setIfInBounds index b).size := by simpa using hinside
      have hdigit : (numbered (index :: free) number v).value index = (number % 2 == 1) := by
        rw [numbered, value_numbered_of_not_mem (hinside' _) hnew, value_setIfInBounds _ hindex,
          if_pos rfl]
      have hset : ∀ b, (numbered (index :: free) number v).setIfInBounds index b =
          numbered free (number / 2) (v.setIfInBounds index b) := by
        intro b
        rw [numbered, setIfInBounds_numbered hnew, Array.setIfInBounds_setIfInBounds]
      rw [List.length_cons, Nat.pow_succ] at hnumber
      rw [increment, hdigit, hset, hset, List.length_cons, Nat.pow_succ, numbered]
      rcases Nat.mod_two_eq_zero_or_one number with heven | hodd
      · have hhalf : (number + 1) / 2 = number / 2 := by omega
        have hlow : (number + 1) % 2 = 1 := by omega
        have hmore : number + 1 < 2 ^ free.length * 2 := by omega
        rw [heven, hhalf, hlow, decide_eq_true hmore]
        rfl
      · -- the digit is carried over to the rest, where the number is half as large
        have hhalf : (number + 1) / 2 = number / 2 + 1 := by omega
        have hlow : (number + 1) % 2 = 0 := by omega
        have hmore : number / 2 + 1 < 2 ^ free.length ↔ number + 1 < 2 ^ free.length * 2 := by omega
        rw [hodd, hhalf, hlow, ← decide_eq_decide.mpr hmore]
        exact ih hnodup (hinside' _) (by omega)

end Valuation

namespace Counter

variable {c : Counter} {number : Nat}

/-- A counter at the valuation of a number. -/
def counted (c : Counter) (number : Nat) : Counter :=
  { c with
    values := .numbered c.free number c.values
    inside := by simpa using c.inside }

theorem increment_counted (c : Counter) (hnumber : number < 2 ^ c.free.length) :
    (c.counted number).increment =
      (decide (number + 1 < 2 ^ c.free.length), c.counted (number + 1)) := by
  have hcounted := Valuation.increment_numbered c.nodup c.inside hnumber
  simp only [increment, counted, hcounted]

variable {m : Type → Type} [Monad m]

/-- From the valuation of a number on, a sweep visits one valuation for each number up to the last
one. -/
theorem sweep_counted (c : Counter) (visit : Valuation → m Unit) {count : Nat}
    (hcount : number + (count + 1) = 2 ^ c.free.length) :
    (c.counted number).sweep visit =
      (List.range' number (count + 1)).forM fun k => visit (.numbered c.free k c.values) := by
  induction count generalizing number with
  | zero =>
      have hnumber : number < 2 ^ c.free.length := by omega
      have hlast : ¬ number + 1 < 2 ^ c.free.length := by omega
      have hcounted := c.increment_counted hnumber
      rw [sweep, hcounted, dif_neg (by simpa using hlast)]
      rfl
  | succ count ih =>
      have hmore : number + 1 < 2 ^ c.free.length := by omega
      have hcounted := c.increment_counted (Nat.lt_of_succ_lt hmore)
      rw [sweep, hcounted, dif_pos (by simpa using hmore), ih (by omega)]
      rfl

/-- A sweep that starts where the free indices are false visits one valuation for each number with
as many binary digits as there are free indices, by increasing number. -/
theorem sweep_eq_forM (visit : Valuation → m Unit) (hclear : ∀ i ∈ c.free, c.values.value i = false) :
    c.sweep visit =
      (List.range (2 ^ c.free.length)).forM fun k => visit (.numbered c.free k c.values) := by
  have hstart : c.counted 0 = c := by simp [counted, Valuation.numbered_zero hclear]
  obtain ⟨count, hcount⟩ := Nat.exists_eq_succ_of_ne_zero (Nat.two_pow_pos c.free.length).ne'
  have hsweep := c.sweep_counted visit (show 0 + (count + 1) = 2 ^ c.free.length by omega)
  rwa [hstart, ← Nat.succ_eq_add_one, ← hcount, ← List.range_eq_range'] at hsweep

end Counter

namespace Assumed

variable {s t : Assumed} {ls : List Int} {l : Int} {bound : Nat}

/-- Two literals of a list have the same index and different signs. -/
def Clash (ls : List Int) : Prop :=
  ∃ l ∈ ls, ∃ k ∈ ls, l.natAbs = k.natAbs ∧ decide (0 < l) ≠ decide (0 < k)

theorem clash_cons : Clash (l :: ls) ↔
    (∃ k ∈ ls, l.natAbs = k.natAbs ∧ decide (0 < l) ≠ decide (0 < k)) ∨ Clash ls := by
  constructor
  · rintro ⟨j, hj, k, hk, hindex, hsign⟩
    rcases List.mem_cons.mp hj with rfl | hj' <;> rcases List.mem_cons.mp hk with rfl | hk'
    · exact absurd rfl hsign
    · exact .inl ⟨k, hk', hindex, hsign⟩
    · exact .inl ⟨j, hj', hindex.symm, hsign.symm⟩
    · exact .inr ⟨j, hj', k, hk', hindex, hsign⟩
  · rintro (⟨k, hk, hclash⟩ | ⟨j, hj, k, hk, hclash⟩)
    · exact ⟨l, List.mem_cons_self, k, List.mem_cons_of_mem l hk, hclash⟩
    · exact ⟨j, List.mem_cons_of_mem l hj, k, List.mem_cons_of_mem l hk, hclash⟩

/-- There is one truth value for each index below a bound, and it is false unless it is assumed. -/
structure Fits (s : Assumed) (bound : Nat) : Prop where
  size_indices : s.indices.size = bound
  size_values : s.values.size = bound
  assumed_of_true : ∀ index, s.values.value index = true → s.fixes index = true

@[simp]
theorem fixes_empty (bound index : Nat) : (empty bound).fixes index = false := by
  simp only [fixes, empty, Array.getD_eq_getD_getElem?, Array.getElem?_replicate]
  split <;> rfl

@[simp]
theorem value_empty (bound index : Nat) : (empty bound).values.value index = false :=
  fixes_empty bound index

theorem fits_empty (bound : Nat) : (empty bound).Fits bound where
  size_indices := Array.size_replicate
  size_values := Array.size_replicate
  assumed_of_true := by simp

theorem Fits.fixes_add (hs : s.Fits bound) (hl : l.natAbs < bound) (index : Nat) :
    (s.add l).fixes index = (l.natAbs == index || s.fixes index) := by
  have hindex : l.natAbs < s.indices.size := hs.size_indices ▸ hl
  refine (Valuation.value_setIfInBounds true hindex index).trans ?_
  by_cases hsame : l.natAbs = index <;> simp [hsame, Valuation.value, fixes]

theorem Fits.value_add (hs : s.Fits bound) (hl : l.natAbs < bound) (index : Nat) :
    (s.add l).values.value index =
      if l.natAbs = index then decide (0 < l) else s.values.value index :=
  Valuation.value_setIfInBounds _ (hs.size_values ▸ hl) index

theorem Fits.add (hs : s.Fits bound) (hl : l.natAbs < bound) : (s.add l).Fits bound where
  size_indices := by simp [Assumed.add, hs.size_indices]
  size_values := by simp [Assumed.add, hs.size_values]
  assumed_of_true := by
    intro index htrue
    rw [hs.value_add hl] at htrue
    rw [hs.fixes_add hl]
    split at htrue
    · next hsame => simp [hsame]
    · rw [hs.assumed_of_true index htrue, Bool.or_true]

theorem Fits.foldl_add (hs : s.Fits bound) (hls : ∀ l ∈ ls, l.natAbs < bound) :
    (ls.foldl Assumed.add s).Fits bound := by
  induction ls generalizing s with
  | nil => exact hs
  | cons l ls ih =>
      obtain ⟨hl, hls⟩ := List.forall_mem_cons.mp hls
      exact ih (hs.add hl) hls

theorem values_foldl_add (ls : List Int) (s : Assumed) :
    (ls.foldl add s).values =
      ls.foldl (fun v l => v.setIfInBounds l.natAbs (decide (0 < l))) s.values := by
  induction ls generalizing s with
  | nil => rfl
  | cons l ls ih => exact ih (s.add l)

/-- The indices that are assumed after some literals are theirs and those from before. -/
theorem Fits.fixes_foldl_add (hs : s.Fits bound) (hls : ∀ l ∈ ls, l.natAbs < bound)
    (index : Nat) :
    (ls.foldl Assumed.add s).fixes index =
      (ls.any (fun l => l.natAbs == index) || s.fixes index) := by
  induction ls generalizing s with
  | nil => rfl
  | cons l ls ih =>
      obtain ⟨hl, hls⟩ := List.forall_mem_cons.mp hls
      rw [List.foldl_cons, ih (hs.add hl) hls, hs.fixes_add hl, List.any_cons, Bool.or_assoc,
        Bool.or_left_comm]

/-- After a literal was assumed, it contradicts its opposite, and other indices are as before. -/
theorem Fits.contradicts_add (hs : s.Fits bound) (hl : l.natAbs < bound) (k : Int) :
    (s.add l).contradicts k =
      if l.natAbs = k.natAbs then decide (0 < l) != decide (0 < k) else s.contradicts k := by
  rw [contradicts, hs.fixes_add hl, hs.value_add hl]
  by_cases hsame : l.natAbs = k.natAbs
  · simp [hsame]
  · rw [if_neg hsame, if_neg hsame, beq_false_of_ne hsame, Bool.false_or]
    rfl

theorem contradicts_congr {k : Int} (hindex : l.natAbs = k.natAbs)
    (hsign : decide (0 < l) = decide (0 < k)) : s.contradicts l = s.contradicts k := by
  rw [contradicts, contradicts, hindex, hsign]

/-- Literals can not be assumed exactly if the opposite of one of them is assumed already, or two of
them clash. -/
theorem Fits.addAll?_eq_none_iff (hs : s.Fits bound) (hls : ∀ l ∈ ls, l.natAbs < bound) :
    s.addAll? ls = none ↔ (∃ l ∈ ls, s.contradicts l = true) ∨ Clash ls := by
  induction ls generalizing s with
  | nil => simp [addAll?, Clash]
  | cons l ls ih =>
      obtain ⟨hl, hls⟩ := List.forall_mem_cons.mp hls
      rw [addAll?]
      by_cases hcontradicts : s.contradicts l = true
      · rw [if_pos hcontradicts]
        exact iff_of_true rfl (.inl ⟨l, List.mem_cons_self, hcontradicts⟩)
      · rw [if_neg hcontradicts, ih (hs.add hl) hls, clash_cons]
        simp only [hs.contradicts_add hl]
        constructor
        · rintro (⟨k, hk, hfixed⟩ | hclash)
          · split at hfixed
            · next hindex => exact .inr (.inl ⟨k, hk, hindex, bne_iff_ne.mp hfixed⟩)
            · exact .inl ⟨k, List.mem_cons_of_mem l hk, hfixed⟩
          · exact .inr (.inr hclash)
        · rintro (⟨k, hk, hfixed⟩ | ⟨k, hk, hindex, hsign⟩ | hclash)
          · rcases List.mem_cons.mp hk with rfl | hk'
            · contradiction
            · refine .inl ⟨k, hk', ?_⟩
              split
              · next hindex =>
                  refine bne_iff_ne.mpr fun hsign => hcontradicts ?_
                  rwa [contradicts_congr hindex hsign]
              · exact hfixed
          · exact .inl ⟨k, hk, by rwa [if_pos hindex, bne_iff_ne]⟩
          · exact .inr hclash

theorem addAll?_eq_some (h : s.addAll? ls = some t) : t = ls.foldl add s := by
  induction ls generalizing s with
  | nil => exact (Option.some.inj h).symm
  | cons l ls ih =>
      rw [addAll?] at h
      split at h
      · contradiction
      · exact ih h

/-- The indices that are free after some literals were assumed are false. -/
theorem Fits.clear_of_addAll? (hs : s.Fits bound) (hls : ∀ l ∈ ls, l.natAbs < bound)
    (h : s.addAll? ls = some t) : ∀ index ∈ t.free, t.values.value index = false := by
  obtain rfl := addAll?_eq_some h
  intro index hfree
  have hassumed := (hs.foldl_add hls).assumed_of_true index
  simp only [free, List.mem_filter, Bool.not_eq_true'] at hfree
  rw [hfree.2] at hassumed
  exact Bool.eq_false_iff.mpr fun htrue => Bool.false_ne_true (hassumed htrue)

end Assumed

end ClauseForm
