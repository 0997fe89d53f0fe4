import Mathlib.Data.List.Basic
import Mathlib.Data.List.TakeWhile

/-!
Parsing expressions, and what they make of a text.

A parsing expression matches at the front of a text or fails there.  The second alternative of a
choice counts only where the first one fails, a repetition goes on as long as it can, and neither is
looked at again because of what follows.  `Parses.unique` says that there is at most one outcome,
and the lemmas on `Settles` that there is one for expressions whose rules do not call each other at
the same place without end.
-/

namespace ClauseForm

/-- A parsing expression over some rules. -/
inductive Peg (R : Type) where
  | empty
  /-- A single character of a class. -/
  | char (p : Char → Bool)
  | text (s : String)
  | rule (r : R)
  | seq (a b : Peg R)
  /-- The second alternative is for where the first one fails. -/
  | choice (a b : Peg R)
  | many (a : Peg R)
  /-- Matches nothing where an expression fails, and fails where that matches. -/
  | not (a : Peg R)

/-- A rule that matched, with the text that it matched and the rules that matched inside. -/
inductive ParseTree (R : Type) where
  | node (rule : R) (text : String) (children : List (ParseTree R))

namespace ParseTree

variable {R : Type}

/-- The rule at the root. -/
def rule : ParseTree R → R
  | node r _ _ => r

/-- The text of the whole tree. -/
def text : ParseTree R → String
  | node _ s _ => s

/-- The trees right below the root. -/
def children : ParseTree R → List (ParseTree R)
  | node _ _ ts => ts

end ParseTree

namespace Peg

variable {R : Type}

/-- What comes of an expression at the front of a text: trees and the text behind them, or
failure. -/
abbrev Outcome (R : Type) := Option (List (ParseTree R) × List Char)

/-- The outcome of an expression, for the bodies of the rules. -/
inductive Parses (body : R → Peg R) : Peg R → List Char → Outcome R → Prop where
  | empty {cs : List Char} : Parses body .empty cs (some ([], cs))
  | char {p : Char → Bool} {c : Char} {cs : List Char} :
      p c = true → Parses body (.char p) (c :: cs) (some ([], cs))
  | char_fails {p : Char → Bool} {cs : List Char} :
      (∀ c ∈ cs.head?, p c = false) → Parses body (.char p) cs none
  | text {s : String} {cs rest : List Char} :
      cs = s.toList ++ rest → Parses body (.text s) cs (some ([], rest))
  | text_fails {s : String} {cs : List Char} :
      ¬ s.toList <+: cs → Parses body (.text s) cs none
  | rule {r : R} {cs front rest : List Char} {ts : List (ParseTree R)} :
      Parses body (body r) cs (some (ts, rest)) → cs = front ++ rest →
      Parses body (.rule r) cs (some ([.node r (String.ofList front) ts], rest))
  | rule_fails {r : R} {cs : List Char} :
      Parses body (body r) cs none → Parses body (.rule r) cs none
  | seq {a b : Peg R} {cs mid rest : List Char} {ts us : List (ParseTree R)} :
      Parses body a cs (some (ts, mid)) → Parses body b mid (some (us, rest)) →
      Parses body (.seq a b) cs (some (ts ++ us, rest))
  | seq_fails {a b : Peg R} {cs : List Char} :
      Parses body a cs none → Parses body (.seq a b) cs none
  | seq_fails_behind {a b : Peg R} {cs mid : List Char} {ts : List (ParseTree R)} :
      Parses body a cs (some (ts, mid)) → Parses body b mid none →
      Parses body (.seq a b) cs none
  | first {a b : Peg R} {cs rest : List Char} {ts : List (ParseTree R)} :
      Parses body a cs (some (ts, rest)) → Parses body (.choice a b) cs (some (ts, rest))
  | second {a b : Peg R} {cs : List Char} {o : Outcome R} :
      Parses body a cs none → Parses body b cs o → Parses body (.choice a b) cs o
  | stop {a : Peg R} {cs : List Char} :
      Parses body a cs none → Parses body (.many a) cs (some ([], cs))
  | step {a : Peg R} {cs mid rest : List Char} {ts us : List (ParseTree R)} :
      Parses body a cs (some (ts, mid)) → Parses body (.many a) mid (some (us, rest)) →
      Parses body (.many a) cs (some (ts ++ us, rest))
  | not {a : Peg R} {cs : List Char} :
      Parses body a cs none → Parses body (.not a) cs (some ([], cs))
  | not_fails {a : Peg R} {cs rest : List Char} {ts : List (ParseTree R)} :
      Parses body a cs (some (ts, rest)) → Parses body (.not a) cs none

variable {body : R → Peg R} {a b e : Peg R} {r : R} {p : Char → Bool} {s : String}
  {cs rest : List Char} {ts : List (ParseTree R)} {o : Outcome R}

/-- What an expression matches stands at the front of the text. -/
theorem Parses.suffix (h : Parses body e cs (some (ts, rest))) : rest <:+ cs := by
  generalize ho : some (ts, rest) = o at h
  induction h generalizing ts rest with
  | empty | stop | not =>
      cases ho
      exact List.suffix_rfl
  | char =>
      cases ho
      exact List.suffix_cons _ _
  | text hcs =>
      cases ho
      exact ⟨_, hcs.symm⟩
  | rule _ hcs =>
      cases ho
      exact ⟨_, hcs.symm⟩
  | seq _ _ iha ihb | step _ _ iha ihb =>
      cases ho
      exact (ihb rfl).trans (iha rfl)
  | first _ ih => exact ih ho
  | second _ _ _ ih => exact ih ho
  | char_fails | text_fails | rule_fails | seq_fails | seq_fails_behind | not_fails => cases ho

theorem Parses.length_le (h : Parses body e cs (some (ts, rest))) : rest.length ≤ cs.length :=
  h.suffix.length_le

/-- A rule matches where its body does. -/
theorem Parses.exists_rule (h : Parses body (body r) cs (some (ts, rest))) :
    ∃ tree, Parses body (.rule r) cs (some ([tree], rest)) := by
  obtain ⟨front, hfront⟩ := h.suffix
  exact ⟨_, .rule h hfront.symm⟩

/-- An expression has at most one outcome. -/
theorem Parses.unique (h : Parses body e cs o) {o' : Outcome R} (h' : Parses body e cs o') :
    o = o' := by
  induction h generalizing o' with
  | empty =>
      cases h'
      rfl
  | char hc =>
      cases h' with
      | char => rfl
      | char_fails hnone => simp [hnone _ rfl] at hc
  | char_fails hnone =>
      cases h' with
      | char hc => simp [hnone _ rfl] at hc
      | char_fails => rfl
  | text hcs =>
      cases h' with
      | text hcs' => rw [List.append_cancel_left (hcs.symm.trans hcs')]
      | text_fails hnone => exact absurd ⟨_, hcs.symm⟩ hnone
  | text_fails hnone =>
      cases h' with
      | text hcs => exact absurd ⟨_, hcs.symm⟩ hnone
      | text_fails => rfl
  | rule hbody hcs ih =>
      cases h' with
      | rule hbody' hcs' =>
          obtain ⟨rfl, rfl⟩ := Prod.mk.inj (Option.some.inj (ih hbody'))
          rw [List.append_cancel_right (hcs.symm.trans hcs')]
      | rule_fails hbody' => cases ih hbody'
  | rule_fails hbody ih =>
      cases h' with
      | rule hbody' => cases ih hbody'
      | rule_fails => rfl
  | seq ha hb iha ihb =>
      cases h' with
      | seq ha' hb' =>
          obtain ⟨rfl, rfl⟩ := Prod.mk.inj (Option.some.inj (iha ha'))
          obtain ⟨rfl, rfl⟩ := Prod.mk.inj (Option.some.inj (ihb hb'))
          rfl
      | seq_fails ha' => cases iha ha'
      | seq_fails_behind ha' hb' =>
          obtain ⟨rfl, rfl⟩ := Prod.mk.inj (Option.some.inj (iha ha'))
          cases ihb hb'
  | seq_fails ha iha =>
      cases h' with
      | seq ha' => cases iha ha'
      | seq_fails | seq_fails_behind => rfl
  | seq_fails_behind ha hb iha ihb =>
      cases h' with
      | seq ha' hb' =>
          obtain ⟨rfl, rfl⟩ := Prod.mk.inj (Option.some.inj (iha ha'))
          cases ihb hb'
      | seq_fails | seq_fails_behind => rfl
  | first ha iha =>
      cases h' with
      | first ha' => exact iha ha'
      | second ha' => cases iha ha'
  | second ha hb iha ihb =>
      cases h' with
      | first ha' => cases iha ha'
      | second _ hb' => exact ihb hb'
  | stop ha iha =>
      cases h' with
      | stop => rfl
      | step ha' => cases iha ha'
  | step ha hmany iha ihmany =>
      cases h' with
      | stop ha' => cases iha ha'
      | step ha' hmany' =>
          obtain ⟨rfl, rfl⟩ := Prod.mk.inj (Option.some.inj (iha ha'))
          obtain ⟨rfl, rfl⟩ := Prod.mk.inj (Option.some.inj (ihmany hmany'))
          rfl
  | not ha iha =>
      cases h' with
      | not => rfl
      | not_fails ha' => cases iha ha'
  | not_fails ha iha =>
      cases h' with
      | not ha' => cases iha ha'
      | not_fails => rfl

/-! ### Matches taken apart -/

theorem parses_empty_iff : Parses body .empty cs o ↔ o = some ([], cs) := by
  refine ⟨fun h => (Parses.unique .empty h).symm, ?_⟩
  rintro rfl
  exact .empty

theorem parses_text_iff : Parses body (.text s) cs (some (ts, rest)) ↔
    ts = [] ∧ cs = s.toList ++ rest := by
  constructor
  · intro h
    cases h with
    | text hcs => exact ⟨rfl, hcs⟩
  · rintro ⟨rfl, hcs⟩
    exact .text hcs

theorem parses_char_iff : Parses body (.char p) cs (some (ts, rest)) ↔
    ts = [] ∧ ∃ c, p c = true ∧ cs = c :: rest := by
  constructor
  · intro h
    cases h with
    | char hc => exact ⟨rfl, _, hc, rfl⟩
  · rintro ⟨rfl, c, hc, rfl⟩
    exact .char hc

theorem parses_rule_iff : Parses body (.rule r) cs (some (ts, rest)) ↔
    ∃ us front, Parses body (body r) cs (some (us, rest)) ∧ cs = front ++ rest ∧
      ts = [.node r (String.ofList front) us] := by
  constructor
  · intro h
    cases h with
    | rule hbody hcs => exact ⟨_, _, hbody, hcs, rfl⟩
  · rintro ⟨us, front, h, hcs, rfl⟩
    exact .rule h hcs

theorem parses_seq_iff : Parses body (.seq a b) cs (some (ts, rest)) ↔
    ∃ us mid vs, Parses body a cs (some (us, mid)) ∧ Parses body b mid (some (vs, rest)) ∧
      ts = us ++ vs := by
  constructor
  · intro h
    cases h with
    | seq ha hb => exact ⟨_, _, _, ha, hb, rfl⟩
  · rintro ⟨us, mid, vs, ha, hb, rfl⟩
    exact .seq ha hb

theorem parses_choice_iff : Parses body (.choice a b) cs (some (ts, rest)) ↔
    Parses body a cs (some (ts, rest)) ∨
      Parses body a cs none ∧ Parses body b cs (some (ts, rest)) := by
  constructor
  · intro h
    cases h with
    | first ha => exact Or.inl ha
    | second ha hb => exact Or.inr ⟨ha, hb⟩
  · rintro (ha | ⟨ha, hb⟩)
    · exact .first ha
    · exact .second ha hb

theorem parses_not_iff : Parses body (.not a) cs (some (ts, rest)) ↔
    Parses body a cs none ∧ ts = [] ∧ rest = cs := by
  constructor
  · intro h
    cases h with
    | not ha => exact ⟨ha, rfl, rfl⟩
  · rintro ⟨ha, rfl, rfl⟩
    exact .not ha

/-- What holds of no repetition, and is kept by one more in front, holds of all repetitions. -/
theorem many_induction {q : List Char → List (ParseTree R) → List Char → Prop}
    (hstop : ∀ cs, q cs [] cs)
    (hstep : ∀ cs us mid vs rest, Parses body a cs (some (us, mid)) → q mid vs rest →
      q cs (us ++ vs) rest)
    (h : Parses body (.many a) cs (some (ts, rest))) : q cs ts rest := by
  generalize he : Peg.many a = e at h
  generalize ho : some (ts, rest) = o at h
  induction h generalizing ts rest with
  | stop =>
      cases ho
      exact hstop _
  | step ha _ _ ih =>
      cases he
      cases ho
      exact hstep _ _ _ _ _ ha (ih rfl rfl)
  | _ => cases he

/-- A repetition of a class takes all characters of the class at the front. -/
theorem parses_many_char (p : Char → Bool) (cs : List Char) :
    Parses body (.many (.char p)) cs (some ([], cs.dropWhile p)) := by
  induction cs with
  | nil => exact .stop (.char_fails (by simp))
  | cons c cs ih =>
      by_cases hc : p c = true
      · rw [List.dropWhile_cons_of_pos hc]
        exact .step (.char hc) ih
      · rw [List.dropWhile_cons_of_neg hc]
        exact .stop (.char_fails (by simpa using hc))

/-! ### Outcomes exist -/

/-- An expression has an outcome at the front of every text up to some length. -/
def Settles (body : R → Peg R) (n : Nat) (e : Peg R) : Prop :=
  ∀ cs : List Char, cs.length ≤ n → ∃ o, Parses body e cs o

/-- Whatever an expression matches has at least one character. -/
def Advances (body : R → Peg R) (e : Peg R) : Prop :=
  ∀ cs ts rest, Parses body e cs (some (ts, rest)) → rest.length < cs.length

variable {n : Nat}

theorem settles_empty : Settles body n .empty := fun _ _ => ⟨_, .empty⟩

theorem settles_char (p : Char → Bool) : Settles body n (.char p) := by
  intro cs _
  by_cases h : ∀ c ∈ cs.head?, p c = false
  · exact ⟨_, .char_fails h⟩
  · cases cs with
    | nil => simp at h
    | cons c cs => exact ⟨_, .char (by simpa using h)⟩

theorem settles_text (s : String) : Settles body n (.text s) := by
  intro cs _
  by_cases h : s.toList <+: cs
  · obtain ⟨rest, rfl⟩ := h
    exact ⟨_, .text rfl⟩
  · exact ⟨_, .text_fails h⟩

theorem Settles.rule (h : Settles body n (body r)) : Settles body n (.rule r) := by
  intro cs hcs
  obtain ⟨_ | ⟨ts, rest⟩, ho⟩ := h cs hcs
  · exact ⟨_, .rule_fails ho⟩
  · obtain ⟨tree, htree⟩ := ho.exists_rule
    exact ⟨_, htree⟩

theorem Settles.seq (ha : Settles body n a) (hb : Settles body n b) :
    Settles body n (.seq a b) := by
  intro cs hcs
  obtain ⟨_ | ⟨ts, mid⟩, hfirst⟩ := ha cs hcs
  · exact ⟨_, .seq_fails hfirst⟩
  · obtain ⟨_ | ⟨us, rest⟩, hsecond⟩ := hb mid (Nat.le_trans hfirst.length_le hcs)
    · exact ⟨_, .seq_fails_behind hfirst hsecond⟩
    · exact ⟨_, .seq hfirst hsecond⟩

/-- Behind a text with characters, outcomes are needed for shorter texts only. -/
theorem settles_text_seq (hs : s.toList ≠ []) (hb : ∀ m < n, Settles body m b) :
    Settles body n (.seq (.text s) b) := by
  intro cs hcs
  by_cases h : s.toList <+: cs
  · obtain ⟨mid, rfl⟩ := h
    have hpos := List.length_pos_iff.mpr hs
    rw [List.length_append] at hcs
    obtain ⟨_ | ⟨us, rest⟩, hsecond⟩ := hb mid.length (by omega) mid (Nat.le_refl _)
    · exact ⟨_, .seq_fails_behind (.text rfl) hsecond⟩
    · exact ⟨_, .seq (.text rfl) hsecond⟩
  · exact ⟨_, .seq_fails (.text_fails h)⟩

theorem Settles.choice (ha : Settles body n a) (hb : Settles body n b) :
    Settles body n (.choice a b) := by
  intro cs hcs
  obtain ⟨_ | ⟨ts, rest⟩, hfirst⟩ := ha cs hcs
  · obtain ⟨o, hsecond⟩ := hb cs hcs
    exact ⟨o, .second hfirst hsecond⟩
  · exact ⟨_, .first hfirst⟩

theorem Settles.not (ha : Settles body n a) : Settles body n (.not a) := by
  intro cs hcs
  obtain ⟨_ | ⟨ts, rest⟩, ho⟩ := ha cs hcs
  · exact ⟨_, .not ho⟩
  · exact ⟨_, .not_fails ho⟩

theorem Settles.many (ha : Settles body n a) (hadvances : Advances body a) :
    Settles body n (.many a) := by
  intro cs hcs
  induction hlength : cs.length using Nat.strong_induction_on generalizing cs with
  | _ k ih =>
      obtain ⟨_ | ⟨ts, mid⟩, hfirst⟩ := ha cs hcs
      · exact ⟨_, .stop hfirst⟩
      · have hshort := hadvances cs ts mid hfirst
        obtain ⟨o, hmany⟩ := ih mid.length (by omega) mid (by omega) rfl
        -- A repetition has no way to fail.
        have hsome : ∃ us rest, o = some (us, rest) := by
          cases hmany with
          | stop | step => exact ⟨_, _, rfl⟩
        obtain ⟨us, rest, rfl⟩ := hsome
        exact ⟨_, .step hfirst hmany⟩

theorem advances_char (p : Char → Bool) : Advances body (.char p) := by
  rintro cs ts rest ⟨⟩
  exact Nat.lt_succ_self _

theorem advances_text (hs : s.toList ≠ []) : Advances body (.text s) := by
  intro cs ts rest h
  obtain ⟨-, rfl⟩ := parses_text_iff.mp h
  have hpos := List.length_pos_iff.mpr hs
  rw [List.length_append]
  omega

theorem Advances.rule (h : Advances body (body r)) : Advances body (.rule r) := by
  intro cs ts rest hparses
  obtain ⟨us, -, hbody, -, -⟩ := parses_rule_iff.mp hparses
  exact h cs us rest hbody

theorem Advances.seq_left (h : Advances body a) (b : Peg R) : Advances body (.seq a b) := by
  intro cs ts rest hparses
  obtain ⟨us, mid, vs, ha, hb, -⟩ := parses_seq_iff.mp hparses
  exact Nat.lt_of_le_of_lt hb.length_le (h cs us mid ha)

theorem Advances.seq_right (h : Advances body b) (a : Peg R) : Advances body (.seq a b) := by
  intro cs ts rest hparses
  obtain ⟨us, mid, vs, ha, hb, -⟩ := parses_seq_iff.mp hparses
  exact Nat.lt_of_lt_of_le (h mid vs rest hb) ha.length_le

/-- Where an expression settles and does not match it fails. -/
theorem Settles.fails (h : Settles body n e) (hcs : cs.length ≤ n)
    (hno : ∀ ts rest, ¬ Parses body e cs (some (ts, rest))) : Parses body e cs none := by
  obtain ⟨_ | ⟨ts, rest⟩, ho⟩ := h cs hcs
  · exact ho
  · exact absurd ho (hno ts rest)

end Peg

end ClauseForm
