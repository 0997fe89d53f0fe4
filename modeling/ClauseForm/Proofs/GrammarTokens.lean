import ClauseForm.Proofs.FormulaGrammar
import ClauseForm.Proofs.Scanning

/-!
The tokens of a text and the rules for names, numerals and signs.

Where such a rule matches, the text begins with the token of the rule, and the same text is left
behind both.  The one exception is the sign `<`, which the grammar also finds at the front of `<=>`.
-/

namespace ClauseForm

namespace Token

variable {cs rest : List Char} {t : Token} {ts : List Token} {s : String}

/-- The text of a token that begins no other token and is always the same. -/
def spelling? : Token → Option String
  | verum => some "$true"
  | falsum => some "$false"
  | negation => some "~"
  | conjunction => some "&"
  | disjunction => some "|"
  | implication => some "=>"
  | equivalence => some "<=>"
  | comparison .notEqual => some "!="
  | comparison .greaterOrEqual => some ">="
  | plus => some "+"
  | times => some "*"
  | opening => some "("
  | closing => some ")"
  | name _ | numeral _ | comparison _ => none

theorem first?_of_spelling? (h : t.spelling? = some s) (rest : List Char) :
    first? (s.toList ++ rest) = some (t, rest) := by
  cases t with
  | comparison c =>
      cases c <;> first | cases h; rfl | cases h
  | name | numeral => cases h
  | _ =>
      cases h
      rfl

theorem eq_append_of_first? (hs : t.spelling? = some s) (h : first? cs = some (t, rest)) :
    cs = s.toList ++ rest := by
  unfold first? at h
  split at h
  case h_18 | h_19 | h_20 =>
    repeat' split at h
    all_goals cases h
    all_goals cases hs
  case h_21 => cases h
  all_goals
    obtain ⟨rfl, rfl⟩ := Prod.mk.inj (Option.some.inj h)
    first | cases hs; rfl | cases hs

/-- What begins like a numeral is one. -/
theorem first?_eq_numeral_iff {text : String} : first? cs = some (numeral text, rest) ↔
    rest = cs.dropWhile Char.isDigit ∧ cs.takeWhile Char.isDigit ≠ [] ∧
        text = String.ofList (cs.takeWhile Char.isDigit) ∨
      ∃ ds, cs = '-' :: ds ∧ rest = ds.dropWhile Char.isDigit ∧ ds.takeWhile Char.isDigit ≠ [] ∧
        text = String.ofList ('-' :: ds.takeWhile Char.isDigit) := by
  constructor
  · intro h
    unfold first? at h
    split at h
    case h_18 =>
      split at h <;> cases h
    case h_19 ds =>
      split at h
      · cases h
      · next hne =>
          cases h
          exact Or.inr ⟨ds, rfl, rfl, hne, rfl⟩
    case h_20 c ds _ _ _ _ _ _ _ _ _ _ _ _ _ _ _ _ _ _ _ =>
      split at h
      · next hc =>
          cases h
          rw [List.takeWhile_cons_of_pos hc, List.dropWhile_cons_of_pos hc]
          exact Or.inl ⟨rfl, List.cons_ne_nil _ _, rfl⟩
      · split at h <;> cases h
    all_goals cases h
  · rintro (⟨rfl, hne, rfl⟩ | ⟨ds, rfl, rfl, hne, rfl⟩)
    · cases cs with
      | nil => exact absurd rfl hne
      | cons c cs =>
          by_cases hc : c.isDigit = true
          · rw [first?_of_isDigit hc, List.takeWhile_cons_of_pos hc, List.dropWhile_cons_of_pos hc]
          · rw [List.takeWhile_cons_of_neg hc] at hne
            exact absurd rfl hne
    · cases hdigits : ds.takeWhile Char.isDigit with
      | nil => exact absurd hdigits hne
      | cons d digits => simp [first?, hdigits]

/-- A name begins with its first character or with a quotation mark. -/
theorem first?_eq_name_iff {text : String} : first? cs = some (name text, rest) ↔
    (∃ c ds, cs = c :: ds ∧ isNameStart c = true ∧ rest = ds.dropWhile isNamePart ∧
        text = String.ofList (c :: ds.takeWhile isNamePart)) ∨
      ∃ ds, cs = '\x22' :: ds ∧ ds.dropWhile (· != '\x22') = '\x22' :: rest ∧
        text = String.ofList (ds.takeWhile (· != '\x22')) := by
  constructor
  · intro h
    unfold first? at h
    split at h
    case h_18 ds =>
      split at h
      · cases h
      · next last after hafter =>
          cases h
          have hlast := List.head?_dropWhile_not (· != '\x22') ds
          rw [hafter] at hlast
          have hquote : last = '\x22' := by simpa using hlast
          exact Or.inr ⟨ds, rfl, hquote ▸ hafter, rfl⟩
    case h_19 =>
      split at h <;> cases h
    case h_20 c ds _ _ _ _ _ _ _ _ _ _ _ _ _ _ _ _ _ _ _ =>
      split at h
      · cases h
      · split at h
        · next hc =>
            cases h
            exact Or.inl ⟨c, ds, rfl, hc, rfl, rfl⟩
        · cases h
    all_goals cases h
  · rintro (⟨c, ds, rfl, hc, rfl, rfl⟩ | ⟨ds, rfl, hafter, rfl⟩)
    · exact first?_of_isNameStart hc ds
    · simp [first?, hafter]

/-- Layout at the front does not count. -/
theorem scan_dropWhile (cs : List Char) : scan (cs.dropWhile isLayout) = scan cs := by
  induction cs with
  | nil => rfl
  | cons c cs ih =>
      by_cases hc : isLayout c = true
      · rw [List.dropWhile_cons_of_pos hc, scan_of_layout hc, ih]
      · rw [List.dropWhile_cons_of_neg hc]

/-- A text does not begin with layout. -/
def Flush (cs : List Char) : Prop := ∀ c ∈ cs.head?, isLayout c = false

theorem flush_dropWhile (cs : List Char) : Flush (cs.dropWhile isLayout) := fun c hc => by
  have hlast := List.head?_dropWhile_not isLayout cs
  rw [Option.mem_def.mp hc] at hlast
  simpa using hlast

/-- The first token of a text that does not begin with layout. -/
theorem first?_of_scan (hflush : Flush cs) (h : scan cs = some (t :: ts)) :
    ∃ rest, first? cs = some (t, rest) ∧ scan rest = some ts := by
  cases cs with
  | nil => simp [scan_nil] at h
  | cons c cs =>
      cases hfirst : first? (c :: cs) with
      | none =>
          rw [scan_of_none (by simp [hflush c rfl]) hfirst] at h
          contradiction
      | some cut =>
          obtain ⟨u, rest⟩ := cut
          rw [scan_eq_of_first? hfirst] at h
          obtain ⟨us, hrest, hus⟩ := Option.map_eq_some_iff.mp h
          obtain ⟨rfl, rfl⟩ := List.cons.inj hus
          exact ⟨rest, rfl, hrest⟩

theorem eq_nil_of_scan (hflush : Flush cs) (h : scan cs = some []) : cs = [] := by
  cases cs with
  | nil => rfl
  | cons c cs =>
      cases hfirst : first? (c :: cs) with
      | none =>
          rw [scan_of_none (by simp [hflush c rfl]) hfirst] at h
          contradiction
      | some cut =>
          obtain ⟨u, rest⟩ := cut
          rw [scan_eq_of_first? hfirst] at h
          simp at h

end Token

namespace Grammar

open Peg Token

variable {a b : Peg Rule} {cs rest : List Char} {trees : List (ParseTree Rule)} {t : Token}
  {s : String} {c : Comparison}

theorem parses_layout_iff {o : Outcome Rule} :
    Parses body layout cs o ↔ o = some ([], cs.dropWhile isLayout) := by
  refine ⟨fun h => h.unique (parses_many_char isLayout cs), ?_⟩
  rintro rfl
  exact parses_many_char isLayout cs

theorem parses_followed_iff : Parses body (followed a b) cs (some (trees, rest)) ↔
    ∃ us mid vs, Parses body a cs (some (us, mid)) ∧
      Parses body b (mid.dropWhile isLayout) (some (vs, rest)) ∧ trees = us ++ vs := by
  constructor
  · intro h
    obtain ⟨us, mid, vs, ha, hrest, rfl⟩ := parses_seq_iff.mp h
    obtain ⟨ws, mid', vs, hlayout, hb, rfl⟩ := parses_seq_iff.mp hrest
    obtain ⟨rfl, rfl⟩ := Prod.mk.inj (Option.some.inj (parses_layout_iff.mp hlayout))
    exact ⟨us, mid, vs, ha, hb, rfl⟩
  · rintro ⟨us, mid, vs, ha, hb, rfl⟩
    exact .seq ha (.seq (parses_layout_iff.mpr rfl) hb)

/-- Behind a part and the layout that follows it, no more text is left than there was. -/
theorem length_flush_le {mid : List Char} {n : Nat} (h : Parses body a cs (some (trees, mid)))
    (hcs : cs.length ≤ n) : (mid.dropWhile isLayout).length ≤ n :=
  Nat.le_trans (List.dropWhile_sublist isLayout).length_le (Nat.le_trans h.length_le hcs)

/-- Behind an opening parenthesis less text is left. -/
theorem length_flush_lt {mid : List Char} {n : Nat}
    (h : Parses body (.text "(") cs (some (trees, mid))) (hcs : cs.length ≤ n) :
    (mid.dropWhile isLayout).length < n :=
  Nat.lt_of_le_of_lt (List.dropWhile_sublist isLayout).length_le
    (Nat.lt_of_lt_of_le (advances_text (by simp) _ _ _ h) hcs)

/-- The text of a token matches where the token stands. -/
theorem parses_text_iff_first? (hs : t.spelling? = some s) :
    Parses body (.text s) cs (some (trees, rest)) ↔ trees = [] ∧ first? cs = some (t, rest) := by
  rw [parses_text_iff]
  refine and_congr_right fun _ => ⟨?_, eq_append_of_first? hs⟩
  rintro rfl
  exact first?_of_spelling? hs rest

theorem text_fails_of_first? {u : Token} {after : List Char} (hs : t.spelling? = some s)
    (hfirst : first? cs = some (u, after)) (hne : u ≠ t) : Parses body (.text s) cs none := by
  refine (settles_text s).fails (Nat.le_refl _) fun ts rest h => hne ?_
  have hother := ((parses_text_iff_first? hs).mp h).2
  rw [hfirst] at hother
  exact (Prod.mk.inj (Option.some.inj hother)).1

/-- A rule for the text of one token matches where the token stands. -/
theorem exists_parses_of_first? {x : Rule} (hbody : body x = .text s) (hs : t.spelling? = some s)
    (hfirst : first? cs = some (t, rest)) :
    ∃ tree, Parses body (.rule x) cs (some ([tree], rest)) := by
  have htext : Parses body (body x) cs (some ([], rest)) := by
    rw [hbody]
    exact (parses_text_iff_first? hs).mpr ⟨rfl, hfirst⟩
  exact Parses.exists_rule htext

theorem first?_of_rule {x : Rule} (hbody : body x = .text s) (hs : t.spelling? = some s)
    (h : Parses body (.rule x) cs (some (trees, rest))) :
    (∃ text, trees = [.node x text []]) ∧ first? cs = some (t, rest) := by
  obtain ⟨us, front, htext, -, rfl⟩ := parses_rule_iff.mp h
  rw [hbody] at htext
  obtain ⟨rfl, hfirst⟩ := (parses_text_iff_first? hs).mp htext
  exact ⟨⟨_, rfl⟩, hfirst⟩

theorem rule_fails_of_first? {x : Rule} {u : Token} {after : List Char} (hbody : body x = .text s)
    (hs : t.spelling? = some s) (hfirst : first? cs = some (u, after)) (hne : u ≠ t) :
    Parses body (.rule x) cs none :=
  .rule_fails (hbody ▸ text_fails_of_first? hs hfirst hne)

/-! ### Numerals and names -/

/-- What stands in front of the characters behind a run of a class ends with the run. -/
theorem eq_append_takeWhile {before front : List Char} {p : Char → Bool}
    (h : before ++ cs = front ++ cs.dropWhile p) : front = before ++ cs.takeWhile p := by
  rw [← List.takeWhile_append_dropWhile (p := p) (l := cs), ← List.append_assoc,
    List.takeWhile_append_dropWhile] at h
  exact (List.append_cancel_right h).symm

theorem parses_digits_iff :
    Parses body (.seq (.char Char.isDigit) (.many (.char Char.isDigit))) cs (some (trees, rest)) ↔
      trees = [] ∧ cs.takeWhile Char.isDigit ≠ [] ∧ rest = cs.dropWhile Char.isDigit := by
  rw [parses_seq_iff]
  constructor
  · rintro ⟨us, mid, vs, hfirst, hmany, rfl⟩
    obtain ⟨rfl, d, hd, rfl⟩ := parses_char_iff.mp hfirst
    obtain ⟨rfl, rfl⟩ := Prod.mk.inj (Option.some.inj (hmany.unique (parses_many_char _ _)))
    rw [List.takeWhile_cons_of_pos hd, List.dropWhile_cons_of_pos hd]
    exact ⟨rfl, List.cons_ne_nil _ _, rfl⟩
  · rintro ⟨rfl, hne, rfl⟩
    cases cs with
    | nil => exact absurd rfl hne
    | cons d ds =>
        by_cases hd : d.isDigit = true
        · rw [List.dropWhile_cons_of_pos hd]
          exact ⟨[], ds, [], .char hd, parses_many_char _ _, rfl⟩
        · rw [List.takeWhile_cons_of_neg hd] at hne
          exact absurd rfl hne

/-- Numerals match where a numeral is the first token. -/
theorem parses_number_iff : Parses body (.rule .number) cs (some (trees, rest)) ↔
    ∃ text, first? cs = some (.numeral text, rest) ∧ trees = [.node .number text []] := by
  rw [parses_rule_iff]
  constructor
  · rintro ⟨us, front, h, hcs, rfl⟩
    obtain ⟨vs, mid, ws, hsign, hdigits, rfl⟩ := parses_seq_iff.mp h
    obtain ⟨rfl, hne, rfl⟩ := parses_digits_iff.mp hdigits
    rcases parses_choice_iff.mp hsign with hsign | ⟨-, hsign⟩
    · obtain ⟨rfl, rfl⟩ := parses_text_iff.mp hsign
      refine ⟨_, first?_eq_numeral_iff.mpr (Or.inr ⟨mid, rfl, rfl, hne, rfl⟩), ?_⟩
      have hfront : front = ['-'] ++ mid.takeWhile Char.isDigit := eq_append_takeWhile hcs
      rw [hfront]
      rfl
    · obtain ⟨rfl, rfl⟩ := Prod.mk.inj (Option.some.inj (parses_empty_iff.mp hsign))
      refine ⟨_, first?_eq_numeral_iff.mpr (Or.inl ⟨rfl, hne, rfl⟩), ?_⟩
      have hfront : front = [] ++ mid.takeWhile Char.isDigit := eq_append_takeWhile hcs
      rw [hfront]
      rfl
  · rintro ⟨text, hfirst, rfl⟩
    rcases first?_eq_numeral_iff.mp hfirst with ⟨rfl, hne, rfl⟩ | ⟨ds, rfl, rfl, hne, rfl⟩
    · have hsign : ¬ "-".toList <+: cs := by
        rintro ⟨ds, rfl⟩
        exact hne rfl
      exact ⟨[], _, .seq (.second (.text_fails hsign) .empty) (parses_digits_iff.mpr ⟨rfl, hne, rfl⟩),
        (List.takeWhile_append_dropWhile).symm, rfl⟩
    · refine ⟨[], '-' :: ds.takeWhile Char.isDigit,
        .seq (.first (.text rfl)) (parses_digits_iff.mpr ⟨rfl, hne, rfl⟩), ?_, rfl⟩
      rw [List.cons_append, List.takeWhile_append_dropWhile]

/-- Everything up to a quotation mark is inside of quotes. -/
theorem parses_quoted (cs : List Char) :
    Parses body (.many (.seq (.not (.text "\x22")) (.char fun _ => true))) cs
      (some ([], cs.dropWhile (· != '\x22'))) := by
  induction cs with
  | nil => exact .stop (.seq_fails_behind (.not (.text_fails (by simp))) (.char_fails (by simp)))
  | cons c cs ih =>
      by_cases hc : c = '\x22'
      · subst hc
        exact .stop (.seq_fails (.not_fails (.text rfl)))
      · have hnot : ¬ "\x22".toList <+: c :: cs := fun h => hc (List.cons_prefix_cons.mp h).1.symm
        rw [List.dropWhile_cons_of_pos (by simpa using hc)]
        exact .step (.seq (.not (.text_fails hnot)) (.char rfl)) ih

theorem parses_plainName_iff : Parses body (.rule .plainName) cs (some (trees, rest)) ↔
    ∃ c ds, cs = c :: ds ∧ isNameStart c = true ∧ rest = ds.dropWhile isNamePart ∧
      trees = [.node .plainName (String.ofList (c :: ds.takeWhile isNamePart)) []] := by
  rw [parses_rule_iff]
  constructor
  · rintro ⟨us, front, h, hcs, rfl⟩
    obtain ⟨vs, mid, ws, hfirst, hmany, rfl⟩ := parses_seq_iff.mp h
    obtain ⟨rfl, c, hc, rfl⟩ := parses_char_iff.mp hfirst
    obtain ⟨rfl, rfl⟩ := Prod.mk.inj (Option.some.inj (hmany.unique (parses_many_char _ _)))
    have hfront : front = [c] ++ mid.takeWhile isNamePart := eq_append_takeWhile hcs
    rw [hfront]
    exact ⟨c, mid, rfl, hc, rfl, rfl⟩
  · rintro ⟨c, ds, rfl, hc, rfl, rfl⟩
    refine ⟨[], c :: ds.takeWhile isNamePart, .seq (.char hc) (parses_many_char _ _), ?_, rfl⟩
    rw [List.cons_append, List.takeWhile_append_dropWhile]

theorem parses_quotedName (cs : List Char) :
    Parses body (.rule .quotedName) cs
      (some ([.node .quotedName (String.ofList (cs.takeWhile (· != '\x22'))) []],
        cs.dropWhile (· != '\x22'))) :=
  .rule (parses_quoted cs) (List.takeWhile_append_dropWhile).symm

/-- A name matches only where a name is the first token, and its tree holds the same name. -/
theorem first?_of_name (h : Parses body (.rule .name) cs (some (trees, rest))) :
    ∃ tree text, trees = [tree] ∧ tree.rule = .name ∧ nameOf tree = .ok text ∧
      first? cs = some (.name text, rest) := by
  obtain ⟨us, front, hname, -, rfl⟩ := parses_rule_iff.mp h
  rcases parses_choice_iff.mp hname with hplain | ⟨-, hquoted⟩
  · obtain ⟨c, ds, rfl, hc, rfl, rfl⟩ := parses_plainName_iff.mp hplain
    exact ⟨_, _, rfl, rfl, rfl, first?_eq_name_iff.mpr (Or.inl ⟨c, ds, rfl, hc, rfl, rfl⟩)⟩
  · obtain ⟨_, ds, _, hopening, hbehind, rfl⟩ := parses_seq_iff.mp hquoted
    obtain ⟨rfl, rfl⟩ := parses_text_iff.mp hopening
    obtain ⟨_, mid, _, hinside, hclosing, rfl⟩ := parses_seq_iff.mp hbehind
    obtain ⟨rfl, rfl⟩ := Prod.mk.inj (Option.some.inj (hinside.unique (parses_quotedName ds)))
    obtain ⟨rfl, hafter⟩ := parses_text_iff.mp hclosing
    exact ⟨_, _, rfl, rfl, rfl, first?_eq_name_iff.mpr (Or.inr ⟨ds, rfl, hafter, rfl⟩)⟩

theorem parses_name {text : String} (hfirst : first? cs = some (.name text, rest)) :
    ∃ tree, Parses body (.rule .name) cs (some ([tree], rest)) := by
  rcases first?_eq_name_iff.mp hfirst with ⟨c, ds, rfl, hc, rfl, -⟩ | ⟨ds, rfl, hafter, -⟩
  · have hplain := parses_plainName_iff.mpr ⟨c, ds, rfl, hc, rfl, rfl⟩
    exact Parses.exists_rule (r := Rule.name) (.first hplain)
  · have hplain : Parses body (.rule .plainName) ('\x22' :: ds) none := by
      refine settles_plainName.fails (Nat.le_refl _) fun ts rest h => ?_
      obtain ⟨c, _, hcs, hc, -⟩ := parses_plainName_iff.mp h
      obtain ⟨rfl, -⟩ := List.cons.inj hcs
      cases hc
    exact Parses.exists_rule (r := Rule.name)
      (.second hplain (.seq (.text rfl) (.seq (parses_quotedName ds) (.text hafter))))

/-! ### Signs of comparisons -/

theorem parses_not_greater_iff : Parses body (.not (.text ">")) cs (some (trees, rest)) ↔
    trees = [] ∧ rest = cs ∧ cs.head? ≠ some '>' := by
  rw [parses_not_iff]
  have hfails : Parses body (.text ">") cs none ↔ cs.head? ≠ some '>' := by
    constructor
    · intro h hhead
      obtain ⟨ds, rfl⟩ := List.head?_eq_some_iff.mp hhead
      have hmatch : Parses body (.text ">") ('>' :: ds) (some ([], ds)) := .text rfl
      cases h.unique hmatch
    · intro hhead
      refine .text_fails ?_
      rintro ⟨ds, rfl⟩
      exact hhead rfl
  rw [hfails]
  tauto

theorem parses_sign_iff : Parses body (.rule (.sign c)) cs (some (trees, rest)) ↔
    trees = [.node (.sign c) c.sign []] ∧ cs = c.sign.toList ++ rest ∧
      (c = .lessOrEqual ∨ c = .equal → rest.head? ≠ some '>') := by
  have hplain : ∀ {c : Comparison}, body (.sign c) = .text c.sign →
      (Parses body (.rule (.sign c)) cs (some (trees, rest)) ↔
        trees = [.node (.sign c) c.sign []] ∧ cs = c.sign.toList ++ rest) := by
    intro c hbody
    rw [parses_rule_iff, hbody]
    constructor
    · rintro ⟨us, front, h, hcs, rfl⟩
      obtain ⟨rfl, hsign⟩ := parses_text_iff.mp h
      have hfront := List.append_cancel_right (hcs.symm.trans hsign)
      rw [hfront, String.ofList_toList]
      exact ⟨rfl, hsign⟩
    · rintro ⟨rfl, hcs⟩
      exact ⟨[], c.sign.toList, .text hcs, hcs, by rw [String.ofList_toList]⟩
  have hguarded : ∀ {c : Comparison}, body (.sign c) = .seq (.text c.sign) (.not (.text ">")) →
      (Parses body (.rule (.sign c)) cs (some (trees, rest)) ↔
        trees = [.node (.sign c) c.sign []] ∧ cs = c.sign.toList ++ rest ∧
          rest.head? ≠ some '>') := by
    intro c hbody
    rw [parses_rule_iff, hbody]
    constructor
    · rintro ⟨us, front, h, hcs, rfl⟩
      obtain ⟨_, mid, _, hsign, hnot, rfl⟩ := parses_seq_iff.mp h
      obtain ⟨rfl, rfl, hhead⟩ := parses_not_greater_iff.mp hnot
      obtain ⟨rfl, htext⟩ := parses_text_iff.mp hsign
      have hfront := List.append_cancel_right (hcs.symm.trans htext)
      rw [hfront, String.ofList_toList]
      exact ⟨rfl, htext, hhead⟩
    · rintro ⟨rfl, hcs, hhead⟩
      exact ⟨[], c.sign.toList, .seq (.text hcs) (parses_not_greater_iff.mpr ⟨rfl, rfl, hhead⟩), hcs,
        by rw [String.ofList_toList]⟩
  cases c with
  | lessOrEqual | equal => simpa using hguarded rfl
  | notEqual | less | greater | greaterOrEqual => simpa using hplain rfl

theorem head?_ne_iff {k : Char} : rest.head? ≠ some k ↔ ∀ ds, rest ≠ k :: ds := by
  rw [Ne, List.head?_eq_some_iff, not_exists]

/-- The sign of a comparison is the first token if it stands there and does not begin another
token. -/
theorem first?_eq_comparison_iff : first? cs = some (.comparison c, rest) ↔
    cs = c.sign.toList ++ rest ∧ (c = .less ∨ c = .greater → rest.head? ≠ some '=') ∧
      (c = .lessOrEqual ∨ c = .equal → rest.head? ≠ some '>') := by
  simp only [head?_ne_iff]
  constructor
  · intro h
    unfold first? at h
    split at h
    case h_18 | h_19 | h_20 =>
      repeat' split at h
      all_goals cases h
    all_goals cases h
    case h_11.refl hgreater => exact ⟨rfl, by simp, fun _ => hgreater⟩
    case h_12.refl hequal => exact ⟨rfl, fun _ => hequal, by simp⟩
    case h_14.refl hequal => exact ⟨rfl, fun _ => hequal, by simp⟩
    case h_16.refl hgreater => exact ⟨rfl, by simp, fun _ => hgreater⟩
    all_goals exact ⟨rfl, by simp, by simp⟩
  · rintro ⟨rfl, hequal, hgreater⟩
    cases c with
    | notEqual | greaterOrEqual => rfl
    | less =>
        have hrest := hequal (by simp)
        simp [first?, Comparison.sign, hrest]
    | greater =>
        have hrest := hequal (by simp)
        simp [first?, Comparison.sign]
    | lessOrEqual | equal =>
        have hrest := hgreater (by simp)
        simp [first?, Comparison.sign]

/-- A comparator matches only where the sign of a comparison is the first token, except that `<` also
matches in front of an equals sign. -/
theorem first?_of_comparator (h : Parses body comparator cs (some (trees, rest))) :
    ∃ c, trees = [.node (.sign c) c.sign []] ∧
      (first? cs = some (.comparison c, rest) ∨ rest.head? = some '=') := by
  -- Whichever sign matches, it is the first token unless an equals sign follows.
  have hsign : ∀ {c}, Parses body (.rule (.sign c)) cs (some (trees, rest)) →
      ∃ c, trees = [.node (.sign c) c.sign []] ∧
        (first? cs = some (.comparison c, rest) ∨ rest.head? = some '=') := by
    intro c h
    obtain ⟨rfl, hcs, hgreater⟩ := parses_sign_iff.mp h
    refine ⟨c, rfl, ?_⟩
    by_cases hequal : rest.head? = some '='
    · exact Or.inr hequal
    · exact Or.inl (first?_eq_comparison_iff.mpr ⟨hcs, fun _ => hequal, hgreater⟩)
  rcases parses_choice_iff.mp h with h | ⟨-, h⟩
  · exact hsign h
  rcases parses_choice_iff.mp h with h | ⟨-, h⟩
  · exact hsign h
  rcases parses_choice_iff.mp h with h | ⟨-, h⟩
  · exact hsign h
  rcases parses_choice_iff.mp h with h | ⟨-, h⟩
  · exact hsign h
  rcases parses_choice_iff.mp h with h | ⟨-, h⟩
  · exact hsign h
  · exact hsign h

/-- The comparator finds the sign that is the first token. -/
theorem parses_comparator (hfirst : first? cs = some (.comparison c, rest)) :
    Parses body comparator cs (some ([.node (.sign c) c.sign []], rest)) := by
  obtain ⟨hcs, hequal, hgreater⟩ := first?_eq_comparison_iff.mp hfirst
  have hmatch := parses_sign_iff.mpr ⟨rfl, hcs, hgreater⟩
  have hother : ∀ {d : Comparison}, ¬ d.sign.toList <+: cs →
      Parses body (.rule (.sign d)) cs none := fun hno =>
    (settles_sign _).fails (Nat.le_refl _) fun ts rest h => hno ⟨rest, (parses_sign_iff.mp h).2.1.symm⟩
  have hlonger : rest.head? ≠ some '=' → ¬ ['='] <+: rest := by
    rintro hhead ⟨ds, rfl⟩
    exact hhead rfl
  subst hcs
  cases c with
  | notEqual => exact .first hmatch
  | lessOrEqual => exact .second (hother (by simp [Comparison.sign])) <| .first hmatch
  | greaterOrEqual =>
      exact .second (hother (by simp [Comparison.sign])) <|
        .second (hother (by simp [Comparison.sign])) <| .first hmatch
  | less =>
      have hno := hlonger (hequal (Or.inl rfl))
      exact .second (hother (by simp [Comparison.sign])) <|
        .second (hother (by simpa [Comparison.sign] using hno)) <|
        .second (hother (by simp [Comparison.sign])) <| .first hmatch
  | greater =>
      have hno := hlonger (hequal (Or.inr rfl))
      exact .second (hother (by simp [Comparison.sign])) <|
        .second (hother (by simp [Comparison.sign])) <|
        .second (hother (by simpa [Comparison.sign] using hno)) <|
        .second (hother (by simp [Comparison.sign])) <| .first hmatch
  | equal =>
      exact .second (hother (by simp [Comparison.sign])) <|
        .second (hother (by simp [Comparison.sign])) <|
        .second (hother (by simp [Comparison.sign])) <|
        .second (hother (by simp [Comparison.sign])) <|
        .second (hother (by simp [Comparison.sign])) hmatch

end Grammar

end ClauseForm
