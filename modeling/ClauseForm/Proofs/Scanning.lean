import ClauseForm.FormulaText.Render
import ClauseForm.Proofs.Decimal
import Mathlib.Data.List.Basic
import Mathlib.Data.List.TakeWhile

/-!
How written words are cut into tokens.

A word is a text that is cut into certain tokens wherever a token may end behind it.  Words are put
together with signs, parentheses and operators, which have a space on either side.
-/

namespace ClauseForm

namespace Token

/-- Where any token ends: in front of a space, a closing parenthesis, or nothing. -/
def Boundary (rest : List Char) : Prop := ∀ c ∈ rest.head?, c = ' ' ∨ c = ')'

theorem boundary_nil : Boundary [] := by simp [Boundary]

theorem boundary_space (rest : List Char) : Boundary (' ' :: rest) := by simp [Boundary]

theorem boundary_closing (rest : List Char) : Boundary (')' :: rest) := by simp [Boundary]

theorem scanFrom_of_layout {c : Char} (hc : isLayout c = true) (cs : List Char)
    (found : List Token) : scanFrom (c :: cs) found = scanFrom cs found := by
  rw [scanFrom, if_pos hc]

theorem scanFrom_of_none {c : Char} {cs : List Char} (hc : ¬ isLayout c = true)
    (hfirst : first? (c :: cs) = none) (found : List Token) : scanFrom (c :: cs) found = none := by
  rw [scanFrom, if_neg hc]
  split
  · rfl
  · simp_all

theorem scanFrom_of_first? {c : Char} {cs rest : List Char} {t : Token}
    (hc : ¬ isLayout c = true) (hfirst : first? (c :: cs) = some (t, rest)) (found : List Token) :
    scanFrom (c :: cs) found = scanFrom rest (t :: found) := by
  rw [scanFrom, if_neg hc]
  split <;> simp_all

/-- The tokens found before stand in front of those that follow. -/
theorem scanFrom_append (cs : List Char) (found before : List Token) :
    scanFrom cs (found ++ before) = (scanFrom cs found).map (before.reverse ++ ·) := by
  fun_induction scanFrom cs found with
  | case1 found => simp [scanFrom]
  | case2 found c cs hlayout ih => rw [scanFrom_of_layout hlayout, ih]
  | case3 c cs found hlayout hfirst => rw [scanFrom_of_none hlayout hfirst, Option.map_none]
  | case4 c cs found hlayout t rest hfirst hshort ih =>
      rw [scanFrom_of_first? hlayout hfirst, ← List.cons_append, ih]

theorem scan_nil : scan [] = some [] := by
  rw [scan, scanFrom, List.reverse_nil]

theorem scan_of_layout {c : Char} (hc : isLayout c = true) (cs : List Char) :
    scan (c :: cs) = scan cs :=
  scanFrom_of_layout hc cs []

theorem scan_of_none {c : Char} {cs : List Char} (hc : ¬ isLayout c = true)
    (hfirst : first? (c :: cs) = none) : scan (c :: cs) = none :=
  scanFrom_of_none hc hfirst []

theorem not_isLayout_of_first? {c : Char} {cs rest : List Char} {t : Token}
    (h : first? (c :: cs) = some (t, rest)) : ¬ isLayout c = true := by
  intro hlayout
  simp only [isLayout, Bool.or_eq_true, beq_iff_eq] at hlayout
  rcases hlayout with ((rfl | rfl) | rfl) | rfl <;> cases h

/-- A text is cut into its first token and those behind it. -/
theorem scan_eq_of_first? {cs rest : List Char} {t : Token} (h : first? cs = some (t, rest)) :
    scan cs = (scan rest).map (t :: ·) := by
  cases cs with
  | nil => cases h
  | cons c cs =>
      rw [scan, scanFrom_of_first? (not_isLayout_of_first? h) h]
      exact scanFrom_append rest [] [t]

/-- Induction on a text as it is cut into tokens. -/
theorem scan_induction {motive : List Char → Prop} (nil : motive [])
    (layout : ∀ c cs, isLayout c = true → motive cs → motive (c :: cs))
    (stuck : ∀ c cs, ¬ isLayout c = true → first? (c :: cs) = none → motive (c :: cs))
    (token : ∀ cs t rest, first? cs = some (t, rest) → motive rest → motive cs) (cs : List Char) :
    motive cs := by
  induction hlength : cs.length using Nat.strong_induction_on generalizing cs with
  | _ n ih =>
      subst hlength
      cases cs with
      | nil => exact nil
      | cons c cs =>
          by_cases hc : isLayout c = true
          · exact layout c cs hc (ih cs.length (by simp) cs rfl)
          · cases hfirst : first? (c :: cs) with
            | none => exact stuck c cs hc hfirst
            | some cut =>
                exact token _ cut.1 cut.2 hfirst (ih _ (length_of_first? hfirst) _ rfl)

theorem scan_space (cs : List Char) : scan (' ' :: cs) = scan cs := scan_of_layout rfl cs

theorem scan_opening (cs : List Char) : scan ('(' :: cs) = (scan cs).map (opening :: ·) :=
  scan_eq_of_first? rfl

theorem scan_closing (cs : List Char) : scan (')' :: cs) = (scan cs).map (closing :: ·) :=
  scan_eq_of_first? rfl

theorem scan_negation (cs : List Char) : scan ('~' :: cs) = (scan cs).map (negation :: ·) :=
  scan_eq_of_first? rfl

/-- A text is a word of some tokens if it is cut into these wherever a token may end behind it. -/
def Scans (cs : List Char) (ts : List Token) : Prop :=
  ∀ rest, Boundary rest → scan (cs ++ rest) = (scan rest).map (ts ++ ·)

/-- An operator is a text that begins with a space and is cut into a single token anywhere. -/
structure Separates (cs : List Char) (t : Token) : Prop where
  boundary : ∀ rest, Boundary (cs ++ rest)
  scan_eq : ∀ rest, scan (cs ++ rest) = (scan rest).map (t :: ·)

variable {cs ds op : List Char} {ts us : List Token} {t : Token}

theorem Scans.scan_eq (h : Scans cs ts) : scan cs = some ts := by
  simpa [scan_nil] using h [] boundary_nil

theorem Scans.group (h : Scans cs ts) :
    Scans ('(' :: cs ++ [')']) (opening :: ts ++ [closing]) := by
  intro rest _
  have hinside := h (')' :: rest) (boundary_closing rest)
  rw [List.append_assoc, List.cons_append, List.singleton_append, scan_opening, hinside,
    scan_closing, Option.map_map, Option.map_map]
  congr 1
  funext vs
  simp

theorem Scans.negation (h : Scans cs ts) : Scans ('~' :: cs) (negation :: ts) := by
  intro rest hrest
  rw [List.cons_append, scan_negation, h rest hrest, Option.map_map]
  rfl

theorem Scans.operate (hop : Separates op t) (hcs : Scans cs ts) (hds : Scans ds us) :
    Scans (cs ++ op ++ ds) (ts ++ t :: us) := by
  intro rest hrest
  rw [List.append_assoc, List.append_assoc, hcs _ (hop.boundary _), hop.scan_eq, hds rest hrest,
    Option.map_map, Option.map_map]
  congr 1
  funext vs
  simp

theorem Scans.of_first? (h : ∀ rest, Boundary rest → first? (cs ++ rest) = some (t, rest)) :
    Scans cs [t] := fun rest hrest => scan_eq_of_first? (h rest hrest)

theorem Separates.of_first? (c : Char) (cs : List Char) (hop : op = ' ' :: c :: (cs ++ [' ']))
    (h : ∀ rest, first? (c :: (cs ++ ' ' :: rest)) = some (t, ' ' :: rest)) : Separates op t := by
  subst hop
  constructor
  · exact fun rest => boundary_space _
  · intro rest
    rw [List.cons_append, scan_space, List.cons_append, List.append_assoc, List.singleton_append,
      scan_eq_of_first? (h rest), scan_space]

theorem scans_verum : Scans "$true".toList [verum] := .of_first? fun _ _ => rfl

theorem scans_falsum : Scans "$false".toList [falsum] := .of_first? fun _ _ => rfl

theorem separates_conjunction : Separates " & ".toList conjunction :=
  .of_first? '&' [] rfl fun _ => rfl

theorem separates_disjunction : Separates " | ".toList disjunction :=
  .of_first? '|' [] rfl fun _ => rfl

theorem separates_implication : Separates " => ".toList implication :=
  .of_first? '=' ['>'] rfl fun _ => rfl

theorem separates_equivalence : Separates " <=> ".toList equivalence :=
  .of_first? '<' ['=', '>'] rfl fun _ => rfl

theorem separates_plus : Separates " + ".toList plus :=
  .of_first? '+' [] rfl fun _ => rfl

theorem separates_times : Separates " * ".toList times :=
  .of_first? '*' [] rfl fun _ => rfl

theorem separates_comparison (c : Comparison) :
    Separates (" " ++ c.sign ++ " ").toList (comparison c) := by
  cases c with
  | equal => exact .of_first? '=' [] rfl fun _ => rfl
  | notEqual => exact .of_first? '!' ['='] rfl fun _ => rfl
  | less => exact .of_first? '<' [] rfl fun _ => rfl
  | lessOrEqual => exact .of_first? '<' ['='] rfl fun _ => rfl
  | greater => exact .of_first? '>' [] rfl fun _ => rfl
  | greaterOrEqual => exact .of_first? '>' ['='] rfl fun _ => rfl

/-- No part of a name or a numeral stands where a token may end. -/
theorem Boundary.not_head {rest : List Char} (hrest : Boundary rest) {p : Char → Bool}
    (hspace : p ' ' = false) (hclosing : p ')' = false) : ∀ c ∈ rest.head?, p c = false := by
  intro c hc
  rcases hrest c hc with rfl | rfl
  · exact hspace
  · exact hclosing

/-- A run of characters ends where a token may end. -/
theorem takeWhile_boundary {p : Char → Bool} {rest : List Char} (hcs : ∀ c ∈ cs, p c = true)
    (hrest : ∀ c ∈ rest.head?, p c = false) :
    (cs ++ rest).takeWhile p = cs ∧ (cs ++ rest).dropWhile p = rest := by
  rw [List.takeWhile_append_of_pos hcs, List.dropWhile_append_of_pos hcs]
  cases rest with
  | nil => simp
  | cons c rest => simp [hrest c rfl]

theorem not_isDigit_of_isNameStart {c : Char} (hc : isNameStart c = true) :
    ¬ c.isDigit = true := by
  intro hdigit
  have digits : ∀ n, n ≤ '9'.toNat → '0'.toNat ≤ n → isNameStart (Char.ofNat n) = false := by
    decide
  obtain ⟨hlow, hhigh⟩ := Char.isDigit_iff_toNat.mp hdigit
  have hother := digits c.toNat hhigh hlow
  rw [Char.ofNat_toNat, hc] at hother
  contradiction

/-- What begins like a name without quotes is a name. -/
theorem first?_of_isNameStart {c : Char} (hc : isNameStart c = true) (cs : List Char) :
    first? (c :: cs) =
      some (name (String.ofList (c :: cs.takeWhile isNamePart)), cs.dropWhile isNamePart) := by
  have hdigit := not_isDigit_of_isNameStart hc
  unfold first?
  split
  case h_20 hequal =>
    obtain ⟨rfl, rfl⟩ := List.cons.inj hequal
    rw [if_neg hdigit, if_pos hc]
  case h_21 => contradiction
  all_goals
    rename_i hequal
    obtain ⟨rfl, -⟩ := List.cons.inj hequal
    exact absurd hc (by decide)

/-- What begins with a digit is a numeral. -/
theorem first?_of_isDigit {c : Char} (hc : c.isDigit = true) (cs : List Char) :
    first? (c :: cs) =
      some (numeral (String.ofList (c :: cs.takeWhile Char.isDigit)), cs.dropWhile Char.isDigit) := by
  unfold first?
  split
  case h_20 hequal =>
    obtain ⟨rfl, rfl⟩ := List.cons.inj hequal
    rw [if_pos hc]
  case h_21 => contradiction
  all_goals
    rename_i hequal
    obtain ⟨rfl, -⟩ := List.cons.inj hequal
    exact absurd hc (by decide)

theorem scans_plainName {text : String} (h : isPlainName text.toList = true) :
    Scans text.toList [name text] := by
  cases htext : text.toList with
  | nil => simp [htext, isPlainName] at h
  | cons c cs =>
      obtain ⟨hc, hcs⟩ := Bool.and_eq_true_iff.mp (htext ▸ h)
      have hspelled : String.ofList (c :: cs) = text := by rw [← htext, String.ofList_toList]
      apply Scans.of_first?
      intro rest hrest
      obtain ⟨htake, hdrop⟩ := takeWhile_boundary (List.all_eq_true.mp hcs)
        (hrest.not_head (p := isNamePart) rfl rfl)
      rw [List.cons_append, first?_of_isNameStart hc, htake, hdrop, hspelled]

theorem scans_quotedName {text : String} (h : '\x22' ∉ text.toList) :
    Scans ('\x22' :: text.toList ++ ['\x22']) [name text] := by
  apply Scans.of_first?
  intro rest _
  have hinside : ∀ c ∈ text.toList, (c != '\x22') = true := by
    intro c hc
    simpa using ne_of_mem_of_not_mem hc h
  have hquote : ∀ c ∈ ('\x22' :: rest).head?, (c != '\x22') = false := by simp
  obtain ⟨htake, hdrop⟩ := takeWhile_boundary hinside hquote
  simp [first?, htake, hdrop]

theorem scans_nameText {text : String} (h : '\x22' ∉ text.toList) :
    Scans (Phrase.nameText text).toList [name text] := by
  by_cases hplain : isPlainName text.toList = true
  · rw [Phrase.nameText, if_pos hplain]
    exact scans_plainName hplain
  · rw [Phrase.nameText, if_neg hplain]
    simpa using scans_quotedName h

theorem scans_digits {c : Char} {cs : List Char} (hc : ∀ d ∈ c :: cs, d.isDigit = true) :
    Scans (c :: cs) [numeral (String.ofList (c :: cs))] := by
  obtain ⟨hfirst, hcs⟩ := List.forall_mem_cons.mp hc
  apply Scans.of_first?
  intro rest hrest
  obtain ⟨htake, hdrop⟩ := takeWhile_boundary hcs (hrest.not_head (p := Char.isDigit) rfl rfl)
  rw [List.cons_append, first?_of_isDigit hfirst, htake, hdrop]

theorem scans_minus {c : Char} {cs : List Char} (hc : ∀ d ∈ c :: cs, d.isDigit = true) :
    Scans ('-' :: c :: cs) [numeral (String.ofList ('-' :: c :: cs))] := by
  apply Scans.of_first?
  intro rest hrest
  obtain ⟨htake, hdrop⟩ := takeWhile_boundary hc (hrest.not_head (p := Char.isDigit) rfl rfl)
  rw [List.cons_append]
  simp only [first?, htake, hdrop]

/-- The decimal text of an integer is a numeral. -/
theorem scans_toString (i : Int) : Scans (toString i).toList [numeral (toString i)] := by
  have hspelled : ∀ {cs}, (toString i).toList = cs → Scans cs [numeral (String.ofList cs)] →
      Scans (toString i).toList [numeral (toString i)] := by
    rintro _ rfl h
    rwa [String.ofList_toList] at h
  cases i with
  | ofNat n =>
      obtain ⟨c, cs, hcs⟩ := List.exists_cons_of_ne_nil (Nat.toDigits_ne_nil (n := n) (b := 10))
      exact hspelled ((Text.toList_toString_natCast n).trans hcs)
        (scans_digits (hcs ▸ Text.isDigit_of_mem_toDigits n))
  | negSucc n =>
      obtain ⟨c, cs, hcs⟩ := List.exists_cons_of_ne_nil (Nat.toDigits_ne_nil (n := n + 1) (b := 10))
      exact hspelled ((Text.toList_toString_negSucc n).trans (congrArg _ hcs))
        (scans_minus (hcs ▸ Text.isDigit_of_mem_toDigits (n + 1)))

/-! ### What the tokens of a text are -/

/-- At least one digit, behind a minus sign or not. -/
def IsNumeral (text : String) : Prop :=
  ∃ digits, digits ≠ [] ∧ (∀ c ∈ digits, c.isDigit = true) ∧
    (text.toList = digits ∨ text.toList = '-' :: digits)

/-- What is known of a token of a text: names and numerals stand in the text, a name holds no
quotation mark, and a numeral has digits. -/
def Lexical (source : List Char) : Token → Prop
  | name text => text.toList <:+: source ∧ '\x22' ∉ text.toList
  | numeral text => text.toList <:+: source ∧ IsNumeral text
  | _ => True

theorem Lexical.mono (h : t.Lexical ds) (hsuffix : ds <:+ cs) : t.Lexical cs := by
  cases t with
  | name | numeral => exact h.imp_left fun hinfix => hinfix.trans hsuffix.isInfix
  | _ => trivial

/-- A token is cut off from the front of a text. -/
theorem lexical_of_first? {rest : List Char} (h : first? cs = some (t, rest)) :
    t.Lexical cs ∧ rest <:+ cs := by
  have digits : ∀ ds : List Char, ∀ d ∈ ds.takeWhile Char.isDigit, d.isDigit = true :=
    fun _ _ hd => List.mem_takeWhile_imp hd
  have front : ∀ (p : Char → Bool) (c : Char) (ds : List Char),
      (c :: ds.takeWhile p) <:+: c :: ds ∧ ds.dropWhile p <:+ c :: ds := fun p c ds =>
    ⟨List.IsPrefix.isInfix (List.cons_prefix_cons.mpr ⟨rfl, List.takeWhile_prefix p⟩),
      (List.dropWhile_suffix p).trans (List.suffix_cons c ds)⟩
  unfold first? at h
  split at h
  case h_18 rest =>
    split at h
    · contradiction
    · next last after hafter =>
        obtain ⟨rfl, rfl⟩ := Prod.mk.inj (Option.some.inj h)
        refine ⟨⟨?_, ?_⟩, ?_⟩
        · rw [String.toList_ofList]
          exact ((List.takeWhile_prefix _).isInfix).trans (List.suffix_cons _ _).isInfix
        · rw [String.toList_ofList]
          exact fun hmem => by simpa using List.mem_takeWhile_imp hmem
        · exact (List.suffix_cons last after).trans (hafter ▸ (front _ _ _).2)
  case h_19 rest =>
    split at h
    · contradiction
    · next hne =>
        obtain ⟨rfl, rfl⟩ := Prod.mk.inj (Option.some.inj h)
        refine ⟨⟨?_, _, hne, digits rest, Or.inr String.toList_ofList⟩, (front _ _ _).2⟩
        rw [String.toList_ofList]
        exact (front _ _ _).1
  case h_20 c rest _ _ _ _ _ _ _ _ _ _ _ _ _ _ _ _ _ _ _ =>
    split at h
    · next hc =>
        obtain ⟨rfl, rfl⟩ := Prod.mk.inj (Option.some.inj h)
        refine ⟨⟨?_, _, List.cons_ne_nil _ _, List.forall_mem_cons.mpr ⟨hc, digits rest⟩,
          Or.inl String.toList_ofList⟩, (front _ _ _).2⟩
        rw [String.toList_ofList]
        exact (front _ _ _).1
    · split at h
      · next hc =>
          obtain ⟨rfl, rfl⟩ := Prod.mk.inj (Option.some.inj h)
          refine ⟨⟨?_, ?_⟩, (front _ _ _).2⟩
          · rw [String.toList_ofList]
            exact (front _ _ _).1
          · rw [String.toList_ofList, List.mem_cons, not_or]
            refine ⟨?_, fun hmem => ?_⟩
            · rintro rfl
              revert hc
              decide
            · have hpart := List.mem_takeWhile_imp hmem
              revert hpart
              decide
      · contradiction
  case h_21 => contradiction
  all_goals
    obtain ⟨rfl, rfl⟩ := Prod.mk.inj (Option.some.inj h)
    refine ⟨trivial, ?_⟩
    simp only [List.suffix_cons_iff, or_true, List.suffix_rfl]

theorem lexical_of_scan (h : scan cs = some ts) : ∀ t ∈ ts, t.Lexical cs := by
  induction cs using scan_induction generalizing ts with
  | nil =>
      obtain rfl := Option.some.inj (scan_nil.symm.trans h)
      simp
  | layout c cs hc ih =>
      rw [scan_of_layout hc] at h
      exact fun t ht => (ih h t ht).mono (List.suffix_cons c cs)
  | stuck c cs hc hfirst =>
      rw [scan_of_none hc hfirst] at h
      contradiction
  | token cs t rest hfirst ih =>
      rw [scan_eq_of_first? hfirst] at h
      obtain ⟨us, hrest, rfl⟩ := Option.map_eq_some_iff.mp h
      obtain ⟨hlexical, hsuffix⟩ := lexical_of_first? hfirst
      exact List.forall_mem_cons.mpr ⟨hlexical, fun u hu => (ih hrest u hu).mono hsuffix⟩

end Token

end ClauseForm
