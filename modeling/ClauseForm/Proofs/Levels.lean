import ClauseForm.Proofs.Splitting
import ClauseForm.Proofs.Writing

/-!
The levels on which items are read.

Operators of strength one to four join formulas, those of strength five and six join terms.  What
stands below an operator is read on its level, and `ReadsBelow.weaken` says that it is read in the
same way on all weaker levels, since it contains none of their operators.
-/

namespace ClauseForm

namespace Reading

variable {items : List Item} {sep : Token} {inner : List Item → Option Reading}
  {join : List Reading → Option Reading} {r : Reading} {e : Expression}

/-- Reading the parts of a chain and putting them together. -/
def chain (sep : Token) (inner : List Item → Option Reading)
    (join : List Reading → Option Reading) (items : List Item) : Option Reading := do
  join (← (items.splitOnP (Item.isToken sep)).mapM inner)

/-- A certain token does not stand between items. -/
def Free (sep : Token) (items : List Item) : Prop := ∀ i ∈ items, i.isToken sep = false

theorem chain_of_free (hfree : Free sep items) (hread : inner items = some r)
    (hjoin : join [r] = some r) : chain sep inner join items = some r := by
  rw [chain, List.splitOnP_eq_singleton hfree]
  simp [hread, hjoin]

theorem chain_intercalate {parts : List (List Item)} {rs : List Reading} (hne : parts ≠ [])
    (hfree : ∀ part ∈ parts, Free sep part) (hread : parts.mapM inner = some rs) :
    chain sep inner join ([.token sep].intercalate parts) = join rs := by
  rw [chain, splitOnP_intercalate (by simp [Item.isToken]) hne hfree]
  simp [hread]

/-- The operator of a strength. -/
def separator : Nat → Token
  | 1 => .equivalence
  | 2 => .implication
  | 3 => .disjunction
  | 4 => .conjunction
  | 5 => .plus
  | _ => .times

theorem separator_ne_opening (s : Nat) : separator s ≠ .opening := by
  match s with
  | 0 | 1 | 2 | 3 | 4 | 5 | _ + 6 => exact Token.noConfusion

theorem separator_ne_closing (s : Nat) : separator s ≠ .closing := by
  match s with
  | 0 | 1 | 2 | 3 | 4 | 5 | _ + 6 => exact Token.noConfusion

/-- What the operator of a strength makes of its operands. -/
def combine : Nat → List Reading → Option Reading
  | 1, parts => nested .equivalent parts
  | 2, parts => nested .implies parts
  | 3, parts => some (junction .or parts)
  | 4, parts => some (junction .and parts)
  | 5, parts => some (junction .sum parts)
  | _, parts => some (junction .product parts)

/-- The strengths of the operators on a category. -/
def Operates (c : Category) (s : Nat) : Prop :=
  match c with
  | .formula => 1 ≤ s ∧ s ≤ 4
  | .term => 5 ≤ s ∧ s ≤ 6

/-- How the operands of an operator of some strength are read. -/
def readBelow : Category → Nat → List Item → Option Reading
  | .formula, 0 => formula
  | .formula, 1 => implication
  | .formula, 2 => disjunction
  | .formula, 3 => conjunction
  | .formula, _ => unary
  | .term, 0 | .term, 1 | .term, 2 | .term, 3 | .term, 4 => term
  | .term, 5 => product
  | .term, _ => factor

variable {c : Category} {s t : Nat}

theorem readBelow_of_operates (h : Operates c (s + 1)) :
    readBelow c s = chain (separator (s + 1)) (readBelow c (s + 1)) (combine (s + 1)) := by
  cases c with
  | formula =>
      match s, h with
      | 0, _ | 1, _ | 2, _ | 3, _ => rfl
  | term =>
      match s, h with
      | 4, _ | 5, _ => rfl

theorem readBelow_of_not_operates (h : ¬ Operates c (s + 1)) :
    readBelow c s = readBelow c (s + 1) := by
  cases c with
  | formula =>
      match s, h with
      | 0, h | 1, h | 2, h | 3, h => exact absurd (by simp [Operates]) h
      | s + 4, _ => rfl
  | term =>
      match s, h with
      | 0, _ | 1, _ | 2, _ | 3, _ => rfl
      | 4, h | 5, h => exact absurd (by simp [Operates]) h
      | s + 6, _ => rfl

theorem combine_singleton (s : Nat) (r : Reading) : combine s [r] = some r := by
  match s with
  | 0 | 1 | 2 | 3 | 4 | 5 | _ + 6 => rfl

theorem separator_ne (hs : s ≤ 6) (ht : 1 ≤ t) (h : t < s) : separator s ≠ separator t := by
  have all : ∀ s < 7, ∀ t < s, 1 ≤ t → separator s ≠ separator t := by decide
  exact all s (Nat.lt_succ_of_le hs) t h ht

theorem Operates.bounds (h : Operates c s) : 1 ≤ s ∧ s ≤ 6 := by
  cases c <;> simp only [Operates] at h <;> omega

/-- Items are read as an expression below an operator, and hold none of the operators that are not
stronger. -/
structure ReadsBelow (c : Category) (s : Nat) (items : List Item) (e : Expression) : Prop where
  free : ∀ t, t ≤ s → Operates c t → Free (separator t) items
  read : readBelow c s items = some (.ok e)

/-- What is read below an operator is read in the same way below all weaker ones. -/
theorem ReadsBelow.weaken (h : ReadsBelow c s items e) (hle : t ≤ s) : ReadsBelow c t items e := by
  induction s with
  | zero => rwa [Nat.le_zero.mp hle]
  | succ s ih =>
      rcases Nat.le_succ_iff.mp hle with hle | rfl
      · refine ih ⟨fun k hk => h.free k (by omega), ?_⟩ hle
        by_cases hoperates : Operates c (s + 1)
        · rw [readBelow_of_operates hoperates]
          exact chain_of_free (h.free _ (Nat.le_refl _) hoperates) h.read (combine_singleton ..)
        · rw [readBelow_of_not_operates hoperates]
          exact h.read
      · exact h

/-- Operands joined by their operator are read as what it makes of them. -/
theorem readsBelow_intercalate {parts : List (List Item)} {es : List Expression}
    (hs : Operates c (s + 1)) (hne : parts ≠ [])
    (hfree : ∀ part ∈ parts, ∀ t, t ≤ s + 1 → Operates c t → Free (separator t) part)
    (hread : parts.mapM (readBelow c (s + 1)) = some (es.map .ok))
    (hjoin : combine (s + 1) (es.map .ok) = some (.ok e)) :
    ReadsBelow c s ([.token (separator (s + 1))].intercalate parts) e where
  free t ht hoperates := by
    have hother : separator (s + 1) ≠ separator t :=
      separator_ne hs.bounds.2 hoperates.bounds.1 (by omega)
    exact forall_mem_intercalate (by simpa [Item.isToken] using hother) fun part hpart =>
      hfree part hpart t (by omega) hoperates
  read := by
    rw [readBelow_of_operates hs, chain_intercalate hne
      (fun part hpart => hfree part hpart _ (Nat.le_refl _) hs) hread, hjoin]

/-- What is read as an atom with its signs is read so below all operators on formulas. -/
theorem readsBelow_of_unary (hfree : ∀ t, Operates .formula t → Free (separator t) items)
    (hread : unary items = some (.ok e)) (s : Nat) : ReadsBelow .formula s items e :=
  ReadsBelow.weaken (s := s + 4) ⟨fun t _ => hfree t, hread⟩ (Nat.le_add_right s 4)

/-- What is read as a factor is read so below all operators on terms. -/
theorem readsBelow_of_factor (hfree : ∀ t, Operates .term t → Free (separator t) items)
    (hread : factor items = some (.ok e)) (s : Nat) : ReadsBelow .term s items e :=
  ReadsBelow.weaken (s := s + 6) ⟨fun t _ => hfree t, hread⟩ (Nat.le_add_right s 6)

/-- Decides whether a token is none of the operators and parentheses. -/
def isWord : Token → Bool
  | .verum | .falsum | .name _ | .numeral _ | .negation | .comparison _ => true
  | _ => false

theorem isToken_separator_of_isWord {t : Token} (ht : isWord t = true) (s : Nat) :
    (Item.token t).isToken (separator s) = false := by
  match s with
  | 0 | 1 | 2 | 3 | 4 | 5 | _ + 6 => cases t <;> first | rfl | cases ht

theorem free_word {t : Token} (ht : isWord t = true) (s : Nat) : Free (separator s) [.token t] :=
  List.forall_mem_singleton.mpr (isToken_separator_of_isWord ht s)

theorem free_group (asFormula asTerm : Option Reading) (sep : Token) :
    Free sep [.group asFormula asTerm] := by
  simp [Free, Item.isToken]

/-- In parentheses an expression is read below all operators on its category. -/
theorem readsBelow_group (h : ReadsBelow c 0 items e) (s : Nat) :
    ReadsBelow c s [.group (formula items) (term items)] e := by
  cases c with
  | formula =>
      have hread : formula items = some (.ok e) := h.read
      exact readsBelow_of_unary (fun t _ => free_group _ _ _) (by rw [hread]; rfl) s
  | term => exact readsBelow_of_factor (fun t _ => free_group _ _ _) h.read s

/-- The decimal text of a constant is read as the constant. -/
theorem numeral_toString (value : Int64) :
    numeral (toString value.toInt) = .ok (.constant value) := by
  have inRange : ∀ i : Int, i = value.toInt →
      (if Int64.minValue.toInt ≤ i ∧ i ≤ Int64.maxValue.toInt then
        (.ok (.constant (Int64.ofInt i)) : Reading)
      else .error (toString value.toInt)) = .ok (.constant value) := by
    rintro _ rfl
    rw [if_pos ⟨value.minValue_le_toInt, value.toInt_le⟩, Int64.ofInt_toInt]
  refine inRange _ ?_
  cases value.toInt with
  | ofNat n =>
      rw [Int.ofNat_eq_natCast, Text.toList_toString_natCast]
      split
      · rename_i digits hdigits
        have hminus : '-' ∈ Nat.toDigits 10 n := by simp [hdigits]
        exact absurd (Nat.isDigit_of_mem_toDigits (by decide) (by decide) hminus) (by decide)
      · rw [Nat.ofDigitChars_ten_toDigits]
  | negSucc n =>
      rw [Text.toList_toString_negSucc]
      simp only [Nat.ofDigitChars_ten_toDigits]
      rfl

theorem map_negated_succ {n : Nat} {o : Option Reading}
    (h : o.map (fun r => r.map (negated n)) = some (.ok e)) :
    o.map (fun r => r.map (negated (n + 1))) = some (.ok (.node .not [e])) := by
  obtain ⟨r, rfl, hr⟩ := Option.map_eq_some_iff.mp h
  cases r with
  | error text => contradiction
  | ok f =>
      obtain rfl := Except.ok.inj hr
      rfl

/-- A further sign in front of an atom negates it, unless the atom is a name without signs. -/
theorem atom_succ {n : Nat} (hname : n = 0 → ∀ text, items ≠ [.token (.name text)])
    (h : atom n items = some (.ok e)) : atom (n + 1) items = some (.ok (.node .not [e])) := by
  unfold atom at h ⊢
  split at h
  · exact map_negated_succ (o := some (.ok _)) h
  · exact map_negated_succ (o := some (.ok _)) h
  · rename_i text
    cases n with
    | zero => exact absurd rfl (hname rfl text)
    | succ n => exact map_negated_succ (o := some (.ok _)) h
  · exact map_negated_succ h
  · exact map_negated_succ h

theorem unary_negation (hname : ∀ text, items ≠ [.token (.name text)])
    (h : unary items = some (.ok e)) :
    unary (.token .negation :: items) = some (.ok (.node .not [e])) := by
  have hsign : (Item.token .negation).isToken .negation = true := rfl
  rw [unary, List.takeWhile_cons_of_pos hsign, List.dropWhile_cons_of_pos hsign, List.length_cons]
  refine atom_succ (fun hnone => ?_) h
  have hsame : items.dropWhile (Item.isToken .negation) = items := by
    have := List.takeWhile_append_dropWhile (p := Item.isToken .negation) (l := items)
    rwa [List.length_eq_zero_iff.mp hnone, List.nil_append] at this
  rwa [hsame]

/-- Behind all of its signs an atom is read as an atom with as many. -/
theorem unary_replicate (n : Nat) (hhead : ∀ i ∈ items.head?, i.isToken .negation = false) :
    unary (List.replicate n (.token .negation) ++ items) = atom n items := by
  have hsigns : ∀ i ∈ List.replicate n (Item.token .negation), i.isToken .negation = true := by
    simp [Item.isToken]
  have hitems : items.takeWhile (Item.isToken .negation) = [] ∧
      items.dropWhile (Item.isToken .negation) = items := by
    cases items with
    | nil => exact ⟨rfl, rfl⟩
    | cons i items => simp [hhead i rfl]
  rw [unary, List.takeWhile_append_of_pos hsigns, List.dropWhile_append_of_pos hsigns, hitems.1,
    hitems.2, List.append_nil, List.length_replicate]

/-- Decides whether an item can be part of a term. -/
def isTermPart : Item → Bool
  | .token (.name _) | .token (.numeral _) | .token .plus | .token .times | .group .. => true
  | _ => false

theorem isTermPart_separator (i : Item) (hi : isTermPart i = true) (hs : Operates .formula s) :
    i.isToken (separator s) = false := by
  match s, hs with
  | 1, _ | 2, _ | 3, _ | 4, _ =>
      cases i with
      | group => rfl
      | token t => cases t <;> first | rfl | cases hi

theorem not_negation_of_isTermPart {i : Item} (hi : isTermPart i = true) :
    ¬ i.isToken .negation = true := by
  cases i with
  | group => exact Bool.false_ne_true
  | token t => cases t <;> first | exact Bool.false_ne_true | cases hi

theorem comparison?_of_isTermPart {i : Item} (hi : isTermPart i = true) :
    i.comparison?.isNone = true := by
  cases i with
  | group => rfl
  | token t => cases t <;> first | rfl | cases hi

theorem atom_of_two (n : Nat) (i j : Item) (items : List Item) :
    atom n (i :: j :: items) =
      (comparison (i :: j :: items)).map fun r => r.map (negated n) := by
  cases i with
  | group => rfl
  | token t => cases t <;> rfl

theorem comparison_eq {left right : List Item} {a b : Reading} (sign : Comparison)
    (hparts : ∀ i ∈ left, isTermPart i = true) (hleft : term left = some a)
    (hright : term right = some b) :
    comparison (left ++ .token (.comparison sign) :: right) = some (do
      let l ← a
      let r ← b
      return .node (.compare sign) [l, r]) := by
  have hbefore : ∀ i ∈ left, i.comparison?.isNone = true := fun i hi =>
    comparison?_of_isTermPart (hparts i hi)
  have hsign : (Item.token (.comparison sign)).comparison?.isNone = false := rfl
  rw [comparison, List.dropWhile_append_of_pos hbefore, List.takeWhile_append_of_pos hbefore]
  simp only [List.dropWhile_cons, List.takeWhile_cons, hsign, Bool.false_eq_true, if_false,
    List.append_nil, hleft, hright]
  rfl

/-- Two terms with the sign of a comparison between them are read as the comparison. -/
theorem unary_comparison {left right : List Item} {a b : Expression} {sign : Comparison}
    (hparts : ∀ i ∈ left, isTermPart i = true) (hleft : term left = some (.ok a))
    (hright : term right = some (.ok b)) :
    unary (left ++ .token (.comparison sign) :: right) =
      some (.ok (.node (.compare sign) [a, b])) := by
  have hread := comparison_eq sign hparts hleft hright
  cases left with
  | nil => contradiction
  | cons i left =>
      have hfirst := not_negation_of_isTermPart (hparts i List.mem_cons_self)
      rw [List.cons_append] at hread ⊢
      rw [unary, List.takeWhile_cons_of_neg hfirst, List.dropWhile_cons_of_neg hfirst]
      obtain ⟨j, items, hitems⟩ :
          ∃ j items, left ++ .token (.comparison sign) :: right = j :: items := by
        cases left <;> exact ⟨_, _, rfl⟩
      rw [hitems] at hread ⊢
      rw [atom_of_two, hread]
      rfl

end Reading

end ClauseForm
