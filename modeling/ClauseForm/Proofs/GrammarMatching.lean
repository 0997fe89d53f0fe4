import ClauseForm.Proofs.GrammarReading

/-!
Whatever is read the grammar matches.

Where the items at the front of a text are read on a level, and the token behind them ends that
level, the rule of the level matches up to that token.  The alternatives that the grammar tries
before fail, because what they match would be read differently.
-/

namespace ClauseForm

namespace Grammar

open Peg Reading

variable {cs mid rest : List Char} {ts us vs : List Token} {t : Token} {items inner : List Item}
  {e : Peg Rule} {n s k : Nat} {c : Category} {r : Reading}

/-- The tokens that end what stands below an operator of some strength: a closing parenthesis, the
operator itself and weaker ones, and behind a term the sign of a comparison. -/
def Ends (c : Category) (s : Nat) (t : Token) : Prop :=
  t = .closing ∨ (∃ k, 1 ≤ k ∧ k ≤ s ∧ t = separator k) ∨
    c = .term ∧ ∃ sign, t = .comparison sign

theorem Ends.mono (h : Ends c s t) (hle : s ≤ k) : Ends c k t := by
  rcases h with h | ⟨j, hpos, hj, h⟩ | h
  · exact Or.inl h
  · exact Or.inr (Or.inl ⟨j, hpos, Nat.le_trans hj hle, h⟩)
  · exact Or.inr (Or.inr h)

theorem Ends.term (h : Ends .formula s t) : Ends .term s t := by
  rcases h with h | h | ⟨h, -⟩
  · exact Or.inl h
  · exact Or.inr (Or.inl h)
  · contradiction

theorem separator_ne_comparison (s : Nat) (sign : Comparison) : separator s ≠ .comparison sign := by
  match s with
  | 0 | 1 | 2 | 3 | 4 | 5 | _ + 6 => exact Token.noConfusion

/-- A stronger operator does not end a level. -/
theorem Ends.ne_separator (h : Ends c s t) (hs : s < k) (hk : k ≤ 6) : t ≠ separator k := by
  rcases h with rfl | ⟨j, hpos, hj, rfl⟩ | ⟨-, sign, rfl⟩
  · exact (separator_ne_closing k).symm
  · exact (separator_ne hk hpos (by omega)).symm
  · exact (separator_ne_comparison k sign).symm

/-- Items at the front of a text that are read on a level match, if the next token ends the
level. -/
def Matches (n : Nat) (c : Category) (s : Nat) : Prop :=
  ∀ cs ts us items r, cs.length ≤ n → Token.Flush cs → Token.scan cs = some (ts ++ us) →
    Grouped ts items → readBelow c s items = some r → (∀ t ∈ us.head?, Ends c s t) →
    ∃ trees rest, Parses body (pegBelow c s) cs (some (trees, rest)) ∧ Token.scan rest = some us

theorem text_fails_of_scan {text : String} (hs : t.spelling? = some text)
    (hscan : Token.scan cs = some us) (hne : ∀ u ∈ us.head?, u ≠ t) :
    Parses body (.text text) cs none := by
  refine (settles_text text).fails (Nat.le_refl _) fun ts rest h => ?_
  obtain ⟨-, hfirst⟩ := (parses_text_iff_first? hs).mp h
  have hcut := Token.scan_eq_of_first? hfirst
  rw [hscan] at hcut
  obtain ⟨vs, -, hvs⟩ := Option.map_eq_some_iff.mp hcut.symm
  exact hne t (by rw [← hvs]; rfl) rfl

/-- Layout in front of a text does not change its tokens. -/
theorem scan_flush (hscan : Token.scan cs = some us) :
    Token.Flush (cs.dropWhile Token.isLayout) ∧ Token.scan (cs.dropWhile Token.isLayout) = some us :=
  ⟨Token.flush_dropWhile cs, (Token.scan_dropWhile cs).trans hscan⟩

/-! ### Series -/

/-- An operator and its operand match. -/
theorem match_operand (hop : Operates c (s + 1)) (h : Matches n c (s + 1)) (hcs : cs.length ≤ n)
    (hflush : Token.Flush cs) (hscan : Token.scan cs = some (separator (s + 1) :: ts ++ us))
    (hts : Grouped ts items) (hread : readBelow c (s + 1) items = some r)
    (hends : ∀ t ∈ us.head?, Ends c (s + 1) t) :
    ∃ trees rest, Parses body (followed (.text (operator (s + 1))) (pegBelow c (s + 1))) cs
      (some (trees, rest)) ∧ Token.scan rest = some us := by
  obtain ⟨behind, hfirst, hbehind⟩ := Token.first?_of_scan hflush hscan
  have htext : Parses body (.text (operator (s + 1))) cs (some ([], behind)) :=
    (parses_text_iff_first? (spelling?_separator hop)).mpr ⟨rfl, hfirst⟩
  obtain ⟨hflush', hscan'⟩ := scan_flush hbehind
  obtain ⟨trees, rest, hoperand, hrest⟩ :=
    h _ ts us items r (length_flush_le htext hcs) hflush' hscan' hts hread hends
  exact ⟨_, rest, parses_followed_iff.mpr ⟨_, _, _, htext, hoperand, rfl⟩, hrest⟩

/-- Behind an operand stands its operator or what ends the whole series. -/
theorem ends_behind (hop : Operates c (s + 1)) {parts : List (List Item)}
    (hts : Grouped ts (parts.flatMap (.token (separator (s + 1)) :: ·)))
    (hends : ∀ t ∈ us.head?, Ends c s t) : ∀ t ∈ (ts ++ us).head?, Ends c (s + 1) t := by
  cases parts with
  | nil =>
      cases hts
      exact fun t ht => (hends t ht).mono (Nat.le_succ s)
  | cons part parts =>
      obtain ⟨ws, rfl, -⟩ := hts.of_token_cons
      rintro _ ⟨rfl⟩
      exact Or.inr (Or.inl ⟨s + 1, hop.bounds.1, Nat.le_refl _, rfl⟩)

/-- The operator of a series does not match where the series ends. -/
theorem operand_fails (hop : Operates c (s + 1)) (hscan : Token.scan cs = some us)
    (hends : ∀ t ∈ us.head?, Ends c s t) :
    Parses body (followed (.text (operator (s + 1))) e) cs none :=
  .seq_fails (text_fails_of_scan (spelling?_separator hop) hscan fun t ht =>
    (hends t ht).ne_separator (Nat.lt_succ_self s) hop.bounds.2)

theorem match_operands (hop : Operates c (s + 1)) (h : Matches n c (s + 1))
    {parts : List (List Item)} {rs : List Reading} (hcs : cs.length ≤ n)
    (hscan : Token.scan cs = some (ts ++ us))
    (hts : Grouped ts (parts.flatMap (.token (separator (s + 1)) :: ·)))
    (hread : parts.mapM (readBelow c (s + 1)) = some rs) (hends : ∀ t ∈ us.head?, Ends c s t) :
    ∃ trees rest, Parses body
      (.many (.seq layout (followed (.text (operator (s + 1))) (pegBelow c (s + 1))))) cs
      (some (trees, rest)) ∧ Token.scan rest = some us := by
  induction parts generalizing cs ts rs with
  | nil =>
      cases hts
      have hfails := operand_fails (e := pegBelow c (s + 1)) hop (scan_flush hscan).2 hends
      exact ⟨_, cs, .stop (.seq_fails_behind (parses_layout_iff.mpr rfl) hfails), hscan⟩
  | cons part parts ih =>
      obtain ⟨ws, rfl, hws⟩ := hts.of_token_cons
      obtain ⟨xs, vs, rfl, hxs, hvs⟩ := hws.of_append
      obtain ⟨q, qs, hq, hqs⟩ := exists_of_mapM_cons hread
      obtain ⟨hflush, hscan'⟩ := scan_flush hscan
      rw [← List.cons_append, List.append_assoc] at hscan'
      have hlayout : Parses body layout cs (some ([], cs.dropWhile Token.isLayout)) :=
        parses_layout_iff.mpr rfl
      obtain ⟨trees, mid, hoperand, hmid⟩ := match_operand hop h
        (Nat.le_trans hlayout.length_le hcs) hflush hscan' hxs hq (ends_behind hop hvs hends)
      obtain ⟨others, rest, hothers, hrest⟩ := ih
        (Nat.le_trans hoperand.length_le (Nat.le_trans hlayout.length_le hcs)) hmid hvs hqs
      exact ⟨_, rest, .step (.seq hlayout hoperand) hothers, hrest⟩

/-- What follows the first operand of a series matches. -/
theorem match_repeated (hop : Operates c (s + 1)) (h : Matches n c (s + 1))
    {parts : List (List Item)} {rs : List Reading} (hcs : cs.length ≤ n)
    (hflush : Token.Flush cs) (hscan : Token.scan cs = some (ts ++ us))
    (hts : Grouped ts (parts.flatMap (.token (separator (s + 1)) :: ·)))
    (hread : parts.mapM (readBelow c (s + 1)) = some rs) (hends : ∀ t ∈ us.head?, Ends c s t) :
    ∃ trees rest, Parses body
      (repeated (followed (.text (operator (s + 1))) (pegBelow c (s + 1)))) cs
      (some (trees, rest)) ∧ Token.scan rest = some us := by
  cases parts with
  | nil =>
      cases hts
      exact ⟨_, cs, .second (.seq_fails (operand_fails hop hscan hends)) .empty, hscan⟩
  | cons part parts =>
      obtain ⟨ws, rfl, hws⟩ := hts.of_token_cons
      obtain ⟨xs, vs, rfl, hxs, hvs⟩ := hws.of_append
      obtain ⟨q, qs, hq, hqs⟩ := exists_of_mapM_cons hread
      rw [← List.cons_append, List.append_assoc] at hscan
      obtain ⟨trees, mid, hoperand, hmid⟩ :=
        match_operand hop h hcs hflush hscan hxs hq (ends_behind hop hvs hends)
      obtain ⟨others, rest, hothers, hrest⟩ :=
        match_operands hop h (Nat.le_trans hoperand.length_le hcs) hmid hvs hqs hends
      exact ⟨_, rest, .first (.seq hoperand hothers), hrest⟩

/-- A series matches if its operands do. -/
theorem matches_series (hop : Operates c (s + 1)) (h : Matches n c (s + 1)) : Matches n c s := by
  intro cs ts us items r hcs hflush hscan hts hread hends
  rw [readBelow_of_operates hop] at hread
  obtain ⟨parts, rs, hne, rfl, hparts, -⟩ := exists_of_chain hread
  obtain ⟨rule, hpeg, hbody, -⟩ := exists_rule_below hop
  obtain ⟨part, parts, rfl⟩ := List.exists_cons_of_ne_nil hne
  rw [intercalate_cons] at hts
  obtain ⟨xs, vs, rfl, hxs, hvs⟩ := hts.of_append
  obtain ⟨q, qs, hq, hqs⟩ := exists_of_mapM_cons hparts
  rw [List.append_assoc] at hscan
  obtain ⟨trees, mid, hfirst, hmid⟩ :=
    h cs xs _ part q hcs hflush hscan hxs hq (ends_behind hop hvs hends)
  obtain ⟨hflush', hmid'⟩ := scan_flush hmid
  obtain ⟨others, rest, hothers, hrest⟩ :=
    match_repeated hop h (length_flush_le hfirst hcs) hflush' hmid' hvs hqs hends
  have hseries : Parses body (body rule) cs (some (trees ++ others, rest)) := by
    rw [hbody]
    exact parses_followed_iff.mpr ⟨_, _, _, hfirst, hothers, rfl⟩
  obtain ⟨tree, htree⟩ := hseries.exists_rule
  rw [hpeg]
  exact ⟨_, rest, htree, hrest⟩

/-! ### Parentheses and terms -/

/-- What stands in parentheses matches with them. -/
theorem match_parenthesized (h : ∀ m < n, Matches m c s) (hcs : cs.length ≤ n)
    (hflush : Token.Flush cs)
    (hscan : Token.scan cs = some (.opening :: (ts ++ .closing :: us)))
    (hts : Grouped ts inner) (hread : readBelow c s inner = some r) :
    ∃ trees rest, Parses body (parenthesized (pegBelow c s)) cs (some (trees, rest)) ∧
      Token.scan rest = some us := by
  obtain ⟨inside, hopening, hinside⟩ := Token.first?_of_scan hflush hscan
  have hfirst : Parses body (.text "(") cs (some ([], inside)) :=
    (parses_text_iff_first? (t := .opening) rfl).mpr ⟨rfl, hopening⟩
  obtain ⟨hflush', hinside'⟩ := scan_flush hinside
  obtain ⟨trees, behind, hmatch, hbehind⟩ := h _ (length_flush_lt hfirst hcs) _ ts (.closing :: us) inner r (Nat.le_refl _)
    hflush' hinside' hts hread (by rintro _ ⟨rfl⟩; exact Or.inl rfl)
  obtain ⟨hflush'', hbehind'⟩ := scan_flush hbehind
  obtain ⟨rest, hclosing, hrest⟩ := Token.first?_of_scan hflush'' hbehind'
  have hlast : Parses body (.text ")") (behind.dropWhile Token.isLayout) (some ([], rest)) :=
    (parses_text_iff_first? (t := .closing) rfl).mpr ⟨rfl, hclosing⟩
  exact ⟨_, rest, parses_followed_iff.mpr ⟨_, _, _, hfirst,
    parses_followed_iff.mpr ⟨_, _, _, hmatch, hlast, rfl⟩, rfl⟩, hrest⟩

/-- A number does not match where another token stands. -/
theorem number_fails (hfirst : Token.first? cs = some (t, rest)) (ht : ∀ text, t ≠ .numeral text) :
    Parses body (.rule .number) cs none := by
  refine settles_number.fails (Nat.le_refl _) fun ts after h => ?_
  obtain ⟨text, hother, -⟩ := parses_number_iff.mp h
  rw [hfirst] at hother
  exact ht text (Prod.mk.inj (Option.some.inj hother)).1

/-- A name does not match where another token stands. -/
theorem name_fails (hfirst : Token.first? cs = some (t, rest)) (ht : ∀ text, t ≠ .name text) :
    Parses body (.rule .name) cs none := by
  refine settles_name.fails (Nat.le_refl _) fun ts after h => ?_
  obtain ⟨_, text, -, -, -, hother⟩ := first?_of_name h
  rw [hfirst] at hother
  exact ht text (Prod.mk.inj (Option.some.inj hother)).1

/-- A group that is read as a term has the tokens of the term between parentheses. -/
theorem exists_of_group {asFormula asTerm : Option Reading}
    (h : Grouped ts [.group asFormula asTerm]) :
    ∃ inside inner, ts = .opening :: (inside ++ [.closing]) ∧ Grouped inside inner ∧
      asFormula = formula inner ∧ asTerm = term inner := by
  cases h with
  | group hinside hnil =>
      cases hnil
      exact ⟨_, _, rfl, hinside, rfl, rfl⟩

theorem matches_factor (h : ∀ m < n, Matches m .term 4) : Matches n .term 6 := by
  intro cs ts us items r hcs hflush hscan hts hread hends
  have hfactor : Reading.factor items = some r := hread
  unfold Reading.factor at hfactor
  split at hfactor
  · next text =>
      obtain rfl := hts.of_token
      obtain ⟨rest, hfirst, hrest⟩ := Token.first?_of_scan hflush hscan
      exact ⟨_, rest, .first (parses_number_iff.mpr ⟨text, hfirst, rfl⟩), hrest⟩
  · next name =>
      obtain rfl := hts.of_token
      obtain ⟨rest, hfirst, hrest⟩ := Token.first?_of_scan hflush hscan
      obtain ⟨tree, hname⟩ := parses_name hfirst
      exact ⟨_, rest, .second (number_fails hfirst (by simp)) (.first hname), hrest⟩
  · next asFormula asTerm =>
      obtain ⟨inside, inner, rfl, hinside, -, rfl⟩ := exists_of_group hts
      have hopening : Token.scan cs = some (.opening :: (inside ++ .closing :: us)) := by
        simpa using hscan
      obtain ⟨_, hfirst, -⟩ := Token.first?_of_scan hflush hopening
      obtain ⟨trees, rest, hmatch, hrest⟩ :=
        match_parenthesized h hcs hflush hopening hinside hfactor
      exact ⟨trees, rest, .second (number_fails hfirst (by simp))
        (.second (name_fails hfirst (by simp)) hmatch), hrest⟩
  · contradiction

/-- What is read as a term matches as a sum. -/
theorem matches_sum (n : Nat) : Matches n .term 4 := by
  induction n using Nat.strong_induction_on with
  | _ n ih =>
      exact matches_series (by simp [Operates]) <| matches_series (by simp [Operates]) <|
        matches_factor ih

/-! ### Comparisons -/

theorem match_comparison {left right : List Item} {sign : Comparison} {a b : Reading}
    (hflush : Token.Flush cs)
    (hscan : Token.scan cs = some (ts ++ us))
    (hts : Grouped ts (left ++ .token (.comparison sign) :: right)) (hleft : term left = some a)
    (hright : term right = some b) (hends : ∀ t ∈ us.head?, Ends .formula 4 t) :
    ∃ trees rest, Parses body (.rule .comparison) cs (some (trees, rest)) ∧
      Token.scan rest = some us := by
  obtain ⟨xs, ws, rfl, hxs, hws⟩ := hts.of_append
  obtain ⟨ys, rfl, hys⟩ := hws.of_token_cons
  rw [List.append_assoc] at hscan
  obtain ⟨first, mid, hfirst, hmid⟩ := matches_sum _ cs xs _ left a (Nat.le_refl _) hflush hscan hxs
    hleft (by rintro _ ⟨rfl⟩; exact Or.inr (Or.inr ⟨rfl, sign, rfl⟩))
  obtain ⟨hflush', hmid'⟩ := scan_flush hmid
  obtain ⟨next, hsign, hnext⟩ := Token.first?_of_scan hflush' hmid'
  obtain ⟨hflush'', hnext'⟩ := scan_flush hnext
  obtain ⟨second, rest, hsecond, hrest⟩ := matches_sum _ _ ys us right b (Nat.le_refl _) hflush''
    hnext' hys hright fun t ht => (hends t ht).term
  obtain ⟨tree, htree⟩ := Parses.exists_rule (r := Rule.comparison)
    (parses_followed_iff.mpr ⟨_, _, _, hfirst,
      parses_followed_iff.mpr ⟨_, _, _, parses_comparator hsign, hsecond, rfl⟩, rfl⟩)
  exact ⟨_, rest, htree, hrest⟩

/-- What goes on with a part of a term or with the sign of a comparison does not begin with a token
that ends a formula. -/
theorem not_ends_of_grouped {i : Item}
    (hi : isTermPart i = true ∨ ∃ sign, i = .token (.comparison sign))
    (h : Grouped ts (i :: items)) : ∃ t ws, ts = t :: ws ∧ ¬ Ends .formula 4 t := by
  obtain ⟨t, ws, rfl, ht⟩ := h.first_token
  refine ⟨t, ws, rfl, ?_⟩
  rintro (rfl | ⟨k, hpos, hk, rfl⟩ | ⟨hterm, -⟩)
  · rcases ht with rfl | ht
    · simp [isTermPart] at hi
    · simp at ht
  · rcases ht with rfl | ht
    · rcases hi with hi | ⟨sign, hi⟩
      · have hfree := isTermPart_separator _ hi ⟨hpos, hk⟩
        simp [Item.isToken] at hfree
      · exact separator_ne_comparison k sign (Item.token.inj hi)
    · exact separator_ne_opening k ht
  · simp at hterm

/-- No comparison matches where a name or a group stands that is no part of one. -/
theorem comparison_fails {i : Item} (hscan : Token.scan cs = some (ts ++ us))
    (hts : Grouped ts [i]) (hends : ∀ t ∈ us.head?, Ends .formula 4 t) :
    Parses body (.rule .comparison) cs none := by
  refine settles_comparison.fails (Nat.le_refl _) fun trees rest h => ?_
  obtain ⟨_, sign, left, right, xs, ys, a, b, -, -, hcuts, hleft, hright, ha, hb, -⟩ :=
    parts_of_comparison h
  rw [Cuts, hscan] at hcuts
  obtain ⟨vs, -, hvs⟩ := Option.map_eq_some_iff.mp hcuts.symm
  have hgrouped : Grouped (xs ++ .comparison sign :: ys)
      (left ++ .token (.comparison sign) :: right) :=
    hleft.append (.token (by simp) (by simp) hright)
  obtain ⟨behind, more, hbehind, hmore, hgrouped⟩ :=
    hts.first_unique hgrouped (by simp) hvs.symm
  -- The second item of the comparison stands where the text would have to end.
  have hsecond : ∃ j others, more = j :: others ∧
      (isTermPart j = true ∨ ∃ sign, j = .token (.comparison sign)) := by
    rcases left with _ | ⟨_, _ | ⟨j, left⟩⟩
    · contradiction
    · exact ⟨_, _, (List.cons.inj hmore).2.symm, Or.inr ⟨sign, rfl⟩⟩
    · exact ⟨j, _, (List.cons.inj hmore).2.symm,
        Or.inl (isTermPart_of_readBelow (s := 4) ha j (by simp))⟩
  obtain ⟨j, others, rfl, hj⟩ := hsecond
  obtain ⟨t, ws, rfl, ht⟩ := not_ends_of_grouped hj hgrouped
  rw [hbehind, List.append_assoc] at hvs
  have hus := List.append_cancel_left hvs
  exact ht (hends t (by rw [← hus]; rfl))

/-! ### Formulas -/

/-- An atom that is read matches. -/
theorem match_atom (h : ∀ m < n, Matches m .formula 0) (hcs : cs.length ≤ n)
    (hflush : Token.Flush cs) (hscan : Token.scan cs = some (ts ++ us)) (hts : Grouped ts items)
    (hread : Reading.atom k items = some r) (hends : ∀ t ∈ us.head?, Ends .formula 4 t) :
    ∃ trees rest, Parses body atom cs (some (trees, rest)) ∧ Token.scan rest = some us := by
  have hverum : ∀ {t rest}, Token.first? cs = some (t, rest) → t ≠ .verum →
      Parses body (.rule .verum) cs none := fun hfirst => rule_fails_of_first? rfl rfl hfirst
  have hfalsum : ∀ {t rest}, Token.first? cs = some (t, rest) → t ≠ .falsum →
      Parses body (.rule .falsum) cs none := fun hfirst => rule_fails_of_first? rfl rfl hfirst
  rcases atom_cases hread with ⟨rfl, -⟩ | ⟨rfl, -⟩ | ⟨name, rfl, -⟩ | ⟨x, asTerm, rfl, -⟩ | ⟨x, hx, -⟩
  · obtain rfl := hts.of_token
    obtain ⟨rest, hfirst, hrest⟩ := Token.first?_of_scan hflush hscan
    obtain ⟨tree, htree⟩ := exists_parses_of_first? (x := .verum) rfl rfl hfirst
    exact ⟨_, rest, .first htree, hrest⟩
  · obtain rfl := hts.of_token
    obtain ⟨rest, hfirst, hrest⟩ := Token.first?_of_scan hflush hscan
    obtain ⟨tree, htree⟩ := exists_parses_of_first? (x := .falsum) rfl rfl hfirst
    exact ⟨_, rest, .second (hverum hfirst (by simp)) (.first htree), hrest⟩
  · have hcomparison := comparison_fails hscan hts hends
    obtain rfl := hts.of_token
    obtain ⟨rest, hfirst, hrest⟩ := Token.first?_of_scan hflush hscan
    obtain ⟨tree, htree⟩ := parses_name hfirst
    exact ⟨_, rest, .second (hverum hfirst (by simp)) <| .second (hfalsum hfirst (by simp)) <|
      .second hcomparison (.first htree), hrest⟩
  · have hcomparison := comparison_fails hscan hts hends
    obtain ⟨inside, inner, rfl, hinside, hformula, -⟩ := exists_of_group hts
    have hopening : Token.scan cs = some (.opening :: (inside ++ .closing :: us)) := by
      simpa using hscan
    obtain ⟨_, hfirst, -⟩ := Token.first?_of_scan hflush hopening
    obtain ⟨trees, rest, hmatch, hrest⟩ :=
      match_parenthesized h hcs hflush hopening hinside hformula.symm
    exact ⟨trees, rest, .second (hverum hfirst (by simp)) <| .second (hfalsum hfirst (by simp)) <|
      .second hcomparison <| .second (name_fails hfirst (by simp)) hmatch, hrest⟩
  · obtain ⟨left, sign, right, a, b, rfl, ha, hb, -⟩ := exists_of_comparison hx
    obtain ⟨trees, rest, hmatch, hrest⟩ := match_comparison hflush hscan hts ha hb hends
    have hterm := isTermPart_of_readBelow (s := 4) ha
    obtain ⟨i, left, rfl⟩ : ∃ i more, left = i :: more := by
      refine List.exists_cons_of_ne_nil ?_
      rintro rfl
      contradiction
    obtain ⟨t, ws, rfl, ht⟩ := hts.first_token
    obtain ⟨_, hfirst, -⟩ := Token.first?_of_scan hflush hscan
    have hconstant : t ≠ .verum ∧ t ≠ .falsum := by
      have hi := hterm i List.mem_cons_self
      rcases ht with rfl | rfl
      · constructor <;> rintro rfl <;> cases hi
      · simp
    exact ⟨trees, rest, .second (hverum hfirst hconstant.1) <|
      .second (hfalsum hfirst hconstant.2) (.first hmatch), hrest⟩

theorem match_negation (hflush : Token.Flush cs) (hscan : Token.scan cs = some (.negation :: us)) :
    ∃ tree rest, Parses body (.rule .negation) cs (some ([tree], rest)) ∧
      Token.scan rest = some us := by
  obtain ⟨rest, hfirst, hrest⟩ := Token.first?_of_scan hflush hscan
  obtain ⟨tree, htree⟩ := exists_parses_of_first? (x := .negation) rfl rfl hfirst
  exact ⟨tree, rest, htree, hrest⟩

theorem negation_fails (hscan : Token.scan cs = some us) (hus : ∀ t ∈ us.head?, t ≠ .negation) :
    Parses body (.rule .negation) cs none :=
  .rule_fails (text_fails_of_scan (t := .negation) rfl hscan hus)

/-- All negation signs at the front of a text match. -/
theorem match_negations (hflush : Token.Flush cs)
    (hscan : Token.scan cs = some (List.replicate k .negation ++ us))
    (hus : ∀ t ∈ us.head?, t ≠ .negation) :
    ∃ trees rest, Parses body (repeated (.rule .negation)) cs (some (trees, rest)) ∧
      Token.scan rest = some us := by
  have hmany : ∀ k cs, Token.scan cs = some (List.replicate k .negation ++ us) →
      ∃ trees rest, Parses body (.many (.seq layout (.rule .negation))) cs (some (trees, rest)) ∧
        Token.scan rest = some us := by
    intro k
    induction k with
    | zero =>
        intro cs hscan
        have hfails := negation_fails (scan_flush hscan).2 hus
        exact ⟨_, cs, .stop (.seq_fails_behind (parses_layout_iff.mpr rfl) hfails), hscan⟩
    | succ k ih =>
        intro cs hscan
        obtain ⟨hflush, hscan⟩ := scan_flush hscan
        obtain ⟨tree, mid, hsign, hmid⟩ := match_negation hflush hscan
        obtain ⟨trees, rest, hothers, hrest⟩ := ih mid hmid
        exact ⟨_, rest, .step (.seq (parses_layout_iff.mpr rfl) hsign) hothers, hrest⟩
  cases k with
  | zero => exact ⟨_, cs, .second (.seq_fails (negation_fails hscan hus)) .empty, hscan⟩
  | succ k =>
      obtain ⟨tree, mid, hsign, hmid⟩ := match_negation hflush hscan
      obtain ⟨trees, rest, hothers, hrest⟩ := hmany k mid hmid
      exact ⟨_, rest, .first (.seq hsign hothers), hrest⟩

theorem eq_replicate_of_grouped (h : Grouped ts (List.replicate k (.token t))) :
    ts = List.replicate k t := by
  induction k generalizing ts with
  | zero =>
      cases h
      rfl
  | succ k ih =>
      obtain ⟨us, rfl, hus⟩ := h.of_token_cons
      rw [ih hus]
      rfl

theorem matches_unary (h : ∀ m < n, Matches m .formula 0) : Matches n .formula 4 := by
  intro cs ts us items r hcs hflush hscan hts hread hends
  have hatom : Reading.atom (items.takeWhile (Item.isToken .negation)).length
    (items.dropWhile (Item.isToken .negation)) = some r := hread
  have hsigns : items.takeWhile (Item.isToken .negation) =
      List.replicate (items.takeWhile (Item.isToken .negation)).length (.token .negation) :=
    List.eq_replicate_of_mem fun i hi => isToken_iff.mp (List.mem_takeWhile_imp hi)
  rw [← List.takeWhile_append_dropWhile (p := Item.isToken .negation) (l := items)] at hts
  obtain ⟨xs, ws, rfl, hxs, hws⟩ := hts.of_append
  rw [hsigns] at hxs
  rw [eq_replicate_of_grouped hxs, List.append_assoc] at hscan
  have hhead : ∀ t ∈ (ws ++ us).head?, t ≠ .negation := by
    have hfirst := List.head?_dropWhile_not (Item.isToken .negation) items
    cases hitems : items.dropWhile (Item.isToken .negation) with
    | nil =>
        rw [hitems] at hatom
        contradiction
    | cons i more =>
        rw [hitems] at hws hfirst
        obtain ⟨t, _, rfl, ht⟩ := hws.first_token
        rintro _ ⟨rfl⟩
        rcases ht with rfl | rfl
        · simpa [Item.isToken] using hfirst
        · simp
  obtain ⟨signs, mid, hmatch, hmid⟩ := match_negations hflush hscan hhead
  obtain ⟨hflush', hmid'⟩ := scan_flush hmid
  obtain ⟨trees, rest, htrees, hrest⟩ :=
    match_atom h (length_flush_le hmatch hcs) hflush' hmid' hws hatom hends
  obtain ⟨tree, htree⟩ := Parses.exists_rule (r := Rule.unary)
    (parses_followed_iff.mpr ⟨_, _, _, hmatch, htrees, rfl⟩)
  exact ⟨_, rest, htree, hrest⟩

/-- What is read as a formula matches. -/
theorem matches_equivalence (n : Nat) : Matches n .formula 0 := by
  induction n using Nat.strong_induction_on with
  | _ n ih =>
      exact matches_series (by simp [Operates]) <| matches_series (by simp [Operates]) <|
        matches_series (by simp [Operates]) <| matches_series (by simp [Operates]) <|
        matches_unary ih

end Grammar

end ClauseForm
