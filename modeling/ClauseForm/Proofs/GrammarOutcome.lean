import ClauseForm.Proofs.GrammarMatching

/-!
What comes of reading any text.

A text that does not follow the grammar is malformed.  The tree of one that does stands for a
formula, unless a numeral is out of range, and never runs into the checks of the constructor.
Reading finds the same formula or numeral, and a formula that was read is read again from its own
text.
-/

namespace ClauseForm

namespace Grammar

open Peg Reading

variable {cs rest : List Char} {trees : List (ParseTree Rule)} {r : Reading}

theorem end_of_parses (h : Parses body (.rule .endOfText) cs (some (trees, rest))) :
    cs = [] ∧ rest = [] ∧ ∃ t, trees = [t] ∧ t.rule = .endOfText := by
  obtain ⟨us, front, hnot, -, rfl⟩ := parses_rule_iff.mp h
  obtain ⟨hfails, rfl, rfl⟩ := parses_not_iff.mp hnot
  cases rest with
  | nil => exact ⟨rfl, rfl, _, rfl, rfl⟩
  | cons c rest => cases hfails.unique (.char rfl)

theorem parses_end : ∃ tree, Parses body (.rule .endOfText) [] (some ([tree], [])) :=
  Parses.exists_rule (r := Rule.endOfText) (.not (.char_fails (by simp)))

/-- Where nothing but layout is left there are no more tokens. -/
theorem scan_of_dropWhile (h : cs.dropWhile Token.isLayout = []) : Token.scan cs = some [] := by
  rw [← Token.scan_dropWhile, h, Token.scan_nil]

theorem dropWhile_of_scan (h : Token.scan cs = some []) : cs.dropWhile Token.isLayout = [] :=
  Token.eq_nil_of_scan (scan_flush h).1 (scan_flush h).2

/-- What a formula between layout stands for. -/
theorem formulaOf_node {text : String} {tree last : ParseTree Rule} (hrule : tree.rule = .equivalence)
    (hlast : last.rule = .endOfText) :
    formulaOf (.node .formula text [tree, last]) = build .equivalence tree := by
  have hfold : formulaOf (.node .formula text [tree, last]) =
      (do let e ← build .equivalence tree; .ok e) := by
    simp only [formulaOf, ParseTree.children, List.foldlM_cons, List.foldlM_nil, hrule, hlast]
    rfl
  rw [hfold]
  cases build .equivalence tree <;> rfl

/-- The tree of a text that follows the grammar stands for what the text is read as. -/
theorem ofText_of_parses {text : String}
    (h : Parses body (.rule .formula) text.toList (some (trees, rest))) :
    ∃ tree r, trees = [tree] ∧ rest = [] ∧ formulaOf tree = ofReading r ∧
      Expression.ofText text = r.mapError .outOfRange := by
  obtain ⟨_, front, hparts, -, rfl⟩ := parses_rule_iff.mp h
  obtain ⟨_, start, _, hstart, hbehind, rfl⟩ := parses_followed_iff.mp hparts
  obtain ⟨rfl, rfl⟩ := Prod.mk.inj (Option.some.inj (parses_empty_iff.mp hstart))
  obtain ⟨_, mid, _, hoptional, hend, rfl⟩ := parses_followed_iff.mp hbehind
  obtain ⟨hmid, rfl, last, rfl, hlast⟩ := end_of_parses hend
  rcases parses_choice_iff.mp hoptional with hsome | ⟨-, hnone⟩
  · obtain ⟨tree, ts, items, r, rfl, hcuts, hgrouped, hread, hvalue⟩ :=
      reads_equivalence _ _ _ _ (Nat.le_refl _) hsome
    have hscan : Token.scan text.toList = some ts := by
      rw [← Token.scan_dropWhile, hcuts, scan_of_dropWhile hmid]
      simp
    refine ⟨_, r, rfl, rfl, ?_, ?_⟩
    · rw [← hvalue]
      exact formulaOf_node (rule_of_parses hsome) hlast
    · have htokens := (ofTokens_of_grouped hgrouped).trans hread
      cases ts with
      | nil => cases htokens
      | cons t ts =>
          unfold Expression.ofText
          rw [hscan]
          simp only [htokens]
          cases r <;> rfl
  · obtain ⟨rfl, rfl⟩ := Prod.mk.inj (Option.some.inj (parses_empty_iff.mp hnone))
    refine ⟨_, .ok (.truth true), rfl, rfl, ?_, ?_⟩
    · simp only [formulaOf, ParseTree.children, List.nil_append, List.foldlM_cons, List.foldlM_nil,
        hlast]
      rfl
    · have hscan := scan_of_dropWhile hmid
      rw [Token.scan_dropWhile] at hscan
      unfold Expression.ofText
      rw [hscan]
      rfl

/-- No formula matches where no token is left. -/
theorem equivalence_fails_at_end : Parses body (.rule .equivalence) [] none := by
  refine settles_equivalence.fails (Nat.le_refl _) fun trees rest h => ?_
  obtain ⟨tree, ts, items, r, -, hcuts, hgrouped, hread, -⟩ :=
    reads_equivalence _ _ _ _ (Nat.le_refl _) h
  rw [Cuts, Token.scan_nil] at hcuts
  obtain ⟨us, -, hus⟩ := Option.map_eq_some_iff.mp hcuts.symm
  obtain ⟨rfl, rfl⟩ := List.append_eq_nil_iff.mp hus
  cases hgrouped
  cases hread

/-- A text follows the grammar if between layout there is a formula or nothing. -/
theorem parses_formula {mid : List Char}
    (h : Parses body (optional (.rule .equivalence)) (cs.dropWhile Token.isLayout)
      (some (trees, mid)))
    (hend : Token.scan mid = some []) : ∃ tree, Parses body (.rule .formula) cs (some ([tree], [])) := by
  obtain ⟨last, hlast⟩ : ∃ last, Parses body (.rule .endOfText) (mid.dropWhile Token.isLayout)
      (some ([last], [])) := by
    rw [dropWhile_of_scan hend]
    exact parses_end
  exact Parses.exists_rule (r := Rule.formula) (parses_followed_iff.mpr
    ⟨_, _, _, .empty, parses_followed_iff.mpr ⟨_, _, _, h, hlast, rfl⟩, rfl⟩)

/-- A text that is not malformed follows the grammar. -/
theorem exists_parses_of_ofText {text : String}
    (h : Expression.ofText text ≠ .error .malformed) :
    ∃ tree, Parses body (.rule .formula) text.toList (some ([tree], [])) := by
  unfold Expression.ofText at h
  cases hscan : Token.scan text.toList with
  | none => simp [hscan] at h
  | some ts =>
      obtain ⟨hflush, hscan'⟩ := scan_flush hscan
      cases ts with
      | nil =>
          have hnone := equivalence_fails_at_end
          rw [← dropWhile_of_scan hscan] at hnone
          exact parses_formula (.second hnone .empty) hscan'
      | cons t ts =>
          simp only [hscan] at h
          cases htokens : ofTokens (t :: ts) with
          | none => simp [htokens] at h
          | some r =>
              obtain ⟨items, hgrouped, hread⟩ := exists_grouped_of_ofTokens htokens
              rw [← List.append_nil (t :: ts)] at hscan'
              obtain ⟨trees, mid, hmatch, hmid⟩ := matches_equivalence _ _ _ [] items r (Nat.le_refl _)
                hflush hscan' hgrouped hread (by simp)
              exact parses_formula (.first hmatch) hmid

end Grammar

namespace Expression

open Grammar Reading

variable {good : String → Prop} {e : Expression}

/-- In a formula that was read, chains have at least two operands. -/
theorem Regular.two_le_length (h : Regular good .formula e) :
    ∀ n ∈ e.preOrder, n.symbol ∈ [Symbol.and, .or, .sum, .product] → 2 ≤ n.operands.length := by
  intro n hn hsymbol
  have hdegenerate := h.nondegenerate n hn
  have hfit := wellFormed_iff.mp h.wellFormed n hn
  obtain ⟨s, es⟩ := n
  match es with
  | d :: e :: es => exact Nat.le_add_left 2 es.length
  | [e] =>
      simp only [symbol_node, List.mem_cons, List.not_mem_nil, or_false] at hsymbol
      rcases hsymbol with rfl | rfl | rfl | rfl <;> cases hdegenerate
  | [] =>
      simp only [symbol_node, List.mem_cons, List.not_mem_nil, or_false] at hsymbol
      rcases hsymbol with rfl | rfl | rfl | rfl
      · cases hdegenerate
      · cases hdegenerate
      · cases hfit
      · cases hfit

/-- A text that does not follow the grammar is malformed.  The tree of one that does never stands
for a misfit: it stands for a numeral of the text that is out of range, or for a formula without
degenerate nodes, and this is what the text is read as.  The formula is read again from its own
text. -/
theorem ofText_outcome (text : String) :
    (Peg.Parses body (.rule .formula) text.toList none ∧ ofText text = .error .malformed) ∨
      ∃ tree, Peg.Parses body (.rule .formula) text.toList (some ([tree], [])) ∧
        ((∃ d, formulaOf tree = .error (.number d) ∧ ofText text = .error (.outOfRange d) ∧
            (∃ ts, Token.scan text.toList = some ts ∧ .numeral d ∈ ts) ∧
            d.toList <:+: text.toList ∧ Token.IsNumeral d ∧ ¬ InRange (numeralValue d)) ∨
          ∃ e, formulaOf tree = .ok e ∧ ofText text = .ok e ∧ e.WellFormed ∧ e.isFormula = true ∧
            (∀ name ∈ e.names, '\x22' ∉ name.toList) ∧
            (∀ n ∈ e.preOrder, n.symbol ∈ [Symbol.and, .or, .sum, .product] →
              2 ≤ n.operands.length) ∧
            ofText e.text = .ok e) := by
  obtain ⟨_ | ⟨trees, rest⟩, houtcome⟩ := settles_formula text.toList (Nat.le_refl _)
  · refine Or.inl ⟨houtcome, ?_⟩
    by_contra hread
    obtain ⟨tree, htree⟩ := exists_parses_of_ofText hread
    cases houtcome.unique htree
  · obtain ⟨tree, r, rfl, rfl, hvalue, hread⟩ := ofText_of_parses houtcome
    refine Or.inr ⟨tree, houtcome, ?_⟩
    rcases ofText_cases text with hcase | ⟨ts, d, hscan, hmem, hrange, hcase⟩ | ⟨e, he, hcase⟩
    · rw [hread] at hcase
      cases r <;> cases hcase
    · rw [hread] at hcase
      obtain ⟨hpart, hnumeral⟩ : Token.Lexical text.toList (.numeral d) :=
        Token.lexical_of_scan hscan _ hmem
      cases r with
      | ok e => cases hcase
      | error numeral =>
          cases hcase
          exact Or.inl ⟨d, hvalue, hread, ⟨ts, hscan, hmem⟩, hpart, hnumeral, hrange⟩
    · rw [hread] at hcase
      cases r with
      | error text => cases hcase
      | ok f =>
          cases hcase
          refine Or.inr ⟨e, hvalue, hread, he.wellFormed, he.isFormula, ?_, he.two_le_length,
            he.ofText_text_eq fun name hname => hname.2⟩
          exact quoteFree_iff.mp fun x hx => (he.names x hx).2

end Expression

end ClauseForm
