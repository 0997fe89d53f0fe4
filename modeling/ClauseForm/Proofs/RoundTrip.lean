import ClauseForm.Expression.Contents
import ClauseForm.Proofs.Levels
import ClauseForm.Proofs.Meaning
import Mathlib.Data.List.Forall2

/-!
Reading back what was written.

`ofText_text` says that the text of a formula is read as the formula without its degenerate
junctions, whatever the names are, as long as they contain no quotation mark.
-/

namespace ClauseForm

open Reading

/-- A text is written as certain items, which are read as an expression below an operator. -/
structure Renders (c : Category) (s : Nat) (text : String) (items : List Item)
    (e : Expression) : Prop where
  writes : Writes text items
  reads : ReadsBelow c s items e
  parts : c = .term → ∀ i ∈ items, isTermPart i = true

variable {c : Category} {s t : Nat} {text : String} {items : List Item} {e : Expression}
  {p : Phrase}

theorem Renders.weaken (h : Renders c s text items e) (hle : t ≤ s) : Renders c t text items e :=
  ⟨h.writes, h.reads.weaken hle, h.parts⟩

theorem Renders.group (h : Renders c 0 text items e) (s : Nat) :
    Renders c s ("(" ++ text ++ ")") [.group (formula items) (term items)] e :=
  ⟨h.writes.group, readsBelow_group h.reads s, by simp [isTermPart]⟩

namespace Phrase

/-- A phrase stands for an expression below every operator that it binds tighter than. -/
structure Stands (c : Category) (p : Phrase) (items : List Item) (e : Expression) : Prop where
  strength_pos : 0 < p.strength
  renders : ∀ s, s < p.strength → Renders c s p.text items e

/-- As an operand, in parentheses if need be, a phrase stands for its expression. -/
theorem Stands.operand (h : Stands c p items e) (s : Nat) :
    ∃ others, Renders c s (p.operandText s) others e := by
  by_cases hweak : p.strength ≤ s
  · rw [operandText, if_pos hweak]
    exact ⟨_, (h.renders 0 h.strength_pos).group s⟩
  · rw [operandText, if_neg hweak]
    exact ⟨items, h.renders s (Nat.lt_of_not_le hweak)⟩

theorem stands_word_formula (hwrites : Writes text items) (hread : unary items = some (.ok e))
    (hfree : ∀ s, Operates .formula s → Free (separator s) items) :
    Stands .formula (closed text) items e :=
  ⟨Nat.zero_lt_succ 6, fun s _ => ⟨hwrites, readsBelow_of_unary hfree hread s, by simp⟩⟩

theorem stands_word_term (hwrites : Writes text items) (hread : factor items = some (.ok e))
    (hfree : ∀ s, Operates .term s → Free (separator s) items)
    (hparts : ∀ i ∈ items, isTermPart i = true) : Stands .term (closed text) items e :=
  ⟨Nat.zero_lt_succ 6, fun s _ => ⟨hwrites, readsBelow_of_factor hfree hread s, fun _ => hparts⟩⟩

variable {ps : List Phrase} {es : List Expression} {op : String}

/-- The operands of an operator are written as its parts. -/
theorem exists_parts (hop : Token.Separates op.toList (separator s))
    (h : List.Forall₂ (fun p e => ∃ items, Stands c p items e) ps es) (hne : ps ≠ []) :
    ∃ parts : List (List Item), parts ≠ [] ∧
      parts.mapM (readBelow c s) = some (es.map .ok) ∧
      (∀ part ∈ parts, (∀ t, t ≤ s → Operates c t → Free (separator t) part) ∧
        (c = .term → ∀ i ∈ part, isTermPart i = true)) ∧
      Writes (op.intercalate (ps.map fun p => p.operandText s))
        ([.token (separator s)].intercalate parts) := by
  induction h with
  | nil => contradiction
  | @cons p e ps es hp hrest ih =>
      obtain ⟨items, hstands⟩ := hp
      obtain ⟨part, hpart⟩ := hstands.operand s
      cases hrest with
      | nil =>
          refine ⟨[part], by simp, by simp [hpart.reads.read], ?_, ?_⟩
          · simpa using ⟨hpart.reads.free, hpart.parts⟩
          · simpa using hpart.writes
      | @cons q f qs fs hq hqs =>
          obtain ⟨parts, hparts, hread, hfree, hwrites⟩ := ih (by simp)
          obtain ⟨next, parts, rfl⟩ := List.exists_cons_of_ne_nil hparts
          refine ⟨part :: next :: parts, by simp, ?_, ?_, ?_⟩
          · rw [List.mapM_cons, hpart.reads.read, hread]
            rfl
          · exact List.forall_mem_cons.mpr ⟨⟨hpart.reads.free, hpart.parts⟩, hfree⟩
          · rw [List.map_cons, List.map_cons, String.intercalate_cons_cons,
              List.intercalate_cons_cons, List.append_assoc]
            exact hpart.writes.operate hop (separator_ne_opening s) (separator_ne_closing s) hwrites

theorem separator_isTermPart (hs : Operates .term s) :
    isTermPart (.token (separator s)) = true := by
  match s, hs with
  | 5, _ | 6, _ => rfl

/-- Operands joined by an operator stand for what the operator makes of them. -/
theorem exists_stands_joined (hop : Token.Separates op.toList (separator (s + 1)))
    (hs : Operates c (s + 1)) (h : List.Forall₂ (fun p e => ∃ items, Stands c p items e) ps es)
    (hne : ps ≠ []) (hjoin : combine (s + 1) (es.map .ok) = some (.ok e)) :
    ∃ items, Stands c (joined op (s + 1) ps) items e := by
  obtain ⟨parts, hparts, hread, hfree, hwrites⟩ := exists_parts hop h hne
  refine ⟨_, Nat.succ_pos s, fun t ht => Renders.weaken ⟨hwrites, ?_, ?_⟩ (Nat.le_of_lt_succ ht)⟩
  · exact readsBelow_intercalate hs hparts (fun part hpart => (hfree part hpart).1) hread hjoin
  · rintro rfl
    exact forall_mem_intercalate (separator_isTermPart hs) fun part hpart =>
      (hfree part hpart).2 rfl

end Phrase

namespace Expression

/-- A node over operands, where degenerate junctions become constants or their operand. -/
def collapseNode (s : Symbol) (es : List Expression) : Expression :=
  match s, es with
  | .and, [] => truth true
  | .or, [] => truth false
  | .and, [e] | .or, [e] | .sum, [e] | .product, [e] => e
  | s, es => node s es

/-- The expression without degenerate junctions: bottom-up, empty conjunctions and disjunctions
become constants, and junctions, sums and products of a single operand become that operand. -/
def collapse (e : Expression) : Expression :=
  e.fold fun n es => collapseNode n.symbol es

theorem collapse_node (s : Symbol) (es : List Expression) :
    (node s es).collapse = collapseNode s (es.map collapse) :=
  fold_node s es

theorem mapM_ok (es : List Expression) :
    (es.map Except.ok : List Reading).mapM id = .ok es := by
  rw [List.mapM_map]
  have hread := mapM_eq_pure (f := fun e => (.ok e : Reading)) (g := id) es fun _ _ => rfl
  rwa [List.map_id] at hread

/-- A chain of operands is read as a node without degenerate junctions. -/
theorem junction_eq_collapseNode {s : Symbol} {es : List Expression}
    (hs : s = .and ∨ s = .or ∨ s = .sum ∨ s = .product) (hne : es ≠ []) :
    junction s (es.map .ok) = .ok (collapseNode s es) := by
  match es with
  | [] => contradiction
  | [e] => rcases hs with rfl | rfl | rfl | rfl <;> rfl
  | d :: e :: es =>
      have hread : junction s ((d :: e :: es).map .ok) = .ok (node s (d :: e :: es)) := by
        change ((d :: e :: es).map Except.ok : List Reading).mapM id >>= _ = _
        rw [mapM_ok]
        rfl
      rw [hread]
      rcases hs with rfl | rfl | rfl | rfl <;> rfl

/-- None of the variables has a quotation mark in its name. -/
def QuoteFree (e : Expression) : Prop := ∀ x ∈ e.occurrences, '\x22' ∉ x.name.toList

theorem QuoteFree.operand {s : Symbol} {es : List Expression} (h : (node s es).QuoteFree)
    {e : Expression} (he : e ∈ es) : e.QuoteFree :=
  fun x hx => h x (mem_occurrences_of_operand he hx)

theorem forall₂_operands {es : List Expression}
    (h : ∀ e ∈ es, ∃ items, Phrase.Stands c (e.fold phrase) items e.collapse) :
    List.Forall₂ (fun p e => ∃ items, Phrase.Stands c p items e) (es.map (fold phrase))
      (es.map collapse) := by
  rw [List.forall₂_map_left_iff, List.forall₂_map_right_iff, List.forall₂_same]
  exact h

/-- The phrase of a term stands for the term without degenerate junctions. -/
theorem exists_stands_of_term (he : TermTree e) (hquote : e.QuoteFree) :
    ∃ items, Phrase.Stands .term (e.fold phrase) items e.collapse := by
  induction he with
  | unknown name =>
      have hname : '\x22' ∉ name.toList :=
        hquote ⟨name, .integer⟩ (by simp [occurrences_node, Symbol.occurrence?])
      rw [fold_node, collapse_node]
      exact ⟨_, Phrase.stands_word_term (.token (by simp) (by simp) (Token.scans_nameText hname))
        rfl (fun s _ => free_word rfl s) (by simp [isTermPart])⟩
  | constant value =>
      rw [fold_node, collapse_node]
      refine ⟨_, Phrase.stands_word_term
        (.token (by simp) (by simp) (Token.scans_toString value.toInt)) ?_
        (fun s _ => free_word rfl s) (by simp [isTermPart])⟩
      rw [factor, numeral_toString]
      rfl
  | @sum es hne hes ih =>
      rw [fold_node, collapse_node]
      refine Phrase.exists_stands_joined (s := 4) Token.separates_plus (by simp [Operates])
        (forall₂_operands fun e he => ih e he (hquote.operand he)) (by simpa using hne) ?_
      exact congrArg some (junction_eq_collapseNode (by simp) (by simpa using hne))
  | @product es hne hes ih =>
      rw [fold_node, collapse_node]
      refine Phrase.exists_stands_joined (s := 5) Token.separates_times (by simp [Operates])
        (forall₂_operands fun e he => ih e he (hquote.operand he)) (by simpa using hne) ?_
      exact congrArg some (junction_eq_collapseNode (by simp) (by simpa using hne))

theorem strength_of_isBareBelowNot (h : e.symbol.isBareBelowNot = true) :
    (e.fold phrase).strength = 7 := by
  obtain ⟨s, es⟩ := e
  rw [fold_node]
  cases s with
  | literal name positive => cases positive <;> rfl
  | verum | falsum | not => rfl
  | _ => cases h

/-- A negation sign in front of a phrase stands for its negation, with parentheses unless the phrase
binds as tightly as a word and is no name. -/
theorem exists_stands_not {p : Phrase} (h : Phrase.Stands .formula p items e) (bare : Bool)
    (hstrength : bare = true → p.strength = 7)
    (hname : bare = true → ∀ name, items ≠ [.token (.name name)]) :
    ∃ others, Phrase.Stands .formula
      (.closed (if bare then "~" ++ p.text else "~(" ++ p.text ++ ")"))
      (.token .negation :: others) (node .not [e]) := by
  have hsign : ∀ {items : List Item} {t : Nat}, Free (separator t) items →
      Free (separator t) (.token .negation :: items) := fun hfree =>
    List.forall_mem_cons.mpr ⟨isToken_separator_of_isWord rfl _, hfree⟩
  cases bare with
  | true =>
      have hinside := h.renders 6 (by rw [hstrength rfl]; decide)
      exact ⟨items, Phrase.stands_word_formula hinside.writes.negation
        (unary_negation (hname rfl) hinside.reads.read)
        fun t ht => hsign (hinside.reads.free t ht.bounds.2 ht)⟩
  | false =>
      have hinside := (h.renders 0 h.strength_pos).group 6
      have htext : "~(" ++ p.text ++ ")" = "~" ++ ("(" ++ p.text ++ ")") := by
        rw [← String.append_assoc, ← String.append_assoc]
        rfl
      refine ⟨[.group (formula items) (term items)], ?_⟩
      rw [htext]
      exact Phrase.stands_word_formula hinside.writes.negation
        (unary_negation (by simp) hinside.reads.read)
        fun t ht => hsign (hinside.reads.free t ht.bounds.2 ht)

/-- Two phrases with the sign of a comparison between them stand for the comparison. -/
theorem exists_stands_compare {p q : Phrase} {left right : List Item} {a b : Expression}
    (sign : Comparison) (hleft : Phrase.Stands .term p left a)
    (hright : Phrase.Stands .term q right b) :
    Phrase.Stands .formula (.closed (p.text ++ (" " ++ sign.sign ++ " ") ++ q.text))
      (left ++ .token (.comparison sign) :: right) (node (.compare sign) [a, b]) := by
  have hl := hleft.renders 0 hleft.strength_pos
  have hr := hright.renders 0 hright.strength_pos
  refine Phrase.stands_word_formula
    (hl.writes.operate (Token.separates_comparison sign) (by simp) (by simp) hr.writes)
    (unary_comparison (hl.parts rfl) hl.reads.read hr.reads.read) fun t ht => ?_
  exact List.forall_mem_append.mpr ⟨fun i hi => isTermPart_separator i (hl.parts rfl i hi) ht,
    List.forall_mem_cons.mpr ⟨isToken_separator_of_isWord rfl t,
      fun i hi => isTermPart_separator i (hr.parts rfl i hi) ht⟩⟩

/-- The phrase of a conjunction or disjunction stands for what collapsing leaves of it. -/
theorem exists_stands_junction {k : Symbol} {es : List Expression} (hk : k = .and ∨ k = .or)
    (h : ∀ e ∈ es, ∃ items, Phrase.Stands .formula (e.fold phrase) items e.collapse) :
    ∃ items, Phrase.Stands .formula ((node k es).fold phrase) items (node k es).collapse := by
  have hall := forall₂_operands h
  rw [fold_node, collapse_node]
  match es with
  | [] =>
      rcases hk with rfl | rfl
      · exact ⟨_, Phrase.stands_word_formula (.token (by simp) (by simp) Token.scans_verum) rfl
          fun s _ => free_word rfl s⟩
      · exact ⟨_, Phrase.stands_word_formula (.token (by simp) (by simp) Token.scans_falsum) rfl
          fun s _ => free_word rfl s⟩
  | [e] =>
      rcases hk with rfl | rfl
      · exact h e List.mem_cons_self
      · exact h e List.mem_cons_self
  | d :: e :: es =>
      have hread := junction_eq_collapseNode (hk.imp_right Or.inl)
        (List.cons_ne_nil d.collapse ((e :: es).map collapse))
      rcases hk with rfl | rfl
      · exact Phrase.exists_stands_joined (s := 3) Token.separates_conjunction (by simp [Operates])
          hall (by simp) (congrArg some hread)
      · exact Phrase.exists_stands_joined (s := 2) Token.separates_disjunction (by simp [Operates])
          hall (by simp) (congrArg some hread)

/-- The phrase of a formula stands for the formula without degenerate junctions. -/
theorem exists_stands_of_formula (he : FormulaTree e) (hquote : e.QuoteFree) :
    ∃ items, Phrase.Stands .formula (e.fold phrase) items e.collapse ∧
      (e.symbol.isBareBelowNot = true → ∀ name, items ≠ [.token (.name name)]) := by
  induction he with
  | verum =>
      rw [fold_node, collapse_node]
      exact ⟨_, Phrase.stands_word_formula (.token (by simp) (by simp) Token.scans_verum) rfl
        fun s _ => free_word rfl s, by simp⟩
  | falsum =>
      rw [fold_node, collapse_node]
      exact ⟨_, Phrase.stands_word_formula (.token (by simp) (by simp) Token.scans_falsum) rfl
        fun s _ => free_word rfl s, by simp⟩
  | literal name positive =>
      have hname : '\x22' ∉ name.toList :=
        hquote ⟨name, .truth⟩ (by simp [occurrences_node, Symbol.occurrence?])
      have hword : Writes (Phrase.nameText name) [.token (.name name)] :=
        .token (by simp) (by simp) (Token.scans_nameText hname)
      rw [fold_node, collapse_node]
      cases positive with
      | true =>
          exact ⟨_, Phrase.stands_word_formula hword rfl fun s _ => free_word rfl s,
            by simp [Symbol.isBareBelowNot]⟩
      | false =>
          refine ⟨_, Phrase.stands_word_formula hword.negation rfl fun s _ => ?_, by simp⟩
          exact List.forall_mem_cons.mpr ⟨isToken_separator_of_isWord rfl s, free_word rfl s⟩
  | @compare sign l r hl hr =>
      obtain ⟨left, hleft⟩ := exists_stands_of_term hl (hquote.operand (by simp))
      obtain ⟨right, hright⟩ := exists_stands_of_term hr (hquote.operand (by simp))
      rw [fold_node, collapse_node]
      exact ⟨_, exists_stands_compare sign hleft hright, by simp [Symbol.isBareBelowNot]⟩
  | @not e he ih =>
      obtain ⟨items, hstands, hname⟩ := ih (hquote.operand (by simp))
      obtain ⟨others, hnegated⟩ := exists_stands_not hstands e.symbol.isBareBelowNot
        strength_of_isBareBelowNot hname
      rw [fold_node, collapse_node]
      exact ⟨_, hnegated, by simp⟩
  | and hes ih =>
      obtain ⟨items, hstands⟩ := exists_stands_junction (.inl rfl) fun e he =>
        (ih e he (hquote.operand he)).imp fun _ h => h.1
      exact ⟨items, hstands, by simp [Symbol.isBareBelowNot]⟩
  | or hes ih =>
      obtain ⟨items, hstands⟩ := exists_stands_junction (.inr rfl) fun e he =>
        (ih e he (hquote.operand he)).imp fun _ h => h.1
      exact ⟨items, hstands, by simp [Symbol.isBareBelowNot]⟩
  | @implies l r hl hr ihl ihr =>
      obtain ⟨left, hleft, -⟩ := ihl (hquote.operand (by simp))
      obtain ⟨right, hright, -⟩ := ihr (hquote.operand (by simp))
      obtain ⟨items, hstands⟩ := Phrase.exists_stands_joined (s := 1) Token.separates_implication
        (by simp [Operates]) (.cons ⟨left, hleft⟩ (.cons ⟨right, hright⟩ .nil)) (by simp) rfl
      rw [fold_node, collapse_node]
      exact ⟨items, hstands, by simp [Symbol.isBareBelowNot]⟩
  | @equivalent l r hl hr ihl ihr =>
      obtain ⟨left, hleft, -⟩ := ihl (hquote.operand (by simp))
      obtain ⟨right, hright, -⟩ := ihr (hquote.operand (by simp))
      obtain ⟨items, hstands⟩ := Phrase.exists_stands_joined (s := 0) Token.separates_equivalence
        (by simp [Operates]) (.cons ⟨left, hleft⟩ (.cons ⟨right, hright⟩ .nil)) (by simp) rfl
      rw [fold_node, collapse_node]
      exact ⟨items, hstands, by simp [Symbol.isBareBelowNot]⟩

/-- Decides whether a node is a junction, sum or product whose text does not show it: an empty
conjunction or disjunction, or a single operand. -/
def isDegenerate (n : Expression) : Bool :=
  match n.symbol, n.operands with
  | .and, [] | .or, [] | .and, [_] | .or, [_] | .sum, [_] | .product, [_] => true
  | _, _ => false

theorem collapseNode_eq_node {s : Symbol} {es : List Expression}
    (h : (node s es).isDegenerate = false) : collapseNode s es = node s es := by
  unfold collapseNode
  split
  case h_7 => rfl
  all_goals cases h

/-- Without degenerate nodes an expression is left as it is. -/
theorem collapse_eq_self {e : Expression} (h : ∀ n ∈ e.preOrder, n.isDegenerate = false) :
    e.collapse = e := by
  match e with
  | node s es =>
      rw [preOrder_node, List.forall_mem_cons] at h
      obtain ⟨hnode, hoperands⟩ := h
      have hes : ∀ e ∈ es, e.collapse = e := fun e he =>
        collapse_eq_self fun n hn => hoperands n (List.mem_flatMap.mpr ⟨e, he, hn⟩)
      rw [collapse_node, List.map_congr_left hes, List.map_id']
      exact collapseNode_eq_node hnode

/-- The text of a formula is read as what collapsing leaves of the formula. -/
theorem ofText_eq_collapse (he : e.WellFormed) (hformula : e.isFormula = true)
    (hquote : e.QuoteFree) : ofText e.text = .ok e.collapse := by
  obtain ⟨items, hstands, -⟩ := exists_stands_of_formula (formulaTree_iff.mpr ⟨he, hformula⟩) hquote
  have hitems := hstands.renders 0 hstands.strength_pos
  exact hitems.writes.ofText_eq hitems.reads.read

theorem quoteFree_iff : e.QuoteFree ↔ ∀ name ∈ e.names, '\x22' ∉ name.toList := by
  simp [QuoteFree, names]

/-- The text of a formula is read as the formula without degenerate junctions, so it is read as the
formula itself if there are none. -/
theorem ofText_text {e : Expression} (he : e.WellFormed) (hformula : e.isFormula = true)
    (hquote : ∀ name ∈ e.names, '\x22' ∉ name.toList) :
    ofText e.text = .ok e.collapse ∧
      ((∀ n ∈ e.preOrder, n.isDegenerate = false) → ofText e.text = .ok e) := by
  have hread := ofText_eq_collapse he hformula (quoteFree_iff.mpr hquote)
  refine ⟨hread, fun hnodes => ?_⟩
  rw [hread, collapse_eq_self hnodes]

namespace RoundTripWitness

/-- A disjunction of a single implication, an empty name, a name with white space and a comparison
with the least constant, with degenerate nodes on each level. -/
def sample : Expression :=
  node .or [
    node .and [node .implies [
      node .implies [literal "a" true, literal "" false],
      node .not [literal "b\n c" true]]],
    node .not [node .and []],
    node (.compare .lessOrEqual) [
      node .sum [node .product [unknown "x", constant Int64.minValue]],
      node .product [node .sum [unknown "x", constant 1], constant (-2)]]]

theorem ofText_text_sample :
    sample.WellFormed ∧ sample.isFormula = true ∧
      (∀ name ∈ sample.names, '\x22' ∉ name.toList) ∧
      ofText sample.text = .ok (node .or [
        node .implies [
          node .implies [literal "a" true, literal "" false],
          node .not [literal "b\n c" true]],
        node .not [truth true],
        node (.compare .lessOrEqual) [
          node .product [unknown "x", constant Int64.minValue],
          node .product [node .sum [unknown "x", constant 1], constant (-2)]]]) := by
  have hsample : sample.WellFormed := by decide +kernel
  have hquote : ∀ name ∈ sample.names, '\x22' ∉ name.toList := by decide +kernel
  obtain ⟨hread, -⟩ := ofText_text hsample rfl hquote
  refine ⟨hsample, rfl, hquote, hread.trans ?_⟩
  simp [sample, collapse_node, collapseNode, literal, unknown, constant, truth]

end RoundTripWitness

end Expression

end ClauseForm
