import ClauseForm.Proofs.EnclosedText
import ClauseForm.Proofs.LevelItems

/-!
Chains of implications or equivalences, and rows of negation signs.

A chain of any length is read as nested to the right, although no text of a formula holds a chain of
more than two operands: an operand of the same operator is written in parentheses.  In a row of
signs each one negates what follows, and the last one belongs to the name behind it.
-/

namespace ClauseForm

namespace Expression

open Reading

variable {es : List Expression} {last e : Expression} {s : Symbol} {weak : List Symbol}
  {text name spelling : String} {items : List Item}

/-! ### Chains -/

/-- The text of an operand, in parentheses if its operator is one of those that bind too weakly. -/
def enclosed (weak : List Symbol) (e : Expression) : String :=
  if e.symbol ∈ weak then "(" ++ e.text ++ ")" else e.text

/-- The operands of a chain nested to the right below a symbol. -/
def nestedRight (s : Symbol) (es : List Expression) (last : Expression) : Expression :=
  es.foldr (fun l r => node s [l, r]) last

/-- A formula that its text shows as it is: no junction, sum or product has fewer than two operands,
and no name has a quotation mark. -/
abbrev Plain (e : Expression) : Prop := Regular (fun name => '\x22' ∉ name.toList) .formula e

theorem Plain.exists_stands (h : Plain e) :
    ∃ items, Phrase.Stands .formula (e.fold phrase) items e := by
  obtain ⟨items, hstands, -⟩ := exists_stands_of_formula
    (formulaTree_iff.mpr ⟨h.wellFormed, h.isFormula⟩) h.names
  rw [collapse_eq_self h.nondegenerate] at hstands
  exact ⟨items, hstands⟩

theorem nested_ok (s : Symbol) (es : List Expression) (last : Expression) :
    nested s ((es ++ [last]).map .ok) = some (.ok (nestedRight s es last)) := by
  rw [nested, ← List.map_reverse, List.reverse_concat, List.map_cons]
  refine congrArg some ?_
  rw [List.map_reverse, List.foldl_reverse]
  induction es with
  | nil => rfl
  | cons e es ih =>
      rw [List.map_cons, List.foldr_cons, ih]
      rfl

/-- Equivalences bind weaker than implications, and these weaker than all other formulas. -/
theorem strength_cases (h : e.isDegenerate = false) :
    e.symbol = .equivalent ∧ (e.fold phrase).strength = 1 ∨
      e.symbol = .implies ∧ (e.fold phrase).strength = 2 ∨
      e.symbol ∉ [.implies, .equivalent] ∧ 2 < (e.fold phrase).strength := by
  obtain ⟨s, es⟩ := e
  rw [fold_node]
  cases s with
  | literal name positive => cases positive <;> simp [phrase, Phrase.closed]
  | and | or =>
      match es with
      | [] | [_] => contradiction
      | _ :: _ :: _ => simp [phrase, Phrase.joined]
  | _ => simp [phrase, Phrase.closed, Phrase.joined]

theorem Plain.isDegenerate_eq (h : Plain e) : e.isDegenerate = false := by
  refine h.nondegenerate e ?_
  obtain ⟨s, es⟩ := e
  rw [preOrder_node]
  exact List.mem_cons_self

theorem Plain.strength_le_two_iff (h : Plain e) :
    (e.fold phrase).strength ≤ 2 ↔ e.symbol ∈ [.implies, .equivalent] := by
  rcases strength_cases h.isDegenerate_eq with ⟨hs, hp⟩ | ⟨hs, hp⟩ | ⟨hs, hp⟩
  · simp [hs, hp]
  · simp [hs, hp]
  · exact iff_of_false (Nat.not_le_of_lt hp) hs

theorem Plain.strength_le_one_iff (h : Plain e) :
    (e.fold phrase).strength ≤ 1 ↔ e.symbol ∈ [.equivalent] := by
  rcases strength_cases h.isDegenerate_eq with ⟨hs, hp⟩ | ⟨hs, hp⟩ | ⟨hs, hp⟩
  · simp [hs, hp]
  · simp [hs, hp]
  · exact iff_of_false (by omega) fun hmem => hs (List.mem_cons_of_mem _ hmem)

/-- Operands joined by an operator that nests to the right are read as nested to the right. -/
theorem ofText_chain {n : Nat} {op : String} (hop : Token.Separates op.toList (separator (n + 1)))
    (hn : Operates .formula (n + 1)) (hcombine : combine (n + 1) = nested s)
    (hweak : ∀ e, Plain e → ((e.fold phrase).strength ≤ n + 1 ↔ e.symbol ∈ weak))
    (h : ∀ e ∈ es ++ [last], Plain e) :
    ofText (op.intercalate ((es ++ [last]).map (enclosed weak))) = .ok (nestedRight s es last) := by
  have hoperands : List.Forall₂ (fun p e => ∃ items, Phrase.Stands .formula p items e)
      ((es ++ [last]).map (fold phrase)) (es ++ [last]) := by
    rw [List.forall₂_map_left_iff, List.forall₂_same]
    exact fun e he => (h e he).exists_stands
  obtain ⟨items, hstands⟩ := Phrase.exists_stands_joined hop hn hoperands (by simp)
    (by rw [hcombine, nested_ok])
  have htext : (Phrase.joined op (n + 1) ((es ++ [last]).map (fold phrase))).text =
      op.intercalate ((es ++ [last]).map (enclosed weak)) := by
    refine congrArg op.intercalate ?_
    rw [List.map_map]
    refine List.map_congr_left fun e he => ?_
    simp only [Function.comp_apply, Phrase.operandText, enclosed, Expression.text,
      hweak e (h e he)]
  have hitems := hstands.renders 0 hstands.strength_pos
  exact htext ▸ hitems.writes.ofText_eq hitems.reads.read

/-! ### Negation signs -/

/-- A row of negation signs. -/
def signs (n : Nat) : String := String.ofList (List.replicate n '~')

theorem signs_succ (n : Nat) : signs (n + 1) = "~" ++ signs n := by
  simp [signs, List.replicate_succ]

theorem writes_signs (h : Writes text items) (n : Nat) :
    Writes (signs n ++ text) (List.replicate n (.token .negation) ++ items) := by
  induction n with
  | zero => simpa [signs] using h
  | succ n ih =>
      rw [signs_succ, String.append_assoc, List.replicate_succ, List.cons_append]
      exact ih.negation

/-- An atom behind negation signs is read as a formula on its own. -/
theorem ofText_signs {n : Nat} (h : Writes text items)
    (hhead : ∀ i ∈ items.head?, i.isToken .negation = false)
    (hread : atom n items = some (.ok e)) : ofText (signs n ++ text) = .ok e := by
  have hunary := (unary_replicate n hhead).trans hread
  have hbelow := readsBelow_of_unary (fun _ ht => free_of_unary hunary ht) hunary 0
  exact (writes_signs h n).ofText_eq hbelow.read

/-- A name is spelled as it is, if it can do without quotes, or in quotes. -/
def Spells (spelling name : String) : Prop :=
  Token.isPlainName name.toList = true ∧ spelling = name ∨
    '\x22' ∉ name.toList ∧ spelling = "\"" ++ name ++ "\""

theorem Spells.writes (h : Spells spelling name) : Writes spelling [.token (.name name)] := by
  refine .token (by simp) (by simp) ?_
  rcases h with ⟨hplain, rfl⟩ | ⟨hquote, rfl⟩
  · exact Token.scans_plainName hplain
  · simpa using Token.scans_quotedName hquote

/-- Chains are read as nested to the right, and negation signs as negations of what follows them,
except that the sign next to a name belongs to the literal. -/
theorem ofText_chains_and_signs :
    (∀ (es : List Expression) (last : Expression), (∀ e ∈ es ++ [last], Plain e) →
      ofText (" => ".intercalate ((es ++ [last]).map (enclosed [.implies, .equivalent]))) =
          .ok (nestedRight .implies es last) ∧
        ofText (" <=> ".intercalate ((es ++ [last]).map (enclosed [.equivalent]))) =
          .ok (nestedRight .equivalent es last)) ∧
    (∀ (n : Nat) (spelling name : String), Spells spelling name →
      ofText (signs (n + 1) ++ spelling) = .ok (negated n (literal name false))) ∧
    ∀ (n : Nat) (text : String) (e : Expression),
      (∃ c ∈ text.toList, Token.isLayout c = false) → ofText text = .ok e →
        ofText (signs n ++ ("(" ++ text ++ ")")) = .ok (negated n e) := by
  refine ⟨fun es last h => ⟨?_, ?_⟩, fun n spelling name h => ?_, fun n text e hvisible h => ?_⟩
  · exact ofText_chain (n := 1) Token.separates_implication (by simp [Operates]) rfl
      (fun _ he => he.strength_le_two_iff) h
  · exact ofText_chain (n := 0) Token.separates_equivalence (by simp [Operates]) rfl
      (fun _ he => he.strength_le_one_iff) h
  · exact ofText_signs h.writes (by simp [Item.isToken]) rfl
  · obtain ⟨items, hwrites, hread⟩ := exists_writes_of_ofText hvisible h
    refine ofText_signs hwrites.group (by simp [Item.isToken]) ?_
    rw [hread]
    rfl

namespace ChainsWitness

/-- A comparison at the front of the chains. -/
def below : Expression := node (.compare .lessOrEqual) [unknown "x", unknown "y"]

/-- An operand that is written in parentheses in one chain only. -/
def arrow : Expression := node .implies [literal "a" true, literal "b c" false]

/-- A comparison at the end, whose sign begins the sign of an implication. -/
def equal : Expression := node (.compare .equal) [unknown "y", unknown "z"]

theorem plain_below : Plain below :=
  regular_compare (regular_unknown (by decide)) (regular_unknown (by decide)) _

theorem plain_arrow : Plain arrow :=
  regular_nested (.inl rfl) (regular_literal (by decide) _) (regular_literal (by decide) _)

theorem plain_equal : Plain equal :=
  regular_compare (regular_unknown (by decide)) (regular_unknown (by decide)) _

theorem ofText_chains_and_signs_sample :
    (∀ e ∈ [below, arrow] ++ [equal], Plain e) ∧ Spells "\"a b\"" "a b" ∧
      ofText "x <= y => (a => ~\"b c\") => y = z" =
        .ok (node .implies [below, node .implies [arrow, equal]]) ∧
      ofText "x <= y <=> a => ~\"b c\" <=> y = z" =
        .ok (node .equivalent [below, node .equivalent [arrow, equal]]) ∧
      ofText "~~~\"a b\"" = .ok (node .not [node .not [literal "a b" false]]) ∧
      ofText "~~(x <= y)" = .ok (node .not [node .not [below]]) := by
  have hplain : ∀ e ∈ [below, arrow] ++ [equal], Plain e := by
    simp [plain_below, plain_arrow, plain_equal]
  have hspells : Spells "\"a b\"" "a b" := Or.inr ⟨by decide, rfl⟩
  obtain ⟨hchains, hname, hgroup⟩ := ofText_chains_and_signs
  obtain ⟨himplies, hequivalent⟩ := hchains [below, arrow] equal hplain
  have himplied : " => ".intercalate (([below, arrow] ++ [equal]).map
      (enclosed [.implies, .equivalent])) = "x <= y => (a => ~\"b c\") => y = z" := by
    decide +kernel
  have hequal : " <=> ".intercalate (([below, arrow] ++ [equal]).map
      (enclosed [.equivalent])) = "x <= y <=> a => ~\"b c\" <=> y = z" := by
    decide +kernel
  have htext : below.text = "x <= y" := by decide +kernel
  have hbelow : ofText "x <= y" = .ok below := htext ▸ plain_below.ofText_text_eq fun _ h => h
  rw [himplied] at himplies
  rw [hequal] at hequivalent
  exact ⟨hplain, hspells, himplies, hequivalent, hname 2 _ _ hspells,
    hgroup 2 "x <= y" below ⟨'x', by simp, rfl⟩ hbelow⟩

end ChainsWitness

end Expression

end ClauseForm
