import ClauseForm.Proofs.GrammarTokens
import ClauseForm.Proofs.LevelItems
import ClauseForm.Proofs.TreeValues

/-!
Whatever the grammar matches is read.

Where a rule matches, the text that it matched is cut into grouped tokens, the level of the rule
reads their items, and the tree of the match stands for that reading.  The induction goes over the
length of the text, because a rule is called again behind an opening parenthesis.
-/

namespace ClauseForm

namespace Grammar

open Peg Reading

variable {cs mid rest : List Char} {ts us : List Token} {t : Token} {items : List Item}
  {trees : List (ParseTree Rule)} {e : Peg Rule} {n s : Nat} {c : Category}
  {read : List Item → Option Reading} {value : ParseTree Rule → Result}

/-- A text is cut into tokens up to the rest of it. -/
def Cuts (cs : List Char) (ts : List Token) (rest : List Char) : Prop :=
  Token.scan cs = (Token.scan rest).map (ts ++ ·)

namespace Cuts

theorem refl (cs : List Char) : Cuts cs [] cs := by
  simp [Cuts]

theorem trans (h : Cuts cs ts mid) (h' : Cuts mid us rest) : Cuts cs (ts ++ us) rest := by
  rw [Cuts, h, h', Option.map_map]
  congr 1
  funext vs
  simp

theorem of_first? (h : Token.first? cs = some (t, rest)) : Cuts cs [t] rest :=
  Token.scan_eq_of_first? h

/-- Layout between two pieces does not count. -/
theorem behind (h : Cuts cs ts mid) (h' : Cuts (mid.dropWhile Token.isLayout) us rest) :
    Cuts cs (ts ++ us) rest :=
  h.trans ((Token.scan_dropWhile mid).symm.trans h')

end Cuts

/-- Whatever an expression matches at the front of texts up to some length is a single tree, is read
on a level, and stands for the same. -/
def Reads (n : Nat) (e : Peg Rule) (read : List Item → Option Reading)
    (value : ParseTree Rule → Result) : Prop :=
  ∀ cs trees rest, cs.length ≤ n → Parses body e cs (some (trees, rest)) →
    ∃ tree ts items r, trees = [tree] ∧ Cuts cs ts rest ∧ Grouped ts items ∧
      read items = some r ∧ value tree = ofReading r

/-! ### Series -/

/-- Some text is cut into operands with an operator in front of each, all of which can be read. -/
def ReadBehind (t : Token) (read : List Item → Option Reading) (value : ParseTree Rule → Result)
    (cs : List Char) (trees : List (ParseTree Rule)) (rest : List Char) : Prop :=
  ∃ (parts : List (List Item)) (ts : List Token) (rs : List Reading),
    Cuts cs ts rest ∧ Grouped ts (parts.flatMap (.token t :: ·)) ∧
      parts.mapM read = some rs ∧ trees.map value = rs.map ofReading

theorem ReadBehind.nil (cs : List Char) : ReadBehind t read value cs [] cs :=
  ⟨[], [], [], .refl cs, .nil, rfl, rfl⟩

/-- One more operand with its operator in front of the others. -/
theorem ReadBehind.cons {op : String} (hop : t.spelling? = some op) (hopening : t ≠ .opening)
    (hclosing : t ≠ .closing) (hread : Reads n e read value) (hcs : cs.length ≤ n)
    {vs : List (ParseTree Rule)} (h : Parses body (followed (.text op) e) cs (some (trees, mid)))
    (hbehind : ReadBehind t read value mid vs rest) :
    ReadBehind t read value cs (trees ++ vs) rest := by
  obtain ⟨_, behind, _, htext, hoperand, rfl⟩ := parses_followed_iff.mp h
  obtain ⟨rfl, hfirst⟩ := (parses_text_iff_first? hop).mp htext
  obtain ⟨tree, ts, items, r, rfl, hcuts, hgrouped, hitems, hvalue⟩ :=
    hread _ _ _ (length_flush_le htext hcs) hoperand
  obtain ⟨parts, us, rs, hcuts', hgrouped', hparts, hvalues⟩ := hbehind
  refine ⟨items :: parts, t :: (ts ++ us), r :: rs, ?_, ?_, ?_, ?_⟩
  · exact ((Cuts.of_first? hfirst).behind hcuts).trans hcuts'
  · exact .token hopening hclosing (hgrouped.append hgrouped')
  · rw [List.mapM_cons, hitems, hparts]
    rfl
  · rw [List.nil_append, List.singleton_append, List.map_cons, hvalue, hvalues, List.map_cons]

theorem parts_of_series {op : String} (hop : t.spelling? = some op) (hopening : t ≠ .opening)
    (hclosing : t ≠ .closing) (hread : Reads n e read value) (hcs : cs.length ≤ n)
    (h : Parses body (series e op) cs (some (trees, rest))) :
    ∃ (parts : List (List Item)) (ts : List Token) (rs : List Reading), parts ≠ [] ∧
      Cuts cs ts rest ∧ Grouped ts ([.token t].intercalate parts) ∧
      parts.mapM read = some rs ∧ trees.map value = rs.map ofReading := by
  have hmany : ∀ {cs trees rest}, Parses body (.many (.seq layout (followed (.text op) e))) cs
      (some (trees, rest)) → cs.length ≤ n → ReadBehind t read value cs trees rest := by
    intro cs trees rest
    refine many_induction (q := fun cs trees rest => cs.length ≤ n →
      ReadBehind t read value cs trees rest) (fun cs _ => .nil cs) ?_
    intro cs us mid vs rest hstep ih hcs
    obtain ⟨_, flush, ws, hlayout, hoperand, rfl⟩ := parses_seq_iff.mp hstep
    obtain ⟨rfl, rfl⟩ := Prod.mk.inj (Option.some.inj (parses_layout_iff.mp hlayout))
    have hbehind := ReadBehind.cons hop hopening hclosing hread
      (Nat.le_trans hlayout.length_le hcs) hoperand (ih (Nat.le_trans hstep.length_le hcs))
    obtain ⟨parts, ts, rs, hcuts, hrest⟩ := hbehind
    exact ⟨parts, ts, rs, (Cuts.refl cs).behind hcuts, hrest⟩
  obtain ⟨_, mid, vs, hfirst, hrepeated, rfl⟩ := parses_followed_iff.mp h
  obtain ⟨tree, ts, items, r, rfl, hcuts, hgrouped, hitems, hvalue⟩ := hread _ _ _ hcs hfirst
  have hmid := length_flush_le hfirst hcs
  have hbehind : ReadBehind t read value (mid.dropWhile Token.isLayout) vs rest := by
    rcases parses_choice_iff.mp hrepeated with hsome | ⟨-, hnone⟩
    · obtain ⟨ws, next, xs, hoperand, hothers, rfl⟩ := parses_seq_iff.mp hsome
      exact .cons hop hopening hclosing hread hmid hoperand
        (hmany hothers (Nat.le_trans hoperand.length_le hmid))
    · obtain ⟨rfl, rfl⟩ := Prod.mk.inj (Option.some.inj (parses_empty_iff.mp hnone))
      exact .nil _
  obtain ⟨parts, us, rs, hcuts', hgrouped', hparts, hvalues⟩ := hbehind
  refine ⟨items :: parts, ts ++ us, r :: rs, List.cons_ne_nil _ _, hcuts.behind hcuts', ?_, ?_, ?_⟩
  · rw [intercalate_cons]
    exact hgrouped.append hgrouped'
  · rw [List.mapM_cons, hitems, hparts]
    rfl
  · rw [List.singleton_append, List.map_cons, hvalue, hvalues, List.map_cons]

/-- An operator makes something of any operands. -/
theorem exists_combine {rs : List Reading} (hs : Operates c s) (hne : rs ≠ []) :
    ∃ r, combine s rs = some r := by
  have hnested : ∀ k, ∃ r, Reading.nested k rs = some r := by
    intro k
    unfold Reading.nested
    split
    · next hnil => exact absurd (List.reverse_eq_nil_iff.mp hnil) hne
    · exact ⟨_, rfl⟩
  cases c with
  | formula =>
      match s, hs with
      | 1, _ | 2, _ => exact hnested _
      | 3, _ | 4, _ => exact ⟨_, rfl⟩
  | term =>
      match s, hs with
      | 5, _ | 6, _ => exact ⟨_, rfl⟩

/-- What the parts of grouped items are read as fits. -/
theorem fits_parts {parts : List (List Item)} {rs : List Reading}
    (hgrouped : Grouped ts ([.token t].intercalate parts))
    (hparts : parts.mapM (readBelow c s) = some rs) :
    ∀ r ∈ rs, Fits (fun _ => True) c ts r := by
  intro r hr
  obtain ⟨part, hpart, hread⟩ := exists_of_mem_mapM hparts hr
  have hstems : ∀ i ∈ [.token t].intercalate parts, Stems (fun _ => True) ts i :=
    hgrouped.stems (fun _ _ => trivial) (List.Subset.refl ts)
  exact readsFitting_below (fun _ _ => trivial) c s part r
    (fun i hi => hstems i (mem_intercalate hpart hi)) hread

theorem spelling?_separator (h : Operates c s) : (separator s).spelling? = some (operator s) := by
  cases c with
  | formula =>
      match s, h with
      | 1, _ | 2, _ | 3, _ | 4, _ => rfl
  | term =>
      match s, h with
      | 5, _ | 6, _ => rfl

/-- A series below an operator is read if its operands are. -/
theorem reads_series (hop : Operates c (s + 1))
    (h : Reads n (pegBelow c (s + 1)) (readBelow c (s + 1)) (build (partBelow c (s + 1)))) :
    Reads n (pegBelow c s) (readBelow c s) (build (partBelow c s)) := by
  intro cs trees rest hcs hparses
  obtain ⟨rule, hpeg, hbody, hbuild⟩ := exists_rule_below hop
  rw [hpeg] at hparses
  obtain ⟨us, front, hseries, -, rfl⟩ := parses_rule_iff.mp hparses
  rw [hbody] at hseries
  obtain ⟨parts, ts, rs, hne, hcuts, hgrouped, hparts, hvalues⟩ :=
    parts_of_series (spelling?_separator hop) (separator_ne_opening _) (separator_ne_closing _) h hcs
      hseries
  have hrs : rs ≠ [] := by
    rw [Ne, ← List.length_eq_zero_iff, length_of_mapM hparts, List.length_eq_zero_iff]
    exact hne
  obtain ⟨r, hr⟩ := exists_combine hop hrs
  refine ⟨_, ts, _, r, rfl, hcuts, hgrouped, ?_, ?_⟩
  · rw [readBelow_of_operates hop, chain_intercalate hne (fun part hpart => ?_) hparts, hr]
    obtain ⟨q, hq⟩ := exists_read_of_mapM hparts hpart
    exact free_of_readBelow hq (Nat.le_refl _) hop
  · rw [hbuild, hvalues]
    exact assemble_ofReading hop hrs (fits_parts hgrouped hparts) hr

/-! ### Terms -/

theorem rule_of_parses {r : Rule} {tree : ParseTree Rule}
    (h : Parses body (.rule r) cs (some ([tree], rest))) : tree.rule = r := by
  obtain ⟨us, front, -, -, hnode⟩ := parses_rule_iff.mp h
  rw [(List.cons.inj hnode).1]
  rfl

/-- A part in parentheses is read as a group. -/
theorem group_of_parenthesized (hread : ∀ m < n, Reads m e read value) (hcs : cs.length ≤ n)
    (h : Parses body (parenthesized e) cs (some (trees, rest))) :
    ∃ tree ts items r, trees = [tree] ∧
      (∃ cs' rest', Parses body e cs' (some ([tree], rest'))) ∧
      Cuts cs (.opening :: (ts ++ [.closing])) rest ∧ Grouped ts items ∧
      read items = some r ∧ value tree = ofReading r := by
  obtain ⟨_, inside, _, hopening, hbehind, rfl⟩ := parses_followed_iff.mp h
  obtain ⟨_, mid, _, hinside, hclosing, rfl⟩ := parses_followed_iff.mp hbehind
  have hlength := length_flush_lt hopening hcs
  obtain ⟨rfl, hfirst⟩ := (parses_text_iff_first? (t := .opening) rfl).mp hopening
  obtain ⟨rfl, hlast⟩ := (parses_text_iff_first? (t := .closing) rfl).mp hclosing
  obtain ⟨tree, ts, items, r, rfl, hcuts, hgrouped, hitems, hvalue⟩ :=
    hread _ hlength _ _ _ (Nat.le_refl _) hinside
  exact ⟨tree, ts, items, r, rfl, ⟨_, _, hinside⟩,
    (Cuts.of_first? hfirst).behind (hcuts.behind (.of_first? hlast)), hgrouped, hitems, hvalue⟩

theorem reads_factor (hsum : ∀ m < n, Reads m (.rule .sum) term (build .sum)) :
    Reads n factor Reading.factor (build .factor) := by
  intro cs trees rest hcs h
  rcases parses_choice_iff.mp h with hnumber | ⟨-, h⟩
  · obtain ⟨text, hfirst, rfl⟩ := parses_number_iff.mp hnumber
    exact ⟨_, _, _, _, rfl, .of_first? hfirst, .token (by simp) (by simp) .nil, rfl,
      by rw [build]; rfl⟩
  rcases parses_choice_iff.mp h with hname | ⟨-, hgroup⟩
  · obtain ⟨tree, text, rfl, hrule, hname, hfirst⟩ := first?_of_name hname
    refine ⟨tree, _, _, .ok (.unknown text), rfl, .of_first? hfirst,
      .token (by simp) (by simp) .nil, rfl, ?_⟩
    rw [build, hrule]
    simp only [hname]
    rfl
  · obtain ⟨tree, ts, items, r, rfl, ⟨_, _, htree⟩, hcuts, hgrouped, hitems, hvalue⟩ :=
      group_of_parenthesized hsum hcs hgroup
    refine ⟨tree, _, _, r, rfl, hcuts, .group hgrouped .nil, hitems, ?_⟩
    rw [build, rule_of_parses htree, ← hvalue]

/-- Sums are read as terms. -/
theorem reads_sum (n : Nat) : Reads n (.rule .sum) term (build .sum) := by
  induction n using Nat.strong_induction_on with
  | _ n ih =>
      have hproduct := reads_series (c := .term) (s := 5) (by simp [Operates]) (reads_factor ih)
      exact reads_series (c := .term) (s := 4) (by simp [Operates]) hproduct

/-- No factor begins with an equals sign. -/
theorem head_of_factor (h : Parses body factor cs (some (trees, rest))) : cs.head? ≠ some '=' := by
  intro hhead
  obtain ⟨ds, rfl⟩ := List.head?_eq_some_iff.mp hhead
  rcases parses_choice_iff.mp h with hnumber | ⟨-, h⟩
  · obtain ⟨text, hfirst, -⟩ := parses_number_iff.mp hnumber
    rcases Token.first?_eq_numeral_iff.mp hfirst with ⟨-, hne, -⟩ | ⟨_, hcs, -⟩
    · exact hne rfl
    · simp at hcs
  rcases parses_choice_iff.mp h with hname | ⟨-, hgroup⟩
  · obtain ⟨tree, text, -, -, -, hfirst⟩ := first?_of_name hname
    rcases Token.first?_eq_name_iff.mp hfirst with ⟨_, _, hcs, hstart, -⟩ | ⟨_, hcs, -⟩
    · obtain ⟨rfl, -⟩ := List.cons.inj hcs
      cases hstart
    · simp at hcs
  · obtain ⟨_, _, _, hopening, -⟩ := parses_followed_iff.mp hgroup
    obtain ⟨-, hcs⟩ := parses_text_iff.mp hopening
    simp at hcs

theorem head_of_sum (h : Parses body (.rule .sum) cs (some (trees, rest))) :
    cs.head? ≠ some '=' := by
  obtain ⟨_, _, hsum, -⟩ := parses_rule_iff.mp h
  obtain ⟨_, _, _, hproduct, -⟩ := parses_followed_iff.mp hsum
  obtain ⟨_, _, hproduct, -⟩ := parses_rule_iff.mp hproduct
  obtain ⟨_, _, _, hfactor, -⟩ := parses_followed_iff.mp hproduct
  exact head_of_factor hfactor

/-! ### Formulas -/

/-- What grouped items are read as fits. -/
theorem fits_of_grouped {r : Reading} (hgrouped : Grouped ts items)
    (hread : readBelow c s items = some r) : Fits (fun _ => True) c ts r :=
  readsFitting_below (fun _ _ => trivial) c s items r
    (hgrouped.stems (fun _ _ => trivial) (List.Subset.refl ts)) hread

/-- The checked constructor takes the two terms of a comparison. -/
theorem checked_compare {a b : Reading} (ha : Fits (fun _ => True) .term ts a)
    (hb : Fits (fun _ => True) .term us b) (sign : Comparison) :
    (do let l ← ofReading a; let r ← ofReading b; checked (.compare sign) [l, r]) =
      ofReading (do let l ← a; let r ← b; return .node (.compare sign) [l, r]) := by
  cases a with
  | error text => rfl
  | ok l =>
      cases b with
      | error text => rfl
      | ok r => exact checked_of_wellFormed (Expression.regular_compare ha hb sign).wellFormed

theorem fits_compare {a b : Reading} (ha : Fits (fun _ => True) .term ts a)
    (hb : Fits (fun _ => True) .term us b) (sign : Comparison) :
    Fits (fun _ => True) .formula (ts ++ us)
      (do let l ← a; let r ← b; return .node (.compare sign) [l, r]) := by
  cases a with
  | error text => exact ha.imp_left fun h => List.mem_append_left _ h
  | ok l =>
      cases b with
      | error text => exact hb.imp_left fun h => List.mem_append_right _ h
      | ok r => exact Expression.regular_compare ha hb sign

/-- A comparison that matches has two terms with its sign between them. -/
theorem parts_of_comparison (h : Parses body (.rule .comparison) cs (some (trees, rest))) :
    ∃ tree sign left right ts us a b, trees = [tree] ∧ tree.rule = .comparison ∧
      Cuts cs (ts ++ .comparison sign :: us) rest ∧ Grouped ts left ∧ Grouped us right ∧
      term left = some a ∧ term right = some b ∧ build .comparison tree = ofReading (do
        let l ← a
        let r ← b
        return .node (.compare sign) [l, r]) := by
  obtain ⟨_, front, hparts, -, rfl⟩ := parses_rule_iff.mp h
  obtain ⟨_, mid, _, hfirst, hbehind, rfl⟩ := parses_followed_iff.mp hparts
  obtain ⟨_, next, _, hcomparator, hsecond, rfl⟩ := parses_followed_iff.mp hbehind
  obtain ⟨l, ts, left, a, rfl, hcuts, hleft, ha, hl⟩ := reads_sum _ _ _ _ (Nat.le_refl _) hfirst
  obtain ⟨r, us, right, b, rfl, hcuts', hright, hb, hr⟩ := reads_sum _ _ _ _ (Nat.le_refl _) hsecond
  obtain ⟨sign, rfl, hsign⟩ := first?_of_comparator hcomparator
  have hfirst? : Token.first? (mid.dropWhile Token.isLayout) = some (.comparison sign, next) := by
    -- An equals sign behind `<` would be the first character of a term.
    refine hsign.resolve_right fun hequal => head_of_sum hsecond ?_
    obtain ⟨ds, rfl⟩ := List.head?_eq_some_iff.mp hequal
    rfl
  refine ⟨_, sign, left, right, ts, us, a, b, rfl, rfl, ?_, hleft, hright, ha, hb, ?_⟩
  · exact hcuts.behind ((Cuts.of_first? hfirst?).behind hcuts')
  · rw [← checked_compare (fits_of_grouped (s := 4) hleft ha) (fits_of_grouped (s := 4) hright hb),
      ← hl, ← hr]
    simp only [List.singleton_append, build]
    rfl

/-- An atom that matches is read as an atom behind any number of negation signs. -/
theorem atom_of_parses (hformula : ∀ m < n, Reads m (.rule .equivalence) formula (build .equivalence))
    (hcs : cs.length ≤ n) (h : Parses body atom cs (some (trees, rest))) :
    ∃ tree ts items, trees = [tree] ∧ tree.rule ≠ .negation ∧ Cuts cs ts rest ∧ Grouped ts items ∧
      (∀ i ∈ items.head?, i.isToken .negation = false) ∧
      ∀ signs, ∃ r, Reading.atom signs items = some r ∧ signed signs tree = ofReading r := by
  have hconstant : ∀ signs b, negated signs (.truth b) =
      ofReading (.ok (Reading.negated signs (.truth b))) := fun signs b =>
    negated_of_regular (Expression.regular_truth b) signs
  rcases parses_choice_iff.mp h with hverum | ⟨-, h⟩
  · obtain ⟨⟨text, rfl⟩, hfirst⟩ := first?_of_rule (t := .verum) rfl rfl hverum
    exact ⟨_, _, _, rfl, by simp [ParseTree.rule], .of_first? hfirst, .token (by simp) (by simp) .nil,
      by simp [Item.isToken], fun signs => ⟨_, rfl, hconstant signs true⟩⟩
  rcases parses_choice_iff.mp h with hfalsum | ⟨-, h⟩
  · obtain ⟨⟨text, rfl⟩, hfirst⟩ := first?_of_rule (t := .falsum) rfl rfl hfalsum
    exact ⟨_, _, _, rfl, by simp [ParseTree.rule], .of_first? hfirst, .token (by simp) (by simp) .nil,
      by simp [Item.isToken], fun signs => ⟨_, rfl, hconstant signs false⟩⟩
  rcases parses_choice_iff.mp h with hcomparison | ⟨-, h⟩
  · obtain ⟨tree, sign, left, right, ts, us, a, b, rfl, hrule, hcuts, hleft, hright, ha, hb, hvalue⟩ :=
      parts_of_comparison hcomparison
    refine ⟨tree, _, left ++ .token (.comparison sign) :: right, rfl, by simp [hrule], hcuts,
      hleft.append (.token (by simp) (by simp) hright), ?_,
      fun signs => ⟨_, atom_comparison sign ha hb, ?_⟩⟩
    · cases left with
      | nil => contradiction
      | cons i left =>
          rintro _ ⟨rfl⟩
          simpa using not_negation_of_isTermPart
            (isTermPart_of_readBelow (s := 4) ha i List.mem_cons_self)
    · have hfits := fits_compare (fits_of_grouped (s := 4) hleft ha)
        (fits_of_grouped (s := 4) hright hb) sign
      rw [← negated_ofReading hfits, ← hvalue, signed, hrule]
  rcases parses_choice_iff.mp h with hname | ⟨-, hgroup⟩
  · obtain ⟨tree, text, rfl, hrule, hname, hfirst⟩ := first?_of_name hname
    refine ⟨tree, _, _, rfl, by simp [hrule], .of_first? hfirst, .token (by simp) (by simp) .nil,
      by simp [Item.isToken], fun signs => ⟨_, rfl, ?_⟩⟩
    rw [signed, hrule]
    simp only [hname]
    exact negated_of_regular (Expression.regular_literal trivial _) (signs - 1)
  · obtain ⟨tree, ts, items, r, rfl, ⟨_, _, htree⟩, hcuts, hgrouped, hitems, hvalue⟩ :=
      group_of_parenthesized hformula hcs hgroup
    have hrule := rule_of_parses htree
    refine ⟨tree, _, _, rfl, by simp [hrule], hcuts, .group hgrouped .nil, by simp [Item.isToken],
      fun signs => ⟨r.map (Reading.negated signs), ?_, ?_⟩⟩
    · rw [hitems]
      rfl
    · rw [← negated_ofReading (fits_of_grouped (c := .formula) (s := 0) hgrouped hitems), ← hvalue,
        signed, hrule]

theorem negation_of_parses (h : Parses body (.rule .negation) cs (some (trees, rest))) :
    ∃ t, trees = [t] ∧ t.rule = .negation ∧ Cuts cs [.negation] rest := by
  obtain ⟨⟨text, rfl⟩, hfirst⟩ := first?_of_rule (t := .negation) rfl rfl h
  exact ⟨_, rfl, rfl, .of_first? hfirst⟩

/-- Negation signs that match stand at the front of the text. -/
theorem negations_of_parses (h : Parses body (repeated (.rule .negation)) cs (some (trees, rest))) :
    Cuts cs (List.replicate trees.length .negation) rest ∧ ∀ t ∈ trees, t.rule = .negation := by
  have hmany : ∀ {cs trees rest}, Parses body (.many (.seq layout (.rule .negation))) cs
      (some (trees, rest)) →
      Cuts cs (List.replicate trees.length .negation) rest ∧ ∀ t ∈ trees, t.rule = .negation := by
    intro cs trees rest
    refine many_induction (q := fun cs trees rest =>
      Cuts cs (List.replicate trees.length .negation) rest ∧ ∀ t ∈ trees, t.rule = Rule.negation)
      (fun cs => ⟨.refl cs, by simp⟩) ?_
    rintro cs us mid vs rest hstep ⟨hcuts, hrules⟩
    obtain ⟨_, flush, _, hlayout, hsign, rfl⟩ := parses_seq_iff.mp hstep
    obtain ⟨rfl, rfl⟩ := Prod.mk.inj (Option.some.inj (parses_layout_iff.mp hlayout))
    obtain ⟨t, rfl, hrule, hcut⟩ := negation_of_parses hsign
    exact ⟨(Cuts.refl cs).behind (hcut.trans hcuts), List.forall_mem_cons.mpr ⟨hrule, hrules⟩⟩
  rcases parses_choice_iff.mp h with hsome | ⟨-, hnone⟩
  · obtain ⟨_, mid, vs, hsign, hothers, rfl⟩ := parses_seq_iff.mp hsome
    obtain ⟨t, rfl, hrule, hcut⟩ := negation_of_parses hsign
    obtain ⟨hcuts, hrules⟩ := hmany hothers
    exact ⟨hcut.trans hcuts, List.forall_mem_cons.mpr ⟨hrule, hrules⟩⟩
  · obtain ⟨rfl, rfl⟩ := Prod.mk.inj (Option.some.inj (parses_empty_iff.mp hnone))
    exact ⟨.refl _, by simp⟩

theorem grouped_negations (n : Nat) :
    Grouped (List.replicate n .negation) (List.replicate n (.token .negation)) := by
  induction n with
  | zero => exact .nil
  | succ n ih => exact .token (by simp) (by simp) ih

theorem reads_unary (hformula : ∀ m < n, Reads m (.rule .equivalence) formula (build .equivalence)) :
    Reads n (.rule .unary) unary (build .unary) := by
  intro cs trees rest hcs h
  obtain ⟨_, front, hparts, -, rfl⟩ := parses_rule_iff.mp h
  obtain ⟨signs, mid, _, hsigns, hatom, rfl⟩ := parses_followed_iff.mp hparts
  obtain ⟨hcuts, hrules⟩ := negations_of_parses hsigns
  obtain ⟨tree, ts, items, rfl, hrule, hcuts', hgrouped, hhead, hread⟩ :=
    atom_of_parses hformula (length_flush_le hsigns hcs) hatom
  obtain ⟨r, hr, hvalue⟩ := hread signs.length
  refine ⟨_, _, List.replicate signs.length (.token .negation) ++ items, r, rfl, hcuts.behind hcuts',
    (grouped_negations _).append hgrouped, ?_, ?_⟩
  · rw [unary_replicate _ hhead, hr]
  · rw [build_unary hrules hrule, hvalue]

/-- Whatever matches as a formula is read as a formula. -/
theorem reads_equivalence (n : Nat) : Reads n (.rule .equivalence) formula (build .equivalence) := by
  induction n using Nat.strong_induction_on with
  | _ n ih =>
      have hconjunction := reads_series (c := .formula) (s := 3) (by simp [Operates]) (reads_unary ih)
      have hdisjunction := reads_series (c := .formula) (s := 2) (by simp [Operates]) hconjunction
      have himplication := reads_series (c := .formula) (s := 1) (by simp [Operates]) hdisjunction
      exact reads_series (c := .formula) (s := 0) (by simp [Operates]) himplication

end Grammar

end ClauseForm
