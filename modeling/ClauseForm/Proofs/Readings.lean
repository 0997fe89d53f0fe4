import ClauseForm.Proofs.RoundTrip
import ClauseForm.Proofs.Splitting

/-!
What can be read.

Whatever the tokens of a text are, what they are read as is a well-formed formula whose names come
from the text and which has no degenerate nodes, or one of the numerals in the text, which is out of
range.  So the text of a formula that was read is read as the same formula.
-/

namespace ClauseForm

namespace Expression

open Reading

variable {good : String → Prop} {c : Category} {s : Symbol} {es : List Expression} {e : Expression}

/-- What can be read as a formula or a term, where all names are good: it is well-formed, and no
node is degenerate. -/
structure Regular (good : String → Prop) (c : Category) (e : Expression) : Prop where
  wellFormed : e.WellFormed
  category_eq : e.category = c
  names : ∀ x ∈ e.occurrences, good x.name
  nondegenerate : ∀ n ∈ e.preOrder, n.isDegenerate = false

theorem Regular.mono {better : String → Prop} (h : Regular good c e)
    (hgood : ∀ name, good name → better name) : Regular better c e :=
  ⟨h.wellFormed, h.category_eq, fun x hx => hgood x.name (h.names x hx), h.nondegenerate⟩

theorem regular_node (hfit : misfit? s es = none) (hdegenerate : (node s es).isDegenerate = false)
    (hnames : ∀ x ∈ s.occurrence?, good x.name) (hes : ∀ e ∈ es, Regular good c e) :
    Regular good s.category (node s es) where
  wellFormed := .node hfit fun e he => (hes e he).wellFormed
  category_eq := rfl
  names x hx := by
    rw [occurrences_node, List.mem_append, List.mem_flatMap] at hx
    rcases hx with hx | ⟨e, he, hx⟩
    · exact hnames x (Option.mem_toList.mp hx)
    · exact (hes e he).names x hx
  nondegenerate := by
    rw [preOrder_node, List.forall_mem_cons]
    refine ⟨hdegenerate, fun n hn => ?_⟩
    obtain ⟨e, he, hn⟩ := List.mem_flatMap.mp hn
    exact (hes e he).nondegenerate n hn

/-- A node over operands of the category that its symbol takes. -/
theorem regular_operator (harity : s.arity.accepts es.length = true)
    (hcategory : s.operandCategory = some c) (hdegenerate : (node s es).isDegenerate = false)
    (hes : ∀ e ∈ es, Regular good c e) : Regular good s.category (node s es) := by
  refine regular_node (misfit?_eq_none_iff.mpr ⟨harity, ?_⟩) hdegenerate ?_ hes
  · rintro _ hd e he
    rw [hcategory, Option.some.injEq] at hd
    exact hd ▸ (hes e he).category_eq
  · have hnone : s.occurrence? = none := by cases s <;> first | rfl | cases hcategory
    rw [hnone]
    rintro _ ⟨⟩

theorem regular_leaf (hfit : misfit? s [] = none) (hdegenerate : (node s []).isDegenerate = false)
    (hnames : ∀ x ∈ s.occurrence?, good x.name) : Regular good s.category (node s []) :=
  regular_node (c := .formula) hfit hdegenerate hnames fun _ he => absurd he List.not_mem_nil

theorem regular_truth (b : Bool) : Regular good .formula (truth b) := by
  cases b
  · exact regular_leaf (s := .falsum) rfl rfl (by rintro _ ⟨⟩)
  · exact regular_leaf (s := .verum) rfl rfl (by rintro _ ⟨⟩)

theorem regular_literal {name : String} (hname : good name) (positive : Bool) :
    Regular good .formula (literal name positive) :=
  regular_leaf (s := .literal name positive) rfl rfl (by rintro _ ⟨⟩; exact hname)

theorem regular_unknown {name : String} (hname : good name) :
    Regular good .term (unknown name) :=
  regular_leaf (s := .unknown name) rfl rfl (by rintro _ ⟨⟩; exact hname)

theorem regular_constant (value : Int64) : Regular good .term (constant value) :=
  regular_leaf (s := .constant value) rfl rfl (by rintro _ ⟨⟩)

theorem regular_negated (h : Regular good .formula e) (n : Nat) : Regular good .formula (negated n e) := by
  induction n with
  | zero => exact h
  | succ n ih =>
      have hoperands : ∀ x ∈ [negated n e], Regular good .formula x :=
        List.forall_mem_singleton.mpr ih
      exact regular_operator (s := .not) rfl rfl rfl hoperands

/-- Two or more operands below the symbol of a chain. -/
theorem regular_chain (hs : s = .and ∨ s = .or ∨ s = .sum ∨ s = .product) {d e : Expression}
    (hes : ∀ x ∈ d :: e :: es, Regular good s.category x) :
    Regular good s.category (node s (d :: e :: es)) := by
  rcases hs with rfl | rfl | rfl | rfl <;>
    exact regular_operator (by simp [Symbol.arity, Arity.accepts]) rfl rfl hes

/-- Two operands below the symbol of a chain that is nested to the right. -/
theorem regular_nested (hs : s = .implies ∨ s = .equivalent) {d e : Expression}
    (hd : Regular good .formula d) (he : Regular good .formula e) : Regular good .formula (node s [d, e]) := by
  have hes : ∀ x ∈ [d, e], Regular good .formula x := by simp [hd, he]
  rcases hs with rfl | rfl
  · exact regular_operator (s := .implies) rfl rfl rfl hes
  · exact regular_operator (s := .equivalent) rfl rfl rfl hes

theorem regular_compare {l r : Expression} (hl : Regular good .term l) (hr : Regular good .term r)
    (sign : Comparison) : Regular good .formula (node (.compare sign) [l, r]) :=
  regular_operator (s := .compare sign) rfl rfl rfl (by simp [hl, hr])

end Expression

namespace Reading

open Expression

variable {good : String → Prop} {c : Category} {s : Symbol} {ts : List Token} {items : List Item} {r : Reading}

/-- The integer that a numeral stands for. -/
def numeralValue (text : String) : Int :=
  match text.toList with
  | '-' :: digits => -(Nat.ofDigitChars 10 digits 0 : Int)
  | digits => Nat.ofDigitChars 10 digits 0

/-- An integer fits into 64 bits. -/
def InRange (i : Int) : Prop := Int64.minValue.toInt ≤ i ∧ i ≤ Int64.maxValue.toInt

/-- What tokens can be read as: an expression of a category, or a numeral that is out of range and
stands among the tokens. -/
def Fits (good : String → Prop) (c : Category) (ts : List Token) : Reading → Prop
  | .ok e => Regular good c e
  | .error text => .numeral text ∈ ts ∧ ¬ InRange (numeralValue text)

/-- An item comes from certain tokens. -/
def Stems (good : String → Prop) (ts : List Token) : Item → Prop
  | .token t => t ∈ ts
  | .group asFormula asTerm =>
    (∀ r ∈ asFormula, Fits good .formula ts r) ∧ ∀ r ∈ asTerm, Fits good .term ts r

/-- A level reads the items from certain tokens as what can be read of these. -/
def ReadsFitting (good : String → Prop) (c : Category) (ts : List Token) (level : List Item → Option Reading) : Prop :=
  ∀ items r, (∀ i ∈ items, Stems good ts i) → level items = some r → Fits good c ts r

theorem exists_of_mem_mapM {level : List Item → Option Reading} {parts : List (List Item)}
    {rs : List Reading} (h : parts.mapM level = some rs) (hr : r ∈ rs) :
    ∃ part ∈ parts, level part = some r := by
  induction parts generalizing rs with
  | nil =>
      obtain rfl := Option.some.inj h
      contradiction
  | cons part parts ih =>
      rw [List.mapM_cons] at h
      obtain ⟨first, hfirst, h⟩ := Option.bind_eq_some_iff.mp h
      obtain ⟨rest, hrest, h⟩ := Option.bind_eq_some_iff.mp h
      obtain rfl := Option.some.inj h
      rcases List.mem_cons.mp hr with rfl | hr
      · exact ⟨part, List.mem_cons_self, hfirst⟩
      · obtain ⟨other, hother, hread⟩ := ih hrest hr
        exact ⟨other, List.mem_cons_of_mem _ hother, hread⟩

theorem length_of_mapM {level : List Item → Option Reading} {parts : List (List Item)}
    {rs : List Reading} (h : parts.mapM level = some rs) : rs.length = parts.length := by
  induction parts generalizing rs with
  | nil =>
      obtain rfl := Option.some.inj h
      rfl
  | cons part parts ih =>
      rw [List.mapM_cons] at h
      obtain ⟨first, -, h⟩ := Option.bind_eq_some_iff.mp h
      obtain ⟨rest, hrest, h⟩ := Option.bind_eq_some_iff.mp h
      obtain rfl := Option.some.inj h
      rw [List.length_cons, List.length_cons, ih hrest]

/-- A chain is read as what can be read if its parts are, and if what its operator makes of them
is. -/
theorem readsFitting_chain {sep : Token} {inner : List Item → Option Reading}
    {join : List Reading → Option Reading} (hinner : ReadsFitting good c ts inner)
    (hjoin : ∀ rs r, rs ≠ [] → (∀ r ∈ rs, Fits good c ts r) → join rs = some r → Fits good c ts r) :
    ReadsFitting good c ts (chain sep inner join) := by
  intro items r hitems h
  obtain ⟨rs, hrs, hjoined⟩ := Option.bind_eq_some_iff.mp h
  refine hjoin rs r ?_ ?_ hjoined
  · have hlength := length_of_mapM hrs
    rw [Ne, ← List.length_eq_zero_iff, hlength, List.length_eq_zero_iff]
    exact List.splitOnP_ne_nil _ _
  · intro part hpart
    obtain ⟨is, his, hread⟩ := exists_of_mem_mapM hrs hpart
    exact hinner is part (fun i hi => hitems i (mem_of_mem_splitOnP his i hi)) hread

/-! ### What operators make of their operands -/

theorem mapM_id_cases (rs : List Reading) :
    (∃ es : List Expression, rs = es.map .ok ∧ rs.mapM id = .ok es) ∨
      ∃ text, .error text ∈ rs ∧ rs.mapM id = .error text := by
  induction rs with
  | nil => exact Or.inl ⟨[], rfl, rfl⟩
  | cons r rs ih =>
      cases r with
      | error text => exact Or.inr ⟨text, List.mem_cons_self, rfl⟩
      | ok e =>
          rcases ih with ⟨es, rfl, hread⟩ | ⟨text, hmem, hread⟩
          · exact Or.inl ⟨e :: es, rfl, by rw [List.mapM_cons, hread]; rfl⟩
          · refine Or.inr ⟨text, List.mem_cons_of_mem _ hmem, ?_⟩
            rw [List.mapM_cons, hread]
            rfl

theorem fits_junction (hs : s = .and ∨ s = .or ∨ s = .sum ∨ s = .product)
    (hc : s.category = c) {rs : List Reading} (hne : rs ≠ []) (hrs : ∀ r ∈ rs, Fits good c ts r) :
    Fits good c ts (junction s rs) := by
  match rs with
  | [] => contradiction
  | [r] => exact hrs r List.mem_cons_self
  | r :: q :: rs =>
      rcases mapM_id_cases (r :: q :: rs) with ⟨es, hes, hread⟩ | ⟨text, hmem, hread⟩
      · have hnode : junction s (r :: q :: rs) = .ok (node s es) := by
          change ((r :: q :: rs).mapM id >>= _) = _
          rw [hread]
          rfl
        rw [hnode]
        obtain ⟨d, e, es, rfl⟩ : ∃ d e fs, es = d :: e :: fs := by
          match es, hes with
          | d :: e :: fs, _ => exact ⟨d, e, fs, rfl⟩
        rw [hes] at hrs
        subst hc
        exact regular_chain hs fun x hx => hrs (.ok x) (List.mem_map_of_mem hx)
      · have herror : junction s (r :: q :: rs) = .error text := by
          change ((r :: q :: rs).mapM id >>= _) = _
          rw [hread]
          rfl
        rw [herror]
        exact hrs _ hmem

/-- Two formulas that can be read can be read with an operator between them. -/
theorem fits_pair (hs : s = .implies ∨ s = .equivalent) {right part : Reading}
    (hright : Fits good .formula ts right) (hpart : Fits good .formula ts part) :
    Fits good .formula ts (do let r ← right; let l ← part; return node s [l, r]) := by
  cases right with
  | error text => exact hright
  | ok r =>
      cases part with
      | error text => exact hpart
      | ok l => exact regular_nested hs hpart hright

theorem fits_nested (hs : s = .implies ∨ s = .equivalent) {rs : List Reading}
    (hrs : ∀ r ∈ rs, Fits good .formula ts r) (h : nested s rs = some r) : Fits good .formula ts r := by
  have run : ∀ (before : List Reading) last, Fits good .formula ts last →
      (∀ r ∈ before, Fits good .formula ts r) →
      Fits good .formula ts (before.foldl (fun right part => do
        let r ← right
        let l ← part
        return node s [l, r]) last) := by
    intro before
    induction before with
    | nil => exact fun last hlast _ => hlast
    | cons part before ih =>
        intro last hlast hbefore
        obtain ⟨hpart, hbefore⟩ := List.forall_mem_cons.mp hbefore
        exact ih _ (fits_pair hs hlast hpart) hbefore
  have hreversed : ∀ r ∈ rs.reverse, Fits good .formula ts r := fun r hr =>
    hrs r (List.mem_reverse.mp hr)
  unfold nested at h
  split at h
  · contradiction
  · next last before hparts =>
      rw [hparts] at hreversed
      obtain ⟨hlast, hbefore⟩ := List.forall_mem_cons.mp hreversed
      exact Option.some.inj h ▸ run before last hlast hbefore

/-- What the operator of a strength makes of what can be read can be read. -/
theorem fits_combine {n : Nat} (hn : Operates c n) {rs : List Reading} (hne : rs ≠ [])
    (hrs : ∀ r ∈ rs, Fits good c ts r) (h : combine n rs = some r) : Fits good c ts r := by
  cases c with
  | formula =>
      match n, hn with
      | 1, _ => exact fits_nested (.inr rfl) hrs h
      | 2, _ => exact fits_nested (.inl rfl) hrs h
      | 3, _ => exact Option.some.inj h ▸ fits_junction (by simp) rfl hne hrs
      | 4, _ => exact Option.some.inj h ▸ fits_junction (by simp) rfl hne hrs
  | term =>
      match n, hn with
      | 5, _ => exact Option.some.inj h ▸ fits_junction (by simp) rfl hne hrs
      | 6, _ => exact Option.some.inj h ▸ fits_junction (by simp) rfl hne hrs

/-- All levels read what can be read if the strongest one does. -/
theorem readsFitting_readBelow {n k : Nat} (h : ReadsFitting good c ts (readBelow c n)) (hle : k ≤ n) :
    ReadsFitting good c ts (readBelow c k) := by
  induction n with
  | zero => rwa [Nat.le_zero.mp hle]
  | succ n ih =>
      rcases Nat.le_succ_iff.mp hle with hle | rfl
      · refine ih ?_ hle
        by_cases hoperates : Operates c (n + 1)
        · rw [readBelow_of_operates hoperates]
          exact readsFitting_chain h fun rs r => fits_combine hoperates
        · rwa [readBelow_of_not_operates hoperates]
      · exact h

/-! ### Terms and atoms -/

/-- A numeral stands for the constant of its value, unless that is out of range. -/
theorem numeral_cases (text : String) :
    InRange (numeralValue text) ∧
        numeral text = .ok (constant (Int64.ofInt (numeralValue text))) ∨
      ¬ InRange (numeralValue text) ∧ numeral text = .error text := by
  by_cases h : InRange (numeralValue text)
  · exact Or.inl ⟨h, if_pos h⟩
  · exact Or.inr ⟨h, if_neg h⟩

theorem fits_numeral {text : String} (hmem : .numeral text ∈ ts) :
    Fits good .term ts (numeral text) := by
  rcases numeral_cases text with ⟨-, h⟩ | ⟨hrange, h⟩
  · rw [h]
    exact regular_constant _
  · rw [h]
    exact ⟨hmem, hrange⟩

theorem fits_map_negated (hr : Fits good .formula ts r) (n : Nat) :
    Fits good .formula ts (r.map (negated n)) := by
  cases r with
  | error text => exact hr
  | ok e => exact regular_negated hr n

variable (hgood : ∀ name, .name name ∈ ts → good name)

include hgood

theorem readsFitting_factor : ReadsFitting good .term ts factor := by
  intro items r hitems h
  unfold factor at h
  split at h
  · next text =>
      obtain rfl := Option.some.inj h
      exact fits_numeral (hitems _ List.mem_cons_self)
  · next name =>
      obtain rfl := Option.some.inj h
      exact regular_unknown (hgood name (hitems _ List.mem_cons_self))
  · exact (hitems _ List.mem_cons_self).2 r h
  · contradiction

theorem readsFitting_term : ReadsFitting good .term ts term :=
  readsFitting_readBelow (n := 6) (k := 0) (readsFitting_factor hgood) (by decide)

theorem readsFitting_comparison : ReadsFitting good .formula ts comparison := by
  intro items r hitems h
  unfold comparison at h
  split at h
  · contradiction
  · next sign after hafter =>
      obtain ⟨c, -, h⟩ := Option.bind_eq_some_iff.mp h
      obtain ⟨left, hleft, h⟩ := Option.bind_eq_some_iff.mp h
      obtain ⟨right, hright, h⟩ := Option.bind_eq_some_iff.mp h
      obtain rfl := Option.some.inj h
      have hl := readsFitting_term hgood _ left
        (fun i hi => hitems i (List.takeWhile_subset _ hi)) hleft
      have hr := readsFitting_term hgood after right
        (fun i hi => hitems i (List.dropWhile_subset _ (hafter ▸ List.mem_cons_of_mem _ hi))) hright
      cases left with
      | error text => exact hl
      | ok l =>
          cases right with
          | error text => exact hr
          | ok e => exact regular_compare hl hr c

theorem readsFitting_atom (n : Nat) : ReadsFitting good .formula ts (atom n) := by
  intro items r hitems h
  unfold atom at h
  split at h
  · exact Option.some.inj h ▸ regular_negated (regular_truth true) n
  · exact Option.some.inj h ▸ regular_negated (regular_truth false) n
  · next name =>
      have hname := hgood name (hitems _ List.mem_cons_self)
      exact Option.some.inj h ▸ regular_negated (regular_literal hname _) _
  · obtain ⟨inside, hinside, rfl⟩ := Option.map_eq_some_iff.mp h
    exact fits_map_negated ((hitems _ List.mem_cons_self).1 inside hinside) n
  · obtain ⟨inside, hinside, rfl⟩ := Option.map_eq_some_iff.mp h
    exact fits_map_negated (readsFitting_comparison hgood _ inside hitems hinside) n

/-- All levels read what can be read. -/
theorem readsFitting_below (c : Category) (s : Nat) : ReadsFitting good c ts (readBelow c s) := by
  refine readsFitting_readBelow (n := s + 6) ?_ (Nat.le_add_right s 6)
  cases c with
  | formula =>
      intro items r hitems h
      exact readsFitting_atom hgood _ _ r (fun i hi => hitems i (List.dropWhile_subset _ hi)) h
  | term => exact readsFitting_factor hgood

theorem readsFitting_formula : ReadsFitting good .formula ts formula :=
  readsFitting_below hgood .formula 0

/-- What some tokens are read as, behind items that stem from the tokens as well. -/
theorem fits_readFrom {rest : List Token} {around : List (List Item)} (hrest : rest ⊆ ts)
    (hitems : ∀ i ∈ items, Stems good ts i) (haround : ∀ is ∈ around, ∀ i ∈ is, Stems good ts i)
    (h : readFrom rest items around = some r) : Fits good .formula ts r := by
  have reversed : ∀ {is : List Item}, (∀ i ∈ is, Stems good ts i) → ∀ i ∈ is.reverse, Stems good ts i :=
    fun his i hi => his i (List.mem_reverse.mp hi)
  fun_induction readFrom rest items around with
  | case1 items => exact readsFitting_formula hgood _ r (reversed hitems) h
  | case2 | case4 => contradiction
  | case3 rest items around ih =>
      refine ih (List.subset_of_cons_subset hrest) (by simp) ?_ h
      exact List.forall_mem_cons.mpr ⟨hitems, haround⟩
  | case5 rest items outer around ih =>
      obtain ⟨houter, haround⟩ := List.forall_mem_cons.mp haround
      refine ih (List.subset_of_cons_subset hrest) (List.forall_mem_cons.mpr ⟨?_, houter⟩) haround h
      exact ⟨fun r => readsFitting_formula hgood _ r (reversed hitems),
        fun r => readsFitting_term hgood _ r (reversed hitems)⟩
  | case6 t rest items around hopening hlast hclosing ih =>
      refine ih (List.subset_of_cons_subset hrest) (List.forall_mem_cons.mpr ⟨?_, hitems⟩) haround h
      exact hrest List.mem_cons_self

theorem fits_ofTokens (h : ofTokens ts = some r) : Fits good .formula ts r :=
  fits_readFrom hgood (List.Subset.refl ts) (by simp) (by simp) h

end Reading

namespace Expression

open Reading

variable {e : Expression}

/-- A name that can stand in a text. -/
def NameIn (source : List Char) (name : String) : Prop :=
  name.toList <:+: source ∧ '\x22' ∉ name.toList

/-- What can come of reading a text: nothing, a numeral that is out of range, or a formula. -/
theorem ofText_cases (text : String) :
    ofText text = .error .malformed ∨
      (∃ ts d, Token.scan text.toList = some ts ∧ .numeral d ∈ ts ∧ ¬ InRange (numeralValue d) ∧
        ofText text = .error (.outOfRange d)) ∨
      ∃ e, Regular (NameIn text.toList) .formula e ∧ ofText text = .ok e := by
  unfold ofText
  cases hscan : Token.scan text.toList with
  | none => exact Or.inl rfl
  | some ts =>
      have hgood : ∀ name, .name name ∈ ts → NameIn text.toList name := fun name hname =>
        Token.lexical_of_scan hscan _ hname
      cases ts with
      | nil => exact Or.inr (Or.inr ⟨_, regular_truth true, rfl⟩)
      | cons t ts =>
          dsimp only
          cases htokens : ofTokens (t :: ts) with
          | none => exact Or.inl rfl
          | some r =>
              have hfits := fits_ofTokens hgood htokens
              cases r with
              | error d => exact Or.inr (Or.inl ⟨_, d, rfl, hfits.1, hfits.2, rfl⟩)
              | ok e => exact Or.inr (Or.inr ⟨e, hfits, rfl⟩)

theorem regular_of_ofText {text : String} (h : ofText text = .ok e) :
    Regular (NameIn text.toList) .formula e := by
  rcases ofText_cases text with hread | ⟨_, _, -, -, -, hread⟩ | ⟨f, hf, hread⟩
  · rw [hread] at h
    contradiction
  · rw [hread] at h
    contradiction
  · rw [hread] at h
    exact Except.ok.inj h ▸ hf

variable {good : String → Prop}

theorem Regular.isFormula (h : Regular good .formula e) : e.isFormula = true := by
  rw [Expression.isFormula, h.category_eq]
  rfl

/-- A formula that can be read is read again from its text. -/
theorem Regular.ofText_text_eq (h : Regular good .formula e)
    (hgood : ∀ name, good name → '\x22' ∉ name.toList) : ofText e.text = .ok e := by
  have hquote : e.QuoteFree := fun x hx => hgood x.name (h.names x hx)
  rw [ofText_eq_collapse h.wellFormed h.isFormula hquote, collapse_eq_self h.nondegenerate]

end Expression

end ClauseForm
