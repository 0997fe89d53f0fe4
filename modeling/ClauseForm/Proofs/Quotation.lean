import ClauseForm.Proofs.Decimal
import ClauseForm.Proofs.RoundTrip
import ClauseForm.Text.Blank

/-!
Where the names stand in a written text.

The text of an expression consists of its names, in quotes or not, and of characters that stand for
themselves.  No line feed and no carriage return is among the latter, so both occur only between two
quotation marks: whatever comes before one of them has an odd number of quotation marks, and is no
text that could be cut into tokens.
-/

namespace ClauseForm

/-- Decides whether a character can stand outside of quotation marks in a written text. -/
def isBare (c : Char) : Bool := c != '\x22' && c != '\n' && c != '\r'

/-- A text that consists of some names and of characters between them. -/
inductive Spelled : List Char → List String → Prop where
  | nil : Spelled [] []
  | char {c : Char} : isBare c = true → Spelled [c] []
  | name {name : String} : '\x22' ∉ name.toList → Spelled (Phrase.nameText name).toList [name]
  | append {cs ds : List Char} {ns ms : List String} :
      Spelled cs ns → Spelled ds ms → Spelled (cs ++ ds) (ns ++ ms)

variable {cs ds before after : List Char} {ns ms : List String} {c k : Char} {name : String}

theorem isBare_of_isNamePart (hc : Token.isNamePart c = true) : isBare c = true := by
  by_contra hnot
  have hmarks : c = '\x22' ∨ c = '\n' ∨ c = '\r' := by
    simp only [isBare, Bool.and_eq_true, bne_iff_ne, not_and_or, not_not] at hnot
    rcases hnot with (h | h) | h
    · exact Or.inl h
    · exact Or.inr (Or.inl h)
    · exact Or.inr (Or.inr h)
  rcases hmarks with rfl | rfl | rfl <;> revert hc <;> decide

theorem isNamePart_of_isNameStart (hc : Token.isNameStart c = true) :
    Token.isNamePart c = true := by
  simp only [Token.isNameStart, Token.isNamePart, Char.isAlphanum, Bool.or_eq_true] at hc ⊢
  tauto

theorem isBlank_of_isNameStart (hc : Token.isNameStart c = true) : Text.isBlank c = false := by
  have ascii : ∀ n < 128, Token.isNameStart (Char.ofNat n) = true →
      Text.isBlank (Char.ofNat n) = false := by decide +kernel
  have hbelow : ∀ last : Char, last.toNat < 128 → c.val ≤ last.val → c.toNat < 128 :=
    fun _ hlast hle => Nat.lt_of_le_of_lt (UInt32.le_iff_toNat_le.mp hle) hlast
  have hlow : c.toNat < 128 := by
    rcases Bool.or_eq_true_iff.mp hc with hc | hc
    · rcases Bool.or_eq_true_iff.mp hc with hc | hc
      · rcases Bool.or_eq_true_iff.mp hc with hc | hc
        · exact hbelow 'Z' (by decide) (of_decide_eq_true hc).2
        · exact hbelow 'z' (by decide) (of_decide_eq_true (Bool.and_eq_true_iff.mp hc).2)
      · rw [beq_iff_eq.mp hc]
        decide
    · rw [beq_iff_eq.mp hc]
      decide
  have hblank := ascii c.toNat hlow
  rw [Char.ofNat_toNat] at hblank
  exact hblank hc

/-- A name is written as it is, and then all of its characters can do without quotes, or in
quotes. -/
theorem nameText_cases (name : String) :
    (∀ c ∈ name.toList, isBare c = true) ∧ (Phrase.nameText name).toList = name.toList ∨
      (Phrase.nameText name).toList = '\x22' :: (name.toList ++ ['\x22']) := by
  unfold Phrase.nameText
  by_cases hplain : Token.isPlainName name.toList = true
  · rw [if_pos hplain]
    refine Or.inl ⟨fun c hc => ?_, rfl⟩
    cases hname : name.toList with
    | nil => simp [hname] at hc
    | cons d ds =>
        rw [hname] at hplain hc
        obtain ⟨hfirst, hrest⟩ := Bool.and_eq_true_iff.mp hplain
        rcases List.mem_cons.mp hc with rfl | hc
        · exact isBare_of_isNamePart (isNamePart_of_isNameStart hfirst)
        · exact isBare_of_isNamePart (List.all_eq_true.mp hrest c hc)
  · rw [if_neg hplain, String.toList_append, String.toList_append]
    exact Or.inr rfl

namespace Spelled

theorem of_isBare (hcs : cs.all isBare = true) : Spelled cs [] := by
  induction cs with
  | nil => exact nil
  | cons c cs ih =>
      obtain ⟨hc, hrest⟩ := Bool.and_eq_true_iff.mp hcs
      exact (char hc).append (ih hrest)

/-- A line feed in the text comes from a name. -/
theorem lineFeed_mem_iff (h : Spelled cs ns) :
    '\n' ∈ cs ↔ ∃ name ∈ ns, '\n' ∈ name.toList := by
  induction h with
  | nil => simp
  | @char c hc =>
      have hother : '\n' ≠ c := by
        rintro rfl
        revert hc
        decide
      simp [hother]
  | @name name hname =>
      rcases nameText_cases name with ⟨-, htext⟩ | htext <;> simp [htext]
  | append hcs hds ihcs ihds => simp [ihcs, ihds, or_and_right, exists_or]

/-- The quotation marks come in pairs. -/
theorem even_quotes (h : Spelled cs ns) : cs.count '\x22' % 2 = 0 := by
  induction h with
  | nil => rfl
  | @char c hc =>
      have hother : '\x22' ≠ c := by
        rintro rfl
        revert hc
        decide
      rw [List.count_eq_zero.mpr (by simpa using hother)]
  | @name name hname =>
      have hnone := List.count_eq_zero.mpr hname
      rcases nameText_cases name with ⟨-, htext⟩ | htext
      · rw [htext, hnone]
      · rw [htext, List.count_cons_self, List.count_append, hnone]
        rfl
  | append hcs hds ihcs ihds =>
      rw [List.count_append]
      omega

/-- A line feed or carriage return stands behind an odd number of quotation marks. -/
theorem odd_quotes (h : Spelled cs ns) (hk : k = '\n' ∨ k = '\r')
    (hcs : cs = before ++ k :: after) : before.count '\x22' % 2 = 1 := by
  have hbare : isBare k = false := by rcases hk with rfl | rfl <;> rfl
  have hquote : k ≠ '\x22' := by rcases hk with rfl | rfl <;> decide
  induction h generalizing before after with
  | nil => simp at hcs
  | @char c hc =>
      have hmem : k ∈ [c] := by simp [hcs]
      rw [List.mem_singleton.mp hmem, hc] at hbare
      contradiction
  | @name name hname =>
      rcases nameText_cases name with ⟨hplain, htext⟩ | htext
      · rw [htext] at hcs
        rw [hplain k (by simp [hcs])] at hbare
        contradiction
      · rw [htext] at hcs
        cases before with
        | nil => exact absurd (List.cons.inj hcs).1.symm hquote
        | cons first inside =>
            obtain ⟨rfl, hrest⟩ := List.cons.inj hcs
            have hinside : inside.count '\x22' = 0 := by
              rcases List.append_eq_append_iff.mp hrest with ⟨more, hmore, hlast⟩ | ⟨more, hmore, -⟩
              · cases more with
                | nil => exact absurd (List.cons.inj hlast).1.symm hquote
                | cons d more => simp at hlast
              · refine List.count_eq_zero.mpr fun hmem => hname ?_
                rw [hmore]
                exact List.mem_append_left more hmem
            rw [List.count_cons_self, hinside]
  | @append cs ds ns ms hfirst hsecond ihfirst ihsecond =>
      rcases List.append_eq_append_iff.mp hcs with ⟨more, rfl, hds⟩ | ⟨more, rfl, hafter⟩
      · have hodd := ihsecond hds
        have heven := hfirst.even_quotes
        rw [List.count_append]
        omega
      · cases more with
        | nil =>
            have hodd : ([] : List Char).count '\x22' % 2 = 1 := ihsecond hafter.symm
            contradiction
        | cons d more =>
            obtain ⟨rfl, -⟩ := List.cons.inj hafter
            exact ihfirst rfl

/-- The text does not end with a carriage return. -/
theorem getLast?_ne_return (h : Spelled cs ns) : cs.getLast? ≠ some '\r' := by
  intro hlast
  obtain ⟨before, rfl⟩ := List.getLast?_eq_some_iff.mp hlast
  have hodd := h.odd_quotes (Or.inr rfl) rfl
  have heven := h.even_quotes
  rw [List.count_append] at heven
  simp at heven
  omega

end Spelled

namespace Token

theorem count_dropWhile {p : Char → Bool} (hp : p '\x22' = false) (cs : List Char) :
    (cs.dropWhile p).count '\x22' = cs.count '\x22' := by
  have hnone : (cs.takeWhile p).count '\x22' = 0 := by
    refine List.count_eq_zero.mpr fun hmem => ?_
    rw [List.mem_takeWhile_imp hmem] at hp
    contradiction
  rw [← List.takeWhile_append_dropWhile (p := p) (l := cs), List.count_append, hnone,
    List.takeWhile_append_dropWhile, Nat.zero_add]

/-- A token has no quotation mark or two of them. -/
theorem count_of_first? {rest : List Char} {t : Token} (h : first? cs = some (t, rest)) :
    cs.count '\x22' % 2 = rest.count '\x22' % 2 := by
  unfold first? at h
  split at h
  case h_18 rest =>
    split at h
    · contradiction
    · next last after hafter =>
        obtain ⟨-, rfl⟩ := Prod.mk.inj (Option.some.inj h)
        have hcount := count_dropWhile (p := (· != '\x22')) rfl rest
        have hlast := List.head?_dropWhile_not (· != '\x22') rest
        rw [hafter] at hcount hlast
        have hquote : last = '\x22' := by simpa using hlast
        rw [List.count_cons_self, ← hcount, hquote, List.count_cons_self]
        omega
  case h_19 rest =>
    split at h
    · contradiction
    · obtain ⟨-, rfl⟩ := Prod.mk.inj (Option.some.inj h)
      rw [count_dropWhile rfl, List.count_cons_of_ne (by decide)]
  case h_20 c rest _ _ _ _ _ _ _ _ _ _ _ _ _ _ _ _ _ _ _ =>
    have quoteless : ∀ p : Char → Bool, p c = true → p '\x22' = false →
        (c :: rest).count '\x22' = rest.count '\x22' := by
      refine fun p hc hquote => List.count_cons_of_ne ?_
      rintro rfl
      rw [hquote] at hc
      contradiction
    split at h
    · next hc =>
        obtain ⟨-, rfl⟩ := Prod.mk.inj (Option.some.inj h)
        rw [count_dropWhile rfl, quoteless _ hc rfl]
    · split at h
      · next hc =>
          obtain ⟨-, rfl⟩ := Prod.mk.inj (Option.some.inj h)
          rw [count_dropWhile rfl, quoteless _ hc rfl]
      · contradiction
  case h_21 => contradiction
  all_goals
    obtain ⟨-, rfl⟩ := Prod.mk.inj (Option.some.inj h)
    simp

/-- Only a text with an even number of quotation marks can be cut into tokens. -/
theorem even_of_scan {ts : List Token} (h : scan cs = some ts) : cs.count '\x22' % 2 = 0 := by
  induction cs using scan_induction generalizing ts with
  | nil => rfl
  | layout c cs hc ih =>
      have hquote : c ≠ '\x22' := by
        rintro rfl
        revert hc
        decide
      rw [scan_of_layout hc] at h
      rw [List.count_cons_of_ne hquote]
      exact ih h
  | stuck c cs hc hfirst =>
      rw [scan_of_none hc hfirst] at h
      contradiction
  | token cs t rest hfirst ih =>
      rw [scan_eq_of_first? hfirst] at h
      obtain ⟨us, hrest, -⟩ := Option.map_eq_some_iff.mp h
      exact (count_of_first? hfirst).trans (ih hrest)

end Token

/-! ### Texts of expressions -/

namespace Phrase

variable {p q : Phrase}

/-- A phrase is written with certain names, and not in white space alone. -/
structure Inscribed (p : Phrase) (ns : List String) : Prop where
  spelled : Spelled p.text.toList ns
  visible : ∃ c ∈ p.text.toList, Text.isBlank c = false

theorem inscribed_closed {text : String} (hspelled : Spelled text.toList ns)
    (hvisible : ∃ c ∈ text.toList, Text.isBlank c = false) : (closed text).Inscribed ns :=
  ⟨hspelled, hvisible⟩

/-- Characters around a phrase do not change its names. -/
theorem Inscribed.between (h : p.Inscribed ns) (left right : String) (strength : Nat)
    (hleft : left.toList.all isBare = true) (hright : right.toList.all isBare = true) :
    (⟨left ++ p.text ++ right, strength⟩ : Phrase).Inscribed ns := by
  have htext : (left ++ p.text ++ right).toList = left.toList ++ p.text.toList ++ right.toList := by
    rw [String.toList_append, String.toList_append]
  obtain ⟨c, hc, hvisible⟩ := h.visible
  constructor
  · rw [htext]
    have hspelled := ((Spelled.of_isBare hleft).append h.spelled).append (.of_isBare hright)
    rwa [List.nil_append, List.append_nil] at hspelled
  · refine ⟨c, ?_, hvisible⟩
    rw [htext]
    exact List.mem_append_left _ (List.mem_append_right _ hc)

theorem Inscribed.behind (h : p.Inscribed ns) {left : String} (strength : Nat)
    (hleft : left.toList.all isBare = true) :
    (⟨left ++ p.text, strength⟩ : Phrase).Inscribed ns := by
  have hbetween := h.between left "" strength hleft (by decide)
  rwa [String.append_empty] at hbetween

theorem Inscribed.join (hp : p.Inscribed ns) (hq : q.Inscribed ms) {op : String} (strength : Nat)
    (hop : op.toList.all isBare = true) :
    (⟨p.text ++ op ++ q.text, strength⟩ : Phrase).Inscribed (ns ++ ms) := by
  have htext : (p.text ++ op ++ q.text).toList = p.text.toList ++ op.toList ++ q.text.toList := by
    rw [String.toList_append, String.toList_append]
  obtain ⟨c, hc, hvisible⟩ := hp.visible
  constructor
  · rw [htext]
    have hspelled := (hp.spelled.append (.of_isBare hop)).append hq.spelled
    rwa [List.append_nil] at hspelled
  · refine ⟨c, ?_, hvisible⟩
    rw [htext]
    exact List.mem_append_left _ (List.mem_append_left _ hc)

theorem Inscribed.operand (h : p.Inscribed ns) (s k : Nat) :
    (⟨p.operandText s, k⟩ : Phrase).Inscribed ns := by
  unfold operandText
  split
  · exact h.between "(" ")" k (by decide) (by decide)
  · exact ⟨h.spelled, h.visible⟩

theorem inscribed_name (hname : '\x22' ∉ name.toList) : (closed (nameText name)).Inscribed [name] := by
  refine ⟨.name hname, ?_⟩
  change ∃ c ∈ (nameText name).toList, _
  unfold nameText
  split
  · next hplain =>
      cases htext : name.toList with
      | nil => simp [htext, Token.isPlainName] at hplain
      | cons c cs =>
          rw [htext] at hplain
          have hfirst := (Bool.and_eq_true_iff.mp hplain).1
          exact ⟨c, List.mem_cons_self, isBlank_of_isNameStart hfirst⟩
  · exact ⟨'\x22', by simp, by decide⟩

/-- Operands joined by an operator are written with the names of all of them. -/
theorem inscribed_joined {es : List Expression} {names : Expression → List String} {op : String}
    (hop : op.toList.all isBare = true) (hne : es ≠ [])
    (hes : ∀ e ∈ es, (e.fold Expression.phrase).Inscribed (names e)) (s : Nat) :
    (joined op s (es.map (Expression.fold Expression.phrase))).Inscribed (es.flatMap names) := by
  induction es with
  | nil => contradiction
  | cons e es ih =>
      obtain ⟨he, hrest⟩ := List.forall_mem_cons.mp hes
      cases es with
      | nil =>
          have := he.operand s s
          simpa [joined] using this
      | cons f fs =>
          have := (he.operand s s).join (ih (by simp) hrest) s hop
          simpa [joined] using this

end Phrase

namespace Expression

open Phrase

variable {e : Expression}

/-- The names at all occurrences of variables. -/
def occurringNames (e : Expression) : List String := e.occurrences.map Variable.name

theorem occurringNames_node (s : Symbol) (es : List Expression) :
    (node s es).occurringNames =
      s.occurrence?.toList.map Variable.name ++ es.flatMap occurringNames := by
  rw [occurringNames, occurrences_node, List.map_append, List.map_flatMap]
  rfl

theorem inscribed_of_term (he : TermTree e) (hquote : e.QuoteFree) :
    (e.fold phrase).Inscribed e.occurringNames := by
  induction he with
  | unknown name =>
      rw [fold_node, occurringNames_node]
      exact inscribed_name (hquote ⟨name, .integer⟩ (by simp [occurrences_node, Symbol.occurrence?]))
  | constant value =>
      have hbare : ∀ c ∈ (toString value.toInt).toList, (!isBare c) = false := fun c hc =>
        Text.eq_false_of_part (p := fun c => !isBare c) rfl (by decide) (Text.mem_toString hc)
      obtain ⟨c, cs, htext⟩ := List.exists_cons_of_ne_nil (Text.toString_ne_nil value.toInt)
      have hc : c ∈ (toString value.toInt).toList := by rw [htext]; exact List.mem_cons_self
      rw [fold_node, occurringNames_node]
      have hall := List.all_eq_true.mpr fun c hc => by simpa using hbare c hc
      refine inscribed_closed (.of_isBare hall) ⟨c, hc, ?_⟩
      exact Text.eq_false_of_part rfl (by decide) (Text.mem_toString hc)
  | @sum es hne hes ih =>
      rw [fold_node, occurringNames_node]
      exact inscribed_joined (by decide) hne (fun e he => ih e he (hquote.operand he)) 5
  | @product es hne hes ih =>
      rw [fold_node, occurringNames_node]
      exact inscribed_joined (by decide) hne (fun e he => ih e he (hquote.operand he)) 6

/-- The phrase of a conjunction or disjunction is written with the names of its operands. -/
theorem inscribed_junction {k : Symbol} {es : List Expression} (hk : k = .and ∨ k = .or)
    (hes : ∀ e ∈ es, (e.fold phrase).Inscribed e.occurringNames) :
    ((node k es).fold phrase).Inscribed (node k es).occurringNames := by
  rw [fold_node, occurringNames_node]
  match es with
  | [] =>
      rcases hk with rfl | rfl
      · exact inscribed_closed (.of_isBare (by decide)) ⟨'$', by simp, by decide⟩
      · exact inscribed_closed (.of_isBare (by decide)) ⟨'$', by simp, by decide⟩
  | [e] =>
      have he := hes e List.mem_cons_self
      rw [List.flatMap_singleton]
      rcases hk with rfl | rfl <;> exact he
  | d :: e :: es =>
      rcases hk with rfl | rfl
      · exact inscribed_joined (by decide) (List.cons_ne_nil _ _) hes 4
      · exact inscribed_joined (by decide) (List.cons_ne_nil _ _) hes 3

theorem inscribed_of_formula (he : FormulaTree e) (hquote : e.QuoteFree) :
    (e.fold phrase).Inscribed e.occurringNames := by
  induction he with
  | verum =>
      rw [fold_node, occurringNames_node]
      exact inscribed_closed (.of_isBare (by decide)) ⟨'$', by simp, by decide⟩
  | falsum =>
      rw [fold_node, occurringNames_node]
      exact inscribed_closed (.of_isBare (by decide)) ⟨'$', by simp, by decide⟩
  | literal name positive =>
      have hname : (closed (nameText name)).Inscribed [name] :=
        inscribed_name (hquote ⟨name, .truth⟩ (by simp [occurrences_node, Symbol.occurrence?]))
      rw [fold_node, occurringNames_node]
      cases positive with
      | true => exact hname
      | false => exact hname.behind 7 (by decide)
  | @compare sign l r hl hr =>
      have hleft := inscribed_of_term hl (hquote.operand (by simp))
      have hright := inscribed_of_term hr (hquote.operand (by simp))
      have hop : (" " ++ sign.sign ++ " ").toList.all isBare = true := by
        cases sign <;> decide
      have hjoined := hleft.join hright 7 hop
      rw [fold_node, occurringNames_node, List.flatMap_cons, List.flatMap_singleton]
      exact hjoined
  | @not e he ih =>
      have hinside := ih (hquote.operand (by simp))
      rw [fold_node, occurringNames_node, List.flatMap_singleton]
      change (closed (if e.symbol.isBareBelowNot = true then "~" ++ (e.fold phrase).text
        else "~(" ++ (e.fold phrase).text ++ ")")).Inscribed _
      split
      · exact hinside.behind 7 (by decide)
      · exact hinside.between "~(" ")" 7 (by decide) (by decide)
  | and hes ih => exact inscribed_junction (.inl rfl) fun e he => ih e he (hquote.operand he)
  | or hes ih => exact inscribed_junction (.inr rfl) fun e he => ih e he (hquote.operand he)
  | @implies l r hl hr ihl ihr =>
      rw [fold_node, occurringNames_node]
      refine inscribed_joined (by decide) (List.cons_ne_nil _ _) ?_ 2
      simpa using ⟨ihl (hquote.operand (by simp)), ihr (hquote.operand (by simp))⟩
  | @equivalent l r hl hr ihl ihr =>
      rw [fold_node, occurringNames_node]
      refine inscribed_joined (by decide) (List.cons_ne_nil _ _) ?_ 1
      simpa using ⟨ihl (hquote.operand (by simp)), ihr (hquote.operand (by simp))⟩

end Expression

end ClauseForm
