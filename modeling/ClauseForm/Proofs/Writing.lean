import ClauseForm.FormulaText.Reading
import ClauseForm.Proofs.Scanning

/-!
Texts and the items that they are read as.

`Writes text items` says that the tokens of a text become certain items of the group that is open.
Parentheses around a text make it a single item, which is read when it closes.
-/

namespace ClauseForm

namespace Reading

variable {ts us : List Token} {items others : List Item} {t : Token}

/-- Tokens become certain items of the innermost open group. -/
def Collects (ts : List Token) (items : List Item) : Prop :=
  ∀ rest before around,
    readFrom (ts ++ rest) before around = readFrom rest (items.reverse ++ before) around

theorem Collects.token (hopening : t ≠ .opening) (hclosing : t ≠ .closing) :
    Collects [t] [.token t] := by
  intro rest before around
  cases t <;> first | contradiction | rfl

theorem Collects.append (hts : Collects ts items) (hus : Collects us others) :
    Collects (ts ++ us) (items ++ others) := by
  intro rest before around
  rw [List.append_assoc, hts, hus, List.reverse_append, List.append_assoc]

theorem Collects.group (hts : Collects ts items) :
    Collects (.opening :: ts ++ [.closing]) [.group (formula items) (term items)] := by
  intro rest before around
  rw [List.append_assoc, List.cons_append, readFrom, hts, List.append_nil, List.singleton_append,
    readFrom, List.reverse_reverse]
  rfl

/-- The tokens of a text become certain items. -/
def Writes (text : String) (items : List Item) : Prop :=
  ∃ ts, Token.Scans text.toList ts ∧ Collects ts items

namespace Writes

variable {text left right op : String}

theorem token (hopening : t ≠ .opening) (hclosing : t ≠ .closing)
    (h : Token.Scans text.toList [t]) : Writes text [.token t] :=
  ⟨[t], h, .token hopening hclosing⟩

theorem group (h : Writes text items) :
    Writes ("(" ++ text ++ ")") [.group (formula items) (term items)] := by
  obtain ⟨ts, hscans, hcollects⟩ := h
  refine ⟨_, ?_, hcollects.group⟩
  rw [String.toList_append, String.toList_append]
  exact hscans.group

theorem negation (h : Writes text items) : Writes ("~" ++ text) (.token .negation :: items) := by
  obtain ⟨ts, hscans, hcollects⟩ := h
  refine ⟨.negation :: ts, ?_, ?_⟩
  · rw [String.toList_append]
    exact hscans.negation
  · exact (Collects.token (by simp) (by simp)).append hcollects

theorem operate (hop : Token.Separates op.toList t) (hopening : t ≠ .opening)
    (hclosing : t ≠ .closing) (hleft : Writes left items) (hright : Writes right others) :
    Writes (left ++ op ++ right) (items ++ .token t :: others) := by
  obtain ⟨ts, hts, hitems⟩ := hleft
  obtain ⟨us, hus, hothers⟩ := hright
  refine ⟨ts ++ t :: us, ?_, ?_⟩
  · rw [String.toList_append, String.toList_append]
    exact hts.operate hop hus
  · exact hitems.append ((Collects.token hopening hclosing).append hothers)

/-- A text that is read as a formula stands for it. -/
theorem ofText_eq (h : Writes text items) {e : Expression}
    (hread : formula items = some (.ok e)) : Expression.ofText text = .ok e := by
  obtain ⟨ts, hscans, hcollects⟩ := h
  have htokens : ofTokens ts = some (.ok e) := by
    have := hcollects [] [] []
    rw [List.append_nil, List.append_nil] at this
    rw [ofTokens, this, readFrom, List.reverse_reverse, hread]
  unfold Expression.ofText
  rw [hscans.scan_eq]
  cases ts with
  | nil => contradiction
  | cons t ts => simp [htokens]

end Writes

end Reading

end ClauseForm
