import ClauseForm.Proofs.GrammarTokens
import ClauseForm.Proofs.Grouping

/-!
Texts inside of larger texts.

No token reaches over a character that is neither part of a name nor the second one of a sign.  So a
text in front of such a character is cut into the tokens that it has on its own, and what can be
read as a formula can also be read as part of a larger one.
-/

namespace ClauseForm

namespace Token

variable {cs more rest : List Char} {t : Token} {ts : List Token} {s : String}

/-! ### Where tokens end -/

/-- Decides whether a token can go on with a character. -/
def continues (c : Char) : Bool := isNamePart c || c == '=' || c == '>'

/-- No token in front of a text reaches into it. -/
def Detached (rest : List Char) : Prop := ∀ c ∈ rest.head?, continues c = false

theorem Boundary.detached (h : Boundary rest) : Detached rest := by
  intro c hc
  rcases h c hc with rfl | rfl <;> rfl

theorem Detached.head?_ne {c : Char} (h : Detached rest) (hc : continues c = true) :
    rest.head? ≠ some c := by
  intro hhead
  have hfalse := h c hhead
  rw [hc] at hfalse
  contradiction

theorem Detached.isNamePart_eq (h : Detached rest) : ∀ c ∈ rest.head?, isNamePart c = false := by
  intro c hc
  have hfalse := h c hc
  simp only [continues, Bool.or_eq_false_iff] at hfalse
  exact hfalse.1.1

theorem Detached.isDigit_eq (h : Detached rest) : ∀ c ∈ rest.head?, c.isDigit = false := by
  intro c hc
  have hfalse := h.isNamePart_eq c hc
  simp only [isNamePart, Char.isAlphanum, Bool.or_eq_false_iff] at hfalse
  exact hfalse.1.1.1.2

theorem Detached.head?_append_ne {c : Char} (h : Detached rest) (hc : continues c = true)
    (hmore : more.head? ≠ some c) : (more ++ rest).head? ≠ some c := by
  cases more with
  | nil => exact h.head?_ne hc
  | cons d more => exact hmore

/-- A run of characters does not reach into a text that does not begin with one of them. -/
theorem takeWhile_append_of_head {p : Char → Bool} (cs : List Char)
    (hrest : ∀ c ∈ rest.head?, p c = false) :
    (cs ++ rest).takeWhile p = cs.takeWhile p ∧
      (cs ++ rest).dropWhile p = cs.dropWhile p ++ rest := by
  induction cs with
  | nil =>
      cases rest with
      | nil => simp
      | cons c rest => simp [hrest c rfl]
  | cons c cs ih => by_cases hc : p c = true <;> simp [hc, ih]

/-- A run that ends inside a text does not depend on what stands behind it. -/
theorem takeWhile_append_of_dropWhile {p : Char → Bool} (hcs : cs.dropWhile p ≠ [])
    (rest : List Char) :
    (cs ++ rest).takeWhile p = cs.takeWhile p ∧
      (cs ++ rest).dropWhile p = cs.dropWhile p ++ rest := by
  have hshort : (cs.takeWhile p).length ≠ cs.length := by
    have hall := congrArg List.length (List.takeWhile_append_dropWhile (p := p) (l := cs))
    rw [List.length_append] at hall
    have := List.length_pos_iff.mpr hcs
    omega
  rw [List.takeWhile_append, if_neg hshort, List.dropWhile_append, if_neg (by simpa using hcs)]
  exact ⟨rfl, rfl⟩

/-- The first token is the same in front of a text into which no token reaches. -/
theorem first?_append (h : first? cs = some (t, more)) (hrest : Detached rest) :
    first? (cs ++ rest) = some (t, more ++ rest) := by
  cases hspelled : t.spelling? with
  | some s =>
      rw [eq_append_of_first? hspelled h, List.append_assoc]
      exact first?_of_spelling? hspelled _
  | none =>
      cases t with
      | numeral text =>
          rw [first?_eq_numeral_iff] at h ⊢
          rcases h with ⟨rfl, hne, rfl⟩ | ⟨ds, rfl, rfl, hne, rfl⟩
          · obtain ⟨htake, hdrop⟩ := takeWhile_append_of_head cs hrest.isDigit_eq
            rw [htake, hdrop]
            exact Or.inl ⟨rfl, hne, rfl⟩
          · obtain ⟨htake, hdrop⟩ := takeWhile_append_of_head ds hrest.isDigit_eq
            exact Or.inr ⟨ds ++ rest, rfl, hdrop.symm, by rwa [htake], by rw [htake]⟩
      | name text =>
          rw [first?_eq_name_iff] at h ⊢
          rcases h with ⟨c, ds, rfl, hc, rfl, rfl⟩ | ⟨ds, rfl, hafter, rfl⟩
          · obtain ⟨htake, hdrop⟩ := takeWhile_append_of_head ds hrest.isNamePart_eq
            exact Or.inl ⟨c, ds ++ rest, rfl, hc, hdrop.symm, by rw [htake]⟩
          · have hclosed : ds.dropWhile (· != '\x22') ≠ [] := hafter ▸ List.cons_ne_nil _ _
            obtain ⟨htake, hdrop⟩ := takeWhile_append_of_dropWhile hclosed rest
            exact Or.inr ⟨ds ++ rest, rfl, by rw [hdrop, hafter, List.cons_append], by rw [htake]⟩
      | comparison c =>
          obtain ⟨rfl, hequal, hgreater⟩ := Grammar.first?_eq_comparison_iff.mp h
          refine Grammar.first?_eq_comparison_iff.mpr
            ⟨List.append_assoc .., fun hc => ?_, fun hc => ?_⟩
          · exact hrest.head?_append_ne rfl (hequal hc)
          · exact hrest.head?_append_ne rfl (hgreater hc)
      | _ => cases hspelled

/-- A spelling that has begun does not go on where no token reaches. -/
theorem eq_nil_of_detached {front behind : List Char} (h : s.toList.tail.all continues = true)
    (hs : s.toList = front ++ behind) (hfront : front ≠ []) (hbehind : Detached (behind ++ rest)) :
    behind = [] := by
  obtain ⟨c, front, rfl⟩ := List.exists_cons_of_ne_nil hfront
  cases behind with
  | nil => rfl
  | cons d behind =>
      have hd : continues d = true := by
        refine List.all_eq_true.mp h d ?_
        rw [hs]
        simp
      exact absurd rfl (hbehind.head?_ne hd)

theorem continues_of_spelling? (h : t.spelling? = some s) :
    s.toList.tail.all continues = true := by
  cases t with
  | comparison c => cases c <;> first | (cases h; rfl) | cases h
  | name | numeral => cases h
  | _ =>
      cases h
      rfl

theorem continues_of_sign (c : Comparison) : c.sign.toList.tail.all continues = true := by
  cases c <;> rfl

/-- A spelling at the front of a text ends before the place that no token reaches over. -/
theorem exists_of_append_eq (hcs : cs ≠ []) (hrest : Detached rest)
    (hs : s.toList.tail.all continues = true) (h : cs ++ rest = s.toList ++ more) :
    ∃ behind, cs = s.toList ++ behind ∧ more = behind ++ rest := by
  rcases List.append_eq_append_iff.mp h with ⟨behind, hfront, rfl⟩ | ⟨behind, rfl, rfl⟩
  · obtain rfl := eq_nil_of_detached hs hfront hcs hrest
    exact ⟨[], by simpa using hfront.symm, rfl⟩
  · exact ⟨behind, rfl, rfl⟩

/-- The first token of a text that goes on where no token reaches is one of the text before, unless
that begins with a quotation mark. -/
theorem exists_first?_of_append (hcs : cs ≠ []) (hquote : cs.head? ≠ some '\x22')
    (hrest : Detached rest) (h : first? (cs ++ rest) = some (t, more)) :
    ∃ behind, first? cs = some (t, behind) := by
  cases hspelled : t.spelling? with
  | some s =>
      obtain ⟨behind, rfl, -⟩ := exists_of_append_eq hcs hrest (continues_of_spelling? hspelled)
        (eq_append_of_first? hspelled h)
      exact ⟨behind, first?_of_spelling? hspelled behind⟩
  | none =>
      obtain ⟨c, cs, rfl⟩ := List.exists_cons_of_ne_nil hcs
      cases t with
      | numeral text =>
          simp only [first?_eq_numeral_iff] at h ⊢
          rcases h with ⟨-, hne, rfl⟩ | ⟨ds, heq, -, hne, rfl⟩
          · rw [(takeWhile_append_of_head _ hrest.isDigit_eq).1] at hne ⊢
            exact ⟨_, Or.inl ⟨rfl, hne, rfl⟩⟩
          · rw [List.cons_append] at heq
            obtain ⟨rfl, rfl⟩ := List.cons.inj heq
            rw [(takeWhile_append_of_head _ hrest.isDigit_eq).1] at hne ⊢
            exact ⟨_, Or.inr ⟨cs, rfl, rfl, hne, rfl⟩⟩
      | name text =>
          simp only [first?_eq_name_iff] at h ⊢
          rcases h with ⟨d, ds, heq, hd, -, rfl⟩ | ⟨ds, heq, -⟩
          · rw [List.cons_append] at heq
            obtain ⟨rfl, rfl⟩ := List.cons.inj heq
            rw [(takeWhile_append_of_head _ hrest.isNamePart_eq).1]
            exact ⟨_, Or.inl ⟨c, cs, rfl, hd, rfl, rfl⟩⟩
          · exact absurd (congrArg some (List.cons.inj heq).1) hquote
      | comparison sign =>
          obtain ⟨heq, hequal, hgreater⟩ := Grammar.first?_eq_comparison_iff.mp h
          obtain ⟨behind, hcs, rfl⟩ := exists_of_append_eq hcs hrest (continues_of_sign sign) heq
          have hhead : ∀ {d : Char}, (behind ++ rest).head? ≠ some d → behind.head? ≠ some d := by
            intro d hne
            cases behind with
            | nil => simp
            | cons e behind => exact hne
          exact ⟨behind, Grammar.first?_eq_comparison_iff.mpr
            ⟨hcs, fun hc => hhead (hequal hc), fun hc => hhead (hgreater hc)⟩⟩
      | _ => cases hspelled

/-! ### Tokens of texts inside of others -/

/-- In front of a text into which no token reaches, the tokens of a text are the same. -/
theorem scan_append (h : scan cs = some ts) (hrest : Detached rest) :
    scan (cs ++ rest) = (scan rest).map (ts ++ ·) := by
  induction cs using scan_induction generalizing ts with
  | nil =>
      obtain rfl := Option.some.inj (scan_nil.symm.trans h)
      simp
  | layout c cs hc ih =>
      rw [scan_of_layout hc] at h
      rw [List.cons_append, scan_of_layout hc, ih h]
  | stuck c cs hc hfirst =>
      rw [scan_of_none hc hfirst] at h
      contradiction
  | token cs t more hfirst ih =>
      rw [scan_eq_of_first? hfirst] at h
      obtain ⟨us, hmore, rfl⟩ := Option.map_eq_some_iff.mp h
      rw [scan_eq_of_first? (first?_append hfirst hrest), ih hmore, Option.map_map]
      rfl

/-- A text without quotation marks that is no sequence of tokens begins none either. -/
theorem scan_append_eq_none (h : scan cs = none) (hquote : '\x22' ∉ cs) (hrest : Detached rest) :
    scan (cs ++ rest) = none := by
  induction cs using scan_induction with
  | nil => simp [scan_nil] at h
  | layout c cs hc ih =>
      rw [scan_of_layout hc] at h
      rw [List.cons_append, scan_of_layout hc]
      exact ih h fun hmem => hquote (List.mem_cons_of_mem c hmem)
  | stuck c cs hc hfirst =>
      refine scan_of_none hc (Option.eq_none_iff_forall_ne_some.mpr ?_)
      rintro ⟨t, more⟩ hsome
      obtain ⟨behind, hbehind⟩ := exists_first?_of_append (List.cons_ne_nil c cs)
        (fun hhead => hquote (List.mem_of_mem_head? hhead)) hrest hsome
      rw [hfirst] at hbehind
      contradiction
  | token cs t more hfirst ih =>
      rw [scan_eq_of_first? hfirst, Option.map_eq_none_iff] at h
      have hmore : '\x22' ∉ more := fun hmem => hquote ((lexical_of_first? hfirst).2.mem hmem)
      rw [scan_eq_of_first? (first?_append hfirst hrest), ih h hmore, Option.map_none]

/-- A text that is cut into tokens is a word of these. -/
theorem scans_of_scan (h : scan cs = some ts) : Scans cs ts :=
  fun _ hrest => scan_append h hrest.detached

end Token

namespace Reading

open Token

/-- A text that is read as a formula, and is not only layout, can be read as a part of others. -/
theorem exists_writes_of_ofText {text : String} {e : Expression}
    (hvisible : ∃ c ∈ text.toList, isLayout c = false) (h : Expression.ofText text = .ok e) :
    ∃ items, Writes text items ∧ formula items = some (.ok e) := by
  unfold Expression.ofText at h
  split at h
  · contradiction
  · next hscan =>
      obtain ⟨c, hc, hlayout⟩ := hvisible
      rw [← scan_dropWhile] at hscan
      have hall := List.dropWhile_eq_nil_iff.mp (eq_nil_of_scan (flush_dropWhile _) hscan) c hc
      rw [hlayout] at hall
      contradiction
  · next ts _ hscan =>
      split at h
      · contradiction
      · contradiction
      · next f hread =>
          obtain rfl := Except.ok.inj h
          obtain ⟨items, hgrouped, hitems⟩ := exists_grouped_of_ofTokens hread
          exact ⟨items, ⟨ts, scans_of_scan hscan, hgrouped.collects⟩, hitems⟩

end Reading

end ClauseForm
