import ClauseForm.Proofs.Readings

/-!
Tokens in pairs of parentheses, and the items that they become.

`Grouped` describes by recursion on the tokens what reading them with a stack of open groups comes
to.  A text that can be read is grouped as a whole, and where the tokens of a group end is settled
by the tokens alone.
-/

namespace ClauseForm

namespace Reading

/-- Tokens become items, where every pair of parentheses becomes a single one. -/
inductive Grouped : List Token → List Item → Prop where
  | nil : Grouped [] []
  | token {t : Token} {ts : List Token} {items : List Item} :
      t ≠ .opening → t ≠ .closing → Grouped ts items → Grouped (t :: ts) (.token t :: items)
  | group {inside ts : List Token} {inner items : List Item} :
      Grouped inside inner → Grouped ts items →
      Grouped (.opening :: (inside ++ .closing :: ts))
        (.group (formula inner) (term inner) :: items)

namespace Grouped

variable {ts us vs ws : List Token} {items others : List Item} {i : Item} {t : Token}

theorem append (hts : Grouped ts items) (hus : Grouped us others) :
    Grouped (ts ++ us) (items ++ others) := by
  induction hts with
  | nil => exact hus
  | token hopening hclosing _ ih => exact .token hopening hclosing ih
  | group hinside _ _ ih =>
      rw [List.cons_append, List.append_assoc, List.cons_append]
      exact .group hinside ih

theorem collects (h : Grouped ts items) : Collects ts items := by
  induction h with
  | nil => exact fun rest before around => rfl
  | token hopening hclosing _ ih => exact (Collects.token hopening hclosing).append ih
  | @group inside ts inner items _ _ ihinside ih =>
      simpa using ihinside.group.append ih

/-- The tokens of the first item and those of the others. -/
theorem of_cons (h : Grouped ts (i :: items)) :
    ∃ us vs, ts = us ++ vs ∧ Grouped us [i] ∧ Grouped vs items := by
  cases h with
  | @token t ts _ hopening hclosing hts =>
      exact ⟨[t], ts, rfl, .token hopening hclosing .nil, hts⟩
  | @group inside ts inner _ hinside hts =>
      exact ⟨.opening :: (inside ++ [.closing]), ts, by simp, .group hinside .nil, hts⟩

theorem of_append (h : Grouped ts (items ++ others)) :
    ∃ us vs, ts = us ++ vs ∧ Grouped us items ∧ Grouped vs others := by
  induction items generalizing ts with
  | nil => exact ⟨[], ts, rfl, .nil, h⟩
  | cons i items ih =>
      obtain ⟨us, rest, rfl, hus, hrest⟩ := h.of_cons
      obtain ⟨vs, ws, rfl, hvs, hws⟩ := ih hrest
      exact ⟨us ++ vs, ws, (List.append_assoc ..).symm, hus.append hvs, hws⟩

theorem of_token (h : Grouped ts [.token t]) : ts = [t] := by
  cases h with
  | token _ _ hts =>
      cases hts
      rfl

/-- The tokens of an item that is no group begin with it. -/
theorem of_token_cons (h : Grouped ts (.token t :: items)) :
    ∃ us, ts = t :: us ∧ Grouped us items := by
  cases h with
  | token _ _ hts => exact ⟨_, rfl, hts⟩

/-- Tokens begin with their first item or with a parenthesis. -/
theorem first_token (h : Grouped ts (i :: items)) :
    ∃ t us, ts = t :: us ∧ (i = .token t ∨ t = .opening) := by
  cases h with
  | token => exact ⟨_, _, rfl, Or.inl rfl⟩
  | group => exact ⟨_, _, rfl, Or.inr rfl⟩

/-- The first closing parenthesis behind a group ends it. -/
theorem closing_unique (hts : Grouped ts items) (hus : Grouped us others)
    (h : ts ++ .closing :: vs = us ++ .closing :: ws) : ts = us ∧ items = others ∧ vs = ws := by
  induction hts generalizing us others vs ws with
  | nil =>
      cases hus with
      | nil => exact ⟨rfl, rfl, (List.cons.inj h).2⟩
      | token _ hclosing => exact absurd (List.cons.inj h).1.symm hclosing
      | group => exact absurd (List.cons.inj h).1 (by simp)
  | token hopening hclosing _ ih =>
      cases hus with
      | nil => exact absurd (List.cons.inj h).1 hclosing
      | token _ _ hus =>
          simp only [List.cons_append, List.cons.injEq] at h
          obtain ⟨rfl, hbehind⟩ := h
          obtain ⟨rfl, rfl, rfl⟩ := ih hus hbehind
          exact ⟨rfl, rfl, rfl⟩
      | group => exact absurd (List.cons.inj h).1 hopening
  | group hinside _ ihinside ih =>
      cases hus with
      | nil => exact absurd (List.cons.inj h).1 (by simp)
      | token hopening => exact absurd (List.cons.inj h).1.symm hopening
      | group hinside' hus =>
          simp only [List.cons_append, List.append_assoc, List.cons.injEq, true_and] at h
          obtain ⟨rfl, rfl, hrest⟩ := ihinside hinside' h
          obtain ⟨rfl, rfl, rfl⟩ := ih hus hrest
          exact ⟨rfl, rfl, rfl⟩

/-- A text that begins with the tokens of an item can not begin with those of another one. -/
theorem first_unique (hts : Grouped ts [i]) (hus : Grouped us others) (hne : others ≠ [])
    (h : ts ++ vs = us ++ ws) :
    ∃ rest more, us = ts ++ rest ∧ others = i :: more ∧ Grouped rest more := by
  cases hts with
  | token hopening hclosing hnil =>
      cases hnil
      cases hus with
      | nil => contradiction
      | token _ _ hus =>
          obtain ⟨rfl, -⟩ := List.cons.inj h
          exact ⟨_, _, rfl, rfl, hus⟩
      | group => exact absurd (List.cons.inj h).1 hopening
  | group hinside hnil =>
      cases hnil
      cases hus with
      | nil => contradiction
      | token hopening => exact absurd (List.cons.inj h).1.symm hopening
      | group hinside' hus =>
          simp only [List.cons_append, List.append_assoc, List.cons.injEq, true_and] at h
          obtain ⟨rfl, rfl, -⟩ := hinside.closing_unique hinside' h
          exact ⟨_, _, by simp, rfl, hus⟩

/-- Items that come from tokens stem from them. -/
theorem stems {good : String → Prop} (hgood : ∀ name, .name name ∈ ws → good name)
    (h : Grouped ts items) (hts : ts ⊆ ws) : ∀ i ∈ items, Stems good ws i := by
  induction h with
  | nil => simp
  | token _ _ _ ih =>
      obtain ⟨ht, hts⟩ := List.cons_subset.mp hts
      exact List.forall_mem_cons.mpr ⟨ht, ih hts⟩
  | group _ _ ihinside ih =>
      have hall := (List.cons_subset.mp hts).2
      obtain ⟨hinside, hbehind⟩ := List.append_subset.mp hall
      have hinner := ihinside hinside
      refine List.forall_mem_cons.mpr ⟨⟨?_, ?_⟩, ih (List.cons_subset.mp hbehind).2⟩
      · exact fun r => readsFitting_formula hgood _ r hinner
      · exact fun r => readsFitting_term hgood _ r hinner

end Grouped

/-- Tokens that can be read behind certain items of the open groups are grouped up to the end of the
innermost one. -/
theorem exists_grouped_of_readFrom {ts : List Token} {items : List Item} {around : List (List Item)}
    {r : Reading} (h : readFrom ts items around = some r) :
    ∃ inside inner, Grouped inside inner ∧
      (ts = inside ∧ around = [] ∧ formula (items.reverse ++ inner) = some r ∨
        ∃ rest outer outside, ts = inside ++ .closing :: rest ∧ around = outer :: outside ∧
          readFrom rest (.group (formula (items.reverse ++ inner)) (term (items.reverse ++ inner)) ::
            outer) outside = some r) := by
  induction hlength : ts.length using Nat.strong_induction_on generalizing ts items around with
  | _ n ih =>
      subst hlength
      cases ts with
      | nil =>
          cases around with
          | nil => exact ⟨[], [], .nil, Or.inl ⟨rfl, rfl, by simpa [readFrom] using h⟩⟩
          | cons => simp [readFrom] at h
      | cons t ts =>
          by_cases hclosing : t = .closing
          · subst hclosing
            cases around with
            | nil => simp [readFrom] at h
            | cons outer outside =>
                rw [readFrom] at h
                exact ⟨[], [], .nil, Or.inr ⟨ts, outer, outside, rfl, rfl, by simpa using h⟩⟩
          by_cases hopening : t = .opening
          · subst hopening
            rw [readFrom] at h
            -- The tokens up to the end of the new group, and then those up to the end of this one.
            obtain ⟨inside, inner, hinside, ⟨-, hcontra, -⟩ | ⟨rest, _, _, rfl, ⟨rfl, rfl⟩, h⟩⟩ :=
              ih ts.length (by simp) h rfl
            · contradiction
            obtain ⟨others, more, hothers, hend⟩ := ih rest.length (by simp; omega) h rfl
            refine ⟨_, _, .group hinside hothers, ?_⟩
            rcases hend with ⟨rfl, rfl, hread⟩ | ⟨rest, outer, outside, rfl, rfl, hread⟩
            · exact Or.inl ⟨rfl, rfl, by simpa using hread⟩
            · exact Or.inr ⟨rest, outer, outside, by simp, rfl, by simpa using hread⟩
          · have hnext : readFrom ts (.token t :: items) around = some r :=
              (Collects.token hopening hclosing ts items around).symm.trans h
            obtain ⟨inside, inner, hinside, hend⟩ := ih ts.length (by simp) hnext rfl
            refine ⟨_, _, .token hopening hclosing hinside, ?_⟩
            rcases hend with ⟨rfl, rfl, hread⟩ | ⟨rest, outer, outside, rfl, rfl, hread⟩
            · exact Or.inl ⟨rfl, rfl, by simpa using hread⟩
            · exact Or.inr ⟨rest, outer, outside, by simp, rfl, by simpa using hread⟩

/-- The tokens of a formula are grouped, and their items are read. -/
theorem exists_grouped_of_ofTokens {ts : List Token} {r : Reading} (h : ofTokens ts = some r) :
    ∃ items, Grouped ts items ∧ formula items = some r := by
  obtain ⟨inside, inner, hinside, ⟨rfl, -, hread⟩ | ⟨_, _, _, -, hcontra, -⟩⟩ :=
    exists_grouped_of_readFrom h
  · exact ⟨inner, hinside, hread⟩
  · contradiction

theorem ofTokens_of_grouped {ts : List Token} {items : List Item} (h : Grouped ts items) :
    ofTokens ts = formula items := by
  have hcollects := h.collects [] [] []
  rw [List.append_nil, List.append_nil] at hcollects
  rw [ofTokens, hcollects, readFrom, List.reverse_reverse]

end Reading

end ClauseForm
