import ClauseForm.Proofs.EnclosedText

/-!
Layout does not matter.

Two texts that differ only in the layout between their tokens, and in front of and behind them, are
read as the same.  A quoted name is kept as it is: the layout inside of it is part of the name.
-/

namespace ClauseForm

namespace Token

/-- A run of layout characters, possibly none. -/
def Gap (cs : List Char) : Prop := ∀ c ∈ cs, isLayout c = true

/-- Two texts that differ only in the layout outside of quoted names, and at their ends.  Where one
text has layout in its middle, the other one has some too. -/
inductive Relaid : List Char → List Char → Prop where
  | ends {gap other : List Char} : Gap gap → Gap other → Relaid gap other
  | gap {gap other cs ds : List Char} :
      Gap gap → gap ≠ [] → Gap other → other ≠ [] → Relaid cs ds → Relaid (gap ++ cs) (other ++ ds)
  | quoted {name cs ds : List Char} :
      '\x22' ∉ name → Relaid cs ds →
        Relaid ('\x22' :: (name ++ '\x22' :: cs)) ('\x22' :: (name ++ '\x22' :: ds))
  /-- No quoted name begins at a quotation mark that is the last one. -/
  | mark {cs ds : List Char} :
      '\x22' ∉ cs → '\x22' ∉ ds → Relaid cs ds → Relaid ('\x22' :: cs) ('\x22' :: ds)
  | visible {c : Char} {cs ds : List Char} :
      isLayout c = false → c ≠ '\x22' → Relaid cs ds → Relaid (c :: cs) (c :: ds)

variable {cs ds gap word : List Char}

theorem Gap.not_mark (hgap : Gap gap) : '\x22' ∉ gap := fun hmem => by
  cases hgap _ hmem

/-- Every text may be followed by layout, or by none. -/
theorem relaid_append_gap (hgap : Gap gap) (cs : List Char) : Relaid cs (cs ++ gap) := by
  induction hlength : cs.length using Nat.strong_induction_on generalizing cs with
  | _ n ih =>
      subst hlength
      cases cs with
      | nil => exact .ends (by simp [Gap]) hgap
      | cons c cs =>
          have hrest := ih cs.length (by simp) cs rfl
          by_cases hc : isLayout c = true
          · have hsingle : Gap [c] := by simpa [Gap] using hc
            exact @Relaid.gap [c] [c] _ _ hsingle (by simp) hsingle (by simp) hrest
          by_cases hquote : c = '\x22'
          · subst hquote
            -- The mark begins a quoted name if there is another one behind it.
            by_cases hclosed : '\x22' ∈ cs
            · obtain ⟨name, behind, rfl, hname⟩ := List.eq_append_cons_of_mem hclosed
              have hbehind := ih behind.length (by simp; omega) behind rfl
              simpa using Relaid.quoted hname hbehind
            · exact .mark hclosed (by simp [hclosed, hgap.not_mark]) hrest
          · exact .visible (by simpa using hc) hquote hrest

theorem detached_gap_append (hgap : Gap gap) (hne : gap ≠ []) (rest : List Char) :
    Detached (gap ++ rest) := by
  obtain ⟨c, gap, rfl⟩ := List.exists_cons_of_ne_nil hne
  rintro _ ⟨rfl⟩
  have hc := hgap c List.mem_cons_self
  simp only [isLayout, Bool.or_eq_true, beq_iff_eq] at hc
  rcases hc with ((rfl | rfl) | rfl) | rfl <;> rfl

theorem detached_gap (hgap : Gap gap) : Detached gap := by
  cases gap with
  | nil => simp [Detached]
  | cons c gap => simpa using detached_gap_append hgap (List.cons_ne_nil c gap) []

/-- Layout at the front does not count. -/
theorem scan_gap_append (hgap : Gap gap) (cs : List Char) : scan (gap ++ cs) = scan cs := by
  induction gap with
  | nil => rfl
  | cons c gap ih =>
      obtain ⟨hc, hgap⟩ := List.forall_mem_cons.mp hgap
      rw [List.cons_append, scan_of_layout hc, ih hgap]

theorem scan_gap (hgap : Gap gap) : scan gap = some [] := by
  have htokens := scan_gap_append hgap []
  rwa [List.append_nil, scan_nil] at htokens

/-- Behind a word, texts into which no token reaches can be exchanged if they have the same
tokens. -/
theorem scan_append_congr (hword : '\x22' ∉ word) (hcs : Detached cs) (hds : Detached ds)
    (h : scan cs = scan ds) : scan (word ++ cs) = scan (word ++ ds) := by
  cases hscan : scan word with
  | none => rw [scan_append_eq_none hscan hword hcs, scan_append_eq_none hscan hword hds]
  | some ts => rw [scan_append hscan hcs, scan_append hscan hds, h]

theorem scan_quoted {name : List Char} (hname : '\x22' ∉ name) (cs : List Char) :
    scan ('\x22' :: (name ++ '\x22' :: cs)) =
      (scan cs).map (.name (String.ofList name) :: ·) := by
  have hinside : ∀ c ∈ name, (c != '\x22') = true := fun c hc => by
    simpa using ne_of_mem_of_not_mem hc hname
  have hmark : ∀ c ∈ ('\x22' :: cs).head?, (c != '\x22') = false := by simp
  obtain ⟨htake, hdrop⟩ := takeWhile_boundary hinside hmark
  exact scan_eq_of_first? (first?_eq_name_iff.mpr (Or.inr ⟨_, rfl, hdrop, by rw [htake]⟩))

/-- A quotation mark that is not followed by another one begins no token. -/
theorem scan_mark (hcs : '\x22' ∉ cs) : scan ('\x22' :: cs) = none := by
  refine scan_of_none (by decide) ?_
  have hinside : cs.dropWhile (· != '\x22') = [] :=
    List.dropWhile_eq_nil_iff.mpr fun c hc => by simpa using ne_of_mem_of_not_mem hc hcs
  simp [first?, hinside]

/-- Texts that differ only in layout have the same tokens, also behind the beginning of a word. -/
theorem Relaid.scan_eq (h : Relaid cs ds) (word : List Char) (hword : '\x22' ∉ word) :
    scan (word ++ cs) = scan (word ++ ds) := by
  have hmark : ∀ cs, Detached ('\x22' :: cs) := by
    rintro cs _ ⟨rfl⟩
    rfl
  induction h generalizing word with
  | ends hgap hother =>
      refine scan_append_congr hword (detached_gap hgap) (detached_gap hother) ?_
      rw [scan_gap hgap, scan_gap hother]
  | gap hgap hne hother hne' _ ih =>
      refine scan_append_congr hword (detached_gap_append hgap hne _)
        (detached_gap_append hother hne' _) ?_
      rw [scan_gap_append hgap, scan_gap_append hother]
      exact ih [] List.not_mem_nil
  | quoted hname _ ih =>
      refine scan_append_congr hword (hmark _) (hmark _) ?_
      rw [scan_quoted hname, scan_quoted hname]
      exact congrArg _ (ih [] List.not_mem_nil)
  | mark hcs hds =>
      refine scan_append_congr hword (hmark _) (hmark _) ?_
      rw [scan_mark hcs, scan_mark hds]
  | @visible c cs ds _ hc _ ih =>
      -- The character may continue a token, so it joins the word in front of it.
      have hlonger : '\x22' ∉ word ++ [c] := by simp [hword, Ne.symm hc]
      simpa using ih (word ++ [c]) hlonger

end Token

namespace Expression

open Reading Token

/-- Two texts where only the runs of layout differ that stand outside of quoted names.  A run at the
front or at the end of one text may be missing in the other one. -/
def SameButLayout (text other : String) : Prop :=
  ∃ gap gap' cs ds, Gap gap ∧ Gap gap' ∧ text.toList = gap ++ cs ∧ other.toList = gap' ++ ds ∧
    Relaid cs ds

variable {text other : String} {e : Expression}

theorem SameButLayout.scan_eq (h : SameButLayout text other) :
    scan text.toList = scan other.toList := by
  obtain ⟨gap, gap', cs, ds, hgap, hgap', htext, hother, hrelaid⟩ := h
  rw [htext, hother, scan_gap_append hgap, scan_gap_append hgap']
  exact hrelaid.scan_eq [] List.not_mem_nil

/-- Layout around a text is layout that the text lacks. -/
theorem sameButLayout_around {before behind : List Char} (hbefore : Gap before)
    (hbehind : Gap behind) (text : String) :
    SameButLayout text (String.ofList before ++ text ++ String.ofList behind) :=
  ⟨[], before, text.toList, text.toList ++ behind, List.forall_mem_nil _, hbefore, rfl,
    by simp, relaid_append_gap hbehind text.toList⟩

/-- What a text is read as is settled by its tokens. -/
theorem ofText_congr (h : scan text.toList = scan other.toList) : ofText text = ofText other := by
  unfold ofText
  rw [h]

theorem ofText_parentheses (hvisible : ∃ c ∈ text.toList, isLayout c = false)
    (h : ofText text = .ok e) : ofText ("(" ++ text ++ ")") = .ok e := by
  obtain ⟨items, hwrites, hread⟩ := exists_writes_of_ofText hvisible h
  have hfree : ∀ t, t ≤ 0 → Operates .formula t → Free (separator t) items :=
    fun t ht hoperates => absurd hoperates.bounds.1 (by omega)
  exact hwrites.group.ofText_eq (readsBelow_group ⟨hfree, hread⟩ 0).read

/-- Layout outside of quoted names does not change what a text is read as, nor whether it is; layout
around a text does not either, and neither do parentheses around a text that is read as a
formula. -/
theorem ofText_layout_and_parentheses :
    (∀ text other : String, SameButLayout text other → ofText text = ofText other) ∧
    (∀ (before behind : List Char) (text : String), Gap before → Gap behind →
      ofText (String.ofList before ++ text ++ String.ofList behind) = ofText text) ∧
    ∀ (text : String) (e : Expression), (∃ c ∈ text.toList, isLayout c = false) →
      ofText text = .ok e → ofText ("(" ++ text ++ ")") = .ok e := by
  have hlayout : ∀ text other : String, SameButLayout text other → ofText text = ofText other :=
    fun _ _ h => ofText_congr h.scan_eq
  refine ⟨hlayout, fun before behind text hbefore hbehind => ?_, fun _ _ => ofText_parentheses⟩
  exact (hlayout _ _ (sameButLayout_around hbefore hbehind text)).symm

namespace LayoutWitness

/-- An implication of a negated name with layout in it. -/
def sample : Expression := node .implies [literal "a" true, literal "b  c" false]

theorem sameButLayout_sample :
    SameButLayout "\ta\r\n=>   ~\"b  c\" " "a => ~\"b  c\"" := by
  have hgap : ∀ gap : List Char, gap.all isLayout = true → Gap gap := fun _ h =>
    List.all_eq_true.mp h
  refine ⟨['\t'], [], _, _, hgap _ rfl, hgap _ rfl, rfl, rfl, ?_⟩
  refine .visible rfl (by decide) ?_
  refine @Relaid.gap ['\r', '\n'] [' '] _ _ (hgap _ rfl) (by simp) (hgap _ rfl) (by simp) ?_
  refine .visible rfl (by decide) (.visible rfl (by decide) ?_)
  refine @Relaid.gap [' ', ' ', ' '] [' '] _ _ (hgap _ rfl) (by simp) (hgap _ rfl) (by simp) ?_
  refine .visible rfl (by decide) ?_
  exact @Relaid.quoted ['b', ' ', ' ', 'c'] [' '] [] (by decide) (.ends (hgap _ rfl) (hgap _ rfl))

theorem ofText_layout_and_parentheses_sample :
    SameButLayout "\ta\r\n=>   ~\"b  c\" " "a => ~\"b  c\"" ∧
      ofText "\ta\r\n=>   ~\"b  c\" " = .ok sample ∧
      ofText (String.ofList ['\n', ' '] ++ "a => ~\"b  c\"" ++ String.ofList ['\t']) = .ok sample ∧
      ofText "(a => ~\"b  c\")" = .ok sample := by
  have hregular : Regular (fun name => '\x22' ∉ name.toList) .formula sample :=
    regular_nested (.inl rfl) (regular_literal (by decide) _) (regular_literal (by decide) _)
  have htext : sample.text = "a => ~\"b  c\"" := by decide +kernel
  have hread : ofText "a => ~\"b  c\"" = .ok sample :=
    htext ▸ hregular.ofText_text_eq fun _ h => h
  obtain ⟨hlayout, haround, hparentheses⟩ := ofText_layout_and_parentheses
  exact ⟨sameButLayout_sample, (hlayout _ _ sameButLayout_sample).trans hread,
    (haround _ _ _ (List.all_eq_true.mp rfl) (List.all_eq_true.mp rfl)).trans hread,
    hparentheses "a => ~\"b  c\"" sample ⟨'a', by simp, rfl⟩ hread⟩

end LayoutWitness

end Expression

end ClauseForm
