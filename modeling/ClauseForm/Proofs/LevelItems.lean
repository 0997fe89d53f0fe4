import ClauseForm.Proofs.Grouping

/-!
The items that are read on each level.

What is read below an operator holds neither that operator nor a weaker one, outside of parentheses.
So items that can be read determine how they are taken apart: a chain at its operator, a comparison
at its only sign.
-/

namespace ClauseForm

namespace Reading

variable {items : List Item} {sep : Token} {inner : List Item → Option Reading}
  {join : List Reading → Option Reading} {r : Reading} {c : Category} {s t : Nat}

theorem isToken_iff {i : Item} {u : Token} : i.isToken u = true ↔ i = .token u := by
  cases i with
  | token v => simp [Item.isToken]
  | group => simp [Item.isToken]

/-- A chain that can be read consists of parts that can be read, with its operator between them. -/
theorem exists_of_chain (h : chain sep inner join items = some r) :
    ∃ parts rs, parts ≠ [] ∧ items = [.token sep].intercalate parts ∧
      parts.mapM inner = some rs ∧ join rs = some r := by
  obtain ⟨rs, hread, hjoin⟩ := Option.bind_eq_some_iff.mp h
  have hparts := intercalate_splitOnP (fun i => (isToken_iff (u := sep) (i := i)).mp) items
  exact ⟨_, rs, List.splitOnP_ne_nil _ _, hparts.symm, hread, hjoin⟩

theorem exists_of_mapM_cons {part : List Item} {parts : List (List Item)} {rs : List Reading}
    (h : (part :: parts).mapM inner = some rs) :
    ∃ q qs, inner part = some q ∧ parts.mapM inner = some qs := by
  rw [List.mapM_cons] at h
  obtain ⟨q, hq, h⟩ := Option.bind_eq_some_iff.mp h
  obtain ⟨qs, hqs, -⟩ := Option.bind_eq_some_iff.mp h
  exact ⟨q, qs, hq, hqs⟩

theorem exists_read_of_mapM {parts : List (List Item)} {rs : List Reading}
    (h : parts.mapM inner = some rs) {part : List Item} (hpart : part ∈ parts) :
    ∃ r, inner part = some r := by
  induction parts generalizing rs with
  | nil => contradiction
  | cons first parts ih =>
      obtain ⟨q, qs, hq, hqs⟩ := exists_of_mapM_cons h
      rcases List.mem_cons.mp hpart with rfl | hpart
      · exact ⟨q, hq⟩
      · exact ih hqs hpart

/-- What all items of the parts of a chain satisfy, and its operator too, all of its items do. -/
theorem forall_of_chain {p : Item → Prop} (hsep : p (.token sep))
    (hinner : ∀ part r, inner part = some r → ∀ i ∈ part, p i)
    (h : chain sep inner join items = some r) : ∀ i ∈ items, p i := by
  obtain ⟨parts, rs, -, rfl, hread, -⟩ := exists_of_chain h
  refine forall_mem_intercalate hsep fun part hpart => ?_
  obtain ⟨q, hq⟩ := exists_read_of_mapM hread hpart
  exact hinner part q hq

/-- Only operators on terms, numerals, names and groups are read as terms. -/
theorem isTermPart_of_readBelow (h : readBelow .term s items = some r) :
    ∀ i ∈ items, isTermPart i = true := by
  have hfactor : ∀ items r, factor items = some r → ∀ i ∈ items, isTermPart i = true := by
    intro items r h
    unfold factor at h
    split at h
    · simp [isTermPart]
    · simp [isTermPart]
    · simp [isTermPart]
    · contradiction
  have hproduct : ∀ items r, product items = some r → ∀ i ∈ items, isTermPart i = true :=
    fun items r => forall_of_chain rfl hfactor
  have hterm : ∀ items r, term items = some r → ∀ i ∈ items, isTermPart i = true :=
    fun items r => forall_of_chain rfl hproduct
  rcases s with _ | _ | _ | _ | _ | _ | s
  · exact hterm items r h
  · exact hterm items r h
  · exact hterm items r h
  · exact hterm items r h
  · exact hterm items r h
  · exact hproduct items r h
  · exact hfactor items r h

/-- A comparison that can be read has two terms with its sign between them. -/
theorem exists_of_comparison (h : comparison items = some r) :
    ∃ left sign right a b, items = left ++ .token (.comparison sign) :: right ∧
      term left = some a ∧ term right = some b ∧ r = (do
        let l ← a
        let r ← b
        return .node (.compare sign) [l, r]) := by
  unfold comparison at h
  split at h
  · contradiction
  · next i after hafter =>
      obtain ⟨sign, hsign, h⟩ := Option.bind_eq_some_iff.mp h
      obtain ⟨a, ha, h⟩ := Option.bind_eq_some_iff.mp h
      obtain ⟨b, hb, h⟩ := Option.bind_eq_some_iff.mp h
      obtain rfl := Option.some.inj h
      obtain rfl : i = .token (.comparison sign) := by
        unfold Item.comparison? at hsign
        split at hsign
        · obtain rfl := Option.some.inj hsign
          rfl
        · contradiction
      refine ⟨_, sign, after, a, b, ?_, ha, hb, rfl⟩
      rw [← hafter, List.takeWhile_append_dropWhile]

/-- The atoms that can be read. -/
theorem atom_cases {n : Nat} (h : atom n items = some r) :
    (items = [.token .verum] ∧ r = .ok (negated n (.truth true))) ∨
    (items = [.token .falsum] ∧ r = .ok (negated n (.truth false))) ∨
    (∃ name, items = [.token (.name name)] ∧
      r = .ok (negated (n - 1) (.literal name (n == 0)))) ∨
    (∃ x asTerm, items = [.group (some x) asTerm] ∧ r = x.map (negated n)) ∨
    ∃ x, comparison items = some x ∧ r = x.map (negated n) := by
  unfold atom at h
  split at h
  · exact Or.inl ⟨rfl, (Option.some.inj h).symm⟩
  · exact Or.inr (Or.inl ⟨rfl, (Option.some.inj h).symm⟩)
  · exact Or.inr (Or.inr (Or.inl ⟨_, rfl, (Option.some.inj h).symm⟩))
  · obtain ⟨x, rfl, rfl⟩ := Option.map_eq_some_iff.mp h
    exact Or.inr (Or.inr (Or.inr (Or.inl ⟨x, _, rfl, rfl⟩)))
  · obtain ⟨x, hx, rfl⟩ := Option.map_eq_some_iff.mp h
    exact Or.inr (Or.inr (Or.inr (Or.inr ⟨x, hx, rfl⟩)))

/-- Two terms with the sign of a comparison between them are read as an atom. -/
theorem atom_comparison {n : Nat} {left right : List Item} {a b : Reading} (sign : Comparison)
    (hleft : term left = some a) (hright : term right = some b) :
    atom n (left ++ .token (.comparison sign) :: right) = some (Except.map (negated n) (do
      let l ← a
      let r ← b
      return .node (.compare sign) [l, r])) := by
  have hread := comparison_eq sign (isTermPart_of_readBelow (s := 4) hleft) hleft hright
  obtain ⟨i, j, more, hitems⟩ :
      ∃ i j more, left ++ .token (.comparison sign) :: right = i :: j :: more := by
    rcases left with _ | ⟨i, _ | ⟨j, left⟩⟩
    · contradiction
    · exact ⟨i, _, _, rfl⟩
    · exact ⟨i, j, _, rfl⟩
  rw [hitems] at hread ⊢
  rw [atom_of_two, hread]
  rfl

/-- No operator on formulas stands in an atom outside of parentheses. -/
theorem free_of_atom {n : Nat} (h : atom n items = some r) (ht : Operates .formula t) :
    Free (separator t) items := by
  rcases atom_cases h with ⟨rfl, -⟩ | ⟨rfl, -⟩ | ⟨name, rfl, -⟩ | ⟨x, asTerm, rfl, -⟩ | ⟨x, hx, -⟩
  · exact free_word rfl t
  · exact free_word rfl t
  · exact free_word rfl t
  · exact free_group _ _ _
  · obtain ⟨left, sign, right, a, b, rfl, hleft, hright, -⟩ := exists_of_comparison hx
    have hterm : ∀ {items r}, term items = some r → Free (separator t) items := fun h i hi =>
      isTermPart_separator i (isTermPart_of_readBelow (s := 4) h i hi) ht
    exact List.forall_mem_append.mpr ⟨hterm hleft,
      List.forall_mem_cons.mpr ⟨isToken_separator_of_isWord rfl t, hterm hright⟩⟩

theorem free_of_unary (h : unary items = some r) (ht : Operates .formula t) :
    Free (separator t) items := by
  have hsigns : Free (separator t) (items.takeWhile (Item.isToken .negation)) := by
    intro i hi
    rw [isToken_iff.mp (List.mem_takeWhile_imp hi)]
    exact isToken_separator_of_isWord rfl t
  rw [← List.takeWhile_append_dropWhile (p := Item.isToken .negation) (l := items)]
  exact List.forall_mem_append.mpr ⟨hsigns, free_of_atom h ht⟩

theorem free_of_factor (h : factor items = some r) : Free (separator t) items := by
  unfold factor at h
  split at h
  · exact free_word rfl t
  · exact free_word rfl t
  · exact free_group _ _ _
  · contradiction

/-- What is read below an operator holds neither that operator nor a weaker one. -/
theorem free_of_readBelow (h : readBelow c s items = some r) (hle : t ≤ s)
    (ht : Operates c t) : Free (separator t) items := by
  -- From the strongest level downwards: a chain holds its own operator and what its parts hold.
  have hdown : ∀ n, s ≤ n → (∀ items r, readBelow c n items = some r →
      ∀ t ≤ n, Operates c t → Free (separator t) items) →
      ∀ items r, readBelow c s items = some r → ∀ t ≤ s, Operates c t → Free (separator t) items := by
    intro n hle hn
    induction n with
    | zero => rwa [Nat.le_zero.mp hle]
    | succ n ih =>
        rcases Nat.le_succ_iff.mp hle with hle | rfl
        · refine ih hle fun items r h t ht hoperates => ?_
          by_cases hop : Operates c (n + 1)
          · rw [readBelow_of_operates hop] at h
            have hother := separator_ne hop.bounds.2 hoperates.bounds.1 (Nat.lt_succ_of_le ht)
            exact forall_of_chain (by simpa [Item.isToken] using hother)
              (fun part q hq => hn part q hq t (Nat.le_succ_of_le ht) hoperates) h
          · rw [readBelow_of_not_operates hop] at h
            exact hn items r h t (Nat.le_succ_of_le ht) hoperates
        · exact hn
  refine hdown (s + 6) (Nat.le_add_right s 6) (fun items r h t _ ht => ?_) items r h t hle ht
  cases c with
  | formula => exact free_of_unary h ht
  | term => exact free_of_factor h

end Reading

end ClauseForm
