import ClauseForm.Proofs.Repetitions
import ClauseForm.Proofs.UsableLiterals

/-!
Collections of literals without repetitions.

A clause drops repeated neighbours and searches for opposed literals by halving, where the other kinds
remember what they have seen.  Both come to the distinct literals, put into the order of the kind:
`cleaned?_arranged_eq`.
-/

namespace ClauseForm

namespace LiteralOrder

/-- One literal comes before another one in a collection that was made from `ls` and has each literal
once: by value, by index, or where it is found first. -/
def Before : LiteralOrder → List Int → Int → Int → Prop
  | asGiven, ls, k, l => ls.idxOf k < ls.idxOf l
  | byValue, _, k, l => k < l
  | byIndex, _, k, l => k.natAbs < l.natAbs

end LiteralOrder

namespace Literals

variable {o : LiteralOrder} {d : Literals o} {ls ks : List Int}

/-- It makes no difference whether literals are put into order before repetitions are dropped. -/
theorem arranged_eraseDups_arrange (o : LiteralOrder) (ls : List Int) :
    (arranged (o.arrange ls).eraseDups : Literals o) = arranged ls.eraseDups := by
  have hperm := eraseDups_perm_of_mem_iff fun l => (o.arrange_perm ls).mem_iff
  have hgiven : o = .asGiven → (o.arrange ls).eraseDups = ls.eraseDups := fun ho => by
    rw [ho, LiteralOrder.arrange]
  rw [arranged, arranged, LiteralOrder.arrange_congr hperm hgiven]

/-- Cleaning leaves the distinct literals, unless two of them are opposed. -/
theorem cleaned?_arranged_eq (hnonzero : ∀ l ∈ ls, l ≠ 0) [Decidable (Clause.Opposed ls)] :
    (arranged ls : Literals o).cleaned? =
      if Clause.Opposed ls then none else some (arranged ls.eraseDups) := by
  have hsame : Clause.Opposed (arranged ls : Literals o).toList ↔ Clause.Opposed ls := by
    simp only [Clause.Opposed, mem_toList_arranged]
  have hnonzero' : ∀ l ∈ (arranged ls : Literals o).toList, l ≠ 0 := fun l hl =>
    hnonzero l (mem_toList_arranged.mp hl)
  rw [cleaned?_arranged hnonzero]
  split
  · next h => exact reduced?_eq_none (hsame.mpr h) hnonzero'
  · next h =>
      rw [reduced?_eq_some (mt hsame.mp h) hnonzero', toList_arranged,
        arranged_eraseDups_arrange]

theorem cleaned?_arranged_eq_none_iff (hnonzero : ∀ l ∈ ls, l ≠ 0) :
    (arranged ls : Literals o).cleaned? = none ↔ Clause.Opposed ls := by
  classical
  rw [cleaned?_arranged_eq hnonzero]
  split <;> simp [*]

theorem cleaned?_arranged_eq_some_iff (hnonzero : ∀ l ∈ ls, l ≠ 0) :
    (arranged ls : Literals o).cleaned? = some d ↔
      ¬ Clause.Opposed ls ∧ d = arranged ls.eraseDups := by
  classical
  rw [cleaned?_arranged_eq hnonzero]
  split <;> simp [*, eq_comm]

/-- In a clause or a solution, cleaning depends on nothing but which literals there are. -/
theorem cleaned?_congr (ho : o ≠ .asGiven) (hnonzero : ∀ l ∈ ls, l ≠ 0)
    (h : ∀ l, l ∈ ks ↔ l ∈ ls) :
    (arranged ks : Literals o).cleaned? = (arranged ls : Literals o).cleaned? := by
  classical
  have hsame : Clause.Opposed ks ↔ Clause.Opposed ls := by simp only [Clause.Opposed, h]
  have harranged : (arranged ks.eraseDups : Literals o) = arranged ls.eraseDups := by
    rw [arranged, arranged, LiteralOrder.arrange_of_perm ho (eraseDups_perm_of_mem_iff h)]
  rw [cleaned?_arranged_eq fun l hl => hnonzero l ((h l).mp hl), cleaned?_arranged_eq hnonzero,
    harranged]
  simp only [hsame]

/-- Without opposed literals no two have the same index, so the order of a collection is strict. -/
theorem pairwise_before_arrange (hopposed : ¬ Clause.Opposed ls) (hnonzero : ∀ l ∈ ls, l ≠ 0) :
    (o.arrange ls.eraseDups).Pairwise (o.Before ls) := by
  have hordered := o.pairwise_arrange ls.eraseDups
  have hnodup : (o.arrange ls.eraseDups).Nodup :=
    (o.arrange_perm _).nodup_iff.mpr (nodup_eraseDups ls)
  have hmem : ∀ l ∈ o.arrange ls.eraseDups, l ∈ ls := fun l hl =>
    List.mem_eraseDups.mp ((o.arrange_perm _).mem_iff.mp hl)
  cases o with
  | asGiven => exact pairwise_idxOf_eraseDups ls
  | byValue => exact (hordered.and hnodup).imp fun h => lt_of_le_of_ne h.1 h.2
  | byIndex =>
      refine (hordered.and hnodup).imp_of_mem fun {k l} hk hl h => ?_
      obtain ⟨hless | ⟨hequal, -⟩, hdiffer⟩ := h
      · exact hless
      · have hopposite : -k = l := by omega
        exact absurd (Clause.opposed_iff.mpr
          ⟨k, hmem k hk, hnonzero k (hmem k hk), hopposite ▸ hmem l hl⟩) hopposed

theorem cleaned?_cleaned (hnonzero : ∀ l ∈ ls, l ≠ 0) (hopposed : ¬ Clause.Opposed ls) :
    (arranged ls.eraseDups : Literals o).cleaned? = some (arranged ls.eraseDups) := by
  have hmem : ∀ l ∈ ls.eraseDups, l ∈ ls := fun l => List.mem_eraseDups.mp
  refine (cleaned?_arranged_eq_some_iff fun l hl => hnonzero l (hmem l hl)).mpr ⟨?_, ?_⟩
  · exact fun h => hopposed (h.mono hmem)
  · rw [eraseDups_eraseDups]

/-- Every list of integers that can be literals makes a collection of each kind, and the way in which
clauses are cleaned comes to the same as the other one.  Nothing is left if an index occurs in both
signs; otherwise the distinct literals are, each once, by value, by index or by first occurrence.
Cleaning again changes nothing, and in clauses and solutions the order of the literals has no
influence. -/
theorem cleaned_spec (o : LiteralOrder) (hls : ∀ l ∈ ls, Usable l) :
    ∃ c : Literals o, ofList? ls = .ok c ∧
      c.cleaned? = c.reduced? ∧
      (c.cleaned? = none ↔ ∃ l ∈ ls, -l ∈ ls) ∧
      (∀ d, c.cleaned? = some d →
        d.toList.Nodup ∧ (∀ l, l ∈ d.toList ↔ l ∈ ls) ∧ d.toList.Pairwise (o.Before ls) ∧
          d.cleaned? = some d) ∧
      (o ≠ .asGiven → ∀ (ks : List Int) (e : Literals o), (∀ l, l ∈ ks ↔ l ∈ ls) →
        ofList? ks = .ok e → e.cleaned? = c.cleaned?) := by
  have hnonzero : ∀ l ∈ ls, l ≠ 0 := fun l hl => (hls l hl).1
  have hopposed : Clause.Opposed ls ↔ ∃ l ∈ ls, -l ∈ ls :=
    Clause.opposed_iff.trans
      ⟨fun ⟨l, hl, _, h⟩ => ⟨l, hl, h⟩, fun ⟨l, hl, h⟩ => ⟨l, hl, hnonzero l hl, h⟩⟩
  refine ⟨arranged ls, ofList?_eq_ok_iff.mpr ⟨hls, rfl⟩, cleaned?_arranged hnonzero,
    (cleaned?_arranged_eq_none_iff hnonzero).trans hopposed, fun d hd => ?_, ?_⟩
  · obtain ⟨hkept, rfl⟩ := (cleaned?_arranged_eq_some_iff hnonzero).mp hd
    refine ⟨(o.arrange_perm _).nodup_iff.mpr (nodup_eraseDups ls), fun l => ?_,
      pairwise_before_arrange hkept hnonzero, cleaned?_cleaned hnonzero hkept⟩
    rw [mem_toList_arranged, List.mem_eraseDups]
  · intro ho ks e hmem he
    obtain ⟨-, rfl⟩ := ofList?_eq_ok_iff.mp he
    exact cleaned?_congr ho hnonzero hmem

namespace CleanedCollectionsWitness

/-- Repeated literals out of order, the greatest possible index among them. -/
def sample : List Int := [3, -2147483647, 3, 1, -2147483647]

/-- The sample as each kind of collection, cleaned. -/
theorem cleaned_spec_sample :
    (∀ l ∈ sample, Usable l) ∧
      (arranged sample : Clause).cleaned? = some ⟨#[-2147483647, 1, 3]⟩ ∧
      (arranged sample : Solution).cleaned? = some ⟨#[1, 3, -2147483647]⟩ ∧
      (arranged sample : Assignment).cleaned? = some ⟨#[3, -2147483647, 1]⟩ ∧
      ∀ (o : LiteralOrder) (d : Literals o), (arranged sample : Literals o).cleaned? = some d →
        d.toList.Pairwise (o.Before sample) ∧ d.cleaned? = some d := by
  have husable : ∀ l ∈ sample, Usable l := by decide
  have hcleaned : ∀ o : LiteralOrder,
      (arranged sample : Literals o).cleaned? = some (arranged [3, -2147483647, 1]) := by
    intro o
    refine (cleaned?_arranged_eq_some_iff (by decide)).mpr ⟨?_, rfl⟩
    rintro ⟨l, hl, hpositive, hopposite⟩
    revert l
    decide
  have hbyValue : [3, -2147483647, 1].Perm [(-2147483647 : Int), 1, 3] := by decide
  have hbyIndex : [3, -2147483647, 1].Perm [(1 : Int), 3, -2147483647] := by decide
  refine ⟨husable, ?_, ?_, hcleaned .asGiven, fun o d hd => ?_⟩
  · exact (hcleaned .byValue).trans (congrArg some (arranged_eq_mk nofun hbyValue (by decide)))
  · exact (hcleaned .byIndex).trans (congrArg some (arranged_eq_mk nofun hbyIndex (by decide)))
  · obtain ⟨c, hc, -, -, hkept, -⟩ := cleaned_spec o husable
    obtain ⟨-, rfl⟩ := ofList?_eq_ok_iff.mp hc
    exact (hkept d hd).2.2

end CleanedCollectionsWitness

end Literals

end ClauseForm
