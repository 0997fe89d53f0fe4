import ClauseForm.Proofs.CleanedCollections
import ClauseForm.Proofs.DimacsRoundTrip
import ClauseForm.Proofs.DualReports
import ClauseForm.Proofs.Extraction
import ClauseForm.Proofs.NegatedClauses
import ClauseForm.Proofs.NumberingHistory
import ClauseForm.Proofs.SearchHistory

/-!
The collections of literals that can be made.

`Literals.Made` has a case for each way in which a collection comes about.  None of them leaves the
order of the kind or lets in an integer that can not be a literal (`Made.proper`), so whatever is
looked up in a collection is found exactly if it is there.
-/

namespace ClauseForm

/-! ### Indices of 32 bits -/

namespace Numbering

/-- A numbering whose indices can be literals. -/
structure Fits (m : Numbering) : Prop where
  valid : m.Valid
  nonneg : 0 ≤ m.maxIndex
  within : m.maxIndex ≤ largestIndex

variable {m grown : Numbering} {name : String} {i l : Int}

theorem Fits.usable_of_literalOf (hm : m.Fits) {positive : Bool}
    (h : m.literalOf name positive = .ok l) : Literals.Usable l := by
  unfold literalOf at h
  split at h
  · next i hi =>
      have hentry : i ∈ m.indices := List.mem_map_of_mem (hm.valid.indexOf?_eq_some_iff.mp hi)
      have hpositive : 0 < i := hm.valid.positive i hentry
      have hbound : i ≤ largestIndex := Int.le_trans (hm.valid.bounded i hentry) hm.within
      have husable : Literals.Usable i := ⟨by omega, by omega⟩
      obtain rfl := Except.ok.inj h
      split
      · exact husable
      · exact husable.neg
  · contradiction

theorem Fits.ensure (hm : m.Fits) (h : m.ensure name = .ok (i, grown)) : grown.Fits := by
  have hgrows := grows_ensure hm.valid hm.nonneg h
  refine ⟨hgrows.valid, Int.le_trans hm.nonneg hgrows.maxIndex_le, ?_⟩
  have hwithin := hm.within
  rcases ensure_cases h with ⟨-, rfl⟩ | ⟨hname, rfl, rfl⟩
  · exact hwithin
  · have hroom : ¬ largestIndex ≤ m.maxIndex := fun hfull => by
      have herror := ensure_eq_error_iff (e := .exhausted).mpr ⟨hname, hfull⟩
      rw [h] at herror
      contradiction
    change max m.maxIndex (m.maxIndex + 1) ≤ largestIndex
    omega

theorem Fits.ensureAll (hm : m.Fits) (names : List String) : (m.ensureAll names).2.Fits := by
  induction names generalizing m with
  | nil => exact hm
  | cons name names ih =>
      rw [Numbering.ensureAll]
      rcases h : m.ensure name with e | ⟨i, grown⟩
      · exact hm
      · exact ih (hm.ensure h)

theorem Fits.insert (hm : m.Fits) (hi : i ≤ largestIndex) (h : m.insert name i = .ok grown) :
    grown.Fits := by
  have hgrows := grows_insert hm.valid h
  refine ⟨hgrows.valid, Int.le_trans hm.nonneg hgrows.maxIndex_le, ?_⟩
  rcases insert_cases h with rfl | ⟨-, -, -, rfl⟩
  · exact hm.within
  · exact Int.max_le.mpr ⟨hm.within, hi⟩

theorem Fits.perform (hm : m.Fits) {change : Change}
    (hchange : ∀ name i, change = .insert name i → i ≤ largestIndex) :
    (m.perform change).Fits := by
  cases change with
  | ensure name =>
      rw [Numbering.perform]
      rcases h : m.ensure name with e | ⟨i, grown⟩
      · exact hm
      · exact hm.ensure h
  | insert name i =>
      rw [Numbering.perform]
      rcases h : m.insert name i with fault | grown
      · exact hm
      · exact hm.insert (hchange name i rfl) h
  | erase name => exact ⟨hm.valid.erase name, hm.nonneg, hm.within⟩
  | extend o v =>
      rw [perform_extend]
      exact hm.ensureAll v.names

theorem fits_empty : empty.Fits :=
  ⟨⟨nofun, .nil, nofun, .nil⟩, Int.le_refl 0, by decide⟩

/-- Numberings have indices that can be literals as long as nobody gives a name a larger one. -/
theorem fits_after {changes : List Change}
    (hchanges : ∀ name i, .insert name i ∈ changes → i ≤ largestIndex) : (after changes).Fits := by
  induction changes using List.reverseRecOn with
  | nil => exact fits_empty
  | append_singleton changes change ih =>
      rw [after_concat]
      refine (ih fun name i h => hchanges name i (List.mem_append_left _ h)).perform ?_
      rintro name i rfl
      exact hchanges name i (List.mem_append_right _ List.mem_cons_self)

end Numbering

/-! ### What the operations make -/

namespace Literals

variable {o : LiteralOrder} {c d : Literals o} {m source target : Numbering} {v : Bindings}

theorem Proper.indexed (hc : c.Proper) : c.Indexed := fun l hl =>
  Int.natAbs_pos.mpr (hc.usable l hl).1

theorem Proper.cleaned (hc : c.Proper) (h : c.cleaned? = some d) : d.Proper := by
  have hnonzero : ∀ l ∈ c.toList, l ≠ 0 := fun l hl => (hc.usable l hl).1
  rw [← hc.inOrder.arranged_toList] at h
  obtain ⟨-, rfl⟩ := (cleaned?_arranged_eq_some_iff hnonzero).mp h
  exact proper_arranged fun l hl => hc.usable l (List.mem_eraseDups.mp hl)

/-- Literals that are collected one by one are put into order. -/
theorem proper_of_collect {results : List (Except Fault Int)}
    (hresults : ∀ l, .ok l ∈ results → Usable l)
    (h : (Faults.collect results >>= fun ls => pure (arranged ls)) = .ok c) : c.Proper := by
  obtain ⟨ls, hls, harranged⟩ := except_bind_eq_ok h
  obtain rfl := Except.ok.inj harranged
  rw [Faults.collect_eq_ok_iff] at hls
  exact proper_arranged fun l hl => hresults l (hls ▸ List.mem_map_of_mem hl)

theorem proper_of_renumber (htarget : target.Fits) (h : c.renumber source target = .ok d) :
    d.Proper := by
  refine proper_of_collect (fun k hk => ?_) h
  obtain ⟨l, -, hl⟩ := List.mem_map.mp hk
  unfold renumberLiteral at hl
  split at hl
  · contradiction
  · exact htarget.usable_of_literalOf hl

theorem proper_of_ofBindings (hm : m.Fits) (h : ofBindings v m = .ok c) : c.Proper := by
  refine proper_of_collect (fun k hk => ?_) h
  obtain ⟨⟨name, value⟩, -, hentry⟩ := List.mem_map.mp hk
  cases value with
  | truth positive => exact hm.usable_of_literalOf hentry
  | integer i => contradiction

theorem proper_of_ofBindingsExtending {grown : Numbering} (hm : m.Fits)
    (h : ofBindingsExtending v m = (.ok (.ok c), grown)) : c.Proper := by
  obtain ⟨houtcome, rfl⟩ := Prod.mk.inj h
  obtain ⟨-, -, hliterals⟩ := map_eq_ok houtcome
  exact proper_of_ofBindings (hm.ensureAll v.names) hliterals

end Literals

namespace Clauses

open Literals (Proper)

variable {l : Clauses} {c : Clause} {m : Numbering}

theorem proper_of_toClauses {form : NormalForm} {e : Expression} (hm : m.Fits)
    (h : e.toClauses form m = .ok l) (hc : c ∈ l.toList) : Proper c := by
  refine ⟨?_, fun k hk => ?_⟩
  · rw [Expression.toClauses_eq, Faults.barring_eq_ok_iff] at h
    obtain ⟨-, rfl⟩ := h
    obtain ⟨clause, -, hclause⟩ := List.mem_filterMap.mp hc
    unfold Expression.clauseOf? at hclause
    split at hclause
    · contradiction
    · obtain rfl := Option.some.inj hclause
      exact Literals.inOrder_arranged _
  · obtain ⟨name, positive, hliteral⟩ := Expression.literalOf_of_mem_toClauses h hc hk
    exact hm.usable_of_literalOf hliteral

theorem proper_of_mem_toDual (hl : ∀ d ∈ l.toList, Proper d) (hc : c ∈ l.toDual.toList) :
    Proper c :=
  ⟨(clean_of_mem_toDual c hc).increasing.inOrder,
    forall_literals_toDual (fun d hd => (hl d hd).usable) c hc⟩

/-- A supervisor decides whether there is a dual, but not what it is. -/
theorem eq_toDual_of_toDualUnder {σ : Type} {s : Supervisor σ} {state final : σ} {d : Clauses}
    (h : l.toDualUnder s state = .ok (.ok d, final)) : d = l.toDual := by
  rcases hstart : s.start state with breakdown | started
  · rw [toDualUnder, Supervisor.supervise, hstart] at h
    contradiction
  · rw [toDualUnder_of_start l hstart] at h
    obtain ⟨houtcome, -⟩ := Prod.mk.inj (Except.ok.inj h)
    obtain ⟨-, -, hdual⟩ := map_eq_ok houtcome
    exact hdual.symm

end Clauses

/-- A solution goes through the indices in turn. -/
theorem Solution.Solves.proper {s : Solution} {clauses : List Clause} {a : Assignment} {n : Nat}
    (hs : s.Solves clauses a n) (hn : (n : Int) ≤ largestIndex) : Literals.Proper s := by
  constructor
  · have hincreasing : (s.toList.map Int.natAbs).Pairwise (· < ·) := by
      rw [hs.indices]
      exact List.pairwise_lt_range'
    exact (List.pairwise_map.mp hincreasing).imp Or.inl
  · intro l hl
    have hmem : l.natAbs ∈ List.range' 1 n := hs.indices ▸ List.mem_map_of_mem hl
    rw [List.mem_range'_1] at hmem
    exact ⟨by omega, by omega⟩

namespace ModelSearch

open Literals (Proper)

/-- The assumptions of a call. -/
def Call.assumptions : Call → List Assignment
  | add _ => []
  | search a _ _ | count a _ _ => [a]

variable {calls : List Call} {call : Call} {a : Assignment} {s : Solution}

/-- Some call made the assumptions of the last search. -/
theorem LastFound.exists_assumptions (h : LastFound calls a) :
    ∃ call ∈ calls, a ∈ call.assumptions := by
  obtain ⟨before, call, rest, rfl, hfinds, -⟩ := h
  refine ⟨call, by simp, ?_⟩
  cases call with
  | add l => exact hfinds.elim
  | search b monitor state => exact List.mem_singleton.mpr hfinds.1.symm
  | count b monitor state => exact hfinds.elim

theorem Call.indexed_of_proper (hclauses : ∀ c ∈ call.clauses, Proper c)
    (hassumptions : ∀ a ∈ call.assumptions, Proper a) : call.Indexed := by
  cases call with
  | add l => exact fun c hc => (hclauses c hc).indexed
  | search a monitor state => exact (hassumptions a List.mem_cons_self).indexed
  | count a monitor state => exact (hassumptions a List.mem_cons_self).indexed

/-- What the search keeps was found in the range of clauses and assumptions that can be literals. -/
theorem proper_of_solution (hclauses : ∀ call ∈ calls, ∀ c ∈ call.clauses, Proper c)
    (hassumptions : ∀ call ∈ calls, ∀ a ∈ call.assumptions, Proper a)
    (h : (after calls).solution = some s) : Proper s := by
  have hindexed : ∀ call ∈ calls, call.Indexed := fun call hcall =>
    call.indexed_of_proper (hclauses call hcall) (hassumptions call hcall)
  obtain ⟨hvalid, hadded⟩ := valid_after hindexed
  obtain ⟨hkept, hnone⟩ := solution_after hindexed
  have hfound : ∃ a, LastFound calls a := by
    by_contra hnever
    rw [hnone hnever] at h
    contradiction
  obtain ⟨a, ha⟩ := hfound
  obtain ⟨solution, hsolution, hsolves⟩ := hkept a ha
  obtain rfl : s = solution := Option.some.inj (h.symm.trans hsolution)
  have hbound : (after calls).range a ≤ largestIndex.toNat := by
    rw [range_le_iff, hvalid.maxIndex_eq, Clauses.maxIndex_le_iff, hadded]
    constructor
    · intro c hc l hl
      obtain ⟨call, hcall, hmem⟩ := List.mem_flatMap.mp hc
      exact Int.le_toNat (by decide) |>.mpr ((hclauses call hcall c hmem).usable l hl).2
    · intro l hl
      obtain ⟨call, hcall, hmem⟩ := ha.exists_assumptions
      exact Int.le_toNat (by decide) |>.mpr ((hassumptions call hcall a hmem).usable l hl).2
  exact hsolves.proper ((Int.le_toNat (by decide)).mp hbound)

end ModelSearch

namespace Literals

/-- The collections of literals that the operations make, of integers, of other collections, of
bindings, of formulas and of files. -/
inductive Made : {o : LiteralOrder} → Literals o → Prop where
  | ofList? {o : LiteralOrder} {ls : List Int} {c : Literals o}
      (h : Literals.ofList? ls = .ok c) : Made c
  | negate {o : LiteralOrder} {c : Literals o} (hc : Made c) : Made c.negate
  | cleaned {o : LiteralOrder} {c d : Literals o} (hc : Made c) (h : c.cleaned? = some d) : Made d
  | renumber {o : LiteralOrder} {c d : Literals o} {source target : Numbering} (hc : Made c)
      (htarget : target.Fits) (h : c.renumber source target = .ok d) : Made d
  | ofBindings {o : LiteralOrder} {v : Bindings} {m : Numbering} {c : Literals o} (hm : m.Fits)
      (h : Literals.ofBindings v m = .ok c) : Made c
  | ofBindingsExtending {o : LiteralOrder} {v : Bindings} {m grown : Numbering} {c : Literals o}
      (hm : m.Fits) (h : Literals.ofBindingsExtending v m = (.ok (.ok c), grown)) : Made c
  | toAssignment {s : Solution} (hs : Made s) : Made s.toAssignment
  | toClauses {form : NormalForm} {e : Expression} {m : Numbering} {l : Clauses} {c : Clause}
      (hm : m.Fits) (h : e.toClauses form m = .ok l) (hc : c ∈ l.toList) : Made c
  | toDual {l : Clauses} {c : Clause} (hl : ∀ d ∈ l.toList, Made d) (hc : c ∈ l.toDual.toList) :
      Made c
  | toDualUnder {σ : Type} {s : Supervisor σ} {state final : σ} {l d : Clauses} {c : Clause}
      (hl : ∀ d ∈ l.toList, Made d) (h : l.toDualUnder s state = .ok (.ok d, final))
      (hc : c ∈ d.toList) : Made c
  | read {file : ByteArray} {e : Encoding} {c : Clause} (h : Dimacs.read file = .ok e)
      (hc : c ∈ e.clauses.toList) : Made c
  | solution {calls : List ModelSearch.Call} {s : Solution}
      (hclauses : ∀ call ∈ calls, ∀ c ∈ call.clauses, Made c)
      (hassumptions : ∀ call ∈ calls, ∀ a ∈ call.assumptions, Made a)
      (h : (ModelSearch.after calls).solution = some s) : Made s

/-- Every operation keeps the literals in order and lets in none that can not be one. -/
theorem Made.proper {o : LiteralOrder} {c : Literals o} (hc : c.Made) : c.Proper := by
  induction hc with
  | ofList? h => exact proper_of_ofList? h
  | negate _ ih => exact ih.negate
  | cleaned _ h ih => exact ih.cleaned h
  | renumber _ htarget h _ => exact proper_of_renumber htarget h
  | ofBindings hm h => exact proper_of_ofBindings hm h
  | ofBindingsExtending hm h => exact proper_of_ofBindingsExtending hm h
  | toAssignment _ ih => exact ⟨List.pairwise_of_forall fun _ _ => trivial, ih.usable⟩
  | toClauses hm h hc => exact Clauses.proper_of_toClauses hm h hc
  | toDual _ hc ih => exact Clauses.proper_of_mem_toDual ih hc
  | toDualUnder _ h hc ih =>
      rw [Clauses.eq_toDual_of_toDualUnder h] at hc
      exact Clauses.proper_of_mem_toDual ih hc
  | read h hc => exact Clause.valid_iff_proper.mp ((Dimacs.readable_of_read h).1.clauses _ hc)
  | solution _ _ h hclauses hassumptions =>
      exact ModelSearch.proper_of_solution hclauses hassumptions h

/-- A collection that the operations make has its literals in order, clauses by value and solutions
by index and then by sign, and all of them can be literals.  So every search by halving agrees with
looking at all literals in turn; and a solution that has no index in both signs gives each index the
sign of its literal. -/
theorem lookup_spec :
    (∀ (o : LiteralOrder) (c : Literals o), c.Made →
      c.toList.Pairwise o.Precedes ∧
        (∀ l ∈ c.toList, Usable l) ∧
        (∀ l, (c.indexOf? l).isSome = true ↔ l ∈ c.toList) ∧
        (∀ l p, c.indexOf? l = some p → c.toList[p]? = some l) ∧
        (∀ l, c.contains l = true ↔ l ∈ c.toList) ∧
        (∀ ls, c.containsAll ls = true ↔ ∀ l ∈ ls, l ∈ c.toList) ∧
        (∀ ls, c.containsAny ls = true ↔ ∃ l ∈ ls, l ∈ c.toList) ∧
        ∀ i, c.containsIndex i = true ↔ i ∈ c.toList ∨ -i ∈ c.toList) ∧
      ∀ s : Solution, s.Made → (∀ l ∈ s.toList, -l ∉ s.toList) → ∀ i,
        s.valueOf? i =
          if (i.natAbs : Int) ∈ s.toList then some true
          else if -(i.natAbs : Int) ∈ s.toList then some false
          else none := by
  constructor
  · intro o c hc
    have hordered := hc.proper.inOrder
    exact ⟨hordered, hc.proper.usable, fun l => hordered.isSome_indexOf?_iff,
      fun l p => getElem?_of_indexOf?, fun l => hordered.contains_iff,
      fun ls => hordered.containsAll_iff, fun ls => hordered.containsAny_iff,
      fun i => hordered.containsIndex_iff⟩
  · intro s hs hkept i
    exact Solution.valueOf?_eq hs.proper.inOrder (fun l hl => (hs.proper.usable l hl).1) hkept

namespace MadeCollectionsWitness

/-- A clause with a repeated literal. -/
def clause : Clause := ⟨#[-2, 3, 3]⟩

/-- A numbering that leaves out an index. -/
def numbering : Numbering := .after [.insert "d" 4, .insert "b" 2, .insert "a" 1]

/-- Truth values for its names. -/
def bound : Bindings := ⟨[("d", .truth true), ("a", .truth true), ("b", .truth false)]⟩

/-- The solution that these truth values are. -/
def solution : Solution := ⟨#[1, -2, 4]⟩

theorem made_clause : clause.Made := by
  have hperm : [3, -2, 3].Perm [(-2 : Int), 3, 3] := by decide
  have hsorted : (arranged [3, -2, 3] : Clause) = clause := arranged_eq_mk nofun hperm (by decide)
  exact .ofList? (ofList?_eq_ok_iff.mpr ⟨by decide, hsorted.symm⟩)

theorem made_solution : solution.Made := by
  have hfits : numbering.Fits := by
    refine Numbering.fits_after fun name i h => ?_
    simp only [List.mem_cons, List.not_mem_nil, or_false, Numbering.Change.insert.injEq] at h
    rcases h with ⟨-, rfl⟩ | ⟨-, rfl⟩ | ⟨-, rfl⟩ <;> decide
  have hperm : [4, 1, -2].Perm [(1 : Int), -2, 4] := by decide
  have hsorted : (arranged [4, 1, -2] : Solution) = solution :=
    arranged_eq_mk nofun hperm (by decide)
  have hliterals : ofBindings bound numbering = .ok (arranged [4, 1, -2] : Solution) := rfl
  exact .ofBindings hfits (hliterals.trans (congrArg _ hsorted))

theorem lookup_spec_sample :
    (clause.negate.Made ∧ solution.Made ∧ ∀ l ∈ solution.toList, -l ∉ solution.toList) ∧
      clause.negate = ⟨#[-3, -3, 2]⟩ ∧
      clause.negate.toList.Pairwise (· ≤ ·) ∧
      clause.negate.contains (-3) = true ∧
      clause.negate.contains 3 = false ∧
      solution.valueOf? 4 = some true ∧
      solution.valueOf? 2 = some false ∧
      solution.valueOf? 3 = none := by
  have hmade : clause.negate.Made := made_clause.negate
  have hnegated : clause.negate = ⟨#[-3, -3, 2]⟩ := by decide +kernel
  have hkept : ∀ l ∈ solution.toList, -l ∉ solution.toList := by decide
  obtain ⟨hordered, -, -, -, hcontains, -⟩ := lookup_spec.1 _ _ hmade
  have hvalue := lookup_spec.2 solution made_solution hkept
  refine ⟨⟨hmade, made_solution, hkept⟩, hnegated, hordered, ?_, ?_, ?_, ?_, ?_⟩
  · exact (hcontains (-3)).mpr (by rw [hnegated]; decide)
  · exact Bool.eq_false_iff.mpr (mt (hcontains 3).mp (by rw [hnegated]; decide))
  · exact (hvalue 4).trans (by decide)
  · exact (hvalue 2).trans (by decide)
  · exact (hvalue 3).trans (by decide)

end MadeCollectionsWitness

end Literals

end ClauseForm
