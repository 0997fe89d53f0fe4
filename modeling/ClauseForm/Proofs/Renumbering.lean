import ClauseForm.Clauses
import ClauseForm.Proofs.LiteralOrders
import ClauseForm.Proofs.NamingRoundTrip
import ClauseForm.Proofs.NumberingHistory

/-!
From one numbering to another.

A literal and the one that it becomes in another numbering stand for the same name and value, each
in its own numbering, so the two numberings can be exchanged.  `renumber_spec` says what follows for
collections, which are put into order again, and for lists of clauses.
-/

namespace ClauseForm

variable {o : LiteralOrder} {source target : Numbering} {ls ks : List Int} {k l : Int}

theorem map_eq_map_iff_forall₂ {α β γ : Type} {f : α → γ} {g : β → γ} {as : List α} {bs : List β} :
    as.map f = bs.map g ↔ List.Forall₂ (fun a b => f a = g b) as bs := by
  rw [← List.forall₂_eq_eq_eq, List.forall₂_map_left_iff, List.forall₂_map_right_iff]

namespace Literals

/-- Decides whether a literal has a name that has an index in the other numbering. -/
def isShared (source target : Numbering) (l : Int) : Bool :=
  (source.nameOfLiteral? l).any fun name => (target.indexOf? name).isSome

/-- What is reported of a literal that can not be renumbered. -/
def renumberFault (source : Numbering) (l : Int) : Fault :=
  match source.nameOfLiteral? l with
  | none => .unknownIndex l.natAbs
  | some name => .unknownName name

theorem ofResult?_renumberLiteral (source target : Numbering) (l : Int) :
    Faults.ofResult? (renumberLiteral source target l) =
      if isShared source target l then none else some (renumberFault source l) := by
  unfold renumberLiteral isShared renumberFault
  cases source.nameOfLiteral? l with
  | none => rfl
  | some name => exact target.ofResult?_literalOf name _

/-- Collections are renumbered barring the literals that are not shared. -/
theorem renumber_eq (c : Literals o) (source target : Numbering) :
    c.renumber source target =
      Faults.barring
        ((c.toList.filter fun l => !isShared source target l).map (renumberFault source))
        (arranged (c.toList.filterMap fun l => (renumberLiteral source target l).toOption)) := by
  rw [renumber, Faults.collect_map,
    Faults.filterMap_eq_map_filter (ofResult?_renumberLiteral source target), Faults.barring_bind]

/-- A literal is renumbered through its name and value. -/
theorem renumberLiteral_eq_ok_iff (htarget : target.Valid) :
    renumberLiteral source target l = .ok k ↔
      (source.nameOfLiteral? l).isSome ∧ (target.nameOfLiteral? k).isSome ∧
        entryOf source l = entryOf target k := by
  have hthrough : renumberLiteral source target l = binding source l >>= ofBinding target := by
    rw [renumberLiteral, binding]
    cases source.nameOfLiteral? l <;> rfl
  rw [hthrough]
  constructor
  · intro h
    obtain ⟨entry, hentry, hk⟩ := except_bind_eq_ok h
    obtain ⟨hsource, rfl⟩ := binding_eq_ok_iff.mp hentry
    obtain ⟨htarget, hsame⟩ := binding_eq_ok_iff.mp (htarget.ofBinding_eq_ok_iff.mp hk)
    exact ⟨hsource, htarget, hsame.symm⟩
  · rintro ⟨hl, hk, hsame⟩
    rw [binding_of_named hl]
    exact htarget.ofBinding_eq_ok_iff.mpr (binding_eq_ok_iff.mpr ⟨hk, hsame.symm⟩)

theorem map_renumberLiteral_eq_iff (htarget : target.Valid) :
    ls.map (renumberLiteral source target) = ks.map .ok ↔
      Named source ls ∧ Named target ks ∧ ls.map (entryOf source) = ks.map (entryOf target) := by
  induction ls generalizing ks with
  | nil => cases ks <;> simp [Named]
  | cons l ls ih =>
      cases ks with
      | nil => simp
      | cons k ks =>
          simp only [List.map_cons, List.cons.injEq, ih, renumberLiteral_eq_ok_iff htarget, Named,
            List.forall_mem_cons]
          tauto

/-- Literals can be renumbered in whatever order they are given. -/
theorem renumber_arranged (h : ls.map (renumberLiteral source target) = ks.map .ok) :
    (arranged ls : Literals o).renumber source target = .ok (arranged ks) := by
  have hliteral : ∀ l ∈ ls, ∃ k, renumberLiteral source target l = .ok k := by
    intro l hl
    have hmem : renumberLiteral source target l ∈ ks.map .ok := h ▸ List.mem_map_of_mem hl
    obtain ⟨k, -, hk⟩ := List.mem_map.mp hmem
    exact ⟨k, hk.symm⟩
  choose! f hf using hliteral
  have hall : ∀ {js : List Int}, js ⊆ ls →
      js.map (renumberLiteral source target) = (js.map f).map .ok := by
    intro js hjs
    rw [List.map_map]
    exact List.map_congr_left fun l hl => hf l (hjs hl)
  obtain rfl : ks = ls.map f :=
    List.map_injective_iff.mpr (fun _ _ => Except.ok.inj) (h.symm.trans (hall fun _ => id))
  have harranged := Faults.collect_eq_ok_iff.mpr (hall (o.arrange_perm ls).subset)
  rw [renumber, toList_arranged, harranged, arranged, ← o.arrange_map_arrange]
  rfl

/-- A collection says the same in another numbering: it is in order, has the same names with the
same signs as often, becomes the given collection again in its numbering, and gives the same values
to the same names, if it gives any. -/
structure RenumberedTo (source target : Numbering) (c d : Literals o) : Prop where
  inOrder : d.InOrder
  entries_perm : (c.toList.map (entryOf source)).Perm (d.toList.map (entryOf target))
  renumber_eq : d.renumber target source = .ok c
  toBindings_alike :
    Faults.Alike (fun v w => (w == v) = true) (c.toBindings source) (d.toBindings target)

theorem InOrder.renumberedTo (hsource : source.Valid) (htarget : target.Valid) {c d : Literals o}
    (hc : c.InOrder) (h : c.renumber source target = .ok d) : RenumberedTo source target c d := by
  obtain ⟨ks, hks, hd⟩ := except_bind_eq_ok h
  obtain rfl : arranged ks = d := Except.ok.inj hd
  obtain ⟨hls, hks, hentries⟩ :=
    (map_renumberLiteral_eq_iff htarget).mp (Faults.collect_eq_ok_iff.mp hks)
  have hperm : (c.toList.map (entryOf source)).Perm ((o.arrange ks).map (entryOf target)) :=
    hentries ▸ (o.arrange_perm ks).symm.map _
  refine ⟨inOrder_arranged ks, hperm, ?_, ?_⟩
  · rw [renumber_arranged ((map_renumberLiteral_eq_iff hsource).mpr ⟨hks, hls, hentries.symm⟩),
      hc.arranged_toList]
  · rw [toBindings_arranged hks, toBindings, collect_binding hls]
    exact Bindings.alike_ofPairs hperm

end Literals

open Literals

namespace Clauses

theorem renumber_eq (l : Clauses) (source target : Numbering) :
    l.renumber source target =
      Faults.barring
        ((l.literals.filter fun k => !isShared source target k).map (renumberFault source))
        ⟨l.toList.map fun c =>
          arranged (c.toList.filterMap fun k => (renumberLiteral source target k).toOption)⟩ := by
  simp only [renumber, Literals.renumber_eq, Faults.collectAll_map_barring, Faults.barring_bind,
    literals, List.filter_flatMap, List.map_flatMap]

variable {clauses others : Clauses}

theorem forall₂_renumberedTo (hsource : source.Valid) (htarget : target.Valid)
    (hclauses : ∀ c ∈ clauses.toList, c.InOrder) (h : clauses.renumber source target = .ok others) :
    List.Forall₂ (RenumberedTo source target) clauses.toList others.toList := by
  obtain ⟨ds, hds, hothers⟩ := except_bind_eq_ok h
  obtain rfl : Clauses.mk ds = others := Except.ok.inj hothers
  rw [Faults.collectAll_eq_ok_iff, map_eq_map_iff_forall₂] at hds
  exact ((List.forall₂_and_left ..).mpr ⟨hclauses, hds⟩).imp fun c d ⟨hc, hd⟩ =>
    hc.renumberedTo hsource htarget hd

theorem renumber_of_forall₂
    (h : List.Forall₂ (RenumberedTo source target) clauses.toList others.toList) :
    others.renumber target source = .ok clauses := by
  have hback : others.toList.map (fun d => d.renumber target source) = clauses.toList.map .ok :=
    map_eq_map_iff_forall₂.mpr (h.flip.imp fun _ _ hcd => hcd.renumber_eq)
  rw [renumber, Faults.collectAll_eq_ok_iff.mpr hback]
  rfl

theorem toBindings_alike
    (h : List.Forall₂ (RenumberedTo source target) clauses.toList others.toList) :
    Faults.Alike (List.Forall₂ fun v w => (w == v) = true) (clauses.toBindings source)
      (others.toBindings target) := by
  refine Faults.alike_collectAll ?_
  rw [List.forall₂_map_left_iff, List.forall₂_map_right_iff]
  exact h.imp fun _ _ hcd => hcd.toBindings_alike

/-- A collection can be carried over to another numbering exactly if each of its literals has a name
that has an index there.  Otherwise there is one fault for every other literal, in order.  What
comes out says the same in the other numbering, and becomes the given collection again in its own.
The same holds of a list, clause by clause. -/
theorem renumber_spec (hsource : source.Valid) (htarget : target.Valid) :
    (∀ (o : LiteralOrder) (c : Literals o), c.InOrder →
      ((∃ d, c.renumber source target = .ok d) ↔
          ∀ l ∈ c.toList, isShared source target l = true) ∧
        (∀ faults, c.renumber source target = .error faults →
          faults.toList =
            (c.toList.filter fun l => !isShared source target l).map (renumberFault source)) ∧
        ∀ d, c.renumber source target = .ok d → RenumberedTo source target c d) ∧
    ∀ clauses : Clauses, (∀ c ∈ clauses.toList, c.InOrder) →
      ((∃ others, clauses.renumber source target = .ok others) ↔
          ∀ l ∈ clauses.literals, isShared source target l = true) ∧
        (∀ faults, clauses.renumber source target = .error faults →
          faults.toList =
            (clauses.literals.filter fun l => !isShared source target l).map
              (renumberFault source)) ∧
        ∀ others, clauses.renumber source target = .ok others →
          List.Forall₂ (RenumberedTo source target) clauses.toList others.toList ∧
            others.renumber target source = .ok clauses ∧
            Faults.Alike (List.Forall₂ fun v w => (w == v) = true)
              (clauses.toBindings source) (others.toBindings target) := by
  refine ⟨fun o c hc => ⟨?_, ?_, ?_⟩, fun clauses hclauses => ⟨?_, ?_, ?_⟩⟩
  · rw [Literals.renumber_eq]
    exact Faults.exists_barring_eq_ok_iff
  · intro faults h
    rw [Literals.renumber_eq, Faults.barring_eq_error_iff] at h
    exact h.symm
  · exact fun d h => hc.renumberedTo hsource htarget h
  · rw [renumber_eq]
    exact Faults.exists_barring_eq_ok_iff
  · intro faults h
    rw [renumber_eq, Faults.barring_eq_error_iff] at h
    exact h.symm
  · intro others h
    have hall := forall₂_renumberedTo hsource htarget hclauses h
    exact ⟨hall, renumber_of_forall₂ hall, toBindings_alike hall⟩

namespace RenumberingWitness

/-- Three names, the first of which was taken away again. -/
def first : Numbering := .after [.ensure "x", .ensure "a", .ensure "b", .erase "x"]

/-- The same names against their order before, and another one. -/
def second : Numbering := .after [.insert "b" 4, .insert "a" 7, .ensure "c"]

theorem first_valid : first.Valid := (Numbering.remembers_after _).valid

theorem second_valid : second.Valid := (Numbering.remembers_after _).valid

/-- Clauses with a repeated literal and with a contradiction. -/
def sample : Clauses := ⟨[.arranged [2, -3, 2], .arranged [3, -3]]⟩

/-- The same clauses by the other indices. -/
def renumbered : Clauses := ⟨[.arranged [7, -4, 7], .arranged [4, -4]]⟩

/-- Indices without a name and a name without an index, in two clauses. -/
def faulty : Clauses := ⟨[⟨#[-5, 4]⟩, ⟨#[-8, 7, 8]⟩]⟩

theorem renumber_spec_sample :
    (first.Valid ∧ second.Valid ∧ (∀ c ∈ sample.toList, c.InOrder) ∧
        ∀ c ∈ faulty.toList, c.InOrder) ∧
      sample.renumber first second = .ok renumbered ∧
      renumbered.renumber second first = .ok sample ∧
      Faults.Alike (List.Forall₂ fun v w => (w == v) = true)
        (sample.toBindings first) (renumbered.toBindings second) ∧
      (∃ d, (Literals.arranged [3, -2] : Assignment).renumber first second = .ok d ∧
        RenumberedTo first second (.arranged [3, -2]) d) ∧
      ∃ faults, faulty.renumber second first = .error faults ∧
        faults.toList = [.unknownIndex 5, .unknownName "c", .unknownName "c"] := by
  have hsample : ∀ c ∈ sample.toList, c.InOrder := by simp [sample, inOrder_arranged]
  have hfaulty : ∀ c ∈ faulty.toList, c.InOrder := by decide
  have hclauses : sample.toList.map (fun c => c.renumber first second) =
      renumbered.toList.map .ok := by
    have hrepeated : [2, -3, 2].map (renumberLiteral first second) = [7, -4, 7].map .ok := by
      decide +kernel
    have hopposed : [3, -3].map (renumberLiteral first second) = [4, -4].map .ok := by
      decide +kernel
    simp [sample, renumbered, renumber_arranged hrepeated, renumber_arranged hopposed]
  have hrenumbered : sample.renumber first second = .ok renumbered := by
    rw [renumber, Faults.collectAll_eq_ok_iff.mpr hclauses]
    rfl
  obtain ⟨hsingle, hlist⟩ := renumber_spec first_valid second_valid
  obtain ⟨-, hback, halike⟩ := (hlist sample hsample).2.2 renumbered hrenumbered
  refine ⟨⟨first_valid, second_valid, hsample, hfaulty⟩, hrenumbered, hback, halike, ?_, ?_⟩
  · obtain ⟨hok, -, hsame⟩ := hsingle .asGiven (.arranged [3, -2]) (inOrder_arranged _)
    obtain ⟨d, hd⟩ := hok.mpr (by decide +kernel)
    exact ⟨d, hd, hsame d hd⟩
  · obtain ⟨hok, hfaults, -⟩ := (renumber_spec second_valid first_valid).2 faulty hfaulty
    cases h : faulty.renumber second first with
    | ok d => exact absurd (hok.mp ⟨d, h⟩) (by decide +kernel)
    | error faults => exact ⟨faults, rfl, (hfaults faults h).trans (by decide +kernel)⟩

end RenumberingWitness

end Clauses

end ClauseForm
