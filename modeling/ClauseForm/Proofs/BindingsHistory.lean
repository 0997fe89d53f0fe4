import ClauseForm.Proofs.IndexedBindings

/-!
The history of bindings.

After insertions and removals the value of a name is that of its last insertion, unless the name was
removed since, and the names stand in the order in which they were last newly added.  `Records` says
so for the history of some bindings; each change preserves it, and bindings of pairs have the history
in which the pairs are inserted one after another.
-/

namespace ClauseForm

namespace Bindings

/-- What can be done to bindings. -/
inductive Change where
  | insert (name : String) (value : Value)
  | erase (name : String)

namespace Change

/-- The name that a change is about. -/
def name : Change → String
  | insert name _ | erase name => name

/-- The value that a change leaves its name with. -/
def value? : Change → Option Value
  | insert _ value => some value
  | erase _ => none

/-- The insertion of a pair. -/
def ofPair (pair : String × Value) : Change := insert pair.1 pair.2

end Change

/-- A change to bindings, with what it returns. -/
def perform (v : Bindings) : Change → Option Value × Bindings
  | .insert name value => v.insert name value
  | .erase name => v.erase name

/-- The bindings after some changes. -/
def performAll (v : Bindings) (changes : List Change) : Bindings :=
  changes.foldl (fun v change => (v.perform change).2) v

/-- The value of the last insertion of a name since its last removal: what the last change to the
name leaves it with. -/
def lastValue (history : List Change) (name : String) : Option Value :=
  (history.reverse.find? fun change => change.name == name).bind Change.value?

/-- The change at a position newly adds a name: it is an insertion, and the name had no value
before. -/
def AddsAt (history : List Change) (name : String) (k : Nat) : Prop :=
  (∃ value, history[k]? = some (.insert name value)) ∧ lastValue (history.take k) name = none

/-- The change at a position is the last one to add a name newly. -/
def LastAddedAt (history : List Change) (name : String) (k : Nat) : Prop :=
  AddsAt history name k ∧ ∀ j, AddsAt history name j → j ≤ k

/-- Some names stand in the order in which they were last newly added. -/
def InAdditionOrder (history : List Change) (names : List String) : Prop :=
  ∃ place : String → Nat, (∀ name ∈ names, LastAddedAt history name (place name)) ∧
    names.Pairwise fun a b => place a < place b

/-- Bindings are what a history leaves: they have the last values, under the names in the order in
which these were last newly added. -/
structure Records (history : List Change) (v : Bindings) : Prop where
  get?_eq : ∀ name, v.get? name = lastValue history name
  ordered : InAdditionOrder history v.names

variable {v : Bindings} {name other : String} {value : Value} {history : List Change}
  {change : Change} {k : Nat} {names : List String} {pairs : List (String × Value)}

theorem lastValue_concat (history : List Change) (change : Change) (name : String) :
    lastValue (history ++ [change]) name =
      if change.name = name then change.value? else lastValue history name := by
  rw [lastValue, List.reverse_concat, List.find?_cons]
  split
  · next h => rw [if_pos (by simpa using h)]; rfl
  · next h => rw [if_neg (by simpa using h)]; rfl

/-! ### One change -/

theorem Valid.get?_erase (hv : v.Valid) (name other : String) :
    (v.erase name).2.get? other = if name = other then none else v.get? other := by
  have entries : ∀ es : List (String × Value), (es.map Prod.fst).Nodup →
      (eraseEntry name es).2.lookup other = if name = other then none else es.lookup other := by
    intro es hes
    induction es with
    | nil => grind [eraseEntry]
    | cons e es ih =>
        obtain ⟨hnew, hrest⟩ := List.nodup_cons.mp hes
        have habsent : es.lookup e.1 = none := by
          rw [List.lookup_eq_none_iff]
          intro entry hentry
          have hdiffer := ne_of_mem_of_not_mem (List.mem_map_of_mem hentry) hnew
          simpa using hdiffer.symm
        by_cases h : e.1 = name <;> grind [eraseEntry]
  exact entries v.toList hv

/-- A change decides the value of its name and of no other. -/
theorem Valid.get?_perform (hv : v.Valid) (change : Change) (other : String) :
    (v.perform change).2.get? other =
      if change.name = other then change.value? else v.get? other := by
  cases change with
  | insert name value =>
      rw [perform, get?_insert]
      simp only [eq_comm, Change.name, Change.value?]
  | erase name => exact hv.get?_erase name other

theorem insert_of_get? (h : v.get? name = some value) : (v.insert name value).2 = v := by
  have entries : ∀ es : List (String × Value), es.lookup name = some value →
      (insertEntry name value es).2 = es := by
    intro es
    induction es with
    | nil => nofun
    | cons e es ih => by_cases h : e.1 = name <;> grind [insertEntry]
  exact congrArg Bindings.mk (entries v.toList h)

/-! ### The positions of additions -/

theorem AddsAt.lt_length (h : AddsAt history name k) : k < history.length := by
  obtain ⟨⟨value, hinsert⟩, -⟩ := h
  exact (List.getElem?_eq_some_iff.mp hinsert).1

/-- One more change does not touch the additions before it. -/
theorem addsAt_concat_iff :
    AddsAt (history ++ [change]) name k ↔
      AddsAt history name k ∨
        k = history.length ∧ (∃ value, change = .insert name value) ∧
          lastValue history name = none := by
  rcases Nat.lt_trichotomy k history.length with hless | rfl | hmore
  · rw [AddsAt, List.getElem?_append_left hless, List.take_append_of_le_length hless.le, AddsAt]
    exact ⟨Or.inl, fun h => h.resolve_right fun hlast => Nat.ne_of_lt hless hlast.1⟩
  · rw [AddsAt, List.getElem?_concat_length, List.take_left]
    simp only [Option.some.injEq, true_and]
    exact ⟨Or.inr, fun h => h.resolve_left fun hold => Nat.lt_irrefl _ hold.lt_length⟩
  · refine iff_of_false (fun h => ?_) ?_
    · have hbound := h.lt_length
      rw [List.length_append, List.length_singleton] at hbound
      omega
    · rintro (h | ⟨rfl, -⟩)
      · exact Nat.lt_asymm hmore h.lt_length
      · exact Nat.lt_irrefl _ hmore

/-- A name with a value is not added newly. -/
theorem LastAddedAt.concat (h : LastAddedAt history name k) (hold : lastValue history name ≠ none)
    (change : Change) : LastAddedAt (history ++ [change]) name k := by
  refine ⟨addsAt_concat_iff.mpr (Or.inl h.1), fun j hj => ?_⟩
  rcases addsAt_concat_iff.mp hj with hj | ⟨-, -, hnone⟩
  · exact h.2 j hj
  · exact absurd hnone hold

theorem lastAddedAt_concat_self (hnew : lastValue history name = none) (value : Value) :
    LastAddedAt (history ++ [.insert name value]) name history.length := by
  refine ⟨addsAt_concat_iff.mpr (Or.inr ⟨rfl, ⟨value, rfl⟩, hnew⟩), fun j hj => ?_⟩
  have hbound := hj.lt_length
  rw [List.length_append, List.length_singleton] at hbound
  omega

theorem InAdditionOrder.nodup (h : InAdditionOrder history names) : names.Nodup := by
  obtain ⟨place, -, hordered⟩ := h
  exact hordered.imp fun hless hequal => Nat.ne_of_lt hless (congrArg place hequal)

theorem InAdditionOrder.sublist (h : InAdditionOrder history names) {others : List String}
    (hsub : others.Sublist names) : InAdditionOrder history others := by
  obtain ⟨place, hplace, hordered⟩ := h
  exact ⟨place, fun name hname => hplace name (hsub.subset hname), hordered.sublist hsub⟩

theorem InAdditionOrder.concat (h : InAdditionOrder history names)
    (hold : ∀ name ∈ names, lastValue history name ≠ none) (change : Change) :
    InAdditionOrder (history ++ [change]) names := by
  obtain ⟨place, hplace, hordered⟩ := h
  exact ⟨place, fun name hname => (hplace name hname).concat (hold name hname) change, hordered⟩

/-- A new name comes behind all others, since its addition comes after all of theirs. -/
theorem InAdditionOrder.concat_new (h : InAdditionOrder history names)
    (hold : ∀ name ∈ names, lastValue history name ≠ none) (hnew : lastValue history name = none)
    (value : Value) : InAdditionOrder (history ++ [.insert name value]) (names ++ [name]) := by
  obtain ⟨place, hplace, hordered⟩ := h.concat hold (.insert name value)
  have hless : ∀ other ∈ names, place other < history.length := by
    intro other hother
    rcases addsAt_concat_iff.mp (hplace other hother).1 with hadds | ⟨-, ⟨_, hinsert⟩, -⟩
    · exact hadds.lt_length
    · obtain ⟨rfl, -⟩ := Change.insert.inj hinsert
      exact absurd hnew (hold _ hother)
  have hdiffer : ∀ other ∈ names, other ≠ name := fun other hother hequal =>
    hold other hother (hequal ▸ hnew)
  refine ⟨Function.update place name history.length, ?_, ?_⟩
  · rw [List.forall_mem_append, List.forall_mem_singleton, Function.update_self]
    refine ⟨fun other hother => ?_, lastAddedAt_concat_self hnew value⟩
    rw [Function.update_of_ne (hdiffer other hother)]
    exact hplace other hother
  · refine List.pairwise_append.mpr ⟨?_, List.pairwise_singleton _ _, ?_⟩
    · refine hordered.imp_of_mem fun ha hb hplaces => ?_
      rwa [Function.update_of_ne (hdiffer _ ha), Function.update_of_ne (hdiffer _ hb)]
    · intro other hother last hlast
      rw [List.mem_singleton.mp hlast, Function.update_self,
        Function.update_of_ne (hdiffer other hother)]
      exact hless other hother

/-! ### Histories -/

theorem Records.valid (h : Records history v) : v.Valid := h.ordered.nodup

theorem Records.mem_names_iff (h : Records history v) :
    name ∈ v.names ↔ lastValue history name ≠ none := by
  rw [← h.get?_eq, ne_eq, get?_eq_none_iff, not_not]

theorem records_empty : Records [] empty :=
  ⟨fun _ => rfl, fun _ => 0, fun _ hname => absurd hname List.not_mem_nil, .nil⟩

/-- Every change leaves what its history says. -/
theorem Records.perform (h : Records history v) (change : Change) :
    Records (history ++ [change]) (v.perform change).2 := by
  have hold : ∀ name ∈ v.names, lastValue history name ≠ none := fun name => h.mem_names_iff.mp
  refine ⟨fun name => ?_, ?_⟩
  · rw [h.valid.get?_perform, lastValue_concat, h.get?_eq]
  cases change with
  | erase name =>
      have hsub : (v.erase name).2.names.Sublist v.names := by
        rw [names_erase]
        exact List.erase_sublist
      exact (h.ordered.concat hold _).sublist hsub
  | insert name value =>
      rw [Bindings.perform, names_insert]
      split
      · exact h.ordered.concat hold _
      · next hname =>
          exact h.ordered.concat_new hold (not_not.mp (mt h.mem_names_iff.mpr hname)) value

theorem Records.performAll (h : Records history v) (changes : List Change) :
    Records (history ++ changes) (v.performAll changes) := by
  induction changes generalizing history v with
  | nil => rwa [List.append_nil]
  | cons change changes ih =>
      rw [List.append_cons]
      exact ih (h.perform change)

/-- Pairs without a clash are bound as if they were inserted one after another. -/
theorem records_eraseDups (h : clashes pairs = []) :
    Records (pairs.map .ofPair) ⟨pairs.eraseDups⟩ := by
  induction pairs using List.reverseRecOn with
  | nil => exact records_empty
  | append_singleton pairs pair ih =>
      obtain ⟨name, value⟩ := pair
      have hone := clashes_eq_nil_iff.mp h
      have hbefore : clashes pairs = [] := clashes_eq_nil_iff.mpr fun p hp q hq =>
        hone p (List.mem_append_left _ hp) q (List.mem_append_left _ hq)
      have hrecords := ih hbefore
      have hstep := hrecords.perform (.insert name value)
      rw [List.map_append, eraseDups_concat]
      split
      · next hmem =>
          have hfound : (⟨pairs.eraseDups⟩ : Bindings).get? name = some value :=
            hrecords.valid.get?_eq_some_iff.mpr (List.mem_eraseDups.mpr hmem)
          rwa [Bindings.perform, insert_of_get? hfound] at hstep
      · next hmem =>
          have hnew : name ∉ (⟨pairs.eraseDups⟩ : Bindings).names := by
            intro hname
            obtain ⟨p, hp, rfl⟩ := List.mem_map.mp hname
            have hpair := List.mem_eraseDups.mp hp
            have hequal := hone p (List.mem_append_left _ hpair) (p.1, value)
              (List.mem_append_right _ List.mem_cons_self) rfl
            exact hmem (hequal ▸ hpair)
          rwa [Bindings.perform, insert_of_new hnew] at hstep

theorem records_ofPairs (h : ofPairs pairs = .ok v) : Records (pairs.map .ofPair) v := by
  rw [ofPairs_eq, Faults.barring_eq_ok_iff] at h
  obtain ⟨hclean, rfl⟩ := h
  exact records_eraseDups hclean

end Bindings

namespace IndexedBindings

open Bindings (Change lastValue InAdditionOrder Records)

/-- A change to bindings with a table, with what it returns. -/
def perform (v : IndexedBindings) : Change → Option Value × IndexedBindings
  | .insert name value => v.insert name value
  | .erase name => v.erase name

/-- The bindings after some changes. -/
def performAll (v : IndexedBindings) (changes : List Change) : IndexedBindings :=
  changes.foldl (fun v change => (v.perform change).2) v

variable {v w start : IndexedBindings} {pairs : List (String × Value)}

/-- A change is the same without the table. -/
theorem perform_eq (v : IndexedBindings) (change : Change) :
    ((v.perform change).1, (v.perform change).2.toBindings) = v.toBindings.perform change := by
  cases change with
  | insert name value => exact v.insert_eq name value
  | erase name => exact v.erase_eq name

theorem toBindings_performAll (v : IndexedBindings) (changes : List Change) :
    (v.performAll changes).toBindings = v.toBindings.performAll changes := by
  rw [performAll, Bindings.performAll]
  refine (List.foldl_hom toBindings fun v change => ?_).symm
  exact congrArg Prod.snd (v.perform_eq change).symm

theorem ofPairs_eq_ok (h : ofPairs pairs = .ok v) : Bindings.ofPairs pairs = .ok v.toBindings := by
  rw [← ofPairs_eq, h]
  rfl

theorem records_performAll (h : ofPairs pairs = .ok start) (changes : List Change) :
    Records (pairs.map .ofPair ++ changes) (start.performAll changes).toBindings := by
  rw [toBindings_performAll]
  exact (Bindings.records_ofPairs (ofPairs_eq_ok h)).performAll changes

theorem exists_ofPairs_eq_ok_iff :
    (∃ v, ofPairs pairs = .ok v) ↔ ∀ p ∈ pairs, ∀ q ∈ pairs, p.1 = q.1 → p.2 = q.2 := by
  have hmap : (∃ v, ofPairs pairs = .ok v) ↔ ∃ v, Bindings.ofPairs pairs = .ok v := by
    rw [← ofPairs_eq]
    cases ofPairs pairs <;> simp [Except.map]
  have hpair : ∀ p q : String × Value, (p.1 = q.1 → p = q) ↔ (p.1 = q.1 → p.2 = q.2) :=
    fun p q => ⟨fun h hname => congrArg Prod.snd (h hname),
      fun h hname => Prod.ext hname (h hname)⟩
  rw [hmap]
  simp only [Bindings.ofPairs_eq, Faults.barring_eq_ok_iff, Bindings.clashes_eq_nil_iff, hpair,
    exists_and_left, exists_eq', and_true]

theorem toList_of_ofPairs_eq_error {faults : Faults} (h : ofPairs pairs = .error faults) :
    faults.toList = Bindings.clashes pairs := by
  have hwithout : Bindings.ofPairs pairs = .error faults := by
    rw [← ofPairs_eq, h]
    rfl
  have hclashes : Bindings.clashes pairs ≠ [] := by
    intro hnone
    rw [Bindings.ofPairs_eq, hnone] at hwithout
    contradiction
  obtain ⟨found, hfound, hlist⟩ := Faults.exists_barring_eq_error hclashes
    (Bindings.mk pairs.eraseDups)
  rw [Bindings.ofPairs_eq, hfound] at hwithout
  rw [← Except.error.inj hwithout, hlist]

/-- Bindings with a table of places.

Each name occurs once.  A change returns the value that its name had before; a new name comes behind
all others, a name that is given another value keeps its place, and a name that is taken away leaves
no gap.  After any changes to no bindings or to those of some pairs, a name has the value of its last
insertion since its last removal, and the names stand in the order in which they were last newly
added.  Pairs are accepted exactly if no name has two values, and otherwise every pair is reported
that has another value than the first pair of its name.  Bindings are equal exactly if they give the
same values to the same names, and then the same list of entries is hashed. -/
theorem changes_spec :
    (∀ v : IndexedBindings, v.names.Nodup ∧
      (∀ name value, (name, value) ∈ v.toList ↔ v.get? name = some value) ∧
      (∀ name value, (v.insert name value).1 = v.get? name ∧
        (v.insert name value).2.names = if name ∈ v.names then v.names else v.names ++ [name]) ∧
      ∀ name, (v.erase name).1 = v.get? name ∧ (v.erase name).2.names = v.names.erase name) ∧
    ofPairs [] = .ok empty ∧
    (∀ pairs start, ofPairs pairs = .ok start → ∀ changes : List Change,
      (∀ name, (start.performAll changes).get? name =
        lastValue (pairs.map .ofPair ++ changes) name) ∧
      InAdditionOrder (pairs.map .ofPair ++ changes) (start.performAll changes).names) ∧
    (∀ pairs, (∃ v, ofPairs pairs = .ok v) ↔
      ∀ p ∈ pairs, ∀ q ∈ pairs, p.1 = q.1 → p.2 = q.2) ∧
    (∀ pairs faults, ofPairs pairs = .error faults →
      faults.toList = (pairs.filter fun p => pairs.lookup p.1 != some p.2).map fun p =>
        .nameTaken p.1) ∧
    ∀ v w : IndexedBindings, ((v == w) = true ↔ ∀ name, v.get? name = w.get? name) ∧
      ((v == w) = true → v.sorted = w.sorted) := by
  refine ⟨fun v => ⟨v.valid_toBindings, fun name value => ?_,
      fun name value => ⟨v.insert_fst name value, v.names_insert name value⟩,
      fun name => ⟨v.erase_fst name, v.names_erase name⟩⟩,
    rfl, fun pairs start hstart changes => ?_, fun pairs => exists_ofPairs_eq_ok_iff,
    fun pairs faults => toList_of_ofPairs_eq_error, fun v w => ?_⟩
  · rw [get?_eq]
    exact v.valid_toBindings.get?_eq_some_iff.symm
  · have hrecords := records_performAll hstart changes
    exact ⟨fun name => (get?_eq _ name).trans (hrecords.get?_eq name), hrecords.ordered⟩
  · rw [beq_eq, sorted_eq, sorted_eq]
    simp only [get?_eq]
    exact ⟨v.valid_toBindings.beq_iff w.valid_toBindings, fun h =>
      Bindings.sorted_eq_of_perm (v.valid_toBindings.perm_of_beq w.valid_toBindings h)⟩

namespace BindingsHistoryWitness

/-- A pair that is given twice. -/
def sample : List (String × Value) :=
  [("b", .truth true), ("a", .integer 3), ("b", .truth true)]

/-- A new name, a new value, and a name that is taken away and added again. -/
def changes : List Change :=
  [.insert "c" (.truth false), .insert "a" (.integer 4), .erase "b", .insert "b" (.integer 1)]

theorem changes_spec_sample :
    (∀ p ∈ sample, ∀ q ∈ sample, p.1 = q.1 → p.2 = q.2) ∧
      ∃ start, ofPairs sample = .ok start ∧
        (start.performAll changes).get? "a" = some (.integer 4) ∧
        (start.performAll changes).get? "b" = some (.integer 1) ∧
        (start.performAll changes).get? "d" = none ∧
        (start.performAll changes).names = ["a", "c", "b"] := by
  have hsample : ∀ p ∈ sample, ∀ q ∈ sample, p.1 = q.1 → p.2 = q.2 := by decide
  obtain ⟨-, -, hhistory, hpairs, -⟩ := changes_spec
  obtain ⟨start, hstart⟩ := (hpairs sample).mpr hsample
  obtain ⟨hvalue, -⟩ := hhistory sample start hstart changes
  have hwithout : start.toBindings = ⟨sample.eraseDups⟩ := by
    have hstart := ofPairs_eq_ok hstart
    rw [Bindings.ofPairs_eq, Faults.barring_eq_ok_iff] at hstart
    exact hstart.2.symm
  have hnames : (start.performAll changes).names = ["a", "c", "b"] := by
    rw [← names_toBindings, toBindings_performAll, hwithout]
    decide
  refine ⟨hsample, start, hstart, ?_, ?_, ?_, hnames⟩
  · exact (hvalue "a").trans (by decide)
  · exact (hvalue "b").trans (by decide)
  · exact (hvalue "d").trans (by decide)

end BindingsHistoryWitness

end IndexedBindings

end ClauseForm
