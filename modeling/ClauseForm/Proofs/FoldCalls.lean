import ClauseForm.Expression.Fold
import ClauseForm.Proofs.Places

/-!
What a fold does with its visitor and with its stacks.

A computation that calls a visitor is described by the calls that it makes, each with the node and
its address, what was passed, and what came of it (`Makes`).  Such descriptions are put together as
the computations are, so the calls of a fold follow from the fold by recursion, for any visitor with
a state and failures.  The stacks are described by what is always left on them (`Stacks.Suffice`).
`foldM_calls` states both, and that the listing of the nodes from the root down is complete.
-/

namespace ClauseForm

namespace Expression

/-! ### The fold by recursion -/

section Recursion

variable {m : Type → Type} [Monad m] {β : Type}

mutual

/-- The fold by recursion on the tree. -/
def recurM (visit : Expression → List β → m β) : Expression → m β
  | node s es => do visit (node s es) (← recursM visit es)

/-- The folds of some operands by recursion, from left to right. -/
def recursM (visit : Expression → List β → m β) : List Expression → m (List β)
  | [] => pure []
  | e :: es => do
    let r ← recurM visit e
    let rs ← recursM visit es
    return r :: rs

end

variable [LawfulMonad m] {visit : Expression → List β → m β}

mutual

/-- The fold with stacks is the fold by recursion. -/
theorem foldM_eq_recurM (e : Expression) : foldM visit e = recurM visit e := by
  cases e with
  | node s es => rw [foldM_node, recurM, mapM_foldM_eq_recursM es]

theorem mapM_foldM_eq_recursM (es : List Expression) :
    es.mapM (foldM visit) = recursM visit es := by
  cases es with
  | nil => rw [recursM, List.mapM_nil]
  | cons e es => rw [recursM, List.mapM_cons, foldM_eq_recurM e, mapM_foldM_eq_recursM es]

end

end Recursion

/-! ### The stacks -/

/-- The stacks that a fold of an expression can come to, whatever its visits give. -/
inductive Reaches {β : Type} (e : Expression) : Stacks β → Prop where
  | start : Reaches e (.start e)
  | enter {s next : Stacks β} : Reaches e s → s.move = .enter next → Reaches e next
  | leave {s rest : Stacks β} {n : Expression} {operands : List β} :
      Reaches e s → s.move = .leave n operands rest → ∀ result, Reaches e (rest.push result)

/-- The results are always enough for what is pending. -/
theorem Reaches.sound {β : Type} {e : Expression} {s : Stacks β} (h : e.Reaches s) : s.Sound := by
  induction h with
  | start => exact Stacks.sound_start e
  | enter _ hmove ih => exact ih.enter hmove
  | leave _ hmove result ih => exact ih.leave hmove result

/-! ### The calls of a visitor -/

section Calls

variable {ε β σ α γ : Type}

/-- A call of a visitor: the node with its address, the results that were passed for its operands,
and what came of it. -/
structure Call (ε β : Type) where
  address : List Nat
  node : Expression
  operands : List β
  outcome : Except ε β

/-- The node that a call is about, with its address. -/
def Call.place (c : Call ε β) : List Nat × Expression := (c.address, c.node)

/-- A call gave a result. -/
def Call.Succeeded (c : Call ε β) : Prop := ∃ r, c.outcome = .ok r

/-- Some calls include one that gave a result for the node at an address. -/
def Gave (calls : List (Call ε β)) (p : List Nat) (r : β) : Prop :=
  ∃ c ∈ calls, c.address = p ∧ c.outcome = .ok r

/-- A call is passed what other calls gave for the operands of its node, in order. -/
structure Call.PassedFrom (calls : List (Call ε β)) (c : Call ε β) : Prop where
  length_eq : c.operands.length = c.node.operands.length
  gave : ∀ i r, c.operands[i]? = some r → Gave calls (c.address ++ [i]) r

/-- Calls of a visitor one after the other, each in the state in which the one before left it. -/
inductive Calls (visit : Expression → List β → ExceptT ε (StateM σ) β) :
    σ → List (Call ε β) → σ → Prop where
  | nil (s : σ) : Calls visit s [] s
  | cons {c : Call ε β} {cs : List (Call ε β)} {s next last : σ} :
      (visit c.node c.operands).run.run s = (c.outcome, next) → Calls visit next cs last →
      Calls visit s (c :: cs) last

/-- How the calls for listed nodes end: with a result after all nodes were visited, or at the first
call that fails, with its failure. -/
inductive Ended (places : List (List Nat × Expression)) (calls : List (Call ε β))
    (gives : α → Prop) : Except ε α → Prop where
  | ok {a : α} : calls.map Call.place = places → (∀ c ∈ calls, c.Succeeded) → gives a →
      Ended places calls gives (.ok a)
  | error {before : List (Call ε β)} {last : Call ε β} {x : ε} : calls = before ++ [last] →
      calls.map Call.place <+: places → (∀ c ∈ before, c.Succeeded) → last.outcome = .error x →
      Ended places calls gives (.error x)

/-- A computation that calls a visitor for listed nodes, after other calls were made. -/
structure Makes (visit : Expression → List β → ExceptT ε (StateM σ) β) (prior : List (Call ε β))
    (places : List (List Nat × Expression)) (gives : List (Call ε β) → α → Prop)
    (x : ExceptT ε (StateM σ) α) (s : σ) (calls : List (Call ε β)) : Prop where
  performed : Calls visit s calls (x.run.run s).2
  passed : ∀ c ∈ calls, c.PassedFrom (prior ++ calls)
  ended : Ended places calls (gives (prior ++ calls)) (x.run.run s).1

variable {visit : Expression → List β → ExceptT ε (StateM σ) β} {s t u : σ}
  {calls others prior : List (Call ε β)} {p : List Nat} {i : Nat} {r : β} {c : Call ε β}
  {places rest : List (List Nat × Expression)}

theorem Calls.append (h : Calls visit s calls t) (hothers : Calls visit t others u) :
    Calls visit s (calls ++ others) u := by
  induction h with
  | nil => exact hothers
  | cons hcall _ ih => exact .cons hcall (ih hothers)

theorem Gave.mono (h : Gave calls p r) (hsub : calls ⊆ others) : Gave others p r := by
  obtain ⟨c, hc, hgave⟩ := h
  exact ⟨c, hsub hc, hgave⟩

theorem Call.PassedFrom.mono (h : c.PassedFrom calls) (hsub : calls ⊆ others) :
    c.PassedFrom others :=
  ⟨h.length_eq, fun i r hr => (h.gave i r hr).mono hsub⟩

/-! ### Computations that call a visitor -/

section Makes

variable {x : ExceptT ε (StateM σ) α} {f : α → ExceptT ε (StateM σ) γ}
  {gives : List (Call ε β) → α → Prop} {gives' : List (Call ε β) → γ → Prop}

theorem makes_pure {a : α} (h : gives prior a) : Makes visit prior [] gives (pure a) s [] where
  performed := .nil s
  passed := fun _ h => absurd h List.not_mem_nil
  ended := .ok rfl (fun _ h => absurd h List.not_mem_nil) (by rwa [List.append_nil])

/-- A computation after another one, which goes on where that one ended with a result. -/
theorem Makes.bind (h : Makes visit prior places gives x s calls)
    (hf : ∀ a t, gives (prior ++ calls) a →
      ∃ others, Makes visit (prior ++ calls) rest gives' (f a) t others) :
    ∃ all, Makes visit prior (places ++ rest) gives' (x >>= f) s all := by
  obtain ⟨hcalls, hpassed, hended⟩ := h
  rcases hrun : x.run.run s with ⟨outcome, next⟩
  rw [hrun] at hcalls hended
  cases hended with
  | @ok a hplaces hsucceeded hgives =>
      have hbind : (x >>= f).run.run s = (f a).run.run next := by
        rw [ExceptT.run_bind, StateT.run_bind, hrun]
        rfl
      obtain ⟨others, hothers, hpassed', hended'⟩ := hf a next hgives
      rw [List.append_assoc] at hpassed' hended'
      refine ⟨calls ++ others, ?_, ?_, ?_⟩
      · rw [hbind]
        exact hcalls.append hothers
      · rw [List.forall_mem_append]
        refine ⟨fun c hc => (hpassed c hc).mono ?_, hpassed'⟩
        rw [← List.append_assoc]
        exact List.subset_append_left ..
      · rw [hbind]
        generalize ((f a).run.run next).1 = outcome at hended'
        cases hended' with
        | ok hplaces' hsucceeded' hgives' =>
            refine .ok ?_ (List.forall_mem_append.mpr ⟨hsucceeded, hsucceeded'⟩) hgives'
            rw [List.map_append, hplaces, hplaces']
        | @error before last y hlast hplaces' hbefore hfailed =>
            have hall : calls ++ others = calls ++ before ++ [last] := by
              rw [hlast, List.append_assoc]
            refine .error hall ?_ (List.forall_mem_append.mpr ⟨hsucceeded, hbefore⟩) hfailed
            · rw [List.map_append, hplaces]
              exact (List.prefix_append_right_inj _).mpr hplaces'
  | @error before last y hlast hplaces hbefore hfailed =>
      have hbind : (x >>= f).run.run s = (.error y, next) := by
        rw [ExceptT.run_bind, StateT.run_bind, hrun]
        rfl
      refine ⟨calls, ?_, hpassed, ?_⟩
      · rw [hbind]
        exact hcalls
      · rw [hbind]
        exact .error hlast (hplaces.trans (List.prefix_append ..)) hbefore hfailed

end Makes

/-! ### The calls of a fold -/

variable (visit)

/-- One call of the visitor. -/
theorem makes_visit {n : Expression} {rs : List β} (hlength : rs.length = n.operands.length)
    (hgave : ∀ i r, rs[i]? = some r → Gave prior (p ++ [i]) r) :
    ∃ c : Call ε β, Makes visit prior [(p, n)] (fun all r => Gave all p r) (visit n rs) s [c] := by
  rcases hrun : (visit n rs).run.run s with ⟨outcome, next⟩
  refine ⟨⟨p, n, rs, outcome⟩, ?_, ?_, ?_⟩
  · rw [hrun]
    exact .cons hrun (.nil next)
  · rw [List.forall_mem_singleton]
    exact ⟨hlength, fun i r hr => (hgave i r hr).mono (List.subset_append_left ..)⟩
  · rw [hrun]
    cases outcome with
    | ok r =>
        refine .ok rfl (List.forall_mem_singleton.mpr ⟨r, rfl⟩) ?_
        exact ⟨_, List.mem_append_right _ (List.mem_singleton_self _), rfl, rfl⟩
    | error x =>
        exact .error (List.nil_append _).symm (List.prefix_refl _)
          (fun _ h => absurd h List.not_mem_nil) rfl

/-- Results that calls gave for some operands of the node at an address, in order. -/
structure GaveAll (p : List Nat) (i : Nat) (es : List Expression) (calls : List (Call ε β))
    (rs : List β) : Prop where
  length_eq : rs.length = es.length
  gave : ∀ j r, rs[j]? = some r → Gave calls (p ++ [i + j]) r

theorem gaveAll_cons {e : Expression} {es : List Expression} {rs : List β}
    (h : Gave calls (p ++ [i]) r) (hrest : GaveAll p (i + 1) es calls rs) :
    GaveAll p i (e :: es) calls (r :: rs) where
  length_eq := by rw [List.length_cons, List.length_cons, hrest.length_eq]
  gave j q hq := by
    cases j with
    | zero => exact Option.some.inj hq ▸ h
    | succ j =>
        have hgave := hrest.gave j q hq
        rwa [Nat.add_assoc, Nat.add_comm 1] at hgave

mutual

/-- A fold by recursion visits the nodes one after the other. -/
theorem makes_recurM (p : List Nat) (prior : List (Call ε β)) (s : σ) (e : Expression) :
    ∃ calls,
      Makes visit prior (e.postOrderAt p) (fun all r => Gave all p r) (recurM visit e) s calls := by
  cases e with
  | node symbol es =>
      obtain ⟨calls, hcalls⟩ := makes_recursM p 0 prior s es
      rw [recurM, postOrderAt]
      refine hcalls.bind fun rs t hgave => ?_
      obtain ⟨c, hc⟩ := makes_visit visit (n := node symbol es) (s := t)
        hgave.length_eq (fun i r hr => by simpa using hgave.gave i r hr)
      exact ⟨[c], hc⟩

theorem makes_recursM (p : List Nat) (i : Nat) (prior : List (Call ε β)) (s : σ)
    (es : List Expression) :
    ∃ calls,
      Makes visit prior (postOrdersAt p i es) (GaveAll p i es) (recursM visit es) s calls := by
  cases es with
  | nil =>
      rw [recursM, postOrdersAt]
      exact ⟨[], makes_pure ⟨rfl, fun j r hr => by simp at hr⟩⟩
  | cons e es =>
      obtain ⟨calls, hcalls⟩ := makes_recurM (p ++ [i]) prior s e
      rw [recursM, postOrdersAt]
      refine hcalls.bind fun r t hgave => ?_
      obtain ⟨others, hothers⟩ := makes_recursM p (i + 1) (prior ++ calls) t es
      rw [← List.append_nil (postOrdersAt p (i + 1) es)]
      refine hothers.bind fun rs u hrest => ⟨[], makes_pure (gaveAll_cons ?_ hrest)⟩
      exact hgave.mono (List.subset_append_left ..)

end

/-- What a fold calls its visitor for: all nodes, or those up to the first failure. -/
theorem exists_calls_foldM (e : Expression) (s : σ) :
    ∃ calls : List (Call ε β), Calls visit s calls ((foldM visit e).run.run s).2 ∧
      (∀ c ∈ calls, c.PassedFrom calls) ∧
      Ended (e.postOrderAt []) calls (Gave calls []) ((foldM visit e).run.run s).1 := by
  obtain ⟨calls, hcalls, hpassed, hended⟩ := makes_recurM visit [] [] s e
  rw [foldM_eq_recurM]
  exact ⟨calls, hcalls, hpassed, hended⟩

end Calls

/-- The fold with stacks is the fold by recursion, in any monad.  A visitor with a state and
failures is called for the nodes in the order that has operands first, once for each, with the
results for its operands, up to the first failure, which is the result.  The stacks hold enough
results for each visit, and one result at the end.  The nodes are listed from the root down, each
once. -/
theorem foldM_calls :
    (∀ (m : Type → Type) [Monad m] [LawfulMonad m] (β : Type) (visit : Expression → List β → m β)
      (e : Expression), foldM visit e = recurM visit e) ∧
    (∀ (ε β σ : Type) (visit : Expression → List β → ExceptT ε (StateM σ) β) (e : Expression)
      (s : σ), ∃ calls : List (Call ε β), Calls visit s calls ((foldM visit e).run.run s).2 ∧
        (∀ c ∈ calls, c.PassedFrom calls) ∧
        Ended (e.postOrderAt []) calls (Gave calls []) ((foldM visit e).run.run s).1) ∧
    (∀ (β : Type) (e : Expression) (s : Stacks β), e.Reaches s →
      s.move ≠ .stuck ∧
      (∀ n pending, s.pending = .leave n :: pending → n.operands.length ≤ s.results.length) ∧
      (s.pending = [] → ∃ result, s.results = [result])) ∧
    ∀ e : Expression, e.ListsNodes (e.postOrderAt []) ∧ e.ListsNodes (e.preOrderAt []) ∧
      e.preOrder = (e.preOrderAt []).map Prod.snd := by
  refine ⟨fun m _ _ β visit e => foldM_eq_recurM e,
    fun ε β σ visit e s => exists_calls_foldM visit e s,
    fun β e s hs => ⟨hs.sound.not_stuck, ?_, ?_⟩,
    fun e => ⟨listsNodes_postOrderAt e, listsNodes_preOrderAt e, (map_preOrderAt [] e).symm⟩⟩
  · intro n pending hpending
    have hsound := hs.sound
    rw [Stacks.Sound, hpending] at hsound
    exact hsound.1
  · intro hpending
    have hsound := hs.sound
    rw [Stacks.Sound, hpending] at hsound
    exact List.length_eq_one_iff.mp hsound

namespace FoldWitness

/-- A visitor that counts its calls, adds up the sizes of the operands, and fails at `falsum`. -/
def visit (n : Expression) (sizes : List Nat) : ExceptT String (StateM Nat) Nat := do
  modify (· + 1)
  if n.symbol = .falsum then throw "falsum" else return sizes.foldl (· + ·) 1

/-- A conjunction with four nodes. -/
def whole : Expression := node .and [truth true, node .not [truth true]]

/-- A conjunction whose second operand makes the visitor fail. -/
def broken : Expression := node .and [truth true, truth false, truth true]

theorem foldM_calls_sample :
    foldM visit whole = recurM visit whole ∧
      (∃ calls : List (Call String Nat), Calls visit 0 calls 4 ∧
        Ended (whole.postOrderAt []) calls (Gave calls []) (.ok 4)) ∧
      (∃ calls : List (Call String Nat), Calls visit 0 calls 2 ∧
        Ended (broken.postOrderAt []) calls (Gave calls []) (.error "falsum")) ∧
      ∀ s : Stacks Nat, whole.Reaches s → s.move ≠ .stuck := by
  obtain ⟨hrecur, hcalls, hstacks, -⟩ := foldM_calls
  have hwhole : (foldM visit whole).run.run 0 = (.ok 4, 4) := by
    rw [hrecur]
    rfl
  have hbroken : (foldM visit broken).run.run 0 = (.error "falsum", 2) := by
    rw [hrecur]
    rfl
  refine ⟨hrecur _ _ _ _, ?_, ?_, fun s hs => (hstacks _ _ s hs).1⟩
  · obtain ⟨calls, hmade, -, hended⟩ := hcalls _ _ _ visit whole 0
    rw [hwhole] at hmade hended
    exact ⟨calls, hmade, hended⟩
  · obtain ⟨calls, hmade, -, hended⟩ := hcalls _ _ _ visit broken 0
    rw [hbroken] at hmade hended
    exact ⟨calls, hmade, hended⟩

end FoldWitness

end Expression

end ClauseForm
