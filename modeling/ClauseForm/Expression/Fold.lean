import ClauseForm.Expression

/-!
Folding an expression bottom-up.

A visit sees a node after all of its operands, with their results in order.  `Expression.foldM`
walks the tree with two stacks instead of the call stack, so it takes trees of any depth: one of what
is pending, one of the results so far.  The results are enough for what is pending at any time, so
nothing is cut off that is not there.  `foldM_node` says that this is the fold by recursion on the
tree.
-/

namespace ClauseForm

namespace Expression

/-! ### The stacks -/

/-- What is pending in a fold: to enter a node, before its operands, or to leave it, after them. -/
inductive Task where
  | enter (e : Expression)
  | leave (e : Expression)

/-- The stacks of a fold, each with its top in front: what is pending, and the results of the nodes
that were left and whose owner was not. -/
structure Stacks (β : Type) where
  pending : List Task
  results : List β

/-- What is done next in a fold. -/
inductive Move (β : Type) where
  /-- Nothing is pending, so there is the result. -/
  | done (result : β)
  /-- A node was entered. -/
  | enter (next : Stacks β)
  /-- A node is visited with the results that were cut off for its operands. -/
  | leave (e : Expression) (operands : List β) (rest : Stacks β)
  /-- There are too few results to be cut off or taken. -/
  | stuck

namespace Stacks

variable {β : Type}

/-- The stacks at the start. -/
def start (e : Expression) : Stacks β := ⟨[.enter e], []⟩

/-- The stacks with a further result. -/
def push (s : Stacks β) (result : β) : Stacks β := ⟨s.pending, result :: s.results⟩

/-- Cuts a number of results off a stack and puts them in front of others, in the order in which
they came to the stack. -/
def cut? : Nat → List β → List β → Option (List β × List β)
  | 0, others, results => some (others, results)
  | _ + 1, _, [] => none
  | n + 1, others, result :: results => cut? n (result :: others) results

/-- What is done next.  The operands of a node that is entered come before what was pending, the
first of them on top, and the node is left after them. -/
def move : Stacks β → Move β
  | ⟨[], []⟩ => .stuck
  | ⟨[], result :: _⟩ => .done result
  | ⟨.enter e :: pending, results⟩ =>
    .enter ⟨e.operands.map .enter ++ .leave e :: pending, results⟩
  | ⟨.leave e :: pending, results⟩ =>
    match cut? e.operands.length [] results with
    | none => .stuck
    | some (operands, rest) => .leave e operands ⟨pending, rest⟩

/-- What is cut off stood on top, and it comes back in the order in which it came to the stack. -/
theorem cut?_eq (n : Nat) (others results : List β) :
    cut? n others results =
      if n ≤ results.length then some ((results.take n).reverse ++ others, results.drop n)
      else none := by
  fun_induction cut? n others results with
  | case1 => simp
  | case2 => simp
  | case3 n others result results ih => simp [ih]

/-- What it means to enter a node. -/
theorem move_eq_enter {s next : Stacks β} (h : s.move = .enter next) :
    ∃ e pending, s.pending = .enter e :: pending ∧
      next = ⟨e.operands.map .enter ++ .leave e :: pending, s.results⟩ := by
  unfold move at h
  split at h
  · contradiction
  · contradiction
  · obtain rfl := Move.enter.inj h
    exact ⟨_, _, rfl, rfl⟩
  · split at h <;> contradiction

/-- What it means to leave a node: the results for its operands were the last ones. -/
theorem move_eq_leave {s rest : Stacks β} {e : Expression} {operands : List β}
    (h : s.move = .leave e operands rest) :
    s.pending = .leave e :: rest.pending ∧ operands.length = e.operands.length ∧
      s.results = operands.reverse ++ rest.results := by
  unfold move at h
  split at h
  · contradiction
  · contradiction
  · contradiction
  · next e' pending results =>
    rw [cut?_eq] at h
    by_cases henough : e'.operands.length ≤ results.length
    · rw [if_pos henough] at h
      obtain ⟨rfl, rfl, rfl⟩ := Move.leave.inj h
      refine ⟨rfl, ?_, ?_⟩
      · simp [henough]
      · simp
    · rw [if_neg henough] at h
      contradiction

/-- A node is left with the last results, if there are as many as it has operands. -/
theorem move_leave {e : Expression} {operands : List β} (h : operands.length = e.operands.length)
    (pending : List Task) (results : List β) :
    (Stacks.mk (.leave e :: pending) (operands.reverse ++ results)).move =
      .leave e operands ⟨pending, results⟩ := by
  have hcut : cut? e.operands.length [] (operands.reverse ++ results) =
      some (operands, results) := by
    rw [cut?_eq, ← h, ← List.length_reverse, if_pos (by simp), List.take_left, List.drop_left]
    simp
  simp only [move, hcut]

/-! ### Enough results -/

/-- So many results are enough for what is pending, and one of them is left at the end. -/
def Suffice (count : Nat) : List Task → Prop
  | [] => count = 1
  | .enter _ :: pending => Suffice (count + 1) pending
  | .leave e :: pending =>
    e.operands.length ≤ count ∧ Suffice (count - e.operands.length + 1) pending

/-- Every operand that is entered gives one result. -/
theorem suffice_enter_iff {count : Nat} {es : List Expression} {pending : List Task} :
    Suffice count (es.map .enter ++ pending) ↔ Suffice (count + es.length) pending := by
  induction es generalizing count with
  | nil => rfl
  | cons e es ih =>
    rw [List.map_cons, List.cons_append, Suffice, ih, List.length_cons]
    rw [Nat.add_right_comm, Nat.add_assoc]

/-- The results are enough for what is pending. -/
def Sound (s : Stacks β) : Prop := Suffice s.results.length s.pending

variable {s next rest : Stacks β} {e : Expression} {operands : List β}

theorem sound_start (e : Expression) : (start e : Stacks β).Sound := rfl

theorem Sound.enter (hs : s.Sound) (h : s.move = .enter next) : next.Sound := by
  obtain ⟨e, pending, hpending, rfl⟩ := move_eq_enter h
  rw [Sound, hpending] at hs
  rw [Sound, suffice_enter_iff]
  exact ⟨Nat.le_add_left .., by rwa [Nat.add_sub_cancel]⟩

theorem Sound.leave (hs : s.Sound) (h : s.move = .leave e operands rest) (result : β) :
    (rest.push result).Sound := by
  obtain ⟨hpending, hlength, hresults⟩ := move_eq_leave h
  rw [Sound, hpending, hresults] at hs
  simpa [Sound, push, hlength] using hs.2

theorem Sound.not_stuck (hs : s.Sound) : s.move ≠ .stuck := by
  unfold move
  split
  · contradiction
  · simp
  · simp
  · rw [cut?_eq, if_pos hs.1]
    simp

/-- How much is left to do for what is pending. -/
def Task.weights : List Task → Nat
  | [] => 0
  | .enter e :: pending => 2 * e.size + weights pending
  | .leave _ :: pending => 1 + weights pending

/-- How much is left to do. -/
def weight (s : Stacks β) : Nat := Task.weights s.pending

theorem weights_enters (es : List Expression) (pending : List Task) :
    Task.weights (es.map .enter ++ pending) = 2 * sizes es + Task.weights pending := by
  induction es with
  | nil => simp
  | cons e es ih =>
    rw [List.map_cons, List.cons_append, Task.weights, ih, sizes_cons]
    omega

theorem weight_enter (h : s.move = .enter next) : next.weight < s.weight := by
  obtain ⟨⟨symbol, es⟩, pending, hpending, rfl⟩ := move_eq_enter h
  rw [weight, weight, hpending, operands_node, weights_enters]
  simp only [Task.weights, size]
  omega

theorem weight_leave (h : s.move = .leave e operands rest) (result : β) :
    (rest.push result).weight < s.weight := by
  obtain ⟨hpending, -⟩ := move_eq_leave h
  have hweight : (rest.push result).weight = Task.weights rest.pending := rfl
  rw [hweight, weight, hpending, Task.weights]
  omega

end Stacks

/-! ### The fold -/

/-- Continues a fold from its stacks. -/
@[specialize]
def foldFrom {m : Type → Type} [Monad m] {β : Type} (visit : Expression → List β → m β)
    (s : Stacks β) (hs : s.Sound) : m β :=
  match h : s.move with
  | .done result => pure result
  | .enter next => foldFrom visit next (hs.enter h)
  | .leave e operands rest => do
    let result ← visit e operands
    foldFrom visit (rest.push result) (hs.leave h result)
  | .stuck => absurd h hs.not_stuck
termination_by s.weight
decreasing_by
  · exact Stacks.weight_enter h
  · exact Stacks.weight_leave h result

/-- Visits every node after its operands, from left to right. -/
@[inline]
def foldM {m : Type → Type} [Monad m] {β : Type} (visit : Expression → List β → m β)
    (e : Expression) : m β :=
  foldFrom visit (.start e) (Stacks.sound_start e)

/-- A fold whose visits only compute. -/
@[inline]
def fold {β : Type} (visit : Expression → List β → β) (e : Expression) : β :=
  Id.run (e.foldM fun node results => pure (visit node results))

section Moves

variable {m : Type → Type} [Monad m] {β : Type} {visit : Expression → List β → m β}
  {s next rest : Stacks β} {hs : s.Sound} {e : Expression} {operands : List β} {result : β}

theorem foldFrom_of_done (h : s.move = .done result) : foldFrom visit s hs = pure result := by
  rw [foldFrom]
  split <;> next hmove => cases hmove.symm.trans h <;> rfl

theorem foldFrom_of_enter (h : s.move = .enter next) :
    foldFrom visit s hs = foldFrom visit next (hs.enter h) := by
  rw [foldFrom]
  split <;> next hmove => cases hmove.symm.trans h <;> rfl

theorem foldFrom_of_leave (h : s.move = .leave e operands rest) :
    foldFrom visit s hs =
      visit e operands >>= fun r => foldFrom visit (rest.push r) (hs.leave h r) := by
  rw [foldFrom]
  split <;> next hmove => cases hmove.symm.trans h <;> rfl

theorem foldFrom_congr {t : Stacks β} (h : s = t) :
    foldFrom visit s hs = foldFrom visit t (h ▸ hs) := by
  subst h
  rfl

end Moves

section Lemmas

variable {m : Type → Type} [Monad m] {β : Type}

/-- Entering an expression does not touch what is around it: it only adds a result. -/
private def FoldsApart (visit : Expression → List β → m β) (e : Expression) : Prop :=
  ∀ (pending : List Task) (results : List β) (hs : Stacks.Sound ⟨.enter e :: pending, results⟩),
    foldFrom visit ⟨.enter e :: pending, results⟩ hs =
      foldM visit e >>= fun r => foldFrom visit ⟨pending, r :: results⟩ hs

variable [LawfulMonad m] {visit : Expression → List β → m β}

/-- A node is visited with the results that it has and those of the operands that it waits for. -/
private theorem foldFrom_operands {e : Expression} {pending : List Task} {results : List β}
    (hpending : Stacks.Sound ⟨.enter e :: pending, results⟩) {es : List Expression}
    (operand : ∀ f ∈ es, FoldsApart visit f) (done : List β)
    (hcount : done.length + es.length = e.operands.length)
    (hs : Stacks.Sound ⟨es.map .enter ++ .leave e :: pending, done.reverse ++ results⟩) :
    foldFrom visit ⟨es.map .enter ++ .leave e :: pending, done.reverse ++ results⟩ hs = (do
      let rs ← es.mapM (foldM visit)
      let r ← visit e (done ++ rs)
      foldFrom visit ⟨pending, r :: results⟩ hpending) := by
  induction es generalizing done with
  | nil =>
    refine (foldFrom_of_leave (Stacks.move_leave hcount pending results)).trans ?_
    simp [Stacks.push]
  | cons f es ih =>
    refine (operand f List.mem_cons_self _ _ hs).trans ?_
    rw [List.mapM_cons, bind_assoc]
    congr 1
    funext r
    have hstack : r :: (done.reverse ++ results) = (done ++ [r]).reverse ++ results := by simp
    have hdone : (done ++ [r]).length + es.length = e.operands.length := by
      rw [← hcount]
      simp only [List.length_append, List.length_cons, List.length_nil]
      omega
    refine (foldFrom_congr (congrArg (Stacks.mk _) hstack)).trans
      ((ih (fun g hg => operand g (List.mem_cons_of_mem _ hg)) (done ++ [r]) hdone _).trans ?_)
    simp

/-- A node is entered, and visited with the results of its operands. -/
private theorem foldFrom_node {s : Symbol} {es : List Expression}
    (operand : ∀ f ∈ es, FoldsApart visit f) (pending : List Task) (results : List β)
    (hs : Stacks.Sound ⟨.enter (node s es) :: pending, results⟩) :
    foldFrom visit ⟨.enter (node s es) :: pending, results⟩ hs = (do
      let rs ← es.mapM (foldM visit)
      let r ← visit (node s es) rs
      foldFrom visit ⟨pending, r :: results⟩ hs) :=
  (foldFrom_of_enter rfl).trans (foldFrom_operands hs operand [] (Nat.zero_add _) _)

/-- A fold visits a node with the results of its operands, if these fold apart. -/
private theorem foldM_node_of_operands {s : Symbol} {es : List Expression}
    (operand : ∀ f ∈ es, FoldsApart visit f) :
    foldM visit (node s es) = (do visit (node s es) (← es.mapM (foldM visit))) := by
  refine (foldFrom_node operand [] [] _).trans (bind_congr fun rs => ?_)
  have hdone : ∀ r, foldFrom visit ⟨[], [r]⟩ rfl = pure r := fun r => foldFrom_of_done rfl
  simp [hdone]

private theorem foldsApart (e : Expression) : FoldsApart visit e := by
  match e with
  | node s es =>
    have operand : ∀ f ∈ es, FoldsApart visit f := fun f _ => foldsApart f
    intro pending results hs
    rw [foldFrom_node operand, foldM_node_of_operands operand, bind_assoc]

/-- A fold visits the operands from left to right and then the node with their results. -/
theorem foldM_node (s : Symbol) (es : List Expression) :
    foldM visit (node s es) = (do visit (node s es) (← es.mapM (foldM visit))) :=
  foldM_node_of_operands fun f _ => foldsApart f

/-- A computing fold visits a node with the results of its operands. -/
theorem fold_node {visit : Expression → List β → β} (s : Symbol) (es : List Expression) :
    fold visit (node s es) = visit (node s es) (es.map (fold visit)) := by
  have operands : es.mapM (m := Id) (foldM fun node results => pure (visit node results)) =
      pure (es.map (fold visit)) := by
    induction es with
    | nil => rfl
    | cons e es ih =>
      rw [List.mapM_cons, ih]
      rfl
  rw [fold, foldM_node, operands]
  rfl

end Lemmas

end Expression

end ClauseForm
