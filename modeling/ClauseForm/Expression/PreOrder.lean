import ClauseForm.Expression

/-!
The nodes of an expression from the root down, and the comparison of two trees.

Both keep a stack of subtrees still to visit, with its top in front, so they take trees of any
depth.  `preOrder_node` gives the listing by recursion on the tree, and `same_iff` says that the
comparison decides equality.
-/

namespace ClauseForm

namespace Expression

/-- Appends the nodes of some trees, each before its operands, to the nodes already listed. -/
def preOrderFrom : List Expression → Array Expression → Array Expression
  | [], nodes => nodes
  | node s es :: pending, nodes => preOrderFrom (es ++ pending) (nodes.push (node s es))
termination_by pending => sizes pending
decreasing_by
  simp only [sizes_append, sizes_cons, size]
  omega

/-- All nodes, each before its operands, from left to right. -/
def preOrder (e : Expression) : List Expression := (preOrderFrom [e] #[]).toList

/-- The symbols and operand counts of all nodes from the root down. -/
def outline (e : Expression) : List (Symbol × Nat) :=
  e.preOrder.map fun n => (n.symbol, n.operands.length)

/-- Compares pairs of trees node by node.  The operands of two nodes are paired from the left, so
the last pair is on top. -/
def sameFrom : List (Expression × Expression) → Bool
  | [] => true
  | (node s es, node t fs) :: pending =>
    if s == t && es.length == fs.length then sameFrom ((es.zip fs).reverse ++ pending) else false
termination_by pending => sizes (pending.map Prod.fst)
decreasing_by
  rename_i h
  simp only [Bool.and_eq_true, beq_iff_eq] at h
  simp only [List.map_append, List.map_reverse, List.map_fst_zip (Nat.le_of_eq h.2), List.map_cons,
    sizes_append, sizes_reverse, sizes_cons, size]
  omega

/-- Two expressions are equal if they are the same tree. -/
def same (e f : Expression) : Bool := sameFrom [(e, f)]

instance : BEq Expression := ⟨same⟩

/-- A hasher: what a symbol, and what a number of operands, makes of its state. -/
structure Hasher (σ : Type) where
  takeSymbol : σ → Symbol → σ
  takeCount : σ → Nat → σ

/-- Feeds a hasher with the symbol and the number of operands of each node, from the root down. -/
def feed {σ : Type} (hasher : Hasher σ) (state : σ) (e : Expression) : σ :=
  e.preOrder.foldl
    (fun state n => hasher.takeCount (hasher.takeSymbol state n.symbol) n.operands.length) state

/-- The hasher that mixes all that it takes into one word. -/
def Hasher.mixing : Hasher UInt64 where
  takeSymbol word s := mixHash word (hash s)
  takeCount word n := mixHash word (hash n)

instance : Hashable Expression := ⟨feed .mixing 7⟩

/-- Trees that wait are listed after those before them. -/
private theorem preOrderFrom_eq (pending : List Expression) (nodes : Array Expression) :
    (preOrderFrom pending nodes).toList = nodes.toList ++ (preOrderFrom pending #[]).toList := by
  match pending with
  | [] => simp [preOrderFrom]
  | node s es :: pending =>
    have ih := preOrderFrom_eq (es ++ pending)
    simp only [preOrderFrom]
    rw [ih (nodes.push (node s es)), ih (#[].push (node s es))]
    simp
termination_by sizes pending
decreasing_by
  simp only [sizes_append, sizes_cons, size]
  omega

/-- Waiting trees are listed one after the other. -/
private theorem preOrderFrom_append (es fs : List Expression) :
    (preOrderFrom (es ++ fs) #[]).toList =
      (preOrderFrom es #[]).toList ++ (preOrderFrom fs #[]).toList := by
  match es with
  | [] => simp [preOrderFrom]
  | node s gs :: es =>
    have left := preOrderFrom_append (gs ++ es) fs
    simp only [List.cons_append, preOrderFrom]
    rw [preOrderFrom_eq (gs ++ (es ++ fs)), preOrderFrom_eq (gs ++ es), ← List.append_assoc gs,
      left, List.append_assoc]
termination_by sizes es
decreasing_by
  simp only [sizes_append, sizes_cons, size]
  omega

/-- The nodes of a tree are its root and then the nodes of its operands. -/
theorem preOrder_node (s : Symbol) (es : List Expression) :
    (node s es).preOrder = node s es :: es.flatMap preOrder := by
  have operands : ∀ fs : List Expression, (preOrderFrom fs #[]).toList = fs.flatMap preOrder := by
    intro fs
    induction fs with
    | nil => simp [preOrderFrom]
    | cons f fs ih => rw [← List.singleton_append, preOrderFrom_append, ih]; simp [preOrder]
  simp only [preOrder, preOrderFrom]
  rw [preOrderFrom_eq, List.append_nil, operands]
  simp

/-- Pairs of trees compare as the same if each pair is one tree. -/
theorem sameFrom_iff (pairs : List (Expression × Expression)) :
    sameFrom pairs = true ↔ ∀ p ∈ pairs, p.1 = p.2 := by
  fun_induction sameFrom pairs with
  | case1 => simp
  | case2 s es t fs pending h ih =>
    simp only [Bool.and_eq_true, beq_iff_eq] at h
    have zipped : (∀ p ∈ es.zip fs, p.1 = p.2) ↔ es = fs := by
      constructor
      · intro all
        refine List.ext_getElem h.2 fun i hi hj => ?_
        have inside : i < (es.zip fs).length := by
          rw [List.length_zip]
          omega
        simpa using all _ (List.getElem_mem inside)
      · rintro rfl p hp
        obtain ⟨i, hi, rfl⟩ := List.getElem_of_mem hp
        simp
    simp only [ih, List.forall_mem_append, List.mem_reverse, zipped, List.forall_mem_cons,
      node.injEq, h.1, true_and]
  | case3 s es t fs pending h =>
    simp only [Bool.and_eq_true, beq_iff_eq, not_and] at h
    simp only [Bool.false_eq_true, List.forall_mem_cons, node.injEq, false_iff, not_and]
    rintro ⟨rfl, rfl⟩
    exact absurd rfl (h rfl)

/-- The comparison of two trees decides whether they are equal. -/
theorem same_iff {e f : Expression} : e.same f = true ↔ e = f := by
  simp [same, sameFrom_iff]

instance : LawfulBEq Expression where
  rfl := same_iff.2 rfl
  eq_of_beq := same_iff.1

end Expression

end ClauseForm
