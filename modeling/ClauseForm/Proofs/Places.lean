import ClauseForm.Expression.PreOrder
import Mathlib.Data.List.Nodup

/-!
The nodes of an expression with their addresses.

An address tells which operand to take at each node on the way down from the root, so it tells equal
subtrees at different places apart.  `mem_postOrderAt` and `nodup_postOrderAt` say that the listing
by recursion, operands first, has every node exactly once.  The listing with the operands last is a
permutation of it, and `map_preOrderAt` says that its nodes are those of `preOrder`.
-/

namespace ClauseForm

namespace Expression

variable {e f n : Expression} {es : List Expression} {p q : List Nat} {i : Nat}

/-- The subtree at an address. -/
def at? (e : Expression) : List Nat → Option Expression
  | [] => some e
  | i :: p => e.operands[i]?.bind fun f => f.at? p

mutual

/-- The nodes below an address, each after its operands, from left to right. -/
def postOrderAt (p : List Nat) : Expression → List (List Nat × Expression)
  | node s es => postOrdersAt p 0 es ++ [(p, node s es)]

/-- The nodes of some operands of the node at an address. -/
def postOrdersAt (p : List Nat) (i : Nat) : List Expression → List (List Nat × Expression)
  | [] => []
  | e :: es => postOrderAt (p ++ [i]) e ++ postOrdersAt p (i + 1) es

end

mutual

/-- The nodes below an address, each before its operands, from left to right. -/
def preOrderAt (p : List Nat) : Expression → List (List Nat × Expression)
  | node s es => (p, node s es) :: preOrdersAt p 0 es

/-- The nodes of some operands of the node at an address. -/
def preOrdersAt (p : List Nat) (i : Nat) : List Expression → List (List Nat × Expression)
  | [] => []
  | e :: es => preOrderAt (p ++ [i]) e ++ preOrdersAt p (i + 1) es

end

mutual

/-- Whether operands are listed first or last makes no difference to which nodes are listed. -/
theorem preOrderAt_perm (p : List Nat) (e : Expression) :
    (e.preOrderAt p).Perm (e.postOrderAt p) := by
  cases e with
  | node s es =>
      rw [preOrderAt, postOrderAt]
      exact ((preOrdersAt_perm p 0 es).cons _).trans (List.perm_append_singleton ..).symm

theorem preOrdersAt_perm (p : List Nat) (i : Nat) (es : List Expression) :
    (preOrdersAt p i es).Perm (postOrdersAt p i es) := by
  cases es with
  | nil => exact .refl _
  | cons e es =>
      rw [preOrdersAt, postOrdersAt]
      exact (preOrderAt_perm (p ++ [i]) e).append (preOrdersAt_perm p (i + 1) es)

end

theorem at?_cons (s : Symbol) (es : List Expression) (i : Nat) (p : List Nat) :
    (node s es).at? (i :: p) = es[i]?.bind fun f => f.at? p := rfl

mutual

/-- The nodes that are listed are those at the addresses below. -/
theorem mem_postOrderAt {p q : List Nat} {n e : Expression} :
    (q, n) ∈ e.postOrderAt p ↔ ∃ r, q = p ++ r ∧ e.at? r = some n := by
  cases e with
  | node s es =>
      rw [postOrderAt, List.mem_append, List.mem_singleton, mem_postOrdersAt]
      constructor
      · rintro (⟨j, r, f, hf, rfl, hr⟩ | h)
        · exact ⟨j :: r, by rw [Nat.zero_add], by rw [at?_cons, hf, Option.bind_some, hr]⟩
        · obtain ⟨rfl, rfl⟩ := Prod.mk.inj h
          exact ⟨[], (List.append_nil _).symm, rfl⟩
      · rintro ⟨r, rfl, hr⟩
        cases r with
        | nil =>
            obtain rfl := Option.some.inj hr
            exact Or.inr (by rw [List.append_nil])
        | cons j r =>
            obtain ⟨f, hf, hr⟩ := Option.bind_eq_some_iff.mp hr
            exact Or.inl ⟨j, r, f, hf, by rw [Nat.zero_add], hr⟩

theorem mem_postOrdersAt {p q : List Nat} {i : Nat} {n : Expression} {es : List Expression} :
    (q, n) ∈ postOrdersAt p i es ↔
      ∃ j r f, es[j]? = some f ∧ q = p ++ (i + j) :: r ∧ f.at? r = some n := by
  cases es with
  | nil => simp [postOrdersAt]
  | cons e es =>
      rw [postOrdersAt, List.mem_append, mem_postOrderAt, mem_postOrdersAt]
      constructor
      · rintro (⟨r, rfl, hr⟩ | ⟨j, r, f, hf, rfl, hr⟩)
        · exact ⟨0, r, e, rfl, List.append_assoc .., hr⟩
        · exact ⟨j + 1, r, f, hf, by rw [Nat.add_assoc, Nat.add_comm 1], hr⟩
      · rintro ⟨j, r, f, hf, rfl, hr⟩
        cases j with
        | zero =>
            obtain rfl := Option.some.inj hf
            exact Or.inl ⟨r, by rw [List.append_assoc, List.singleton_append, Nat.add_zero], hr⟩
        | succ j => exact Or.inr ⟨j, r, f, hf, by rw [Nat.add_assoc, Nat.add_comm 1], hr⟩

end

mutual

/-- No address is listed twice. -/
theorem nodup_postOrderAt (p : List Nat) (e : Expression) :
    ((e.postOrderAt p).map Prod.fst).Nodup := by
  cases e with
  | node s es =>
      rw [postOrderAt, List.map_append, List.map_singleton, List.nodup_append]
      refine ⟨nodup_postOrdersAt p 0 es, List.nodup_singleton _, ?_⟩
      rintro _ hmem _ hroot rfl
      obtain ⟨⟨q, n⟩, hn, rfl⟩ := List.mem_map.mp hmem
      obtain ⟨j, r, f, -, hq, -⟩ := mem_postOrdersAt.mp hn
      obtain rfl : q = p := List.mem_singleton.mp hroot
      rw [List.self_eq_append_right] at hq
      contradiction

theorem nodup_postOrdersAt (p : List Nat) (i : Nat) (es : List Expression) :
    ((postOrdersAt p i es).map Prod.fst).Nodup := by
  cases es with
  | nil => exact List.nodup_nil
  | cons e es =>
      rw [postOrdersAt, List.map_append, List.nodup_append]
      refine ⟨nodup_postOrderAt (p ++ [i]) e, nodup_postOrdersAt p (i + 1) es, ?_⟩
      rintro _ hfirst _ hrest rfl
      obtain ⟨⟨q, n⟩, hn, rfl⟩ := List.mem_map.mp hfirst
      obtain ⟨⟨q', m⟩, hm, hsame⟩ := List.mem_map.mp hrest
      obtain ⟨r, hq, -⟩ := mem_postOrderAt.mp hn
      obtain ⟨j, r', f, -, hq', -⟩ := mem_postOrdersAt.mp hm
      -- The addresses differ in the operand that they take below `p`.
      obtain rfl : q' = q := hsame
      rw [hq, List.append_assoc, List.append_cancel_left_eq, List.singleton_append] at hq'
      have hindex := (List.cons.inj hq').1
      omega

end

mutual

/-- The nodes that are listed before their operands are those of `preOrder`. -/
theorem map_preOrderAt (p : List Nat) (e : Expression) :
    (e.preOrderAt p).map Prod.snd = e.preOrder := by
  cases e with
  | node s es => rw [preOrderAt, List.map_cons, preOrder_node, map_preOrdersAt]

theorem map_preOrdersAt (p : List Nat) (i : Nat) (es : List Expression) :
    (preOrdersAt p i es).map Prod.snd = es.flatMap preOrder := by
  cases es with
  | nil => rfl
  | cons e es =>
      rw [preOrdersAt, List.map_append, map_preOrderAt, map_preOrdersAt, List.flatMap_cons]

end

/-- A listing of the nodes of an expression has every node once, at its address. -/
structure ListsNodes (e : Expression) (places : List (List Nat × Expression)) : Prop where
  nodup : (places.map Prod.fst).Nodup
  mem_iff : ∀ p n, (p, n) ∈ places ↔ e.at? p = some n

theorem listsNodes_postOrderAt (e : Expression) : e.ListsNodes (e.postOrderAt []) where
  nodup := nodup_postOrderAt [] e
  mem_iff p n := by
    rw [mem_postOrderAt]
    exact ⟨fun ⟨r, hr, hn⟩ => hr ▸ hn, fun hn => ⟨p, rfl, hn⟩⟩

theorem listsNodes_preOrderAt (e : Expression) : e.ListsNodes (e.preOrderAt []) where
  nodup := (((preOrderAt_perm [] e).map Prod.fst).nodup_iff).mpr (listsNodes_postOrderAt e).nodup
  mem_iff p n := (preOrderAt_perm [] e).mem_iff.trans ((listsNodes_postOrderAt e).mem_iff p n)

end Expression

end ClauseForm
