import ClauseForm.Fault

/-!
Values bound to names, each name once, in the order in which the names were added.

Giving a name another value keeps its place.  The order counts for listings only: two collections
are equal when they give the same names the same values.
-/

namespace ClauseForm

/-- Names with their values, in the order of insertion. -/
structure Bindings where
  toList : List (String × Value)

namespace Bindings

/-- No names at all. -/
def empty : Bindings := ⟨[]⟩

instance : Inhabited Bindings := ⟨empty⟩

/-- The names in order. -/
def names (v : Bindings) : List String := v.toList.map Prod.fst

/-- Each name occurs once. -/
def Valid (v : Bindings) : Prop := v.names.Nodup

/-- The number of names. -/
def size (v : Bindings) : Nat := v.toList.length

/-- The value of a name. -/
def get? (v : Bindings) (name : String) : Option Value := v.toList.lookup name

/-- Changes the value of a name in a list of entries, or appends an entry for it. -/
def insertEntry (name : String) (value : Value) :
    List (String × Value) → Option Value × List (String × Value)
  | [] => (none, [(name, value)])
  | entry :: entries =>
    if entry.1 == name then
      (some entry.2, (name, value) :: entries)
    else
      let (old, entries) := insertEntry name value entries
      (old, entry :: entries)

/-- Gives a name a value, in its old place or behind all others.  The value that it had before comes
with the result. -/
def insert (v : Bindings) (name : String) (value : Value) : Option Value × Bindings :=
  let (old, entries) := insertEntry name value v.toList
  (old, ⟨entries⟩)

/-- Drops the entry of a name from a list of entries. -/
def eraseEntry (name : String) : List (String × Value) → Option Value × List (String × Value)
  | [] => (none, [])
  | entry :: entries =>
    if entry.1 == name then
      (some entry.2, entries)
    else
      let (old, entries) := eraseEntry name entries
      (old, entry :: entries)

/-- Takes a name away.  The value that it had comes with the result. -/
def erase (v : Bindings) (name : String) : Option Value × Bindings :=
  let (old, entries) := eraseEntry name v.toList
  (old, ⟨entries⟩)

/-- Gives a value to those of some names that have none. -/
def complete (v : Bindings) (names : List String) (value : Value) : Bindings :=
  names.foldl (fun v name => if (v.get? name).isSome then v else (v.insert name value).2) v

/-- Adds one pair to those accepted so far, or reports that its name already has another value. -/
def addPair : Bindings × List Fault → String × Value → Bindings × List Fault
  | (v, faults), (name, value) =>
    match v.get? name with
    | none => ((v.insert name value).2, faults)
    | some old => if old == value then (v, faults) else (v, faults ++ [.nameTaken name])

/-- The bindings of some pairs.  A pair may be repeated, but a name must not have two values. -/
def ofPairs (pairs : List (String × Value)) : Except Faults Bindings :=
  let (v, faults) := pairs.foldl addPair (empty, [])
  Faults.barring faults v

/-- Decides whether two collections give the same names the same values. -/
def same (v w : Bindings) : Bool :=
  v.size == w.size && v.toList.all fun (name, value) => w.get? name == some value

instance : BEq Bindings := ⟨same⟩

/-- The order of entries by name, then by value. -/
def entryLe (a b : String × Value) : Bool :=
  if a.1 == b.1 then a.2.le b.2 else decide (a.1 < b.1)

/-- The entries in an order that does not depend on the insertions. -/
def sorted (v : Bindings) : List (String × Value) := v.toList.mergeSort entryLe

instance : Hashable Bindings := ⟨fun v => hash v.sorted⟩

/-- An insertion comes with the value that the name had before. -/
@[simp]
theorem insert_fst (v : Bindings) (name : String) (value : Value) :
    (v.insert name value).1 = v.get? name := by
  have entries : ∀ es : List (String × Value), (insertEntry name value es).1 = es.lookup name := by
    intro es
    induction es with
    | nil => rfl
    | cons e es ih => by_cases h : e.1 = name <;> grind [insertEntry]
  exact entries v.toList

/-- A removal comes with the value that the name had before. -/
@[simp]
theorem erase_fst (v : Bindings) (name : String) : (v.erase name).1 = v.get? name := by
  have entries : ∀ es : List (String × Value), (eraseEntry name es).1 = es.lookup name := by
    intro es
    induction es with
    | nil => rfl
    | cons e es ih => by_cases h : e.1 = name <;> grind [eraseEntry]
  exact entries v.toList

/-- An insertion changes the value of its name only. -/
theorem get?_insert (v : Bindings) (name other : String) (value : Value) :
    (v.insert name value).2.get? other = if other = name then some value else v.get? other := by
  have entries : ∀ es : List (String × Value),
      (insertEntry name value es).2.lookup other =
        if other = name then some value else es.lookup other := by
    intro es
    induction es with
    | nil => grind [insertEntry]
    | cons e es ih => by_cases h : e.1 = name <;> grind [insertEntry]
  exact entries v.toList

/-- An insertion keeps the place of its name; a new name is the last. -/
theorem names_insert (v : Bindings) (name : String) (value : Value) :
    (v.insert name value).2.names = if name ∈ v.names then v.names else v.names ++ [name] := by
  have entries : ∀ es : List (String × Value),
      (insertEntry name value es).2.map Prod.fst =
        if name ∈ es.map Prod.fst then es.map Prod.fst else es.map Prod.fst ++ [name] := by
    intro es
    induction es with
    | nil => rfl
    | cons e es ih => by_cases h : e.1 = name <;> grind [insertEntry]
  exact entries v.toList

/-- A removal closes the gap that its name leaves. -/
theorem names_erase (v : Bindings) (name : String) :
    (v.erase name).2.names = v.names.erase name := by
  have entries : ∀ es : List (String × Value),
      (eraseEntry name es).2.map Prod.fst = (es.map Prod.fst).erase name := by
    intro es
    induction es with
    | nil => rfl
    | cons e es ih => by_cases h : e.1 = name <;> grind [eraseEntry]
  exact entries v.toList

end Bindings

end ClauseForm
