import ClauseForm.Literals.Naming
import Std.Data.HashMap
import Std.Data.TreeMap

/-!
Numbering names in two tables.

One table has the index of every name, the other one the name of every index, by increasing index,
and beside them stands the largest index that was ever in use.  A change writes one after the other,
and what it has written stays when it fails: that the tables agree, and that a failed change has
written nothing, are theorems about the changes.
-/

namespace ClauseForm

/-- The indices of names, the names of indices, and the largest index that was ever in use. -/
structure NumberingTables where
  indexTable : Std.HashMap String Int
  nameTable : Std.TreeMap Int String
  maxIndex : Int

namespace NumberingTables

/-- No names at all. -/
def empty : NumberingTables := ⟨∅, ∅, 0⟩

instance : Inhabited NumberingTables := ⟨empty⟩

/-- The index of a name. -/
def indexOf? (t : NumberingTables) (name : String) : Option Int := t.indexTable[name]?

/-- The name at an index. -/
def nameOf? (t : NumberingTables) (index : Int) : Option String := t.nameTable[index]?

/-- The number of names. -/
def size (t : NumberingTables) : Nat := t.indexTable.size

/-- The entries by increasing index, and the largest index. -/
def toNumbering (t : NumberingTables) : Numbering := ⟨t.nameTable.toList, t.maxIndex⟩

/-- The indices in increasing order. -/
def indices (t : NumberingTables) : List Int := t.toNumbering.indices

/-- The names in the order of their indices. -/
def names (t : NumberingTables) : List String := t.toNumbering.names

/-- The literal of a name. -/
def literalOf (t : NumberingTables) (name : String) (positive : Bool) : Except Fault Int :=
  match t.indexOf? name with
  | some index => .ok (if positive then index else -index)
  | none => .error (.unknownName name)

/-- The name that a literal is about. -/
def nameOfLiteral? (t : NumberingTables) (literal : Int) : Option String :=
  t.nameOf? literal.natAbs

/-- Writes the name of an index, and then the index of the name. -/
def write (name : String) (index : Int) : StateM NumberingTables Unit := do
  modify fun t => { t with nameTable := t.nameTable.insert index name }
  modify fun t => { t with indexTable := t.indexTable.insert name index }

/-- The index of a name, which is a new one if the name had none. -/
def ensure (name : String) : ExceptT IndexError (StateM NumberingTables) Int := do
  match (← get).indexOf? name with
  | some index => return index
  | none =>
    let index := (← get).maxIndex + 1
    if largestIndex < index then throw .exhausted
    modify fun t => { t with maxIndex := index }
    write name index
    return index

/-- Gives a name a certain index.  Neither may already have another partner. -/
def insert (name : String) (index : Int) : ExceptT Fault (StateM NumberingTables) Unit := do
  if index ≤ 0 then throw (.unknownIndex index)
  match (← get).indexOf? name, (← get).nameOf? index with
  | some existing, _ => if existing ≠ index then throw (.nameTaken name)
  | none, some _ => throw (.indexTaken index)
  | none, none =>
    modify fun t => { t with maxIndex := max t.maxIndex index }
    write name index

/-- Takes a name away, and then its index.  The index is the result, and it is not used again. -/
def erase (name : String) : StateM NumberingTables (Option Int) := do
  match (← get).indexOf? name with
  | none => return none
  | some index =>
    modify fun t => { t with indexTable := t.indexTable.erase name }
    modify fun t => { t with nameTable := t.nameTable.erase index }
    return some index

/-- Ensures indices for some names in turn. -/
def ensureAll : List String → ExceptT IndexError (StateM NumberingTables) Unit
  | [] => return
  | name :: names => do
    let _ ← ensure name
    ensureAll names

/-- The literals that bindings make true. -/
def ofBindings {o : LiteralOrder} (v : Bindings) (t : NumberingTables) :
    Except Faults (Literals o) := do
  return .arranged (← Faults.collect (v.toList.map (Literals.bindingLiteral t.literalOf)))

/-- The literals that bindings make true, with new indices for names that have none. -/
def ofBindingsExtending {o : LiteralOrder} (v : Bindings) :
    ExceptT IndexError (StateM NumberingTables) (Except Faults (Literals o)) := do
  ensureAll v.names
  return ofBindings v (← get)

/-- Numbers names from 1, each at its first occurrence. -/
def ofNames (names : List String) : Except IndexError Unit × NumberingTables :=
  (ensureAll names).run.run empty

end NumberingTables

end ClauseForm
