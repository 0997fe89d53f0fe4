import ClauseForm.Expression.Contents
import ClauseForm.Fault

/-!
Numbering names: a two-way map between names and positive indices.

New names get the index after the largest one that was ever in use, so an index that was given up is
not handed out again.  Literals are built from indices: the index itself stands for the name, its
negation for the negated name.
-/

namespace ClauseForm

/-- The largest index, which is also the largest number whose negation fits into 32 bits. -/
def largestIndex : Int := 2147483647

/-- Why a name can not get an index. -/
inductive IndexError where
  /-- All indices were in use. -/
  | exhausted
deriving DecidableEq

/-- The message for a lack of indices. -/
def IndexError.message : IndexError → String
  | exhausted => "variable indices exhausted"

/-- Names with their indices, by increasing index, and the largest index that was ever in use. -/
structure Numbering where
  entries : List (Int × String)
  maxIndex : Int
deriving DecidableEq

namespace Numbering

/-- No names at all. -/
def empty : Numbering := ⟨[], 0⟩

instance : Inhabited Numbering := ⟨empty⟩

/-- The indices in increasing order. -/
def indices (m : Numbering) : List Int := m.entries.map Prod.fst

/-- The names in the order of their indices. -/
def names (m : Numbering) : List String := m.entries.map Prod.snd

/-- The number of names. -/
def size (m : Numbering) : Nat := m.entries.length

/-- The index of a name. -/
def indexOf? (m : Numbering) (name : String) : Option Int :=
  (m.entries.find? fun entry => entry.2 == name).map Prod.fst

/-- The name at an index. -/
def nameOf? (m : Numbering) (index : Int) : Option String := m.entries.lookup index

/-- Puts an entry in front of the first one with a larger index. -/
def insertEntry (index : Int) (name : String) : List (Int × String) → List (Int × String)
  | [] => [(index, name)]
  | entry :: entries =>
    if index < entry.1 then (index, name) :: entry :: entries
    else entry :: insertEntry index name entries

/-- Adds an entry with a name and an index that are both new. -/
def place (m : Numbering) (name : String) (index : Int) : Numbering :=
  ⟨insertEntry index name m.entries, max m.maxIndex index⟩

/-- The index of a name, which is a new one if the name had none, and the numbering with that
index. -/
def ensure (m : Numbering) (name : String) : Except IndexError (Int × Numbering) :=
  match m.indexOf? name with
  | some index => .ok (index, m)
  | none =>
    if m.maxIndex < largestIndex then
      .ok (m.maxIndex + 1, m.place name (m.maxIndex + 1))
    else
      .error .exhausted

/-- Ensures indices for some names in turn.  If the indices run out, the names before keep
theirs. -/
def ensureAll (m : Numbering) : List String → Except IndexError Unit × Numbering
  | [] => (.ok (), m)
  | name :: names =>
    match m.ensure name with
    | .error e => (.error e, m)
    | .ok (_, grown) => grown.ensureAll names

/-- Gives a name a certain index.  Neither may already have another partner. -/
def insert (m : Numbering) (name : String) (index : Int) : Except Fault Numbering :=
  if index ≤ 0 then
    .error (.unknownIndex index)
  else
    match m.indexOf? name, m.nameOf? index with
    | some existing, _ => if existing == index then .ok m else .error (.nameTaken name)
    | none, some _ => .error (.indexTaken index)
    | none, none => .ok (m.place name index)

/-- Takes a name away.  The index that it had comes with the result and is not used again. -/
def erase (m : Numbering) (name : String) : Option Int × Numbering :=
  (m.indexOf? name, { m with entries := m.entries.filter fun entry => entry.2 != name })

/-- Numbers names from 1, each at its first occurrence. -/
def ofNames (names : List String) : Numbering :=
  let distinct := names.eraseDups
  ⟨distinct.zipIdx.map fun (name, i) => ((i : Int) + 1, name), distinct.length⟩

/-- Numbers the names for truth values in an expression. -/
def ofExpression (e : Expression) : Numbering := ofNames e.truthNames

/-- The literal of a name. -/
def literalOf (m : Numbering) (name : String) (positive : Bool) : Except Fault Int :=
  match m.indexOf? name with
  | some index => .ok (if positive then index else -index)
  | none => .error (.unknownName name)

/-- The name that a literal is about. -/
def nameOfLiteral? (m : Numbering) (literal : Int) : Option String := m.nameOf? literal.natAbs

end Numbering

end ClauseForm
