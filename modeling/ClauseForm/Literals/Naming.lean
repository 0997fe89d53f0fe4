import ClauseForm.Bindings
import ClauseForm.Literals

/-!
Going between literals and names, and from one numbering to another.
-/

namespace ClauseForm.Literals

variable {o : LiteralOrder}

/-- The literal of the same name and sign in another numbering. -/
def renumberLiteral (source target : Numbering) (literal : Int) : Except Fault Int :=
  match source.nameOfLiteral? literal with
  | none => .error (.unknownIndex literal.natAbs)
  | some name => target.literalOf name (decide (0 < literal))

/-- The collection of the same names in another numbering. -/
def renumber (c : Literals o) (source target : Numbering) : Except Faults (Literals o) := do
  return arranged (← Faults.collect (c.toList.map (renumberLiteral source target)))

/-- The name of a literal with the truth value that makes the literal true. -/
def binding (m : Numbering) (literal : Int) : Except Fault (String × Value) :=
  match m.nameOfLiteral? literal with
  | none => .error (.unknownIndex literal.natAbs)
  | some name => .ok (name, .truth (decide (0 < literal)))

/-- The bindings that make all literals true. -/
def toBindings (c : Literals o) (m : Numbering) : Except Faults Bindings := do
  Bindings.ofPairs (← Faults.collect (c.toList.map (binding m)))

/-- The literal that a binding makes true, given the literals of names. -/
def bindingLiteral (literalOf : String → Bool → Except Fault Int) :
    String × Value → Except Fault Int
  | (name, .truth positive) => literalOf name positive
  | (name, .integer i) => .error (.noTruthValue name (.integer i))

/-- The literal that a binding makes true. -/
def ofBinding (m : Numbering) : String × Value → Except Fault Int := bindingLiteral m.literalOf

/-- The literals that bindings make true. -/
def ofBindings (v : Bindings) (m : Numbering) : Except Faults (Literals o) := do
  return arranged (← Faults.collect (v.toList.map (ofBinding m)))

/-- The literals that bindings make true, with new indices for names that have none.  The numbering
grows even if there are faults. -/
def ofBindingsExtending (v : Bindings) (m : Numbering) :
    Except IndexError (Except Faults (Literals o)) × Numbering :=
  let (outcome, grown) := m.ensureAll v.names
  (outcome.map fun _ => ofBindings v grown, grown)

end ClauseForm.Literals
