import ClauseForm.Clauses

/-!
Clauses together with names for their indices.
-/

namespace ClauseForm

/-- Clauses and the names of the indices in them. -/
structure Encoding where
  clauses : Clauses
  numbering : Numbering
deriving DecidableEq

end ClauseForm
