import ClauseForm.Expression.Evaluation
import ClauseForm.File.Dimacs
import ClauseForm.File.Formula
import ClauseForm.Job.Cache
import ClauseForm.ModelSearch
import ClauseForm.Proofs.CacheHistory
import ClauseForm.Proofs.CountPolls
import ClauseForm.Proofs.Decision
import ClauseForm.Proofs.DimacsRoundTrip
import ClauseForm.Proofs.Distribution
import ClauseForm.Proofs.ExpansionLimits
import ClauseForm.Proofs.FormulaFiles
import ClauseForm.Proofs.GrammarOutcome
import ClauseForm.Proofs.ModelCount
import ClauseForm.Proofs.MonitoredJobs
import ClauseForm.Proofs.NamingRoundTrip
import ClauseForm.Proofs.NegationValue
import ClauseForm.Numbering.Tables
import ClauseForm.Proofs.TableHistory
import ClauseForm.Proofs.RoundTrip
import ClauseForm.Proofs.TextMeaning
import ClauseForm.Random.Formula
import ClauseForm.Proofs.NegationShape
import ClauseForm.Proofs.NormalShape
import ClauseForm.Proofs.AtomOrder
import ClauseForm.Proofs.Canonical
import ClauseForm.Proofs.DimacsNames
import ClauseForm.Proofs.Duality
import ClauseForm.Proofs.DualReports
import ClauseForm.Proofs.ExtractionOutcome
import ClauseForm.Proofs.Renumbering
import ClauseForm.Bindings.Indexed
import ClauseForm.Proofs.CleanedCollections
import ClauseForm.Proofs.MadeCollections
import ClauseForm.Proofs.NegatedLists
import ClauseForm.Proofs.BindingsHistory
import ClauseForm.Proofs.Chains
import ClauseForm.Proofs.EvaluationOutcome
import ClauseForm.Proofs.ExactArithmetic
import ClauseForm.Proofs.Layout
import ClauseForm.Proofs.DimacsComments
import ClauseForm.Proofs.ExceededLimits
import ClauseForm.Proofs.FoldCalls
import ClauseForm.Proofs.RandomFormulas
import ClauseForm.Proofs.LimitedNumbers
import ClauseForm.Proofs.Outlines
