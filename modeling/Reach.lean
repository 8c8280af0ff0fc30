import Reach.Assoc
import Reach.Comparison
import Reach.Constraint.Basic
import Reach.Constraint.Bounds
import Reach.Constraint.Simplify
import Reach.Decision.Deadline
import Reach.Decision.Procedure
import Reach.Decision.Verdict
import Reach.Definition
import Reach.Digest.Sha256
import Reach.Duration
import Reach.Engine
import Reach.Enumeration
import Reach.Evaluation
import Reach.Failure
import Reach.Fresh
import Reach.Hook
import Reach.Label
import Reach.Matching
import Reach.Numeral
import Reach.Ordered
import Reach.Pairing
import Reach.Proof
import Reach.Proofs.Agreement
import Reach.Proofs.Alternatives
import Reach.Proofs.Arrangement
import Reach.Proofs.Assignment
import Reach.Proofs.Bounds
import Reach.Proofs.Builtins
import Reach.Proofs.Canonical
import Reach.Proofs.Decomposition
import Reach.Proofs.Evaluation
import Reach.Proofs.Freshness
import Reach.Proofs.Interpretation
import Reach.Proofs.Matching
import Reach.Proofs.Pairing
import Reach.Proofs.Satisfaction
import Reach.Proofs.Stability
import Reach.Proofs.Substitution
import Reach.Proofs.Subterm
import Reach.Proofs.Unification
import Reach.Proofs.WellSorted
import Reach.Registry
import Reach.Rule
import Reach.Search
import Reach.Session
import Reach.Signature.Basic
import Reach.Signature.Builtin
import Reach.Signature.Check
import Reach.Sort
import Reach.State
import Reach.Step
import Reach.Store
import Reach.Subst
import Reach.Term.Basic
import Reach.Term.Collection
import Reach.Term.Json
import Reach.Term.Order
import Reach.Term.Parts
import Reach.Term.Printer
import Reach.Term.Total
import Reach.Term.Traversal
import Reach.Term.Value
import Reach.Text.Invisible
import Reach.Text.Quoted
import Reach.Unification
import Reach.Proofs.Completeness
import Reach.Proofs.Execution
import Reach.Proofs.Semantics
import Reach.Proofs.MostGeneral
import Reach.Proofs.Simulation
import Reach.Proofs.Exploration
import Reach.Proofs.Feasibility
import Reach.Proofs.Depth
import Reach.Proofs.Patterns
import Reach.Proofs.Preservation
import Reach.Proofs.Instantiation
import Reach.Proofs.Entailment
import Reach.Proofs.Decision
import Reach.Proofs.Correspondence
import Reach.Proofs.Modes
import Reach.Proofs.Reflexivity
import Reach.Proofs.Symmetry
import Reach.Proofs.Residuals
import Reach.Proofs.Composition
import Reach.Proofs.Dispatch
import Reach.Proofs.Discipline
import Reach.Proofs.Closure
import Reach.Proofs.Successors
import Reach.Proofs.SubjectReduction
import Reach.Proofs.Clearance
import Reach.Proofs.Recording
import Reach.Proofs.Accounting
import Reach.Proofs.Quiet
import Reach.Proofs.Novelty
import Reach.Proofs.Sessions
import Reach.Proofs.Recency
import Reach.Proofs.Indifference
import Reach.Proofs.Reporting
import Reach.Proofs.Groundness
import Reach.Proofs.Resemblance
import Reach.Proofs.Resumption
import Reach.Proofs.Projection
import Reach.Proofs.Rebuilding
import Reach.Proofs.Remainder
import Reach.Proofs.Consultation
import Reach.Proofs.FiniteMap
import Reach.Proofs.Commitment
import Reach.Proofs.Uniqueness
import Reach.Proofs.Reversal
import Reach.Proofs.NormalForms
import Reach.Proofs.Elimination
import Reach.Proofs.Operations
import Reach.Proofs.Injections
import Reach.Proofs.Truncation
import Reach.Proofs.Pool
import Reach.Proofs.Scan
import Reach.Proofs.Computation
import Reach.Proofs.Traces
import Reach.Proofs.Narrowing
import Reach.Proofs.Rewriting
import Reach.Proofs.Targets
import Reach.Proofs.Circularity
import Reach.Proofs.Branches
import Reach.Proofs.Soundness
import Reach.Proofs.Reachability
