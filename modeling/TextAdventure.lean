import TextAdventure.Rule.Inspect
import TextAdventure.Session
import TextAdventure.Proofs.Eval.Steady
import TextAdventure.Proofs.Scene.Enumeration
import TextAdventure.Proofs.Scene.Lookup
import TextAdventure.Proofs.Scene.Completion
import TextAdventure.Proofs.Command.Acceptance
import TextAdventure.Proofs.Scene.Handled
import TextAdventure.Proofs.Store.Resolution
import TextAdventure.Proofs.Store.ReadBack
import TextAdventure.Proofs.Eval.Invariant
import TextAdventure.Proofs.Scene.Invariant
import TextAdventure.Proofs.Eval.Balance
import TextAdventure.Proofs.Eval.Listing
import TextAdventure.Proofs.Scene.Available
import TextAdventure.Proofs.Command.Meaning
import TextAdventure.Proofs.Expr.Grammar
import TextAdventure.Proofs.Expr.Reading
import TextAdventure.Proofs.Expr.Soundness
import TextAdventure.Proofs.Expr.Completeness
import TextAdventure.Proofs.Expr.Depth
import TextAdventure.Proofs.Expr.Parsing
import TextAdventure.Proofs.Store.Locality
import TextAdventure.Proofs.Dispatch.Execution
import TextAdventure.Proofs.Dispatch.Invariant
import TextAdventure.Proofs.Dispatch.Course
import TextAdventure.Proofs.Dispatch.Protocol
import TextAdventure.Proofs.Rule.Progress
import TextAdventure.Proofs.Rule.Stateful
import TextAdventure.Proofs.Rule.Running
import TextAdventure.Proofs.Rule.Cycle
import TextAdventure.Proofs.Expr.Arrow
import TextAdventure.Proofs.Rule.WellFormed
import TextAdventure.Proofs.Rule.Keys
import TextAdventure.Proofs.Rule.Once
import TextAdventure.Proofs.Eval.ReadOnly
import TextAdventure.Proofs.Scene.ReadOnly
import TextAdventure.Proofs.Session.Submission
import TextAdventure.Proofs.Store.Shadowing
import TextAdventure.Proofs.Eval.Shielding
import TextAdventure.Proofs.Eval.Faults
import TextAdventure.Proofs.Eval.Contract
import TextAdventure.Proofs.Eval.Closed
import TextAdventure.Proofs.Rule.CompileErrors
import TextAdventure.Proofs.Dispatch.ErrorClasses
import TextAdventure.Proofs.Eval.Limit
import TextAdventure.Proofs.Value.IntegerOrder
import TextAdventure.Proofs.Store.Rereading
import TextAdventure.Proofs.Eval.Counting
import TextAdventure.Proofs.Token.Slices
import TextAdventure.Proofs.Expr.Balance
import TextAdventure.Proofs.Expr.Taking
import TextAdventure.Proofs.Expr.Spans
import TextAdventure.Proofs.Expr.Attached
import TextAdventure.Proofs.Store.Functions
import TextAdventure.Proofs.Eval.Failure
import TextAdventure.Proofs.Eval.Layers
import TextAdventure.Proofs.Expr.Integers
import TextAdventure.Proofs.Token.Tiling
import TextAdventure.Proofs.Value.Play
import TextAdventure.Proofs.Expr.SyntaxErrors
import TextAdventure.Proofs.Eval.Paths
import TextAdventure.Proofs.Command.Conjunction
import TextAdventure.Proofs.Dispatch.Choice
import TextAdventure.Proofs.Command.Specificity
import TextAdventure.Proofs.Rule.ErrorPaths
import TextAdventure.Proofs.Dictionary.History
import TextAdventure.Proofs.Value.IntegerArithmetic
import TextAdventure.Proofs.Rule.Chance
import TextAdventure.Proofs.Eval.Moments
import TextAdventure.Proofs.Dispatch.Performing
