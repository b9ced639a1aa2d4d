import MiniLisp.Number.Basic
import MiniLisp.Number.Binary64
import MiniLisp.Number.Printed
import MiniLisp.Number.Shortest
import MiniLisp.Text.Printable
import MiniLisp.Text.Quoted
import MiniLisp.Operator
import MiniLisp.Fault
import MiniLisp.Value.Basic
import MiniLisp.Value.Equal
import MiniLisp.Value.Operation
import MiniLisp.Value.Printed
import MiniLisp.Expr.Basic
import MiniLisp.Expr.Names
import MiniLisp.Expr.Printed
import MiniLisp.Expr.Reader
import MiniLisp.Expr.Expansion
import MiniLisp.FreshNames
import MiniLisp.Heap
import MiniLisp.Machine
import MiniLisp.Evaluator
import MiniLisp.Run
import MiniLisp.Proofs.Computation
import MiniLisp.Proofs.Alike
import MiniLisp.Proofs.Direct
import MiniLisp.Proofs.CutOff
import MiniLisp.Proofs.Simulation
import MiniLisp.Proofs.Trampoline
import MiniLisp.Proofs.Expansion
import MiniLisp.Proofs.Lookup
import MiniLisp.Proofs.Layout
import MiniLisp.Proofs.LoopMeaning
import MiniLisp.Proofs.FrameEffect
import MiniLisp.Proofs.Renaming
import MiniLisp.Proofs.Reading
import MiniLisp.Proofs.LoopNames
import MiniLisp.Proofs.References
import MiniLisp.Proofs.CodeClass
import MiniLisp.Proofs.Activation
import MiniLisp.Proofs.Discipline
import MiniLisp.Proofs.Texts
import MiniLisp.Proofs.Budgets
import MiniLisp.Proofs.Rejection
import MiniLisp.Proofs.Division
import MiniLisp.Proofs.Stops
import MiniLisp.Proofs.Placeholder
import MiniLisp.Proofs.CoreForms
import MiniLisp.Proofs.Failures
import MiniLisp.Proofs.Relocation
import MiniLisp.Proofs.RepeatedCalls
import MiniLisp.Proofs.Grammar
import MiniLisp.Proofs.Truncation
import MiniLisp.Proofs.Unreading
import MiniLisp.Proofs.ConstantStack
import MiniLisp.Proofs.Hygiene
import MiniLisp.Proofs.Projection
import MiniLisp.Proofs.Sessions
import MiniLisp.Proofs.UnmentionedNames
import MiniLisp.Proofs.EqualityTest
import MiniLisp.Proofs.Equality
import MiniLisp.Proofs.ExactArithmetic
import MiniLisp.Proofs.NumberOrder
import MiniLisp.Proofs.Counting
import MiniLisp.Proofs.NumberedNames
import MiniLisp.Proofs.Unambiguity
import MiniLisp.Proofs.FrameHistory
