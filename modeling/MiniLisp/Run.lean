import MiniLisp.Evaluator
import MiniLisp.Expr.Reader

/-!
# Running programs

A program runs in four steps: it is read if it is still a datum, its loops are expanded
under fresh names, a root frame is made that binds `print`, and it is evaluated there. To
need more stack than there is is then a fault of the program like any other.

* `Limits` — the bounds that a run is held to.
* `run` — runs a program.
-/

namespace MiniLisp

/-- The bounds that a computation is held to. -/
structure Limits where
  /-- The levels of nesting. -/
  stack : Nat := 1000
  /-- The calls in a row that are made in tail position. -/
  rounds : Nat := 4611686018427387904

/-- The expression of a program, which is read when the program is a mere datum. -/
def Expr.ofProgram (budget : Nat) : Expr → Outcome Expr
  | stray d => read budget d
  | e => pure e

/-- Evaluates an expression to a value. -/
def Limits.evaluate (limits : Limits) (e : Expr) (f : FrameId) : Eval Datum :=
  MiniLisp.evaluate limits.rounds limits.stack e f

/-- Turns the end of the stack into a fault. -/
def reportExhaustion {α : Type} (x : Eval α) : Eval α :=
  tryCatch x fun
    | .exhausted => Eval.fault .recursionTooDeep
    | stop => throw stop

/-- Runs a program in a new root frame; the names of its loops start with `stem` (`Runner.run`). -/
def run (limits : Limits) (stem : String) (program : Expr) : Eval Datum :=
  reportExhaustion do
    let e ← Eval.ofOutcome (program.ofProgram limits.stack)
    let e ← Eval.ofNaming { stem } (e.expand limits.stack)
    limits.evaluate e (← Eval.newRoot)

end MiniLisp
