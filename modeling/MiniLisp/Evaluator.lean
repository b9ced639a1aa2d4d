import MiniLisp.Machine
import MiniLisp.Value.Operation

/-!
# Evaluation

An expression is evaluated in a frame and in a position. In tail position the application
of a closure is not carried out but handed back as a pending call, so that whoever asked can
make it without nesting; in any other position the answer is a value.

Two bounds keep evaluation total. Every nested evaluation spends one of the stack budget,
and `Evaluator.resume` makes at most a given number of pending calls in a row. A pending
call spends no budget, and so loops run in constant stack.

* `Position`, `Reply` — tail or inner position, and the answers possible there.
* `Evaluator` — what evaluates an expression in a frame and a position.
* `Evaluator.resume` — makes pending calls until there is a value.
* `Evaluator.apply` — applies a procedure to an argument.
* `Evaluator.form` — one level of evaluation, over an evaluator for what is inside.
* `step`, `evaluate` — evaluation under a stack budget: to a reply, and to a value.
-/

namespace MiniLisp

/-- The position of an expression: whether its value is that of the procedure body that it
    stands in. -/
inductive Position where
  | tail
  | inner
deriving DecidableEq, Repr

/-- The answer of an evaluation: a value or, in tail position only, a pending call of a
    closure with the given parameter and body, whose argument is bound in the given frame
    (`TailCall`). -/
inductive Reply : Position → Type where
  | value {p : Position} (v : Datum) : Reply p
  | tailCall (param : String) (body : Expr) (frame : FrameId) : Reply .tail

/-- What evaluates an expression in a frame and a position. -/
abbrev Evaluator := Expr → FrameId → (p : Position) → Eval (Reply p)

/-- Whether a value decides a choice for its first branch: all do but `false`. -/
def Value.isTrue : Datum → Bool
  | .bool false => false
  | _ => true

/-- The effect and value of a native procedure; that of `print` is `print_builtin`. -/
def Primitive.call (budget : Nat) (arg : Datum) : Primitive → Eval Datum
  | print => do
    Eval.write (← Eval.ofOutcome (arg.display budget))
    pure .unit
  | identity => pure arg
  | host f => do pure (.ofScalar (← Eval.freshId) (f arg.scalar?))

namespace Evaluator

/-- The value of an expression in inner position. -/
def value (ev : Evaluator) (e : Expr) (f : FrameId) : Eval Datum := do
  match ← ev e f .inner with
  | .value v => pure v

/-- Makes pending calls, at most `rounds` of them, until there is a value (`run_tail_calls`). -/
def resume (ev : Evaluator) : Nat → Reply .tail → Eval Datum
  | _, .value v => pure v
  | 0, .tailCall _ _ _ => throw .unfinished
  | rounds + 1, .tailCall _ body frame => do ev.resume rounds (← ev body frame .tail)

/-- A call of a closure whose argument is bound in `frame`: pending in tail position, made at
    once in any other. -/
def enter (ev : Evaluator) (rounds : Nat) (param : String) (body : Expr) (frame : FrameId) :
    (p : Position) → Eval (Reply p)
  | .tail => pure (.tailCall param body frame)
  | .inner => do pure (.value (← ev.resume rounds (← ev body frame .tail)))

/-- Applies a procedure to an argument (`apply`). -/
def apply (ev : Evaluator) (rounds budget : Nat) (head arg : Datum) (p : Position) :
    Eval (Reply p) :=
  match head with
  | .closure _ param body outer => do
    let frame ← Eval.bindFrame outer param arg
    ev.enter rounds param body frame p
  | .native _ _ action => do pure (.value (← action.call budget arg))
  | head => do Eval.fault (.notProcedure (← Eval.ofOutcome (head.inspect budget)))

/-- Evaluates expressions one after the other; the last one gives the reply (`progn_form`). -/
def sequence (ev : Evaluator) (f : FrameId) (p : Position) : List Expr → Eval (Reply p)
  | [] => Eval.fault .emptyBegin
  | [e] => ev e f p
  | e :: es => do
    let _ ← ev.value e f
    ev.sequence f p es

/-- The fault of an expression that cannot be evaluated as it stands. -/
def reject {α : Type} (budget : Nat) (e : Expr) : Eval α := do
  Eval.fault (.malformed (← Eval.ofOutcome (e.inspect budget)))

/-- One level of evaluation: `ev` evaluates what is inside, and `budget` is left for the
    texts of values and for their equality. This is the body of `evaluate0` with the forms that it
    hands on to: `define_form`, `letrec_form`, `quote_form`, `binary_op_form`, `if_form`,
    `lambda_form` and `apply_form`. What they bind are symbols, by the type of expressions; a key
    that is not one can be given to `Eval.defineKey` only. -/
def form (ev : Evaluator) (rounds budget : Nat) : Evaluator
  | .numeral v, _, _ => pure (.value v)
  | .text s, _, _ => pure (.value (.text s))
  | .truth b, _, _ => pure (.value (.bool b))
  | .name x, f, _ => do
    match ← Eval.lookup f x with
    | .unassigned => Eval.fault (.uninitialised x)
    | v => pure (.value v)
  | .define x e, f, _ => do
    let v ← ev.value e f
    Eval.define f x v
    pure (.value v)
  | .letrec x binding body, f, p => do
    let frame ← Eval.bindFrame f x .unassigned
    let v ← ev.value binding frame
    if v.isProcedure then
      Eval.define frame x v
      ev body frame p
    else
      Eval.fault (.bindingValue x (← Eval.ofOutcome (v.inspect budget)))
  | .quote d, _, _ => pure (.value d)
  | .binary op left right, f, _ => do
    let v ← ev.value left f
    let w ← ev.value right f
    let id ← Eval.freshId
    pure (.value (← Eval.ofOutcome (v.operate budget id op w)))
  | .branch test yes no, f, p => do
    let v ← ev.value test f
    if v.isTrue then ev yes f p else ev no f p
  | .begin parts, f, p => ev.sequence f p parts
  | .lambda param body, f, _ => do pure (.value (.closure (← Eval.freshId) param body f))
  | .apply callee arg, f, p => do
    let head ← ev.value callee f
    let v ← ev.value arg f
    ev.apply rounds budget head v p
  | .loop i start test assigned update body, _, _ =>
    reject budget (.loop i start test assigned update body)
  | .stray d, _, _ => reject budget (.stray d)

end Evaluator

/-- Evaluation to a reply, under a stack budget (`evaluate0`). -/
def step (rounds : Nat) : Nat → Evaluator
  | 0 => fun _ _ _ => throw .exhausted
  | budget + 1 => (step rounds budget).form rounds budget

/-- Evaluation to a value, under a stack budget (`evaluate`). -/
def evaluate (rounds budget : Nat) (e : Expr) (f : FrameId) : Eval Datum := do
  (step rounds budget).resume rounds (← step rounds budget e f .tail)

end MiniLisp
