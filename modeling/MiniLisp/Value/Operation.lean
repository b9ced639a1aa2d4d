import MiniLisp.Value.Equal
import MiniLisp.Value.Printed

/-!
# Operators on values

* `Operator.onNumbers` — what an operator other than equality does to two numbers.
* `Value.operate` — what an operator name does to two values. Equality takes any values, all
  others take numbers only.
-/

namespace MiniLisp

/-- The fault that a failing arithmetic operation is reported as. -/
def ArithError.fault (op : Operator) : ArithError → Fault
  | overflow => .overflow op.text
  | divisionByZero => .divisionByZero
  | vanishingDivisor => .floatDivisionByZero

/-- What an operator yields whose arithmetic has the given outcome. -/
def Operator.result {Code : Type} (op : Operator) (id : ObjectId) :
    Except ArithError Number → Outcome (Value Code)
  | .ok n => pure (.ofNumber id n)
  | .error e => .fault (e.fault op)

/-- The result of an operator on two numbers; `id` is the identity of a float that it
    yields. -/
def Operator.onNumbers {Code : Type} (op : Operator) (id : ObjectId) (m n : Number) :
    Outcome (Value Code) :=
  match op with
  | add => op.result id (m.add n)
  | sub => op.result id (m.sub n)
  | mul => op.result id (m.mul n)
  | div => op.result id (m.div n)
  | greater => pure (.bool (n.lt m))
  | less => pure (.bool (m.lt n))
  | equal => pure (.bool (m.eq n))

/-- The result of the operator of the given name on two values (`apply_operator`). -/
def Value.operate {Code : Type} (budget : Nat) (id : ObjectId) (op : String)
    (v w : Value Code) : Outcome (Value Code) :=
  match Operator.ofText? op with
  | none => .fault (.unknownOperator (Text.quoted op))
  | some .equal => do pure (.bool (← v.equal budget w))
  | some op =>
    match v.number?, w.number? with
    | some m, some n => op.onNumbers id m n
    | _, _ => do
      let left ← v.inspect budget
      let right ← w.inspect budget
      .fault (.operands op.text left right)

end MiniLisp
