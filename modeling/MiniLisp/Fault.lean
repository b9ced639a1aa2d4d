import MiniLisp.Operator

/-!
# Faults

Everything that can keep a program from an answer. A `Fault` is a cause, with the texts of
the values that its message shows; the wording is `Fault.message`. A `Stop` is a fault, or
the end of one of the two bounds that every computation runs under.

* `Fault`, `Fault.message`, `Fault.kind` — the causes, their wording and their kinds.
* `Stop`, `Outcome` — the ways to end without a value, and computations that may.
-/

namespace MiniLisp

/-- A place where a form must have a symbol. -/
inductive NameRole where
  | defined
  | recursive
  | parameter
  | initial
  | updated
deriving DecidableEq, Repr

/-- How messages call a place for a symbol. -/
def NameRole.text : NameRole → String
  | defined => "define name"
  | recursive => "letrec name"
  | parameter => "lambda parameter"
  | initial => "for init variable"
  | updated => "for update variable"

/-- One of the two clauses of a loop that pair a variable with an expression. -/
inductive Clause where
  | init
  | update
deriving DecidableEq, Repr

/-- How messages call a clause. -/
def Clause.text : Clause → String
  | init => "init"
  | update => "update"

/-- How messages call the variable of a clause. -/
def Clause.role : Clause → NameRole
  | init => .initial
  | update => .updated

/-- The cause of a failure. A field called `shown` is the text of the offending value. -/
inductive Fault where
  /-- A datum that is no form, or a tree node that cannot be expanded or evaluated. -/
  | malformed (shown : String)
  /-- The empty list as a form. -/
  | emptyForm
  /-- An application with a number of arguments other than one. -/
  | argumentCount (given : Nat)
  /-- A form whose number of parts does not fit its head. -/
  | partCount (head : Head)
  /-- Something other than a symbol where a name belongs. -/
  | notSymbol (role : NameRole) (shown : String)
  /-- A `letrec` without exactly one binding. -/
  | bindingCount
  /-- A `letrec` binding that is not a pair. -/
  | bindingShape
  /-- A `begin` without parts. -/
  | emptyBegin
  /-- A `lambda` without exactly one parameter. -/
  | parameterCount
  /-- A loop clause that is not a pair. -/
  | clauseShape (clause : Clause)
  /-- A loop whose update clause assigns another variable than its own. -/
  | loopVariable (loop update : String)
  /-- An operator that does not exist. -/
  | unknownOperator (shown : String)
  /-- A definition of something other than a symbol. -/
  | notDefinable (shown : String)
  /-- A `letrec` binding whose value is not a procedure. -/
  | bindingValue (name shown : String)
  /-- An application of something other than a procedure. -/
  | notProcedure (shown : String)
  /-- A name that no frame binds. -/
  | unbound (name : String)
  /-- A `letrec` name used while its own binding is being evaluated. -/
  | uninitialised (name : String)
  /-- An arithmetic operator on something other than two numbers. -/
  | operands (op left right : String)
  /-- An operand too large for a float. -/
  | overflow (op : String)
  /-- A divisor that is zero. -/
  | divisionByZero
  /-- A divisor that only rounding turns into zero. -/
  | floatDivisionByZero
  /-- An integer with more digits than can be written. -/
  | digitLimit
  /-- A program that needs more stack than there is. -/
  | recursionTooDeep
deriving DecidableEq, Repr

/-- The kinds of fault. -/
inductive FaultKind where
  /-- A shape that the language does not have, or a callee that is not a procedure. -/
  | illFormed
  /-- A name without a value. -/
  | unboundName
  /-- An operation that numbers do not allow. -/
  | arithmetic
  /-- More nesting than the stack holds. -/
  | recursion
  /-- A number too long to be written. -/
  | numberText
  /-- A division by a divisor that was rounded to zero. -/
  | floatDivision
deriving DecidableEq, Repr

namespace Fault

/-- The wording of a fault. -/
def message : Fault → String
  | malformed shown => s!"invalid syntax: {shown}"
  | emptyForm => "invalid syntax: empty form"
  | argumentCount given =>
    "invalid syntax: application takes exactly one argument, got " ++ Nat.repr given
  | partCount head => "invalid syntax: expected " ++ head.usage
  | notSymbol role shown => role.text ++ s!" must be a symbol, got {shown}"
  | bindingCount => "letrec requires exactly one binding"
  | bindingShape => "letrec binding must be (<symbol> <expr>)"
  | emptyBegin => "begin requires at least one expression"
  | parameterCount => "lambda takes exactly one parameter"
  | clauseShape clause => "for " ++ clause.text ++ " clause must be (<symbol> <expr>)"
  | loopVariable loop update =>
    s!"for update clause must assign the loop variable {loop}, got {update}"
  | unknownOperator shown => s!"invalid syntax: unknown operator {shown}"
  | notDefinable shown => s!"Cannot define {shown} as a symbol"
  | bindingValue name shown => s!"letrec binding for {name} must be a procedure, got {shown}"
  | notProcedure shown => s!"not a procedure: {shown}"
  | unbound name => s!"Cannot lookup unbound identifier {name}"
  | uninitialised name => s!"Identifier {name} used before its letrec binding was initialised"
  | operands op left right => s!"Operands to {op} must be numbers, got {left} and {right}"
  | overflow op => s!"Numeric overflow in {op}"
  | divisionByZero => "Division by zero"
  | floatDivisionByZero => "float division by zero"
  | digitLimit => "Exceeds the limit (4300 digits) for integer string conversion; " ++
      "use sys.set_int_max_str_digits() to increase the limit"
  | recursionTooDeep => "Maximum recursion depth exceeded"

/-- The kind of a fault. -/
def kind : Fault → FaultKind
  | unbound _ | uninitialised _ => .unboundName
  | operands _ _ _ | overflow _ | divisionByZero => .arithmetic
  | recursionTooDeep => .recursion
  | digitLimit => .numberText
  | floatDivisionByZero => .floatDivision
  | _ => .illFormed

/-- The name that a fault is about, when it is about a name without a value. -/
def name? : Fault → Option String
  | unbound name => some name
  | uninitialised name => some name
  | _ => none

end Fault

/-- The ways to end without a value. -/
inductive Stop where
  /-- The program is at fault. -/
  | fault (f : Fault)
  /-- The nesting exceeds the stack budget. -/
  | exhausted
  /-- A chain of tail calls exceeds the bound on its length. -/
  | unfinished
deriving DecidableEq, Repr

/-- A computation that ends with a value or stops. -/
abbrev Outcome := Except Stop

/-- The outcome of a fault. -/
def Outcome.fault {α : Type} (f : Fault) : Outcome α := .error (.fault f)

end MiniLisp
