import MiniLisp.Number.Basic

/-!
# Values

Values are what programs are written in before they are read and what they compute with
afterwards: numbers, texts, truth values, symbols, lists and tuples, the unit, and
procedures. A procedure's body is kept as code of a type that this module leaves open.

Some values are objects with an identity of their own, which equality can show: a NaN equals
only itself, a procedure equals only itself, and a list or tuple need not be searched when
it is compared with itself. These carry an `ObjectId`.

* `Scalar`, `Primitive` — data without parts, and what native procedures do.
* `Value` — the values, over a type of code.
* `Value.same` — whether two values are one object.
* `Value.number?`, `Value.ofNumber` — the numbers among the values.
* `Value.scalar?`, `Value.ofScalar` — the scalars among them.
* `Value.isProcedure` — the procedures among the values.
-/

namespace MiniLisp

/-- The identity of an object: two values that carry the same one are one object. -/
abbrev ObjectId := Nat

/-- The place of a frame in the heap. -/
abbrev FrameId := Nat

/-- Data without parts and without an identity that matters to whoever computes with them. -/
inductive Scalar where
  | number (n : Number)
  | text (s : String)
  | bool (b : Bool)
  | symbol (name : String)
  | null
  | unit

/-- What a native procedure does (`NativeFunction`). All of them keep the frames of a program,
    which they do not get at: besides `print` and `identity` there is one for every function from
    scalars to scalars. -/
inductive Primitive where
  /-- Writes its argument and a line feed, and gives the unit. -/
  | print
  /-- Gives its argument back. -/
  | identity
  /-- Computes a scalar by a function of the host, which sees its argument if it is a scalar. -/
  | host (f : Option Scalar → Scalar)

/-- The values of programs whose procedure bodies are of type `Code`. -/
inductive Value (Code : Type) where
  | int (n : Int)
  | frac (q : Rat)
  | float (id : ObjectId) (x : Float)
  | text (s : String)
  | bool (b : Bool)
  | symbol (name : String)
  | null
  | list (id : ObjectId) (items : List (Value Code))
  | tuple (id : ObjectId) (items : List (Value Code))
  /-- The result of a procedure that is called for its effect. -/
  | unit
  /-- What a `letrec` name is bound to until its procedure exists. -/
  | unassigned
  | native (id : ObjectId) (name : String) (action : Primitive)
  /-- A procedure of one parameter, with the frame that it was made in. -/
  | closure (id : ObjectId) (param : String) (body : Code) (frame : FrameId)

namespace Value

variable {Code : Type}

/-- The number that a value is. Truth values are not numbers. -/
def number? : Value Code → Option Number
  | int n => some (.int n)
  | frac q => some (.frac q)
  | float _ x => some (.float x)
  | _ => none

/-- A number as a value; `id` is its identity if it is a float. -/
def ofNumber (id : ObjectId) : Number → Value Code
  | .int n => int n
  | .frac q => frac q
  | .float x => float id x

/-- The scalar that a value is. -/
def scalar? : Value Code → Option Scalar
  | text s => some (.text s)
  | bool b => some (.bool b)
  | symbol x => some (.symbol x)
  | null => some .null
  | unit => some .unit
  | v => v.number?.map .number

/-- A scalar as a value; `id` is its identity if it is a float. -/
def ofScalar (id : ObjectId) : Scalar → Value Code
  | .number n => ofNumber id n
  | .text s => text s
  | .bool b => bool b
  | .symbol x => symbol x
  | .null => null
  | .unit => unit

/-- Whether a value is a number (`is_number`). -/
def isNumber (v : Value Code) : Bool := v.number?.isSome

/-- Whether a value can be applied (`is_procedure`). -/
def isProcedure : Value Code → Bool
  | native _ _ _ => true
  | closure _ _ _ _ => true
  | _ => false

/-- Whether two values are one object. Where no operation can tell an object from another of
    the same content, content decides. -/
def same : Value Code → Value Code → Bool
  | int m, int n => m == n
  | frac p, frac q => p == q
  | float i _, float j _ => i == j
  | text s, text t => s == t
  | bool a, bool b => a == b
  | symbol x, symbol y => x == y
  | null, null => true
  | list i _, list j _ => i == j
  | tuple i _, tuple j _ => i == j
  | unit, unit => true
  | unassigned, unassigned => true
  | native i _ _, native j _ _ => i == j
  | closure i _ _ _, closure j _ _ _ => i == j
  | _, _ => false

@[simp] theorem number?_ofNumber (id : ObjectId) (n : Number) :
    (ofNumber id n : Value Code).number? = some n := by
  cases n <;> rfl

@[simp] theorem same_self (v : Value Code) : v.same v = true := by
  cases v <;> simp [same]

theorem same_comm (v w : Value Code) : v.same w = w.same v := by
  cases v <;> cases w <;> simp [same, Bool.beq_comm]

end Value

end MiniLisp
