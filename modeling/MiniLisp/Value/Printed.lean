import MiniLisp.Fault
import MiniLisp.Number.Printed
import MiniLisp.Text.Quoted
import MiniLisp.Value.Basic

/-!
# The texts of values

A value has three texts. None exists for a value that holds an integer too long to be
written, and each level of nesting spends one of the stack budget.

* `Value.inspect` — as messages quote it: texts in quotes, symbols marked as such.
  `Value.inspectInFull` is the same text without a limit on the length of integers.
* `Value.plain` — the same, except that a text, a symbol or a fraction at the top is written
  bare.
* `Value.display` — as `print` writes it: lists in parentheses, truth values `#t` and `#f`,
  and a text bare at the top but in double quotes inside a list.
-/

namespace MiniLisp

/-- The text of an integer that is not too long. -/
def integerText (n : Int) : Outcome String :=
  match integerText? n with
  | some s => pure s
  | none => .fault .digitLimit

/-- The text of a symbol, marked as such. -/
def symbolText (name : String) : String := "Symbol(" ++ Text.quoted name ++ ")"

/-- The text of a truth value. -/
def truthText (b : Bool) : String := if b then "True" else "False"

/-- The texts of a tuple's elements as the text of the tuple: a comma follows a lone one. -/
def tupleText : List String → String
  | [s] => s!"({s},)"
  | items => "(" ++ ", ".intercalate items ++ ")"

namespace Value

variable {Code : Type}

/-- The text of a value as messages quote it, with `integer` for the texts of integers. -/
def inspectWith (integer : Int → Outcome String) : Nat → Value Code → Outcome String
  | 0, _ => .error .exhausted
  | b + 1, v =>
    match v with
    | int n => integer n
    | frac q => do
      let num ← integer q.num
      let den ← integer q.den
      pure s!"Fraction({num}, {den})"
    | float _ x => pure (floatText x)
    | text s => pure (Text.quoted s)
    | bool t => pure (truthText t)
    | symbol name => pure (symbolText name)
    | null => pure "None"
    | list _ items => do
      pure ("[" ++ ", ".intercalate (← items.mapM (inspectWith integer b)) ++ "]")
    | tuple _ items => do pure (tupleText (← items.mapM (inspectWith integer b)))
    | unit => pure "#<unit>"
    | unassigned => pure "#<unassigned>"
    | native _ name _ => pure s!"<native {name}>"
    | closure _ param _ _ => pure s!"<closure ({param})>"

/-- The text of a value as messages quote it. -/
def inspect (budget : Nat) (v : Value Code) : Outcome String :=
  v.inspectWith integerText budget

/-- The text of a value as messages would quote it if integers could have any length. -/
def inspectInFull (budget : Nat) (v : Value Code) : Outcome String :=
  v.inspectWith (fun n => pure (decimalText n)) budget

/-- The text of a fraction: the numerator alone when the denominator is one. -/
def fractionText (q : Rat) : Outcome String := do
  let num ← integerText q.num
  if q.den = 1 then pure num
  else
    let den ← integerText q.den
    pure s!"{num}/{den}"

/-- The text of a value with texts, symbols and fractions at the top bare. -/
def plain (budget : Nat) : Value Code → Outcome String
  | text s => pure s
  | symbol name => pure name
  | frac q => fractionText q
  | v => v.inspect budget

/-- The text of a value as an element of a list that `print` writes (`to_str` with `nested`). -/
def displayNested : Nat → Value Code → Outcome String
  | 0, _ => .error .exhausted
  | b + 1, v =>
    match v with
    | bool true => pure "#t"
    | bool false => pure "#f"
    | text s => pure (Text.doubleQuoted s)
    | list _ items => do pure ("(" ++ " ".intercalate (← items.mapM (displayNested b)) ++ ")")
    | tuple _ items => do pure ("(" ++ " ".intercalate (← items.mapM (displayNested b)) ++ ")")
    | v => v.plain (b + 1)

/-- The text of a value as `print` writes it (`to_str`). -/
def display (budget : Nat) : Value Code → Outcome String
  | text s => pure s
  | v => v.displayNested budget

end Value

end MiniLisp
