import MiniLisp.Expr.Basic
import MiniLisp.Value.Printed

/-!
# Reading expressions

A program is written as a datum: numbers, texts and truth values stand for themselves,
symbols are names, and a list is a form. A list that starts with a keyword or an operator
has the shape that this head prescribes; any other list is an application to one argument.

* `Expr.read` — the expression that a datum denotes, or what is wrong with the first datum
  that denotes none. Every level of nesting spends one of the stack budget.
-/

namespace MiniLisp

namespace Reader

/-- The symbol in a place where a form must have one (`_expect_symbol`). The names that an
    expression binds are read by nothing else, so no expression binds a key that is not a symbol. -/
def symbolAs (budget : Nat) (role : NameRole) : Datum → Outcome String
  | .symbol x => pure x
  | d => do .fault (.notSymbol role (← d.inspect budget))

/-- The variable and the expression of a loop's clause (`_read_clause`). -/
def pair (budget : Nat) (read : Datum → Outcome Expr) (clause : Clause) :
    Datum → Outcome (String × Expr)
  | .list _ [x, d] => do
    let x ← symbolAs budget clause.role x
    let e ← read d
    pure (x, e)
  | _ => .fault (.clauseShape clause)

/-- The expression of a form with the given head and the given parts after it: `_read_define`,
    `_read_letrec`, `_read_quote`, `_read_if`, `_read_begin`, `_read_lambda`, `_read_for` and
    `_read_binary_op`. A number of parts that none of them takes is refused (`_expect_arity`). -/
def form (budget : Nat) (read : Datum → Outcome Expr) : Head → List Datum → Outcome Expr
  | .keyword .define, [x, d] => do
    let x ← symbolAs budget .defined x
    pure (.define x (← read d))
  | .keyword .letrec, [bindings, body] =>
    match bindings with
    | .list _ [.list _ [x, d]] => do
      let x ← symbolAs budget .recursive x
      let binding ← read d
      pure (.letrec x binding (← read body))
    | .list _ [_] => .fault .bindingShape
    | _ => .fault .bindingCount
  | .keyword .quote, [d] => pure (.quote d)
  | .keyword .branch, [test, yes, no] => do
    let test ← read test
    let yes ← read yes
    pure (.branch test yes (← read no))
  | .keyword .begin, [] => .fault .emptyBegin
  | .keyword .begin, parts => do pure (.begin (← parts.mapM read))
  | .keyword .lambda, [params, body] =>
    match params with
    | .list _ [x] => do
      let x ← symbolAs budget .parameter x
      pure (.lambda x (← read body))
    | _ => .fault .parameterCount
  | .keyword .loop, [first, test, next, body] => do
    let (i, start) ← pair budget read .init first
    let (assigned, update) ← pair budget read .update next
    let test ← read test
    pure (.loop i start test assigned update (← read body))
  | .operator op, [left, right] => do
    let left ← read left
    pure (.binary op.text left (← read right))
  | head, _ => .fault (.partCount head)

/-- The head that the first part of a form is. -/
def head? : Datum → Option Head
  | .symbol x => Head.ofName? x
  | _ => none

/-- The expression that a symbol denotes. -/
def symbol (x : String) : Expr :=
  if x = "#t" then .truth true else if x = "#f" then .truth false else .name x

end Reader

/-- The expression that a datum denotes (`read_form`). -/
def Expr.read : Nat → Datum → Outcome Expr
  | 0, _ => .error .exhausted
  | b + 1, d =>
    match d with
    | .bool t => pure (.truth t)
    | .int n => pure (.numeral (.int n))
    | .frac q => pure (.numeral (.frac q))
    | .float id x => pure (.numeral (.float id x))
    | .text s => pure (.text s)
    | .symbol x => pure (Reader.symbol x)
    | .list _ [] => .fault .emptyForm
    | .list _ (first :: parts) =>
      match Reader.head? first with
      | some head => Reader.form b (read b) head parts
      | none =>
        match parts with
        | [arg] => do
          let callee ← read b first
          pure (.apply callee (← read b arg))
        | parts => .fault (.argumentCount parts.length)
    | d => do .fault (.malformed (← d.inspect b))

end MiniLisp
