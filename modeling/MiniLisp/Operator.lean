/-!
# Operators and keywords

The names that a form can start with: the seven binary operators and the seven keywords.

* `Operator.ofText?`, `Head.ofName?` — the reading of a name, inverse to `Operator.text`
  and `Head.name`.
* `Head.usage` — the shape that a form with this head must have, as messages show it.
-/

namespace MiniLisp

/-- A binary operator. -/
inductive Operator where
  | add
  | sub
  | mul
  | div
  | greater
  | less
  | equal
deriving DecidableEq, Repr

namespace Operator

/-- Every operator. -/
def all : List Operator := [add, sub, mul, div, greater, less, equal]

/-- The name of an operator. -/
def text : Operator → String
  | add => "+"
  | sub => "-"
  | mul => "*"
  | div => "/"
  | greater => ">"
  | less => "<"
  | equal => "="

/-- The operator of a name. -/
def ofText? (s : String) : Option Operator := all.find? fun op => op.text == s

@[simp] theorem ofText?_text (op : Operator) : ofText? op.text = some op := by
  cases op <;> rfl

theorem text_of_ofText? {s : String} {op : Operator} (h : ofText? s = some op) :
    op.text = s := by
  simpa using List.find?_some h

end Operator

/-- A keyword: the head of a special form. -/
inductive Keyword where
  | define
  | letrec
  | quote
  | branch
  | begin
  | lambda
  | loop
deriving DecidableEq, Repr

namespace Keyword

/-- Every keyword. -/
def all : List Keyword := [define, letrec, quote, branch, begin, lambda, loop]

/-- The name of a keyword. -/
def text : Keyword → String
  | define => "define"
  | letrec => "letrec"
  | quote => "quote"
  | branch => "if"
  | begin => "begin"
  | lambda => "lambda"
  | loop => "for"

end Keyword

/-- A name that gives the form it heads a shape of its own. -/
inductive Head where
  | keyword (k : Keyword)
  | operator (op : Operator)
deriving DecidableEq, Repr

namespace Head

/-- The name of a head. -/
def text : Head → String
  | keyword k => k.text
  | operator op => op.text

/-- Every head. -/
def all : List Head := Keyword.all.map keyword ++ Operator.all.map operator

/-- The head of a name. -/
def ofName? (s : String) : Option Head := all.find? fun h => h.text == s

@[simp] theorem ofName?_text (h : Head) : ofName? h.text = some h := by
  cases h with
  | keyword k => cases k <;> rfl
  | operator op => cases op <;> rfl

theorem text_of_ofName? {s : String} {h : Head} (found : ofName? s = some h) : h.text = s := by
  simpa using List.find?_some found

/-- The shape of a form, as messages show it. -/
def usage : Head → String
  | keyword .define => "(define <symbol> <expr>)"
  | keyword .letrec => "(letrec ((<symbol> <lambda-expr>)) <body>)"
  | keyword .quote => "(quote <datum>)"
  | keyword .branch => "(if <cond> <then> <else>)"
  | keyword .begin => "(begin <expr> ...)"
  | keyword .lambda => "(lambda (<symbol>) <body>)"
  | keyword .loop => "(for (<symbol> <start>) <cond> (<symbol> <update>) <body>)"
  | operator op => s!"({op.text} <expr> <expr>)"

end Head

end MiniLisp
