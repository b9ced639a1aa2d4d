import MiniLisp.Expr.Basic
import MiniLisp.Fault

/-!
# The names of an expression

The names that an expression binds or refers to are listed from left to right, as often as they
occur. What is quoted or stray has no names. Every level of the tree spends one of the stack
budget, and where the stack ends the names listed so far are all that the search has found.

* `Expr.ownNames`, `Expr.parts` — the names and the expressions that a node itself holds.
* `Listing` — the names that a search has found, and how it has ended.
* `Expr.listing` — the search for the names of an expression.
* `Expr.names` — the names of an expression, if all of them are found.
-/

namespace MiniLisp

/-- A search for names: those that it has found, and whether it came to its end. -/
structure Listing where
  found : List String := []
  ending : Outcome Unit := pure ()

namespace Listing

/-- One search after another. Where the first one stops, the second is not begun. -/
def append (first second : Listing) : Listing :=
  match first.ending with
  | .ok _ => { found := first.found ++ second.found, ending := second.ending }
  | .error _ => first

/-- Searches one after the other. -/
def concat (searches : List Listing) : Listing := searches.foldr append {}

end Listing

namespace Expr

/-- The names that a node itself binds or refers to. -/
def ownNames : Expr → List String
  | name x | define x _ | letrec x _ _ | lambda x _ => [x]
  | loop i _ _ assigned _ _ => [i, assigned]
  | _ => []

/-- The expressions that a node is made of, in the order in which they are searched for names. -/
def parts : Expr → List Expr
  | define _ e | lambda _ e => [e]
  | letrec _ e₁ e₂ | binary _ e₁ e₂ | apply e₁ e₂ => [e₁, e₂]
  | branch e₁ e₂ e₃ => [e₁, e₂, e₃]
  | begin es => es
  | loop _ start test _ update body => [start, test, update, body]
  | _ => []

/-- The search for the names of an expression (`symbols_in`). -/
def listing : Nat → Expr → Listing
  | 0, _ => { ending := .error .exhausted }
  | b + 1, e => .append { found := e.ownNames } (.concat (e.parts.map (listing b)))

/-- The names that an expression binds or refers to. -/
def names (budget : Nat) (e : Expr) : Outcome (List String) :=
  let search := e.listing budget
  search.ending.map fun _ => search.found

end Expr

end MiniLisp
