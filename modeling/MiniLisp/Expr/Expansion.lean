import MiniLisp.Expr.Names
import MiniLisp.Expr.Printed
import MiniLisp.FreshNames

/-!
# Loops as recursive procedures

A loop is expanded into a procedure that calls itself in tail position,

    (for (i start) test (i update) body)
      becomes
    (letrec ((f (lambda (i) (if test (begin body (f update)) (quote done)))))
      (f start))

where `f` is a fresh name. All other forms keep their shape.

* `Expr.expandLoops` — expands every loop, with names from a given supply.
* `Expr.reserveNames` — keeps the names of an expression from being drawn.
* `Expr.expand` — expands every loop after the names of the expression have been reserved.
-/

namespace MiniLisp

/-- Computations that draw fresh names. What has been drawn and reserved stays so when the
    computation stops. -/
abbrev Naming := ExceptT Stop (StateM FreshNames)

namespace Naming

/-- A computation that draws no names. -/
def ofOutcome {α : Type} (x : Outcome α) : Naming α := ExceptT.mk (pure x)

/-- A fresh name (`gen_sym`). -/
def freshName : Naming String := modifyGet FreshNames.draw

/-- Keeps names from being drawn. -/
def reserveAll (xs : List String) : Naming Unit := modify fun names => names.reserveAll xs

end Naming

/-- The value of a loop. -/
def loopResult : Datum := .symbol "done"

/-- The procedure call that a loop with expanded parts stands for (`_expand_for`). -/
def Expr.ofLoop (f i : String) (start test update body : Expr) : Expr :=
  .letrec f
    (.lambda i (.branch test (.begin [body, .apply (.name f) update]) (.quote loopResult)))
    (.apply (.name f) start)

/-- Expands every loop of an expression. The name of a loop is drawn before those of the
    loops inside it, and these are expanded in the order update, test, body, start
    (`_desugar`). -/
def Expr.expandLoops : Nat → Expr → Naming Expr
  | 0, _ => throw .exhausted
  | b + 1, e =>
    match e with
    | loop i start test assigned update body => do
      if assigned ≠ i then throw (.fault (.loopVariable i assigned))
      let f ← Naming.freshName
      let update ← update.expandLoops b
      let test ← test.expandLoops b
      let body ← body.expandLoops b
      let start ← start.expandLoops b
      pure (ofLoop f i start test update body)
    | define x e => do pure (define x (← e.expandLoops b))
    | letrec x e₁ e₂ => do
      let binding ← e₁.expandLoops b
      pure (letrec x binding (← e₂.expandLoops b))
    | binary op e₁ e₂ => do
      let left ← e₁.expandLoops b
      pure (binary op left (← e₂.expandLoops b))
    | branch e₁ e₂ e₃ => do
      let test ← e₁.expandLoops b
      let yes ← e₂.expandLoops b
      pure (branch test yes (← e₃.expandLoops b))
    | begin es => do pure (begin (← es.mapM (expandLoops b)))
    | lambda x e => do pure (lambda x (← e.expandLoops b))
    | apply e₁ e₂ => do
      let callee ← e₁.expandLoops b
      pure (apply callee (← e₂.expandLoops b))
    | stray d => do throw (.fault (.malformed (← Naming.ofOutcome (d.inspect b))))
    | e => pure e

/-- Reserves the names of an expression as they are found. Where the stack ends before all of them
    are, those that were found stay reserved. -/
def Expr.reserveNames (budget : Nat) (e : Expr) : Naming Unit := do
  Naming.reserveAll (e.listing budget).found
  Naming.ofOutcome (e.listing budget).ending

/-- Expands every loop of an expression under names that it does not use (`desugar`). -/
def Expr.expand (budget : Nat) (e : Expr) : Naming Expr := do
  e.reserveNames budget
  e.expandLoops budget

end MiniLisp
