import MiniLisp.Expr.Basic
import MiniLisp.Value.Printed

/-!
# The text of expressions

Messages show an expression by the names of its node and fields, as in
`Apply(callee=Identifier(name=Symbol('f')), arg=NumberLiteral(value=1))`.

* `Expr.inspect` — that text, under a stack budget that every level of the tree spends.
-/

namespace MiniLisp

/-- The text of a node: its name, and its fields with their names. -/
def nodeText (node : String) (fields : List (String × String)) : String :=
  node ++ "(" ++ ", ".intercalate (fields.map fun f => f.1 ++ "=" ++ f.2) ++ ")"

/-- The text of an expression. -/
def Expr.inspect : Nat → Expr → Outcome String
  | 0, _ => .error .exhausted
  | b + 1, e =>
    match e with
    | numeral v => do pure (nodeText "NumberLiteral" [("value", ← v.inspect b)])
    | text s => pure (nodeText "StringLiteral" [("value", Text.quoted s)])
    | truth t => pure (nodeText "BoolLiteral" [("value", truthText t)])
    | name x => pure (nodeText "Identifier" [("name", symbolText x)])
    | define x e => do
      pure (nodeText "Define" [("name", symbolText x), ("value", ← e.inspect b)])
    | letrec x e₁ e₂ => do
      let binding ← e₁.inspect b
      let body ← e₂.inspect b
      pure (nodeText "LetRec" [("name", symbolText x), ("binding", binding), ("body", body)])
    | quote v => do pure (nodeText "Quote" [("datum", ← v.inspect b)])
    | binary op e₁ e₂ => do
      let lhs ← e₁.inspect b
      let rhs ← e₂.inspect b
      pure (nodeText "BinaryOp" [("op", Text.quoted op), ("lhs", lhs), ("rhs", rhs)])
    | branch e₁ e₂ e₃ => do
      let test ← e₁.inspect b
      let yes ← e₂.inspect b
      let no ← e₃.inspect b
      pure (nodeText "If" [("cond", test), ("then", yes), ("orelse", no)])
    | begin es => do pure (nodeText "Begin" [("body", tupleText (← es.mapM (inspect b)))])
    | lambda x e => do
      pure (nodeText "Lambda" [("param", symbolText x), ("body", ← e.inspect b)])
    | apply e₁ e₂ => do
      let callee ← e₁.inspect b
      let arg ← e₂.inspect b
      pure (nodeText "Apply" [("callee", callee), ("arg", arg)])
    | loop i e₁ e₂ u e₃ e₄ => do
      let start ← e₁.inspect b
      let test ← e₂.inspect b
      let update ← e₃.inspect b
      let body ← e₄.inspect b
      pure (nodeText "For" [("loop_var", symbolText i), ("start", start), ("cond", test),
        ("update_var", symbolText u), ("update", update), ("body", body)])
    | stray v => v.inspect b

end MiniLisp
