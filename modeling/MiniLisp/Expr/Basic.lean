import MiniLisp.Value.Basic

/-!
# Expressions

The tree of a program. Every form of the language has a constructor; `loop` is the one form
that is not evaluated as it stands but expanded first, and `stray` holds a datum that stands
where an expression belongs.

* `Expr` — the trees; `Datum` — the values whose procedures have such trees as bodies.
* `Expr.same` — whether two trees have the same shape and names, and hold the same objects.
-/

namespace MiniLisp

/-- The expressions of the language. -/
inductive Expr where
  /-- A literal number, kept as the value that was read. -/
  | numeral (value : Value Expr)
  /-- A literal text. -/
  | text (s : String)
  /-- A literal truth value. -/
  | truth (b : Bool)
  /-- The value of a name. -/
  | name (x : String)
  /-- Binds a name in the innermost frame. -/
  | define (x : String) (value : Expr)
  /-- Binds a name, in a frame of its own, to a procedure that can refer to that name. -/
  | letrec (x : String) (binding body : Expr)
  /-- A datum as it stands. -/
  | quote (datum : Value Expr)
  /-- A binary operator; its name need not be one that exists. -/
  | binary (op : String) (left right : Expr)
  /-- A choice between two expressions. -/
  | branch (test yes no : Expr)
  /-- Expressions one after the other. -/
  | begin (parts : List Expr)
  /-- A procedure of one parameter. -/
  | lambda (param : String) (body : Expr)
  /-- The application of a procedure to one argument. -/
  | apply (callee arg : Expr)
  /-- Runs `body` with `i` at `start` and its successors under `update`, while `test` holds.
      The update clause names the variable that it assigns. -/
  | loop (i : String) (start test : Expr) (assigned : String) (update body : Expr)
  /-- A datum where an expression belongs. -/
  | stray (datum : Value Expr)

/-- The values of this language: procedures have expressions as bodies. -/
abbrev Datum := Value Expr

namespace Expr

mutual

/-- Whether two trees have the same shape and names, and the same objects as data. -/
def same : Expr → Expr → Bool
  | numeral v, numeral w => v.same w
  | text s, text t => s == t
  | truth a, truth b => a == b
  | name x, name y => x == y
  | define x e, define y f => x == y && e.same f
  | letrec x e₁ e₂, letrec y f₁ f₂ => x == y && e₁.same f₁ && e₂.same f₂
  | quote v, quote w => v.same w
  | binary p e₁ e₂, binary q f₁ f₂ => p == q && e₁.same f₁ && e₂.same f₂
  | branch e₁ e₂ e₃, branch f₁ f₂ f₃ => e₁.same f₁ && e₂.same f₂ && e₃.same f₃
  | begin es, begin fs => sameList es fs
  | lambda x e, lambda y f => x == y && e.same f
  | apply e₁ e₂, apply f₁ f₂ => e₁.same f₁ && e₂.same f₂
  | loop i e₁ e₂ u e₃ e₄, loop j f₁ f₂ v f₃ f₄ =>
    i == j && e₁.same f₁ && e₂.same f₂ && u == v && e₃.same f₃ && e₄.same f₄
  | stray v, stray w => v.same w
  | _, _ => false

/-- Whether two lists of trees are of one length and the same tree by tree. -/
def sameList : List Expr → List Expr → Bool
  | [], [] => true
  | e :: es, f :: fs => e.same f && sameList es fs
  | _, _ => false

end

mutual

@[simp] theorem same_self : ∀ e : Expr, e.same e = true
  | numeral _ | text _ | truth _ | name _ | quote _ | stray _ => by simp [same]
  | define _ e | lambda _ e => by simp [same, same_self e]
  | letrec _ e₁ e₂ | binary _ e₁ e₂ | apply e₁ e₂ => by
    simp [same, same_self e₁, same_self e₂]
  | branch e₁ e₂ e₃ => by simp [same, same_self e₁, same_self e₂, same_self e₃]
  | begin es => by simp [same, sameList_self es]
  | loop _ e₁ e₂ _ e₃ e₄ => by
    simp [same, same_self e₁, same_self e₂, same_self e₃, same_self e₄]

@[simp] theorem sameList_self : ∀ es : List Expr, sameList es es = true
  | [] => rfl
  | e :: es => by simp [sameList, same_self e, sameList_self es]

end

end Expr

end MiniLisp
