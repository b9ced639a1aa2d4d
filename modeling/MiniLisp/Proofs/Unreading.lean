import MiniLisp.Proofs.Grammar

/-!
# Expressions as data

An expression can be written as the datum that one would have typed for it. Reading this datum
gives the expression back, provided that it is one that can be read at all. In the other direction
a datum that was read comes back as it was, up to the two symbols for truth values: where these
stand for expressions, the truth values themselves come back.

A datum that is written has lists of its own. They are given an identity of their own, and the
statements hold for any; what is quoted is the same object as before.

* `Expr.unread`: the datum of an expression.
* `Value.resolve`: a datum with truth values for their symbols, where an expression stands.
* `Expr.Readable.denotes_unread`, `Denotes.unread_eq`: the two directions.
* `unread_inverts_read`: both, with the expressions that can be read.
-/

namespace MiniLisp

/-! ## Writing an expression -/

namespace Expr

mutual

/-- The datum of an expression, with lists of the identity `i`. -/
def unread (i : ObjectId) : Expr → Datum
  | numeral v => v
  | text s => .text s
  | truth b => .bool b
  | name x => .symbol x
  | define x e => .list i [.symbol "define", .symbol x, e.unread i]
  | letrec x e₁ e₂ =>
    .list i [.symbol "letrec", .list i [.list i [.symbol x, e₁.unread i]], e₂.unread i]
  | quote d => .list i [.symbol "quote", d]
  | binary op e₁ e₂ => .list i [.symbol op, e₁.unread i, e₂.unread i]
  | branch e₁ e₂ e₃ => .list i [.symbol "if", e₁.unread i, e₂.unread i, e₃.unread i]
  | begin es => .list i (.symbol "begin" :: unreadAll i es)
  | lambda x e => .list i [.symbol "lambda", .list i [.symbol x], e.unread i]
  | apply e₁ e₂ => .list i [e₁.unread i, e₂.unread i]
  | loop x e₁ e₂ y e₃ e₄ =>
    .list i [.symbol "for", .list i [.symbol x, e₁.unread i], e₂.unread i,
      .list i [.symbol y, e₃.unread i], e₄.unread i]
  | stray d => d

/-- The data of several expressions. -/
def unreadAll (i : ObjectId) : List Expr → List Datum
  | [] => []
  | e :: es => e.unread i :: unreadAll i es

end

/-- What is written for a callee starts no form of its own, unless the callee is a keyword. -/
theorem head?_unread {e : Expr} (i : ObjectId)
    (hname : ∀ x, e = .name x → Head.ofName? x = none)
    (hnumeral : ∀ v, e = .numeral v → v.isNumber = true) (hstray : ∀ d, e ≠ .stray d) :
    Reader.head? (e.unread i) = none := by
  cases e with
  | name x => exact hname x rfl
  | numeral v =>
    have hv := hnumeral v rfl
    cases v <;> first | rfl | cases hv
  | stray d => exact absurd rfl (hstray d)
  | _ => rfl

/-! ## What is written denotes the expression -/

mutual

/-- What is written for an expression denotes it, if the expression can be read. -/
theorem Readable.denotes_unread (i : ObjectId) : ∀ e : Expr, e.Readable → Denotes (e.unread i) e
  | .numeral v, h => .number h
  | .text _, _ => .text
  | .truth _, _ => .bool
  | .name _, h => .name h.1 h.2
  | .define _ e, h => .define (denotes_unread i e h.2)
  | .letrec _ e₁ e₂, h => .letrec (denotes_unread i e₁ h.2.1) (denotes_unread i e₂ h.2.2)
  | .quote _, _ => .quote
  | .binary op e₁ e₂, h => by
    obtain ⟨⟨o, ho⟩, h₁, h₂⟩ := h
    obtain rfl := Operator.text_of_ofText? ho
    exact .binary (denotes_unread i e₁ h₁) (denotes_unread i e₂ h₂)
  | .branch e₁ e₂ e₃, h =>
    .branch (denotes_unread i e₁ h.2.1) (denotes_unread i e₂ h.2.2.1) (denotes_unread i e₃ h.2.2.2)
  | .begin es, h => by
    have hall := denotes_unreadAll i es h.2
    have hnonempty : unreadAll i es ≠ [] := by
      intro hnil
      rw [hnil] at hall
      cases hall
      exact h.1 rfl
    obtain ⟨hlength, hparts⟩ := List.forall₂_iff_zip.mp hall
    exact .begin hnonempty hlength fun d e => hparts
  | .lambda _ e, h => .lambda (denotes_unread i e h.2)
  | .apply e₁ e₂, h => by
    have hhead : Reader.head? (e₁.unread i) = none := by
      refine head?_unread i ?_ ?_ ?_
      · rintro x rfl
        exact h.1
      · rintro v rfl
        exact h.2.1
      · rintro d rfl
        exact h.2.1
    exact .apply hhead (denotes_unread i e₁ h.2.1) (denotes_unread i e₂ h.2.2)
  | .loop _ e₁ e₂ _ e₃ e₄, h =>
    .loop (denotes_unread i e₁ h.2.1) (denotes_unread i e₂ h.2.2.1)
      (denotes_unread i e₃ h.2.2.2.1) (denotes_unread i e₄ h.2.2.2.2)
  | .stray _, h => h.elim

theorem Readable.denotes_unreadAll (i : ObjectId) :
    ∀ es : List Expr, EachOf ReadableNode es → List.Forall₂ Denotes (unreadAll i es) es
  | [], _ => .nil
  | e :: es, h => .cons (denotes_unread i e h.1) (denotes_unreadAll i es h.2)

end

end Expr

/-! ## Data with truth values -/

mutual

/-- A datum in which truth values stand for their symbols wherever an expression stands. The lists
    that forms and their clauses are made of have the identity `i`; what is quoted or stands for a
    name is left alone. -/
def Value.resolve (i : ObjectId) : Value Expr → Value Expr
  | .symbol x => if x = "#t" then .bool true else if x = "#f" then .bool false else .symbol x
  | .list _ (first :: parts) =>
    match Reader.head? first with
    | some head => .list i (first :: Value.resolveParts i head parts)
    | none => .list i (first.resolve i :: Value.resolveAll i parts)
  | d => d
termination_by structural d => d

/-- The same for several data that are expressions. -/
def Value.resolveAll (i : ObjectId) : List (Value Expr) → List (Value Expr)
  | [] => []
  | d :: ds => d.resolve i :: Value.resolveAll i ds
termination_by structural ds => ds

/-- The same for the parts of a form, of which not all are expressions. -/
def Value.resolveParts (i : ObjectId) : Head → List (Value Expr) → List (Value Expr)
  | .keyword .quote, parts => parts
  | .keyword .define, [x, d] => [x, d.resolve i]
  | .keyword .letrec, [.list _ [.list _ [x, d₁]], d₂] =>
    [.list i [.list i [x, d₁.resolve i]], d₂.resolve i]
  | .keyword .lambda, [.list _ params, d] => [.list i params, d.resolve i]
  | .keyword .loop, [.list _ [x, d₁], d₂, .list _ [y, d₃], d₄] =>
    [.list i [x, d₁.resolve i], d₂.resolve i, .list i [y, d₃.resolve i], d₄.resolve i]
  | _, [] => []
  | _, d :: ds => d.resolve i :: Value.resolveAll i ds
termination_by structural _ ds => ds

end

theorem Value.resolve_form (i j : ObjectId) (head : Head) (parts : List Datum) :
    resolve i (.list j (.symbol head.text :: parts)) =
      .list i (.symbol head.text :: resolveParts i head parts) := by
  have hhead : Reader.head? (.symbol head.text) = some head := Head.ofName?_text head
  rw [resolve, hhead]

theorem Value.resolve_apply (i j : ObjectId) {d₁ : Datum} (d₂ : Datum)
    (h : Reader.head? d₁ = none) :
    resolve i (.list j [d₁, d₂]) = .list i [d₁.resolve i, d₂.resolve i] := by
  rw [resolve, h]
  rfl

theorem unreadAll_eq (i : ObjectId) {ds : List Datum} {es : List Expr}
    (h : List.Forall₂ (fun d e => e.unread i = d.resolve i) ds es) :
    Expr.unreadAll i es = Value.resolveAll i ds := by
  induction h with
  | nil => rfl
  | cons he _ ih => rw [Expr.unreadAll, Value.resolveAll, he, ih]

/-- What was read is written as it was, with truth values for their symbols. -/
theorem Denotes.unread_eq (i : ObjectId) {d : Datum} {e : Expr} (h : Denotes d e) :
    e.unread i = d.resolve i := by
  induction h with
  | bool | text | yes | no | quote => rfl
  | @number v hv => cases v <;> first | rfl | cases hv
  | name hyes hno => rw [Expr.unread, Value.resolve, if_neg hyes, if_neg hno]
  | define _ ih =>
    rw [Expr.unread, ih]
    symm
    exact Value.resolve_form i _ (.keyword .define) _
  | letrec _ _ ih₁ ih₂ =>
    rw [Expr.unread, ih₁, ih₂]
    symm
    exact Value.resolve_form i _ (.keyword .letrec) _
  | branch _ _ _ ih₁ ih₂ ih₃ =>
    rw [Expr.unread, ih₁, ih₂, ih₃]
    symm
    exact Value.resolve_form i _ (.keyword .branch) _
  | @begin j ds es hnonempty hlength _ ih =>
    have hall := unreadAll_eq i (List.forall₂_iff_zip.mpr ⟨hlength, fun h => ih _ _ h⟩)
    obtain ⟨d, ds, rfl⟩ := List.exists_cons_of_ne_nil hnonempty
    rw [Expr.unread, hall]
    symm
    exact Value.resolve_form i _ (.keyword .begin) _
  | lambda _ ih =>
    rw [Expr.unread, ih]
    symm
    exact Value.resolve_form i _ (.keyword .lambda) _
  | loop _ _ _ _ ih₁ ih₂ ih₃ ih₄ =>
    rw [Expr.unread, ih₁, ih₂, ih₃, ih₄]
    symm
    exact Value.resolve_form i _ (.keyword .loop) _
  | @binary _ op _ _ _ _ _ _ ih₁ ih₂ =>
    rw [Expr.unread, ih₁, ih₂]
    symm
    exact Value.resolve_form i _ (.operator op) _
  | apply hother _ _ ih₁ ih₂ => rw [Expr.unread, ih₁, ih₂, Value.resolve_apply i _ _ hother]

/-- Writing inverts reading. An expression that can be read is read back from the datum that is
    written for it, given enough stack; every expression that is read is such a one; and a datum
    that is read as an expression is written as it was, with truth values in place of the symbols
    for them where an expression stands. -/
theorem unread_inverts_read (i : ObjectId) :
    (∀ e : Expr, e.Readable → Eventually fun b => Expr.read b (e.unread i) = .ok e) ∧
    (∀ b d e, Expr.read b d = .ok e → e.Readable) ∧
    ∀ b d e, Expr.read b d = .ok e → e.unread i = d.resolve i := by
  refine ⟨fun e he => ?_, fun b d e h => ?_, fun b d e h => ?_⟩
  · exact (Expr.Readable.denotes_unread i e he).eventually_read
  · exact Expr.read_readable h
  · exact (Expr.read_denotes h).unread_eq i

end MiniLisp
