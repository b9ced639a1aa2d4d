import MiniLisp.Proofs.Alike

/-!
# Classes of code

Most invariants of evaluation restrict the code that is evaluated: which data it holds, which
forms occur in it. Evaluation stays within such a class because the class is handed down to the
parts of an expression, and to the bodies of the closures that are made of them.

* `Expr.Hereditary`: a class of code that holds of the parts of its members.
* `Value.Each`, `Expr.Each`: a condition on every value inside a value, and on every expression
  inside an expression. The latter are hereditary.
* `Value.Throughout`, `Expr.Throughout`: a condition on every value inside, also on those in the
  bodies of closures.
-/

namespace MiniLisp

/-- A class of expressions is handed down to the parts of an expression, and one of data to the
    data in it. -/
structure Expr.Hereditary (code : Expr → Prop) (data : Datum → Prop) : Prop where
  numeral : ∀ {v}, code (.numeral v) → data v
  quote : ∀ {d}, code (.quote d) → data d
  define : ∀ {x e}, code (.define x e) → code e
  letrec : ∀ {x e₁ e₂}, code (.letrec x e₁ e₂) → code e₁ ∧ code e₂
  binary : ∀ {op e₁ e₂}, code (.binary op e₁ e₂) → code e₁ ∧ code e₂
  branch : ∀ {e₁ e₂ e₃}, code (.branch e₁ e₂ e₃) → code e₁ ∧ code e₂ ∧ code e₃
  begin : ∀ {es}, code (.begin es) → ∀ e ∈ es, code e
  lambda : ∀ {x e}, code (.lambda x e) → code e
  apply : ∀ {e₁ e₂}, code (.apply e₁ e₂) → code e₁ ∧ code e₂

theorem Expr.closuresIn_hereditary (frames : FrameId → Prop) :
    Expr.Hereditary (Expr.ClosuresIn frames) (Value.ClosuresIn frames) where
  numeral h := h
  quote h := h
  define h := h
  letrec h := h
  binary h := h
  branch h := h
  begin h := Expr.allClosuresIn_iff.mp h
  lambda h := h
  apply h := h

/-! ## Conditions on every part -/

namespace Value

mutual

/-- A condition on a value and on all elements of lists and tuples inside it. -/
def Each (part : Datum → Prop) : Value Expr → Prop
  | .list i items => part (.list i items) ∧ EachOf part items
  | .tuple i items => part (.tuple i items) ∧ EachOf part items
  | v => part v

/-- `Value.Each` of every value of a list. -/
def EachOf (part : Datum → Prop) : List (Value Expr) → Prop
  | [] => True
  | v :: vs => v.Each part ∧ EachOf part vs

end

theorem Each.self {part : Datum → Prop} {v : Datum} (h : v.Each part) : part v := by
  cases v <;> first | exact h.1 | exact h

@[simp] theorem eachOf_iff {part : Datum → Prop} {vs : List Datum} :
    EachOf part vs ↔ ∀ v ∈ vs, v.Each part := by
  induction vs with
  | nil => simp [EachOf]
  | cons v vs ih => simp [EachOf, ih]

end Value

namespace Expr

mutual

/-- A condition on an expression and on all expressions inside it. -/
def Each (node : Expr → Prop) : Expr → Prop
  | .define x e => node (.define x e) ∧ e.Each node
  | .letrec x e₁ e₂ => node (.letrec x e₁ e₂) ∧ e₁.Each node ∧ e₂.Each node
  | .binary op e₁ e₂ => node (.binary op e₁ e₂) ∧ e₁.Each node ∧ e₂.Each node
  | .branch e₁ e₂ e₃ => node (.branch e₁ e₂ e₃) ∧ e₁.Each node ∧ e₂.Each node ∧ e₃.Each node
  | .begin es => node (.begin es) ∧ EachOf node es
  | .lambda x e => node (.lambda x e) ∧ e.Each node
  | .apply e₁ e₂ => node (.apply e₁ e₂) ∧ e₁.Each node ∧ e₂.Each node
  | .loop i e₁ e₂ u e₃ e₄ =>
    node (.loop i e₁ e₂ u e₃ e₄) ∧ e₁.Each node ∧ e₂.Each node ∧ e₃.Each node ∧ e₄.Each node
  | e => node e

/-- `Expr.Each` of every expression of a list. -/
def EachOf (node : Expr → Prop) : List Expr → Prop
  | [] => True
  | e :: es => e.Each node ∧ EachOf node es

end

theorem Each.self {node : Expr → Prop} {e : Expr} (h : e.Each node) : node e := by
  cases e <;> first | exact h.1 | exact h

@[simp] theorem eachOf_iff {node : Expr → Prop} {es : List Expr} :
    EachOf node es ↔ ∀ e ∈ es, e.Each node := by
  induction es with
  | nil => simp [EachOf]
  | cons e es ih => simp [EachOf, ih]

theorem each_hereditary {node : Expr → Prop} {data : Datum → Prop}
    (hnumeral : ∀ {v}, node (.numeral v) → data v) (hquote : ∀ {d}, node (.quote d) → data d) :
    Hereditary (Each node) data where
  numeral h := hnumeral h
  quote h := hquote h
  define h := h.2
  letrec h := h.2
  binary h := h.2
  branch h := h.2
  begin h := eachOf_iff.mp h.2
  lambda h := h.2
  apply h := h.2

mutual

/-- The closures in an expression are those in its data. -/
theorem Each.closuresIn {node : Expr → Prop} {frames : FrameId → Prop}
    (hdata : ∀ d, node (.numeral d) ∨ node (.quote d) ∨ node (.stray d) → d.ClosuresIn frames) :
    ∀ e : Expr, e.Each node → e.ClosuresIn frames
  | .numeral d, h => hdata d (.inl h)
  | .quote d, h => hdata d (.inr (.inl h))
  | .stray d, h => hdata d (.inr (.inr h))
  | .text _, _ | .truth _, _ | .name _, _ => trivial
  | .define _ e, h | .lambda _ e, h => Each.closuresIn hdata e h.2
  | .letrec _ e₁ e₂, h | .binary _ e₁ e₂, h | .apply e₁ e₂, h =>
    ⟨Each.closuresIn hdata e₁ h.2.1, Each.closuresIn hdata e₂ h.2.2⟩
  | .branch e₁ e₂ e₃, h =>
    ⟨Each.closuresIn hdata e₁ h.2.1, Each.closuresIn hdata e₂ h.2.2.1,
      Each.closuresIn hdata e₃ h.2.2.2⟩
  | .begin es, h => EachOf.closuresIn hdata es h.2
  | .loop _ e₁ e₂ _ e₃ e₄, h =>
    ⟨Each.closuresIn hdata e₁ h.2.1, Each.closuresIn hdata e₂ h.2.2.1,
      Each.closuresIn hdata e₃ h.2.2.2.1, Each.closuresIn hdata e₄ h.2.2.2.2⟩

theorem EachOf.closuresIn {node : Expr → Prop} {frames : FrameId → Prop}
    (hdata : ∀ d, node (.numeral d) ∨ node (.quote d) ∨ node (.stray d) → d.ClosuresIn frames) :
    ∀ es : List Expr, EachOf node es → AllClosuresIn frames es
  | [], _ => trivial
  | e :: es, h => ⟨Each.closuresIn hdata e h.1, EachOf.closuresIn hdata es h.2⟩

end

end Expr

/-! ## Conditions on every part, also in the bodies of closures -/

mutual

/-- A condition on all values in the data of an expression. -/
def Expr.Throughout (part : Datum → Prop) : Expr → Prop
  | .numeral v | .quote v | .stray v => v.Throughout part
  | .text _ | .truth _ | .name _ => True
  | .define _ e | .lambda _ e => e.Throughout part
  | .letrec _ e₁ e₂ | .binary _ e₁ e₂ | .apply e₁ e₂ => e₁.Throughout part ∧ e₂.Throughout part
  | .branch e₁ e₂ e₃ => e₁.Throughout part ∧ e₂.Throughout part ∧ e₃.Throughout part
  | .begin es => Expr.AllThroughout part es
  | .loop _ e₁ e₂ _ e₃ e₄ =>
    e₁.Throughout part ∧ e₂.Throughout part ∧ e₃.Throughout part ∧ e₄.Throughout part

/-- `Expr.Throughout` of every expression of a list. -/
def Expr.AllThroughout (part : Datum → Prop) : List Expr → Prop
  | [] => True
  | e :: es => e.Throughout part ∧ Expr.AllThroughout part es

/-- A condition on a value and on all values inside it, those in the bodies of closures
    included. -/
def Value.Throughout (part : Datum → Prop) : Value Expr → Prop
  | .list i items => part (.list i items) ∧ Value.AllThroughout part items
  | .tuple i items => part (.tuple i items) ∧ Value.AllThroughout part items
  | .closure i x body f => part (.closure i x body f) ∧ body.Throughout part
  | v => part v

/-- `Value.Throughout` of every value of a list. -/
def Value.AllThroughout (part : Datum → Prop) : List (Value Expr) → Prop
  | [] => True
  | v :: vs => v.Throughout part ∧ Value.AllThroughout part vs

end

mutual

theorem Expr.Throughout.mono {part part' : Datum → Prop} (h : ∀ v, part v → part' v) :
    ∀ e : Expr, e.Throughout part → e.Throughout part'
  | .numeral v, hv | .quote v, hv | .stray v, hv => Value.Throughout.mono h v hv
  | .text _, _ | .truth _, _ | .name _, _ => trivial
  | .define _ e, he | .lambda _ e, he => Expr.Throughout.mono h e he
  | .letrec _ e₁ e₂, he | .binary _ e₁ e₂, he | .apply e₁ e₂, he =>
    ⟨Expr.Throughout.mono h e₁ he.1, Expr.Throughout.mono h e₂ he.2⟩
  | .branch e₁ e₂ e₃, he =>
    ⟨Expr.Throughout.mono h e₁ he.1, Expr.Throughout.mono h e₂ he.2.1,
      Expr.Throughout.mono h e₃ he.2.2⟩
  | .begin es, hes => Expr.AllThroughout.mono h es hes
  | .loop _ e₁ e₂ _ e₃ e₄, he =>
    ⟨Expr.Throughout.mono h e₁ he.1, Expr.Throughout.mono h e₂ he.2.1,
      Expr.Throughout.mono h e₃ he.2.2.1, Expr.Throughout.mono h e₄ he.2.2.2⟩

theorem Expr.AllThroughout.mono {part part' : Datum → Prop} (h : ∀ v, part v → part' v) :
    ∀ es : List Expr, Expr.AllThroughout part es → Expr.AllThroughout part' es
  | [], _ => trivial
  | e :: es, hes => ⟨Expr.Throughout.mono h e hes.1, Expr.AllThroughout.mono h es hes.2⟩

theorem Value.Throughout.mono {part part' : Datum → Prop} (h : ∀ v, part v → part' v) :
    ∀ v : Value Expr, v.Throughout part → v.Throughout part'
  | .list _ items, hv | .tuple _ items, hv => ⟨h _ hv.1, Value.AllThroughout.mono h items hv.2⟩
  | .closure _ _ body _, hv => ⟨h _ hv.1, Expr.Throughout.mono h body hv.2⟩
  | .int _, hv | .frac _, hv | .float _ _, hv | .text _, hv | .bool _, hv | .symbol _, hv
  | .null, hv | .unit, hv | .unassigned, hv | .native _ _ _, hv => h _ hv

theorem Value.AllThroughout.mono {part part' : Datum → Prop} (h : ∀ v, part v → part' v) :
    ∀ vs : List (Value Expr), Value.AllThroughout part vs → Value.AllThroughout part' vs
  | [], _ => trivial
  | v :: vs, hvs => ⟨Value.Throughout.mono h v hvs.1, Value.AllThroughout.mono h vs hvs.2⟩

end

@[simp] theorem Expr.allThroughout_iff {part : Datum → Prop} {es : List Expr} :
    Expr.AllThroughout part es ↔ ∀ e ∈ es, e.Throughout part := by
  induction es with
  | nil => simp [Expr.AllThroughout]
  | cons e es ih => simp [Expr.AllThroughout, ih]

@[simp] theorem Value.allThroughout_iff {part : Datum → Prop} {vs : List Datum} :
    Value.AllThroughout part vs ↔ ∀ v ∈ vs, v.Throughout part := by
  induction vs with
  | nil => simp [Value.AllThroughout]
  | cons v vs ih => simp [Value.AllThroughout, ih]

theorem Expr.throughout_hereditary (part : Datum → Prop) :
    Expr.Hereditary (Expr.Throughout part) (Value.Throughout part) where
  numeral h := h
  quote h := h
  define h := h
  letrec h := h
  binary h := h
  branch h := h
  begin h := Expr.allThroughout_iff.mp h
  lambda h := h
  apply h := h

end MiniLisp
