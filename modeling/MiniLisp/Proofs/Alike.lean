import MiniLisp.Proofs.Computation
import Mathlib.Data.List.Zip

/-!
# Values that no operation tells apart

Two runs of related programs do not compute with the same values: identities may differ, and
so may the bodies and the frames of closures. `Value.Alike` relates two values that have the
same shape and content otherwise, over a relation between identities and one between closures.

* `Value.Alike.inspect`, `Value.Alike.display`: alike values have the same texts.
* `Value.Alike.operate`: every operator gives alike results on alike operands, provided that
  related identities are equal on one side exactly when they are on the other.
* `Value.ClosuresIn.alike`: a datum is alike to itself when its closures are related to
  themselves.

Each statement about texts and equality is also one about bounds: a larger bound changes an
answer only when exhaustion is excused.
-/

namespace MiniLisp

namespace Value

/-- Whether a value has neither an identity nor parts. -/
def isAtom : Datum → Bool
  | int _ | frac _ | text _ | bool _ | symbol _ | null | unit | unassigned => true
  | _ => false

/-- Induction on the parts of a value. The body of a closure is code and not a part. -/
@[elab_as_elim] theorem inductionOn {P : Datum → Prop} (v : Datum)
    (atom : ∀ v : Datum, v.isAtom = true → P v) (float : ∀ i x, P (.float i x))
    (list : ∀ i xs, (∀ x ∈ xs, P x) → P (.list i xs))
    (tuple : ∀ i xs, (∀ x ∈ xs, P x) → P (.tuple i xs))
    (native : ∀ i name action, P (.native i name action))
    (closure : ∀ i param body f, P (.closure i param body f)) : P v :=
  match v with
  | .list i xs =>
    list i xs fun x _ => inductionOn x atom float list tuple native closure
  | .tuple i xs =>
    tuple i xs fun x _ => inductionOn x atom float list tuple native closure
  | .float i x => float i x
  | .native i name action => native i name action
  | .closure i param body f => closure i param body f
  | .int _ | .frac _ | .text _ | .bool _ | .symbol _ | .null | .unit | .unassigned => atom _ rfl

/-- Values of the same shape, with related identities and related closures. -/
inductive Alike (ids : ObjectId → ObjectId → Prop)
    (closures : String → Expr → FrameId → Expr → FrameId → Prop) : Datum → Datum → Prop
  | atom {v : Datum} (atomic : v.isAtom = true) : Alike ids closures v v
  | float {i j : ObjectId} {x : Float} (id : ids i j) :
      Alike ids closures (.float i x) (.float j x)
  | list {i j : ObjectId} {xs ys : List Datum} (id : ids i j) (length : xs.length = ys.length)
      (items : ∀ x y, (x, y) ∈ xs.zip ys → Alike ids closures x y) :
      Alike ids closures (.list i xs) (.list j ys)
  | tuple {i j : ObjectId} {xs ys : List Datum} (id : ids i j) (length : xs.length = ys.length)
      (items : ∀ x y, (x, y) ∈ xs.zip ys → Alike ids closures x y) :
      Alike ids closures (.tuple i xs) (.tuple j ys)
  | native {i j : ObjectId} {name : String} {action : Primitive} (id : ids i j) :
      Alike ids closures (.native i name action) (.native j name action)
  | closure {i j : ObjectId} {param : String} {body body' : Expr} {f f' : FrameId} (id : ids i j)
      (code : closures param body f body' f') :
      Alike ids closures (.closure i param body f) (.closure j param body' f')

/-- Related identities are equal on one side exactly when they are on the other. -/
def OneToOne (ids : ObjectId → ObjectId → Prop) : Prop :=
  ∀ i j i' j', ids i j → ids i' j' → (i = i' ↔ j = j')

namespace Alike

open Outcome (Follows)

variable {ids ids' : ObjectId → ObjectId → Prop}
  {closures closures' : String → Expr → FrameId → Expr → FrameId → Prop}
  {excused : Stop → Prop} {b b' : Nat} {v v' w w' : Datum}

theorem mono (h : Alike ids closures v w) (hids : ∀ i j, ids i j → ids' i j)
    (hclosures : ∀ p e f e' f', closures p e f e' f' → closures' p e f e' f') :
    Alike ids' closures' v w := by
  induction h with
  | atom h => exact .atom h
  | float h => exact .float (hids _ _ h)
  | list h len _ ih => exact .list (hids _ _ h) len ih
  | tuple h len _ ih => exact .tuple (hids _ _ h) len ih
  | native h => exact .native (hids _ _ h)
  | closure h hc => exact .closure (hids _ _ h) (hclosures _ _ _ _ _ hc)

theorem swap (h : Alike ids closures v w) :
    Alike (fun i j => ids j i) (fun p e f e' f' => closures p e' f' e f) w v := by
  have hzip : ∀ {xs ys : List Datum} {x y : Datum}, (x, y) ∈ ys.zip xs → (y, x) ∈ xs.zip ys := by
    intro xs ys x y hxy
    rw [← List.zip_swap, List.mem_map] at hxy
    obtain ⟨⟨a, c⟩, hac, heq⟩ := hxy
    cases heq
    exact hac
  induction h with
  | atom h => exact .atom h
  | float h => exact .float h
  | list h len _ ih => exact .list h len.symm fun x y hxy => ih y x (hzip hxy)
  | tuple h len _ ih => exact .tuple h len.symm fun x y hxy => ih y x (hzip hxy)
  | native h => exact .native h
  | closure h hc => exact .closure h hc

theorem list_self {i : ObjectId} {xs : List Datum} (id : ids i i)
    (h : ∀ x ∈ xs, Alike ids closures x x) : Alike ids closures (.list i xs) (.list i xs) :=
  .list id rfl fun _ _ hxy => List.forall₂_zip (List.forall₂_same.mpr h) hxy

theorem tuple_self {i : ObjectId} {xs : List Datum} (id : ids i i)
    (h : ∀ x ∈ xs, Alike ids closures x x) : Alike ids closures (.tuple i xs) (.tuple i xs) :=
  .tuple id rfl fun _ _ hxy => List.forall₂_zip (List.forall₂_same.mpr h) hxy

theorem refl (hids : ∀ i, ids i i) (hclosures : ∀ p e f, closures p e f e f) (v : Datum) :
    Alike ids closures v v := by
  induction v using Value.inductionOn with
  | atom v ha => exact .atom ha
  | float i x => exact .float (hids i)
  | list i xs ih => exact .list_self (hids i) ih
  | tuple i xs ih => exact .tuple_self (hids i) ih
  | native i x a => exact .native (hids i)
  | closure i x e f => exact .closure (hids i) (hclosures x e f)

theorem eq_of_alike (h : Alike ids closures v w) (hids : ∀ i j, ids i j → i = j)
    (hclosures : ∀ p e f e' f', closures p e f e' f' → e = e' ∧ f = f') : v = w := by
  have hitems : ∀ {xs ys : List Datum}, xs.length = ys.length →
      (∀ x y, (x, y) ∈ xs.zip ys → x = y) → xs = ys := by
    intro xs ys hlen hxy
    rw [← List.forall₂_eq_eq_eq]
    exact List.forall₂_iff_zip.mpr ⟨hlen, fun h => hxy _ _ h⟩
  induction h with
  | atom _ => rfl
  | float h => rw [hids _ _ h]
  | list h len _ ih => rw [hids _ _ h, hitems len ih]
  | tuple h len _ ih => rw [hids _ _ h, hitems len ih]
  | native h => rw [hids _ _ h]
  | closure h hc => rw [hids _ _ h, (hclosures _ _ _ _ _ hc).1, (hclosures _ _ _ _ _ hc).2]

theorem items_forall₂ {xs ys : List Datum} (length : xs.length = ys.length)
    (items : ∀ x y, (x, y) ∈ xs.zip ys → Alike ids closures x y) :
    List.Forall₂ (Alike ids closures) xs ys :=
  List.forall₂_iff_zip.mpr ⟨length, fun h => items _ _ h⟩

theorem number?_eq (h : Alike ids closures v v') : v.number? = v'.number? := by cases h <;> rfl

theorem scalar?_eq (h : Alike ids closures v v') : v.scalar? = v'.scalar? := by cases h <;> rfl

theorem countsAs?_eq (h : Alike ids closures v v') : v.countsAs? = v'.countsAs? := by
  cases h <;> rfl

theorem isProcedure_eq (h : Alike ids closures v v') : v.isProcedure = v'.isProcedure := by
  cases h <;> rfl

theorem isTrue_eq (h : Alike ids closures v v') : v.isTrue = v'.isTrue := by cases h <;> rfl

/-! ## Texts -/

theorem inspectWith (h : Alike ids closures v w) (hb : Stop.Within excused b b')
    (integer : Int → Outcome String) :
    Follows excused Eq (v.inspectWith integer b) (w.inspectWith integer b') := by
  induction b generalizing b' v w with
  | zero => exact hb.zero_left (fun b => w.inspectWith integer b) rfl
  | succ b ih =>
    obtain ⟨c, rfl, hc⟩ := hb.succ_left
    cases h with
    | atom h => cases v <;> first | exact .refl _ | simp [isAtom] at h
    | float | native | closure => exact .refl _
    | list _ len items | tuple _ len items =>
      exact (Follows.mapM_eq (items_forall₂ len items) fun x y hxy => ih hxy hc).map _

theorem inspect (h : Alike ids closures v w) (hb : Stop.Within excused b b') :
    Follows excused Eq (v.inspect b) (w.inspect b') := h.inspectWith hb integerText

theorem plain (h : Alike ids closures v w) (hb : Stop.Within excused b b') :
    Follows excused Eq (v.plain b) (w.plain b') := by
  have hi := h.inspect hb
  cases h with
  | atom h => cases v <;> first | exact .refl _ | exact hi
  | _ => exact hi

theorem displayNested (h : Alike ids closures v w) (hb : Stop.Within excused b b') :
    Follows excused Eq (v.displayNested b) (w.displayNested b') := by
  induction b generalizing b' v w with
  | zero => exact hb.zero_left (fun b => w.displayNested b) rfl
  | succ b ih =>
    have hp := h.plain hb
    obtain ⟨c, rfl, hc⟩ := hb.succ_left
    cases h with
    | atom h =>
      cases v with
      | bool t => cases t <;> exact .refl _
      | list | tuple => simp [isAtom] at h
      | _ => exact .refl _
    | float | native | closure => exact hp
    | list _ len items | tuple _ len items =>
      exact (Follows.mapM_eq (items_forall₂ len items) fun x y hxy => ih hxy hc).map _

theorem display (h : Alike ids closures v w) (hb : Stop.Within excused b b') :
    Follows excused Eq (v.display b) (w.display b') := by
  have hn := h.displayNested hb
  cases h with
  | atom h => cases v <;> first | exact .refl _ | exact hn
  | _ => exact hn

/-! ## Equality and operators -/

theorem same_eq (hids : OneToOne ids) (h : Alike ids closures v v')
    (k : Alike ids closures w w') : v.same w = v'.same w' := by
  cases h with
  | atom hv =>
    cases k with
    | atom _ => rfl
    | _ => cases v <;> simp_all [Value.same, isAtom]
  | _ =>
    cases k with
    | atom hw => cases w <;> simp_all [Value.same, isAtom]
    | _ => first | rfl | exact decide_eq_decide.mpr (hids _ _ _ _ ‹_› ‹_›)

theorem allPairs {test test' : Datum → Datum → Outcome Bool} {xs xs' ys ys' : List Datum}
    (hxs : List.Forall₂ (Alike ids closures) xs xs')
    (hys : List.Forall₂ (Alike ids closures) ys ys')
    (htest : ∀ x x' y y', Alike ids closures x x' → Alike ids closures y y' →
      Follows excused Eq (test x y) (test' x' y')) :
    Follows excused Eq (Value.allPairs test xs ys) (Value.allPairs test' xs' ys') := by
  induction hxs generalizing ys ys' with
  | nil => exact .refl _
  | cons hx _ ih =>
    cases hys with
    | nil => exact .refl _
    | cons hy hys =>
      refine (htest _ _ _ _ hx hy).bind fun p q hpq => ?_
      subst hpq
      cases p with
      | false => exact .refl _
      | true => exact ih hys

theorem agree (hids : OneToOne ids) (h : Alike ids closures v v') (k : Alike ids closures w w')
    (hb : Stop.Within excused b b') : Follows excused Eq (v.agree b w) (v'.agree b' w') := by
  induction b generalizing b' v w v' w' with
  | zero => exact hb.zero_left (fun b => v'.agree b w') rfl
  | succ b ih =>
    obtain ⟨c, rfl, hc⟩ := hb.succ_left
    have hpairs : ∀ x x' y y', Alike ids closures x x' → Alike ids closures y y' →
        Follows excused Eq (x.agree b y) (x'.agree c y') := fun x x' y y' hx hy => ih hx hy hc
    unfold Value.agree
    rw [h.same_eq hids k, h.countsAs?_eq, k.countsAs?_eq]
    split
    · exact .refl _
    split
    · exact .refl _
    -- only two lists or two tuples are searched
    cases h with
    | list _ len items =>
      cases k with
      | list _ len' items' =>
        simp only [len, len']
        split
        · exact allPairs (items_forall₂ len items) (items_forall₂ len' items') hpairs
        · exact .refl _
      | atom ha => cases w <;> first | exact .refl _ | simp [isAtom] at ha
      | _ => exact .refl _
    | tuple _ len items =>
      cases k with
      | tuple _ len' items' =>
        simp only [len, len']
        refine (allPairs (items_forall₂ len items) (items_forall₂ len' items') hpairs).bind
          fun p q hpq => ?_
        rw [hpq]
        exact .refl _
      | atom ha => cases w <;> first | exact .refl _ | simp [isAtom] at ha
      | _ => exact .refl _
    | atom ha => cases v <;> first | exact .refl _ | simp [isAtom] at ha
    | _ => exact .refl _

theorem equal (hids : OneToOne ids) (h : Alike ids closures v v') (k : Alike ids closures w w')
    (hb : Stop.Within excused b b') : Follows excused Eq (v.equal b w) (v'.equal b' w') := by
  induction b generalizing b' v w v' w' with
  | zero => exact hb.zero_left (fun b => v'.equal b w') rfl
  | succ b ih =>
    obtain ⟨c, rfl, hc⟩ := hb.succ_left
    have hagree := h.agree hids k hc
    unfold Value.equal
    rw [h.same_eq hids k, h.number?_eq, k.number?_eq]
    split
    · exact .refl _
    split
    · exact .refl _
    cases h with
    | list _ len items =>
      cases k with
      | list _ len' items' =>
        simp only [len, len']
        split
        · exact allPairs (items_forall₂ len items) (items_forall₂ len' items')
            fun x x' y y' hx hy => ih hx hy hc
        · exact .refl _
      | atom ha => cases w <;> first | exact .refl _ | simp [isAtom] at ha
      | _ => exact .refl _
    | tuple _ len items =>
      cases k with
      | tuple _ len' items' => exact hagree
      | atom ha => cases w <;> first | exact .refl _ | simp [isAtom] at ha
      | _ => exact .refl _
    | atom ha => cases v <;> first | exact .refl _ | simp [isAtom] at ha
    | _ => exact .refl _

theorem ofNumber {i j : ObjectId} (h : ids i j) (n : Number) :
    Alike ids closures (.ofNumber i n) (.ofNumber j n) := by
  cases n with
  | float x => exact .float h
  | _ => exact .atom rfl

theorem ofScalar {i j : ObjectId} (h : ids i j) (s : Scalar) :
    Alike ids closures (.ofScalar i s) (.ofScalar j s) := by
  cases s with
  | number n => exact .ofNumber h n
  | _ => exact .atom rfl

theorem onNumbers {i j : ObjectId} (h : ids i j) (op : Operator) (m n : Number) :
    Follows excused (Alike ids closures) (op.onNumbers i m n) (op.onNumbers j m n) := by
  have hresult : ∀ x, Follows excused (Alike ids closures) (op.result i x) (op.result j x) := by
    intro x
    cases x with
    | ok n => exact .pure (ofNumber h n)
    | error e => exact .error _
  cases op <;> first | exact hresult _ | exact .pure (.atom rfl)

theorem operate {i j : ObjectId} (hids : OneToOne ids) (h : Alike ids closures v v')
    (k : Alike ids closures w w') (hij : ids i j) (hb : Stop.Within excused b b')
    (op : String) :
    Follows excused (Alike ids closures) (v.operate b i op w) (v'.operate b' j op w') := by
  unfold Value.operate
  rw [h.number?_eq, k.number?_eq]
  split
  · exact .error _
  · refine (h.equal hids k hb).bind fun p q hpq => ?_
    rw [hpq]
    exact .pure (.atom rfl)
  · split
    · exact onNumbers hij _ _ _
    · refine (h.inspect hb).bind fun s t hst => (k.inspect hb).bind fun s' t' hst' => ?_
      rw [hst, hst']
      exact .error _

end Alike

theorem alike_self (v : Datum) : Alike Eq (fun _ e f e' f' => e = e' ∧ f = f') v v :=
  .refl (fun _ => rfl) (fun _ _ _ => ⟨rfl, rfl⟩) v

theorem oneToOne_eq : OneToOne Eq := by
  rintro i _ j _ rfl rfl
  rfl

section Bounds

variable {excused : Stop → Prop} {b b' : Nat}

/-- A larger bound changes the text of a value only when exhaustion is excused. -/
theorem inspect_follows (v : Datum) (hb : Stop.Within excused b b') :
    Outcome.Follows excused Eq (v.inspect b) (v.inspect b') := v.alike_self.inspect hb

/-- A larger bound changes what is printed for a value only when exhaustion is excused. -/
theorem display_follows (v : Datum) (hb : Stop.Within excused b b') :
    Outcome.Follows excused Eq (v.display b) (v.display b') := v.alike_self.display hb

/-- A larger bound changes the result of an operator only when exhaustion is excused. -/
theorem operate_follows (v w : Datum) (i : ObjectId) (op : String)
    (hb : Stop.Within excused b b') :
    Outcome.Follows excused Eq (v.operate b i op w) (v.operate b' i op w) := by
  have hfollows := v.alike_self.operate oneToOne_eq w.alike_self (Eq.refl i) hb op
  refine hfollows.imp id fun h => h.mono fun v₁ v₂ h => ?_
  exact h.eq_of_alike (fun _ _ h => h) fun _ _ _ _ _ h => h

end Bounds

end Value

/-- A larger bound changes the text of an expression only when exhaustion is excused. -/
theorem Expr.inspect_follows {excused : Stop → Prop} {b b' : Nat} (e : Expr)
    (hb : Stop.Within excused b b') :
    Outcome.Follows excused Eq (e.inspect b) (e.inspect b') := by
  induction b generalizing b' e with
  | zero => exact hb.zero_left (fun b => e.inspect b) rfl
  | succ b ih =>
    obtain ⟨c, rfl, hc⟩ := hb.succ_left
    have hdatum : ∀ v : Datum, Outcome.Follows excused Eq (v.inspect b) (v.inspect c) :=
      fun v => v.inspect_follows hc
    cases e with
    | text s => exact .refl _
    | truth t => exact .refl _
    | name x => exact .refl _
    | numeral v => exact (hdatum v).map _
    | quote v => exact (hdatum v).map _
    | stray v => exact hdatum v
    | define x e => exact (ih e hc).map _
    | lambda x e => exact (ih e hc).map _
    | begin es =>
      have hes : List.Forall₂ Eq es es := List.forall₂_same.mpr fun _ _ => rfl
      exact (Outcome.Follows.mapM_eq hes fun e _ he => he ▸ ih e hc).map _
    | letrec x e₁ e₂ | binary op e₁ e₂ | apply e₁ e₂ =>
      refine (ih e₁ hc).bind fun s _ hs => ?_
      subst hs
      exact (ih e₂ hc).map _
    | branch e₁ e₂ e₃ =>
      refine (ih e₁ hc).bind fun s₁ _ hs₁ => (ih e₂ hc).bind fun s₂ _ hs₂ => ?_
      subst hs₁ hs₂
      exact (ih e₃ hc).map _
    | loop i e₁ e₂ u e₃ e₄ =>
      refine (ih e₁ hc).bind fun s₁ _ hs₁ => (ih e₂ hc).bind fun s₂ _ hs₂ =>
        (ih e₃ hc).bind fun s₃ _ hs₃ => ?_
      subst hs₁ hs₂ hs₃
      exact (ih e₄ hc).map _

/-! ## Closures among data -/

mutual

/-- Every closure in the data of an expression is of one of the given frames, and its body is
    an expression of which this holds again. -/
def Expr.ClosuresIn (frames : FrameId → Prop) : Expr → Prop
  | .numeral v | .quote v | .stray v => v.ClosuresIn frames
  | .text _ | .truth _ | .name _ => True
  | .define _ e | .lambda _ e => e.ClosuresIn frames
  | .letrec _ e₁ e₂ | .binary _ e₁ e₂ | .apply e₁ e₂ =>
    e₁.ClosuresIn frames ∧ e₂.ClosuresIn frames
  | .branch e₁ e₂ e₃ => e₁.ClosuresIn frames ∧ e₂.ClosuresIn frames ∧ e₃.ClosuresIn frames
  | .begin es => Expr.AllClosuresIn frames es
  | .loop _ e₁ e₂ _ e₃ e₄ =>
    e₁.ClosuresIn frames ∧ e₂.ClosuresIn frames ∧ e₃.ClosuresIn frames ∧ e₄.ClosuresIn frames

/-- `Expr.ClosuresIn` of every expression of a list. -/
def Expr.AllClosuresIn (frames : FrameId → Prop) : List Expr → Prop
  | [] => True
  | e :: es => e.ClosuresIn frames ∧ Expr.AllClosuresIn frames es

/-- Every closure in a value is of one of the given frames, and so are those in its body. -/
def Value.ClosuresIn (frames : FrameId → Prop) : Value Expr → Prop
  | .list _ items | .tuple _ items => Value.AllClosuresIn frames items
  | .closure _ _ body f => frames f ∧ body.ClosuresIn frames
  | _ => True

/-- `Value.ClosuresIn` of every value of a list. -/
def Value.AllClosuresIn (frames : FrameId → Prop) : List (Value Expr) → Prop
  | [] => True
  | v :: vs => v.ClosuresIn frames ∧ Value.AllClosuresIn frames vs

end

mutual

theorem Expr.closuresIn_of_forall {frames : FrameId → Prop} (h : ∀ f, frames f) :
    ∀ e : Expr, e.ClosuresIn frames
  | .numeral v | .quote v | .stray v => Value.closuresIn_of_forall h v
  | .text _ | .truth _ | .name _ => trivial
  | .define _ e | .lambda _ e => Expr.closuresIn_of_forall h e
  | .letrec _ e₁ e₂ | .binary _ e₁ e₂ | .apply e₁ e₂ =>
    ⟨Expr.closuresIn_of_forall h e₁, Expr.closuresIn_of_forall h e₂⟩
  | .branch e₁ e₂ e₃ =>
    ⟨Expr.closuresIn_of_forall h e₁, Expr.closuresIn_of_forall h e₂,
      Expr.closuresIn_of_forall h e₃⟩
  | .begin es => Expr.allClosuresIn_of_forall h es
  | .loop _ e₁ e₂ _ e₃ e₄ =>
    ⟨Expr.closuresIn_of_forall h e₁, Expr.closuresIn_of_forall h e₂,
      Expr.closuresIn_of_forall h e₃, Expr.closuresIn_of_forall h e₄⟩

theorem Expr.allClosuresIn_of_forall {frames : FrameId → Prop} (h : ∀ f, frames f) :
    ∀ es : List Expr, Expr.AllClosuresIn frames es
  | [] => trivial
  | e :: es => ⟨Expr.closuresIn_of_forall h e, Expr.allClosuresIn_of_forall h es⟩

theorem Value.closuresIn_of_forall {frames : FrameId → Prop} (h : ∀ f, frames f) :
    ∀ v : Value Expr, v.ClosuresIn frames
  | .list _ items | .tuple _ items => Value.allClosuresIn_of_forall h items
  | .closure _ _ body f => ⟨h f, Expr.closuresIn_of_forall h body⟩
  | .int _ | .frac _ | .float _ _ | .text _ | .bool _ | .symbol _ | .null | .unit | .unassigned
  | .native _ _ _ => trivial

theorem Value.allClosuresIn_of_forall {frames : FrameId → Prop} (h : ∀ f, frames f) :
    ∀ vs : List (Value Expr), Value.AllClosuresIn frames vs
  | [] => trivial
  | v :: vs => ⟨Value.closuresIn_of_forall h v, Value.allClosuresIn_of_forall h vs⟩

end

mutual

theorem Expr.closuresIn_mono {frames frames' : FrameId → Prop} (h : ∀ f, frames f → frames' f) :
    ∀ e : Expr, e.ClosuresIn frames → e.ClosuresIn frames'
  | .numeral v, hv | .quote v, hv | .stray v, hv => Value.closuresIn_mono h v hv
  | .text _, _ | .truth _, _ | .name _, _ => trivial
  | .define _ e, he | .lambda _ e, he => Expr.closuresIn_mono h e he
  | .letrec _ e₁ e₂, he | .binary _ e₁ e₂, he | .apply e₁ e₂, he =>
    ⟨Expr.closuresIn_mono h e₁ he.1, Expr.closuresIn_mono h e₂ he.2⟩
  | .branch e₁ e₂ e₃, he =>
    ⟨Expr.closuresIn_mono h e₁ he.1, Expr.closuresIn_mono h e₂ he.2.1,
      Expr.closuresIn_mono h e₃ he.2.2⟩
  | .begin es, hes => Expr.allClosuresIn_mono h es hes
  | .loop _ e₁ e₂ _ e₃ e₄, he =>
    ⟨Expr.closuresIn_mono h e₁ he.1, Expr.closuresIn_mono h e₂ he.2.1,
      Expr.closuresIn_mono h e₃ he.2.2.1, Expr.closuresIn_mono h e₄ he.2.2.2⟩

theorem Expr.allClosuresIn_mono {frames frames' : FrameId → Prop}
    (h : ∀ f, frames f → frames' f) :
    ∀ es : List Expr, Expr.AllClosuresIn frames es → Expr.AllClosuresIn frames' es
  | [], _ => trivial
  | e :: es, hes => ⟨Expr.closuresIn_mono h e hes.1, Expr.allClosuresIn_mono h es hes.2⟩

theorem Value.closuresIn_mono {frames frames' : FrameId → Prop} (h : ∀ f, frames f → frames' f) :
    ∀ v : Value Expr, v.ClosuresIn frames → v.ClosuresIn frames'
  | .list _ items, hv | .tuple _ items, hv => Value.allClosuresIn_mono h items hv
  | .closure _ _ body f, hv => ⟨h f hv.1, Expr.closuresIn_mono h body hv.2⟩
  | .int _, _ | .frac _, _ | .float _ _, _ | .text _, _ | .bool _, _ | .symbol _, _ | .null, _
  | .unit, _ | .unassigned, _ | .native _ _ _, _ => trivial

theorem Value.allClosuresIn_mono {frames frames' : FrameId → Prop}
    (h : ∀ f, frames f → frames' f) :
    ∀ vs : List (Value Expr), Value.AllClosuresIn frames vs → Value.AllClosuresIn frames' vs
  | [], _ => trivial
  | v :: vs, hvs => ⟨Value.closuresIn_mono h v hvs.1, Value.allClosuresIn_mono h vs hvs.2⟩

end

@[simp] theorem Value.allClosuresIn_iff {frames : FrameId → Prop} {vs : List Datum} :
    Value.AllClosuresIn frames vs ↔ ∀ v ∈ vs, v.ClosuresIn frames := by
  induction vs with
  | nil => simp [Value.AllClosuresIn]
  | cons v vs ih => simp [Value.AllClosuresIn, ih]

@[simp] theorem Expr.allClosuresIn_iff {frames : FrameId → Prop} {es : List Expr} :
    Expr.AllClosuresIn frames es ↔ ∀ e ∈ es, e.ClosuresIn frames := by
  induction es with
  | nil => simp [Expr.AllClosuresIn]
  | cons e es ih => simp [Expr.AllClosuresIn, ih]

/-- A value is alike to itself when its closures are related to themselves. -/
theorem Value.ClosuresIn.alike {ids : ObjectId → ObjectId → Prop} {frames : FrameId → Prop}
    {closures : String → Expr → FrameId → Expr → FrameId → Prop} (hids : ∀ i, ids i i)
    (hclosures : ∀ p e f, frames f → e.ClosuresIn frames → closures p e f e f) {v : Datum}
    (h : v.ClosuresIn frames) : Value.Alike ids closures v v := by
  induction v using Value.inductionOn with
  | atom v ha => exact .atom ha
  | float i x => exact .float (hids i)
  | list i xs ih =>
    have hxs := Value.allClosuresIn_iff.mp h
    exact .list_self (hids i) fun x hx => ih x hx (hxs x hx)
  | tuple i xs ih =>
    have hxs := Value.allClosuresIn_iff.mp h
    exact .tuple_self (hids i) fun x hx => ih x hx (hxs x hx)
  | native i x a => exact .native (hids i)
  | closure i x e f => exact .closure (hids i) (hclosures x e f h.1 h.2)

/-- In lists of one length, each element of the first stands beside one of the second. -/
theorem exists_mem_zip_left {α β : Type} {as : List α} {bs : List β} (h : as.length = bs.length)
    {a : α} (ha : a ∈ as) : ∃ b, (a, b) ∈ as.zip bs := by
  rw [← List.map_fst_zip h.le] at ha
  obtain ⟨⟨_, b⟩, hmem, rfl⟩ := List.mem_map.mp ha
  exact ⟨b, hmem⟩

/-- In lists of one length, each element of the second stands beside one of the first. -/
theorem exists_mem_zip {α β : Type} {as : List α} {bs : List β} (h : as.length = bs.length) {b : β}
    (hb : b ∈ bs) : ∃ a, (a, b) ∈ as.zip bs := by
  rw [← List.map_snd_zip h.ge] at hb
  obtain ⟨⟨a, _⟩, hmem, rfl⟩ := List.mem_map.mp hb
  exact ⟨a, hmem⟩

/-- The closures in a value are of the frames that related closures are of. -/
theorem Value.Alike.closuresIn {ids : ObjectId → ObjectId → Prop} {frames : FrameId → Prop}
    {closures : String → Expr → FrameId → Expr → FrameId → Prop} {v w : Datum}
    (h : Value.Alike ids closures v w)
    (hclosures : ∀ p e f e' f', closures p e f e' f' → frames f ∧ e.ClosuresIn frames) :
    v.ClosuresIn frames := by
  have hitems : ∀ {xs ys : List Datum}, xs.length = ys.length →
      (∀ x y, (x, y) ∈ xs.zip ys → x.ClosuresIn frames) → Value.AllClosuresIn frames xs := by
    intro xs ys hlen hxy
    refine Value.allClosuresIn_iff.mpr fun x hx => ?_
    obtain ⟨y, hmem⟩ := exists_mem_zip_left hlen hx
    exact hxy x y hmem
  induction h with
  | @atom v ha => cases v <;> trivial
  | float _ => trivial
  | list _ len _ ih => exact hitems len ih
  | tuple _ len _ ih => exact hitems len ih
  | native _ => trivial
  | closure _ hc => exact hclosures _ _ _ _ _ hc

end MiniLisp
