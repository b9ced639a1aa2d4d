import MiniLisp.Proofs.Computation

/-!
# Evaluation without pending calls

`direct` evaluates an expression by plain recursion: every part is evaluated to a value by the
evaluator itself, and a closure is applied by evaluating its body in the frame that binds its
argument. Its answers are values only; there is nothing that could stand for a pending call.

`Direct.form` is one level of it, over three evaluators: one for the parts whose values are
needed on the way, one for the part in tail position, and one for the bodies of closures. With
the three kept apart, one level of the evaluator with pending calls, followed by whatever makes
these calls, is a level of this one too.

* `direct`: the evaluator.
* `Evaluator.form_value`, `Evaluator.form_resume`: a level of `Evaluator.form` as a level of
  `Direct.form`, in inner and in tail position.
* `step_induction`, `evaluate_induction`: what one level of `Direct.form` keeps holds of the
  evaluator with pending calls under all bounds.
-/

namespace MiniLisp

/-- What evaluates an expression in a frame to a value. -/
abbrev Evaluation := Expr → FrameId → Eval Datum

namespace Direct

/-- Applies a procedure to an argument: the body of a closure is evaluated by `call`. -/
def apply (call : Evaluation) (budget : Nat) (head arg : Datum) : Eval Datum :=
  match head with
  | .closure _ param body outer => do
    let frame ← Eval.bindFrame outer param arg
    call body frame
  | .native _ _ action => action.call budget arg
  | head => do Eval.fault (.notProcedure (← Eval.ofOutcome (head.inspect budget)))

/-- The value of a name, which must not be bound to the placeholder of a `letrec`. -/
def read (f : FrameId) (x : String) : Eval Datum := do
  match ← Eval.lookup f x with
  | .unassigned => Eval.fault (.uninitialised x)
  | v => pure v

theorem exec_read (f : FrameId) (x : String) (m : Machine) :
    (read f x).exec m =
      match m.heap.lookup? f x with
      | none => (.error (.fault (.unbound x)), m)
      | some .unassigned => (.error (.fault (.uninitialised x)), m)
      | some v => (.ok v, m) := by
  rw [read, Eval.exec_bind, Eval.exec_lookup]
  cases m.heap.lookup? f x with
  | none => rfl
  | some v => cases v <;> rfl

/-- Evaluates expressions one after the other; the last one gives the value. -/
def sequence (inner last : Evaluation) (f : FrameId) : List Expr → Eval Datum
  | [] => Eval.fault .emptyBegin
  | [e] => last e f
  | e :: es => do
    let _ ← inner e f
    sequence inner last f es

/-- One level of evaluation to a value: `inner` evaluates the parts whose values are needed on
    the way, `last` the part that gives the value, and `call` the bodies of closures. -/
def form (inner last call : Evaluation) (budget : Nat) : Evaluation
  | .numeral v, _ => pure v
  | .text s, _ => pure (.text s)
  | .truth b, _ => pure (.bool b)
  | .name x, f => read f x
  | .define x e, f => do
    let v ← inner e f
    Eval.define f x v
    pure v
  | .letrec x binding body, f => do
    let frame ← Eval.bindFrame f x .unassigned
    let v ← inner binding frame
    if v.isProcedure then
      Eval.define frame x v
      last body frame
    else
      Eval.fault (.bindingValue x (← Eval.ofOutcome (v.inspect budget)))
  | .quote d, _ => pure d
  | .binary op left right, f => do
    let v ← inner left f
    let w ← inner right f
    let id ← Eval.freshId
    Eval.ofOutcome (v.operate budget id op w)
  | .branch test yes no, f => do
    let v ← inner test f
    if v.isTrue then last yes f else last no f
  | .begin parts, f => sequence inner last f parts
  | .lambda param body, f => do pure (.closure (← Eval.freshId) param body f)
  | .apply callee arg, f => do
    let head ← inner callee f
    let v ← inner arg f
    apply call budget head v
  | .loop i start test assigned update body, _ =>
    Evaluator.reject budget (.loop i start test assigned update body)
  | .stray d, _ => Evaluator.reject budget (.stray d)

end Direct

/-- Evaluation by plain recursion, under a stack budget that every nested evaluation spends. -/
def direct : Nat → Evaluation
  | 0 => fun _ _ => throw .exhausted
  | budget + 1 => Direct.form (direct budget) (direct budget) (direct budget) budget

/-! ## Levels with pending calls -/

theorem Eval.fault_bind {α β : Type} (fault : Fault) (f : α → Eval β) :
    ((Eval.fault fault : Eval α) >>= f) = Eval.fault fault := rfl

namespace Evaluator

/-- The value of a pending call, for which at most `rounds` calls are made in a row. -/
def call (ev : Evaluator) : Nat → Evaluation
  | 0, _, _ => throw .unfinished
  | rounds + 1, body, frame => do ev.resume rounds (← ev body frame .tail)

theorem resume_tailCall (ev : Evaluator) (rounds : Nat) (param : String) (body : Expr)
    (frame : FrameId) :
    ev.resume rounds (.tailCall param body frame) = ev.call rounds body frame := by
  cases rounds <;> rfl

section Level

variable {p : Position} {ev : Evaluator} {rounds : Nat} {finish : Reply p → Eval Datum}
  {call : Evaluation}

theorem apply_bind (budget : Nat) (hvalue : ∀ v, finish (.value v) = pure v)
    (hcall : ∀ param body frame,
      (ev.enter rounds param body frame p >>= finish) = call body frame)
    (head arg : Datum) :
    (ev.apply rounds budget head arg p >>= finish) = Direct.apply call budget head arg := by
  cases head <;> simp [apply, Direct.apply, hvalue, hcall, Eval.fault_bind]

theorem sequence_bind (f : FrameId) (parts : List Expr) :
    (ev.sequence f p parts >>= finish) =
      Direct.sequence ev.value (fun e f => ev e f p >>= finish) f parts := by
  fun_induction Direct.sequence ev.value (fun e f => ev e f p >>= finish) f parts with
  | case1 => simp [sequence, Eval.fault_bind]
  | case2 => simp [sequence]
  | case3 e es _ ih => simp [sequence, ih]

/-- A level of evaluation followed by `finish`, which makes pending calls: the part in tail
    position is what `finish` is applied to, and closures are called as `finish` calls them. -/
theorem form_bind (budget : Nat) (hvalue : ∀ v, finish (.value v) = pure v)
    (hcall : ∀ param body frame,
      (ev.enter rounds param body frame p >>= finish) = call body frame)
    (e : Expr) (f : FrameId) :
    (ev.form rounds budget e f p >>= finish) =
      Direct.form ev.value (fun e f => ev e f p >>= finish) call budget e f := by
  cases e with
  | name x =>
    simp only [form, Direct.form, Direct.read, bind_assoc]
    congr 1; funext v
    cases v <;> simp [hvalue, Eval.fault_bind]
  | letrec x binding body =>
    simp only [form, Direct.form, bind_assoc]
    congr 1; funext frame
    congr 1; funext v
    split <;> simp [Eval.fault_bind]
  | branch test yes no =>
    simp only [form, Direct.form, bind_assoc]
    congr 1; funext v
    split <;> rfl
  | begin parts => exact sequence_bind f parts
  | apply callee arg => simp [form, Direct.form, apply_bind budget hvalue hcall]
  | _ => simp [form, Direct.form, hvalue, reject, Eval.fault_bind]

end Level

theorem form_value (ev : Evaluator) (rounds budget : Nat) (e : Expr) (f : FrameId) :
    (ev.form rounds budget).value e f =
      Direct.form ev.value ev.value (ev.call (rounds + 1)) budget e f := by
  apply form_bind
  · intro v; rfl
  · intro param body frame
    simp [enter, call]

theorem form_resume (ev ev' : Evaluator) (rounds rounds' budget : Nat) (e : Expr) (f : FrameId) :
    (ev.form rounds budget e f .tail >>= ev'.resume rounds') =
      Direct.form ev.value (fun e f => ev e f .tail >>= ev'.resume rounds') (ev'.call rounds')
        budget e f := by
  apply form_bind
  · intro v; cases rounds' <;> rfl
  · intro param body frame
    exact resume_tailCall ev' rounds' param body frame

end Evaluator

/-! ## Induction over the bounds -/

section Induction

variable {P : Evaluation → Prop} (hexhausted : P fun _ _ => throw .exhausted)
  (hunfinished : P fun _ _ => throw .unfinished)
  (hform : ∀ {inner last call} (budget : Nat), P inner → P last → P call →
    P (Direct.form inner last call budget))
include hunfinished in
/-- A property of evaluations that is kept by one more call is one of any number of calls. -/
theorem call_induction {ev : Evaluator}
    (hcall : ∀ rounds, P (ev.call rounds) → P fun e f => ev e f .tail >>= ev.resume rounds)
    (rounds : Nat) : P (ev.call rounds) := by
  induction rounds with
  | zero => exact hunfinished
  | succ rounds ih => exact hcall rounds ih

include hexhausted hunfinished hform

/-- A property of evaluations that one level keeps is one of every step: of the value of a step
    in inner position, and of a step in tail position followed by calls that have it. -/
theorem step_induction (rounds budget : Nat) :
    P (step rounds budget).value ∧
    ∀ (ev : Evaluator) (rounds' : Nat), P (ev.call rounds') →
      P fun e f => step rounds budget e f .tail >>= ev.resume rounds' := by
  induction budget with
  | zero => exact ⟨hexhausted, fun _ _ _ => hexhausted⟩
  | succ budget ih =>
    obtain ⟨hvalue, htail⟩ := ih
    constructor
    · have hcall := call_induction hunfinished (htail (step rounds budget)) (rounds + 1)
      have heq : (step rounds (budget + 1)).value = Direct.form (step rounds budget).value
          (step rounds budget).value ((step rounds budget).call (rounds + 1)) budget :=
        funext fun e => funext fun f => Evaluator.form_value ..
      rw [heq]
      exact hform budget hvalue hvalue hcall
    · intro ev rounds' hcall
      have heq : (fun e f => step rounds (budget + 1) e f .tail >>= ev.resume rounds') =
          Direct.form (step rounds budget).value
            (fun e f => step rounds budget e f .tail >>= ev.resume rounds') (ev.call rounds')
            budget :=
        funext fun e => funext fun f => Evaluator.form_resume ..
      rw [heq]
      exact hform budget hvalue (htail ev rounds' hcall) hcall

theorem step_call_induction (rounds budget rounds' : Nat) :
    P ((step rounds budget).call rounds') :=
  call_induction hunfinished
    ((step_induction hexhausted hunfinished hform rounds budget).2 (step rounds budget)) rounds'

theorem evaluate_induction (rounds budget : Nat) : P (evaluate rounds budget) :=
  (step_induction hexhausted hunfinished hform rounds budget).2 _ rounds
    (step_call_induction hexhausted hunfinished hform rounds budget rounds)

end Induction

end MiniLisp
