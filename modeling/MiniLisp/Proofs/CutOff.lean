import MiniLisp.Proofs.Alike
import MiniLisp.Proofs.Direct

/-!
# Computations that are cut off

Two computations are compared by `Eval.Truncates`. The second one does the same as the first, or
the first is cut off and the second prints on. For this to hold of computations in a row, the
second ones must never take back what was printed, so that this is part of the relation.

* `Stop.CutOff`: stops that are due to a bound and not to the program.
* `Machine.Continues`: nothing that was printed is taken back.
* `Eval.Truncates`: a computation that is cut off early, and the whole one. `Eval.Below`: the same
  where each bound may be larger for the second one.
* `Direct.form_truncates`: one level of evaluation.
* `direct_truncates`: a larger budget for `direct`.
* `step_truncates_self`: evaluation never takes back what was printed.
-/

namespace MiniLisp

open Outcome (Follows)

variable {excused : Stop → Prop} {b b' : Nat}

/-- Stops that are due to a bound and not to the program. -/
def Stop.CutOff : Stop → Prop
  | .fault _ => False
  | .exhausted | .unfinished => True

/-! ## Output -/

/-- What the first machine has printed is the beginning of what the second one has. -/
def Machine.Continues (m m' : Machine) : Prop := ∃ rest, m'.output = m.output ++ rest

namespace Machine.Continues

variable {m m' m'' : Machine}

theorem of_eq (h : m'.output = m.output) : Continues m m' := ⟨"", by rw [h, String.append_empty]⟩

theorem trans (h : Continues m m') (h' : Continues m' m'') : Continues m m'' := by
  obtain ⟨rest, hrest⟩ := h
  obtain ⟨rest', hrest'⟩ := h'
  exact ⟨rest ++ rest', by rw [hrest', hrest, String.append_assoc]⟩

theorem write (m : Machine) (line : String) : Continues m (m.write line) :=
  ⟨line ++ "\n", String.append_assoc⟩

end Machine.Continues

/-! ## Computations that are cut off -/

/-- The second computation does what the first one does. If the first is excused, it may do more
    and print more, but it never takes back what was printed. -/
structure Eval.Truncates {α : Type} (excused : Stop → Prop) (x y : Eval α) : Prop where
  continues : ∀ m, Machine.Continues m (y.exec m).2
  agrees : ∀ m, y.exec m = x.exec m ∨
    Outcome.Excused excused (x.exec m).1 ∧ Machine.Continues (x.exec m).2 (y.exec m).2

namespace Eval.Truncates

variable {α β : Type} {x y z : Eval α} {f g : α → Eval β}

theorem of_continues (h : ∀ m, Machine.Continues m (x.exec m).2) : Truncates excused x x :=
  ⟨h, fun _ => .inl rfl⟩

theorem of_silent (h : ∀ m, (x.exec m).2.output = m.output) : Truncates excused x x :=
  .of_continues fun m => .of_eq (h m)

theorem right (h : Truncates excused x y) : Truncates excused y y := .of_continues h.continues

protected theorem pure (a : α) : Truncates excused (Pure.pure a : Eval α) (Pure.pure a) :=
  .of_silent fun _ => rfl

protected theorem throw (s : Stop) : Truncates excused (throw s : Eval α) (throw s) :=
  .of_silent fun _ => rfl

theorem throw_left {s : Stop} (hs : excused s) (h : Truncates excused y y) :
    Truncates excused (throw s : Eval α) y :=
  ⟨h.continues, fun m => .inr ⟨⟨s, rfl, hs⟩, h.continues m⟩⟩

theorem trans (h : Truncates excused x y) (h' : Truncates excused y z) : Truncates excused x z := by
  refine ⟨h'.continues, fun m => ?_⟩
  rcases h.agrees m with heq | ⟨hexcused, hmore⟩
  · rw [← heq]
    exact h'.agrees m
  · refine .inr ⟨hexcused, hmore.trans ?_⟩
    rcases h'.agrees m with heq | ⟨_, hmore'⟩
    · exact .of_eq (by rw [heq])
    · exact hmore'

/-- What the first computation has printed is the beginning of what the second one prints. -/
theorem continues_exec (h : Truncates excused x y) (m : Machine) :
    Machine.Continues (x.exec m).2 (y.exec m).2 := by
  rcases h.agrees m with heq | ⟨_, hmore⟩
  · exact .of_eq (by rw [heq])
  · exact hmore

protected theorem bind (h : Truncates excused x y) (hfg : ∀ a, Truncates excused (f a) (g a)) :
    Truncates excused (x >>= f) (y >>= g) := by
  have hcontinues : ∀ m, Machine.Continues (y.exec m).2 ((y >>= g).exec m).2 := by
    intro m
    obtain ⟨r, n, hy⟩ : ∃ r n, y.exec m = (r, n) := ⟨_, _, rfl⟩
    cases r with
    | ok a =>
      rw [exec_bind_ok hy, hy]
      exact (hfg a).continues n
    | error s =>
      rw [exec_bind_error hy, hy]
      exact .of_eq rfl
  refine ⟨fun m => (h.continues m).trans (hcontinues m), fun m => ?_⟩
  obtain ⟨r, n, hx⟩ : ∃ r n, x.exec m = (r, n) := ⟨_, _, rfl⟩
  rcases h.agrees m with heq | ⟨⟨s, hs, hexcused⟩, hmore⟩
  · cases r with
    | ok a =>
      rw [exec_bind_ok hx, exec_bind_ok (heq.trans hx)]
      exact (hfg a).agrees n
    | error s =>
      rw [exec_bind_error hx, exec_bind_error (heq.trans hx)]
      exact .inl rfl
  · rw [hx] at hs hmore
    obtain rfl : r = .error s := hs
    rw [exec_bind_error hx]
    exact .inr ⟨⟨s, rfl, hexcused⟩, hmore.trans (hcontinues m)⟩

theorem ofOutcome {r r' : Outcome α} (h : Follows excused Eq r r') :
    Truncates excused (Eval.ofOutcome r) (Eval.ofOutcome r') := by
  refine ⟨fun m => .of_eq rfl, fun m => ?_⟩
  rcases h with hexcused | hrel
  · exact .inr ⟨hexcused, .of_eq rfl⟩
  · rw [Outcome.rel_eq_iff.mp hrel]
    exact .inl rfl

/-- A fault that shows a text is raised alike. -/
theorem shown {text text' : Outcome String} (h : Follows excused Eq text text')
    (fault : String → Fault) :
    Truncates excused (do Eval.fault (fault (← Eval.ofOutcome text)) : Eval α)
      (do Eval.fault (fault (← Eval.ofOutcome text'))) :=
  (ofOutcome h).bind fun _ => .throw _

theorem define (f : FrameId) (x : String) (v : Datum) :
    Truncates excused (Eval.define f x v) (Eval.define f x v) := .of_silent fun _ => rfl

theorem freshId : Truncates excused Eval.freshId Eval.freshId := .of_silent fun _ => rfl

theorem bindFrame (outer : FrameId) (x : String) (v : Datum) :
    Truncates excused (Eval.bindFrame outer x v) (Eval.bindFrame outer x v) :=
  .of_silent fun m => by rw [exec_bindFrame]; rfl

theorem newRoot : Truncates excused Eval.newRoot Eval.newRoot :=
  .of_silent fun m => by rw [exec_newRoot]; rfl

theorem write (line : String) : Truncates excused (Eval.write line) (Eval.write line) :=
  .of_continues fun m => .write m line

end Eval.Truncates

/-- The first computation does what the second one does, unless it is cut off by a bound. -/
abbrev Eval.Below {α : Type} (x y : Eval α) : Prop := x.Truncates Stop.CutOff y

/-- A computation that ends is not cut off. -/
theorem Eval.Truncates.ends {α : Type} {x y : Eval α} (h : x.Below y) {m m' : Machine}
    {r : Except Fault α} (hx : x.Ends m r m') : y.Ends m r m' := by
  rw [Ends] at hx ⊢
  rcases h.agrees m with heq | ⟨⟨s, hs, hcut⟩, _⟩
  · rw [heq, hx]
  · rw [hx] at hs
    cases r <;> cases hs
    exact hcut.elim

/-! ## One level of evaluation -/

/-- The first evaluation is cut off early, if it does not do what the second one does. -/
def Evaluation.Truncates (excused : Stop → Prop) (ev ev' : Evaluation) : Prop :=
  ∀ e f, (ev e f).Truncates excused (ev' e f)

theorem Evaluation.Truncates.trans {ev₁ ev₂ ev₃ : Evaluation} (h : ev₁.Truncates excused ev₂)
    (h' : ev₂.Truncates excused ev₃) : ev₁.Truncates excused ev₃ :=
  fun e f => (h e f).trans (h' e f)

/-- The first evaluation does what the second one does, unless it is cut off by a bound. -/
abbrev Evaluation.Below (ev ev' : Evaluation) : Prop := ev.Truncates Stop.CutOff ev'

namespace Direct

theorem read_truncates (f : FrameId) (x : String) : (read f x).Truncates excused (read f x) := by
  refine .of_silent fun m => ?_
  rw [exec_read]
  split <;> rfl

theorem primitive_truncates (hb : Stop.Within excused b b') (v : Datum) (action : Primitive) :
    (action.call b v).Truncates excused (action.call b' v) := by
  cases action with
  | identity => exact .pure v
  | host f => exact Eval.Truncates.freshId.bind fun _ => .pure _
  | print =>
    refine (Eval.Truncates.ofOutcome (v.display_follows hb)).bind fun line => ?_
    exact (Eval.Truncates.write line).bind fun _ => .pure _

variable {inner inner' last last' call call' : Evaluation}

theorem apply_truncates (hcall : call.Truncates excused call') (hb : Stop.Within excused b b')
    (head arg : Datum) :
    (apply call b head arg).Truncates excused (apply call' b' head arg) := by
  cases head with
  | closure id x body outer => exact (Eval.Truncates.bindFrame outer x arg).bind (hcall body)
  | native id x action => exact primitive_truncates hb arg action
  | _ => exact .shown (Value.inspect_follows _ hb) .notProcedure

theorem sequence_truncates (hinner : inner.Truncates excused inner')
    (hlast : last.Truncates excused last') (f : FrameId) (es : List Expr) :
    (sequence inner last f es).Truncates excused (sequence inner' last' f es) := by
  fun_induction sequence inner last f es with
  | case1 => exact .throw _
  | case2 e => exact hlast e f
  | case3 e es hes ih =>
    rw [sequence.eq_3 _ _ _ _ _ hes]
    exact (hinner e f).bind fun _ => ih

/-- One level of evaluation is cut off only where what it is made of is, or by its budget. -/
theorem form_truncates (hinner : inner.Truncates excused inner')
    (hlast : last.Truncates excused last') (hcall : call.Truncates excused call')
    (hb : Stop.Within excused b b') :
    Evaluation.Truncates excused (form inner last call b) (form inner' last' call' b') := by
  intro e f
  cases e with
  | numeral | text | truth | quote => exact .pure _
  | name x => exact read_truncates f x
  | define x e =>
    exact (hinner e f).bind fun v => (Eval.Truncates.define f x v).bind fun _ => .pure v
  | letrec x e body =>
    refine (Eval.Truncates.bindFrame f x .unassigned).bind fun frame => ?_
    refine (hinner e frame).bind fun v => ?_
    split
    · exact (Eval.Truncates.define frame x v).bind fun _ => hlast body frame
    · exact .shown (v.inspect_follows hb) (.bindingValue x)
  | binary op e₁ e₂ =>
    refine (hinner e₁ f).bind fun v => (hinner e₂ f).bind fun w => ?_
    exact Eval.Truncates.freshId.bind fun i => .ofOutcome (v.operate_follows w i op hb)
  | branch test yes no =>
    refine (hinner test f).bind fun v => ?_
    split
    · exact hlast yes f
    · exact hlast no f
  | begin es => exact sequence_truncates hinner hlast f es
  | lambda x body => exact Eval.Truncates.freshId.bind fun i => .pure _
  | apply callee arg =>
    refine (hinner callee f).bind fun head => (hinner arg f).bind fun v => ?_
    exact apply_truncates hcall hb head v
  | loop | stray => exact .shown (Expr.inspect_follows _ hb) .malformed

end Direct

/-! ## Evaluation -/

theorem direct_truncates_self (b : Nat) : Evaluation.Truncates excused (direct b) (direct b) := by
  induction b with
  | zero => exact fun _ _ => .throw _
  | succ b ih => exact Direct.form_truncates ih ih ih (.inl rfl)

/-- Under a larger budget `direct` does the same or, if it was cut off, prints on. -/
theorem direct_truncates (hb : Stop.Within excused b b') :
    Evaluation.Truncates excused (direct b) (direct b') := by
  induction b generalizing b' with
  | zero =>
    rcases hb with rfl | ⟨hexcused, _⟩
    · exact direct_truncates_self 0
    · exact fun e f => .throw_left hexcused (direct_truncates_self b' e f)
  | succ b ih =>
    obtain ⟨c, rfl, hc⟩ := hb.succ_left
    exact Direct.form_truncates (ih hc) (ih hc) (ih hc) hc

/-- Evaluation never takes back what was printed, and neither does it in tail position if the calls
    that follow do not. -/
theorem step_truncates_self (excused : Stop → Prop) (rounds b : Nat) :
    Evaluation.Truncates excused (step rounds b).value (step rounds b).value ∧
    ∀ (ev : Evaluator) (k : Nat), (ev.call k).Truncates excused (ev.call k) →
      Evaluation.Truncates excused (fun e f => step rounds b e f .tail >>= ev.resume k)
        (fun e f => step rounds b e f .tail >>= ev.resume k) :=
  step_induction (P := fun ev => ev.Truncates excused ev) (fun _ _ => .throw _)
    (fun _ _ => .throw _) (fun _ hi hl hc => Direct.form_truncates hi hl hc (.inl rfl)) rounds b

theorem step_call_truncates_self (excused : Stop → Prop) (rounds b k : Nat) :
    ((step rounds b).call k).Truncates excused ((step rounds b).call k) :=
  call_induction (P := fun ev => ev.Truncates excused ev) (fun _ _ => .throw _)
    ((step_truncates_self excused rounds b).2 (step rounds b)) k

end MiniLisp
