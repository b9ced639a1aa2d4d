import Mathlib.Logic.Relation
import MiniLisp.Proofs.Trampoline

/-!
# The evaluations that a run is made of

An evaluation by plain recursion enters others, one for each part that it evaluates and one for
the body of a closure that it calls. A `Point` is the start of one of them. A run that stops
does so at one point: the evaluation there meets something that it cannot go on with, and all
those around it stop in turn.

* `Point.Enters`, `Point.Visits`: the evaluations that an evaluation enters, directly and at any
  depth. On the way a point keeps which `letrec` bindings are still being evaluated.
* `Point.Raises`: the evaluation stops at this point, and not at one that it enters.
* `Point.exec_error_iff`: a run stops exactly if it visits a point that raises the stop.
* `Point.WhileBinding`, `Point.Visits.whileBinding`: the points that are visited while the binding
  of a `letrec` is evaluated.
* `Point.Visits.raise`: under a larger budget a run visits the same points.
-/

namespace MiniLisp

/-- The stop of a message that shows something: the fault, or else what keeps the text of it
    from being made. -/
def Stop.showing (text : Outcome String) (fault : String → Fault) : Stop :=
  match text with
  | .ok shown => .fault (fault shown)
  | .error s => s

namespace Eval

variable {α β : Type}

theorem exec_showing (text : Outcome String) (fault : String → Fault) (m : Machine) :
    (do Eval.fault (fault (← Eval.ofOutcome text)) : Eval α).exec m =
      (.error (Stop.showing text fault), m) := by
  cases text <;> rfl

theorem exec_bind_error_iff {x : Eval α} {k : α → Eval β} {m n : Machine} {s : Stop} :
    (x >>= k).exec m = (.error s, n) ↔
      x.exec m = (.error s, n) ∨
        ∃ a m', x.exec m = (.ok a, m') ∧ (k a).exec m' = (.error s, n) := by
  rw [exec_bind]
  obtain ⟨r, m', hx⟩ : ∃ r m', x.exec m = (r, m') := ⟨_, _, rfl⟩
  rw [hx]
  cases r with
  | ok a => simp
  | error t => simp

end Eval

theorem Direct.apply_of_not_isProcedure {call : Evaluation} {b : Nat} {head arg : Datum}
    (h : head.isProcedure = false) :
    Direct.apply call b head arg =
      (do Eval.fault (.notProcedure (← Eval.ofOutcome (head.inspect b)))) := by
  cases head <;> first | rfl | cases h

/-- Whether an expression has no evaluation of its own: a loop that was not expanded, or a
    datum. -/
def Expr.isUnknown : Expr → Bool
  | .loop _ _ _ _ _ _ | .stray _ => true
  | _ => false

/-- The start of an evaluation by plain recursion. -/
structure Point where
  budget : Nat
  code : Expr
  frame : FrameId
  machine : Machine
  /-- The frames of the `letrec`s whose bindings are being evaluated, with their names. -/
  pending : List (FrameId × String)

namespace Point

/-- How the evaluation ends that starts here. -/
def exec (p : Point) : Outcome Datum × Machine := (direct p.budget p.code p.frame).exec p.machine

/-- An evaluation directly enters another one. -/
inductive Enters : Point → Point → Prop
  | define {b : Nat} {x : String} {e : Expr} {f : FrameId} {m : Machine}
      {ps : List (FrameId × String)} : Enters ⟨b + 1, .define x e, f, m, ps⟩ ⟨b, e, f, m, ps⟩
  | binding {b : Nat} {x : String} {e₁ e₂ : Expr} {f : FrameId} {m : Machine}
      {ps : List (FrameId × String)} :
      Enters ⟨b + 1, .letrec x e₁ e₂, f, m, ps⟩
        ⟨b, e₁, m.heap.size, m.bindFrame f x .unassigned, (m.heap.size, x) :: ps⟩
  | body {b : Nat} {x : String} {e₁ e₂ : Expr} {f : FrameId} {m m' : Machine}
      {ps : List (FrameId × String)} {v : Datum}
      (bound : (direct b e₁ m.heap.size).exec (m.bindFrame f x .unassigned) = (.ok v, m'))
      (procedure : v.isProcedure = true) :
      Enters ⟨b + 1, .letrec x e₁ e₂, f, m, ps⟩
        ⟨b, e₂, m.heap.size, m'.define m.heap.size x v, ps⟩
  | left {b : Nat} {op : String} {e₁ e₂ : Expr} {f : FrameId} {m : Machine}
      {ps : List (FrameId × String)} :
      Enters ⟨b + 1, .binary op e₁ e₂, f, m, ps⟩ ⟨b, e₁, f, m, ps⟩
  | right {b : Nat} {op : String} {e₁ e₂ : Expr} {f : FrameId} {m m' : Machine}
      {ps : List (FrameId × String)} {v : Datum}
      (left : (direct b e₁ f).exec m = (.ok v, m')) :
      Enters ⟨b + 1, .binary op e₁ e₂, f, m, ps⟩ ⟨b, e₂, f, m', ps⟩
  | test {b : Nat} {e₁ e₂ e₃ : Expr} {f : FrameId} {m : Machine} {ps : List (FrameId × String)} :
      Enters ⟨b + 1, .branch e₁ e₂ e₃, f, m, ps⟩ ⟨b, e₁, f, m, ps⟩
  | yes {b : Nat} {e₁ e₂ e₃ : Expr} {f : FrameId} {m m' : Machine} {ps : List (FrameId × String)}
      {v : Datum} (test : (direct b e₁ f).exec m = (.ok v, m')) (isTrue : v.isTrue = true) :
      Enters ⟨b + 1, .branch e₁ e₂ e₃, f, m, ps⟩ ⟨b, e₂, f, m', ps⟩
  | no {b : Nat} {e₁ e₂ e₃ : Expr} {f : FrameId} {m m' : Machine} {ps : List (FrameId × String)}
      {v : Datum} (test : (direct b e₁ f).exec m = (.ok v, m')) (isFalse : v.isTrue = false) :
      Enters ⟨b + 1, .branch e₁ e₂ e₃, f, m, ps⟩ ⟨b, e₃, f, m', ps⟩
  | first {b : Nat} {e : Expr} {es : List Expr} {f : FrameId} {m : Machine}
      {ps : List (FrameId × String)} :
      Enters ⟨b + 1, .begin (e :: es), f, m, ps⟩ ⟨b, e, f, m, ps⟩
  | later {b : Nat} {e : Expr} {es : List Expr} {f : FrameId} {m m' : Machine}
      {ps : List (FrameId × String)} {v : Datum} {q : Point}
      (first : (direct b e f).exec m = (.ok v, m'))
      (rest : Enters ⟨b + 1, .begin es, f, m', ps⟩ q) :
      Enters ⟨b + 1, .begin (e :: es), f, m, ps⟩ q
  | callee {b : Nat} {e₁ e₂ : Expr} {f : FrameId} {m : Machine} {ps : List (FrameId × String)} :
      Enters ⟨b + 1, .apply e₁ e₂, f, m, ps⟩ ⟨b, e₁, f, m, ps⟩
  | arg {b : Nat} {e₁ e₂ : Expr} {f : FrameId} {m m' : Machine} {ps : List (FrameId × String)}
      {v : Datum} (callee : (direct b e₁ f).exec m = (.ok v, m')) :
      Enters ⟨b + 1, .apply e₁ e₂, f, m, ps⟩ ⟨b, e₂, f, m', ps⟩
  | call {b : Nat} {e₁ e₂ body : Expr} {f g : FrameId} {m m₁ m₂ : Machine}
      {ps : List (FrameId × String)} {i : ObjectId} {x : String} {v : Datum}
      (callee : (direct b e₁ f).exec m = (.ok (.closure i x body g), m₁))
      (arg : (direct b e₂ f).exec m₁ = (.ok v, m₂)) :
      Enters ⟨b + 1, .apply e₁ e₂, f, m, ps⟩ ⟨b, body, m₂.heap.size, m₂.bindFrame g x v, ps⟩

/-- An evaluation enters another one at some depth, or is that one. -/
abbrev Visits : Point → Point → Prop := Relation.ReflTransGen Enters

/-- The evaluation stops by itself, after those that it enters have given their values. -/
inductive Raises : Point → Stop → Machine → Prop
  | exhausted {e : Expr} {f : FrameId} {m : Machine} {ps : List (FrameId × String)} :
      Raises ⟨0, e, f, m, ps⟩ .exhausted m
  | unbound {b : Nat} {x : String} {f : FrameId} {m : Machine} {ps : List (FrameId × String)}
      (free : m.heap.lookup? f x = none) :
      Raises ⟨b + 1, .name x, f, m, ps⟩ (.fault (.unbound x)) m
  | uninitialised {b : Nat} {x : String} {f : FrameId} {m : Machine}
      {ps : List (FrameId × String)} (placeholder : m.heap.lookup? f x = some .unassigned) :
      Raises ⟨b + 1, .name x, f, m, ps⟩ (.fault (.uninitialised x)) m
  | binding {b : Nat} {x : String} {e₁ e₂ : Expr} {f : FrameId} {m m' : Machine}
      {ps : List (FrameId × String)} {v : Datum}
      (bound : (direct b e₁ m.heap.size).exec (m.bindFrame f x .unassigned) = (.ok v, m'))
      (other : v.isProcedure = false) :
      Raises ⟨b + 1, .letrec x e₁ e₂, f, m, ps⟩ (.showing (v.inspect b) (.bindingValue x)) m'
  | operator {b : Nat} {op : String} {e₁ e₂ : Expr} {f : FrameId} {m m₁ m₂ : Machine}
      {ps : List (FrameId × String)} {v w : Datum} {s : Stop}
      (left : (direct b e₁ f).exec m = (.ok v, m₁)) (right : (direct b e₂ f).exec m₁ = (.ok w, m₂))
      (failure : v.operate b m₂.nextId op w = .error s) :
      Raises ⟨b + 1, .binary op e₁ e₂, f, m, ps⟩ s m₂.takeId
  | empty {b : Nat} {f : FrameId} {m : Machine} {ps : List (FrameId × String)} :
      Raises ⟨b + 1, .begin [], f, m, ps⟩ (.fault .emptyBegin) m
  | print {b : Nat} {e₁ e₂ : Expr} {f : FrameId} {m m₁ m₂ : Machine}
      {ps : List (FrameId × String)} {i : ObjectId} {name : String} {v : Datum} {s : Stop}
      (callee : (direct b e₁ f).exec m = (.ok (.native i name .print), m₁))
      (arg : (direct b e₂ f).exec m₁ = (.ok v, m₂)) (failure : v.display b = .error s) :
      Raises ⟨b + 1, .apply e₁ e₂, f, m, ps⟩ s m₂
  | head {b : Nat} {e₁ e₂ : Expr} {f : FrameId} {m m₁ m₂ : Machine}
      {ps : List (FrameId × String)} {v w : Datum}
      (callee : (direct b e₁ f).exec m = (.ok v, m₁)) (other : v.isProcedure = false)
      (arg : (direct b e₂ f).exec m₁ = (.ok w, m₂)) :
      Raises ⟨b + 1, .apply e₁ e₂, f, m, ps⟩ (.showing (v.inspect b) .notProcedure) m₂
  | unknown {b : Nat} {e : Expr} {f : FrameId} {m : Machine} {ps : List (FrameId × String)}
      (unknown : e.isUnknown = true) :
      Raises ⟨b + 1, e, f, m, ps⟩ (.showing (e.inspect b) .malformed) m

variable {p q : Point} {s : Stop} {n : Machine}

/-! ## Where a run stops -/

theorem exec_begin_cons {b : Nat} {e : Expr} {es : List Expr} {f : FrameId} {m m' : Machine}
    {v : Datum} (h : (direct b e f).exec m = (.ok v, m')) (hes : es ≠ [])
    (ps : List (FrameId × String)) :
    exec ⟨b + 1, .begin (e :: es), f, m, ps⟩ = exec ⟨b + 1, .begin es, f, m', ps⟩ := by
  cases es with
  | nil => exact absurd rfl hes
  | cons e' es => exact Eval.exec_bind_ok h _

/-- A stop is handed on to the evaluation around. -/
theorem Enters.exec_error (h : Enters p q) (hq : q.exec = (.error s, n)) :
    p.exec = (.error s, n) := by
  induction h with
  | define | left | test | callee => exact Eval.exec_bind_error hq _
  | binding =>
    refine (Eval.exec_bind_ok (Eval.exec_bindFrame ..) _).trans ?_
    exact Eval.exec_bind_error hq _
  | body hbound hv =>
    refine (Eval.exec_bind_ok (Eval.exec_bindFrame ..) _).trans ?_
    refine (Eval.exec_bind_ok hbound _).trans ?_
    rw [if_pos hv]
    exact (Eval.exec_bind_ok (Eval.exec_define ..) _).trans hq
  | right hleft =>
    refine (Eval.exec_bind_ok hleft _).trans ?_
    exact Eval.exec_bind_error hq _
  | yes htest hv =>
    refine (Eval.exec_bind_ok htest _).trans ?_
    rw [if_pos hv]
    exact hq
  | no htest hv =>
    refine (Eval.exec_bind_ok htest _).trans ?_
    rw [if_neg (Bool.eq_false_iff.mp hv)]
    exact hq
  | @first _ e es =>
    cases es with
    | nil => exact hq
    | cons e' es => exact Eval.exec_bind_error hq _
  | @later _ _ es _ _ _ ps _ _ hfirst hrest ih =>
    have hes : es ≠ [] := by
      rintro rfl
      cases hrest
    rw [exec_begin_cons hfirst hes ps]
    exact ih hq
  | arg hcallee =>
    refine (Eval.exec_bind_ok hcallee _).trans ?_
    exact Eval.exec_bind_error hq _
  | call hcallee harg =>
    refine (Eval.exec_bind_ok hcallee _).trans ?_
    refine (Eval.exec_bind_ok harg _).trans ?_
    exact (Eval.exec_bind_ok (Eval.exec_bindFrame ..) _).trans hq

theorem Raises.exec_error (h : p.Raises s n) : p.exec = (.error s, n) := by
  cases h with
  | exhausted => rfl
  | unbound hx =>
    refine (Direct.exec_read ..).trans ?_
    rw [hx]
  | uninitialised hx =>
    refine (Direct.exec_read ..).trans ?_
    rw [hx]
  | binding hbound hv =>
    refine (Eval.exec_bind_ok (Eval.exec_bindFrame ..) _).trans ?_
    refine (Eval.exec_bind_ok hbound _).trans ?_
    rw [if_neg (Bool.eq_false_iff.mp hv)]
    exact Eval.exec_showing ..
  | operator hleft hright hfailure =>
    refine (Eval.exec_bind_ok hleft _).trans ?_
    refine (Eval.exec_bind_ok hright _).trans ?_
    refine (Eval.exec_bind_ok (Eval.exec_freshId _) _).trans ?_
    rw [hfailure, Eval.exec_ofOutcome]
  | empty => rfl
  | print hcallee harg hfailure =>
    refine (Eval.exec_bind_ok hcallee _).trans ?_
    refine (Eval.exec_bind_ok harg _).trans ?_
    refine Eval.exec_bind_error ?_ _
    rw [hfailure, Eval.exec_ofOutcome]
  | @head b _ _ _ _ _ _ _ v w hcallee hv harg =>
    refine (Eval.exec_bind_ok hcallee _).trans ?_
    refine (Eval.exec_bind_ok harg _).trans ?_
    rw [Direct.apply_of_not_isProcedure hv]
    exact Eval.exec_showing ..
  | @unknown b e _ _ _ he =>
    cases e <;> first | exact Eval.exec_showing .. | cases he

theorem exec_begin_error {b : Nat} {es : List Expr} {f : FrameId} {m : Machine}
    {ps : List (FrameId × String)} (hes : es ≠ [])
    (h : exec ⟨b + 1, .begin es, f, m, ps⟩ = (.error s, n)) :
    ∃ q, Enters ⟨b + 1, .begin es, f, m, ps⟩ q ∧ q.exec = (.error s, n) := by
  induction es generalizing m with
  | nil => exact absurd rfl hes
  | cons e es ih =>
    cases es with
    | nil => exact ⟨_, .first, h⟩
    | cons e' es =>
      rcases Eval.exec_bind_error_iff.mp h with h | ⟨v, m', hfirst, h⟩
      · exact ⟨_, .first, h⟩
      · obtain ⟨q, hq, hexec⟩ := ih (List.cons_ne_nil e' es) h
        exact ⟨q, .later hfirst hq, hexec⟩

/-- The evaluation stops by itself, or one stops that it enters. -/
def Stops (p : Point) (s : Stop) (n : Machine) : Prop :=
  p.Raises s n ∨ ∃ q, p.Enters q ∧ q.exec = (.error s, n)

section Forms

variable {b : Nat} {f : FrameId} {m : Machine} {ps : List (FrameId × String)}

theorem stops_name {x : String} (h : exec ⟨b + 1, .name x, f, m, ps⟩ = (.error s, n)) :
    Stops ⟨b + 1, .name x, f, m, ps⟩ s n := by
  have h := (Direct.exec_read f x m).symm.trans h
  cases hx : m.heap.lookup? f x with
  | none =>
    rw [hx] at h
    cases h
    exact .inl (.unbound hx)
  | some v =>
    rw [hx] at h
    cases v <;> cases h
    exact .inl (.uninitialised hx)

theorem stops_letrec {x : String} {e₁ e₂ : Expr}
    (h : exec ⟨b + 1, .letrec x e₁ e₂, f, m, ps⟩ = (.error s, n)) :
    Stops ⟨b + 1, .letrec x e₁ e₂, f, m, ps⟩ s n := by
  have h := (Eval.exec_bind_ok (Eval.exec_bindFrame ..) _).symm.trans h
  rcases Eval.exec_bind_error_iff.mp h with h | ⟨v, m', hbound, h⟩
  · exact .inr ⟨_, .binding, h⟩
  · cases hv : v.isProcedure with
    | true =>
      rw [if_pos hv] at h
      exact .inr ⟨_, .body hbound hv, (Eval.exec_bind_ok (Eval.exec_define ..) _).symm.trans h⟩
    | false =>
      rw [if_neg (Bool.eq_false_iff.mp hv), Eval.exec_showing] at h
      cases h
      exact .inl (.binding hbound hv)

theorem stops_binary {op : String} {e₁ e₂ : Expr}
    (h : exec ⟨b + 1, .binary op e₁ e₂, f, m, ps⟩ = (.error s, n)) :
    Stops ⟨b + 1, .binary op e₁ e₂, f, m, ps⟩ s n := by
  rcases Eval.exec_bind_error_iff.mp h with h | ⟨v, m₁, hleft, h⟩
  · exact .inr ⟨_, .left, h⟩
  rcases Eval.exec_bind_error_iff.mp h with h | ⟨w, m₂, hright, h⟩
  · exact .inr ⟨_, .right hleft, h⟩
  have h := (Eval.exec_bind_ok (Eval.exec_freshId _) _).symm.trans h
  cases hfailure : v.operate b m₂.nextId op w with
  | ok u =>
    rw [hfailure] at h
    cases h
  | error t =>
    rw [hfailure] at h
    cases h
    exact .inl (.operator hleft hright hfailure)

theorem stops_branch {e₁ e₂ e₃ : Expr}
    (h : exec ⟨b + 1, .branch e₁ e₂ e₃, f, m, ps⟩ = (.error s, n)) :
    Stops ⟨b + 1, .branch e₁ e₂ e₃, f, m, ps⟩ s n := by
  rcases Eval.exec_bind_error_iff.mp h with h | ⟨v, m', htest, h⟩
  · exact .inr ⟨_, .test, h⟩
  · cases hv : v.isTrue with
    | true =>
      rw [if_pos hv] at h
      exact .inr ⟨_, .yes htest hv, h⟩
    | false =>
      rw [if_neg (Bool.eq_false_iff.mp hv)] at h
      exact .inr ⟨_, .no htest hv, h⟩

theorem stops_apply {e₁ e₂ : Expr} (h : exec ⟨b + 1, .apply e₁ e₂, f, m, ps⟩ = (.error s, n)) :
    Stops ⟨b + 1, .apply e₁ e₂, f, m, ps⟩ s n := by
  rcases Eval.exec_bind_error_iff.mp h with h | ⟨v, m₁, hcallee, h⟩
  · exact .inr ⟨_, .callee, h⟩
  rcases Eval.exec_bind_error_iff.mp h with h | ⟨w, m₂, harg, h⟩
  · exact .inr ⟨_, .arg hcallee, h⟩
  cases hv : v.isProcedure with
  | false =>
    rw [Direct.apply_of_not_isProcedure hv, Eval.exec_showing] at h
    cases h
    exact .inl (.head hcallee hv harg)
  | true =>
    cases v with
    | closure i x body g =>
      have h := (Eval.exec_bind_ok (Eval.exec_bindFrame ..) _).symm.trans h
      exact .inr ⟨_, .call hcallee harg, h⟩
    | native i name action =>
      cases action with
      | identity | host => cases h
      | print =>
        rcases Eval.exec_bind_error_iff.mp h with h | ⟨line, m₃, _, h⟩
        · have hs : w.display b = .error s := congrArg Prod.fst h
          have hn : m₂ = n := congrArg Prod.snd h
          subst hn
          exact .inl (.print hcallee harg hs)
        · cases h
    | _ => cases hv

end Forms

/-- An evaluation that stops does so by itself, or in an evaluation that it enters. -/
theorem stops_of_exec_error (h : p.exec = (.error s, n)) : p.Stops s n := by
  obtain ⟨b, e, f, m, ps⟩ := p
  cases b with
  | zero =>
    cases h
    exact .inl .exhausted
  | succ b =>
    cases e with
    | numeral v | text s | truth t | quote d | lambda x e => cases h
    | name x => exact stops_name h
    | define x e =>
      rcases Eval.exec_bind_error_iff.mp h with h | ⟨v, m', _, h⟩
      · exact .inr ⟨_, .define, h⟩
      · cases h
    | letrec x e₁ e₂ => exact stops_letrec h
    | binary op e₁ e₂ => exact stops_binary h
    | branch e₁ e₂ e₃ => exact stops_branch h
    | begin es =>
      by_cases hes : es = []
      · subst hes
        cases h
        exact .inl .empty
      · exact .inr (exec_begin_error hes h)
    | apply e₁ e₂ => exact stops_apply h
    | loop i e₁ e₂ u e₃ e₄ | stray d =>
      have h := (Eval.exec_showing ..).symm.trans h
      cases h
      exact .inl (.unknown rfl)

theorem Enters.budget_eq (h : Enters p q) : p.budget = q.budget + 1 := by
  induction h with
  | later _ _ ih => exact ih
  | _ => rfl

/-- A run stops exactly if it visits a point at which it cannot go on. -/
theorem exec_error_iff : p.exec = (.error s, n) ↔ ∃ q, p.Visits q ∧ q.Raises s n := by
  constructor
  · intro h
    induction hb : p.budget generalizing p with
    | zero =>
      rcases stops_of_exec_error h with hraises | ⟨q, hq, _⟩
      · exact ⟨p, .refl, hraises⟩
      · have hlt := hq.budget_eq
        omega
    | succ b ih =>
      rcases stops_of_exec_error h with hraises | ⟨q, hq, hexec⟩
      · exact ⟨p, .refl, hraises⟩
      · have heq := hq.budget_eq
        obtain ⟨r, hvisits, hraises⟩ := ih hexec (by omega)
        exact ⟨r, .head hq hvisits, hraises⟩
  · rintro ⟨q, hvisits, hraises⟩
    induction hvisits using Relation.ReflTransGen.head_induction_on with
    | refl => exact hraises.exec_error
    | head hstep _ ih => exact hstep.exec_error ih

/-- Every fault of an evaluation with pending calls is raised at a point. -/
theorem exists_raises_of_evaluate {rounds budget : Nat} {e : Expr} {f : FrameId} {m : Machine}
    {fault : Fault} (h : (evaluate rounds budget e f).exec m = (.error (.fault fault), n)) :
    ∃ b q, Visits ⟨b, e, f, m, []⟩ q ∧ q.Raises (.fault fault) n := by
  obtain ⟨b, hb⟩ := evaluate_below_direct rounds budget
  have hends : (direct b e f).Ends m (.error fault) n := (hb e f).ends h
  exact ⟨b, exec_error_iff.mp hends⟩

/-! ## Pending bindings -/

/-- A point is visited while the binding of a `letrec` of the given name is evaluated, whose
    frame is the given one. -/
def WhileBinding (p : Point) (g : FrameId) (x : String) (q : Point) : Prop :=
  ∃ b e₁ e₂ f m ps, p.Visits ⟨b + 1, .letrec x e₁ e₂, f, m, ps⟩ ∧ m.heap.size = g ∧
    Visits ⟨b, e₁, g, m.bindFrame f x .unassigned, (g, x) :: ps⟩ q

theorem Enters.pending_cases (h : Enters p q) :
    q.pending = p.pending ∨
      ∃ b x e₁ e₂ f m ps, p = ⟨b + 1, .letrec x e₁ e₂, f, m, ps⟩ ∧
        q = ⟨b, e₁, m.heap.size, m.bindFrame f x .unassigned, (m.heap.size, x) :: ps⟩ := by
  induction h with
  | binding => exact .inr ⟨_, _, _, _, _, _, _, rfl, rfl⟩
  | later _ _ ih =>
    rcases ih with ih | ⟨_, _, _, _, _, _, _, hp, _⟩
    · exact .inl ih
    · cases hp
  | _ => exact .inl rfl

/-- A binding that is pending at a point is one that was pending from the start, or one that is
    being evaluated. -/
theorem Visits.whileBinding (h : p.Visits q) {g : FrameId} {x : String}
    (hmem : (g, x) ∈ q.pending) : (g, x) ∈ p.pending ∨ p.WhileBinding g x q := by
  induction h with
  | refl => exact .inl hmem
  | @tail q r hvisits hstep ih =>
    have hnext : (g, x) ∈ q.pending → (g, x) ∈ p.pending ∨ p.WhileBinding g x r := by
      intro hmem
      refine (ih hmem).imp_right ?_
      rintro ⟨b, e₁, e₂, f, m, ps, hletrec, hg, hq⟩
      exact ⟨b, e₁, e₂, f, m, ps, hletrec, hg, hq.tail hstep⟩
    rcases hstep.pending_cases with heq | ⟨b, y, e₁, e₂, f, m, ps, rfl, rfl⟩
    · exact hnext (heq ▸ hmem)
    · rcases List.mem_cons.mp hmem with heq | hmem
      · rw [Prod.mk.injEq] at heq
        obtain ⟨rfl, rfl⟩ := heq
        exact .inr ⟨b, e₁, e₂, f, m, ps, hvisits, rfl, .refl⟩
      · exact hnext hmem

/-! ## Points under a larger budget -/

/-- The same point under a budget that is larger by `k`. -/
def raise (k : Nat) (p : Point) : Point := { p with budget := k + p.budget }

theorem direct_ok_add {b : Nat} {e : Expr} {f : FrameId} {m m' : Machine} {v : Datum}
    (h : (direct b e f).exec m = (.ok v, m')) (k : Nat) :
    (direct (k + b) e f).exec m = (.ok v, m') :=
  (direct_mono (Nat.le_add_left b k) e f).ends (r := .ok v) h

theorem Enters.raise (h : Enters p q) (k : Nat) : Enters (p.raise k) (q.raise k) := by
  induction h with
  | define => exact .define
  | binding => exact .binding
  | body hbound hv => exact .body (direct_ok_add hbound k) hv
  | left => exact .left
  | right hleft => exact .right (direct_ok_add hleft k)
  | test => exact .test
  | yes htest hv => exact .yes (direct_ok_add htest k) hv
  | no htest hv => exact .no (direct_ok_add htest k) hv
  | first => exact .first
  | later hfirst _ ih => exact .later (direct_ok_add hfirst k) ih
  | callee => exact .callee
  | arg hcallee => exact .arg (direct_ok_add hcallee k)
  | call hcallee harg => exact .call (direct_ok_add hcallee k) (direct_ok_add harg k)

theorem Visits.raise (h : p.Visits q) (k : Nat) : (p.raise k).Visits (q.raise k) := by
  induction h with
  | refl => exact .refl
  | tail _ hstep ih => exact ih.tail (hstep.raise k)

end Point

end MiniLisp
