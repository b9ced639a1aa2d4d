import Mathlib
import MiniLisp.Proofs.Budgets
import MiniLisp.Proofs.CutOff

/-!
# Runs under more stack

A run that does not need all of its stack goes in the same way under a larger one. A run that
exhausts its stack stops, and what it has printed by then is the beginning of what is printed
under a larger one. So the end of the stack is never taken for anything else, wherever it is met:
in reading, in expansion, in evaluation, in a comparison or in the text of a value.

Two runs are compared by `Eval.Truncates`.

* `step_truncates`, `evaluate_truncates`: evaluation under larger bounds.
* `exhaustion_only_truncates`: whole runs.
-/

namespace MiniLisp

open Outcome (Follows)

variable {excused : Stop → Prop} {b b' : Nat}

/-! ## Evaluation -/

/-- The second bound on calls in a row is the first one, or a larger one where it is excused to
    be cut off by it. -/
def Stop.WithinRounds (excused : Stop → Prop) (k k' : Nat) : Prop :=
  k = k' ∨ (excused .unfinished ∧ k ≤ k')

namespace Stop.WithinRounds

variable {k k' : Nat}

theorem succ (h : WithinRounds excused k k') : WithinRounds excused (k + 1) (k' + 1) :=
  h.imp (congrArg _) fun h => ⟨h.1, Nat.succ_le_succ h.2⟩

theorem succ_left (h : WithinRounds excused (k + 1) k') :
    ∃ c, k' = c + 1 ∧ WithinRounds excused k c := by
  rcases h with rfl | ⟨hexcused, hle⟩
  · exact ⟨k, rfl, .inl rfl⟩
  · exact ⟨k' - 1, by omega, .inr ⟨hexcused, by omega⟩⟩

end Stop.WithinRounds

section Levels

variable {rounds rounds' k k' : Nat}

theorem call_truncates {ev ev' : Evaluator}
    (htail : ∀ {k k'}, (ev.call k).Truncates excused (ev'.call k') →
      Evaluation.Truncates excused (fun e f => ev e f .tail >>= ev.resume k)
        (fun e f => ev' e f .tail >>= ev'.resume k'))
    (hself : ∀ k, (ev'.call k).Truncates excused (ev'.call k))
    (hk : Stop.WithinRounds excused k k') : (ev.call k).Truncates excused (ev'.call k') := by
  induction k generalizing k' with
  | zero =>
    rcases hk with rfl | ⟨hexcused, _⟩
    · exact fun _ _ => .throw _
    · exact fun e f => .throw_left hexcused (hself k' e f)
  | succ k ih =>
    obtain ⟨c, rfl, hc⟩ := hk.succ_left
    exact htail (ih hc)

/-- Under larger bounds evaluation does the same or, if it was cut off, prints on: in inner
    position, and in tail position followed by calls of which this holds. -/
theorem step_truncates (hb : Stop.Within excused b b')
    (hrounds : Stop.WithinRounds excused rounds rounds') :
    Evaluation.Truncates excused (step rounds b).value (step rounds' b').value ∧
    ∀ {ev ev' : Evaluator} {k k'}, (ev.call k).Truncates excused (ev'.call k') →
      Evaluation.Truncates excused (fun e f => step rounds b e f .tail >>= ev.resume k)
        (fun e f => step rounds' b' e f .tail >>= ev'.resume k') := by
  induction b generalizing b' with
  | zero =>
    rcases hb with rfl | ⟨hexcused, _⟩
    · exact ⟨fun _ _ => .throw _, fun _ _ _ => .throw _⟩
    · obtain ⟨hvalue, htail⟩ := step_truncates_self excused rounds' b'
      constructor
      · exact fun e f => .throw_left hexcused (hvalue e f)
      · intro ev ev' k k' hcall e f
        exact .throw_left hexcused (htail ev' k' (fun e f => (hcall e f).right) e f)
  | succ b ih =>
    obtain ⟨c, rfl, hc⟩ := hb.succ_left
    obtain ⟨hvalue, htail⟩ := ih hc
    constructor
    · intro e f
      have hcall := call_truncates htail (step_call_truncates_self _ rounds' c) hrounds.succ
      rw [step, step, Evaluator.form_value, Evaluator.form_value]
      exact Direct.form_truncates hvalue hvalue hcall hc e f
    · intro ev ev' k k' hcall e f
      show Eval.Truncates excused ((step rounds b).form rounds b e f .tail >>= _)
        ((step rounds' c).form rounds' c e f .tail >>= _)
      rw [Evaluator.form_resume, Evaluator.form_resume]
      exact Direct.form_truncates hvalue (htail hcall) hcall hc e f

theorem evaluate_truncates (hb : Stop.Within excused b b')
    (hrounds : Stop.WithinRounds excused rounds rounds') :
    Evaluation.Truncates excused (evaluate rounds b) (evaluate rounds' b') := by
  obtain ⟨_, htail⟩ := step_truncates hb hrounds
  exact htail (call_truncates htail (step_call_truncates_self _ rounds' b') hrounds)

end Levels

/-! ## Runs -/

theorem Expr.ofProgram_follows (hb : Stop.Within excused b b') (program : Expr) :
    Follows excused Eq (program.ofProgram b) (program.ofProgram b') := by
  cases program with
  | stray d => exact read_follows hb d
  | _ => exact .refl _

theorem Eval.Truncates.ofNaming {α : Type} {x y : Naming α} (h : Naming.Follows excused x y)
    (names : FreshNames) : Truncates excused (ofNaming names x) (ofNaming names y) := by
  refine .ofOutcome ((h names).imp id fun heq => ?_)
  exact Outcome.rel_eq_iff.mpr (congrArg Prod.fst heq).symm

section Report

variable {α : Type} {x y : Eval α} {m : Machine}

theorem reportExhaustion_congr (h : y.exec m = x.exec m) :
    (reportExhaustion y).exec m = (reportExhaustion x).exec m := by
  rw [reportExhaustion, reportExhaustion, Eval.exec_tryCatch, Eval.exec_tryCatch, h]

/-- Of a computation that has stopped only the end of the stack is reported as something else. -/
theorem exec_reportExhaustion_of_error {s : Stop} (h : (x.exec m).1 = .error s) :
    (reportExhaustion x).exec m =
      (.error (if s = .exhausted then .fault .recursionTooDeep else s), (x.exec m).2) := by
  obtain ⟨n, hx⟩ : ∃ n, x.exec m = (.error s, n) := ⟨_, Prod.ext h rfl⟩
  rw [reportExhaustion, Eval.exec_tryCatch, hx]
  cases s <;> rfl

theorem reportExhaustion_snd : ((reportExhaustion x).exec m).2 = (x.exec m).2 := by
  obtain ⟨r, n, hx⟩ : ∃ r n, x.exec m = (r, n) := ⟨_, _, rfl⟩
  cases r with
  | ok a => rw [reportExhaustion, Eval.exec_tryCatch, hx]
  | error s => rw [exec_reportExhaustion_of_error (congrArg Prod.fst hx)]

end Report

/-- Stops that a run under larger bounds need not share: the end of the stack and, if it may make
    more calls in a row, the end of these. -/
def Limits.Short (limits limits' : Limits) (s : Stop) : Prop :=
  s = .exhausted ∨ s = .unfinished ∧ limits.rounds ≠ limits'.rounds

/-- A program that is read, expanded and evaluated under larger bounds. -/
theorem program_truncates {limits limits' : Limits} (hstack : limits.stack ≤ limits'.stack)
    (hrounds : limits.rounds ≤ limits'.rounds) (stem : String) (program : Expr) :
    Eval.Truncates (limits.Short limits')
      (do
        let e ← Eval.ofOutcome (program.ofProgram limits.stack)
        let e ← Eval.ofNaming { stem } (e.expand limits.stack)
        limits.evaluate e (← Eval.newRoot))
      (do
        let e ← Eval.ofOutcome (program.ofProgram limits'.stack)
        let e ← Eval.ofNaming { stem } (e.expand limits'.stack)
        limits'.evaluate e (← Eval.newRoot)) := by
  have hb : Stop.Within (limits.Short limits') limits.stack limits'.stack := .inr ⟨.inl rfl, hstack⟩
  have hr : Stop.WithinRounds (limits.Short limits') limits.rounds limits'.rounds := by
    by_cases heq : limits.rounds = limits'.rounds
    · exact .inl heq
    · exact .inr ⟨.inr ⟨rfl, heq⟩, hrounds⟩
  refine (Eval.Truncates.ofOutcome (program.ofProgram_follows hb)).bind fun e => ?_
  refine (Eval.Truncates.ofNaming (e.expand_follows hb) _).bind fun e' => ?_
  exact Eval.Truncates.newRoot.bind fun f => evaluate_truncates hb hr e' f

/-- More stack only lets a run go on. A run that does not report the end of its stack ends in the
    same way under a larger one: with the same value or fault, the same output and the same machine.
    If it does report it, then what it has printed is the beginning of what is printed under the
    larger one. The bound on calls in a row says how long the runs are followed. It may be larger
    for the second run as well, unless the first one has been cut off by it. -/
theorem exhaustion_only_truncates {limits limits' : Limits} (hstack : limits.stack ≤ limits'.stack)
    (hrounds : limits.rounds ≤ limits'.rounds) (stem : String) (program : Expr) (m : Machine) :
    (((run limits stem program).exec m).1 ≠ .error (.fault .recursionTooDeep) →
      (((run limits stem program).exec m).1 = .error .unfinished →
        limits.rounds = limits'.rounds) →
      (run limits' stem program).exec m = (run limits stem program).exec m) ∧
    ∃ rest, ((run limits' stem program).exec m).2.output =
      ((run limits stem program).exec m).2.output ++ rest := by
  rcases (program_truncates hstack hrounds stem program).agrees m with
    heq | ⟨⟨s, hs, hshort⟩, hmore⟩
  · have hrun := reportExhaustion_congr heq
    exact ⟨fun _ _ => hrun, Machine.Continues.of_eq (congrArg (·.2.output) hrun)⟩
  · have hrun := exec_reportExhaustion_of_error hs
    constructor
    · intro hdeep hcut
      rcases hshort with rfl | ⟨rfl, hne⟩
      · exact absurd (congrArg Prod.fst hrun) hdeep
      · exact absurd (hcut (congrArg Prod.fst hrun)) hne
    · simp only [run, reportExhaustion_snd]
      exact hmore

namespace Truncation

/-- A procedure that prints a line and then calls itself, from inside a sum, as many times as its
    argument says. -/
def countdown : Expr :=
  .letrec "f"
    (.lambda "n"
      (.branch (.binary "=" (.name "n") (.numeral (.int 0))) (.numeral (.int 0))
        (.begin
          [.apply (.name "print") (.text "*"),
            .binary "+" (.numeral (.int 1))
              (.apply (.name "f") (.binary "-" (.name "n") (.numeral (.int 1))))])))
    (.apply (.name "f") (.numeral (.int 3)))

/-- How a run of it ends under the given stack. -/
def ending (stack : Nat) : Outcome Datum × Machine :=
  (run { stack, rounds := 10 } "loop" countdown).exec {}

end Truncation

/-- Under a stack that is too small the program has printed two of its three lines when it stops.
    Under one that is just large enough it returns, and one that is larger changes nothing. -/
theorem exhaustion_only_truncates_countdown :
    (Truncation.ending 9).1 = .error (.fault .recursionTooDeep) ∧
    (Truncation.ending 9).2.output = "*\n*\n" ∧
    (∃ rest, (Truncation.ending 15).2.output = (Truncation.ending 9).2.output ++ rest) ∧
    (Truncation.ending 15).1.isOk = true ∧
    (Truncation.ending 15).2.output = "*\n*\n*\n" ∧
    Truncation.ending 1000 = Truncation.ending 15 := by
  have hok : (Truncation.ending 15).1.isOk = true := by decide +kernel
  refine ⟨by cbv, by decide +kernel, ?_, hok, by decide +kernel, ?_⟩
  · unfold Truncation.ending
    exact (exhaustion_only_truncates (by decide) (by decide) _ _ _).2
  · unfold Truncation.ending at hok ⊢
    refine (exhaustion_only_truncates (by decide) (by decide) _ _ _).1 ?_ fun _ => rfl
    intro hdeep
    rw [hdeep] at hok
    cases hok

end MiniLisp
