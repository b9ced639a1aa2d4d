import MiniLisp.Proofs.Rejection

/-!
# The grammar and the reader

The reader gives an expression for a datum exactly if the grammar does, and the same one. A datum
that denotes nothing is refused for its form. Two things can come in the way: the stack may end,
which it does not under a budget that is large enough, and the message may have to show a part
that is too long for it.

* `Reader.part_lt`: the reader goes on to smaller data only.
* `Expr.read_settles`: under a large budget the stack does not end.
* `reading_follows_grammar`: what the reader accepts, and how it refuses the rest.
-/

namespace MiniLisp

namespace Reader

/-! ## Reading ends -/

theorem formPlan_part_lt {head : Head} {parts : List Datum} {d : Datum}
    (h : Step.part d ∈ (formPlan head parts).steps) : sizeOf d < sizeOf parts := by
  unfold formPlan at h
  (repeat' split at h) <;>
    simp only [List.mem_cons, List.mem_map, List.not_mem_nil, Step.part.injEq, reduceCtorEq,
      exists_eq_right, or_false, false_or] at h
  · -- a definition
    simp +arith [h]
  · -- a `letrec`
    rcases h with rfl | rfl <;> simp +arith
  · -- a choice
    rcases h with rfl | rfl | rfl <;> simp +arith
  · -- a sequence
    exact List.sizeOf_lt_of_mem h
  · -- a procedure
    simp +arith [h]
  · -- a loop
    rcases h with rfl | rfl | rfl | rfl <;> simp +arith
  · -- a loop whose second clause is none
    simp +arith [h]
  · -- an operator
    rcases h with rfl | rfl <;> simp +arith

/-- The reader goes on to smaller data only. -/
theorem part_lt {d d' : Datum} (h : Step.part d' ∈ (plan d).steps) : sizeOf d' < sizeOf d := by
  unfold plan at h
  split at h
  case h_8 =>
    split at h
    · have hlt := formPlan_part_lt h
      simp only [Value.list.sizeOf_spec, List.cons.sizeOf_spec]
      omega
    · split at h
      · simp only [List.mem_cons, List.not_mem_nil, Step.part.injEq, or_false] at h
        rcases h with rfl | rfl <;> simp +arith
      · simp at h
  all_goals simp at h

/-- Under a large budget a step of a plan does not end for want of stack, if this holds of the
    datum that it reads. -/
theorem Step.settles {step : Step}
    (h : ∀ d, step = .part d → Eventually fun b => Expr.read b d ≠ .error .exhausted) :
    Eventually fun b => step.perform b (Expr.read b) ≠ .error .exhausted := by
  cases step with
  | name role d =>
    by_cases hd : ∃ x, d = .symbol x
    · obtain ⟨x, rfl⟩ := hd
      exact .of_forall fun b => nofun
    · have hother : ∀ x, d ≠ .symbol x := fun x hx => hd ⟨x, hx⟩
      refine d.inspect_settles.mono fun b hb => ?_
      rw [perform, symbolAs_of_ne hother, bind_assoc]
      exact Outcome.bind_ne_error hb nofun
  | part d => exact (h d rfl).mono fun b hb => Outcome.bind_ne_error hb nofun
  | alien d => exact d.inspect_settles.mono fun b hb => Outcome.bind_ne_error hb nofun

theorem Plan.perform_ne_exhausted {b : Nat} {read : Datum → Outcome Expr} {p : Plan}
    (h : ∀ step ∈ p.steps, step.perform b read ≠ .error .exhausted) :
    p.perform b read ≠ .error .exhausted := by
  have hsteps : performAll b read p.steps ≠ .error .exhausted := by
    intro hfails
    obtain ⟨before, step, after, hplan, _, hstep⟩ := performAll_error hfails
    exact h step (by simp [hplan]) hstep
  refine Outcome.bind_ne_error hsteps fun _ => ?_
  cases p.fault with
  | none => exact nofun
  | some f => exact nofun

end Reader

/-- Reading a datum does not exhaust a stack that is large enough. -/
theorem Expr.read_settles (d : Datum) : Eventually fun b => read b d ≠ .error .exhausted := by
  induction hn : sizeOf d using Nat.strongRecOn generalizing d with
  | ind n ih =>
    have hsteps : Eventually fun b => ∀ step ∈ (Reader.plan d).steps,
        step.perform b (read b) ≠ .error .exhausted := by
      refine .all fun step hstep => Reader.Step.settles ?_
      rintro d' rfl
      exact ih (sizeOf d') (hn ▸ Reader.part_lt hstep) d' rfl
    refine hsteps.succ fun b hb hread => ?_
    exact Reader.Plan.perform_ne_exhausted hb (Reader.read_error_iff.mp hread)

/-! ## What is read, and what is refused -/

/-- What denotes an expression is refused under no budget, unless the stack ends. -/
theorem Denotes.read_ne_fault {d : Datum} {e : Expr} (h : Denotes d e) (b : Nat) (f : Fault) :
    Expr.read b d ≠ .error (.fault f) := by
  intro hread
  obtain ⟨c, hc, hok⟩ := h.eventually_read.exists_ge b
  have hwithin : Stop.Within (· = .exhausted) b c := .inr ⟨rfl, hc⟩
  have hfollows := Expr.read_follows hwithin d
  rw [hread, hok] at hfollows
  rcases hfollows with ⟨s, hs, rfl⟩ | hrel
  · cases hs
  · exact hrel

namespace Reader

/-- How a datum that denotes nothing is refused: for its form, or because the reader stops at a
    part that is too long to be shown. -/
def Refuses (d : Datum) (f : Fault) : Prop :=
  f.kind = .illFormed ∨ f = .digitLimit ∧ ∃ v, Rejects d v ∧ ¬ v.Writable

theorem read_cases (b : Nat) (d : Datum) :
    (∃ e, Expr.read b d = .ok e ∧ Denotes d e) ∨ Expr.read b d = .error .exhausted ∨
      ∃ f, Expr.read b d = .error (.fault f) ∧ (∀ e, ¬ Denotes d e) ∧ Refuses d f := by
  cases hread : Expr.read b d with
  | ok e => exact .inl ⟨e, rfl, Expr.read_denotes hread⟩
  | error s =>
    rcases read_fails hread with rfl | ⟨f, rfl, hf⟩
    · exact .inr (.inl rfl)
    · exact .inr (.inr ⟨f, rfl, fun e he => he.read_ne_fault b f hread, hf⟩)

end Reader

/-- A datum denotes an expression exactly if the reader gives it this expression, under every budget
    that is large enough. It denotes none exactly if the reader then refuses it: for its form,
    unless the message has to show a part that is too long. Under any budget whatever, the reader
    gives what the datum denotes, refuses what denotes nothing, or exhausts the stack. -/
theorem reading_follows_grammar (d : Datum) :
    (∀ e, (Eventually fun b => Expr.read b d = .ok e) ↔ Denotes d e) ∧
    ((Eventually fun b => ∃ f, Expr.read b d = .error (.fault f) ∧ Reader.Refuses d f) ↔
      ∀ e, ¬ Denotes d e) ∧
    ∀ b, (∃ e, Expr.read b d = .ok e ∧ Denotes d e) ∨ Expr.read b d = .error .exhausted ∨
      ∃ f, Expr.read b d = .error (.fault f) ∧ (∀ e, ¬ Denotes d e) ∧ Reader.Refuses d f := by
  refine ⟨fun e => ⟨?_, Denotes.eventually_read⟩, ⟨?_, ?_⟩, fun b => Reader.read_cases b d⟩
  · intro h
    obtain ⟨b, _, hb⟩ := h.exists_ge 0
    exact Expr.read_denotes hb
  · intro h e he
    obtain ⟨b, _, f, hb, _⟩ := h.exists_ge 0
    exact he.read_ne_fault b f hb
  · intro hnone
    refine (Expr.read_settles d).mono fun b hb => ?_
    rcases Reader.read_cases b d with ⟨e, _, he⟩ | hexhausted | ⟨f, hf, _, hrefuses⟩
    · exact absurd he (hnone e)
    · exact absurd hexhausted hb
    · exact ⟨f, hf, hrefuses⟩

end MiniLisp
