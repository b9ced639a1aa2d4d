import MiniLisp.Proofs.Budgets
import MiniLisp.Proofs.Texts

/-!
# How reading fails

The reader takes the parts of a form one after the other. Some of them have to be symbols, and
the others are read in turn; it stops at the first part that is not as it has to be, with a
message that shows this part, or in the end at the shape of the form. So the only failure other
than a fault of form or the end of the stack is that the part to be shown is too long for it.

* `Reader.Plan`, `Reader.plan`: the steps that the reader takes for a datum.
* `Reader.read_eq_perform`: reading takes these steps.
* `Reader.Rejects`: the reader stops at a part that its message shows.
* `Reader.read_fails`, `Reader.Rejects.eventually_tooLong`: reading fails for the length of a
  number exactly if it stops at a part with such a number.
-/

namespace MiniLisp

namespace Reader

/-! ## Steps -/

/-- What the reader does with a part of a datum. -/
inductive Step where
  /-- It has to be a symbol. -/
  | name (role : NameRole) (d : Datum)
  /-- It is read. -/
  | part (d : Datum)
  /-- It denotes nothing. -/
  | alien (d : Datum)

/-- The steps that the reader takes, and the fault that it ends with when all of them are
    passed. -/
structure Plan where
  steps : List Step
  fault : Option Fault := none

/-- The plan for a form. -/
def formPlan : Head → List Datum → Plan
  | .keyword .define, [x, d] => { steps := [.name .defined x, .part d] }
  | .keyword .letrec, [bindings, body] =>
    match bindings with
    | .list _ [.list _ [x, d]] => { steps := [.name .recursive x, .part d, .part body] }
    | .list _ [_] => { steps := [], fault := some .bindingShape }
    | _ => { steps := [], fault := some .bindingCount }
  | .keyword .quote, [_] => { steps := [] }
  | .keyword .branch, [test, yes, no] => { steps := [.part test, .part yes, .part no] }
  | .keyword .begin, [] => { steps := [], fault := some .emptyBegin }
  | .keyword .begin, parts => { steps := parts.map .part }
  | .keyword .lambda, [params, body] =>
    match params with
    | .list _ [x] => { steps := [.name .parameter x, .part body] }
    | _ => { steps := [], fault := some .parameterCount }
  | .keyword .loop, [first, test, next, body] =>
    match first with
    | .list _ [x, start] =>
      match next with
      | .list _ [y, update] =>
        { steps := [.name .initial x, .part start, .name .updated y, .part update, .part test,
            .part body] }
      | _ => { steps := [.name .initial x, .part start], fault := some (.clauseShape .update) }
    | _ => { steps := [], fault := some (.clauseShape .init) }
  | .operator _, [left, right] => { steps := [.part left, .part right] }
  | head, _ => { steps := [], fault := some (.partCount head) }

/-- The plan for a datum. -/
def plan : Datum → Plan
  | .bool _ | .int _ | .frac _ | .float _ _ | .text _ | .symbol _ => { steps := [] }
  | .list _ [] => { steps := [], fault := some .emptyForm }
  | .list _ (first :: parts) =>
    match head? first with
    | some head => formPlan head parts
    | none =>
      match parts with
      | [arg] => { steps := [.part first, .part arg] }
      | parts => { steps := [], fault := some (.argumentCount parts.length) }
  | d => { steps := [.alien d] }

/-- Takes a step. -/
@[simp] def Step.perform (budget : Nat) (read : Datum → Outcome Expr) : Step → Outcome Unit
  | name role d => do let _ ← symbolAs budget role d
  | part d => do let _ ← read d
  | alien d => do .fault (.malformed (← d.inspect budget))

/-- Takes steps one after the other. -/
@[simp] def performAll (budget : Nat) (read : Datum → Outcome Expr) : List Step → Outcome Unit
  | [] => pure ()
  | step :: steps => do
    step.perform budget read
    performAll budget read steps

/-- Follows a plan. -/
@[simp] def Plan.perform (budget : Nat) (read : Datum → Outcome Expr) (p : Plan) : Outcome Unit := do
  performAll budget read p.steps
  p.fault.elim (pure ()) .fault

/-! ## Reading as a plan -/

@[simp] theorem map_fault {α β : Type} (g : α → β) (f : Fault) :
    (g <$> Outcome.fault f : Outcome β) = Outcome.fault f := rfl

@[simp] theorem fault_bind {α β : Type} (g : α → Outcome β) (f : Fault) :
    (Outcome.fault f >>= g) = Outcome.fault f := rfl

theorem mapM_eq_performAll (b : Nat) (read : Datum → Outcome Expr) (ds : List Datum) :
    (ds.mapM read >>= fun _ => pure ()) = performAll b read (ds.map .part) := by
  induction ds with
  | nil => rfl
  | cons d ds ih =>
    rw [List.mapM_cons, List.map_cons, performAll, ← ih]
    simp

theorem form_eq_perform (b : Nat) (read : Datum → Outcome Expr) (head : Head) (parts : List Datum) :
    (form b read head parts >>= fun _ => pure ()) = (formPlan head parts).perform b read := by
  unfold form formPlan
  split
  · simp
  · split <;> simp
  · simp
  · simp
  · simp
  · simp [← mapM_eq_performAll]
  · split <;> simp
  · unfold pair
    split
    · split <;> simp [Clause.role]
    · simp
  · simp
  · simp

/-- Reading a datum is to follow its plan, as far as failures are concerned. -/
theorem read_eq_perform (b : Nat) (d : Datum) :
    (Expr.read (b + 1) d >>= fun _ => pure ()) = (plan d).perform b (Expr.read b) := by
  cases d with
  | bool | int | frac | float | text | symbol => rfl
  | list i items =>
    cases items with
    | nil => rfl
    | cons first parts =>
      unfold Expr.read plan
      dsimp only
      cases head? first with
      | some head => exact form_eq_perform ..
      | none =>
        dsimp only
        split <;> simp
  | _ => simp [Expr.read, plan]

theorem read_error_iff {b : Nat} {d : Datum} {s : Stop} :
    Expr.read (b + 1) d = .error s ↔ (plan d).perform b (Expr.read b) = .error s := by
  rw [← read_eq_perform]
  cases Expr.read (b + 1) d with
  | ok e => simp [bind, Except.bind, pure, Except.pure]
  | error t => simp [bind, Except.bind]

theorem formPlan_fault_kind {head : Head} {parts : List Datum} {f : Fault}
    (h : (formPlan head parts).fault = some f) : f.kind = .illFormed := by
  unfold formPlan at h
  (repeat' split at h) <;> cases h <;> rfl

/-- What is wrong with the shape of a datum is a fault of form. -/
theorem plan_fault_kind {d : Datum} {f : Fault} (h : (plan d).fault = some f) :
    f.kind = .illFormed := by
  unfold plan at h
  split at h
  iterate 6 cases h
  · cases h
    rfl
  · split at h
    · exact formPlan_fault_kind h
    · split at h <;> cases h
      rfl
  · cases h

/-! ## The part that is shown -/

/-- A step is passed. -/
def Step.Passes : Step → Prop
  | name _ d => ∃ x, d = .symbol x
  | part d => ∃ e, Denotes d e
  | alien _ => False

/-- The reader stops at a part of a datum that its message shows: a part that should be a symbol,
    or one that denotes nothing. -/
inductive Rejects : Datum → Datum → Prop
  | name {d v : Datum} {before after : List Step} {role : NameRole}
      (steps : (plan d).steps = before ++ .name role v :: after)
      (passed : ∀ s ∈ before, s.Passes) (other : ∀ x, v ≠ .symbol x) : Rejects d v
  | alien {d v : Datum} {before after : List Step}
      (steps : (plan d).steps = before ++ .alien v :: after)
      (passed : ∀ s ∈ before, s.Passes) : Rejects d v
  | part {d d' v : Datum} {before after : List Step}
      (steps : (plan d).steps = before ++ .part d' :: after)
      (passed : ∀ s ∈ before, s.Passes) (inside : Rejects d' v) : Rejects d v

variable {b : Nat} {read : Datum → Outcome Expr}

theorem Step.passes_of_perform {s : Step} (h : s.perform b (Expr.read b) = .ok ()) : s.Passes := by
  cases s with
  | name role d =>
    obtain ⟨x, hx, _⟩ := Outcome.bind_ok_iff.mp h
    exact ⟨x, symbolAs_ok hx⟩
  | part d =>
    obtain ⟨e, he, _⟩ := Outcome.bind_ok_iff.mp h
    exact ⟨e, Expr.read_denotes he⟩
  | alien d =>
    obtain ⟨_, _, h⟩ := Outcome.bind_ok_iff.mp h
    cases h

theorem Step.Passes.eventually_perform {s : Step} (h : s.Passes) :
    Eventually fun b => s.perform b (Expr.read b) = .ok () := by
  cases s with
  | name role d =>
    obtain ⟨x, rfl⟩ := h
    exact .of_forall fun _ => rfl
  | part d =>
    obtain ⟨e, he⟩ := h
    refine he.eventually_read.mono fun b hb => ?_
    rw [perform, hb]
    rfl
  | alien d => exact h.elim

/-- Steps fail at the first one that does. -/
theorem performAll_error {steps : List Step} {s : Stop} (h : performAll b read steps = .error s) :
    ∃ before step after, steps = before ++ step :: after ∧
      (∀ t ∈ before, t.perform b read = .ok ()) ∧ step.perform b read = .error s := by
  induction steps with
  | nil => cases h
  | cons step steps ih =>
    rw [performAll] at h
    cases hstep : step.perform b read with
    | error t =>
      rw [hstep] at h
      cases h
      exact ⟨[], step, steps, rfl, nofun, hstep⟩
    | ok u =>
      rw [hstep] at h
      obtain ⟨before, step', after, rfl, hbefore, hfails⟩ := ih h
      exact ⟨step :: before, step', after, rfl, List.forall_mem_cons.mpr ⟨hstep, hbefore⟩, hfails⟩

theorem performAll_append_error {before after : List Step} {step : Step} {s : Stop}
    (hbefore : ∀ t ∈ before, t.perform b read = .ok ()) (h : step.perform b read = .error s) :
    performAll b read (before ++ step :: after) = .error s := by
  induction before with
  | nil =>
    rw [List.nil_append, performAll, h]
    rfl
  | cons t before ih =>
    rw [List.forall_mem_cons] at hbefore
    rw [List.cons_append, performAll, hbefore.1]
    exact ih hbefore.2

theorem symbolAs_of_ne {role : NameRole} {d : Datum} (hd : ∀ x, d ≠ .symbol x) :
    symbolAs b role d = (do Outcome.fault (.notSymbol role (← d.inspect b))) := by
  cases d with
  | symbol x => exact absurd rfl (hd x)
  | _ => rfl

/-! ## Failures -/

/-- A message that shows a part is made unless the part is too long or too deep. -/
theorem shown_error {v : Datum} {g : String → Fault} {s : Stop}
    (h : (do Outcome.fault (g (← v.inspect b)) : Outcome Unit) = .error s) :
    s = .exhausted ∨ (∃ shown, s = .fault (g shown)) ∨ s = .fault .digitLimit ∧ ¬ v.Writable := by
  have hwrites := v.inspect_writes b
  generalize v.inspect b = text at h hwrites
  cases hwrites with
  | ok _ shown =>
    cases h
    exact .inr (.inl ⟨shown, rfl⟩)
  | tooLong hv =>
    cases h
    exact .inr (.inr ⟨rfl, hv⟩)
  | exhausted =>
    cases h
    exact .inl rfl

/-- How reading a datum may stop: for want of stack, with a fault of form, or at a part that is
    too long to be shown. -/
def Explains (d : Datum) (s : Stop) : Prop :=
  s = .exhausted ∨ ∃ f, s = .fault f ∧
    (f.kind = .illFormed ∨ f = .digitLimit ∧ ∃ v, Rejects d v ∧ ¬ v.Writable)

/-- The step of a plan that fails explains why reading stops, as reading its part does. -/
theorem explains_of_step {d : Datum} {s : Stop} {before after : List Step} {step : Step}
    (hplan : (plan d).steps = before ++ step :: after) (hpassed : ∀ t ∈ before, t.Passes)
    (ih : ∀ {d' t}, Expr.read b d' = .error t → Explains d' t)
    (hstep : step.perform b (Expr.read b) = .error s) : Explains d s := by
  cases step with
  | name role v =>
    have hother : ∀ x, v ≠ .symbol x := by
      rintro x rfl
      cases hstep
    rw [Step.perform, symbolAs_of_ne hother, bind_assoc] at hstep
    rcases shown_error hstep with rfl | ⟨shown, rfl⟩ | ⟨rfl, hv⟩
    · exact .inl rfl
    · exact .inr ⟨_, rfl, .inl rfl⟩
    · exact .inr ⟨_, rfl, .inr ⟨rfl, v, .name hplan hpassed hother, hv⟩⟩
  | alien v =>
    rcases shown_error hstep with rfl | ⟨shown, rfl⟩ | ⟨rfl, hv⟩
    · exact .inl rfl
    · exact .inr ⟨_, rfl, .inl rfl⟩
    · exact .inr ⟨_, rfl, .inr ⟨rfl, v, .alien hplan hpassed, hv⟩⟩
  | part d' =>
    cases hread : Expr.read b d' with
    | ok e =>
      rw [Step.perform, hread] at hstep
      cases hstep
    | error t =>
      rw [Step.perform, hread] at hstep
      cases hstep
      refine (ih hread).imp_right ?_
      rintro ⟨f, hf, hkind⟩
      refine ⟨f, hf, hkind.imp_right ?_⟩
      rintro ⟨hlimit, v, hrejects, hv⟩
      exact ⟨hlimit, v, .part hplan hpassed hrejects, hv⟩

theorem read_fails {d : Datum} {s : Stop} (h : Expr.read b d = .error s) : Explains d s := by
  induction b generalizing d s with
  | zero =>
    cases h
    exact .inl rfl
  | succ b ih =>
    rw [read_error_iff, Plan.perform] at h
    cases hsteps : performAll b (Expr.read b) (plan d).steps with
    | ok u =>
      rw [hsteps] at h
      cases hfault : (plan d).fault with
      | none =>
        rw [hfault] at h
        cases h
      | some f =>
        rw [hfault] at h
        cases h
        exact .inr ⟨f, rfl, .inl (plan_fault_kind hfault)⟩
    | error t =>
      rw [hsteps] at h
      cases h
      obtain ⟨before, step, after, hplan, hbefore, hstep⟩ := performAll_error hsteps
      exact explains_of_step hplan (fun t ht => Step.passes_of_perform (hbefore t ht)) ih hstep

/-- Where the reader stops at a part that is too long to be shown, reading fails for this reason
    under every budget that is large enough. -/
theorem Rejects.eventually_tooLong {d v : Datum} (h : Rejects d v) (hv : ¬ v.Writable) :
    Eventually fun b => Expr.read b d = .error (.fault .digitLimit) := by
  have hsteps : ∀ {d : Datum} {before after : List Step} {step : Step},
      (plan d).steps = before ++ step :: after → (∀ s ∈ before, s.Passes) →
      (Eventually fun b => step.perform b (Expr.read b) = .error (.fault .digitLimit)) →
      Eventually fun b => Expr.read b d = .error (.fault .digitLimit) := by
    intro d before after step hplan hpassed hstep
    have hbefore : Eventually fun b => ∀ s ∈ before, s.perform b (Expr.read b) = .ok () :=
      .all fun s hs => (hpassed s hs).eventually_perform
    refine (hbefore.and hstep).succ ?_
    rintro b ⟨hbefore, hstep⟩
    rw [read_error_iff]
    rw [Plan.perform, hplan, performAll_append_error hbefore hstep]
    rfl
  induction h with
  | name hplan hpassed hother =>
    refine hsteps hplan hpassed ((Value.eventually_inspect_tooLong hv).mono fun b hb => ?_)
    rw [Step.perform, symbolAs_of_ne hother, hb]
    rfl
  | alien hplan hpassed =>
    refine hsteps hplan hpassed ((Value.eventually_inspect_tooLong hv).mono fun b hb => ?_)
    rw [Step.perform, hb]
    rfl
  | part hplan hpassed _ ih =>
    refine hsteps hplan hpassed ((ih hv).mono fun b hb => ?_)
    rw [Step.perform, hb]
    rfl

end Reader

end MiniLisp
