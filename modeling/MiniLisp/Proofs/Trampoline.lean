import MiniLisp.Proofs.CutOff

/-!
# Pending calls are transparent

The evaluator with pending calls, in tail and in inner position, and the evaluator without
them end in the same way from every machine, or none of them ends.

Both directions compare evaluators by `Evaluation.Below`: where the first one is not cut off
by a bound, the second one does the same. Under this order a level of evaluation is monotone in
the evaluators for its parts (`Direct.form_truncates`), and the rest is an induction on the bound
with `form_value` and `form_resume`.

* `direct_mono`: a larger budget keeps every answer of `direct`.
* `step_below_direct`, `direct_below_step`: the two directions.
* `evaluation_transparent`: the equivalence.
-/

namespace MiniLisp

/-- A larger budget keeps every answer. -/
theorem direct_mono {b b' : Nat} (h : b ≤ b') : Evaluation.Below (direct b) (direct b') :=
  direct_truncates (.inr ⟨trivial, h⟩)

theorem direct_ends_unique {b b' : Nat} {e : Expr} {f : FrameId} {m m₁ m₂ : Machine}
    {r₁ r₂ : Except Fault Datum} (h₁ : (direct b e f).Ends m r₁ m₁)
    (h₂ : (direct b' e f).Ends m r₂ m₂) : r₁ = r₂ ∧ m₁ = m₂ :=
  ((direct_mono (le_max_left b b') e f).ends h₁).unique
    ((direct_mono (le_max_right b b') e f).ends h₂)

/-! ## From pending calls to plain recursion -/

/-- A level of evaluation is below `direct` if what it is made of is. -/
theorem form_below_direct {inner last call : Evaluation} (budget : Nat)
    (hinner : ∃ b, inner.Below (direct b)) (hlast : ∃ b, last.Below (direct b))
    (hcall : ∃ b, call.Below (direct b)) :
    ∃ b, Evaluation.Below (Direct.form inner last call budget) (direct b) := by
  obtain ⟨bi, hi⟩ := hinner
  obtain ⟨bl, hl⟩ := hlast
  obtain ⟨bc, hc⟩ := hcall
  have hi := hi.trans (direct_mono (show bi ≤ max (max bi bl) (max bc budget) by omega))
  have hl := hl.trans (direct_mono (show bl ≤ max (max bi bl) (max bc budget) by omega))
  have hc := hc.trans (direct_mono (show bc ≤ max (max bi bl) (max bc budget) by omega))
  exact ⟨max (max bi bl) (max bc budget) + 1,
    Direct.form_truncates hi hl hc (.inr ⟨trivial, by omega⟩)⟩

theorem step_below_direct (rounds budget : Nat) :
    ∃ b, Evaluation.Below (step rounds budget).value (direct b) :=
  (step_induction (P := fun ev => ∃ b, ev.Below (direct b))
    ⟨0, fun _ _ => .throw _⟩ ⟨0, fun _ _ => .throw_left trivial (.throw _)⟩
    form_below_direct rounds budget).1

theorem evaluate_below_direct (rounds budget : Nat) :
    ∃ b, Evaluation.Below (evaluate rounds budget) (direct b) :=
  evaluate_induction (P := fun ev => ∃ b, ev.Below (direct b))
    ⟨0, fun _ _ => .throw _⟩ ⟨0, fun _ _ => .throw_left trivial (.throw _)⟩
    form_below_direct rounds budget

/-! ## From plain recursion to pending calls -/

theorem direct_below_step {b : Nat} :
    (∀ {rounds budget}, b ≤ rounds → b ≤ budget →
      Evaluation.Below (direct b) (step rounds budget).value) ∧
    ∀ {rounds budget budget' rounds'}, b ≤ rounds → b ≤ budget → b ≤ budget' → b ≤ rounds' →
      Evaluation.Below (direct b)
        (fun e f => step rounds budget e f .tail >>= (step rounds budget').resume rounds') := by
  induction b with
  | zero =>
    constructor
    · intro rounds budget _ _ e f
      exact .throw_left trivial ((step_truncates_self _ rounds budget).1 e f)
    · intro rounds budget budget' rounds' _ _ _ _ e f
      have hcall := step_call_truncates_self Stop.CutOff rounds budget' rounds'
      exact .throw_left trivial ((step_truncates_self _ rounds budget).2 _ rounds' hcall e f)
  | succ b ih =>
    obtain ⟨hvalue, htail⟩ := ih
    constructor
    · intro rounds budget hr hb e f
      obtain ⟨budget, rfl⟩ : ∃ c, budget = c + 1 := ⟨budget - 1, by omega⟩
      have hv := hvalue (show b ≤ rounds by omega) (show b ≤ budget by omega)
      rw [step, Evaluator.form_value]
      refine Direct.form_truncates hv hv (fun body frame => ?_) (.inr ⟨trivial, by omega⟩) e f
      exact htail (by omega) (by omega) (by omega) (by omega) body frame
    · intro rounds budget budget' rounds' hr hb hb' hr' e f
      obtain ⟨budget, rfl⟩ : ∃ c, budget = c + 1 := ⟨budget - 1, by omega⟩
      obtain ⟨rounds', rfl⟩ : ∃ c, rounds' = c + 1 := ⟨rounds' - 1, by omega⟩
      show Eval.Below _ ((step rounds budget).form rounds budget e f .tail >>= _)
      rw [Evaluator.form_resume]
      refine Direct.form_truncates (hvalue (by omega) (by omega)) (fun e f => ?_)
        (fun body frame => ?_) (.inr ⟨trivial, by omega⟩) e f
      · exact htail (by omega) (by omega) (by omega) (by omega) e f
      · exact htail (by omega) (by omega) (by omega) (by omega) body frame

theorem direct_below_evaluate (b : Nat) : Evaluation.Below (direct b) (evaluate b b) :=
  direct_below_step.2 le_rfl le_rfl le_rfl le_rfl

/-! ## The equivalence -/

/-- The ending of a step in inner position, as the ending of the value that it gives. -/
theorem ends_inner_iff {rounds budget : Nat} {e : Expr} {f : FrameId} {m m' : Machine}
    {r : Except Fault Datum} :
    (step rounds budget e f .inner).Ends m (r.map Reply.value) m' ↔
      ((step rounds budget).value e f).Ends m r m' := by
  simp only [Eval.Ends, Evaluator.value, Eval.exec_bind]
  obtain ⟨s, n, hs⟩ : ∃ s n, (step rounds budget e f .inner).exec m = (s, n) := ⟨_, _, rfl⟩
  rw [hs]
  cases s with
  | error s => cases r <;> simp [Except.mapError, Except.map]
  | ok reply =>
    obtain ⟨v⟩ := reply
    cases r <;> simp [Except.mapError, Except.map]

/-- Evaluation with pending calls, in tail and in inner position, ends exactly as evaluation by
    plain recursion does: with the same value or fault, the same output and the same heap.
    These endings are unique. In inner position the answer is never a pending call, and neither
    frames nor arguments hold one: that much is in the types, as `Reply .inner` has values only and
    pending calls are not data. -/
theorem evaluation_transparent (e : Expr) (f : FrameId) (m m' : Machine)
    (r : Except Fault Datum) :
    ((∃ rounds budget, (evaluate rounds budget e f).Ends m r m') ↔
      ∃ budget, (direct budget e f).Ends m r m') ∧
    ((∃ rounds budget, (step rounds budget e f .inner).Ends m (r.map Reply.value) m') ↔
      ∃ budget, (direct budget e f).Ends m r m') ∧
    (∀ b b' r' m'', (direct b e f).Ends m r m' → (direct b' e f).Ends m r' m'' →
      r = r' ∧ m' = m'') ∧
    ∀ rounds budget (reply : Reply .inner) m'',
      (step rounds budget e f .inner).exec m = (.ok reply, m'') → ∃ v, reply = .value v := by
  refine ⟨⟨?_, ?_⟩, ⟨?_, ?_⟩, ?_, ?_⟩
  · rintro ⟨rounds, budget, h⟩
    obtain ⟨b, hb⟩ := evaluate_below_direct rounds budget
    exact ⟨b, (hb e f).ends h⟩
  · rintro ⟨b, h⟩
    exact ⟨b, b, (direct_below_evaluate b e f).ends h⟩
  · rintro ⟨rounds, budget, h⟩
    obtain ⟨b, hb⟩ := step_below_direct rounds budget
    exact ⟨b, (hb e f).ends (ends_inner_iff.mp h)⟩
  · rintro ⟨b, h⟩
    exact ⟨b, b, ends_inner_iff.mpr ((direct_below_step.1 le_rfl le_rfl e f).ends h)⟩
  · intro b b' r' m'' h h'
    exact direct_ends_unique h h'
  · intro _ _ reply _ _
    obtain ⟨v⟩ := reply
    exact ⟨v, rfl⟩

end MiniLisp
