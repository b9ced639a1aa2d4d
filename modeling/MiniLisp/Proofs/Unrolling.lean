import MiniLisp.Proofs.Trampoline

/-!
# Expanded loops, round by round

An expanded loop makes a frame in which its procedure is bound under the generated name, and
calls it with the start value; a call evaluates the test, and if it holds the body, and then
calls the procedure again. Under a stack budget each round is nested in the one before and spends
some levels. `paced` gives a loop a number of rounds instead, all of them at the same level. It
does the same as `direct` up to what is cut off, so that rounds can be compared one by one with
those of another evaluation.

* `Unrolled.makeFrame`, `Unrolled.form_ofLoop`: the frame of the loop, and a level of evaluation
  of the loop.
* `paced`: evaluation by plain recursion in which loops count their rounds.
* `paced_below_direct`, `direct_below_paced`: the two directions.
-/

namespace MiniLisp

/-! ## Rounds of an expanded loop -/

/-- The body of the procedure that a loop is expanded to. -/
def Expr.loopBody (g : String) (test update body : Expr) : Expr :=
  .branch test (.begin [body, .apply (.name g) update]) (.quote loopResult)

namespace Unrolled

variable (g i : String) (start test update body : Expr)

/-- The frame of the loop, in which its procedure is bound. -/
def makeFrame (f : FrameId) : Eval FrameId := do
  let frame ← Eval.bindFrame f g .unassigned
  let id ← Eval.freshId
  Eval.define frame g (.closure id i (Expr.loopBody g test update body) frame)
  pure frame

variable {g i start test update body}

theorem exec_makeFrame (f : FrameId) (m : Machine) :
    (makeFrame g i test update body f).exec m = (.ok m.heap.size,
      Machine.takeId
        { m with
          heap := m.heap.alloc
            ⟨[(g, .closure m.nextId i (Expr.loopBody g test update body) m.heap.size)],
              some f⟩ }) := by
  rw [makeFrame, Eval.exec_bind_ok (Eval.exec_bindFrame ..),
    Eval.exec_bind_ok (Eval.exec_freshId _), Eval.exec_bind_ok (Eval.exec_define ..),
    Eval.exec_pure]
  simp [Machine.define, Machine.takeId, Machine.bindFrame, Heap.define_alloc_size, Bindings.insert]

/-- A level of evaluation of an expanded loop makes its frame and then calls its procedure. -/
theorem form_ofLoop {inner last call : Evaluation}
    (hlambda : ∀ x e f, inner (.lambda x e) f = do pure (.closure (← Eval.freshId) x e f))
    (budget : Nat) (f : FrameId) :
    Direct.form inner last call budget (Expr.ofLoop g i start test update body) f =
      makeFrame g i test update body f >>= last (.apply (.name g) start) := by
  simp only [Expr.ofLoop, Direct.form, hlambda, makeFrame, bind_assoc, pure_bind]
  rfl

end Unrolled

/-! ## Loops that count their rounds -/

namespace Paced

/-- The procedure of a loop is called with the value of an expression. -/
def next (ev : Evaluation) (call : Datum → Datum → Eval Datum) (g : String) (e : Expr)
    (f : FrameId) : Eval Datum := do
  let head ← Direct.read f g
  let v ← ev e f
  call head v

/-- Evaluates the body of a procedure. If it is that of a loop, the next round is made by `call`. -/
def turn (ev : Evaluation) (call : Datum → Datum → Eval Datum) : Evaluation
  | .branch test (.begin [body, .apply (.name g) update]) (.quote d), f => do
    let t ← ev test f
    if t.isTrue then
      let _ ← ev body f
      next ev call g update f
    else
      pure d
  | e, f => ev e f

/-- Calls the procedure of a loop, for fewer than `rounds` rounds. -/
def call (ev : Evaluation) (budget : Nat) : (rounds : Nat) → Datum → Datum → Eval Datum
  | 0, _, _ => throw .unfinished
  | rounds + 1, head, v => Direct.apply (turn ev (call ev budget rounds)) budget head v

/-- Evaluates what a loop binds. Its procedure is made under every budget. -/
def binding (ev : Evaluation) : Evaluation
  | .lambda x e, f => do pure (.closure (← Eval.freshId) x e f)
  | e, f => ev e f

/-- Evaluates the first call in a loop, which is given as many rounds as there are levels. -/
def start (ev : Evaluation) (budget : Nat) : Evaluation
  | .apply (.name g) e, f => next ev (call ev budget budget) g e f
  | e, f => ev e f

end Paced

/-- The expression is a `letrec` of a name that is not in use. In expansions these are loops. -/
def Expr.isUnused (used : List String) : Expr → Bool
  | .letrec x _ _ => !used.contains x
  | _ => false

/-- Evaluation by plain recursion in which loops count their rounds. -/
def paced (used : List String) : Nat → Evaluation
  | 0, _, _ => throw .exhausted
  | budget + 1, e, f =>
    let ev := paced used budget
    if e.isUnused used then
      Direct.form (Paced.binding ev) (Paced.start ev budget) ev budget e f
    else
      Direct.form ev ev ev budget e f

namespace Paced

variable {ev : Evaluation} {call' : Datum → Datum → Eval Datum} {n budget : Nat} {g : String}
  {e : Expr} {f : FrameId}

/-! ### Nothing that was printed is taken back -/

section Self

variable (hev : ev.Below ev)
include hev

theorem next_self (hcall : ∀ head v, (call' head v).Below (call' head v)) :
    (next ev call' g e f).Below (next ev call' g e f) :=
  (Direct.read_truncates f g).bind fun head => (hev e f).bind fun v => hcall head v

theorem turn_self (hcall : ∀ head v, (call' head v).Below (call' head v)) :
    (turn ev call').Below (turn ev call') := by
  intro e f
  unfold turn
  split
  · refine (hev _ f).bind fun t => ?_
    split
    · exact (hev _ f).bind fun _ => next_self hev hcall
    · exact .pure _
  · exact hev e f

theorem call_self (budget rounds : Nat) (head v : Datum) :
    (call ev budget rounds head v).Below (call ev budget rounds head v) := by
  induction rounds generalizing head v with
  | zero => exact .throw _
  | succ rounds ih => exact Direct.apply_truncates (turn_self hev ih) (.inl rfl) head v

theorem binding_self : (binding ev).Below (binding ev) := by
  intro e f
  unfold binding
  split
  · exact Eval.Truncates.freshId.bind fun _ => .pure _
  · exact hev e f

theorem start_self (budget : Nat) : (start ev budget).Below (start ev budget) := by
  intro e f
  unfold start
  split
  · exact next_self hev (call_self hev budget budget)
  · exact hev e f

end Self

/-! ### From rounds to levels -/

theorem next_below_direct (hev : ev.Below (direct (n + 1)))
    (hcall : ∀ head v, (call' head v).Below (Direct.apply (direct (n + 1)) (n + 1) head v)) :
    (next ev call' g e f).Below (direct (n + 2) (.apply (.name g) e) f) :=
  (Direct.read_truncates f g).bind fun head => (hev e f).bind fun v => hcall head v

theorem apply_mono {n n' : Nat} (h : n ≤ n') (head v : Datum) :
    (Direct.apply (direct n) n head v).Below (Direct.apply (direct n') n' head v) :=
  Direct.apply_truncates (direct_mono h) (.inr ⟨trivial, h⟩) head v

/-- Four levels are enough for a round. -/
theorem turn_below_direct (hev : ev.Below (direct n))
    (hcall : ∀ head v, (call' head v).Below (Direct.apply (direct n) n head v)) :
    (turn ev call').Below (direct (n + 4)) := by
  have hlevel : ∀ k, ev.Below (direct (n + k)) := fun k => hev.trans (direct_mono (by omega))
  intro e f
  unfold turn
  split
  · refine (hlevel 3 _ f).bind fun t => ?_
    split
    · refine (hlevel 2 _ f).bind fun _ => next_below_direct (hlevel 1) fun head v => ?_
      exact (hcall head v).trans (apply_mono (Nat.le_succ n) head v)
    · exact .pure _
  · exact hlevel 4 e f

theorem call_below_direct (hev : ev.Below (direct n)) (hbudget : budget ≤ n) (rounds : Nat)
    (head v : Datum) : (call ev budget rounds head v).Below
      (Direct.apply (direct (n + 4 * rounds)) (n + 4 * rounds) head v) := by
  induction rounds generalizing head v with
  | zero => exact .throw_left trivial (apply_mono le_rfl head v)
  | succ rounds ih =>
    have hlevel := hev.trans (direct_mono (show n ≤ n + 4 * rounds by omega))
    exact Direct.apply_truncates (turn_below_direct hlevel ih) (.inr ⟨trivial, by omega⟩) head v

theorem binding_below_direct (hev : ev.Below (direct (n + 1))) :
    (binding ev).Below (direct (n + 1)) := by
  intro e f
  unfold binding
  split
  · exact Eval.Truncates.freshId.bind fun _ => .pure _
  · exact hev e f

theorem start_below_direct (hev : ev.Below (direct n)) (hbudget : budget ≤ n) :
    (start ev budget).Below (direct (n + 4 * budget + 2)) := by
  intro e f
  unfold start
  split
  · refine next_below_direct (hev.trans (direct_mono (by omega))) fun head v => ?_
    exact (call_below_direct hev hbudget budget head v).trans (apply_mono (Nat.le_succ _) head v)
  · exact hev.trans (direct_mono (by omega)) e f

/-! ### From levels to rounds -/

/-- Where there is no level left, `direct` is cut off at once. -/
theorem direct_below_of_form {x : Eval Datum} (hx : x.Below x)
    (h : ∀ k, n = k + 1 → (Direct.form (direct k) (direct k) (direct k) k e f).Below x) :
    (direct n e f).Below x := by
  cases n with
  | zero => exact .throw_left trivial hx
  | succ k => exact h k rfl

theorem direct_below_next (hev : (direct n).Below ev)
    (hcall : ∀ head v, (Direct.apply (direct n) n head v).Below (call' head v)) :
    (direct (n + 1) (.apply (.name g) e) f).Below (next ev call' g e f) := by
  have hread : (direct n (.name g) f).Below (Direct.read f g) :=
    direct_below_of_form (Direct.read_truncates f g) fun _ _ => Direct.read_truncates f g
  exact hread.bind fun head => (hev e f).bind fun v => hcall head v

section LevelsToRounds

variable (hev : ∀ j ≤ n, (direct j).Below ev) (hbudget : n ≤ budget)
include hev

theorem self_of_direct_below : ev.Below ev := fun e f => (hev 0 (Nat.zero_le n) e f).right

include hbudget

/-- As many rounds as there are levels are enough. -/
theorem direct_below_turn {j rounds : Nat} (hj : j ≤ n) (hrounds : j ≤ rounds) :
    (direct j).Below (turn ev (call ev budget rounds)) := by
  have hself := self_of_direct_below hev
  -- A round spends three levels: the branch, the sequence in it and the call at its end.
  induction j using Nat.strongRecOn generalizing rounds with
  | ind j ih =>
    have hcall := call_self hself budget rounds
    have hagain {j₁ : Nat} (hlt : j₁ + 1 < j) (g : String) (update : Expr) (f : FrameId) :
        (direct j₁ (.apply (.name g) update) f).Below
          (next ev (call ev budget rounds) g update f) := by
      refine direct_below_of_form (next_self hself hcall) fun k hk => ?_
      obtain ⟨r, rfl⟩ : ∃ r, rounds = r + 1 := ⟨rounds - 1, by omega⟩
      refine direct_below_next (hev k (by omega)) fun head v => ?_
      have hturn := ih k (by omega) (by omega) (show k ≤ r by omega)
      exact Direct.apply_truncates hturn (.inr ⟨trivial, by omega⟩) head v
    intro e f
    have hturn := turn_self hself hcall e f
    unfold turn at hturn ⊢
    split
    · refine direct_below_of_form hturn fun k hk => (hev k (by omega) _ f).bind fun t => ?_
      split
      · refine direct_below_of_form ((hself _ f).bind fun _ => next_self hself hcall)
          fun k₁ hk₁ => ?_
        exact (hev k₁ (by omega) _ f).bind fun _ => hagain (by omega) _ _ f
      · exact direct_below_of_form (.pure _) fun _ _ => .pure _
    · exact hev j hj e f

theorem direct_below_start : (direct n).Below (start ev budget) := by
  have hself := self_of_direct_below hev
  intro e f
  unfold start
  split
  · refine direct_below_of_form (next_self hself (call_self hself budget budget)) fun k hk => ?_
    obtain ⟨r, rfl⟩ : ∃ r, budget = r + 1 := ⟨budget - 1, by omega⟩
    refine direct_below_next (hev k (by omega)) fun head v => ?_
    have hturn := direct_below_turn hev hbudget (show k ≤ n by omega) (show k ≤ r by omega)
    exact Direct.apply_truncates hturn (.inr ⟨trivial, by omega⟩) head v
  · exact hev n le_rfl e f

end LevelsToRounds

theorem direct_below_binding (hev : (direct n).Below ev) : (direct n).Below (binding ev) := by
  intro e f
  unfold binding
  split
  · exact direct_below_of_form (Eval.Truncates.freshId.bind fun _ => .pure _)
      fun _ _ => Eval.Truncates.freshId.bind fun _ => .pure _
  · exact hev e f

end Paced

/-! ### The two directions -/

theorem paced_below_direct (used : List String) (budget : Nat) :
    ∃ n, budget ≤ n ∧ (paced used budget).Below (direct n) := by
  induction budget with
  | zero => exact ⟨0, le_rfl, fun _ _ => .throw _⟩
  | succ budget ih =>
    obtain ⟨n, hbudget, hev⟩ := ih
    have hlevel : (paced used budget).Below (direct (n + 4 * budget + 2)) :=
      hev.trans (direct_mono (by omega))
    refine ⟨n + 4 * budget + 3, by omega, fun e f => ?_⟩
    rw [paced]
    split
    · exact Direct.form_truncates (Paced.binding_below_direct hlevel)
        (Paced.start_below_direct hev hbudget) hlevel (.inr ⟨trivial, by omega⟩) e f
    · exact Direct.form_truncates hlevel hlevel hlevel (.inr ⟨trivial, by omega⟩) e f

theorem paced_self (used : List String) (budget : Nat) :
    (paced used budget).Below (paced used budget) := by
  induction budget with
  | zero => exact fun _ _ => .throw _
  | succ budget ih =>
    intro e f
    rw [paced]
    split
    · exact Direct.form_truncates (Paced.binding_self ih) (Paced.start_self ih budget) ih (.inl rfl)
        e f
    · exact Direct.form_truncates ih ih ih (.inl rfl) e f

theorem direct_below_paced (used : List String) {n budget : Nat} (h : n ≤ budget) :
    (direct n).Below (paced used budget) := by
  induction n generalizing budget with
  | zero => exact fun e f => .throw_left trivial (paced_self used budget e f)
  | succ n ih =>
    obtain ⟨budget, rfl⟩ : ∃ b, budget = b + 1 := ⟨budget - 1, by omega⟩
    have hbudget : n ≤ budget := by omega
    have hev : ∀ j ≤ n, (direct j).Below (paced used budget) :=
      fun j hj => (direct_mono hj).trans (ih hbudget)
    have hb : Stop.Within Stop.CutOff n budget := .inr ⟨trivial, hbudget⟩
    intro e f
    rw [paced]
    split
    · exact Direct.form_truncates (Paced.direct_below_binding (ih hbudget))
        (Paced.direct_below_start hev hbudget) (ih hbudget) hb e f
    · exact Direct.form_truncates (ih hbudget) (ih hbudget) (ih hbudget) hb e f

end MiniLisp
