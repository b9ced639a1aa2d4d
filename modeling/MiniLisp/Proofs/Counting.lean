import Mathlib
import MiniLisp.Proofs.ConstantStack
import MiniLisp.Proofs.ExactArithmetic
import MiniLisp.Proofs.Projection
import MiniLisp.Proofs.Sessions

/-!
# Loops that count

A loop from `a` in steps of `s` that goes on as long as its variable is below `n` evaluates its body
once for each number of this range, in order, and for no other. Whatever the body does, it is
evaluated in a frame of its round, and it can change the variable there only by a definition of its
own: procedures that it calls and loops inside it have other frames.

* `Machine.Binds`, `Point.Guards`, `Point.Visits.guards`: a binding that an evaluation keeps at
  every point that it visits.
* `Counting.IsRange`, `Counting.Spans`: the range, and its number of steps.
* `Counting.Counts`: the rounds of the loop, one for each value until one fails.
* `Counting.exec_call`, `Counting.exec_evaluate`: these are the rounds that evaluation makes.
* `Counting.Round.Proper`, `Counting.Counts.proper`: what is so of each round.
* `Counting.Ending`, `Counting.Counts.ending`: how the loop ends.
* `counting_loop_visits_range`: the loop as a whole.
-/

namespace MiniLisp

/-! ## Bindings that an evaluation keeps -/

namespace Machine

/-- A frame binds a name to a value. -/
def Binds (m : Machine) (g : FrameId) (x : String) (v : Datum) : Prop :=
  g < m.heap.size ∧ m.heap.boundIn? x g = some v

variable {f g : FrameId} {x : String} {v : Datum} {xs : List String} {m m' : Machine}

theorem Binds.keeps (h : m.Binds g x v) (hkeeps : m.Keeps m') : m'.Binds g x v :=
  ⟨Nat.lt_of_lt_of_le h.1 hkeeps.size, (hkeeps.boundIn? h.1 x).trans h.2⟩

/-- A binding is kept by what affects other names, or other frames. -/
theorem Binds.affects (h : m.Binds g x v) (haffects : m.Affects f xs m')
    (hx : f = g → x ∉ xs) : m'.Binds g x v := by
  refine ⟨Nat.lt_of_lt_of_le h.1 haffects.size, ?_⟩
  by_cases hfg : f = g
  · subst hfg
    exact (haffects.bound h.1 x (hx rfl)).trans h.2
  · rw [Heap.boundIn?, haffects.others g h.1 (Ne.symm hfg)]
    exact h.2

theorem Binds.define_of_ne (h : m.Binds g x v) (hfg : f ≠ g) (y : String) (w : Datum) :
    (m.define f y w).Binds g x v :=
  h.affects (m.affects_define f (List.mem_singleton_self y) w) fun heq => absurd heq hfg

theorem binds_bindFrame (m : Machine) (outer : FrameId) (x : String) (v : Datum) :
    (m.bindFrame outer x v).Binds m.heap.size x v := by
  refine ⟨?_, (Heap.boundIn?_alloc_size ..).trans (Bindings.get?_insert_self x v [])⟩
  simp [bindFrame]

theorem keeps_takeId (m : Machine) : m.Keeps m.takeId := ⟨le_rfl, Nat.le_succ _, fun _ _ => rfl⟩

end Machine

namespace Point

/-- A frame binds a name to a value, and if the evaluation that starts here is in this frame, it
    does not define the name. -/
def Guards (p : Point) (g : FrameId) (x : String) (v : Datum) : Prop :=
  p.machine.Binds g x v ∧ (p.frame = g → x ∉ p.code.targets)

variable {p q : Point} {g : FrameId} {x : String} {v : Datum}

theorem binds_of_direct {b : Nat} {e : Expr} {f : FrameId} {m m' : Machine} {r : Outcome Datum}
    (h : (direct b e f).exec m = (r, m')) (hm : m.Binds g x v) (hx : f = g → x ∉ e.targets) :
    m'.Binds g x v :=
  hm.affects ((Evaluation.Sound.direct b).confined.affects h) hx

/-- The parts of an expression define no other names in its frame, and procedures are called in
    frames of their own. -/
theorem Enters.guards (h : p.Enters q) (hp : p.Guards g x v) : q.Guards g x v := by
  induction h with
  | define => exact ⟨hp.1, fun hf hmem => hp.2 hf (List.mem_cons_of_mem _ hmem)⟩
  | binding =>
    exact ⟨hp.1.keeps (Machine.keeps_bindFrame ..), fun hf => absurd hf hp.1.1.ne'⟩
  | body hbound _ =>
    have hne := hp.1.1.ne'
    have hm := binds_of_direct hbound (hp.1.keeps (Machine.keeps_bindFrame ..)) (absurd · hne)
    exact ⟨hm.define_of_ne hne _ _, fun hf => absurd hf hne⟩
  | left | callee => exact ⟨hp.1, fun hf hmem => hp.2 hf (List.mem_append_left _ hmem)⟩
  | right hpart | arg hpart =>
    refine ⟨binds_of_direct hpart hp.1 fun hf hmem => hp.2 hf ?_, fun hf hmem => hp.2 hf ?_⟩
    · exact List.mem_append_left _ hmem
    · exact List.mem_append_right _ hmem
  | test =>
    exact ⟨hp.1, fun hf hmem => hp.2 hf (List.mem_append_left _ (List.mem_append_left _ hmem))⟩
  | yes htest _ =>
    refine ⟨binds_of_direct htest hp.1 fun hf hmem => hp.2 hf ?_, fun hf hmem => hp.2 hf ?_⟩
    · exact List.mem_append_left _ (List.mem_append_left _ hmem)
    · exact List.mem_append_left _ (List.mem_append_right _ hmem)
  | no htest _ =>
    refine ⟨binds_of_direct htest hp.1 fun hf hmem => hp.2 hf ?_, fun hf hmem => hp.2 hf ?_⟩
    · exact List.mem_append_left _ (List.mem_append_left _ hmem)
    · exact List.mem_append_right _ hmem
  | first => exact ⟨hp.1, fun hf hmem => hp.2 hf (List.mem_append_left _ hmem)⟩
  | later hfirst _ ih =>
    refine ih ⟨binds_of_direct hfirst hp.1 fun hf hmem => hp.2 hf ?_, fun hf hmem => hp.2 hf ?_⟩
    · exact List.mem_append_left _ hmem
    · exact List.mem_append_right _ hmem
  | call hcallee harg =>
    have hm₁ := binds_of_direct hcallee hp.1 fun hf hmem => hp.2 hf (List.mem_append_left _ hmem)
    have hm₂ := binds_of_direct harg hm₁ fun hf hmem => hp.2 hf (List.mem_append_right _ hmem)
    exact ⟨hm₂.keeps (Machine.keeps_bindFrame ..), fun hf => absurd hf hm₂.1.ne'⟩

theorem Visits.guards (h : p.Visits q) (hp : p.Guards g x v) : q.Guards g x v := by
  induction h with
  | refl => exact hp
  | tail _ hstep ih => exact hstep.guards ih

end Point

/-! ## Targets and nodes of expansions -/

namespace Expr

/-- An expansion defines the names that the expression defines. -/
theorem Expands.targets_eq {used : List String} {frames : FrameId → Prop} {gs : List String}
    {e e' : Expr} (h : Expands used frames gs e e') : e'.targets = e.targets := by
  induction h with
  | numeral | text | truth | name | quote | letrec | lambda | beginNil | loop => rfl
  | define _ _ ih => simp only [targets, ih]
  | binary _ _ ih₁ ih₂ | apply _ _ ih₁ ih₂ => simp only [targets, ih₁, ih₂]
  | branch _ _ _ ih₁ ih₂ ih₃ => simp only [targets, ih₁, ih₂, ih₃]
  | beginCons _ _ ih₁ ih₂ =>
    simp only [targets] at ih₂
    simp only [targets, allTargets, ih₁, ih₂]

/-- No node of an expression that was expanded is refused. -/
theorem forall_nodes_of_ok {b : Nat} {names : FreshNames} {e e' : Expr}
    (h : ((e.expand b).exec names).1 = .ok e') : ∀ n ∈ e.nodes, n.offends = false := by
  obtain ⟨v, hv, hanswers⟩ := e.expand_judged
  refine hv.eq_none_iff.mp ?_
  obtain ⟨b', hb, hb'⟩ := hanswers.exists_ge b
  have hok := expand_ok_of_le (Prod.ext h rfl) hb
  cases v with
  | none => rfl
  | some f =>
    have hfails := hb' names
    rw [hok] at hfails
    cases hfails

end Expr

namespace Counting

/-! ## Ranges -/

/-- The numbers `k`, `k + s`, `k + 2 * s` and so on, as many as given. -/
def progression (s : Int) : Nat → Int → List Int
  | 0, _ => []
  | c + 1, k => k :: progression s c (k + s)

/-- So many steps lead from `k` to the first number that is not below `n`. -/
def Spans (s n : Int) (c : Nat) (k : Int) : Prop := n ≤ k + c * s ∧ ∀ j < c, k + j * s < n

/-- All numbers below `n` that are reached from `a` in steps of `s`, in increasing order. -/
structure IsRange (a n s : Int) (ks : List Int) : Prop where
  increasing : ks.Pairwise (· < ·)
  mem : ∀ k, k ∈ ks ↔ k < n ∧ ∃ j : Nat, k = a + j * s

variable {a n s k : Int} {c : Nat}

theorem exists_spans (hs : 0 < s) (a n : Int) : ∃ c, Spans s n c a := by
  classical
  have hexists : ∃ c : Nat, n ≤ a + c * s := by
    refine ⟨(n - a).toNat, ?_⟩
    have hle : n - a ≤ (n - a).toNat := Int.self_le_toNat _
    nlinarith
  refine ⟨Nat.find hexists, Nat.find_spec hexists, fun j hj => ?_⟩
  exact not_le.mp (Nat.find_min hexists hj)

theorem Spans.le (h : Spans s n 0 k) : n ≤ k := by
  have hle := h.1
  omega

theorem Spans.lt (h : Spans s n (c + 1) k) : k < n := by
  have hlt := h.2 0 (Nat.succ_pos c)
  omega

/-- A step more from `k` is as many steps from the next number. -/
theorem add_step (k s : Int) (j : Nat) : k + s + j * s = k + (j + 1 : Nat) * s := by
  push_cast
  ring

theorem Spans.next (h : Spans s n (c + 1) k) : Spans s n c (k + s) := by
  refine ⟨?_, fun j hj => ?_⟩
  · rw [add_step]
    exact h.1
  · rw [add_step]
    exact h.2 (j + 1) (Nat.succ_lt_succ hj)

theorem mem_progression {x : Int} :
    x ∈ progression s c k ↔ ∃ j : Nat, j < c ∧ x = k + j * s := by
  induction c generalizing k with
  | zero => simp [progression]
  | succ c ih =>
    rw [progression, List.mem_cons, ih]
    constructor
    · rintro (rfl | ⟨j, hj, rfl⟩)
      · exact ⟨0, Nat.succ_pos c, by simp⟩
      · exact ⟨j + 1, Nat.succ_lt_succ hj, add_step k s j⟩
    · rintro ⟨j, hj, rfl⟩
      cases j with
      | zero => exact .inl (by simp)
      | succ j => exact .inr ⟨j, Nat.lt_of_succ_lt_succ hj, (add_step k s j).symm⟩

theorem progression_increasing (hs : 0 < s) (c : Nat) (k : Int) :
    (progression s c k).Pairwise (· < ·) := by
  induction c generalizing k with
  | zero => exact .nil
  | succ c ih =>
    refine .cons (fun x hx => ?_) (ih (k + s))
    obtain ⟨j, _, rfl⟩ := mem_progression.mp hx
    have hnonneg : 0 ≤ j * s := by positivity
    omega

@[simp] theorem length_progression (s : Int) (c : Nat) (k : Int) :
    (progression s c k).length = c := by
  induction c generalizing k with
  | zero => rfl
  | succ c ih => simp [progression, ih]

theorem Spans.isRange (h : Spans s n c a) (hs : 0 < s) : IsRange a n s (progression s c a) where
  increasing := progression_increasing hs c a
  mem k := by
    rw [mem_progression]
    constructor
    · rintro ⟨j, hj, rfl⟩
      exact ⟨h.2 j hj, j, rfl⟩
    · rintro ⟨hlt, j, rfl⟩
      refine ⟨j, ?_, rfl⟩
      by_contra hj
      have hle : (c : Int) * s ≤ j * s :=
        mul_le_mul_of_nonneg_right (Int.ofNat_le.mpr (Nat.le_of_not_lt hj)) hs.le
      have hpast := h.1
      omega

theorem IsRange.unique {ks ks' : List Int} (h : IsRange a n s ks) (h' : IsRange a n s ks') :
    ks = ks' :=
  h.increasing.eq_of_mem_iff h'.increasing fun k => (h.mem k).trans (h'.mem k).symm

/-! ## Rounds -/

/-- The test of a loop that counts up to `n`. -/
def test (i : String) (n : Int) : Expr := .binary "<" (.name i) (.numeral (.int n))

/-- The update of a loop that counts in steps of `s`. -/
def update (i : String) (s : Int) : Expr := .binary "+" (.name i) (.numeral (.int s))

/-- The loop that counts from `a` in steps of `s`, as long as its variable is below `n`. -/
def loop (i : String) (a n s : Int) (body : Expr) : Expr :=
  .loop i (.numeral (.int a)) (test i n) i (update i s) body

/-- A round of the loop: the value of the variable, the frame that it is bound in, the machine in
    which the body starts, and what comes of it. -/
structure Round where
  value : Int
  frame : FrameId
  start : Machine
  outcome : Outcome Datum
  finish : Machine

section Rounds

variable (ev : Evaluation) (i : String) (body : Expr) (l : FrameId)

/-- The rounds of a loop for the given values of its variable, from a machine on. For each value in
    turn a frame is made inside the frame `l`, and the body is evaluated in it. After the last one
    the variable has the value `past`, for which no body is evaluated, and a body that stops ends
    the loop. Test and update take an identity each. -/
inductive Counts (past : Int) :
    List Int → Machine → List Round → Outcome Datum → Machine → Prop
  | done {m : Machine} :
      Counts past [] m [] (.ok loopResult) (m.bindFrame l i (.int past)).takeId
  | round {k : Int} {ks : List Int} {m m₁ m' : Machine} {w : Datum} {trace : List Round}
      {r : Outcome Datum}
      (evaluated : (ev body m.heap.size).exec (m.bindFrame l i (.int k)).takeId = (.ok w, m₁))
      (rest : Counts past ks m₁.takeId trace r m') :
      Counts past (k :: ks) m
        (⟨k, m.heap.size, (m.bindFrame l i (.int k)).takeId, .ok w, m₁⟩ :: trace) r m'
  | failed {k : Int} {ks : List Int} {m m' : Machine} {s : Stop}
      (evaluated : (ev body m.heap.size).exec (m.bindFrame l i (.int k)).takeId =
        (.error s, m')) :
      Counts past (k :: ks) m
        [⟨k, m.heap.size, (m.bindFrame l i (.int k)).takeId, .error s, m'⟩] (.error s) m'

end Rounds

/-! ## The parts of a round -/

variable {rounds b : Nat} {g i op : String} {f l : FrameId} {m : Machine} {u : Datum} {body : Expr}

/-- An operator between the variable and a number, in a frame that binds the variable. -/
theorem exec_binary (hi : m.heap.boundIn? i f = some (.int k))
    (hop : (Value.int k : Datum).operate (b + 1) m.nextId op (.int n) = .ok u) :
    ((step rounds (b + 2)).value (.binary op (.name i) (.numeral (.int n))) f).exec m =
      (.ok u, m.takeId) := by
  have hread : (Direct.read f i).exec m = (.ok (.int k), m) := by
    rw [Direct.exec_read, Heap.lookup?_of_boundIn? hi]
  have hnumeral : (step rounds (b + 1)).value (.numeral (.int n)) f = pure (.int n) := value_succ ..
  rw [value_succ, Direct.form, value_name, hnumeral, Eval.exec_bind_ok hread, pure_bind,
    Eval.exec_bind_ok (Eval.exec_freshId m), hop, Eval.exec_ofOutcome]

theorem exec_test (hi : m.heap.boundIn? i f = some (.int k)) :
    ((step rounds (b + 2)).value (test i n) f).exec m =
      (.ok (.bool (decide (k < n))), m.takeId) := by
  refine exec_binary hi ?_
  have hless := (Exact.int k).operate_less (.int n) (b + 1) m.nextId
  simpa only [Exact.value, Exact.rational, Int.cast_lt] using hless

theorem exec_update (hi : m.heap.boundIn? i f = some (.int k)) :
    ((step rounds (b + 2)).value (update i s) f).exec m = (.ok (.int (k + s)), m.takeId) :=
  exec_binary hi rfl

/-- The body of a round affects the frame of this round only. -/
theorem affects_of_evaluated {ev : Evaluation} (hev : ev.Confined) {v : Datum}
    {r : Outcome Datum} {m₁ : Machine}
    (h : (ev body m.heap.size).exec (m.bindFrame l i v).takeId = (r, m₁)) :
    (m.bindFrame l i v).Affects m.heap.size body.targets m₁ :=
  (Machine.keeps_takeId _).affects.trans (hev.affects h)

theorem keeps_of_evaluated {ev : Evaluation} (hev : ev.Confined) {v : Datum}
    {r : Outcome Datum} {m₁ : Machine}
    (h : (ev body m.heap.size).exec (m.bindFrame l i v).takeId = (r, m₁)) : m.Keeps m₁ :=
  (Unrolled.keeps_of_affects (affects_of_evaluated hev h)).1

/-! ## All rounds -/

/-- All rounds are made by the caller of the first one. -/
theorem exec_call {calls : Nat} {id : ObjectId} (hspans : Spans s n c k) (hcalls : c < calls)
    (hgi : g ≠ i) (hg : g ∉ body.targets) (hi : i ∉ body.targets) (hl : l < m.heap.size)
    (hp : m.heap.boundIn? g l =
      some (.closure id i (Expr.loopBody g (test i n) (update i s) body) l)) :
    ∃ trace r m',
      ((step rounds (b + 5)).call calls (Expr.loopBody g (test i n) (update i s) body)
        m.heap.size).exec (m.bindFrame l i (.int k)) = (r, m') ∧
      Counts (step rounds (b + 3)).value i body l (k + c * s) (progression s c k) m trace r m' := by
  induction c generalizing k m calls with
  | zero =>
    obtain ⟨calls, rfl⟩ := Nat.exists_eq_add_one_of_ne_zero (Nat.ne_zero_of_lt hcalls)
    have htest : ((step rounds (b + 4)).value (test i n) m.heap.size).exec
        (m.bindFrame l i (.int k)) = (.ok (.bool false), (m.bindFrame l i (.int k)).takeId) := by
      rw [exec_test (m.binds_bindFrame l i (.int k)).2, decide_eq_false (not_lt.mpr hspans.le)]
    refine ⟨[], .ok loopResult, (m.bindFrame l i (.int k)).takeId, ?_, ?_⟩
    · rw [call_loopBody, Eval.exec_bind_ok htest]
      rfl
    · rw [Nat.cast_zero, zero_mul, add_zero]
      exact .done
  | succ c ih =>
    obtain ⟨calls, rfl⟩ := Nat.exists_eq_add_one_of_ne_zero (Nat.ne_zero_of_lt hcalls)
    have htest : ((step rounds (b + 4)).value (test i n) m.heap.size).exec
        (m.bindFrame l i (.int k)) = (.ok (.bool true), (m.bindFrame l i (.int k)).takeId) := by
      rw [exec_test (m.binds_bindFrame l i (.int k)).2, decide_eq_true hspans.lt]
    rw [call_loopBody, Eval.exec_bind_ok htest]
    obtain ⟨r, m₁, hbody⟩ : ∃ r m₁, ((step rounds (b + 3)).value body m.heap.size).exec
        (m.bindFrame l i (.int k)).takeId = (r, m₁) := ⟨_, _, rfl⟩
    cases r with
    | error stop => exact ⟨_, _, _, Eval.exec_bind_error hbody _, .failed hbody⟩
    | ok w =>
      -- the round neither binds the procedure's name nor changes the variable
      have haffects := affects_of_evaluated (step_value_confined _ _) hbody
      have hprocedure := haffects.lookup?_procedure hgi hg hl hp
      have hvariable := (m.binds_bindFrame l i (.int k)).affects haffects fun _ => hi
      have hkeeps := keeps_of_evaluated (step_value_confined _ _) hbody
      obtain ⟨trace, r, m', hrest, hcounts⟩ := ih (m := m₁.takeId) hspans.next
        (Nat.lt_of_succ_lt_succ hcalls) (Nat.lt_of_lt_of_le hl hkeeps.size)
        ((hkeeps.boundIn? hl g).trans hp)
      rw [add_step] at hcounts
      refine ⟨_, r, m', ?_, .round hbody hcounts⟩
      rw [← hrest]
      refine (Eval.exec_bind_ok hbody _).trans ?_
      exact Unrolled.exec_callWith hprocedure (exec_update hvariable.2)

/-! ## What is so of each round -/

/-- A round of a loop whose own frame is `l` and that leaves the machine `m'`: its body is evaluated
    in a new frame that binds only the variable, inside the frame of the loop. The variable has its
    value at every point that an evaluation of the body by plain recursion visits, when the body
    ends, and when the loop ends. -/
structure Round.Proper (ev : Evaluation) (i : String) (body : Expr) (l : FrameId) (m' : Machine)
    (t : Round) : Prop where
  evaluated : (ev body t.frame).exec t.start = (t.outcome, t.finish)
  newest : l < t.frame ∧ t.start.heap.size = t.frame + 1
  frame : t.start.heap.frame? t.frame = some ⟨[(i, .int t.value)], some l⟩
  guarded : ∀ b q, Point.Visits ⟨b, body, t.frame, t.start, []⟩ q →
    q.machine.Binds t.frame i (.int t.value)
  kept : t.finish.Binds t.frame i (.int t.value)
  left : m'.Binds t.frame i (.int t.value)

/-- How a loop ends over the given values: after a round for each of them, or with the error of the
    first round that has one. -/
def Ending (ks : List Int) (trace : List Round) (r : Outcome Datum) : Prop :=
  (trace.map Round.value = ks ∧ (∀ t ∈ trace, ∃ w, t.outcome = .ok w) ∧ r = .ok loopResult) ∨
    ∃ (front : List Round) (last : Round) (stop : Stop), trace = front ++ [last] ∧
      trace.map Round.value <+: ks ∧ (∀ t ∈ front, ∃ w, t.outcome = .ok w) ∧
      last.outcome = .error stop ∧ r = .error stop

section Counts

variable {ev : Evaluation} {past : Int} {ks : List Int} {trace : List Round} {r : Outcome Datum}
  {m₁ m' : Machine}

theorem Counts.keeps (h : Counts ev i body l past ks m trace r m') (hev : ev.Confined) :
    m.Keeps m' := by
  induction h with
  | done => exact (Machine.keeps_bindFrame ..).trans (Machine.keeps_takeId _)
  | round evaluated _ ih =>
    exact (keeps_of_evaluated hev evaluated).trans ((Machine.keeps_takeId _).trans ih)
  | failed evaluated => exact keeps_of_evaluated hev evaluated

theorem proper_of_evaluated (hev : ev.Confined) (hi : i ∉ body.targets) (hl : l < m.heap.size)
    (h : (ev body m.heap.size).exec (m.bindFrame l i (.int k)).takeId = (r, m₁))
    (hleft : m₁.Keeps m') :
    Round.Proper ev i body l m' ⟨k, m.heap.size, (m.bindFrame l i (.int k)).takeId, r, m₁⟩ := by
  have hbinds := m.binds_bindFrame l i (.int k)
  have hkept := hbinds.affects (affects_of_evaluated hev h) fun _ => hi
  refine ⟨h, ⟨hl, Heap.size_alloc ..⟩, Heap.frame?_alloc_size .., fun b q hq => ?_, hkept,
    hkept.keeps hleft⟩
  exact (hq.guards ⟨hbinds, fun _ => hi⟩).1

theorem Counts.proper (h : Counts ev i body l past ks m trace r m') (hev : ev.Confined)
    (hi : i ∉ body.targets) (hl : l < m.heap.size) : ∀ t ∈ trace, t.Proper ev i body l m' := by
  induction h with
  | done => exact List.forall_mem_nil _
  | round evaluated rest ih =>
    have hkeeps := keeps_of_evaluated hev evaluated
    have hleft := (Machine.keeps_takeId _).trans (rest.keeps hev)
    refine List.forall_mem_cons.mpr ⟨proper_of_evaluated hev hi hl evaluated hleft, ?_⟩
    exact ih (Nat.lt_of_lt_of_le hl hkeeps.size)
  | failed evaluated =>
    exact List.forall_mem_singleton.mpr (proper_of_evaluated hev hi hl evaluated (.refl _))

theorem Counts.le_frame (h : Counts ev i body l past ks m trace r m') (hev : ev.Confined) :
    ∀ t ∈ trace, m.heap.size ≤ t.frame := by
  induction h with
  | done => exact List.forall_mem_nil _
  | round evaluated _ ih =>
    have hkeeps := keeps_of_evaluated hev evaluated
    exact List.forall_mem_cons.mpr ⟨le_rfl, fun t ht => hkeeps.size.trans (ih t ht)⟩
  | failed => exact List.forall_mem_singleton.mpr le_rfl

/-- Each round has a frame of its own. -/
theorem Counts.frames_increasing (h : Counts ev i body l past ks m trace r m')
    (hev : ev.Confined) : trace.Pairwise fun t t' => t.frame < t'.frame := by
  induction h with
  | done => exact .nil
  | round evaluated rest ih =>
    have hsize := (Unrolled.keeps_of_affects (affects_of_evaluated hev evaluated)).2.1
    exact .cons (fun t ht => Nat.lt_of_lt_of_le hsize (rest.le_frame hev t ht)) ih
  | failed => exact List.pairwise_singleton ..

theorem Counts.ending (h : Counts ev i body l past ks m trace r m') : Ending ks trace r := by
  induction h with
  | done => exact .inl ⟨rfl, List.forall_mem_nil _, rfl⟩
  | @round k ks m m₁ m' w trace r _ _ ih =>
    rcases ih with ⟨rfl, hok, rfl⟩ | ⟨front, last, stop, rfl, hvalues, hok, hlast, rfl⟩
    · exact .inl ⟨rfl, List.forall_mem_cons.mpr ⟨⟨w, rfl⟩, hok⟩, rfl⟩
    · refine .inr ⟨_ :: front, last, stop, rfl, ?_, List.forall_mem_cons.mpr ⟨⟨w, rfl⟩, hok⟩, hlast,
        rfl⟩
      exact List.cons_prefix_cons.mpr ⟨rfl, hvalues⟩
  | @failed k ks =>
    exact .inr ⟨[], _, _, rfl, List.cons_prefix_cons.mpr ⟨rfl, List.nil_prefix⟩,
      List.forall_mem_nil _, rfl, rfl⟩

end Counts

/-! ## The expansion of the loop -/

/-- The expander gives the loop a name and expands its body. -/
theorem expandLoops_body {limit : Nat} {names : FreshNames} {start' test' update' body' : Expr}
    (h : (((loop i a n s body).expand limit).exec names).1 =
      .ok (Expr.ofLoop g i start' test' update' body')) :
    ∃ limit' names', ((body.expandLoops limit').exec names').1 = .ok body' := by
  obtain ⟨_, names₁, _, h⟩ := Naming.exec_bind_ok_iff.mp (Prod.ext h rfl)
  cases limit with
  | zero => cases h
  | succ limit =>
    obtain ⟨_, _, _, _, names₂, _, _, _, _, _, hbody, _, heq⟩ := Expr.expandLoops_loop_inv h
    cases heq
    exact ⟨limit, names₂, by rw [hbody]⟩

/-- The test and the update have no loops in them. -/
theorem eq_of_expands {used gs : List String} {frames : FrameId → Prop} {e' : Expr}
    (h : Expr.Expands used frames gs (.binary op (.name i) (.numeral (.int n))) e') :
    e' = .binary op (.name i) (.numeral (.int n)) := by
  cases h with
  | binary hleft hright =>
    cases hleft
    cases hright
    rfl

theorem expand_inv {limit : Nat} {names : FreshNames} {e' : Expr}
    (h : (((loop i a n s body).expand limit).exec names).1 = .ok e') :
    ∃ g body', e' = Expr.ofLoop g i (.numeral (.int a)) (test i n) (update i s) body' ∧
      (∃ limit' names', ((body.expandLoops limit').exec names').1 = .ok body') ∧
      g ≠ i ∧ g ∉ body'.targets ∧ body'.targets = body.targets := by
  obtain ⟨gs, _, hexpands⟩ := Expr.expand_expands_of_ok h
  cases hexpands with
  | @loop _ _ _ _ g _ _ _ _ _ _ _ _ body' use fresh hupdate htest hbody hstart =>
    obtain ⟨limit', names', hbody'⟩ := expandLoops_body h
    cases hstart
    obtain rfl := eq_of_expands hupdate
    obtain rfl := eq_of_expands htest
    exact ⟨g, body', rfl, ⟨limit', names', hbody'⟩, fun heq => fresh (heq ▸ use),
      hbody.notMem_targets fresh, hbody.targets_eq⟩

theorem eventually_expands {limit : Nat} {names : FreshNames} {e : Expr}
    (h : ((body.expand limit).exec names).1 = .ok e) (i : String) (a n s : Int) :
    Eventually fun limit => ∀ names, ∃ e',
      (((loop i a n s body).expand limit).exec names).1 = .ok e' := by
  obtain ⟨v, hv, hanswers⟩ := (loop i a n s body).expand_judged
  have hnodes : ∀ e ∈ (loop i a n s body).nodes, e.offends = false := by
    intro e he
    simp only [loop, test, update, Expr.nodes, List.mem_cons, List.mem_append, List.not_mem_nil,
      or_false] at he
    rcases he with rfl | (rfl | rfl | rfl) | (rfl | rfl | rfl) | hmem | rfl
    case inr.inr.inr.inl => exact Expr.forall_nodes_of_ok h e hmem
    all_goals simp [Expr.offends]
  obtain rfl := hv.eq_none_iff.mpr hnodes
  exact hanswers

/-- The whole loop, from the frame that is made for it. -/
theorem exec_evaluate (hspans : Spans s n c a) (hrounds : c < rounds) (hgi : g ≠ i)
    (hg : g ∉ body.targets) (hi : i ∉ body.targets) (f : FrameId) (m : Machine) (b : Nat) :
    ∃ trace r m',
      (evaluate rounds (b + 5) (Expr.ofLoop g i (.numeral (.int a)) (test i n) (update i s) body)
        f).exec m = (r, m') ∧
      Counts (step rounds (b + 3)).value i body m.heap.size (a + c * s) (progression s c a)
        ((Unrolled.makeFrame g i (test i n) (update i s) body f).exec m).2 trace r m' := by
  obtain ⟨_, hsize, _, hbound⟩ :=
    Unrolled.makeFrame_spec g i (test i n) (update i s) body f m
  have hmade : (Unrolled.makeFrame g i (test i n) (update i s) body f).exec m =
      (.ok m.heap.size, ((Unrolled.makeFrame g i (test i n) (update i s) body f).exec m).2) := by
    rw [Unrolled.exec_makeFrame]
  have hstart : ∀ m', ((step rounds (b + 3)).value (.numeral (.int a)) m.heap.size).exec m' =
      (.ok (.int a), m') := by
    intro m'
    rw [value_succ]
    rfl
  obtain ⟨trace, r, m', hcall, hcounts⟩ :=
    exec_call (b := b) hspans hrounds hgi hg hi hsize hbound
  refine ⟨trace, r, m', ?_, hcounts⟩
  rw [← hcall]
  refine (congrArg (Eval.exec · m) (tail_ofLoop ..)).trans ?_
  rw [Eval.exec_bind_ok hmade]
  exact Unrolled.exec_callWith (Heap.lookup?_of_boundIn? hbound) (hstart _)

end Counting

/-- A counting loop visits exactly its range.

    Take a loop from `a` in steps of `s > 0` while its variable is below `n`, whose body can be
    expanded and has no definition of the variable outside procedures, `letrec` and loops. Then the
    loop can be expanded, and in every frame of every machine it makes a frame for its procedure and
    goes through the numbers of its range in order. For each it evaluates the body once, two levels
    further in and in a new frame inside the loop's that binds only the variable, and nothing that
    the body calls changes the variable there. After the last number the loop gives its result, at
    once where the range is empty, and it ends with the error of the first body that fails. All this
    takes five levels, and one call in a row more than there are numbers. -/
theorem counting_loop_visits_range {i : String} {a n s : Int} {body : Expr} (hs : 0 < s)
    (hbody : ∃ limit names e, ((body.expand limit).exec names).1 = .ok e)
    (hi : i ∉ body.targets) :
    (Eventually fun limit => ∀ names, ∃ e',
      (((Counting.loop i a n s body).expand limit).exec names).1 = .ok e') ∧
    ∃ ks, Counting.IsRange a n s ks ∧
      ∀ limit names e', (((Counting.loop i a n s body).expand limit).exec names).1 = .ok e' →
        ∃ g body', (∃ limit' names', ((body.expandLoops limit').exec names').1 = .ok body') ∧
          e' = Expr.ofLoop g i (.numeral (.int a)) (Counting.test i n) (Counting.update i s) body' ∧
          ∀ f m rounds budget, ks.length < rounds → 5 ≤ budget →
            ∃ trace r m', (evaluate rounds budget e' f).exec m = (r, m') ∧
              Counting.Counts (step rounds (budget - 2)).value i body' m.heap.size
                (a + ks.length * s) ks
                ((Unrolled.makeFrame g i (Counting.test i n) (Counting.update i s) body' f).exec
                  m).2 trace r m' ∧
              Counting.Ending ks trace r ∧ (n ≤ a → trace = [] ∧ r = .ok loopResult) ∧
              (trace.Pairwise fun t t' => t.frame < t'.frame) ∧
              (∀ t ∈ trace, t.Proper (step rounds (budget - 2)).value i body' m.heap.size m') ∧
              m'.heap.frame? m.heap.size = some ⟨[(g, .closure m.nextId i
                (Expr.loopBody g (Counting.test i n) (Counting.update i s) body') m.heap.size)],
                some f⟩ := by
  obtain ⟨_, _, _, hbody⟩ := hbody
  obtain ⟨c, hspans⟩ := Counting.exists_spans hs a n
  refine ⟨Counting.eventually_expands hbody i a n s, Counting.progression s c a,
    hspans.isRange hs, ?_⟩
  intro limit names e' h
  obtain ⟨g, body', rfl, hbody', hgi, hg, htargets⟩ := Counting.expand_inv h
  refine ⟨g, body', hbody', rfl, ?_⟩
  intro f m rounds budget hrounds hbudget
  rw [Counting.length_progression] at hrounds ⊢
  obtain ⟨b, rfl⟩ : ∃ b, budget = b + 5 := ⟨budget - 5, by omega⟩
  obtain ⟨trace, r, m', hexec, hcounts⟩ :=
    Counting.exec_evaluate hspans hrounds hgi hg (htargets ▸ hi) f m b
  have hev := step_value_confined rounds (b + 3)
  obtain ⟨_, hsize, _, _⟩ :=
    Unrolled.makeFrame_spec g i (Counting.test i n) (Counting.update i s) body' f m
  refine ⟨trace, r, m', hexec, hcounts, hcounts.ending, fun hempty => ?_,
    hcounts.frames_increasing hev, hcounts.proper hev (htargets ▸ hi) hsize, ?_⟩
  · cases c with
    | zero =>
      cases hcounts
      exact ⟨rfl, rfl⟩
    | succ c => exact absurd hspans.lt (not_lt.mpr hempty)
  · rw [(hcounts.keeps hev).frames _ hsize, Unrolled.exec_makeFrame]
    exact Heap.frame?_alloc_size ..

namespace Counting

/-- A loop over the same variable, which prints a line. -/
def inner : Expr := loop "i" 0 1 1 (.apply (.name "print") (.text "*"))

/-- What it is expanded to, under the given name. -/
def innerExpanded (g : String) : Expr :=
  .ofLoop g "i" (.numeral (.int 0)) (test "i" 1) (update "i" 1)
    (.apply (.name "print") (.text "*"))

/-- A loop over `-1`, `1` and `3` with this loop as its body, after it was expanded. -/
def outerExpanded : Expr :=
  .ofLoop "loop%1" "i" (.numeral (.int (-1))) (test "i" 4) (update "i" 2) (innerExpanded "loop%2")

theorem expand_inner : ((inner.expand 8).exec {}).1 = .ok (innerExpanded "loop%1") := by cbv

theorem expand_outer :
    (((loop "i" (-1) 4 2 inner).expand 8).exec {}).1 = .ok outerExpanded := by cbv

end Counting

/-- Three rounds of a loop whose body is a loop over the same variable. -/
theorem counting_loop_visits_range_nested :
    (0 : Int) < 2 ∧ (∃ limit names e, ((Counting.inner.expand limit).exec names).1 = .ok e) ∧
    "i" ∉ Counting.inner.targets ∧
    (((Counting.loop "i" (-1) 4 2 Counting.inner).expand 8).exec {}).1 =
      .ok Counting.outerExpanded ∧
    ∃ (trace : List Counting.Round) (m' : Machine),
      (evaluate 4 20 Counting.outerExpanded 0).exec ({} : Machine).withRoot =
        (.ok loopResult, m') ∧
      trace.map Counting.Round.value = [-1, 1, 3] ∧
      (∀ t ∈ trace, m'.Binds t.frame "i" (.int t.value)) ∧ m'.output = "*\n*\n*\n" := by
  have hinner : ∃ limit names e, ((Counting.inner.expand limit).exec names).1 = .ok e :=
    ⟨8, {}, _, Counting.expand_inner⟩
  have hi : "i" ∉ Counting.inner.targets := List.not_mem_nil
  have hspans : Counting.Spans 2 4 3 (-1) := ⟨by decide, by decide⟩
  obtain ⟨_, ks, hrange, hruns⟩ :=
    @counting_loop_visits_range "i" (-1) 4 2 Counting.inner (by decide) hinner hi
  obtain rfl := hrange.unique (hspans.isRange (by decide))
  obtain ⟨_, _, _, _, hrun⟩ := hruns 8 {} _ Counting.expand_outer
  obtain ⟨trace, r, m', hexec, _, hending, _, _, hproper, _⟩ :=
    hrun 0 ({} : Machine).withRoot 4 20 (by decide) (by decide)
  have hok : ((evaluate 4 20 Counting.outerExpanded 0).exec
      ({} : Machine).withRoot).1.isOk = true := by decide +kernel
  have houtput : ((evaluate 4 20 Counting.outerExpanded 0).exec
      ({} : Machine).withRoot).2.output = "*\n*\n*\n" := by decide +kernel
  rw [hexec] at hok houtput
  rcases hending with ⟨hvalues, _, rfl⟩ | ⟨_, _, _, _, _, _, _, rfl⟩
  · exact ⟨by decide, hinner, hi, Counting.expand_outer, trace, m', hexec, hvalues,
      fun t ht => (hproper t ht).left, houtput⟩
  · cases hok

end MiniLisp
