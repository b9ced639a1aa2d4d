import Mathlib
import MiniLisp.Proofs.FrameEffect
import MiniLisp.Proofs.References
import MiniLisp.Proofs.Truncation
import MiniLisp.Proofs.Unrolling

/-!
# Loops in constant stack

A round of an expanded loop ends with a call of the loop's procedure in tail position. The call
is handed back to whoever makes pending calls, so that the next round starts at the same level of
nesting as this one. However many rounds a loop goes through, it needs a fixed number of levels
more than the parts that are evaluated in them, and its frames are not nested in each other.

* `Unrolled.Iterates`, `Unrolled.Completes`: the rounds of a loop all of whose parts have values.
* `call_loopBody`, `value_ofLoop`, `tail_ofLoop`: a round and a loop, as levels of evaluation.
* `Unrolled.Iterates.exec_call`: all rounds are made by the caller of the first one.
* `Unrolled.Iterates.turn_outer`: where the frames of the rounds are.
* `loops_run_in_constant_stack`: the loop as a whole.
-/

namespace MiniLisp

/-! ## Targets of an expansion -/

/-- An expansion defines names of the expression only. -/
theorem Expr.Expands.targets_used {used : List String} {frames : FrameId → Prop}
    {gs : List String} {e e' : Expr} (h : Expands used frames gs e e') :
    ∀ x ∈ e'.targets, x ∈ used := by
  induction h with
  | numeral | text | truth | name | quote | letrec | lambda | beginNil | loop => exact nofun
  | define use _ ih => exact List.forall_mem_cons.mpr ⟨use, ih⟩
  | binary _ _ ih₁ ih₂ | apply _ _ ih₁ ih₂ | beginCons _ _ ih₁ ih₂ =>
    exact List.forall_mem_append.mpr ⟨ih₁, ih₂⟩
  | branch _ _ _ ih₁ ih₂ ih₃ =>
    exact List.forall_mem_append.mpr ⟨List.forall_mem_append.mpr ⟨ih₁, ih₂⟩, ih₃⟩

theorem Expr.Expands.notMem_targets {used : List String} {frames : FrameId → Prop}
    {gs : List String} {e e' : Expr} (h : Expands used frames gs e e') {g : String}
    (hg : g ∉ used) : g ∉ e'.targets := fun hmem => hg (h.targets_used g hmem)

/-! ## Rounds -/

namespace Unrolled

section Rounds

variable (ev : Evaluation) (i : String) (test update body : Expr)

/-- The rounds of a loop whose procedure is bound in the frame `l`, from the machine in which its
    variable has been given the value `v`. In each round test, body and update have values under
    `ev`, and in the last one the test fails. The list holds the frame of each round and the machine
    in which the round begins. -/
inductive Iterates (l : FrameId) : List (FrameId × Machine) → Datum → Machine → Machine → Prop
  | last {v t : Datum} {m m' : Machine}
      (tested : (ev test m.heap.size).exec (m.bindFrame l i v) = (.ok t, m'))
      (stop : t.isTrue = false) :
      Iterates l [(m.heap.size, m.bindFrame l i v)] v m m'
  | more {turns : List (FrameId × Machine)} {v t w v' : Datum} {m m₁ m₂ m₃ m' : Machine}
      (tested : (ev test m.heap.size).exec (m.bindFrame l i v) = (.ok t, m₁))
      (go : t.isTrue = true)
      (done : (ev body m.heap.size).exec m₁ = (.ok w, m₂))
      (updated : (ev update m.heap.size).exec m₂ = (.ok v', m₃))
      (rest : Iterates l turns v' m₃ m') :
      Iterates l ((m.heap.size, m.bindFrame l i v) :: turns) v m m'

/-- The loop is entered from the frame `f`: its own frame is made, the start expression has a value
    in it, and the rounds follow. -/
def Completes (g : String) (start : Expr) (f : FrameId) (m : Machine)
    (turns : List (FrameId × Machine)) (m' : Machine) : Prop :=
  ∃ v m₁, (ev start m.heap.size).exec ((makeFrame g i test update body f).exec m).2 = (.ok v, m₁) ∧
    Iterates ev i test update body m.heap.size turns v m₁ m'

end Rounds

/-- The procedure of a loop is called with the value of an expression. The value is found by `arg`,
    and the body of the procedure is evaluated by `call`. -/
def callWith (arg call : Evaluation) (budget : Nat) (g : String) (e : Expr) (f : FrameId) :
    Eval Datum := do
  let head ← Direct.read f g
  let v ← arg e f
  Direct.apply call budget head v

theorem exec_callWith {arg call : Evaluation} {budget : Nat} {g i : String} {e b : Expr}
    {f l : FrameId} {id : ObjectId} {m m' : Machine} {v : Datum}
    (hg : m.heap.lookup? f g = some (.closure id i b l)) (harg : (arg e f).exec m = (.ok v, m')) :
    (callWith arg call budget g e f).exec m = (call b m'.heap.size).exec (m'.bindFrame l i v) := by
  have hread : (Direct.read f g).exec m = (.ok (.closure id i b l), m) := by
    rw [Direct.exec_read, hg]
  rw [callWith, Eval.exec_bind_ok hread, Eval.exec_bind_ok harg, Direct.apply,
    Eval.exec_bind_ok (Eval.exec_bindFrame ..)]

end Unrolled

/-! ## Levels of evaluation -/

section Levels

variable (rounds b n k : Nat) (ev : Evaluator) {g i : String} {s t u c : Expr} {f : FrameId}

theorem value_succ (e : Expr) (f : FrameId) :
    (step rounds (b + 1)).value e f = Direct.form (step rounds b).value (step rounds b).value
      ((step rounds b).call (rounds + 1)) b e f :=
  Evaluator.form_value ..

theorem tail_succ (e : Expr) (f : FrameId) :
    (step rounds (b + 1) e f .tail >>= ev.resume k) =
      Direct.form (step rounds b).value (fun e f => step rounds b e f .tail >>= ev.resume k)
        (ev.call k) b e f :=
  Evaluator.form_resume ..

theorem value_name (x : String) : (step rounds (n + 1)).value (.name x) f = Direct.read f x :=
  value_succ ..

theorem value_lambda (x : String) (e : Expr) :
    (step rounds (n + 1)).value (.lambda x e) f =
      (do pure (.closure (← Eval.freshId) x e f)) :=
  value_succ ..

/-- The call of the loop's procedure in tail position is left to whoever makes pending calls. -/
theorem tail_apply (e : Expr) :
    (step rounds (n + 2) (.apply (.name g) e) f .tail >>= ev.resume k) =
      Unrolled.callWith (step rounds (n + 1)).value (ev.call k) (n + 1) g e f := by
  rw [tail_succ, Direct.form, value_name]
  rfl

/-- A round of the loop that is made as a pending call: its test and body are evaluated at levels
    below, and the next round is again a pending call. -/
theorem call_loopBody :
    (step rounds (n + 4)).call (k + 1) (Expr.loopBody g t u c) f = (do
      let v ← (step rounds (n + 3)).value t f
      if v.isTrue then
        let _ ← (step rounds (n + 2)).value c f
        Unrolled.callWith (step rounds (n + 1)).value ((step rounds (n + 4)).call k) (n + 1) g u f
      else
        pure loopResult) := by
  rw [Evaluator.call, tail_succ, Expr.loopBody, Direct.form]
  congr 1; funext v
  split
  · rw [tail_succ, Direct.form, Direct.sequence, Direct.sequence, tail_apply]
    exact List.cons_ne_nil _ _
  · rw [tail_succ, Direct.form]

/-- An expanded loop in tail position is left to whoever makes pending calls. -/
theorem tail_ofLoop :
    (step rounds (n + 3) (Expr.ofLoop g i s t u c) f .tail >>= ev.resume k) =
      Unrolled.makeFrame g i t u c f >>=
        Unrolled.callWith (step rounds (n + 1)).value (ev.call k) (n + 1) g s := by
  rw [tail_succ, Unrolled.form_ofLoop fun _ _ _ => value_lambda ..]
  congr 1; funext l
  exact tail_apply ..

/-- An expanded loop in inner position makes its own pending calls. -/
theorem value_ofLoop :
    (step rounds (n + 3)).value (Expr.ofLoop g i s t u c) f =
      Unrolled.makeFrame g i t u c f >>=
        Unrolled.callWith (step rounds (n + 1)).value ((step rounds (n + 1)).call (rounds + 1))
          (n + 1) g s := by
  rw [value_succ, Unrolled.form_ofLoop fun _ _ _ => value_lambda ..]
  congr 1; funext l
  rw [value_succ, Direct.form, value_name]
  rfl

end Levels

/-! ## All rounds -/

/-- What has a value under some bounds has the same value under larger ones. -/
theorem value_ok_of_le {rounds rounds' b b' : Nat} (hrounds : rounds ≤ rounds') (hb : b ≤ b')
    {e : Expr} {f : FrameId} {v : Datum} {m m' : Machine}
    (h : ((step rounds b).value e f).exec m = (.ok v, m')) :
    ((step rounds' b').value e f).exec m = (.ok v, m') := by
  have hb : Stop.Within (fun _ => True) b b' := .inr ⟨trivial, hb⟩
  have hrounds : Stop.WithinRounds (fun _ => True) rounds rounds' := .inr ⟨trivial, hrounds⟩
  rcases ((step_truncates hb hrounds).1 e f).agrees m with heq | ⟨⟨s, hs, _⟩, _⟩
  · exact heq.trans h
  · rw [h] at hs
    cases hs

/-- In the frame of a round the name of the loop's procedure is the one that the loop's frame
    binds, as long as the round has not defined it. -/
theorem Machine.Affects.lookup?_procedure {l : FrameId} {g i : String} {v p : Datum}
    {xs : List String} {m m' : Machine} (h : (m.bindFrame l i v).Affects m.heap.size xs m')
    (hi : g ≠ i) (hxs : g ∉ xs) (hl : l < m.heap.size) (hp : m.heap.boundIn? g l = some p) :
    m'.heap.lookup? m.heap.size g = some p := by
  have hsize : m.heap.size < (m.bindFrame l i v).heap.size := by simp [bindFrame]
  have houter : m'.heap.outer? m.heap.size = some l :=
    (h.outer hsize).trans (Heap.outer?_alloc_size ..)
  have hnone : m'.heap.boundIn? g m.heap.size = none := by
    rw [h.bound hsize g hxs, bindFrame, Heap.boundIn?_alloc_size]
    exact Bindings.get?_singleton_of_ne hi v
  have hbound : m'.heap.boundIn? g l = some p := by
    rw [Heap.boundIn?, h.others l (hl.trans hsize) hl.ne, ← Heap.boundIn?, bindFrame,
      Heap.boundIn?_alloc_of_lt hl, hp]
  exact Heap.lookup?_of_outer? houter hl hnone hbound

namespace Unrolled

variable {ev : Evaluation} {i g : String} {start test update body : Expr} {f l : FrameId}
  {turns : List (FrameId × Machine)} {v t w v' : Datum} {m m₁ m₂ m₃ m' : Machine}

/-- A round has a frame of its own, which is the only one that it can change. -/
theorem round_affects (hev : ev.Confined)
    (tested : (ev test m.heap.size).exec (m.bindFrame l i v) = (.ok t, m₁))
    (done : (ev body m.heap.size).exec m₁ = (.ok w, m₂))
    (updated : (ev update m.heap.size).exec m₂ = (.ok v', m₃)) :
    ∃ xs, (m.bindFrame l i v).Affects m.heap.size xs m₃ := by
  have h₁ := (hev.affects tested).mono fun x hx => List.mem_append_left body.targets hx
  have h₂ := (hev.affects done).mono fun x hx => List.mem_append_right test.targets hx
  have h₁₂ := (h₁.trans h₂).mono fun x hx => List.mem_append_left update.targets hx
  exact ⟨_, h₁₂.trans ((hev.affects updated).mono fun x hx => List.mem_append_right _ hx)⟩

/-- What happens in the frame of a round keeps the frames that there were, and the round's frame
    inside that of the loop. -/
theorem keeps_of_affects {xs : List String}
    (h : (m.bindFrame l i v).Affects m.heap.size xs m') :
    m.Keeps m' ∧ m.heap.size < m'.heap.size ∧ m'.heap.outer? m.heap.size = some l := by
  have hsize : m.heap.size < (m.bindFrame l i v).heap.size := by simp [Machine.bindFrame]
  refine ⟨h.keeps le_rfl (m.keeps_bindFrame l i v), Nat.lt_of_lt_of_le hsize h.size, ?_⟩
  exact (h.outer hsize).trans (Heap.outer?_alloc_size ..)

/-- All rounds are made by the caller of the first one, who needs three levels more than the parts
    of a round and makes one call for each round. -/
theorem Iterates.exec_call {rounds rounds' d n k : Nat} {id : ObjectId}
    (h : Iterates (step rounds d).value i test update body l turns v m m')
    (hrounds : rounds ≤ rounds') (hd : d ≤ n + 1) (hk : turns.length ≤ k) (hi : g ≠ i)
    (htest : g ∉ test.targets) (hbody : g ∉ body.targets) (hl : l < m.heap.size)
    (hp : m.heap.boundIn? g l = some (.closure id i (Expr.loopBody g test update body) l)) :
    ((step rounds' (n + 4)).call k (Expr.loopBody g test update body) m.heap.size).exec
      (m.bindFrame l i v) = (.ok loopResult, m') := by
  have hev := step_value_confined rounds d
  induction h generalizing k with
  | last tested stop =>
    obtain ⟨k, rfl⟩ := Nat.exists_eq_add_one_of_ne_zero (Nat.ne_zero_of_lt hk)
    have htested := value_ok_of_le hrounds (show d ≤ n + 3 by omega) tested
    rw [call_loopBody, Eval.exec_bind_ok htested, stop]
    rfl
  | more tested go done updated rest ih =>
    obtain ⟨k, rfl⟩ := Nat.exists_eq_add_one_of_ne_zero (Nat.ne_zero_of_lt hk)
    have htested := value_ok_of_le hrounds (show d ≤ n + 3 by omega) tested
    have hdone := value_ok_of_le hrounds (show d ≤ n + 2 by omega) done
    have hupdated := value_ok_of_le hrounds hd updated
    -- neither the test nor the body binds the name of the procedure in the frame of the round
    have h₁ := (hev.affects tested).mono fun x hx => List.mem_append_left body.targets hx
    have h₂ := (hev.affects done).mono fun x hx => List.mem_append_right test.targets hx
    have hlookup := (h₁.trans h₂).lookup?_procedure hi (List.not_mem_append htest hbody) hl hp
    rw [call_loopBody, Eval.exec_bind_ok htested, if_pos go, Eval.exec_bind_ok hdone,
      exec_callWith hlookup hupdated]
    obtain ⟨xs, hround⟩ := round_affects hev tested done updated
    obtain ⟨hkeeps, _, _⟩ := keeps_of_affects hround
    exact ih (Nat.le_of_succ_le_succ hk) (Nat.lt_of_lt_of_le hl hkeeps.size)
      ((hkeeps.boundIn? hl g).trans hp)

/-- The rounds keep all frames that there were. -/
theorem Iterates.keeps (h : Iterates ev i test update body l turns v m m') (hev : ev.Confined) :
    m.Keeps m' := by
  induction h with
  | last tested _ => exact (keeps_of_affects (hev.affects tested)).1
  | more tested _ done updated _ ih =>
    obtain ⟨xs, hround⟩ := round_affects hev tested done updated
    exact (keeps_of_affects hround).1.trans ih

/-- The frames of the rounds are made inside the frame of the loop, and stay there. -/
theorem Iterates.turn_outer (h : Iterates ev i test update body l turns v m m')
    (hev : ev.Confined) :
    ∀ turn ∈ turns, m.heap.size ≤ turn.1 ∧ m.Keeps turn.2 ∧
      turn.2.heap.outer? turn.1 = some l ∧ m'.heap.outer? turn.1 = some l := by
  induction h with
  | @last v _ m _ tested _ =>
    rw [List.forall_mem_singleton]
    obtain ⟨_, _, houter⟩ := keeps_of_affects (hev.affects tested)
    exact ⟨le_rfl, m.keeps_bindFrame l i v, Heap.outer?_alloc_size .., houter⟩
  | @more _ v _ _ _ m _ _ _ _ tested _ done updated rest ih =>
    obtain ⟨xs, hround⟩ := round_affects hev tested done updated
    obtain ⟨hkeeps, hsize, houter⟩ := keeps_of_affects hround
    refine List.forall_mem_cons.mpr ⟨?_, fun turn hturn => ?_⟩
    · have hend := ((rest.keeps hev).outer? hsize).trans houter
      exact ⟨le_rfl, m.keeps_bindFrame l i v, Heap.outer?_alloc_size .., hend⟩
    · obtain ⟨hle, hbegin, houters⟩ := ih turn hturn
      exact ⟨hkeeps.size.trans hle, hkeeps.trans hbegin, houters⟩

/-- The frame of a loop is made inside the one it is entered from, and binds the procedure. -/
theorem makeFrame_spec (g i : String) (test update body : Expr) (f : FrameId) (m : Machine) :
    let m₀ := ((makeFrame g i test update body f).exec m).2
    m.Keeps m₀ ∧ m.heap.size < m₀.heap.size ∧ m₀.heap.outer? m.heap.size = some f ∧
      m₀.heap.boundIn? g m.heap.size =
        some (.closure m.nextId i (Expr.loopBody g test update body) m.heap.size) := by
  rw [exec_makeFrame]
  refine ⟨⟨?_, Nat.le_succ _, fun g hg => Heap.frame?_alloc_of_lt hg _⟩, ?_, ?_, ?_⟩
  · simp [Machine.takeId]
  · simp [Machine.takeId]
  · exact Heap.outer?_alloc_size ..
  · refine (Heap.boundIn?_alloc_size ..).trans ?_
    exact Bindings.get?_insert_self g _ []

/-- A loop that completes does so for every caller who has enough levels, and who makes as many
    calls as there are rounds. -/
theorem Completes.exec_enter {rounds rounds' d b n k : Nat}
    (h : Completes (step rounds d).value i test update body g start f m turns m')
    (hrounds : rounds ≤ rounds') (hb : d ≤ b) (hd : d ≤ n + 1) (hk : turns.length ≤ k)
    (hi : g ≠ i) (hstart : g ∉ start.targets) (htest : g ∉ test.targets)
    (hbody : g ∉ body.targets) :
    (makeFrame g i test update body f >>=
      callWith (step rounds' b).value ((step rounds' (n + 4)).call k) b g start).exec m =
      (.ok loopResult, m') := by
  obtain ⟨v, m₁, started, hiterates⟩ := h
  obtain ⟨_, hsize, _, hbound⟩ := makeFrame_spec g i test update body f m
  have hmade : (makeFrame g i test update body f).exec m =
      (.ok m.heap.size, ((makeFrame g i test update body f).exec m).2) := by
    rw [exec_makeFrame]
  rw [Eval.exec_bind_ok hmade, exec_callWith (Heap.lookup?_of_boundIn? hbound)
    (value_ok_of_le hrounds hb started)]
  have haffects := (step_value_confined rounds d).affects started
  exact hiterates.exec_call hrounds hd hk hi htest hbody (Nat.lt_of_lt_of_le hsize haffects.size)
    ((haffects.bound hsize g hstart).trans hbound)

/-- In a machine that has kept the frames of another one, a frame inside a frame inside one of
    these has two more around it. -/
theorem depth_inside {n : Machine} {x : FrameId} (hclosed : m.heap.Closed (· < m.heap.size))
    (hf : f < m.heap.size) (hkeeps : m.Keeps n) (hl : n.heap.outer? m.heap.size = some f)
    (hx : m.heap.size < x) (hinside : n.heap.outer? x = some m.heap.size) :
    n.heap.depth x = m.heap.depth f + 2 := by
  have hchain : n.heap.Closed fun y => y < m.heap.size ∨ y = m.heap.size ∨ y = x := by
    rintro y o (hy | rfl | rfl) ho
    · rw [hkeeps.outer? hy] at ho
      exact (hclosed y o hy ho).imp id .inl
    · cases hl.symm.trans ho
      exact ⟨hf, .inl hf⟩
    · cases hinside.symm.trans ho
      exact ⟨hx, .inr (.inl rfl)⟩
  rw [hchain.depth_of_outer? (.inr (.inr rfl)) hinside,
    hchain.depth_of_outer? (.inr (.inl rfl)) hl, hclosed.depth_congr hkeeps.frames hf]

/-- The frame of each round stands inside that of the loop, and this one inside the frame that the
    loop is entered from: when the round begins, and still when the loop is left. -/
theorem Completes.depth_turn (h : Completes ev i test update body g start f m turns m')
    (hev : ev.Confined) (hclosed : m.heap.Closed (· < m.heap.size)) (hf : f < m.heap.size) :
    ∀ turn ∈ turns, turn.2.heap.depth turn.1 = m.heap.depth f + 2 ∧
      m'.heap.depth turn.1 = m.heap.depth f + 2 := by
  obtain ⟨v, m₁, started, hiterates⟩ := h
  obtain ⟨hmade, hsize, houter, _⟩ := makeFrame_spec g i test update body f m
  have haffects := hev.affects started
  have hkeeps₁ : m.Keeps m₁ := haffects.keeps le_rfl hmade
  have hsize₁ : m.heap.size < m₁.heap.size := Nat.lt_of_lt_of_le hsize haffects.size
  have houter₁ : m₁.heap.outer? m.heap.size = some f := (haffects.outer hsize).trans houter
  have hend := hiterates.keeps hev
  intro turn hturn
  obtain ⟨hle, hbegin, hinside, hinside'⟩ := hiterates.turn_outer hev turn hturn
  have hlt : m.heap.size < turn.1 := Nat.lt_of_lt_of_le hsize₁ hle
  constructor
  · exact depth_inside hclosed hf (hkeeps₁.trans hbegin) ((hbegin.outer? hsize₁).trans houter₁) hlt
      hinside
  · exact depth_inside hclosed hf (hkeeps₁.trans hend) ((hend.outer? hsize₁).trans houter₁) hlt
      hinside'

theorem Completes.pos {rounds d : Nat}
    (h : Completes (step rounds d).value i test update body g start f m turns m') : 0 < d := by
  obtain ⟨v, m₁, started, _⟩ := h
  cases d with
  | zero => cases started
  | succ d => exact Nat.succ_pos d

end Unrolled

/-- Loops run in constant stack. Take a loop that is expanded, a frame that it is entered from and
    any number of rounds. If under a budget `d` the start expression has a value, and in every round
    the test, the body and the update have, then the loop completes under every budget from `d + 5`
    on: in inner position, where it makes its pending calls itself, and in tail position, where
    `evaluate` or any other caller further out makes them. The bound on calls in a row has to allow
    for one call for each round. Where outer frames are made before the frames inside them, the
    frame of each round is two deeper than the one that the loop is entered from, both when the
    round begins and in the machine that the loop leaves. -/
theorem loops_run_in_constant_stack {limit : Nat} {names names' : FreshNames} {i assigned : String}
    {start test update body e' : Expr}
    (h : ((Expr.loop i start test assigned update body).expand limit).exec names =
      (.ok e', names')) :
    ∃ g start' test' update' body', e' = Expr.ofLoop g i start' test' update' body' ∧
      ∀ rounds d f m turns m',
        Unrolled.Completes (step rounds d).value i test' update' body' g start' f m turns m' →
        (∀ rounds' budget, rounds ≤ rounds' → turns.length ≤ rounds' → d + 5 ≤ budget →
          ((step rounds' budget).value e' f).exec m = (.ok loopResult, m') ∧
          (evaluate rounds' budget e' f).exec m = (.ok loopResult, m') ∧
          ∀ outer k, budget ≤ outer → turns.length ≤ k →
            (step rounds' budget e' f .tail >>= (step rounds' outer).resume k).exec m =
              (.ok loopResult, m')) ∧
        (m.heap.Closed (· < m.heap.size) → f < m.heap.size →
          ∀ turn ∈ turns, turn.2.heap.depth turn.1 = m.heap.depth f + 2 ∧
            m'.heap.depth turn.1 = m.heap.depth f + 2) := by
  have hdata : (Expr.loop i start test assigned update body).ClosuresIn fun _ => True :=
    Expr.closuresIn_of_forall (fun _ => trivial) _
  obtain ⟨gs, _, hexpands⟩ := Expr.expand_expands hdata h
  cases hexpands with
  | @loop _ _ _ _ g _ _ start' _ test' _ update' _ body' use fresh hupdate htest hbody hstart =>
    refine ⟨g, start', test', update', body', rfl, fun rounds d f m turns m' hloop => ⟨?_, ?_⟩⟩
    · intro rounds' budget hrounds hturns hbudget
      have hi : g ≠ i := fun heq => fresh (heq ▸ use)
      have hpos := hloop.pos
      obtain ⟨n, rfl⟩ : ∃ n, budget = n + 6 := ⟨budget - 6, by omega⟩
      have htail : ∀ outer k, n + 6 ≤ outer → turns.length ≤ k →
          (step rounds' (n + 6) (Expr.ofLoop g i start' test' update' body') f .tail >>=
            (step rounds' outer).resume k).exec m = (.ok loopResult, m') := by
        intro outer k houter hk
        obtain ⟨n', rfl⟩ : ∃ n', outer = n' + 4 := ⟨outer - 4, by omega⟩
        rw [tail_ofLoop]
        exact hloop.exec_enter hrounds (by omega) (by omega) hk hi (hstart.notMem_targets fresh)
          (htest.notMem_targets fresh) (hbody.notMem_targets fresh)
      refine ⟨?_, htail _ _ le_rfl hturns, htail⟩
      rw [value_ofLoop]
      exact hloop.exec_enter hrounds (by omega) (by omega) (by omega) hi
        (hstart.notMem_targets fresh) (htest.notMem_targets fresh) (hbody.notMem_targets fresh)
    · intro hclosed hf
      exact hloop.depth_turn (step_value_confined rounds d) hclosed hf

namespace ConstantStack

/-- The test of a loop that goes through two rounds and then stops. -/
def test : Expr := .binary "<" (.name "i") (.numeral (.int 2))

/-- Its update. -/
def update : Expr := .binary "+" (.name "i") (.numeral (.int 1))

/-- Its body, which prints a line. -/
def body : Expr := .apply (.name "print") (.text "*")

/-- Under a budget of two levels all parts of the loop have values. -/
theorem completes : ∃ turns m', turns.length = 3 ∧ m'.output = "*\n*\n" ∧
    Unrolled.Completes (step 0 2).value "i" test update body "loop%1" (.numeral (.int 0)) 0
      ({} : Machine).withRoot turns m' := by
  have hok : ∀ {x : Eval Datum} {m : Machine} {v : Datum}, (x.exec m).1 = .ok v →
      x.exec m = (.ok v, (x.exec m).2) := fun h => Prod.ext h rfl
  refine ⟨_, _, ?_, ?_, .int 0, _, hok (by cbv),
    .more (t := .bool true) (w := .unit) (hok (by cbv)) rfl (hok (by cbv)) (hok (by cbv)) <|
    .more (v := .int 1) (t := .bool true) (w := .unit) (hok (by cbv)) rfl (hok (by cbv))
      (hok (by cbv)) <|
    .last (v := .int 2) (t := .bool false) (hok (by cbv)) rfl⟩
  · rfl
  · cbv

end ConstantStack

/-- A loop whose parts need two levels completes within seven, in both positions. It prints its two
    lines, and in all three rounds the frame is two deeper than the root frame. -/
theorem loops_run_in_constant_stack_printing :
    ∃ e' turns m',
      ((Expr.loop "i" (.numeral (.int 0)) ConstantStack.test "i" ConstantStack.update
        ConstantStack.body).expand 5 |>.exec {}).1 = .ok e' ∧
      Unrolled.Completes (step 0 2).value "i" ConstantStack.test ConstantStack.update
        ConstantStack.body "loop%1" (.numeral (.int 0)) 0 ({} : Machine).withRoot turns m' ∧
      turns.length = 3 ∧ m'.output = "*\n*\n" ∧
      (evaluate 3 7 e' 0).exec ({} : Machine).withRoot = (.ok loopResult, m') ∧
      ((step 3 7).value e' 0).exec ({} : Machine).withRoot = (.ok loopResult, m') ∧
      ∀ turn ∈ turns, turn.2.heap.depth turn.1 = 3 ∧ m'.heap.depth turn.1 = 3 := by
  obtain ⟨turns, m', hlength, houtput, hcompletes⟩ := ConstantStack.completes
  have hexpand : ((Expr.loop "i" (.numeral (.int 0)) ConstantStack.test "i" ConstantStack.update
      ConstantStack.body).expand 5 |>.exec {}).1 = .ok (Expr.ofLoop "loop%1" "i" (.numeral (.int 0))
        ConstantStack.test ConstantStack.update ConstantStack.body) := by cbv
  obtain ⟨g, start, test, update, body, heq, hloop⟩ :=
    loops_run_in_constant_stack (Prod.ext hexpand rfl)
  cases heq
  obtain ⟨hends, hdepth⟩ := hloop 0 2 0 ({} : Machine).withRoot turns m' hcompletes
  obtain ⟨hvalue, hevaluate, _⟩ := hends 3 7 (by decide) hlength.le (by decide)
  have hroot : ({} : Machine).withRoot.Framed := Machine.Framed.empty.withRoot
  refine ⟨_, turns, m', hexpand, hcompletes, hlength, houtput, hevaluate, hvalue, ?_⟩
  exact hdepth hroot.closed (by decide)

end MiniLisp
