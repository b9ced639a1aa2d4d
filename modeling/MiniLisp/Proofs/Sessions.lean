import Mathlib
import MiniLisp.Proofs.FrameEffect
import MiniLisp.Proofs.References

/-!
# The order of frames in every reachable state

A session asks one machine for one thing after the other: frames, definitions, applications,
evaluations. A `letrec` makes frames and closures that refer to each other in a circle, but the
frames around a frame are in order: each has been allocated before the frames inside it. This
holds after every request, whether or not it has succeeded, and at every point on the way where
an evaluation is entered.

* `Heap.Walk`: a walk outwards that ends.
* `Machine.Extends`: what becomes of the frames that there are.
* `Evaluation.Sound`: evaluations that keep references from dangling.
* `Point.Sound.visits`, `Point.Visits.extends`: the evaluations that an evaluation enters.
* `Request.perform_answered`: one request.
* `frames_stay_wellfounded`: every state that a session reaches.
-/

namespace MiniLisp

/-! ## Walks outwards -/

namespace Heap

/-- The frames that a walk outwards passes. It ends at a frame with none around it. -/
inductive Walk (h : Heap) : FrameId → List FrameId → Prop
  | root {f : FrameId} (allocated : f < h.size) (outermost : h.outer? f = none) : Walk h f [f]
  | outer {f o : FrameId} {fs : List FrameId} (around : h.outer? f = some o)
      (rest : Walk h o fs) : Walk h f (f :: fs)

theorem isSome_frame? {h : Heap} {f : FrameId} (hf : f < h.size) : (h.frame? f).isSome := by
  have hframe : h.frame? f = some h.frames[f] := Array.getElem?_eq_getElem hf
  rw [hframe]
  rfl

/-- Where outer frames are allocated earlier, a walk ends, and its frames are the chain. -/
theorem Closed.walk_chain {h : Heap} (hclosed : h.Closed (· < h.size)) {f : FrameId}
    (hf : f < h.size) : h.Walk f (h.chain f) := by
  induction f using Nat.strongRecOn with
  | ind f ih =>
    rw [chain, chainUpTo_succ, if_pos (isSome_frame? hf)]
    cases ho : h.outer? f with
    | none => exact .root hf ho
    | some o =>
      obtain ⟨hlt, hsize⟩ := hclosed f o hf ho
      refine .outer ho ?_
      rw [Option.elim, hclosed.chainUpTo_eq_chain hsize hlt]
      exact ih o hlt hsize

end Heap

/-! ## Machines along a run -/

/-- No frame is given up, and none gets another frame around it. -/
structure Machine.Extends (m m' : Machine) : Prop where
  size : m.heap.size ≤ m'.heap.size
  outer : ∀ f < m.heap.size, m'.heap.outer? f = m.heap.outer? f

namespace Machine.Extends

variable {m m' m'' : Machine}

theorem refl (m : Machine) : m.Extends m := ⟨le_rfl, fun _ _ => rfl⟩

theorem trans (h : m.Extends m') (h' : m'.Extends m'') : m.Extends m'' where
  size := h.size.trans h'.size
  outer f hf := (h'.outer f (hf.trans_le h.size)).trans (h.outer f hf)

theorem of_affects {f : FrameId} {xs : List String} (h : m.Affects f xs m') : m.Extends m' where
  size := h.size
  outer g hg := by
    by_cases hne : g = f
    · subst hne
      exact h.outer hg
    · rw [Heap.outer?, h.others g hg hne, Heap.outer?]

theorem of_keeps (h : m.Keeps m') : m.Extends m' := ⟨h.size, fun _ hf => h.outer? hf⟩

theorem alloc (m : Machine) (frame : Frame) (output : String) (nextId : ObjectId) :
    m.Extends { heap := m.heap.alloc frame, output, nextId } where
  size := by simp
  outer _ hf := Heap.outer?_alloc_of_lt hf frame

theorem define (m : Machine) (f : FrameId) (x : String) (v : Datum) :
    m.Extends (m.define f x v) where
  size := by simp [Machine.define]
  outer g _ := Heap.outer?_define m.heap f g x v

end Machine.Extends

/-- A frame that is made for an argument. -/
theorem Machine.Framed.bindFrame {m : Machine} {f : FrameId} {v : Datum} (hm : m.Framed)
    (hf : f < m.heap.size) (x : String) (hv : v.ClosuresIn (· < m.heap.size)) :
    (m.bindFrame f x v).Framed ∧ m.Extends (m.bindFrame f x v) ∧
      m.heap.size < (m.bindFrame f x v).heap.size := by
  have houter : ∀ o, some f = some o → o < m.heap.size := by
    intro o ho
    rw [← Option.some.inj ho]
    exact hf
  refine ⟨hm.allocOne houter hv, .alloc m _ _ _, ?_⟩
  show m.heap.size < (m.heap.alloc _).size
  rw [Heap.size_alloc]
  exact Nat.lt_succ_self _

/-! ## Evaluations -/

/-- An evaluation keeps references from dangling and changes only the frame that it is in. -/
structure Evaluation.Sound (ev : Evaluation) : Prop where
  tracks : References.simulation.Tracks ev ev
  confined : ev.Confined

namespace Evaluation.Sound

theorem throw (s : Stop) : Sound fun _ _ => throw s :=
  ⟨Simulation.throw_tracks s, confined_throw s⟩

theorem form {inner last call : Evaluation} (budget : Nat) (hinner : inner.Sound)
    (hlast : last.Sound) (hcall : call.Sound) : Sound (Direct.form inner last call budget) where
  tracks := References.diagonal.form_tracks budget hinner.tracks hlast.tracks hcall.tracks
  confined := Direct.form_affects hinner.confined hlast.confined hcall.confined budget

theorem direct (budget : Nat) : Sound (direct budget) := by
  induction budget with
  | zero => exact throw _
  | succ budget ih => exact form budget ih ih ih

theorem evaluate (rounds budget : Nat) : Sound (evaluate rounds budget) :=
  evaluate_induction (throw _) (throw _) (fun budget => form budget) rounds budget

theorem call (rounds budget rounds' : Nat) : Sound ((step rounds budget).call rounds') :=
  step_call_induction (throw _) (throw _) (fun budget => form budget) rounds budget rounds'

variable {ev : Evaluation} {m : Machine} {e : Expr} {f : FrameId}

/-- What an evaluation leaves, from a machine in which no reference dangles. -/
theorem exec (hev : ev.Sound) (hm : m.Framed) (hf : f < m.heap.size)
    (he : e.ClosuresIn (· < m.heap.size)) :
    Settled ((ev e f).exec m) ∧ m.Extends ((ev e f).exec m).2 :=
  ⟨settled_of_simulates hm (hev.tracks _ e f e f ⟨⟨rfl, rfl⟩, hf, he⟩),
    .of_affects (hev.confined e f m)⟩

end Evaluation.Sound

/-! ## The evaluations that an evaluation enters -/

namespace Point

/-- An evaluation starts in a machine in which no reference dangles, in one of its frames. -/
structure Sound (p : Point) : Prop where
  machine : p.machine.Framed
  frame : p.frame < p.machine.heap.size
  code : p.code.ClosuresIn (· < p.machine.heap.size)

variable {p q : Point}

/-- The evaluations that an evaluation enters start in such machines, too. -/
theorem Sound.visits (hp : p.Sound) (h : p.Visits q) : q.Sound := by
  have hat : References.simulation.At p.machine.heap.size p :=
    ⟨⟨⟨rfl, rfl⟩, hp.frame, hp.code⟩, rfl, hp.machine, rfl⟩
  obtain ⟨n, _, ⟨_, hf, he⟩, _, hm, rfl⟩ := References.diagonal.visits hat h
  exact ⟨hm, hf, he⟩

theorem extends_of_direct {b : Nat} {e : Expr} {f : FrameId} {m m' : Machine} {r : Outcome Datum}
    (h : (direct b e f).exec m = (r, m')) : m.Extends m' := by
  have haffects := (Evaluation.Sound.direct b).confined e f m
  rw [h] at haffects
  exact .of_affects haffects

theorem Enters.extends (h : p.Enters q) : p.machine.Extends q.machine := by
  induction h with
  | define | left | test | callee | first => exact .refl _
  | binding => exact .alloc ..
  | body hbound _ =>
    have hbinding := extends_of_direct hbound
    exact .trans (.alloc ..) (hbinding.trans (.define ..))
  | right hpart | yes hpart _ | no hpart _ | arg hpart => exact extends_of_direct hpart
  | later hfirst _ ih => exact (extends_of_direct hfirst).trans ih
  | call hcallee harg =>
    exact (extends_of_direct hcallee).trans ((extends_of_direct harg).trans (.alloc ..))

theorem Visits.extends (h : p.Visits q) : p.machine.Extends q.machine := by
  induction h with
  | refl => exact .refl _
  | tail _ hstep ih => exact ih.trans hstep.extends

end Point

/-! ## Replies -/

namespace Reply

variable {p : Position}

/-- A reply as a value: a pending call as a closure of the frame that binds its argument. -/
def toValue : Reply p → Datum
  | .value v => v
  | .tailCall _ body frame => .closure 0 "" body frame

/-- The reply of a computation as a value. -/
def encode (x : Eval (Reply p)) : Eval Datum := x >>= fun r => pure r.toValue

/-- The evaluation that leaves every call pending. -/
def suspend : Evaluation := fun body frame => pure (.closure 0 "" body frame)

theorem suspend_sound : Evaluation.Sound suspend where
  tracks := by
    rintro n e f _ _ ⟨⟨rfl, rfl⟩, hf, he⟩
    exact .pure (.closure rfl ⟨⟨rfl, rfl⟩, hf, he⟩)
  confined e f := (Eval.keeps_pure _).affects

theorem step_sound (rounds budget : Nat) (p : Position) :
    Evaluation.Sound fun e f => encode (step rounds budget e f p) := by
  obtain ⟨hvalue, htail⟩ := step_induction (P := Evaluation.Sound) (.throw _) (.throw _)
    (fun budget => .form budget) rounds budget
  cases p with
  | inner =>
    have heq : (fun e f => encode (step rounds budget e f .inner)) =
        (step rounds budget).value := by
      funext e f
      rw [Evaluator.value, encode]
      congr 1
      funext r
      cases r
      rfl
    rw [heq]
    exact hvalue
  | tail =>
    have heq : (fun e f => encode (step rounds budget e f .tail)) = fun e f =>
        step rounds budget e f .tail >>=
          Evaluator.resume
            (fun body frame _ => suspend body frame >>= fun v => pure (.value v)) 1 := by
      funext e f
      rw [encode]
      congr 1
      funext r
      cases r <;> rfl
    rw [heq]
    exact htail _ 1 suspend_sound

theorem exec_encode (x : Eval (Reply p)) (m : Machine) :
    (encode x).exec m = ((x.exec m).1.map toValue, (x.exec m).2) := by
  rw [encode, Eval.exec_bind]
  obtain ⟨r, m', hx⟩ : ∃ r m', x.exec m = (r, m') := ⟨_, _, rfl⟩
  rw [hx]
  cases r <;> rfl

/-- To apply a procedure keeps references from dangling, in every position. -/
theorem apply_settled {m : Machine} (hm : m.Framed) {head arg : Datum}
    (hhead : head.ClosuresIn (· < m.heap.size)) (harg : arg.ClosuresIn (· < m.heap.size))
    (rounds budget : Nat) (p : Position) :
    Settled ((encode ((step rounds budget).apply rounds budget head arg p)).exec m) := by
  obtain ⟨call, hcall, heq⟩ : ∃ call : Evaluation, call.Sound ∧
      encode ((step rounds budget).apply rounds budget head arg p) =
        Direct.apply call budget head arg := by
    cases p with
    | tail =>
      refine ⟨suspend, suspend_sound, Evaluator.apply_bind budget (fun _ => rfl) ?_ head arg⟩
      intro param body frame
      rfl
    | inner =>
      refine ⟨_, .call rounds budget (rounds + 1),
        Evaluator.apply_bind budget (fun _ => rfl) ?_ head arg⟩
      intro param body frame
      simp [Evaluator.enter, Evaluator.call, toValue]
  rw [heq]
  have hhead := References.values_iff.mpr ⟨rfl, hhead⟩
  have harg := References.values_iff.mpr ⟨rfl, harg⟩
  exact settled_of_simulates hm
    (References.simulation.apply_simulates hcall.tracks hhead harg budget)

end Reply

/-! ## Sessions -/

/-- What can be asked of a machine. -/
inductive Request where
  /-- A new root frame that binds `print`. -/
  | root
  /-- A new frame without bindings. -/
  | extend (outer : Option FrameId)
  /-- A definition. -/
  | define (f : FrameId) (key value : Datum)
  /-- A frame for the argument of a closure with the given frame and parameter. -/
  | bind (f : FrameId) (key arg : Datum)
  /-- The application of a procedure. -/
  | apply (head arg : Datum) (p : Position)
  /-- An evaluation to a value. -/
  | evaluate (e : Expr) (f : FrameId)
  /-- An evaluation to a reply. -/
  | step (e : Expr) (f : FrameId) (p : Position)
  /-- A pending call that is made. -/
  | resume (param : String) (body : Expr) (f : FrameId)

/-- What a request can be answered with. -/
inductive Answer where
  | done
  | frame (f : FrameId)
  | reply {p : Position} (r : Reply p)

namespace Request

/-- Carries out a request. -/
def perform (limits : Limits) : Request → Eval Answer
  | root => do pure (.frame (← Eval.newRoot))
  | extend outer => do pure (.frame (← Eval.newFrame outer))
  | define f key v => do
    Eval.defineKey limits.stack f v key
    pure .done
  | bind f key v => do pure (.frame (← Eval.bindKey limits.stack f v key))
  | apply head arg p => do
    let ev := MiniLisp.step limits.rounds limits.stack
    pure (.reply (← ev.apply limits.rounds limits.stack head arg p))
  | evaluate e f => do pure (.reply (p := .inner) (.value (← limits.evaluate e f)))
  | step e f p => do pure (.reply (← MiniLisp.step limits.rounds limits.stack e f p))
  | resume x body f => do
    let ev := MiniLisp.step limits.rounds limits.stack
    pure (.reply (p := .inner) (.value (← ev.resume limits.rounds (.tailCall x body f))))

/-- A request refers to the first `n` frames only. -/
def Refers (n : Nat) : Request → Prop
  | root => True
  | extend outer => ∀ o, outer = some o → o < n
  | define f key v | bind f key v => f < n ∧ key.ClosuresIn (· < n) ∧ v.ClosuresIn (· < n)
  | apply head arg _ => head.ClosuresIn (· < n) ∧ arg.ClosuresIn (· < n)
  | evaluate e f | step e f _ | resume _ e f => f < n ∧ e.ClosuresIn (· < n)

end Request

/-- An answer refers to the first `n` frames only. -/
def Answer.Refers (n : Nat) : Answer → Prop
  | done => True
  | frame f => f < n
  | reply (.value v) => v.ClosuresIn (· < n)
  | reply (.tailCall _ body f) => f < n ∧ body.ClosuresIn (· < n)

theorem Answer.refers_reply {n : Nat} {p : Position} {r : Reply p} :
    (Answer.reply r).Refers n ↔ r.toValue.ClosuresIn (· < n) := by
  cases r <;> exact Iff.rfl

/-- From a machine, a request ends in one that extends it and in which no reference dangles, and the
    answer refers to frames of that machine. -/
def Answered (m : Machine) (a : Outcome Answer × Machine) : Prop :=
  a.2.Framed ∧ m.Extends a.2 ∧ ∀ answer, a.1 = .ok answer → answer.Refers a.2.heap.size

theorem answered_map {α : Type} {m : Machine} {x : Eval α} {g : α → Answer}
    (hframed : (x.exec m).2.Framed) (hextends : m.Extends (x.exec m).2)
    (hg : ∀ a, (x.exec m).1 = .ok a → (g a).Refers (x.exec m).2.heap.size) :
    Answered m ((x >>= fun a => pure (g a)).exec m) := by
  rw [Eval.exec_bind]
  obtain ⟨r, m', hx⟩ : ∃ r m', x.exec m = (r, m') := ⟨_, _, rfl⟩
  rw [hx] at hframed hextends hg ⊢
  cases r with
  | ok a =>
    refine ⟨hframed, hextends, ?_⟩
    rintro _ ⟨⟩
    exact hg a rfl
  | error s =>
    refine ⟨hframed, hextends, ?_⟩
    rintro _ ⟨⟩

theorem answered_frame {m m' : Machine} {x : Eval FrameId} (hx : x.exec m = (.ok m.heap.size, m'))
    (hframed : m'.Framed) (hextends : m.Extends m') (hlt : m.heap.size < m'.heap.size) :
    Answered m ((x >>= fun f => pure (.frame f)).exec m) := by
  rw [Eval.exec_bind_ok hx]
  refine ⟨hframed, hextends, ?_⟩
  rintro _ ⟨⟩
  exact hlt

theorem answered_reply {p : Position} {m : Machine} {x : Eval (Reply p)}
    (hsettled : Settled ((Reply.encode x).exec m))
    (hextends : m.Extends ((Reply.encode x).exec m).2) :
    Answered m ((x >>= fun r => pure (.reply r)).exec m) := by
  rw [Reply.exec_encode] at hsettled hextends
  refine answered_map hsettled.1 hextends fun r hr => Answer.refers_reply.mpr (hsettled.2 _ ?_)
  rw [hr]
  rfl

/-- Only a symbol is defined. Any other name is a fault, and nothing is changed. -/
theorem Eval.exec_defineKey (budget : Nat) (f : FrameId) (v key : Datum) (m : Machine) :
    (∃ x, key = .symbol x ∧ (defineKey budget f v key).exec m = (.ok (), m.define f x v)) ∨
      (∀ x, key ≠ .symbol x) ∧ ∃ s, (defineKey budget f v key).exec m = (.error s, m) := by
  cases key with
  | symbol x => exact .inl ⟨x, rfl, rfl⟩
  | _ =>
    refine .inr ⟨?_, _, exec_showing ..⟩
    rintro x ⟨⟩

/-- The frame is made before the name is bound. Where this is a fault, nobody is told of it. -/
theorem Eval.exec_bindKey (budget : Nat) (f : FrameId) (v key : Datum) (m : Machine) :
    (∃ x, key = .symbol x ∧
      (bindKey budget f v key).exec m = (.ok m.heap.size, m.bindFrame f x v)) ∨
    (∀ x, key ≠ .symbol x) ∧ ∃ s, (bindKey budget f v key).exec m =
      (.error s, { m with heap := m.heap.alloc { outer := some f } }) := by
  have hnew := exec_newFrame (some f) m
  rcases exec_defineKey budget m.heap.size v key { m with heap := m.heap.alloc { outer := some f } }
    with ⟨x, rfl, hx⟩ | ⟨hkey, s, hs⟩
  · exact .inl ⟨x, rfl, exec_bindFrame f x v m⟩
  · exact .inr ⟨hkey, s, (exec_bind_ok hnew _).trans (exec_bind_error hs _)⟩

/-- A request that refers to frames of a machine in which no reference dangles. -/
theorem Request.perform_answered {m : Machine} (hm : m.Framed) {r : Request}
    (hr : r.Refers m.heap.size) (limits : Limits) : Answered m ((r.perform limits).exec m) := by
  cases r with
  | root =>
    have hlt : m.heap.size < m.withRoot.heap.size := m.size_withRoot ▸ Nat.lt_succ_self _
    exact answered_frame (Eval.exec_newRoot m) hm.withRoot (.alloc m _ _ _) hlt
  | extend outer =>
    have hempty : ∀ x v, Bindings.get? [] x = some v → v.ClosuresIn (· < m.heap.size) := by
      simp [Bindings.get?]
    exact answered_frame (Eval.exec_newFrame outer m) (hm.alloc hr hempty) (.alloc m _ _ _)
      (by simp)
  | define f key v =>
    rcases Eval.exec_defineKey limits.stack f v key m with ⟨x, -, hx⟩ | ⟨-, s, hx⟩
    · refine answered_map ?_ ?_ fun _ _ => trivial
      · rw [hx]
        exact hm.define f x hr.2.2
      · rw [hx]
        exact .define m f x v
    · refine answered_map ?_ ?_ fun _ _ => trivial
      · rw [hx]
        exact hm
      · rw [hx]
        exact .refl m
  | bind f key v =>
    rcases Eval.exec_bindKey limits.stack f v key m with ⟨x, -, hx⟩ | ⟨-, s, hx⟩
    · obtain ⟨hm', hext, hlt⟩ := hm.bindFrame hr.1 x hr.2.2
      exact answered_frame hx hm' hext hlt
    · have houter : ∀ o, some f = some o → o < m.heap.size := by
        rintro o ⟨⟩
        exact hr.1
      refine answered_map ?_ ?_ fun a ha => ?_
      · rw [hx]
        exact hm.alloc houter (by simp [Bindings.get?])
      · rw [hx]
        exact .alloc m _ _ _
      · rw [hx] at ha
        cases ha
  | apply head arg p =>
    refine answered_reply (Reply.apply_settled hm hr.1 hr.2 limits.rounds limits.stack p) ?_
    rw [Reply.exec_encode]
    exact .of_keeps (step_apply_keeps limits.rounds limits.stack limits.stack head arg p m)
  | evaluate e f =>
    obtain ⟨hsettled, hext⟩ :=
      (Evaluation.Sound.evaluate limits.rounds limits.stack).exec hm hr.1 hr.2
    exact answered_map hsettled.1 hext hsettled.2
  | step e f p =>
    obtain ⟨hsettled, hext⟩ := (Reply.step_sound limits.rounds limits.stack p).exec hm hr.1 hr.2
    exact answered_reply hsettled hext
  | resume x body f =>
    obtain ⟨hsettled, hext⟩ :=
      (Evaluation.Sound.call limits.rounds limits.stack limits.rounds).exec hm hr.1 hr.2
    rw [← Evaluator.resume_tailCall _ _ x] at hsettled hext
    exact answered_map hsettled.1 hext hsettled.2

/-! ## Reachable states -/

/-- A machine comes after another one: a request has been carried out, however it ended, or is
    being carried out and an evaluation is entered on the way. -/
inductive Machine.Advances : Machine → Machine → Prop
  | request {m : Machine} {r : Request} (refers : r.Refers m.heap.size) (limits : Limits) :
      Advances m ((r.perform limits).exec m).2
  | entered {m : Machine} {b : Nat} {e : Expr} {f : FrameId} {q : Point} (frame : f < m.heap.size)
      (code : e.ClosuresIn (· < m.heap.size)) (visits : Point.Visits ⟨b, e, f, m, []⟩ q) :
      Advances m q.machine

/-- The machines that come after one, at some distance. -/
abbrev Machine.Reaches : Machine → Machine → Prop := Relation.ReflTransGen Machine.Advances

namespace Machine.Framed

variable {m m' : Machine}

theorem advances (hm : m.Framed) (h : m.Advances m') : m'.Framed ∧ m.Extends m' := by
  cases h with
  | request hr limits =>
    obtain ⟨hm', hext, _⟩ := Request.perform_answered hm hr limits
    exact ⟨hm', hext⟩
  | entered hf he hvisits =>
    exact ⟨(Point.Sound.visits ⟨hm, hf, he⟩ hvisits).machine, Point.Visits.extends hvisits⟩

theorem reaches (hm : m.Framed) (h : m.Reaches m') : m'.Framed ∧ m.Extends m' := by
  induction h with
  | refl => exact ⟨hm, .refl m⟩
  | tail _ hstep ih =>
    obtain ⟨hm', hext⟩ := ih.1.advances hstep
    exact ⟨hm', ih.2.trans hext⟩

end Machine.Framed

/-- The frames of every reachable machine are well-founded. Of whatever requests are made, and at
    whatever point of carrying them out, the frame around a frame has been allocated before it, and
    closures in frames, answers and pending calls are of frames that have been allocated; no frame
    is ever given another one around it. So a walk outwards ends, also from the frame of a `letrec`
    that holds a closure of this very frame. Its frames are the chain from which `Heap.find?`,
    `Heap.lookup?`, `Heap.depth` and `Heap.chainText` are read, and which no larger bound on its
    length makes longer. -/
theorem frames_stay_wellfounded {m : Machine} (hm : Machine.Reaches {} m) :
    (∀ f < m.heap.size,
      (∀ o, m.heap.outer? f = some o → o < f) ∧
      (∀ x v, m.heap.boundIn? x f = some v → v.ClosuresIn (· < m.heap.size)) ∧
      m.heap.Walk f (m.heap.chain f) ∧ ∀ n, f < n → m.heap.chainUpTo n f = m.heap.chain f) ∧
    (∀ (r : Request) limits a, r.Refers m.heap.size → ((r.perform limits).exec m).1 = .ok a →
      a.Refers ((r.perform limits).exec m).2.heap.size) ∧
    (∀ b e f q, f < m.heap.size → e.ClosuresIn (· < m.heap.size) →
      Point.Visits ⟨b, e, f, m, []⟩ q →
      q.frame < q.machine.heap.size ∧ q.code.ClosuresIn (· < q.machine.heap.size)) ∧
    ∀ m', m.Reaches m' → m.heap.size ≤ m'.heap.size ∧
      ∀ f < m.heap.size, m'.heap.outer? f = m.heap.outer? f := by
  have hframed : m.Framed := (Machine.Framed.empty.reaches hm).1
  have hclosed := hframed.closed
  refine ⟨fun f hf => ⟨hframed.outer f hf, hframed.closures f hf, ?_, ?_⟩, ?_, ?_, ?_⟩
  · exact hclosed.walk_chain hf
  · exact fun n hn => hclosed.chainUpTo_eq_chain hf hn
  · exact fun r limits a hr ha => (Request.perform_answered hframed hr limits).2.2 a ha
  · intro b e f q hf he hvisits
    have hq := Point.Sound.visits ⟨hframed, hf, he⟩ hvisits
    exact ⟨hq.frame, hq.code⟩
  · intro m' hreaches
    have hext := (hframed.reaches hreaches).2
    exact ⟨hext.size, hext.outer⟩

namespace Sessions

/-- A procedure that calls itself. -/
def knot : Expr := .letrec "f" (.lambda "x" (.apply (.name "f") (.name "x"))) (.name "f")

/-- The machine after a root frame has been made and the procedure has been bound there. -/
def tied : Machine :=
  ((Request.evaluate knot 0).perform ⟨8, 8⟩ |>.exec ({} : Machine).withRoot).2

end Sessions

/-- The frame of a procedure that calls itself holds a closure of this very frame, and the walk
    from it ends at the root. -/
theorem frames_stay_wellfounded_knot :
    Machine.Reaches {} Sessions.tied ∧
    Sessions.tied.heap.boundIn? "f" 1 =
      some (.closure 1 "x" (.apply (.name "f") (.name "x")) 1) ∧
    Sessions.tied.heap.Walk 1 [1, 0] := by
  have hroot : Machine.Reaches {} ({} : Machine).withRoot := by
    have h : Machine.Advances {} _ := .request (r := .root) trivial ⟨8, 8⟩
    exact .single h
  have hreaches : Machine.Reaches {} Sessions.tied := by
    refine hroot.tail (.request (r := .evaluate Sessions.knot 0) ⟨?_, ?_⟩ ⟨8, 8⟩)
    · decide
    · simp [Sessions.knot, Expr.ClosuresIn]
  have hchain : Sessions.tied.heap.chain 1 = [1, 0] := by cbv
  have hsize : 1 < Sessions.tied.heap.size := by cbv
  refine ⟨hreaches, by cbv, ?_⟩
  rw [← hchain]
  exact ((frames_stay_wellfounded hreaches).1 1 hsize).2.2.1

end MiniLisp
