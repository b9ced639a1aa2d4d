import MiniLisp.Proofs.Direct
import MiniLisp.Proofs.Expansion
import MiniLisp.Proofs.Lookup

/-!
# What evaluation does to frames

An expression is evaluated in a frame, and this is the only frame among those there were
before that evaluation can change. It changes it by definitions that stand directly in the
expression: what is inside a procedure, a `letrec` or a loop is evaluated in a frame of its own.

* `Expr.targets`: the names that an expression defines in the frame it is evaluated in.
* `Machine.Keeps`, `Machine.Affects`: all frames are kept; all but one, and this one up to the
  given names. No identity is given out twice. `Eval.Keeps` and `Eval.Affects` say so of
  computations, however they end.
* `Direct.form_affects`: one level of evaluation, over evaluators of which this holds.
* `evaluation_affects_own_frame`: evaluation under any bounds.
-/

namespace MiniLisp

/-! ## Targets of definitions -/

namespace Expr

mutual

/-- The names that an expression defines in the frame in which it is evaluated. -/
def targets : Expr → List String
  | define x e => x :: e.targets
  | binary _ e₁ e₂ | apply e₁ e₂ => e₁.targets ++ e₂.targets
  | branch e₁ e₂ e₃ => e₁.targets ++ e₂.targets ++ e₃.targets
  | begin es => allTargets es
  | _ => []

/-- The targets of several expressions. -/
def allTargets : List Expr → List String
  | [] => []
  | e :: es => e.targets ++ allTargets es

end

end Expr

/-! ## Machines before and after -/

namespace Machine

/-- All frames are as they were. -/
structure Keeps (m m' : Machine) : Prop where
  size : m.heap.size ≤ m'.heap.size
  nextId : m.nextId ≤ m'.nextId
  frames : ∀ g < m.heap.size, m'.heap.frame? g = m.heap.frame? g

/-- All frames but one are as they were, and in this one the outer frame and the values of all
    but the given names. -/
structure Affects (f : FrameId) (xs : List String) (m m' : Machine) : Prop where
  size : m.heap.size ≤ m'.heap.size
  nextId : m.nextId ≤ m'.nextId
  others : ∀ g < m.heap.size, g ≠ f → m'.heap.frame? g = m.heap.frame? g
  outer : f < m.heap.size → m'.heap.outer? f = m.heap.outer? f
  bound : f < m.heap.size → ∀ x, x ∉ xs → m'.heap.boundIn? x f = m.heap.boundIn? x f

variable {f : FrameId} {xs ys : List String} {m m' m'' : Machine}

theorem Keeps.refl (m : Machine) : Keeps m m := ⟨le_rfl, le_rfl, fun _ _ => rfl⟩

theorem Keeps.trans (h : Keeps m m') (h' : Keeps m' m'') : Keeps m m'' where
  size := h.size.trans h'.size
  nextId := h.nextId.trans h'.nextId
  frames g hg := (h'.frames g (lt_of_lt_of_le hg h.size)).trans (h.frames g hg)

theorem Keeps.outer? (h : Keeps m m') (hf : f < m.heap.size) :
    m'.heap.outer? f = m.heap.outer? f := by
  rw [Heap.outer?, h.frames f hf, Heap.outer?]

theorem Keeps.boundIn? (h : Keeps m m') (hf : f < m.heap.size) (x : String) :
    m'.heap.boundIn? x f = m.heap.boundIn? x f := by
  rw [Heap.boundIn?, h.frames f hf, Heap.boundIn?]

theorem Keeps.affects (h : Keeps m m') : Affects f xs m m' where
  size := h.size
  nextId := h.nextId
  others g hg _ := h.frames g hg
  outer hf := h.outer? hf
  bound hf x _ := h.boundIn? hf x

theorem Affects.trans (h : Affects f xs m m') (h' : Affects f xs m' m'') :
    Affects f xs m m'' where
  size := h.size.trans h'.size
  nextId := h.nextId.trans h'.nextId
  others g hg hne := (h'.others g (lt_of_lt_of_le hg h.size) hne).trans (h.others g hg hne)
  outer hf := (h'.outer (lt_of_lt_of_le hf h.size)).trans (h.outer hf)
  bound hf x hx := (h'.bound (lt_of_lt_of_le hf h.size) x hx).trans (h.bound hf x hx)

theorem Affects.mono (h : Affects f xs m m') (hxs : ∀ x ∈ xs, x ∈ ys) : Affects f ys m m' where
  __ := h
  bound hf x hx := h.bound hf x fun hmem => hx (hxs x hmem)

/-- What happens in a new frame keeps those that there were. -/
theorem Affects.keeps (h : Affects f xs m m') (hf : m''.heap.size ≤ f) (hk : Keeps m'' m) :
    Keeps m'' m' where
  size := hk.size.trans h.size
  nextId := hk.nextId.trans h.nextId
  frames g hg := by
    have hne : g ≠ f := Nat.ne_of_lt (Nat.lt_of_lt_of_le hg hf)
    rw [h.others g (lt_of_lt_of_le hg hk.size) hne, hk.frames g hg]

theorem keeps_bindFrame (m : Machine) (outer : FrameId) (x : String) (v : Datum) :
    Keeps m (m.bindFrame outer x v) where
  size := by simp [bindFrame]
  nextId := le_rfl
  frames g hg := Heap.frame?_alloc_of_lt hg _

theorem affects_define (m : Machine) (f : FrameId) {x : String} (hx : x ∈ xs) (v : Datum) :
    Affects f xs m (m.define f x v) where
  size := by simp [define]
  nextId := le_rfl
  others g _ hne := by
    show (m.heap.define f x v).frame? g = m.heap.frame? g
    rw [Heap.frame?_define, if_neg hne.symm]
  outer _ := Heap.outer?_define ..
  bound _ y hy := by
    have hyx : y ≠ x := fun heq => hy (heq ▸ hx)
    exact Heap.boundIn?_define_of_ne _ (.inr hyx) v

end Machine

/-! ## Computations -/

namespace Eval

variable {α β : Type} {f : FrameId} {xs ys : List String} {x : Eval α} {k : α → Eval β}

/-- The computation keeps all frames, however it ends. -/
def Keeps (x : Eval α) : Prop := ∀ m, Machine.Keeps m (x.exec m).2

/-- The computation affects at most the given names in the given frame, however it ends. -/
def Affects (f : FrameId) (xs : List String) (x : Eval α) : Prop :=
  ∀ m, Machine.Affects f xs m (x.exec m).2

theorem Keeps.affects (h : Keeps x) : Affects f xs x := fun m => (h m).affects

theorem Affects.mono (h : Affects f xs x) (hxs : ∀ y ∈ xs, y ∈ ys) : Affects f ys x :=
  fun m => (h m).mono hxs

theorem keeps_ofOutcome (r : Outcome α) : Keeps (ofOutcome r) := fun m => .refl m

theorem keeps_pure (a : α) : Keeps (pure a) := fun m => .refl m

theorem keeps_throw (s : Stop) : Keeps (throw s : Eval α) := fun m => .refl m

theorem keeps_freshId : Keeps freshId := fun _ => ⟨le_rfl, Nat.le_succ _, fun _ _ => rfl⟩

theorem keeps_write (line : String) : Keeps (write line) :=
  fun _ => ⟨le_rfl, le_rfl, fun _ _ => rfl⟩

theorem Keeps.bind (hx : Keeps x) (hk : ∀ a, Keeps (k a)) : Keeps (x >>= k) :=
  exec_bind_trans .trans hx hk

theorem Affects.bind (hx : Affects f xs x) (hk : ∀ a, Affects f xs (k a)) :
    Affects f xs (x >>= k) :=
  exec_bind_trans .trans hx hk

/-- What is done in a frame made for it keeps all frames. -/
theorem keeps_bindFrame_bind (outer : FrameId) (y : String) (v : Datum) {k : FrameId → Eval β}
    (hk : ∀ frame, ∃ xs, Affects frame xs (k frame)) : Keeps (bindFrame outer y v >>= k) := by
  intro m
  obtain ⟨xs, hxs⟩ := hk m.heap.size
  rw [exec_bind_ok (exec_bindFrame ..)]
  exact (hxs _).keeps le_rfl (m.keeps_bindFrame outer y v)

end Eval

/-! ## One level of evaluation -/

/-- An evaluation affects at most the targets of an expression in the frame that it is
    evaluated in. -/
def Evaluation.Confined (ev : Evaluation) : Prop := ∀ e f, (ev e f).Affects f e.targets

theorem Evaluation.Confined.affects {ev : Evaluation} (hev : ev.Confined) {e : Expr} {f : FrameId}
    {r : Outcome Datum} {m m' : Machine} (h : (ev e f).exec m = (r, m')) :
    m.Affects f e.targets m' := by
  have haffects := hev e f m
  rwa [h] at haffects

namespace Direct

variable {inner last call : Evaluation}

theorem read_keeps (f : FrameId) (x : String) : (read f x).Keeps := by
  intro m
  rw [exec_read]
  split <;> exact .refl m

theorem primitive_keeps (b : Nat) (v : Datum) (action : Primitive) : (action.call b v).Keeps := by
  cases action with
  | identity => exact Eval.keeps_pure v
  | host f => exact Eval.keeps_freshId.bind fun _ => Eval.keeps_pure _
  | print =>
    refine (Eval.keeps_ofOutcome _).bind fun line => ?_
    exact (Eval.keeps_write line).bind fun _ => Eval.keeps_pure _

theorem apply_keeps (hcall : call.Confined) (b : Nat) (head arg : Datum) :
    (apply call b head arg).Keeps := by
  cases head with
  | closure id x body outer =>
    exact Eval.keeps_bindFrame_bind outer x arg fun frame => ⟨_, hcall body frame⟩
  | native id x action => exact primitive_keeps b arg action
  | _ => exact (Eval.keeps_ofOutcome _).bind fun _ => Eval.keeps_throw _

theorem sequence_affects (hinner : inner.Confined) (hlast : last.Confined) (f : FrameId)
    (es : List Expr) : (sequence inner last f es).Affects f (Expr.allTargets es) := by
  fun_induction sequence inner last f es with
  | case1 => exact (Eval.keeps_throw _).affects
  | case2 e => exact (hlast e f).mono (by simp [Expr.allTargets])
  | case3 e es _ ih =>
    refine ((hinner e f).mono ?_).bind fun _ => ih.mono ?_
    · intro x hx
      exact List.mem_append_left _ hx
    · intro x hx
      exact List.mem_append_right _ hx

/-- A procedure bound by `letrec` and the body are evaluated in a frame of their own. -/
theorem letrec_keeps (hinner : inner.Confined) (hlast : last.Confined) (b : Nat) (x : String)
    (e body : Expr) (f : FrameId) :
    (form inner last call b (.letrec x e body) f).Keeps := by
  refine Eval.keeps_bindFrame_bind f x .unassigned fun frame =>
    ⟨x :: (e.targets ++ body.targets), ?_⟩
  refine ((hinner e frame).mono fun y hy => ?_).bind fun v => ?_
  · exact List.mem_cons_of_mem _ (List.mem_append_left _ hy)
  · split
    · have hdefine : (Eval.define frame x v).Affects frame (x :: (e.targets ++ body.targets)) :=
        fun m => m.affects_define frame (List.mem_cons_self ..) v
      refine hdefine.bind fun _ => (hlast body frame).mono fun y hy => ?_
      exact List.mem_cons_of_mem _ (List.mem_append_right _ hy)
    · exact ((Eval.keeps_ofOutcome _).bind fun _ => Eval.keeps_throw _).affects

theorem form_affects (hinner : inner.Confined) (hlast : last.Confined) (hcall : call.Confined)
    (b : Nat) : (form inner last call b).Confined := by
  intro e f
  cases e with
  | numeral _ | text _ | truth _ | quote _ => exact (Eval.keeps_pure _).affects
  | name x => exact (read_keeps f x).affects
  | define x e =>
    refine ((hinner e f).mono fun y hy => List.mem_cons_of_mem _ hy).bind fun v => ?_
    have hdefine : (Eval.define f x v).Affects f (x :: e.targets) :=
      fun m => m.affects_define f (List.mem_cons_self ..) v
    exact hdefine.bind fun _ => (Eval.keeps_pure v).affects
  | letrec x e body => exact (letrec_keeps hinner hlast b x e body f).affects
  | binary op e₁ e₂ =>
    refine ((hinner e₁ f).mono fun y hy => List.mem_append_left _ hy).bind fun v => ?_
    refine ((hinner e₂ f).mono fun y hy => List.mem_append_right _ hy).bind fun w => ?_
    exact (Eval.keeps_freshId.bind fun _ => Eval.keeps_ofOutcome _).affects
  | branch e₁ e₂ e₃ =>
    refine ((hinner e₁ f).mono ?_).bind fun v => ?_
    · intro y hy
      exact List.mem_append_left _ (List.mem_append_left _ hy)
    · split
      · exact (hlast e₂ f).mono fun y hy => List.mem_append_left _ (List.mem_append_right _ hy)
      · exact (hlast e₃ f).mono fun y hy => List.mem_append_right _ hy
  | begin es => exact sequence_affects hinner hlast f es
  | lambda x e => exact (Eval.keeps_freshId.bind fun _ => Eval.keeps_pure _).affects
  | apply e₁ e₂ =>
    refine ((hinner e₁ f).mono fun y hy => List.mem_append_left _ hy).bind fun head => ?_
    refine ((hinner e₂ f).mono fun y hy => List.mem_append_right _ hy).bind fun v => ?_
    exact (apply_keeps hcall b head v).affects
  | loop _ _ _ _ _ _ | stray _ =>
    exact ((Eval.keeps_ofOutcome _).bind fun _ => Eval.keeps_throw _).affects

end Direct

/-! ## Evaluation -/

theorem confined_throw (s : Stop) : Evaluation.Confined fun _ _ => throw s :=
  fun _ _ => (Eval.keeps_throw s).affects

theorem evaluate_confined (rounds budget : Nat) : Evaluation.Confined (evaluate rounds budget) :=
  evaluate_induction (confined_throw _) (confined_throw _)
    (fun b hinner hlast hcall => Direct.form_affects hinner hlast hcall b) rounds budget

theorem step_value_confined (rounds budget : Nat) :
    Evaluation.Confined (step rounds budget).value :=
  (step_induction (confined_throw _) (confined_throw _)
    (fun b hinner hlast hcall => Direct.form_affects hinner hlast hcall b) rounds budget).1

theorem step_call_confined (rounds budget rounds' : Nat) :
    ((step rounds budget).call rounds').Confined :=
  step_call_induction (confined_throw _) (confined_throw _)
    (fun b hinner hlast hcall => Direct.form_affects hinner hlast hcall b) rounds budget rounds'

/-- To apply a procedure keeps all frames, in inner position and where the call stays pending. -/
theorem step_apply_keeps (rounds budget budget' : Nat) (head arg : Datum) (p : Position) :
    ((step rounds budget).apply rounds budget' head arg p).Keeps := by
  cases head with
  | closure id x body outer =>
    refine Eval.keeps_bindFrame_bind outer x arg fun frame => ?_
    cases p with
    | tail => exact ⟨[], (Eval.keeps_pure _).affects⟩
    | inner =>
      refine ⟨body.targets, ?_⟩
      rw [Evaluator.enter, ← bind_assoc]
      exact (step_call_confined rounds budget (rounds + 1) body frame).bind fun v =>
        (Eval.keeps_pure _).affects
  | native id x action =>
    exact (Direct.primitive_keeps budget' arg action).bind fun _ => Eval.keeps_pure _
  | _ => exact (Eval.keeps_ofOutcome _).bind fun _ => Eval.keeps_throw _

theorem evaluate_letrec_keeps (rounds budget : Nat) (x : String) (e body : Expr) (f : FrameId) :
    (evaluate rounds budget (.letrec x e body) f).Keeps := by
  cases budget with
  | zero => exact Eval.keeps_throw _
  | succ budget =>
    have hsteps := step_induction (confined_throw _) (confined_throw _)
      (fun b hinner hlast hcall => Direct.form_affects hinner hlast hcall b) rounds budget
    have hlast := hsteps.2 (step rounds (budget + 1)) rounds
      (step_call_confined rounds (budget + 1) rounds)
    rw [evaluate, step, Evaluator.form_resume]
    exact Direct.letrec_keeps hsteps.1 hlast budget x e body f

/-- Evaluation in a frame, however it ends, leaves every other frame as it was. In the frame
    itself the outer frame stays, and only names that the expression defines outside procedures,
    `letrec` and loops can be bound anew. To apply a procedure leaves all frames as they were,
    and so does an expanded loop. -/
theorem evaluation_affects_own_frame (rounds budget : Nat) (f : FrameId) (m : Machine) :
    (∀ e : Expr,
      (∀ g < m.heap.size, g ≠ f →
        ((evaluate rounds budget e f).exec m).2.heap.frame? g = m.heap.frame? g) ∧
      (f < m.heap.size →
        ((evaluate rounds budget e f).exec m).2.heap.outer? f = m.heap.outer? f ∧
        ∀ x, x ∉ e.targets →
          ((evaluate rounds budget e f).exec m).2.heap.boundIn? x f = m.heap.boundIn? x f)) ∧
    (∀ budget' head arg p, ∀ g < m.heap.size,
      (((step rounds budget).apply rounds budget' head arg p).exec m).2.heap.frame? g =
        m.heap.frame? g) ∧
    ∀ b i start test assigned update body e' names names',
      ((Expr.loop i start test assigned update body).expandLoops b).exec names =
        (.ok e', names') →
      ∀ g < m.heap.size,
        ((evaluate rounds budget e' f).exec m).2.heap.frame? g = m.heap.frame? g := by
  refine ⟨fun e => ?_, fun budget' head arg p => ?_, ?_⟩
  · have haffects := evaluate_confined rounds budget e f m
    exact ⟨haffects.others, fun hf => ⟨haffects.outer hf, haffects.bound hf⟩⟩
  · exact (step_apply_keeps rounds budget budget' head arg p m).frames
  · intro b i start test assigned update body e' names names' h
    cases b with
    | zero => cases h
    | succ b =>
      obtain ⟨_, _, _, _, _, _, _, _, _, _, _, _, rfl⟩ := Expr.expandLoops_loop_inv h
      exact (evaluate_letrec_keeps rounds budget _ _ _ f m).frames

end MiniLisp
