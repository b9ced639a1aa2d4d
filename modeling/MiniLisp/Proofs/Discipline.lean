import Mathlib.Data.Set.Insert
import MiniLisp.Proofs.Activation
import MiniLisp.Proofs.CodeClass
import MiniLisp.Proofs.FrameEffect

/-!
# Disciplines of code

A discipline is a class of code that is handed down to its parts. Where code of the class is
evaluated in a region of the heap whose closures have bodies of the class, all code that runs is
of the class, and the region grows with the frames and closures that are made on the way. The
region is left neither by going outwards nor by calling a closure.

The placeholder of a `letrec` is bound in the region only while the binding is evaluated. When
that fails, the frame of the `letrec` is dropped from the region: nothing in the frames that
there were before can refer to it.

* `Discipline`, `Discipline.Usable`: a class of code, and the values that such code can use.
* `Discipline.Holds`: the region of a heap, with the `letrec` bindings that are pending in it.
* `Discipline.form_obeys`: one level of evaluation, over evaluators of which this holds.
* `Discipline.evaluate_obeys`, `Discipline.AtPoint.visits`: evaluation under any bounds, and every
  evaluation that it enters.
-/

namespace MiniLisp

/-- An operator gives a number or a truth value. -/
theorem Value.number_or_bool_of_operate {v w u : Datum} {b : Nat} {i : ObjectId} {op : String}
    (h : v.operate b i op w = .ok u) : (∃ n, u = .ofNumber i n) ∨ ∃ t, u = .bool t := by
  have hresult : ∀ (op : Operator) r, op.result i r = .ok u → ∃ n, u = .ofNumber i n := by
    rintro op (e | n) h
    · cases h
    · cases h
      exact ⟨n, rfl⟩
  unfold operate at h
  split at h
  · cases h
  · obtain ⟨t, _, h⟩ := Outcome.bind_ok_iff.mp h
    cases h
    exact .inr ⟨t, rfl⟩
  · next op' _ _ =>
    split at h
    · cases op' with
      | add | sub | mul | div => exact .inl (hresult _ _ h)
      | greater | less | equal =>
        cases h
        exact .inr ⟨_, rfl⟩
    · obtain ⟨_, _, h⟩ := Outcome.bind_ok_iff.mp h
      obtain ⟨_, _, h⟩ := Outcome.bind_ok_iff.mp h
      cases h

/-- A class of code, and whether the placeholder may be among the values of it. No literal and
    no quoted datum of the class is a closure. -/
structure Discipline where
  code : Expr → Prop
  placeholder : Prop
  hereditary : Expr.Hereditary code fun d =>
    (d = .unassigned → placeholder) ∧ ∀ i x e f, d ≠ .closure i x e f

namespace Discipline

variable {D : Discipline} {G G' : Set FrameId} {ps ps' : List (FrameId × String)} {f : FrameId}
  {x : String}

/-- A value that code of the class can use in a region: closures are of frames in the region,
    and their bodies are of the class. -/
structure Usable (D : Discipline) (G : Set FrameId) (v : Datum) : Prop where
  assigned : v = .unassigned → D.placeholder
  closure : ∀ i x e f, v = .closure i x e f → D.code e ∧ f ∈ G

/-- A region of a heap: it is closed under going outwards, and what it binds is usable in it,
    placeholders of pending `letrec`s apart. -/
structure Holds (D : Discipline) (G : Set FrameId) (ps : List (FrameId × String)) (h : Heap) :
    Prop where
  allocated : ∀ g ∈ G, g < h.size
  outer : ∀ g ∈ G, ∀ o, h.outer? g = some o → o ∈ G
  bound : ∀ g ∈ G, ∀ x v, h.boundIn? x g = some v →
    D.Usable G v ∨ v = .unassigned ∧ (g, x) ∈ ps

/-! ## Values -/

theorem Usable.mono {v : Datum} (h : D.Usable G v) (hG : G ⊆ G') : D.Usable G' v :=
  ⟨h.assigned, fun i x e f hv => ⟨(h.closure i x e f hv).1, hG (h.closure i x e f hv).2⟩⟩

theorem usable_of_not_isProcedure {v : Datum} (hv : v ≠ .unassigned)
    (hp : v.isProcedure = false) : D.Usable G v := by
  refine ⟨fun h => absurd h hv, ?_⟩
  rintro i x e f rfl
  cases hp

theorem usable_of_operate {v w u : Datum} {b : Nat} {i : ObjectId} {op : String}
    (h : v.operate b i op w = .ok u) : D.Usable G u := by
  rcases Value.number_or_bool_of_operate h with ⟨n, rfl⟩ | ⟨t, rfl⟩
  · cases n <;> exact usable_of_not_isProcedure nofun rfl
  · exact usable_of_not_isProcedure nofun rfl

theorem usable_ofScalar (i : ObjectId) (s : Scalar) : D.Usable G (.ofScalar i s) := by
  cases s with
  | number n => cases n <;> exact usable_of_not_isProcedure nofun rfl
  | _ => exact usable_of_not_isProcedure nofun rfl

theorem usable_data {d : Datum}
    (h : (d = .unassigned → D.placeholder) ∧ ∀ i x e f, d ≠ .closure i x e f) : D.Usable G d :=
  ⟨h.1, fun i x e f hd => absurd hd (h.2 i x e f)⟩

/-! ## Regions -/

namespace Holds

variable {h : Heap}

theorem of_pending_subset (hh : D.Holds G ps h) (hps : ∀ p ∈ ps, p ∈ ps') : D.Holds G ps' h where
  allocated := hh.allocated
  outer := hh.outer
  bound g hg x v hv := (hh.bound g hg x v hv).imp_right fun hp => ⟨hp.1, hps _ hp.2⟩

/-- A name bound in the region ceases to be pending. -/
theorem define (hh : D.Holds G ((f, x) :: ps) h) (hf : f ∈ G) {v : Datum} (hv : D.Usable G v) :
    D.Holds G ps (h.define f x v) where
  allocated g hg := by
    rw [Heap.size_define]
    exact hh.allocated g hg
  outer g hg o ho := by
    rw [Heap.outer?_define] at ho
    exact hh.outer g hg o ho
  bound g hg y u hu := by
    by_cases hgy : f = g ∧ y = x
    · obtain ⟨rfl, rfl⟩ := hgy
      rw [Heap.boundIn?_define_self (hh.allocated f hf)] at hu
      exact .inl (Option.some.inj hu ▸ hv)
    · rw [Heap.boundIn?_define_of_ne _ (not_and_or.mp hgy)] at hu
      refine (hh.bound g hg y u hu).imp_right fun ⟨hnone, hmem⟩ => ⟨hnone, ?_⟩
      refine (List.mem_cons.mp hmem).resolve_left fun heq => hgy ?_
      rw [Prod.mk.injEq] at heq
      exact ⟨heq.1.symm, heq.2⟩

/-- A frame made inside the region joins it. -/
theorem alloc (hh : D.Holds G ps h) (hf : f ∈ G) {v : Datum}
    (hv : D.Usable G v ∨ v = .unassigned ∧ (h.size, x) ∈ ps) :
    D.Holds (insert h.size G) ps (h.alloc { bindings := [(x, v)], outer := some f }) := by
  have hsub : G ⊆ insert h.size G := Set.subset_insert ..
  refine ⟨fun g hg => ?_, fun g hg o ho => ?_, fun g hg y u hu => ?_⟩
  · rw [Heap.size_alloc]
    rcases hg with rfl | hg
    · exact Nat.lt_succ_self _
    · exact Nat.lt_succ_of_lt (hh.allocated g hg)
  · rcases hg with rfl | hg
    · rw [Heap.outer?_alloc_size] at ho
      exact hsub (Option.some.inj ho ▸ hf)
    · rw [Heap.outer?_alloc_of_lt (hh.allocated g hg)] at ho
      exact hsub (hh.outer g hg o ho)
  · rcases hg with rfl | hg
    · rw [Heap.boundIn?_alloc_size] at hu
      by_cases hy : y = x
      · subst hy
        rw [Bindings.get?, List.lookup_cons_self] at hu
        obtain rfl := Option.some.inj hu
        exact hv.imp_left fun hv => hv.mono hsub
      · rw [Bindings.get?_singleton_of_ne hy] at hu
        cases hu
    · rw [Heap.boundIn?_alloc_of_lt (hh.allocated g hg)] at hu
      exact (hh.bound g hg y u hu).imp_left fun hv => hv.mono hsub

/-- The frame of a `letrec` joins the region while the binding is pending. -/
theorem allocPending (hh : D.Holds G ps h) (hf : f ∈ G) (x : String) :
    D.Holds (insert h.size G) ((h.size, x) :: ps)
      (h.alloc { bindings := [(x, .unassigned)], outer := some f }) :=
  (hh.of_pending_subset fun _ hp => List.mem_cons_of_mem _ hp).alloc hf
    (.inr ⟨rfl, List.mem_cons_self ..⟩)

theorem keeps {m m' : Machine} (hh : D.Holds G ps m.heap) (h : m.Keeps m') :
    D.Holds G ps m'.heap where
  allocated g hg := lt_of_lt_of_le (hh.allocated g hg) h.size
  outer g hg o ho := by
    rw [Heap.outer?, h.frames g (hh.allocated g hg)] at ho
    exact hh.outer g hg o ho
  bound g hg x v hv := by
    rw [Heap.boundIn?, h.frames g (hh.allocated g hg)] at hv
    exact hh.bound g hg x v hv

/-- The region is not left by going outwards. -/
theorem mem_of_mem_chainUpTo (hh : D.Holds G ps h) {n : Nat} (hf : f ∈ G) {g : FrameId}
    (hg : g ∈ h.chainUpTo n f) : g ∈ G := by
  induction n generalizing f with
  | zero => cases hg
  | succ n ih =>
    rw [Heap.chainUpTo_succ] at hg
    split at hg
    · rcases List.mem_cons.mp hg with rfl | hg
      · exact hf
      · cases ho : h.outer? f with
        | none =>
          rw [ho] at hg
          cases hg
        | some o =>
          rw [ho] at hg
          exact ih (hh.outer f hf o ho) hg
    · cases hg

/-- The value of a name is usable, unless the name is that of a pending `letrec`. -/
theorem lookup? (hh : D.Holds G ps h) (hf : f ∈ G) {v : Datum} (hv : h.lookup? f x = some v) :
    D.Usable G v ∨ v = .unassigned ∧ ∃ g, h.find? f x = some g ∧ (g, x) ∈ ps := by
  obtain ⟨g, hfind, hbound⟩ := Heap.find?_of_lookup? hv
  have hg : g ∈ G := hh.mem_of_mem_chainUpTo hf (List.mem_of_find?_eq_some hfind)
  exact (hh.bound g hg x v hbound).imp_right fun hp => ⟨hp.1, g, hfind, hp.2⟩

end Holds

/-- A new root frame is a region. -/
theorem holds_root (m : Machine) : D.Holds {m.heap.size} [] m.withRoot.heap := by
  refine ⟨?_, ?_, ?_⟩
  · rintro g rfl
    exact m.size_withRoot ▸ Nat.lt_succ_self _
  · rintro g rfl o ho
    simp only [Machine.withRoot, Heap.outer?_alloc_size] at ho
    cases ho
  · rintro g rfl x v hv
    rw [Machine.boundIn?_withRoot] at hv
    split at hv
    · cases hv
      refine .inl ⟨?_, ?_⟩
      · rintro ⟨⟩
      · rintro i y e o ⟨⟩
    · cases hv

end Discipline

/-! ## Computations -/

/-- The computation leaves a region that is at least as large as the one that it starts from,
    however it ends, and what it gives is as said of that region. -/
def Eval.Obeys {α : Type} (D : Discipline) (ps : List (FrameId × String)) (G : Set FrameId)
    (Q : Set FrameId → α → Prop) (x : Eval α) : Prop :=
  ∀ m, D.Holds G ps m.heap →
    ∃ G', G ⊆ G' ∧ D.Holds G' ps (x.exec m).2.heap ∧ ∀ a, (x.exec m).1 = .ok a → Q G' a

namespace Eval.Obeys

variable {D : Discipline} {G : Set FrameId} {ps : List (FrameId × String)} {α β : Type}
  {Q : Set FrameId → α → Prop} {R : Set FrameId → β → Prop} {x : Eval α} {k : α → Eval β}

/-- What leaves the heap as it is keeps the region. -/
theorem of_heap_eq (hheap : ∀ m, (x.exec m).2.heap = m.heap)
    (hQ : ∀ m a, (x.exec m).1 = .ok a → Q G a) : x.Obeys D ps G Q := by
  intro m hm
  refine ⟨G, subset_rfl, ?_, hQ m⟩
  rw [hheap]
  exact hm

theorem pure {a : α} (h : Q G a) : (Pure.pure a : Eval α).Obeys D ps G Q :=
  of_heap_eq (fun _ => rfl) fun _ _ ha => Except.ok.inj ha ▸ h

theorem throw (s : Stop) : (MonadExcept.throw s : Eval α).Obeys D ps G Q :=
  of_heap_eq (fun _ => rfl) fun _ _ ha => nomatch ha

theorem ofOutcome {r : Outcome α} (h : ∀ a, r = .ok a → Q G a) : (ofOutcome r).Obeys D ps G Q :=
  of_heap_eq (fun _ => rfl) fun _ => h

theorem bind (hx : x.Obeys D ps G Q)
    (hk : ∀ G', G ⊆ G' → ∀ a, Q G' a → (k a).Obeys D ps G' R) : (x >>= k).Obeys D ps G R := by
  intro m hm
  obtain ⟨G₁, hG₁, hm₁, hQ⟩ := hx m hm
  rw [exec_bind]
  generalize x.exec m = r at hm₁ hQ ⊢
  obtain ⟨r, m₁⟩ := r
  cases r with
  | error s => exact ⟨G₁, hG₁, hm₁, fun a ha => nomatch ha⟩
  | ok a =>
    obtain ⟨G₂, hG₂, hm₂, hR⟩ := hk G₁ hG₁ a (hQ a rfl) m₁ hm₁
    exact ⟨G₂, hG₁.trans hG₂, hm₂, hR⟩

/-- To show a value and to stop with a fault about it changes nothing. -/
theorem showing (text : Outcome String) (fault : String → Fault) :
    (do Eval.fault (fault (← Eval.ofOutcome text)) : Eval α).Obeys D ps G Q :=
  of_heap_eq (fun m => by rw [exec_showing]) fun m a ha => by
    rw [exec_showing] at ha
    cases ha

theorem freshId : Eval.freshId.Obeys D ps G fun _ _ => True :=
  of_heap_eq (fun _ => rfl) fun _ _ _ => trivial

theorem write (line : String) : (Eval.write line).Obeys D ps G fun _ _ => True :=
  of_heap_eq (fun _ => rfl) fun _ _ _ => trivial

theorem define {f : FrameId} (hf : f ∈ G) (y : String) {v : Datum} (hv : D.Usable G v) :
    (Eval.define f y v).Obeys D ps G fun _ _ => True := by
  intro m hm
  have hm' := hm.of_pending_subset fun p hp => List.mem_cons_of_mem (f, y) hp
  exact ⟨G, subset_rfl, hm'.define hf hv, fun _ _ => trivial⟩

theorem bindFrame {f : FrameId} (hf : f ∈ G) (y : String) {v : Datum} (hv : D.Usable G v) :
    (Eval.bindFrame f y v).Obeys D ps G fun G' g => g ∈ G' := by
  intro m hm
  rw [exec_bindFrame]
  refine ⟨_, Set.subset_insert .., hm.alloc hf (.inl hv), fun g hg => ?_⟩
  cases hg
  exact Set.mem_insert ..

end Eval.Obeys

/-! ## One level of evaluation -/

/-- Code of the class, evaluated in a frame of the region, gives a value that is usable. -/
def Evaluation.Obeys (D : Discipline) (ev : Evaluation) : Prop :=
  ∀ ps G e f, D.code e → f ∈ G → (ev e f).Obeys D ps G D.Usable

namespace Discipline

variable {D : Discipline} {G : Set FrameId} {ps : List (FrameId × String)}
  {inner last call : Evaluation} {f : FrameId}

theorem read_obeys (hf : f ∈ G) (x : String) : (Direct.read f x).Obeys D ps G D.Usable := by
  intro m hm
  rw [Direct.exec_read]
  cases hx : m.heap.lookup? f x with
  | none => exact ⟨G, subset_rfl, hm, fun _ h => nomatch h⟩
  | some v =>
    have hv := hm.lookup? hf hx
    cases v with
    | unassigned => exact ⟨G, subset_rfl, hm, fun _ h => nomatch h⟩
    | _ =>
      refine ⟨G, subset_rfl, hm, fun a ha => ?_⟩
      obtain rfl := Except.ok.inj ha
      exact hv.resolve_right fun hp => nomatch hp.1

theorem primitive_obeys (b : Nat) {v : Datum} (hv : D.Usable G v) (action : Primitive) :
    (action.call b v).Obeys D ps G D.Usable := by
  cases action with
  | identity => exact .pure hv
  | host f => exact Eval.Obeys.freshId.bind fun _ _ i _ => .pure (usable_ofScalar i _)
  | print =>
    refine (Eval.Obeys.ofOutcome (Q := fun _ _ => True) fun _ _ => trivial).bind
      fun _ _ line _ => ?_
    refine (Eval.Obeys.write line).bind fun _ _ _ _ => ?_
    exact .pure (usable_of_not_isProcedure nofun rfl)

theorem apply_obeys (hcall : call.Obeys D) (b : Nat) {head arg : Datum} (hhead : D.Usable G head)
    (harg : D.Usable G arg) : (Direct.apply call b head arg).Obeys D ps G D.Usable := by
  cases head with
  | closure i x body outer =>
    obtain ⟨hbody, houter⟩ := hhead.closure i x body outer rfl
    refine (Eval.Obeys.bindFrame houter x harg).bind fun G' _ g hg => ?_
    exact hcall ps G' body g hbody hg
  | native i x action => exact primitive_obeys b harg action
  | _ => exact .showing _ _

theorem sequence_obeys (hinner : inner.Obeys D) (hlast : last.Obeys D) (hf : f ∈ G)
    {es : List Expr} (hes : ∀ e ∈ es, D.code e) :
    (Direct.sequence inner last f es).Obeys D ps G D.Usable := by
  fun_induction Direct.sequence inner last f es generalizing G with
  | case1 => exact .throw _
  | case2 e => exact hlast ps G e f (hes e (List.mem_cons_self ..)) hf
  | case3 e es _ ih =>
    obtain ⟨he, hes⟩ := List.forall_mem_cons.mp hes
    exact (hinner ps G e f he hf).bind fun G' hG' _ _ => ih (hG' hf) hes

/-- The placeholder is pending while the binding is evaluated. Where that gives no procedure,
    the region is the one that there was before. -/
theorem letrec_obeys (hconfined : inner.Confined) (hinner : inner.Obeys D) (hlast : last.Obeys D)
    (b : Nat) (x : String) {e body : Expr} (he : D.code e) (hbody : D.code body) (hf : f ∈ G) :
    (Direct.form inner last call b (.letrec x e body) f).Obeys D ps G D.Usable := by
  intro m hm
  obtain ⟨G₁, hG₁, hm₁, hv⟩ := hinner _ _ e m.heap.size he (Set.mem_insert ..)
    (m.bindFrame f x .unassigned) (hm.allocPending hf x)
  have hkeeps := (hconfined e m.heap.size (m.bindFrame f x .unassigned)).keeps le_rfl
    (m.keeps_bindFrame f x .unassigned)
  have hback : D.Holds G ps
      ((inner e m.heap.size).exec (m.bindFrame f x .unassigned)).2.heap := hm.keeps hkeeps
  rw [Direct.form, Eval.exec_bind_ok (Eval.exec_bindFrame ..), Eval.exec_bind]
  generalize (inner e m.heap.size).exec (m.bindFrame f x .unassigned) = r at hm₁ hv hback ⊢
  obtain ⟨r, m₁⟩ := r
  cases r with
  | error s => exact ⟨G, subset_rfl, hback, by rintro a ⟨⟩⟩
  | ok v =>
    dsimp only
    split
    · have hsub : G ⊆ G₁ := (Set.subset_insert ..).trans hG₁
      have hmem : m.heap.size ∈ G₁ := hG₁ (Set.mem_insert ..)
      rw [Eval.exec_bind_ok (Eval.exec_define ..)]
      obtain ⟨G₂, hG₂, hm₂, hu⟩ := hlast ps G₁ body m.heap.size hbody hmem
        (m₁.define m.heap.size x v) (hm₁.define hmem (hv v rfl))
      exact ⟨G₂, hsub.trans hG₂, hm₂, hu⟩
    · rw [Eval.exec_showing]
      exact ⟨G, subset_rfl, hback, by rintro a ⟨⟩⟩

/-- One level of evaluation stays within the discipline. -/
theorem form_obeys (hconfined : inner.Confined) (hinner : inner.Obeys D) (hlast : last.Obeys D)
    (hcall : call.Obeys D) (b : Nat) : (Direct.form inner last call b).Obeys D := by
  intro ps G e f he hf
  have hered := D.hereditary
  cases e with
  | numeral v => exact .pure (usable_data (hered.numeral he))
  | text s | truth t => exact .pure (usable_of_not_isProcedure nofun rfl)
  | name x => exact read_obeys hf x
  | define x e =>
    refine (hinner ps G e f (hered.define he) hf).bind fun G' hG' v hv => ?_
    refine (Eval.Obeys.define (hG' hf) x hv).bind fun G'' hG'' _ _ => ?_
    exact .pure (hv.mono hG'')
  | letrec x e body =>
    exact letrec_obeys hconfined hinner hlast b x (hered.letrec he).1 (hered.letrec he).2 hf
  | quote d => exact .pure (usable_data (hered.quote he))
  | binary op e₁ e₂ =>
    obtain ⟨he₁, he₂⟩ := hered.binary he
    refine (hinner ps G e₁ f he₁ hf).bind fun G₁ hG₁ v _ => ?_
    refine (hinner ps G₁ e₂ f he₂ (hG₁ hf)).bind fun G₂ hG₂ w _ => ?_
    refine Eval.Obeys.freshId.bind fun G₃ _ i _ => .ofOutcome fun u hu => ?_
    exact usable_of_operate hu
  | branch e₁ e₂ e₃ =>
    obtain ⟨he₁, he₂, he₃⟩ := hered.branch he
    refine (hinner ps G e₁ f he₁ hf).bind fun G₁ hG₁ v _ => ?_
    split
    · exact hlast ps G₁ e₂ f he₂ (hG₁ hf)
    · exact hlast ps G₁ e₃ f he₃ (hG₁ hf)
  | begin es => exact sequence_obeys hinner hlast hf (hered.begin he)
  | lambda x e =>
    refine Eval.Obeys.freshId.bind fun G' hG' i _ => .pure ⟨nofun, ?_⟩
    rintro _ _ _ _ ⟨⟩
    exact ⟨hered.lambda he, hG' hf⟩
  | apply e₁ e₂ =>
    obtain ⟨he₁, he₂⟩ := hered.apply he
    refine (hinner ps G e₁ f he₁ hf).bind fun G₁ hG₁ head hhead => ?_
    refine (hinner ps G₁ e₂ f he₂ (hG₁ hf)).bind fun G₂ hG₂ v hv => ?_
    exact apply_obeys hcall b (hhead.mono hG₂) hv
  | loop _ _ _ _ _ _ | stray _ => exact .showing _ _

/-! ## Evaluation -/

theorem throw_obeys (s : Stop) : Evaluation.Obeys D fun _ _ => throw s :=
  fun _ _ _ _ _ _ => .throw s

theorem evaluate_obeys (rounds budget : Nat) : Evaluation.Obeys D (evaluate rounds budget) := by
  refine (evaluate_induction (P := fun ev => Evaluation.Confined ev ∧ Evaluation.Obeys D ev)
    ⟨confined_throw _, throw_obeys _⟩ ⟨confined_throw _, throw_obeys _⟩ ?_ rounds budget).2
  intro inner last call b hinner hlast hcall
  exact ⟨Direct.form_affects hinner.1 hlast.1 hcall.1 b,
    form_obeys hinner.1 hinner.2 hlast.2 hcall.2 b⟩

theorem direct_obeys (b : Nat) : (direct b).Confined ∧ (direct b).Obeys D := by
  induction b with
  | zero => exact ⟨confined_throw _, throw_obeys _⟩
  | succ b ih =>
    exact ⟨Direct.form_affects ih.1 ih.1 ih.1 b, form_obeys ih.1 ih.2 ih.2 ih.2 b⟩

/-! ## Points -/

/-- Code of the class is about to be evaluated in a frame of the region. -/
structure AtPoint (D : Discipline) (G : Set FrameId) (p : Point) : Prop where
  code : D.code p.code
  frame : p.frame ∈ G
  heap : D.Holds G p.pending p.machine.heap

variable {p q : Point}

theorem AtPoint.exec {b : Nat} {e : Expr} {m m' : Machine} {v : Datum}
    (h : D.AtPoint G ⟨b, e, f, m, ps⟩) (hv : (direct b e f).exec m = (.ok v, m')) :
    ∃ G', G ⊆ G' ∧ D.Holds G' ps m'.heap ∧ D.Usable G' v := by
  obtain ⟨G', hG', hm', hu⟩ := (direct_obeys b).2 ps G e f h.code h.frame m h.heap
  rw [hv] at hm' hu
  exact ⟨G', hG', hm', hu v rfl⟩

theorem begin_enters {b : Nat} {es : List Expr} {m : Machine} (hes : ∀ e ∈ es, D.code e)
    (hf : f ∈ G) (hm : D.Holds G ps m.heap)
    (h : Point.Enters ⟨b + 1, .begin es, f, m, ps⟩ q) : ∃ G', G ⊆ G' ∧ D.AtPoint G' q := by
  induction es generalizing G m with
  | nil => cases h
  | cons e es ih =>
    obtain ⟨he, hes⟩ := List.forall_mem_cons.mp hes
    cases h with
    | first => exact ⟨G, subset_rfl, he, hf, hm⟩
    | later hfirst hrest =>
      obtain ⟨G₁, hG₁, hm₁, _⟩ := AtPoint.exec ⟨he, hf, hm⟩ hfirst
      obtain ⟨G₂, hG₂, hq⟩ := ih hes (hG₁ hf) hm₁ hrest
      exact ⟨G₂, hG₁.trans hG₂, hq⟩

/-- The evaluations that an evaluation enters stay within the discipline. -/
theorem AtPoint.enters (hp : D.AtPoint G p) (h : p.Enters q) : ∃ G', G ⊆ G' ∧ D.AtPoint G' q := by
  have hered := D.hereditary
  obtain ⟨hcode, hframe, hheap⟩ := hp
  cases h with
  | define => exact ⟨G, subset_rfl, hered.define hcode, hframe, hheap⟩
  | @binding b x e₁ e₂ f m ps =>
    exact ⟨_, Set.subset_insert .., (hered.letrec hcode).1, Set.mem_insert ..,
      hheap.allocPending hframe x⟩
  | @body b x e₁ e₂ f m m' ps v hbound _ =>
    obtain ⟨G', hG', hm', hv⟩ := AtPoint.exec
      ⟨(hered.letrec hcode).1, Set.mem_insert .., hheap.allocPending hframe x⟩ hbound
    have hmem : m.heap.size ∈ G' := hG' (Set.mem_insert ..)
    exact ⟨G', (Set.subset_insert ..).trans hG', (hered.letrec hcode).2, hmem, hm'.define hmem hv⟩
  | left => exact ⟨G, subset_rfl, (hered.binary hcode).1, hframe, hheap⟩
  | right hleft =>
    obtain ⟨G', hG', hm', _⟩ := AtPoint.exec ⟨(hered.binary hcode).1, hframe, hheap⟩ hleft
    exact ⟨G', hG', (hered.binary hcode).2, hG' hframe, hm'⟩
  | test => exact ⟨G, subset_rfl, (hered.branch hcode).1, hframe, hheap⟩
  | yes htest _ =>
    obtain ⟨G', hG', hm', _⟩ := AtPoint.exec ⟨(hered.branch hcode).1, hframe, hheap⟩ htest
    exact ⟨G', hG', (hered.branch hcode).2.1, hG' hframe, hm'⟩
  | no htest _ =>
    obtain ⟨G', hG', hm', _⟩ := AtPoint.exec ⟨(hered.branch hcode).1, hframe, hheap⟩ htest
    exact ⟨G', hG', (hered.branch hcode).2.2, hG' hframe, hm'⟩
  | first => exact ⟨G, subset_rfl, hered.begin hcode _ (List.mem_cons_self ..), hframe, hheap⟩
  | later hfirst hrest => exact begin_enters (hered.begin hcode) hframe hheap (.later hfirst hrest)
  | callee => exact ⟨G, subset_rfl, (hered.apply hcode).1, hframe, hheap⟩
  | arg hcallee =>
    obtain ⟨G', hG', hm', _⟩ := AtPoint.exec ⟨(hered.apply hcode).1, hframe, hheap⟩ hcallee
    exact ⟨G', hG', (hered.apply hcode).2, hG' hframe, hm'⟩
  | call hcallee harg =>
    obtain ⟨G₁, hG₁, hm₁, hhead⟩ := AtPoint.exec ⟨(hered.apply hcode).1, hframe, hheap⟩ hcallee
    obtain ⟨G₂, hG₂, hm₂, hv⟩ := AtPoint.exec ⟨(hered.apply hcode).2, hG₁ hframe, hm₁⟩ harg
    obtain ⟨hbody, hg⟩ := hhead.closure _ _ _ _ rfl
    exact ⟨_, hG₁.trans (hG₂.trans (Set.subset_insert ..)), hbody, Set.mem_insert ..,
      hm₂.alloc (hG₂ hg) (.inl hv)⟩

theorem AtPoint.visits (hp : D.AtPoint G p) (h : p.Visits q) : ∃ G', G ⊆ G' ∧ D.AtPoint G' q := by
  induction h with
  | refl => exact ⟨G, subset_rfl, hp⟩
  | tail _ hstep ih =>
    obtain ⟨G₁, hG₁, hq⟩ := ih
    obtain ⟨G₂, hG₂, hr⟩ := hq.enters hstep
    exact ⟨G₂, hG₁.trans hG₂, hr⟩

end Discipline

end MiniLisp
