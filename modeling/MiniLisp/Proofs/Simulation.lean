import MiniLisp.Proofs.CodeClass
import MiniLisp.Proofs.Direct

/-!
# Simulation between evaluations

Several properties of evaluation compare two runs: of a program and of its expansion, under other
names, with other frames. In each of them the machines of the two runs stay related while
frames are added on both sides. What differs is the relation; that every form of the language
preserves it is the same argument each time, and is made here once.

A `Simulation` relates machines, values and code over worlds that grow along a run. It owes the
elementary computations only: printing, taking an identity, binding an argument.

* `Correspondence.Simulates`: from related machines, two computations end in related machines
  with related answers.
* `Correspondence.Matches`: two expressions have the same form and related parts.
* `Correspondence.SelfRelated`: what it takes for expressions to match themselves.
* `Simulation.form_simulates`: one level of evaluation of matching expressions simulates, when
  the evaluators for the parts do.
-/

namespace MiniLisp

/-- A relation between the states of two runs, over worlds. -/
structure Correspondence (World : Type) where
  ids : World → ObjectId → ObjectId → Prop
  /-- A parameter with a body and a frame on each side. -/
  closures : World → String → Expr → FrameId → Expr → FrameId → Prop
  /-- An expression with the frame that it is evaluated in, on each side. -/
  code : World → Expr → FrameId → Expr → FrameId → Prop
  machines : World → Machine → Machine → Prop

namespace Correspondence

variable {World : Type} [Preorder World] (S : Correspondence World) {α β γ δ : Type}

/-- Values are related when they differ in identities and closures only, and these are
    related. -/
def values (w : World) : Datum → Datum → Prop := Value.Alike (S.ids w) (S.closures w)

/-- From related machines, both computations end in related machines with related answers. -/
def Simulates (w : World) (R : World → α → β → Prop) (x : Eval α) (y : Eval β) : Prop :=
  ∀ m₁ m₂, S.machines w m₁ m₂ →
    ∃ w', w ≤ w' ∧ S.machines w' (x.exec m₁).2 (y.exec m₂).2 ∧
      Outcome.Rel (R w') (x.exec m₁).1 (y.exec m₂).1

/-- The two evaluations simulate each other on related code. -/
def Tracks (ev₁ ev₂ : Evaluation) : Prop :=
  ∀ w e₁ f₁ e₂ f₂, S.code w e₁ f₁ e₂ f₂ → S.Simulates w S.values (ev₁ e₁ f₁) (ev₂ e₂ f₂)

/-! ## Simulation of computations -/

section Simulates

variable {S} {w : World} {R : World → α → β → Prop} {Q : World → γ → δ → Prop}

theorem Simulates.pure {a : α} {b : β} (h : R w a b) :
    S.Simulates w R (Pure.pure a) (Pure.pure b) := fun _ _ hm => ⟨w, le_rfl, hm, h⟩

theorem Simulates.throw (s : Stop) : S.Simulates w R (throw s) (throw s) :=
  fun _ _ hm => ⟨w, le_rfl, hm, rfl⟩

theorem Simulates.ofOutcome {x : Outcome α} {y : Outcome β}
    (h : Outcome.Follows (fun _ => False) (R w) x y) :
    S.Simulates w R (Eval.ofOutcome x) (Eval.ofOutcome y) := by
  intro m₁ m₂ hm
  rcases h with ⟨_, _, hfalse⟩ | h
  · exact hfalse.elim
  · exact ⟨w, le_rfl, hm, h⟩

theorem Simulates.bind {x : Eval α} {y : Eval β} {f : α → Eval γ} {g : β → Eval δ}
    (h : S.Simulates w R x y)
    (hfg : ∀ w', w ≤ w' → ∀ a b, R w' a b → S.Simulates w' Q (f a) (g b)) :
    S.Simulates w Q (x >>= f) (y >>= g) := by
  intro m₁ m₂ hm
  obtain ⟨r₁, n₁, hx⟩ : ∃ r₁ n₁, x.exec m₁ = (r₁, n₁) := ⟨_, _, rfl⟩
  obtain ⟨r₂, n₂, hy⟩ : ∃ r₂ n₂, y.exec m₂ = (r₂, n₂) := ⟨_, _, rfl⟩
  have hxy := h m₁ m₂ hm
  rw [hx, hy] at hxy
  obtain ⟨w', hw, hn, hr⟩ := hxy
  cases r₁ with
  | error s =>
    have hr₂ : r₂ = .error s := hr.error_left
    subst hr₂
    rw [Eval.exec_bind_error hx, Eval.exec_bind_error hy]
    exact ⟨w', hw, hn, rfl⟩
  | ok a =>
    obtain ⟨b, hb, hab⟩ := Outcome.Rel.ok_left hr
    dsimp only at hb
    subst hb
    rw [Eval.exec_bind_ok hx, Eval.exec_bind_ok hy]
    obtain ⟨w'', hw', hn', hr'⟩ := hfg w' hw a b hab n₁ n₂ hn
    exact ⟨w'', hw.trans hw', hn', hr'⟩

end Simulates

/-! ## Matching expressions -/

/-- Related values may be bound to a name in the given frames, now and later. -/
def Assignable (w : World) (x : String) (f₁ f₂ : FrameId) : Prop :=
  ∀ w', w ≤ w' → ∀ v₁ v₂, S.values w' v₁ v₂ →
    S.Simulates w' (fun _ _ _ => True) (Eval.define f₁ x v₁) (Eval.define f₂ x v₂)

variable {S} in
/-- A name is read alike where its values are related. -/
theorem read_simulates {w : World} {x : String} {f₁ f₂ : FrameId}
    (h : ∀ m₁ m₂, S.machines w m₁ m₂ →
      Option.Rel (S.values w) (m₁.heap.lookup? f₁ x) (m₂.heap.lookup? f₂ x)) :
    S.Simulates w S.values (Direct.read f₁ x) (Direct.read f₂ x) := by
  intro m₁ m₂ hm
  refine ⟨w, le_rfl, ?_⟩
  rw [Direct.exec_read, Direct.exec_read]
  have hrel := h m₁ m₂ hm
  revert hrel
  generalize m₁.heap.lookup? f₁ x = a
  generalize m₂.heap.lookup? f₂ x = b
  rintro (@⟨v₁, _, hab⟩ | _)
  · cases hab with
    | atom ha => cases v₁ <;> first | exact ⟨hm, rfl⟩ | exact ⟨hm, .atom ha⟩
    | float hid => exact ⟨hm, .float hid⟩
    | list hid hlen hxs => exact ⟨hm, .list hid hlen hxs⟩
    | tuple hid hlen hxs => exact ⟨hm, .tuple hid hlen hxs⟩
    | native hid => exact ⟨hm, .native hid⟩
    | closure hid hc => exact ⟨hm, .closure hid hc⟩
  · exact ⟨hm, rfl⟩

/-- Two expressions of the same form, in frames, whose parts are related. -/
inductive Matches (w : World) : Expr → FrameId → Expr → FrameId → Prop
  | numeral {v₁ v₂ : Datum} {f₁ f₂ : FrameId} (value : S.values w v₁ v₂) :
      Matches w (.numeral v₁) f₁ (.numeral v₂) f₂
  | text {s : String} {f₁ f₂ : FrameId} : Matches w (.text s) f₁ (.text s) f₂
  | truth {b : Bool} {f₁ f₂ : FrameId} : Matches w (.truth b) f₁ (.truth b) f₂
  | name {x y : String} {f₁ f₂ : FrameId}
      (read : S.Simulates w S.values (Direct.read f₁ x) (Direct.read f₂ y)) :
      Matches w (.name x) f₁ (.name y) f₂
  | define {x : String} {e₁ e₂ : Expr} {f₁ f₂ : FrameId} (value : S.code w e₁ f₁ e₂ f₂)
      (assignable : S.Assignable w x f₁ f₂) : Matches w (.define x e₁) f₁ (.define x e₂) f₂
  | letrec {x : String} {e₁ e₂ b₁ b₂ : Expr} {f₁ f₂ : FrameId}
      (enter : S.Simulates w
        (fun w' g₁ g₂ => S.code w' e₁ g₁ e₂ g₂ ∧ S.code w' b₁ g₁ b₂ g₂ ∧ S.Assignable w' x g₁ g₂)
        (Eval.bindFrame f₁ x .unassigned) (Eval.bindFrame f₂ x .unassigned)) :
      Matches w (.letrec x e₁ b₁) f₁ (.letrec x e₂ b₂) f₂
  | quote {d₁ d₂ : Datum} {f₁ f₂ : FrameId} (datum : S.values w d₁ d₂) :
      Matches w (.quote d₁) f₁ (.quote d₂) f₂
  | binary {op : String} {e₁ e₂ b₁ b₂ : Expr} {f₁ f₂ : FrameId} (left : S.code w e₁ f₁ e₂ f₂)
      (right : S.code w b₁ f₁ b₂ f₂) : Matches w (.binary op e₁ b₁) f₁ (.binary op e₂ b₂) f₂
  | branch {e₁ e₂ b₁ b₂ c₁ c₂ : Expr} {f₁ f₂ : FrameId} (test : S.code w e₁ f₁ e₂ f₂)
      (yes : S.code w b₁ f₁ b₂ f₂) (no : S.code w c₁ f₁ c₂ f₂) :
      Matches w (.branch e₁ b₁ c₁) f₁ (.branch e₂ b₂ c₂) f₂
  | begin {es₁ es₂ : List Expr} {f₁ f₂ : FrameId}
      (parts : List.Forall₂ (fun e₁ e₂ => S.code w e₁ f₁ e₂ f₂) es₁ es₂) :
      Matches w (.begin es₁) f₁ (.begin es₂) f₂
  | lambda {x : String} {e₁ e₂ : Expr} {f₁ f₂ : FrameId} (body : S.closures w x e₁ f₁ e₂ f₂) :
      Matches w (.lambda x e₁) f₁ (.lambda x e₂) f₂
  | apply {e₁ e₂ b₁ b₂ : Expr} {f₁ f₂ : FrameId} (callee : S.code w e₁ f₁ e₂ f₂)
      (arg : S.code w b₁ f₁ b₂ f₂) : Matches w (.apply e₁ b₁) f₁ (.apply e₂ b₂) f₂
  | loop {i u : String} {e b c d : Expr} {f₁ f₂ : FrameId} :
      Matches w (.loop i e b u c d) f₁ (.loop i e b u c d) f₂
  | stray {d : Datum} {f₁ f₂ : FrameId} : Matches w (.stray d) f₁ (.stray d) f₂

/-- In a frame of each side, code of a class is related to itself, with all that can be done
    there. -/
structure SelfRelated (w : World) (C : Expr → Prop) (D : Datum → Prop) (f₁ f₂ : FrameId) :
    Prop where
  hereditary : Expr.Hereditary C D
  values : ∀ {d : Datum}, D d → S.values w d d
  code : ∀ {e : Expr}, C e → S.code w e f₁ e f₂
  closures : ∀ {x : String} {e : Expr}, C e → S.closures w x e f₁ e f₂
  read : ∀ x, S.Simulates w S.values (Direct.read f₁ x) (Direct.read f₂ x)
  assignable : ∀ x, S.Assignable w x f₁ f₂
  enter : ∀ x, S.Simulates w
    (fun w' g₁ g₂ => (∀ {e : Expr}, C e → S.code w' e g₁ e g₂) ∧ S.Assignable w' x g₁ g₂)
    (Eval.bindFrame f₁ x .unassigned) (Eval.bindFrame f₂ x .unassigned)

variable {S} in
theorem SelfRelated.matches_self {w : World} {C : Expr → Prop} {D : Datum → Prop}
    {f₁ f₂ : FrameId} (hf : S.SelfRelated w C D f₁ f₂) {e : Expr} (he : C e) :
    S.Matches w e f₁ e f₂ := by
  have hered := hf.hereditary
  cases e with
  | numeral v => exact .numeral (hf.values (hered.numeral he))
  | text s => exact .text
  | truth b => exact .truth
  | name x => exact .name (hf.read x)
  | define x e => exact .define (hf.code (hered.define he)) (hf.assignable x)
  | letrec x e b =>
    refine .letrec fun m₁ m₂ hm => ?_
    obtain ⟨w', hw, hm', hr⟩ := hf.enter x m₁ m₂ hm
    refine ⟨w', hw, hm', hr.mono fun g₁ g₂ hg => ?_⟩
    exact ⟨hg.1 (hered.letrec he).1, hg.1 (hered.letrec he).2, hg.2⟩
  | quote d => exact .quote (hf.values (hered.quote he))
  | binary op l r => exact .binary (hf.code (hered.binary he).1) (hf.code (hered.binary he).2)
  | branch t y n =>
    obtain ⟨ht, hy, hn⟩ := hered.branch he
    exact .branch (hf.code ht) (hf.code hy) (hf.code hn)
  | begin es =>
    have hes := hered.begin he
    exact .begin (List.forall₂_same.mpr fun e hmem => hf.code (hes e hmem))
  | lambda x e => exact .lambda (hf.closures (hered.lambda he))
  | apply e b => exact .apply (hf.code (hered.apply he).1) (hf.code (hered.apply he).2)
  | loop i s t u c b => exact .loop
  | stray d => exact .stray

end Correspondence

/-- A correspondence that the elementary computations preserve, and that still holds of what
    it has held of when the world grows. -/
structure Simulation (World : Type) [Preorder World] extends Correspondence World where
  oneToOne : ∀ w, Value.OneToOne (ids w)
  ids_mono : ∀ {w w'}, w ≤ w' → ∀ i j, ids w i j → ids w' i j
  closures_mono : ∀ {w w'}, w ≤ w' → ∀ x e₁ f₁ e₂ f₂,
    closures w x e₁ f₁ e₂ f₂ → closures w' x e₁ f₁ e₂ f₂
  code_mono : ∀ {w w'}, w ≤ w' → ∀ {e₁ f₁ e₂ f₂}, code w e₁ f₁ e₂ f₂ → code w' e₁ f₁ e₂ f₂
  write : ∀ w line, toCorrespondence.Simulates w (fun _ _ _ => True)
    (Eval.write line) (Eval.write line)
  freshId : ∀ w, toCorrespondence.Simulates w ids Eval.freshId Eval.freshId
  /-- A closure that is called: the argument is bound, and the bodies are related code. -/
  call : ∀ {w x e₁ f₁ e₂ f₂ v₁ v₂}, closures w x e₁ f₁ e₂ f₂ →
    toCorrespondence.values w v₁ v₂ →
    toCorrespondence.Simulates w (fun w' g₁ g₂ => code w' e₁ g₁ e₂ g₂)
      (Eval.bindFrame f₁ x v₁) (Eval.bindFrame f₂ x v₂)

namespace Simulation

open Correspondence

variable {World : Type} [Preorder World] (S : Simulation World) {w : World}

theorem values_mono {w w' : World} (hw : w ≤ w') {v₁ v₂ : Datum} (h : S.values w v₁ v₂) :
    S.values w' v₁ v₂ :=
  Value.Alike.mono h (S.ids_mono hw) (S.closures_mono hw)

/-! ## One level of evaluation -/

/-- The texts of related values are equal. -/
theorem text_simulates {text : Datum → Nat → Outcome String}
    (htext : ∀ {ids closures excused v v' b b'}, Value.Alike ids closures v v' →
      Stop.Within excused b b' → Outcome.Follows excused Eq (text v b) (text v' b'))
    {v₁ v₂ : Datum} (hv : S.values w v₁ v₂) (b : Nat) :
    S.Simulates w (fun _ => Eq) (Eval.ofOutcome (text v₁ b)) (Eval.ofOutcome (text v₂ b)) :=
  .ofOutcome (htext hv (.inl rfl))

theorem primitive_simulates {v₁ v₂ : Datum} (hv : S.values w v₁ v₂) (b : Nat)
    (action : Primitive) :
    S.Simulates w S.values (action.call b v₁) (action.call b v₂) := by
  cases action with
  | identity => exact .pure hv
  | host f =>
    refine (S.freshId w).bind fun w' _ i j hij => ?_
    rw [hv.scalar?_eq]
    exact .pure (.ofScalar hij _)
  | print =>
    refine (S.text_simulates Value.Alike.display hv b).bind fun w' _ s t hst => ?_
    subst hst
    exact (S.write w' s).bind fun _ _ _ _ _ => .pure (.atom rfl)

theorem operate_simulates {v₁ v₂ u₁ u₂ : Datum} {i j : ObjectId} (hv : S.values w v₁ v₂)
    (hu : S.values w u₁ u₂) (hij : S.ids w i j) (b : Nat) (op : String) :
    S.Simulates w S.values (Eval.ofOutcome (v₁.operate b i op u₁))
      (Eval.ofOutcome (v₂.operate b j op u₂)) :=
  .ofOutcome (hv.operate (S.oneToOne w) hu hij (.inl rfl) op)

theorem apply_simulates {call₁ call₂ : Evaluation} (hcall : S.Tracks call₁ call₂)
    {h₁ h₂ v₁ v₂ : Datum} (hh : S.values w h₁ h₂) (hv : S.values w v₁ v₂) (b : Nat) :
    S.Simulates w S.values (Direct.apply call₁ b h₁ v₁) (Direct.apply call₂ b h₂ v₂) := by
  have hreject : S.Simulates w S.values
      (do Eval.fault (.notProcedure (← Eval.ofOutcome (h₁.inspect b))))
      (do Eval.fault (.notProcedure (← Eval.ofOutcome (h₂.inspect b)))) := by
    refine (S.text_simulates Value.Alike.inspect hh b).bind fun w' _ s t hst => ?_
    subst hst
    exact .throw _
  cases hh with
  | closure _ hc =>
    refine (S.call hc hv).bind fun w' _ g₁ g₂ hcode => ?_
    exact hcall w' _ _ _ _ hcode
  | native _ => exact S.primitive_simulates hv b _
  | atom ha => cases h₁ <;> first | exact hreject | simp [Value.isAtom] at ha
  | _ => exact hreject

theorem sequence_simulates {inner₁ inner₂ last₁ last₂ : Evaluation}
    (hinner : S.Tracks inner₁ inner₂) (hlast : S.Tracks last₁ last₂) {f₁ f₂ : FrameId}
    {es₁ es₂ : List Expr} (h : List.Forall₂ (fun e₁ e₂ => S.code w e₁ f₁ e₂ f₂) es₁ es₂) :
    S.Simulates w S.values (Direct.sequence inner₁ last₁ f₁ es₁)
      (Direct.sequence inner₂ last₂ f₂ es₂) := by
  induction es₁ generalizing w es₂ with
  | nil =>
    cases h
    exact .throw _
  | cons e es ih =>
    obtain ⟨e', es', he, hes, rfl⟩ := List.forall₂_cons_left_iff.mp h
    cases hes with
    | nil => exact hlast w _ _ _ _ he
    | cons he' hes =>
      refine (hinner w _ _ _ _ he).bind fun w' hw _ _ _ => ih ?_
      exact .cons (S.code_mono hw he') (hes.imp fun _ _ => S.code_mono hw)

theorem form_simulates {inner₁ inner₂ last₁ last₂ call₁ call₂ : Evaluation}
    (hinner : S.Tracks inner₁ inner₂) (hlast : S.Tracks last₁ last₂)
    (hcall : S.Tracks call₁ call₂) (b : Nat) {e₁ e₂ : Expr} {f₁ f₂ : FrameId}
    (h : S.Matches w e₁ f₁ e₂ f₂) :
    S.Simulates w S.values (Direct.form inner₁ last₁ call₁ b e₁ f₁)
      (Direct.form inner₂ last₂ call₂ b e₂ f₂) := by
  cases h with
  | numeral hv => exact .pure hv
  | text => exact .pure (.atom rfl)
  | truth => exact .pure (.atom rfl)
  | name hread => exact hread
  | define he hx =>
    refine (hinner w _ _ _ _ he).bind fun w' hw v₁ v₂ hv => ?_
    refine (hx w' hw v₁ v₂ hv).bind fun w'' hw' _ _ _ => ?_
    exact .pure (S.values_mono hw' hv)
  | letrec henter =>
    refine henter.bind fun w' _ g₁ g₂ hg => ?_
    obtain ⟨he, hbody, hx⟩ := hg
    refine (hinner w' _ _ _ _ he).bind fun w'' hw v₁ v₂ hv => ?_
    rw [hv.isProcedure_eq]
    split
    · refine (hx w'' hw v₁ v₂ hv).bind fun w₃ hw' _ _ _ => ?_
      exact hlast w₃ _ _ _ _ (S.code_mono (hw.trans hw') hbody)
    · refine (S.text_simulates Value.Alike.inspect hv b).bind fun _ _ s t hst => ?_
      subst hst
      exact .throw _
  | quote hd => exact .pure hd
  | binary hl hr =>
    refine (hinner w _ _ _ _ hl).bind fun w₁ hw₁ v₁ v₂ hv => ?_
    refine (hinner w₁ _ _ _ _ (S.code_mono hw₁ hr)).bind fun w₂ hw₂ u₁ u₂ hu => ?_
    refine (S.freshId w₂).bind fun w₃ hw₃ i j hij => ?_
    have hv := S.values_mono (hw₂.trans hw₃) hv
    have hu := S.values_mono hw₃ hu
    exact S.operate_simulates hv hu hij b _
  | branch ht hy hn =>
    refine (hinner w _ _ _ _ ht).bind fun w' hw v₁ v₂ hv => ?_
    rw [hv.isTrue_eq]
    split
    · exact hlast w' _ _ _ _ (S.code_mono hw hy)
    · exact hlast w' _ _ _ _ (S.code_mono hw hn)
  | begin hes => exact S.sequence_simulates hinner hlast hes
  | lambda hc =>
    refine (S.freshId w).bind fun w' hw i j hij => ?_
    exact .pure (.closure hij (S.closures_mono hw _ _ _ _ _ hc))
  | apply hcallee harg =>
    refine (hinner w _ _ _ _ hcallee).bind fun w₁ hw₁ h₁ h₂ hh => ?_
    refine (hinner w₁ _ _ _ _ (S.code_mono hw₁ harg)).bind fun w₂ hw₂ v₁ v₂ hv => ?_
    exact S.apply_simulates hcall (S.values_mono hw₂ hh) hv b
  | loop | stray =>
    refine Simulates.bind (R := fun _ => Eq) (.ofOutcome (.refl _)) fun _ _ s t hst => ?_
    subst hst
    exact .throw _

end Simulation

end MiniLisp
