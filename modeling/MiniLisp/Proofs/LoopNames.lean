import Mathlib
import MiniLisp.Proofs.Layout
import MiniLisp.Proofs.References
import MiniLisp.Proofs.Renaming
import MiniLisp.Proofs.Unrolling

/-!
# The names of loops

Two expansions of one program differ in the names that were generated for its loops. They are
evaluated in lockstep: both make the same frames in the same order, and where one of them binds
a procedure under a generated name the other one binds its counterpart. A generated name is
read nowhere but in the frames of its own loop.

Quoted closures may belong to frames that were there before the program was started, and to its
root frame. Their code is the same in both runs. It sees no frame in which the names of loops are
bound, as these are inside the root.

* `LoopNames.Code`: what is evaluated in lockstep.
* `LoopNames.form_lockstep`, `LoopNames.evaluate_tracks`: one level of evaluation, and all.
* `loop_names_unobservable`: no choice of names makes a difference to output, fault or value.
-/

namespace MiniLisp

namespace LoopNames

/-! ## Code that differs in the names of loops -/

section Code

variable (used : List String) (base : FrameId)

/-- Two expansions of one expression; the closures in its data are of frames before `base`. -/
def Twins (e₁ e₂ : Expr) : Prop :=
  ∃ e gs hs, Expr.Expands used (· < base) gs e e₁ ∧ Expr.Expands used (· < base) hs e e₂

/-- The parts of an expanded loop in which its procedure is called, under the name `g` in the
    first run and under the name `h` in the second one. -/
inductive LoopCode (g h : String) : Expr → Expr → Prop
  | head : LoopCode g h (.name g) (.name h)
  | next {e₁ e₂ : Expr} (arg : Twins used base e₁ e₂) :
      LoopCode g h (.apply (.name g) e₁) (.apply (.name h) e₂)
  | again {b₁ b₂ u₁ u₂ : Expr} (body : Twins used base b₁ b₂) (update : Twins used base u₁ u₂) :
      LoopCode g h (.begin [b₁, .apply (.name g) u₁]) (.begin [b₂, .apply (.name h) u₂])
  | procedure {t₁ t₂ b₁ b₂ u₁ u₂ : Expr} (test : Twins used base t₁ t₂)
      (body : Twins used base b₁ b₂) (update : Twins used base u₁ u₂) :
      LoopCode g h (Expr.loopBody g t₁ u₁ b₁) (Expr.loopBody h t₂ u₂ b₂)

/-- The place of a loop's frame, in which each run binds the procedure under its own name. -/
def loopPlace (g h : String) (v₁ v₂ : Datum) (f : FrameId) : Place where
  common := false
  outer := some f
  extra₁ := [(g, v₁)]
  extra₂ := [(h, v₂)]

/-- The frame is that of a loop with the given names, or of one of its rounds. -/
def InLoop (w : Layout) (g h : String) (f : FrameId) : Prop :=
  g ∉ used ∧ h ∉ used ∧ ∃ L o id i e₁ e₂, i ∈ used ∧ LoopCode used base g h e₁ e₂ ∧
    w.Has L (loopPlace g h (.closure id i e₁ L) (.closure id i e₂ L) o) ∧
    (f = L ∨ w.Has f { common := false, outer := some L })

/-- What is evaluated in lockstep: the code of closures from before, the program itself, in frames
    of either sort, and the calls in its loops. -/
inductive Code (w : Layout) : Expr → FrameId → Expr → FrameId → Prop
  | shared {e : Expr} {f : FrameId} {p : Place} (frame : w.Has f p) (common : p.common = true)
      (data : e.ClosuresIn (· < base)) : Code w e f e f
  | twins {e₁ e₂ : Expr} {f : FrameId} {p : Place} (frame : w.Has f p)
      (twins : Twins used base e₁ e₂) : Code w e₁ f e₂ f
  | loop {g h : String} {e₁ e₂ : Expr} {f : FrameId} (frame : InLoop used base w g h f)
      (code : LoopCode used base g h e₁ e₂) : Code w e₁ f e₂ f

/-- Closures of the same frame whose bodies are evaluated in lockstep inside it. -/
def Closures (w : Layout) (x : String) (e₁ : Expr) (f₁ : FrameId) (e₂ : Expr) (f₂ : FrameId) :
    Prop :=
  f₁ = f₂ ∧ ∃ p, w.Has f₁ p ∧ p.Covers used x ∧ ∀ w', w ≤ w' → ∀ g,
    w'.Has g { common := p.common, outer := some f₁ } → Code used base w' e₁ g e₂ g

/-- The frames before `base` are the same in both runs. -/
def Inherited (w : Layout) : Prop := ∀ f < base, ∃ p, w.Has f p ∧ p.common = true

end Code

variable {used : List String} {base : FrameId} {w w' : Layout} {f : FrameId} {p : Place}
  {g h : String}

/-! ## The simulation -/

theorem InLoop.mono (hf : InLoop used base w g h f) (hw : w ≤ w') :
    InLoop used base w' g h f := by
  obtain ⟨hg, hh, L, o, id, i, e₁, e₂, hi, hcode, hL, hfL⟩ := hf
  exact ⟨hg, hh, L, o, id, i, e₁, e₂, hi, hcode, hL.mono hw, hfL.imp_right fun hf => hf.mono hw⟩

theorem InLoop.has (hf : InLoop used base w g h f) : ∃ p, w.Has f p := by
  obtain ⟨_, _, L, o, id, i, e₁, e₂, _, _, hL, rfl | hf⟩ := hf
  · exact ⟨_, hL⟩
  · exact ⟨_, hf⟩

theorem Code.mono (hw : w ≤ w') {e₁ : Expr} {f₁ : FrameId} {e₂ : Expr} {f₂ : FrameId}
    (hcode : Code used base w e₁ f₁ e₂ f₂) : Code used base w' e₁ f₁ e₂ f₂ := by
  cases hcode with
  | shared hp hcommon hdata => exact .shared (hp.mono hw) hcommon hdata
  | twins hp htwins => exact .twins (hp.mono hw) htwins
  | loop hf hcode => exact .loop (hf.mono hw) hcode

theorem Closures.mono {w w' : Layout} (hw : w ≤ w') (x : String) (e₁ : Expr) (f₁ : FrameId)
    (e₂ : Expr) (f₂ : FrameId) (hc : Closures used base w x e₁ f₁ e₂ f₂) :
    Closures used base w' x e₁ f₁ e₂ f₂ := by
  obtain ⟨rfl, p, hp, hx, hbody⟩ := hc
  exact ⟨rfl, p, hp.mono hw, hx, fun w'' hw' => hbody w'' (hw.trans hw')⟩

theorem Inherited.push (hw : Inherited base w) (p : Place) : Inherited base (w.push p) := by
  intro f hf
  obtain ⟨q, hq, hcommon⟩ := hw f hf
  exact ⟨q, hq.mono (Layout.le_push w p), hcommon⟩

variable (used base) in
/-- Runs that differ in the names of loops. -/
def simulation : Simulation Layout :=
  Layout.simulation used (Inherited base) (Closures used base) (Code used base)
    (fun _ _ hw => hw.push _) Closures.mono Code.mono fun hc => hc

/-- The computations of two values are related. -/
abbrev Simulates (used : List String) (base : FrameId) (w : Layout) (x y : Eval Datum) : Prop :=
  (simulation used base).Simulates w (simulation used base).values x y

/-! ### Code of the same form -/

theorem values_of_closuresIn (hw : Inherited base w) {d : Datum}
    (hd : d.ClosuresIn (· < base)) : (simulation used base).values w d d := by
  refine hd.alike (fun _ => rfl) fun x e f hf he => ?_
  obtain ⟨p, hp, hcommon⟩ := hw f hf
  exact ⟨rfl, p, hp, .inl hcommon, fun w' _ g hg => .shared hg hcommon he⟩

theorem selfRelated (hw : Inherited base w) (hp : w.Has f p) (hcommon : p.common = true) :
    (simulation used base).SelfRelated w (Expr.ClosuresIn (· < base)) (Value.ClosuresIn (· < base))
      f f where
  hereditary := Expr.closuresIn_hereditary _
  values hd := values_of_closuresIn hw hd
  code he := .shared hp hcommon he
  closures he := ⟨rfl, p, hp, .inl hcommon, fun w' _ g hg => .shared hg hcommon he⟩
  read x := Layout.read_simulates hp (.inl hcommon)
  assignable x := Layout.assignable hp (.inl hcommon)
  enter x := by
    intro m₁ m₂ hm
    have hv : (simulation used base).values w .unassigned .unassigned := .atom rfl
    obtain ⟨w', hw', hm', hr⟩ := Layout.bindFrame_simulates Closures.mono (fun h => h.push _) hp
      (.inl hcommon) hv m₁ m₂ hm
    refine ⟨w', hw', hm', hr.mono ?_⟩
    rintro g _ ⟨rfl, hg⟩
    exact ⟨fun he => .shared hg hcommon he, Layout.assignable hg (.inl hcommon)⟩

theorem twins_of_begin {es es₁ es₂ : List Expr} {gs hs : List String}
    (h₁ : Expr.Expands used (· < base) gs (.begin es) (.begin es₁))
    (h₂ : Expr.Expands used (· < base) hs (.begin es) (.begin es₂)) :
    List.Forall₂ (Twins used base) es₁ es₂ := by
  induction es generalizing gs hs es₁ es₂ with
  | nil =>
    cases h₁
    cases h₂
    exact .nil
  | cons e es ih =>
    cases h₁ with
    | beginCons he₁ hes₁ =>
      cases h₂ with
      | beginCons he₂ hes₂ => exact .cons ⟨e, _, _, he₁, he₂⟩ (ih hes₁ hes₂)

/-- Except for loops, two expansions of an expression are of the same form. -/
theorem matches_twins (hw : Inherited base w) (hp : w.Has f p) {e e₁ e₂ : Expr}
    {gs hs : List String} (h₁ : Expr.Expands used (· < base) gs e e₁)
    (h₂ : Expr.Expands used (· < base) hs e e₂) (hloop : ∀ i s t a u b, e ≠ .loop i s t a u b) :
    (simulation used base).Matches w e₁ f e₂ f := by
  have hcode : ∀ {e e₁ e₂ gs hs}, Expr.Expands used (· < base) gs e e₁ →
      Expr.Expands used (· < base) hs e e₂ → Code used base w e₁ f e₂ f :=
    fun h₁ h₂ => .twins hp ⟨_, _, _, h₁, h₂⟩
  cases h₁ with
  | numeral hd =>
    cases h₂
    exact .numeral (values_of_closuresIn hw hd)
  | quote hd =>
    cases h₂
    exact .quote (values_of_closuresIn hw hd)
  | text =>
    cases h₂
    exact .text
  | truth =>
    cases h₂
    exact .truth
  | name hx =>
    cases h₂
    exact .name (Layout.read_simulates hp (.inr hx))
  | define hx he₁ =>
    cases h₂ with
    | define _ he₂ => exact .define (hcode he₁ he₂) (Layout.assignable hp (.inr hx))
  | letrec hx he₁ hb₁ =>
    cases h₂ with
    | letrec _ he₂ hb₂ =>
      refine Layout.matches_letrec Closures.mono (fun hw => hw.push _) hp (.inr hx) ?_
      intro w' _ g hg
      exact ⟨.twins hg ⟨_, _, _, he₁, he₂⟩, .twins hg ⟨_, _, _, hb₁, hb₂⟩⟩
  | binary hl₁ hr₁ =>
    cases h₂ with
    | binary hl₂ hr₂ => exact .binary (hcode hl₁ hl₂) (hcode hr₁ hr₂)
  | branch ht₁ hy₁ hn₁ =>
    cases h₂ with
    | branch ht₂ hy₂ hn₂ => exact .branch (hcode ht₁ ht₂) (hcode hy₁ hy₂) (hcode hn₁ hn₂)
  | beginNil =>
    cases h₂
    exact .begin .nil
  | beginCons he₁ hes₁ =>
    cases h₂ with
    | beginCons he₂ hes₂ =>
      have hes := twins_of_begin hes₁ hes₂
      exact .begin (.cons (hcode he₁ he₂) (hes.imp fun _ _ htwins => .twins hp htwins))
  | lambda hx he₁ =>
    cases h₂ with
    | lambda _ he₂ =>
      refine .lambda ⟨rfl, p, hp, .inr hx, fun w' _ g hg => ?_⟩
      exact .twins hg ⟨_, _, _, he₁, he₂⟩
  | apply he₁ hb₁ =>
    cases h₂ with
    | apply he₂ hb₂ => exact .apply (hcode he₁ he₂) (hcode hb₁ hb₂)
  | loop => exact absurd rfl (hloop _ _ _ _ _ _)

/-! ### Calls in loops -/

/-- In a loop, the generated names are bound to its procedure. -/
theorem read_simulates (hf : InLoop used base w g h f) :
    (simulation used base).Simulates w (simulation used base).values (Direct.read f g)
      (Direct.read f h) := by
  intro m₁ m₂ hm
  obtain ⟨hg, hh, L, o, id, i, e₁, e₂, hi, hcode, hL, hfL⟩ := hf
  have hL₁ : w.Finds Place.extra₁ g (.closure id i e₁ L) L := .here hL rfl List.lookup_cons_self
  have hL₂ : w.Finds Place.extra₂ h (.closure id i e₂ L) L := .here hL rfl List.lookup_cons_self
  have hfinds₁ : w.Finds Place.extra₁ g (.closure id i e₁ L) f :=
    hfL.elim (fun hf => hf ▸ hL₁) fun hf => .outer hf rfl rfl rfl hL₁
  have hfinds₂ : w.Finds Place.extra₂ h (.closure id i e₂ L) f :=
    hfL.elim (fun hf => hf ▸ hL₂) fun hf => .outer hf rfl rfl rfl hL₂
  rw [Layout.exec_read_of_finds hm.left hm.ordered hg hfinds₁,
    Layout.exec_read_of_finds hm.right hm.ordered hh hfinds₂]
  refine ⟨w, le_rfl, hm, .closure rfl ⟨rfl, _, hL, .inr hi, fun w' hw r hr => ?_⟩⟩
  exact .loop ⟨hg, hh, L, o, id, i, e₁, e₂, hi, hcode, hL.mono hw, .inr hr⟩ hcode

theorem matches_loopCode (hf : InLoop used base w g h f) {e₁ e₂ : Expr}
    (hcode : LoopCode used base g h e₁ e₂) : (simulation used base).Matches w e₁ f e₂ f := by
  obtain ⟨p, hp⟩ := hf.has
  cases hcode with
  | head => exact .name (read_simulates hf)
  | next harg => exact .apply (.loop hf .head) (.twins hp harg)
  | again hbody hupdate =>
    exact .begin (.cons (.twins hp hbody) (.cons (.loop hf (.next hupdate)) .nil))
  | procedure htest hbody hupdate =>
    have hresult : Twins used base (.quote loopResult) (.quote loopResult) :=
      ⟨.quote loopResult, [], [], .quote trivial, .quote trivial⟩
    exact .branch (.twins hp htest) (.loop hf (.again hbody hupdate)) (.twins hp hresult)

/-! ### Loops -/

section Loops

variable {i : String} {s₁ s₂ t₁ t₂ u₁ u₂ b₁ b₂ : Expr} {m₁ m₂ : Machine}

/-- Frames are allocated for a loop. -/
theorem alloc_loop (hm : (simulation used base).machines w m₁ m₂) (hp : w.Has f p)
    (hg : g ∉ used) (hh : h ∉ used) (v₁ v₂ : Datum) :
    (simulation used base).machines (w.push (loopPlace g h v₁ v₂ f))
      (m₁.bindFrame f g v₁) (m₂.bindFrame f h v₂) := by
  have halloc := Layout.Relates.allocExtra hm (loopPlace g h v₁ v₂ f) rfl (hm.allow.push _)
    (fun o ho => ⟨p, Option.some.inj ho ▸ hp⟩) fun x hx =>
      ⟨Bindings.get?_singleton_of_ne (ne_of_mem_of_not_mem hx hg) v₁,
        Bindings.get?_singleton_of_ne (ne_of_mem_of_not_mem hx hh) v₂⟩
  exact Layout.Relates.grow Closures.mono (Layout.le_push w _) halloc

theorem makeFrame_simulates (hp : w.Has f p) (hi : i ∈ used) (hg : g ∉ used) (hh : h ∉ used)
    (ht : Twins used base t₁ t₂) (hu : Twins used base u₁ u₂) (hb : Twins used base b₁ b₂) :
    (simulation used base).Simulates w (fun w' L L' => L = L' ∧ InLoop used base w' g h L)
      (Unrolled.makeFrame g i t₁ u₁ b₁ f) (Unrolled.makeFrame h i t₂ u₂ b₂ f) := by
  intro m₁ m₂ hm
  have hsize : m₁.heap.size = m₂.heap.size := hm.left.size.trans hm.right.size.symm
  let v₁ : Datum := .closure m₁.nextId i (Expr.loopBody g t₁ u₁ b₁) m₁.heap.size
  let v₂ : Datum := .closure m₁.nextId i (Expr.loopBody h t₂ u₂ b₂) m₁.heap.size
  have hv₂ : .closure m₂.nextId i (Expr.loopBody h t₂ u₂ b₂) m₂.heap.size = v₂ := by
    rw [← hm.nextId, ← hsize]
  have hhas := Layout.has_push w (loopPlace g h v₁ v₂ f)
  rw [← hm.left.size] at hhas
  rw [Unrolled.exec_makeFrame, Unrolled.exec_makeFrame, hv₂]
  refine ⟨_, Layout.le_push w _, (alloc_loop hm hp hg hh v₁ v₂).takeId, hsize, hg, hh, ?_⟩
  exact ⟨_, f, _, i, _, _, hi, .procedure ht hb hu, hhas, .inl rfl⟩

/-- An evaluation makes a closure of a `lambda`, unless it stops at each of them. -/
def MakesClosures (ev : Evaluation) : Prop :=
  (∃ s, ∀ x e f, ev (.lambda x e) f = throw s) ∨
    ∀ x e f, ev (.lambda x e) f = do pure (.closure (← Eval.freshId) x e f)

/-- A level of evaluation of two expansions of a loop. -/
theorem ofLoop_simulates {inner last call : Evaluation} (hinner : MakesClosures inner)
    (hlast : (simulation used base).Tracks last last) (hp : w.Has f p)
    (hi : i ∈ used) (hg : g ∉ used) (hh : h ∉ used) (hs : Twins used base s₁ s₂)
    (ht : Twins used base t₁ t₂) (hu : Twins used base u₁ u₂) (hb : Twins used base b₁ b₂)
    (budget : Nat) :
    Simulates used base w (Direct.form inner last call budget (Expr.ofLoop g i s₁ t₁ u₁ b₁) f)
      (Direct.form inner last call budget (Expr.ofLoop h i s₂ t₂ u₂ b₂) f) := by
  rcases hinner with ⟨stop, hstop⟩ | hmake
  · -- the frames are made, but no procedure is bound in them
    intro m₁ m₂ hm
    have hexec : ∀ {x s t u b} (m : Machine),
        (Direct.form inner last call budget (Expr.ofLoop x i s t u b) f).exec m =
          (.error stop, m.bindFrame f x .unassigned) := by
      intro x s t u b m
      rw [Expr.ofLoop, Direct.form, Eval.exec_bind_ok (Eval.exec_bindFrame ..), hstop]
      rfl
    rw [hexec, hexec]
    exact ⟨_, Layout.le_push w _, alloc_loop hm hp hg hh .unassigned .unassigned, rfl⟩
  · rw [Unrolled.form_ofLoop hmake, Unrolled.form_ofLoop hmake]
    refine (makeFrame_simulates hp hi hg hh ht hu hb).bind ?_
    rintro w₁ _ L _ ⟨rfl, hL⟩
    exact hlast w₁ _ _ _ _ (.loop hL (.next hs))

end Loops

/-! ### All code -/

/-- Related code is evaluated in lockstep. -/
def Lockstep (used : List String) (base : FrameId) (ev : Evaluation) : Prop :=
  (simulation used base).Tracks ev ev ∧ MakesClosures ev

theorem form_lockstep {inner last call : Evaluation} (budget : Nat)
    (hinner : Lockstep used base inner) (hlast : Lockstep used base last)
    (hcall : Lockstep used base call) :
    Lockstep used base (Direct.form inner last call budget) := by
  -- the machines are introduced first: that they are related says which frames are inherited
  refine ⟨fun w e₁ f₁ e₂ f₂ hcode m₁ m₂ hm => ?_, .inr fun _ _ _ => rfl⟩
  have hform (hmatches : (simulation used base).Matches w e₁ f₁ e₂ f₂) :=
    (simulation used base).form_simulates hinner.1 hlast.1 hcall.1 budget hmatches m₁ m₂ hm
  cases hcode with
  | shared hp hcommon hdata => exact hform ((selfRelated hm.allow hp hcommon).matches_self hdata)
  | loop hf hcode => exact hform (matches_loopCode hf hcode)
  | twins hp htwins =>
    obtain ⟨e, gs, hs, h₁, h₂⟩ := htwins
    rcases e.eq_loop_or_ne with ⟨i, s, t, a, u, b, rfl⟩ | hloop
    · cases h₁ with
      | loop hi hg hu₁ ht₁ hb₁ hs₁ =>
        cases h₂ with
        | loop _ hh hu₂ ht₂ hb₂ hs₂ =>
          exact ofLoop_simulates hinner.2 hlast.1 hp hi hg hh ⟨_, _, _, hs₁, hs₂⟩
            ⟨_, _, _, ht₁, ht₂⟩ ⟨_, _, _, hu₁, hu₂⟩ ⟨_, _, _, hb₁, hb₂⟩ budget m₁ m₂ hm
    · exact hform (matches_twins hm.allow hp h₁ h₂ hloop)

theorem lockstep_throw (s : Stop) : Lockstep used base fun _ _ => throw s :=
  ⟨fun _ _ _ _ _ _ => .throw s, .inl ⟨s, fun _ _ _ => rfl⟩⟩

theorem evaluate_tracks (used : List String) (base : FrameId) (rounds budget : Nat) :
    (simulation used base).Tracks (evaluate rounds budget) (evaluate rounds budget) :=
  (evaluate_induction (lockstep_throw .exhausted) (lockstep_throw .unfinished) form_lockstep
    rounds budget).1

end LoopNames

/-! ## Answers -/

/-- Two endings that cannot be told apart from outside: the output is the same, and so is the
    reason to stop, or else the text of the value. -/
def SameAnswer (a₁ a₂ : Outcome Datum × Machine) : Prop :=
  a₁.2.output = a₂.2.output ∧ Outcome.Rel (fun v₁ v₂ => ∀ b, v₁.display b = v₂.display b) a₁.1 a₂.1

theorem SameAnswer.bind_ofOutcome {α : Type} {x y : Outcome α} {j k : α → Eval Datum}
    {m : Machine} (h : Outcome.Rel (fun a b => SameAnswer ((j a).exec m) ((k b).exec m)) x y) :
    SameAnswer ((Eval.ofOutcome x >>= j).exec m) ((Eval.ofOutcome y >>= k).exec m) := by
  cases x with
  | ok a =>
    obtain ⟨b, rfl, hab⟩ := h.ok_left
    exact hab
  | error s =>
    obtain rfl := h.error_left
    exact ⟨rfl, rfl⟩

theorem SameAnswer.reportExhaustion {x y : Eval Datum} {m : Machine}
    (h : SameAnswer (x.exec m) (y.exec m)) :
    SameAnswer ((reportExhaustion x).exec m) ((reportExhaustion y).exec m) := by
  rw [MiniLisp.reportExhaustion, MiniLisp.reportExhaustion, Eval.exec_tryCatch, Eval.exec_tryCatch]
  generalize x.exec m = a₁ at h ⊢
  generalize y.exec m = a₂ at h ⊢
  obtain ⟨r₁, m₁⟩ := a₁
  obtain ⟨r₂, m₂⟩ := a₂
  obtain ⟨houtput, hr⟩ := h
  cases r₁ with
  | ok v₁ =>
    obtain ⟨v₂, rfl, hv⟩ := hr.ok_left
    exact ⟨houtput, hv⟩
  | error s =>
    obtain rfl := hr.error_left
    cases s <;> exact ⟨houtput, rfl⟩

namespace LoopNames

variable {m : Machine} {budget : Nat} {e e₁ e₂ : Expr} {names₁ names₂ : FreshNames}

/-- The frames of a machine before a program is started. -/
def inherited (m : Machine) : Layout where
  size := m.heap.size
  place f := some { common := true, outer := m.heap.outer? f }

theorem inherited_has {f : FrameId} (hf : f < m.heap.size) :
    (inherited m).Has f { common := true, outer := m.heap.outer? f } := ⟨hf, rfl⟩

theorem eq_of_inherited_has {f : FrameId} {p : Place} (hp : (inherited m).Has f p) :
    p = { common := true, outer := m.heap.outer? f } := (Option.some.inj hp.2).symm

theorem inherited_relates {used : List String} (hm : m.Framed) :
    (simulation used m.heap.size).machines (inherited m) m m := by
  have hallow : Inherited m.heap.size (inherited m) := fun f hf => ⟨_, inherited_has hf, rfl⟩
  have hdescribes : ∀ extra, (inherited m).Describes used extra m.heap := by
    intro extra
    refine ⟨rfl, fun f p hp => ?_, fun f p hp x hx => ?_⟩
    · rw [eq_of_inherited_has hp]
    · exact absurd (.inl (by rw [eq_of_inherited_has hp])) hx
  refine ⟨hallow, ?_, hdescribes _, hdescribes _, ?_, rfl, rfl⟩
  · intro f p o hp ho
    rw [eq_of_inherited_has hp] at ho ⊢
    have hlt := hm.outer f hp.1 o ho
    exact ⟨hlt, _, inherited_has (Nat.lt_trans hlt hp.1), fun _ => rfl⟩
  · intro f p hp x _
    cases hv : m.heap.boundIn? x f with
    | none => exact .none
    | some v => exact .some (values_of_closuresIn hallow (hm.closures f hp.1 x v hv))

/-- In a new root frame, two expansions of a program are related code. -/
theorem root_related {used : List String} (hm : m.Framed)
    (htwins : Twins used m.withRoot.heap.size e₁ e₂) :
    ∃ w, Code used m.withRoot.heap.size w e₁ m.heap.size e₂ m.heap.size ∧
      (simulation used m.withRoot.heap.size).machines w m.withRoot m.withRoot := by
  have hroot : m.heap.size < m.withRoot.heap.size := m.size_withRoot ▸ Nat.lt_succ_self _
  exact ⟨inherited m.withRoot, .twins (inherited_has hroot) htwins, inherited_relates hm.withRoot⟩

/-- Two expansions of a program give the same answer in a new root frame. -/
theorem evaluate_sameAnswer (hm : m.Framed) (he : e.ClosuresIn (· ≤ m.heap.size))
    (h₁ : ((e.expand budget).exec names₁).1 = .ok e₁)
    (h₂ : ((e.expand budget).exec names₂).1 = .ok e₂) (rounds b : Nat) :
    SameAnswer ((Eval.newRoot >>= evaluate rounds b e₁).exec m)
      ((Eval.newRoot >>= evaluate rounds b e₂).exec m) := by
  have he : e.ClosuresIn (· < m.withRoot.heap.size) := by
    rw [m.size_withRoot]
    exact Expr.closuresIn_mono (fun _ => Nat.lt_succ_of_le) e he
  obtain ⟨gs, _, hexp₁⟩ := Expr.expand_expands he (Prod.ext h₁ rfl)
  obtain ⟨hs, _, hexp₂⟩ := Expr.expand_expands he (Prod.ext h₂ rfl)
  obtain ⟨w, hcode, hroot⟩ := root_related hm ⟨e, gs, hs, hexp₁, hexp₂⟩
  rw [Eval.exec_bind_ok (Eval.exec_newRoot m), Eval.exec_bind_ok (Eval.exec_newRoot m)]
  obtain ⟨w', _, hm', hr⟩ :=
    evaluate_tracks e.vocabulary m.withRoot.heap.size rounds b w _ _ _ _ hcode _ _ hroot
  refine ⟨hm'.output, hr.mono fun v₁ v₂ hv b => ?_⟩
  exact (Value.Alike.display hv (.inl rfl)).eq

theorem run_sameAnswer (hm : m.Framed) (he : e.ClosuresIn (· ≤ m.heap.size)) (limits : Limits)
    (stem₁ stem₂ : String) :
    SameAnswer ((run limits stem₁ e).exec m) ((run limits stem₂ e).exec m) := by
  have hread : Outcome.Rel Eq (e.ofProgram limits.stack) (e.ofProgram limits.stack) :=
    Outcome.rel_eq_iff.mpr rfl
  refine SameAnswer.reportExhaustion (.bind_ofOutcome (hread.mono_of_eq ?_))
  rintro e' _ he' _ rfl
  have hnames := Expr.expand_rename limits.stack e' { stem := stem₁ } { stem := stem₂ }
  refine .bind_ofOutcome (hnames.mono_of_eq fun e₁ e₂ h₁ h₂ _ => ?_)
  exact evaluate_sameAnswer hm (Expr.ofProgram_closuresIn he he') h₁ h₂ limits.rounds limits.stack

end LoopNames

/-- No choice of names for loops can be observed. With any two supplies of names, the expansion
    of a program fails with the same fault, or it succeeds, and the results differ in a
    one-to-one renaming that leaves the names of the program alone; evaluated in a new root
    frame, they give the same answer. So a program that is run gives the same answer whatever
    the names of its loops start with. The closures that it quotes are of the root frame or of
    frames of the machine, in which no reference dangles; `run_settled` says that runs leave such
    machines. -/
theorem loop_names_unobservable (budget : Nat) (e : Expr) (names₁ names₂ : FreshNames) :
    Outcome.Rel
      (fun e₁ e₂ =>
        (∃ ρ : String → String, (∀ x ∈ e.symbols, ρ x = x) ∧
          Set.InjOn ρ {x | x ∈ e₁.symbols} ∧ e₁.rename ρ = e₂) ∧
        ∀ m : Machine, m.Framed → e.ClosuresIn (· ≤ m.heap.size) → ∀ rounds b,
          SameAnswer ((Eval.newRoot >>= evaluate rounds b e₁).exec m)
            ((Eval.newRoot >>= evaluate rounds b e₂).exec m))
      ((e.expand budget).exec names₁).1 ((e.expand budget).exec names₂).1 ∧
    ∀ m : Machine, m.Framed → e.ClosuresIn (· ≤ m.heap.size) → ∀ limits stem₁ stem₂,
      SameAnswer ((run limits stem₁ e).exec m) ((run limits stem₂ e).exec m) := by
  refine ⟨?_, fun m hm he limits stem₁ stem₂ => LoopNames.run_sameAnswer hm he limits stem₁ stem₂⟩
  refine (Expr.expand_rename budget e names₁ names₂).mono_of_eq fun e₁ e₂ h₁ h₂ hrename => ?_
  exact ⟨hrename, fun m hm he => LoopNames.evaluate_sameAnswer hm he h₁ h₂⟩

namespace LoopNames

/-- A program whose value is a procedure that reads a name which a loop might be given. -/
def reader : Expr :=
  .begin [.define "loop%1" (.text "b"), .lambda "x" (.name "loop%1")]

/-- The machine after a run of it. -/
def afterReader : Machine := ((run { stack := 30, rounds := 30 } "loop" reader).exec {}).2

/-- A program that binds this name itself, and in a loop prints its value, what the procedure
    gives, and what such a procedure of its own root frame gives. -/
def clashing : Expr :=
  .begin
    [.define "loop%1" (.text "a"),
      .loop "i" (.numeral (.int 0)) (.binary "<" (.name "i") (.numeral (.int 2))) "i"
        (.binary "+" (.name "i") (.numeral (.int 1)))
        (.begin
          [.apply (.name "print") (.name "loop%1"),
            .apply (.name "print")
              (.apply (.quote (.closure 1 "x" (.name "loop%1") 0)) (.name "i")),
            .apply (.name "print")
              (.apply (.quote (.closure 1 "x" (.name "loop%1") 1)) (.name "i"))])]

end LoopNames

/-- Whatever the names of loops start with, the program prints the same. -/
theorem loop_names_unobservable_clashing :
    LoopNames.afterReader.Framed ∧
    (LoopNames.clashing.ClosuresIn (· ≤ LoopNames.afterReader.heap.size)) ∧
    ∀ stem, ((run { stack := 30, rounds := 30 } stem LoopNames.clashing).exec
      LoopNames.afterReader).2.output = "a\nb\na\na\nb\na\n" := by
  have hreader : LoopNames.reader.ClosuresIn (· < 0) := by
    simp [LoopNames.reader, Expr.ClosuresIn]
  have hframed : LoopNames.afterReader.Framed := (run_settled .empty hreader _ _).1
  have hsize : LoopNames.afterReader.heap.size = 1 := by cbv
  have hdata : LoopNames.clashing.ClosuresIn (· ≤ LoopNames.afterReader.heap.size) := by
    rw [hsize]
    simp [LoopNames.clashing, Expr.ClosuresIn, Value.ClosuresIn]
  refine ⟨hframed, hdata, fun stem => ?_⟩
  have hsame := (loop_names_unobservable 30 LoopNames.clashing {} {}).2 LoopNames.afterReader
    hframed hdata { stack := 30, rounds := 30 } stem "loop"
  exact hsame.1.trans (by cbv)

end MiniLisp
