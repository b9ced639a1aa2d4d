import Mathlib
import MiniLisp.Proofs.Expansion
import MiniLisp.Proofs.Layout
import MiniLisp.Proofs.Unrolling

/-!
# The meaning of loops

`iterative` evaluates programs whose loops have not been expanded: it makes a frame for the
loop, and then for every round a frame inside it that binds the variable. The expansion of a
program does the same as the program itself does under `iterative`.

A loop is compared with its expansion round by round. On the side of the expansion, a round is
a call of the loop's procedure, which is found under the generated name in the frame of the
loop; `Layout` keeps track of these names. With `paced` as the evaluation of the expansion both
runs stop at the same point, also where they are cut off, and so print the same.

* `iterative`: evaluation by plain recursion that runs loops as they stand.
* `LoopMeaning.run_simulates`: the rounds of a loop and of its expansion.
* `LoopMeaning.iterative_tracks`: a program and its expansion, in lockstep.
* `expansion_keeps_meaning`: a program and its expansion end together and alike, and what either
  of them prints under some bound the other one prints under some bound.
-/

namespace MiniLisp

/-! ## Loops as they stand -/

/-- Runs a loop in its frame, from a value of its variable on, for fewer than `rounds` rounds. -/
def Iterative.run (ev : Evaluation) (i : String) (test update body : Expr) (frame : FrameId) :
    (rounds : Nat) → Datum → Eval Datum
  | 0, _ => throw .unfinished
  | rounds + 1, v => do
    let inside ← Eval.bindFrame frame i v
    let t ← ev test inside
    if t.isTrue then
      let _ ← ev body inside
      let next ← ev update inside
      run ev i test update body frame rounds next
    else
      pure loopResult

/-- The frame of a loop. It takes an identity, as the procedure does that a loop is expanded
    to, so that later objects have the same identities in both cases. -/
def Iterative.makeFrame (f : FrameId) : Eval FrameId := do
  let frame ← Eval.newFrame (some f)
  let _ ← Eval.freshId
  pure frame

/-- Evaluation by plain recursion, in which a loop is run in a frame of its own. -/
def iterative : Nat → Evaluation
  | 0, _, _ => throw .exhausted
  | budget + 1, .loop i start test _ update body, f => do
    let frame ← Iterative.makeFrame f
    let v ← iterative budget start frame
    Iterative.run (iterative budget) i test update body frame budget v
  | budget + 1, e, f =>
    Direct.form (iterative budget) (iterative budget) (iterative budget) budget e f

theorem iterative_succ {e : Expr} (he : ∀ i s t a u b, e ≠ .loop i s t a u b) (budget : Nat)
    (f : FrameId) :
    iterative (budget + 1) e f =
      Direct.form (iterative budget) (iterative budget) (iterative budget) budget e f := by
  cases e with
  | loop i s t a u b => exact absurd rfl (he i s t a u b)
  | _ => rfl

/-! ## The simulation -/

namespace LoopMeaning

/-- The second expression is an expansion of the first one, whose data hold no closures. -/
def Expanded (used : List String) (e e' : Expr) : Prop :=
  ∃ gs, Expr.Expands used (fun _ => False) gs e e'

/-- A frame of the program, in which the names in use have related values. -/
def Own (w : Layout) (f : FrameId) : Prop := ∃ p, w.Has f p ∧ p.common = false

/-- An expression and its expansion, in a frame of the program. -/
def Code (used : List String) (w : Layout) (e : Expr) (f : FrameId) (e' : Expr) (f' : FrameId) :
    Prop :=
  f = f' ∧ Own w f ∧ Expanded used e e'

/-- Procedures with such bodies. -/
def Closures (used : List String) (w : Layout) (x : String) (e : Expr) (f : FrameId) (e' : Expr)
    (f' : FrameId) : Prop :=
  x ∈ used ∧ Code used w e f e' f'

/-- A frame binds names in use only, but in the run of the expansion it may bind the generated
    name of one loop besides. -/
def Fits (used : List String) (p : Place) : Prop :=
  p.extra₁ = [] ∧ (p.extra₂ = [] ∨ ∃ g v, g ∉ used ∧ p.extra₂ = [(g, v)])

/-- This holds of all frames from the given one on. -/
def Allowed (used : List String) (base : FrameId) (w : Layout) : Prop :=
  ∀ f, base ≤ f → f < w.size → ∃ p, w.Has f p ∧ Fits used p

section Growing

variable {used : List String} {base : FrameId} {w w' : Layout} {f : FrameId}

theorem Own.mono (h : Own w f) (hw : w ≤ w') : Own w' f := by
  obtain ⟨p, hp, hown⟩ := h
  exact ⟨p, hp.mono hw, hown⟩

theorem Code.mono (hw : w ≤ w') {e : Expr} {f : FrameId} {e' : Expr} {f' : FrameId}
    (h : Code used w e f e' f') : Code used w' e f e' f' := ⟨h.1, h.2.1.mono hw, h.2.2⟩

theorem Closures.mono {w w' : Layout} (hw : w ≤ w') (x : String) (e : Expr) (f : FrameId)
    (e' : Expr) (f' : FrameId) (h : Closures used w x e f e' f') : Closures used w' x e f e' f' :=
  ⟨h.1, h.2.mono hw⟩

theorem Allowed.push (h : Allowed used base w) {p : Place} (hp : Fits used p) :
    Allowed used base (w.push p) := by
  intro f hbase hlt
  rcases Nat.lt_succ_iff_lt_or_eq.mp hlt with hlt | rfl
  · obtain ⟨q, hq, hfits⟩ := h f hbase hlt
    exact ⟨q, hq.mono (Layout.le_push w p), hfits⟩
  · exact ⟨p, Layout.has_push w p, hp⟩

end Growing

/-- Runs of a program and of its expansion. -/
def simulation (used : List String) (base : FrameId) : Simulation Layout :=
  Layout.simulation used (Allowed used base) (Closures used) (Code used)
    (fun _ _ h => h.push ⟨rfl, .inl rfl⟩) Closures.mono Code.mono
    (by
      rintro w x e f e' _ ⟨hx, rfl, ⟨p, hp, hown⟩, hexp⟩
      refine ⟨rfl, p, hp, .inr hx, fun w' _ g hg => ?_⟩
      exact ⟨rfl, ⟨_, hg, hown⟩, hexp⟩)

/-- The computations of two values are related. -/
abbrev Simulates (used : List String) (base : FrameId) (w : Layout) (x y : Eval Datum) : Prop :=
  (simulation used base).Simulates w (simulation used base).values x y

variable {used : List String} {base : FrameId} {w w' : Layout} {f : FrameId}

theorem values_of_closuresIn {d : Datum} (hd : d.ClosuresIn fun _ => False) :
    (simulation used base).values w d d :=
  hd.alike (fun _ => rfl) fun _ _ _ hf => hf.elim

theorem bindFrame_simulates {p : Place} (hp : w.Has f p) {x : String} (hx : x ∈ used)
    {v v' : Datum} (hv : (simulation used base).values w v v') :
    (simulation used base).Simulates w
      (fun w' g g' => g = g' ∧ w'.Has g { common := p.common, outer := some f })
      (Eval.bindFrame f x v) (Eval.bindFrame f x v') :=
  Layout.bindFrame_simulates Closures.mono (fun h => h.push ⟨rfl, .inl rfl⟩) hp (.inr hx) hv

/-- Except for loops, an expression and its expansion are of the same form. -/
theorem matches_of_code {e e' : Expr} (h : Code used w e f e' f)
    (hloop : ∀ i s t a u b, e ≠ .loop i s t a u b) : (simulation used base).Matches w e f e' f := by
  obtain ⟨_, hf, gs, hexp⟩ := h
  have hcode : ∀ {gs e e'}, Expr.Expands used (fun _ => False) gs e e' →
      Code used w e f e' f := fun hexp => ⟨rfl, hf, _, hexp⟩
  obtain ⟨p, hp, hown⟩ := hf
  cases hexp with
  | numeral hd => exact .numeral (values_of_closuresIn hd)
  | quote hd => exact .quote (values_of_closuresIn hd)
  | text => exact .text
  | truth => exact .truth
  | name hx => exact .name (Layout.read_simulates hp (.inr hx))
  | define hx he => exact .define (hcode he) (Layout.assignable hp (.inr hx))
  | letrec hx he hb =>
    refine Layout.matches_letrec Closures.mono (fun h => h.push ⟨rfl, .inl rfl⟩) hp (.inr hx) ?_
    exact fun w' _ g hg => ⟨⟨rfl, ⟨_, hg, hown⟩, _, he⟩, ⟨rfl, ⟨_, hg, hown⟩, _, hb⟩⟩
  | binary hl hr => exact .binary (hcode hl) (hcode hr)
  | branch ht hy hn => exact .branch (hcode ht) (hcode hy) (hcode hn)
  | beginNil => exact .begin .nil
  | beginCons he hes =>
    obtain ⟨es', heq, hall⟩ := hes.begin_inv
    cases heq
    refine .begin (.cons (hcode he) (hall.imp ?_))
    rintro e e' ⟨_, hee'⟩
    exact hcode hee'
  | lambda hx he => exact .lambda ⟨hx, hcode he⟩
  | apply he hb => exact .apply (hcode he) (hcode hb)
  | loop => exact absurd rfl (hloop _ _ _ _ _ _)

/-! ### Rounds -/

section Rounds

variable {ev₁ ev₂ : Evaluation} {g i : String} {s t u b s' t' u' b' e e' : Expr} {L : FrameId}
  {id : ObjectId}

/-- The place of a loop's frame: the expansion binds the procedure there. -/
def loopPlace (g : String) (procedure : Datum) (f : FrameId) : Place where
  common := false
  outer := some f
  extra₂ := [(g, procedure)]

/-- The expansion calls the procedure of the loop where the loop goes on with a new value. -/
theorem next_simulates (hev : (simulation used base).Tracks ev₁ ev₂) (hg : g ∉ used)
    (hcode : Code used w e f e' f) {body : Expr}
    (hfinds : w.Finds Place.extra₂ g (.closure id i body L) f) {k : Datum → Eval Datum}
    {call : Datum → Datum → Eval Datum}
    (hk : ∀ w', w ≤ w' → ∀ v v', (simulation used base).values w' v v' →
      Simulates used base w' (k v) (call (.closure id i body L) v')) :
    Simulates used base w (ev₁ e f >>= k) (Paced.next ev₂ call g e' f) := by
  intro m₁ m₂ hm
  have hread : (Direct.read f g).exec m₂ = (.ok (.closure id i body L), m₂) :=
    Layout.exec_read_of_finds hm.right hm.ordered hg hfinds
  rw [Paced.next, Eval.exec_bind_ok hread]
  exact (hev w e f e' f hcode).bind (fun w' hw v v' hv => hk w' hw v v' hv) m₁ m₂ hm

/-- The rounds of a loop are calls of the procedure. -/
theorem run_simulates (hev : (simulation used base).Tracks ev₁ ev₂) (hi : i ∈ used) (hg : g ∉ used)
    (ht : Expanded used t t') (hu : Expanded used u u') (hb : Expanded used b b')
    (hL : w.Has L (loopPlace g (.closure id i (Expr.loopBody g t' u' b') L) f))
    (budget rounds : Nat) {v v' : Datum} (hv : (simulation used base).values w v v') :
    Simulates used base w (Iterative.run ev₁ i t u b L rounds v)
      (Paced.call ev₂ budget rounds (.closure id i (Expr.loopBody g t' u' b') L) v') := by
  induction rounds generalizing w v v' with
  | zero => exact .throw _
  | succ rounds ih =>
    refine (bindFrame_simulates hL hi hv).bind ?_
    rintro w₁ hw₁ F _ ⟨rfl, hF⟩
    have hown : Own w₁ F := ⟨_, hF, rfl⟩
    have hfinds : w₁.Finds Place.extra₂ g (.closure id i (Expr.loopBody g t' u' b') L) F :=
      .outer hF rfl rfl rfl (.here (hL.mono hw₁) rfl List.lookup_cons_self)
    refine (hev w₁ t F t' F ⟨rfl, hown, ht⟩).bind fun w₂ hw₂ x y hxy => ?_
    rw [hxy.isTrue_eq]
    split
    · refine (hev w₂ b F b' F ⟨rfl, hown.mono hw₂, hb⟩).bind fun w₃ hw₃ _ _ _ => ?_
      refine next_simulates hev hg ⟨rfl, hown.mono (hw₂.trans hw₃), hu⟩
        (hfinds.mono (hw₂.trans hw₃)) fun w' hw' v v' hv => ?_
      exact ih (hL.mono (hw₁.trans (hw₂.trans (hw₃.trans hw')))) hv
    · exact .pure (.atom rfl)

/-- The frames of a loop and of its expansion are made together. -/
theorem makeFrame_simulates (hf : Own w f) (hg : g ∉ used) :
    (simulation used base).Simulates w
      (fun w' L L' => L = L' ∧
        ∃ id, w'.Has L (loopPlace g (.closure id i (Expr.loopBody g t u b) L) f))
      (Iterative.makeFrame f) (Unrolled.makeFrame g i t u b f) := by
  intro m₁ m₂ hm
  obtain ⟨p, hp, _⟩ := hf
  have hleft : (Iterative.makeFrame f).exec m₁ =
      (.ok m₁.heap.size, Machine.takeId { m₁ with heap := m₁.heap.alloc { outer := some f } }) :=
    rfl
  rw [hleft, Unrolled.exec_makeFrame]
  let q := loopPlace g (.closure m₂.nextId i (Expr.loopBody g t u b) m₂.heap.size) f
  have hsize : m₁.heap.size = m₂.heap.size := hm.left.size.trans hm.right.size.symm
  have halloc := Layout.Relates.allocExtra hm q rfl
    (hm.allow.push ⟨rfl, .inr ⟨g, _, hg, rfl⟩⟩) (fun o ho => ⟨p, Option.some.inj ho ▸ hp⟩)
    fun x hx => ⟨rfl, Bindings.get?_singleton_of_ne (ne_of_mem_of_not_mem hx hg) _⟩
  refine ⟨w.push q, Layout.le_push w q, ?_, hsize, m₂.nextId, ?_⟩
  · exact (Layout.Relates.grow Closures.mono (Layout.le_push w q) halloc).takeId
  · rw [hsize, hm.right.size]
    have hq : q = loopPlace g (.closure m₂.nextId i (Expr.loopBody g t u b) w.size) f := by
      rw [← hm.right.size]
    exact hq ▸ Layout.has_push w q

/-- A level of evaluation of a loop and of its expansion. -/
theorem loop_simulates {budget : Nat}
    (hev : (simulation used base).Tracks (iterative budget) (paced used budget)) (hf : Own w f)
    (hi : i ∈ used) (hg : g ∉ used) (hs : Expanded used s s') (ht : Expanded used t t')
    (hu : Expanded used u u') (hb : Expanded used b b') :
    Simulates used base w (iterative (budget + 1) (.loop i s t i u b) f)
      (paced used (budget + 1) (Expr.ofLoop g i s' t' u' b') f) := by
  have hunused : (Expr.ofLoop g i s' t' u' b').isUnused used = true := by
    simp [Expr.ofLoop, Expr.isUnused, hg]
  rw [paced, if_pos hunused, Unrolled.form_ofLoop fun _ _ _ => rfl]
  refine (makeFrame_simulates hf hg).bind ?_
  rintro w₁ hw₁ L _ ⟨rfl, id, hL⟩
  refine next_simulates hev hg ⟨rfl, ⟨_, hL, rfl⟩, hs⟩ (.here hL rfl List.lookup_cons_self)
    fun w' hw' v v' hv => ?_
  exact run_simulates hev hi hg ht hu hb (hL.mono hw') budget budget hv

end Rounds

/-! ### All code -/

/-- Only loops are expanded to a `letrec` of a name that is not in use. -/
theorem isUnused_of_expands {frames : FrameId → Prop} {gs : List String} {e e' : Expr}
    (h : Expr.Expands used frames gs e e') (hloop : ∀ i s t a u b, e ≠ .loop i s t a u b) :
    e'.isUnused used = false := by
  cases h with
  | letrec hx => simp [Expr.isUnused, hx]
  | loop => exact absurd rfl (hloop _ _ _ _ _ _)
  | _ => rfl

/-- A program and its expansion are evaluated in lockstep. -/
theorem iterative_tracks (used : List String) (base : FrameId) (budget : Nat) :
    (simulation used base).Tracks (iterative budget) (paced used budget) := by
  induction budget with
  | zero => exact fun _ _ _ _ _ _ => .throw _
  | succ budget hev =>
    intro w e f e' f' hcode
    have hcode' := hcode
    obtain ⟨rfl, hf, gs, hexp⟩ := hcode'
    rcases e.eq_loop_or_ne with ⟨i, s, t, a, u, b, rfl⟩ | hloop
    · cases hexp with
      | loop hi hg hu ht hb hs => exact loop_simulates hev hf hi hg ⟨_, hs⟩ ⟨_, ht⟩ ⟨_, hu⟩ ⟨_, hb⟩
    · have hform := (simulation used base).form_simulates hev hev hev budget
        (matches_of_code hcode hloop)
      rw [iterative_succ hloop, paced, isUnused_of_expands hexp hloop]
      exact hform

/-! ## Endings -/

/-- Two endings differ by expansion only: the output is the same, and so is the fault, or else
    the values are the same up to the bodies of closures, in heaps that are the same up to
    these and to the names of loops in the frames of the second one. -/
def SameEnding (used : List String) (base : FrameId) (r₁ : Except Fault Datum) (m₁ : Machine)
    (r₂ : Except Fault Datum) (m₂ : Machine) : Prop :=
  m₁.output = m₂.output ∧ ∃ w : Layout,
    w.Relates used (Allowed used base) (Value.Alike Eq (Closures used w)) m₁ m₂ ∧
    Outcome.Rel (Value.Alike Eq (Closures used w)) (r₁.mapError .fault) (r₂.mapError .fault)

section Endings

variable {budget : Nat} {e e' : Expr} {names names' : FreshNames}

/-- In a new root frame, an expression and its expansion are related code. -/
theorem root_related (hdata : e.ClosuresIn fun _ => False)
    (h : (e.expand budget).exec names = (.ok e', names')) (m : Machine) :
    ∃ w : Layout, Code e.vocabulary w e m.heap.size e' m.heap.size ∧
      w.Relates e.vocabulary (Allowed e.vocabulary m.heap.size)
        (Value.Alike Eq (Closures e.vocabulary w)) m.withRoot m.withRoot := by
  obtain ⟨gs, _, hexp⟩ := Expr.expand_expands hdata h
  let root : Place := { common := false, outer := none }
  let w := (Layout.blank m.heap.size).push root
  have hblank : Allowed e.vocabulary m.heap.size (Layout.blank m.heap.size) :=
    fun f hbase hlt => absurd (Nat.lt_of_lt_of_le hlt hbase) (Nat.lt_irrefl f)
  refine ⟨w, ⟨rfl, ⟨root, Layout.has_push _ _, rfl⟩, gs, hexp⟩, ?_⟩
  exact (Layout.Relates.blank hblank).withRoot (List.mem_cons_self ..)
    (hblank.push ⟨rfl, .inl rfl⟩) fun _ => .native rfl

/-- Under one bound a program and its expansion stop alike, and have printed the same. -/
theorem iterative_paced (hdata : e.ClosuresIn fun _ => False)
    (h : (e.expand budget).exec names = (.ok e', names')) (m : Machine) (b : Nat) :
    ∃ w : Layout,
      w.Relates e.vocabulary (Allowed e.vocabulary m.heap.size)
        (Value.Alike Eq (Closures e.vocabulary w))
        ((iterative b e m.heap.size).exec m.withRoot).2
        ((paced e.vocabulary b e' m.heap.size).exec m.withRoot).2 ∧
      Outcome.Rel (Value.Alike Eq (Closures e.vocabulary w))
        ((iterative b e m.heap.size).exec m.withRoot).1
        ((paced e.vocabulary b e' m.heap.size).exec m.withRoot).1 := by
  obtain ⟨w, hcode, hm⟩ := root_related hdata h m
  obtain ⟨w', _, hm', hr⟩ :=
    iterative_tracks e.vocabulary m.heap.size b w _ _ _ _ hcode m.withRoot m.withRoot hm
  exact ⟨w', hm', hr⟩

theorem ends_of_iterative (hdata : e.ClosuresIn fun _ => False)
    (h : (e.expand budget).exec names = (.ok e', names')) {m m₁ : Machine} {b : Nat}
    {r₁ : Except Fault Datum} (hends : (iterative b e m.heap.size).Ends m.withRoot r₁ m₁) :
    ∃ n r₂ m₂, (direct n e' m.heap.size).Ends m.withRoot r₂ m₂ ∧
      SameEnding e.vocabulary m.heap.size r₁ m₁ r₂ m₂ := by
  obtain ⟨w, hm, hr⟩ := iterative_paced hdata h m b
  rw [Eval.Ends] at hends
  rw [hends] at hm hr
  obtain ⟨r₂, hr₂⟩ := hr.fault_left
  obtain ⟨n, _, hbelow⟩ := paced_below_direct e.vocabulary b
  refine ⟨n, r₂, _, (hbelow _ _).ends (Eval.ends_of_fst_eq hr₂), hm.output, w, hm, ?_⟩
  rw [← hr₂]
  exact hr

theorem iterative_ends (hdata : e.ClosuresIn fun _ => False)
    (h : (e.expand budget).exec names = (.ok e', names')) {m m₂ : Machine} {n : Nat}
    {r₂ : Except Fault Datum} (hends : (direct n e' m.heap.size).Ends m.withRoot r₂ m₂) :
    ∃ r₁ m₁, (iterative n e m.heap.size).Ends m.withRoot r₁ m₁ := by
  obtain ⟨w, hm, hr⟩ := iterative_paced hdata h m n
  have hpaced := (direct_below_paced e.vocabulary (le_refl n) _ _).ends hends
  rw [Eval.Ends] at hpaced
  rw [hpaced] at hr
  obtain ⟨r₁, hr₁⟩ := hr.flip.fault_left
  exact ⟨r₁, _, Eval.ends_of_fst_eq hr₁⟩

/-- What the program prints under a bound, the expansion prints under some bound. -/
theorem evaluate_continues (hdata : e.ClosuresIn fun _ => False)
    (h : (e.expand budget).exec names = (.ok e', names')) (m : Machine) (b : Nat) :
    ∃ n, Machine.Continues ((iterative b e m.heap.size).exec m.withRoot).2
      ((evaluate n n e' m.heap.size).exec m.withRoot).2 := by
  obtain ⟨w, hm, _⟩ := iterative_paced hdata h m b
  obtain ⟨n, _, hbelow⟩ := paced_below_direct e.vocabulary b
  have hmore := (hbelow.trans (direct_below_evaluate n) e' m.heap.size).continues_exec m.withRoot
  exact ⟨n, Machine.Continues.trans (.of_eq hm.output.symm) hmore⟩

/-- What the expansion prints under a bound, the program prints under some bound. -/
theorem iterative_continues (hdata : e.ClosuresIn fun _ => False)
    (h : (e.expand budget).exec names = (.ok e', names')) (m : Machine) (rounds b : Nat) :
    ∃ n, Machine.Continues ((evaluate rounds b e' m.heap.size).exec m.withRoot).2
      ((iterative n e m.heap.size).exec m.withRoot).2 := by
  obtain ⟨n, hbelow⟩ := evaluate_below_direct rounds b
  obtain ⟨w, hm, _⟩ := iterative_paced hdata h m n
  have hpaced := hbelow.trans (direct_below_paced e.vocabulary (le_refl n))
  have hmore := (hpaced e' m.heap.size).continues_exec m.withRoot
  exact ⟨n, hmore.trans (.of_eq hm.output)⟩

end Endings

end LoopMeaning

/-- A program in which loops are run as they stand and its expansion end together in a new root
    frame, with the same output and the same fault or the same value, up to the expansion of
    closures and the names of loops in their frames. Whether or not they end, they print the same:
    what one of them has printed when it is cut off is the beginning of what the other one prints
    under some bound. -/
theorem expansion_keeps_meaning {budget : Nat} {e e' : Expr} {names names' : FreshNames}
    (hdata : e.ClosuresIn fun _ => False)
    (h : (e.expand budget).exec names = (.ok e', names')) (m : Machine) :
    ((∃ b r₁ m₁, (Eval.newRoot >>= iterative b e).Ends m r₁ m₁) ↔
      ∃ rounds b r₂ m₂, (Eval.newRoot >>= evaluate rounds b e').Ends m r₂ m₂) ∧
    (∀ b r₁ m₁ rounds b' r₂ m₂,
      (Eval.newRoot >>= iterative b e).Ends m r₁ m₁ →
      (Eval.newRoot >>= evaluate rounds b' e').Ends m r₂ m₂ →
      LoopMeaning.SameEnding e.vocabulary m.heap.size r₁ m₁ r₂ m₂) ∧
    (∀ b, ∃ rounds b', Machine.Continues ((Eval.newRoot >>= iterative b e).exec m).2
      ((Eval.newRoot >>= evaluate rounds b' e').exec m).2) ∧
    ∀ rounds b', ∃ b, Machine.Continues ((Eval.newRoot >>= evaluate rounds b' e').exec m).2
      ((Eval.newRoot >>= iterative b e).exec m).2 := by
  simp only [Eval.ends_newRoot_bind_iff, Eval.exec_bind_ok (Eval.exec_newRoot m)]
  refine ⟨⟨?_, ?_⟩, ?_, fun b => ?_, fun rounds b' => ?_⟩
  · rintro ⟨b, r₁, m₁, hends⟩
    obtain ⟨n, r₂, m₂, hends', _⟩ := LoopMeaning.ends_of_iterative hdata h hends
    exact ⟨n, n, r₂, m₂, (direct_below_evaluate n _ _).ends hends'⟩
  · rintro ⟨rounds, b, r₂, m₂, hends⟩
    obtain ⟨n, hn⟩ := evaluate_below_direct rounds b
    obtain ⟨r₁, m₁, hends'⟩ := LoopMeaning.iterative_ends hdata h ((hn _ _).ends hends)
    exact ⟨n, r₁, m₁, hends'⟩
  · intro b r₁ m₁ rounds b' r₂ m₂ hends₁ hends₂
    obtain ⟨n, r, m', hends, hsame⟩ := LoopMeaning.ends_of_iterative hdata h hends₁
    obtain ⟨n', hn'⟩ := evaluate_below_direct rounds b'
    obtain ⟨rfl, rfl⟩ := direct_ends_unique hends ((hn' _ _).ends hends₂)
    exact hsame
  · obtain ⟨n, hmore⟩ := LoopMeaning.evaluate_continues hdata h m b
    exact ⟨n, n, hmore⟩
  · exact LoopMeaning.iterative_continues hdata h m rounds b'

/-- Two loops, one inside the other. -/
def LoopMeaning.nested : Expr :=
  .loop "i" (.numeral (.int 0)) (.binary "<" (.name "i") (.numeral (.int 2))) "i"
    (.binary "+" (.name "i") (.numeral (.int 1)))
    (.loop "j" (.name "i") (.binary "<" (.name "j") (.numeral (.int 2))) "j"
      (.binary "+" (.name "j") (.numeral (.int 1))) (.apply (.name "print") (.text "*")))

/-- Their expansion. -/
def LoopMeaning.nestedExpansion : Expr :=
  .ofLoop "loop%1" "i" (.numeral (.int 0)) (.binary "<" (.name "i") (.numeral (.int 2)))
    (.binary "+" (.name "i") (.numeral (.int 1)))
    (.ofLoop "loop%2" "j" (.name "i") (.binary "<" (.name "j") (.numeral (.int 2)))
      (.binary "+" (.name "j") (.numeral (.int 1))) (.apply (.name "print") (.text "*")))

/-- A loop that goes on forever. -/
def LoopMeaning.endless : Expr :=
  .loop "i" (.text "") (.truth true) "i" (.name "i") (.apply (.name "print") (.text "*"))

/-- Its expansion. -/
def LoopMeaning.endlessExpansion : Expr :=
  .ofLoop "loop%1" "i" (.text "") (.truth true) (.name "i") (.apply (.name "print") (.text "*"))

/-- The loops end and print three lines, and so does their expansion. The endless loop prints
    two lines in two rounds, and so does its expansion before it prints more. -/
theorem expansion_keeps_meaning_nested :
    (LoopMeaning.nested.ClosuresIn fun _ => False) ∧
    ((LoopMeaning.nested.expand 10).exec {}).1 = .ok LoopMeaning.nestedExpansion ∧
    (∃ rounds b r m, (Eval.newRoot >>= evaluate rounds b LoopMeaning.nestedExpansion).Ends {} r m ∧
      m.output = "*\n*\n*\n") ∧
    ((LoopMeaning.endless.expand 10).exec {}).1 = .ok LoopMeaning.endlessExpansion ∧
    ∃ rounds b rest,
      ((Eval.newRoot >>= evaluate rounds b LoopMeaning.endlessExpansion).exec {}).2.output =
        "*\n*\n" ++ rest := by
  have hdata : LoopMeaning.nested.ClosuresIn fun _ => False := by
    simp [LoopMeaning.nested, Expr.ClosuresIn, Value.ClosuresIn]
  have hexpand : ((LoopMeaning.nested.expand 10).exec {}).1 = .ok LoopMeaning.nestedExpansion := by
    cbv
  have hloops : ∃ m₁,
      (Eval.newRoot >>= iterative 8 LoopMeaning.nested).Ends {} (.ok loopResult) m₁ ∧
        m₁.output = "*\n*\n*\n" := ⟨_, Eval.ends_of_fst_eq (by cbv), by cbv⟩
  obtain ⟨m₁, hends₁, houtput₁⟩ := hloops
  obtain ⟨names, hnames⟩ : ∃ names,
      (LoopMeaning.nested.expand 10).exec {} = (.ok LoopMeaning.nestedExpansion, names) :=
    ⟨((LoopMeaning.nested.expand 10).exec {}).2, Prod.ext hexpand rfl⟩
  have hmeaning := expansion_keeps_meaning hdata hnames {}
  obtain ⟨rounds, b, r, m, hends⟩ := hmeaning.1.mp ⟨8, _, m₁, hends₁⟩
  have houtput := (hmeaning.2.1 8 _ m₁ rounds b r m hends₁ hends).1
  have hendless : ((LoopMeaning.endless.expand 10).exec {}).1 =
      .ok LoopMeaning.endlessExpansion := by cbv
  have hlines : ((Eval.newRoot >>= iterative 3 LoopMeaning.endless).exec {}).2.output =
      "*\n*\n" := by cbv
  have hmore := expansion_keeps_meaning
    (by simp [LoopMeaning.endless, Expr.ClosuresIn]) (Prod.ext hendless rfl) {}
  obtain ⟨rounds', b', rest, hrest⟩ := hmore.2.2.1 3
  refine ⟨hdata, hexpand, ⟨rounds, b, r, m, hends, houtput.symm.trans houtput₁⟩, hendless,
    rounds', b', rest, ?_⟩
  rw [hrest, hlines]

end MiniLisp
