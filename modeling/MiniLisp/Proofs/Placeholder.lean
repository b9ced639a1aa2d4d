import Mathlib
import MiniLisp.Proofs.Discipline
import MiniLisp.Proofs.References
import MiniLisp.Proofs.Stops

/-!
# The placeholder of a `letrec`

While the binding of a `letrec` is evaluated, its name is bound to a placeholder, and closures
made then can hold on to the frame. No evaluation leaves a placeholder behind: whether it gives
a value or stops, none can be reached afterwards from the frame it was made in, from a frame from
which none could be reached before, or from the value. So the fault of a name that is used before
its binding was initialised is raised only while that binding is evaluated.

This needs that the bodies of the closures that can be reached hold no placeholder and no
procedure as data. Without that a closure that quotes the placeholder hands it out.

* `Heap.Reaches`, `Heap.Clean`: the frames that can be reached from a frame, and that none of
  them binds a name to the placeholder.
* `Expr.Plain`, `Heap.PlainCode`: code without placeholders and procedures as data.
* `placeholder_never_survives`: evaluations in a row, failed ones included.
* `quoting_closure_hands_out_placeholder`: the closure that quotes the placeholder.
-/

namespace MiniLisp

/-! ## Reachable frames -/

/-- The frames that can be reached from a frame, through outer frames and through the frames of
    closures that frames bind. -/
inductive Heap.Reaches (h : Heap) (f : FrameId) : FrameId → Prop
  | refl : Reaches h f f
  | outer {g o : FrameId} (inside : Reaches h f g) (around : h.outer? g = some o) : Reaches h f o
  | closure {g o : FrameId} {x y : String} {i : ObjectId} {e : Expr} (inside : Reaches h f g)
      (bound : h.boundIn? x g = some (.closure i y e o)) : Reaches h f o

/-- No frame that can be reached binds a name to the placeholder. -/
def Heap.Clean (h : Heap) (f : FrameId) : Prop :=
  ∀ g, h.Reaches f g → ∀ x, h.boundIn? x g ≠ some .unassigned

/-- A value holds neither the placeholder nor a procedure. -/
def Value.Plain (v : Datum) : Prop := v.Each fun w => w ≠ .unassigned ∧ w.isProcedure = false

/-- The data in an expression hold neither the placeholder nor a procedure. -/
def Expr.Plain (e : Expr) : Prop :=
  e.Each fun
    | .numeral d | .quote d | .stray d => d.Plain
    | _ => True

/-- The bodies of the closures that frames bind that can be reached are plain. -/
def Heap.PlainCode (h : Heap) (f : FrameId) : Prop :=
  ∀ g, h.Reaches f g → ∀ x i y e o, h.boundIn? x g = some (.closure i y e o) → e.Plain

theorem Value.Plain.closuresIn {frames : FrameId → Prop} {v : Datum} (h : v.Plain) :
    v.ClosuresIn frames := by
  induction v using Value.inductionOn with
  | list i items ih | tuple i items ih =>
    have hitems := Value.eachOf_iff.mp h.2
    exact Value.allClosuresIn_iff.mpr fun v hv => ih v hv (hitems v hv)
  | closure i x e f => exact absurd h.2 (by simp [Value.isProcedure])
  | atom v hv => cases v <;> trivial
  | _ => trivial

theorem Expr.Plain.closuresIn {frames : FrameId → Prop} {e : Expr} (h : e.Plain) :
    e.ClosuresIn frames := by
  refine Expr.Each.closuresIn (fun d hd => ?_) e h
  have hd : d.Plain := by
    rcases hd with hd | hd | hd <;> exact hd
  exact hd.closuresIn

/-! ## The discipline of plain code -/

/-- Plain code, of which the placeholder is never a value. -/
def Discipline.plain : Discipline where
  code := Expr.Plain
  placeholder := False
  hereditary := by
    have hdata : ∀ {d : Datum}, d.Plain →
        (d = .unassigned → False) ∧ ∀ i x e f, d ≠ .closure i x e f := by
      intro d hd
      refine ⟨fun h => hd.self.1 h, ?_⟩
      rintro i x e f rfl
      exact absurd hd.self.2 (by simp [Value.isProcedure])
    exact Expr.each_hereditary (fun h => hdata h) fun h => hdata h

namespace Heap

variable {h : Heap} {f g : FrameId}

/-- What can be reached from a region is in the region. -/
theorem Reaches.mem {D : Discipline} {G : Set FrameId} (hh : D.Holds G [] h) (hf : f ∈ G)
    (hr : h.Reaches f g) : g ∈ G := by
  induction hr with
  | refl => exact hf
  | outer _ ho ih => exact hh.outer _ ih _ ho
  | closure _ hx ih =>
    rcases hh.bound _ ih _ _ hx with hv | ⟨hv, _⟩
    · exact (hv.closure _ _ _ _ rfl).2
    · cases hv

end Heap

namespace Discipline.plain

variable {h : Heap} {G : Set FrameId} {f : FrameId}

theorem clean (hh : plain.Holds G [] h) (hf : f ∈ G) : h.Clean f := by
  intro g hr x hx
  rcases hh.bound g (hr.mem hh hf) x _ hx with hv | ⟨_, hmem⟩
  · exact hv.assigned rfl
  · cases hmem

theorem bodies (hh : plain.Holds G [] h) (hf : f ∈ G) : h.PlainCode f := by
  intro g hr x i y e o hx
  rcases hh.bound g (hr.mem hh hf) x _ hx with hv | ⟨hv, _⟩
  · exact (hv.closure i y e o rfl).1
  · cases hv

/-- The frames that can be reached from a clean frame are a region. -/
theorem holds {m : Machine} (hm : m.Framed) (hf : f < m.heap.size) (hclean : m.heap.Clean f)
    (hcode : m.heap.PlainCode f) : plain.Holds {g | m.heap.Reaches f g} [] m.heap := by
  have hlt : ∀ g, m.heap.Reaches f g → g < m.heap.size := by
    intro g hr
    induction hr with
    | refl => exact hf
    | outer _ ho ih => exact (hm.outer _ ih _ ho).trans ih
    | closure _ hx ih => exact (hm.closures _ ih _ _ hx).1
  refine ⟨hlt, fun g hg o ho => .outer hg ho, fun g hg x v hv => .inl ⟨?_, ?_⟩⟩
  · rintro rfl
    exact hclean g hg x hv
  · rintro i y e o rfl
    exact ⟨hcode g hg x i y e o hv, .closure hg hv⟩

end Discipline.plain

/-! ## Frames that there were before -/

/-- What happens in one frame leaves other frames clean if it leaves that one clean. -/
theorem Machine.Affects.clean {m n : Machine} {f g : FrameId} {xs : List String}
    (h : m.Affects f xs n) (hm : m.Framed) (hf : n.heap.Clean f) (hg : g < m.heap.size)
    (hclean : m.heap.Clean g) : n.heap.Clean g := by
  -- a path leaves the frames that are as they were only by the frame in which it happens
  have hpath : ∀ k, n.heap.Reaches g k →
      n.heap.Reaches f k ∨ k < m.heap.size ∧ k ≠ f ∧ m.heap.Reaches g k := by
    have hsplit : ∀ {k}, k < m.heap.size → m.heap.Reaches g k →
        n.heap.Reaches f k ∨ k < m.heap.size ∧ k ≠ f ∧ m.heap.Reaches g k := by
      intro k hk hr
      by_cases hkf : k = f
      · subst hkf
        exact .inl .refl
      · exact .inr ⟨hk, hkf, hr⟩
    intro k hr
    induction hr with
    | refl => exact hsplit hg .refl
    | @outer k o _ ho ih =>
      rcases ih with hr | ⟨hk, hkf, hr⟩
      · exact .inl (hr.outer ho)
      · rw [Heap.outer?, h.others k hk hkf] at ho
        exact hsplit ((hm.outer k hk o ho).trans hk) (hr.outer ho)
    | @closure k o x y i e _ hx ih =>
      rcases ih with hr | ⟨hk, hkf, hr⟩
      · exact .inl (hr.closure hx)
      · rw [Heap.boundIn?, h.others k hk hkf] at hx
        exact hsplit (hm.closures k hk x _ hx).1 (hr.closure hx)
  intro k hr x hx
  rcases hpath k hr with hr | ⟨hk, hkf, hr⟩
  · exact hf k hr x hx
  · rw [Heap.boundIn?, h.others k hk hkf] at hx
    exact hclean k hr x hx

/-! ## Evaluations in a row -/

/-- The machine after expressions have been evaluated one after the other in a frame, each under
    bounds of its own and whatever came of those before. -/
def Machine.afterAll (f : FrameId) (m : Machine) (es : List (Limits × Expr)) : Machine :=
  es.foldl (fun m e => ((e.1.evaluate e.2 f).exec m).2) m

/-- No placeholder can be reached from a frame, and the code that can be is plain. -/
structure Machine.CleanAt (m : Machine) (f : FrameId) : Prop where
  framed : m.Framed
  frame : f < m.heap.size
  clean : m.heap.Clean f
  code : m.heap.PlainCode f

namespace Machine.CleanAt

variable {m : Machine} {f : FrameId} {e : Expr}

/-- An evaluation leaves a region that holds its frame, and its value is usable there. -/
theorem evaluate_region (hm : m.CleanAt f) (he : e.Plain) (limits : Limits) :
    ∃ G, f ∈ G ∧ Discipline.plain.Holds G [] ((limits.evaluate e f).exec m).2.heap ∧
      ∀ v, ((limits.evaluate e f).exec m).1 = .ok v → Discipline.plain.Usable G v := by
  have hregion := Discipline.plain.holds hm.framed hm.frame hm.clean hm.code
  obtain ⟨G, hG, hholds, hv⟩ :=
    Discipline.evaluate_obeys limits.rounds limits.stack [] _ e f he .refl m hregion
  exact ⟨G, hG .refl, hholds, hv⟩

/-- A new root frame is clean. -/
theorem withRoot (hm : m.Framed) : m.withRoot.CleanAt m.heap.size := by
  have hholds : Discipline.plain.Holds {m.heap.size} [] m.withRoot.heap := Discipline.holds_root m
  exact {
    framed := hm.withRoot
    frame := hholds.allocated _ rfl
    clean := Discipline.plain.clean hholds rfl
    code := Discipline.plain.bodies hholds rfl }

theorem evaluate (hm : m.CleanAt f) (he : e.Plain) (limits : Limits) :
    ((limits.evaluate e f).exec m).2.CleanAt f := by
  obtain ⟨G, hf, hholds, _⟩ := hm.evaluate_region he limits
  exact {
    framed := (evaluate_settled hm.framed hm.frame he.closuresIn limits.rounds limits.stack).1
    frame := hholds.allocated f hf
    clean := Discipline.plain.clean hholds hf
    code := Discipline.plain.bodies hholds hf }

theorem afterAll (hm : m.CleanAt f) {es : List (Limits × Expr)} (hes : ∀ e ∈ es, e.2.Plain) :
    (m.afterAll f es).CleanAt f := by
  induction es generalizing m with
  | nil => exact hm
  | cons e es ih =>
    rw [List.forall_mem_cons] at hes
    exact ih (hm.evaluate hes.1 e.1) hes.2

/-- The fault of a placeholder is raised while the binding is evaluated that it stands for. -/
theorem uninitialised_whileBinding (hm : m.CleanAt f) (he : e.Plain) {limits : Limits} {x : String}
    {n : Machine} (h : (limits.evaluate e f).exec m = (.error (.fault (.uninitialised x)), n)) :
    ∃ b q g, Point.Visits ⟨b, e, f, m, []⟩ q ∧ q.Raises (.fault (.uninitialised x)) n ∧
      q.code = .name x ∧ q.machine.heap.find? q.frame x = some g ∧
      Point.WhileBinding ⟨b, e, f, m, []⟩ g x q := by
  obtain ⟨b, q, hvisits, hraises⟩ := Point.exists_raises_of_evaluate h
  have hstart : Discipline.plain.AtPoint {g | m.heap.Reaches f g} ⟨b, e, f, m, []⟩ :=
    ⟨he, .refl, Discipline.plain.holds hm.framed hm.frame hm.clean hm.code⟩
  obtain ⟨G, _, hq⟩ := hstart.visits hvisits
  cases hraises.cause rfl with
  | uninitialised hcode hx =>
    rcases hq.heap.lookup? hq.frame hx with hv | ⟨_, g, hfind, hpending⟩
    · exact (hv.assigned rfl).elim
    · refine ⟨b, q, g, hvisits, hraises, hcode, hfind, ?_⟩
      exact (hvisits.whileBinding hpending).resolve_left List.not_mem_nil
  | arithmetic hkind => cases hkind
  | malformed _ hkind => rcases hkind with hkind | hkind <;> cases hkind

end Machine.CleanAt

/-- After evaluations in a row in a frame from which no placeholder and no code but plain code
    could be reached, failed evaluations included, one more evaluation of plain code leaves no
    placeholder behind, whether it gives a value or stops: none can be reached from the frame, nor
    from frames from which none could be reached before. Its value is not the placeholder, and none
    can be reached from the frame of a closure that is its value. If it stops with the fault that a
    name is used before its binding was initialised, then it does so at that name, which is found
    in the frame of a `letrec` whose binding is being evaluated. -/
theorem placeholder_never_survives {m₀ : Machine} {f : FrameId} (hframed : m₀.Framed)
    (hf : f < m₀.heap.size) (hclean : m₀.heap.Clean f) (hcode : m₀.heap.PlainCode f)
    (before : List (Limits × Expr)) (hbefore : ∀ e ∈ before, e.2.Plain) {limits : Limits} {e : Expr}
    (he : e.Plain) {m n : Machine} {r : Outcome Datum} (hm : m₀.afterAll f before = m)
    (hr : (limits.evaluate e f).exec m = (r, n)) :
    n.heap.Clean f ∧ n.heap.PlainCode f ∧
    (∀ g < m.heap.size, m.heap.Clean g → n.heap.Clean g) ∧
    (∀ v, r = .ok v → v ≠ .unassigned ∧ ∀ i x body g, v = .closure i x body g → n.heap.Clean g) ∧
    ∀ x, r = .error (.fault (.uninitialised x)) →
      ∃ b q g, Point.Visits ⟨b, e, f, m, []⟩ q ∧ q.Raises (.fault (.uninitialised x)) n ∧
        q.code = .name x ∧ q.machine.heap.find? q.frame x = some g ∧
        Point.WhileBinding ⟨b, e, f, m, []⟩ g x q := by
  subst hm
  have hm : (m₀.afterAll f before).CleanAt f :=
    Machine.CleanAt.afterAll ⟨hframed, hf, hclean, hcode⟩ hbefore
  obtain ⟨G, hfG, hholds, hvalue⟩ := hm.evaluate_region he limits
  have haffects := evaluate_confined limits.rounds limits.stack e f (m₀.afterAll f before)
  change Machine.Affects _ _ _ ((limits.evaluate e f).exec _).2 at haffects
  rw [hr] at hholds hvalue haffects
  have hcleanf : n.heap.Clean f := Discipline.plain.clean hholds hfG
  refine ⟨hcleanf, Discipline.plain.bodies hholds hfG, ?_, ?_, ?_⟩
  · intro g hg hcleang
    exact haffects.clean hm.framed hcleanf hg hcleang
  · rintro v rfl
    have hv := hvalue v rfl
    refine ⟨hv.assigned, ?_⟩
    intro i x body g hclosure
    exact Discipline.plain.clean hholds (hv.closure i x body g hclosure).2
  · rintro x rfl
    exact hm.uninitialised_whileBinding he hr

namespace Placeholder

/-- `(letrec ((h (begin (define g (lambda (x) (h x))) #t))) h)`: a binding that fails after a
    closure has been made in its frame. -/
def failingBinding : Expr :=
  .letrec "h" (.begin [.define "g" (.lambda "x" (.apply (.name "h") (.name "x"))),
    .truth true]) (.name "h")

/-- `(letrec ((h (letrec ((k (lambda (x) (h x)))) (k 1)))) h)`: a name that is used before its
    binding was initialised, by a closure that is called from the body of another `letrec`. -/
def earlyUse : Expr :=
  .letrec "h" (.letrec "k" (.lambda "x" (.apply (.name "h") (.name "x")))
    (.apply (.name "k") (.numeral (.int 1)))) (.name "h")

/-- The machine with a new root frame in which the failing binding has been evaluated. -/
def afterFailure : Machine :=
  ({} : Machine).withRoot.afterAll 0 [({ stack := 20, rounds := 20 }, failingBinding)]

/-- How the early use ends there. -/
def ending : Outcome Datum × Machine :=
  (Limits.evaluate { stack := 20, rounds := 20 } earlyUse 0).exec afterFailure

/-- `(begin (define y (f 1)) y 5)`, in which there is no `letrec`. -/
def handOut : Expr :=
  .begin [.define "y" (.apply (.name "f") (.numeral (.int 1))), .name "y", .numeral (.int 5)]

/-- The machine with a root frame that binds `print`, and an empty one. -/
def twoRoots : Machine :=
  { ({} : Machine).withRoot with heap := ({} : Machine).withRoot.heap.alloc {} }

/-- The first root binds `f` to a closure of the second one that quotes the placeholder. -/
def quoting : Machine := twoRoots.define 0 "f" (.closure 1 "x" (.quote .unassigned) 1)

/-- How the code without a `letrec` ends there. -/
def handedOut : Outcome Datum × Machine :=
  (Limits.evaluate { stack := 20, rounds := 20 } handOut 0).exec quoting

theorem framed_quoting : quoting.Framed := by
  have hroots : twoRoots.Framed := Machine.Framed.empty.withRoot.alloc nofun nofun
  exact hroots.define 0 "f" ⟨by cbv, trivial⟩

/-- What the two roots bind is not the placeholder, and closures are of the two roots again. -/
theorem boundIn_quoting {g : FrameId} (hg : g = 0 ∨ g = 1) {x : String} {v : Datum}
    (hv : quoting.heap.boundIn? x g = some v) :
    v ≠ .unassigned ∧ ∀ i y e o, v = .closure i y e o → o = 0 ∨ o = 1 := by
  rcases hg with rfl | rfl
  · by_cases hx : x = "f"
    · subst hx
      obtain rfl : v = .closure 1 "x" (.quote .unassigned) 1 :=
        Option.some.inj (hv.symm.trans (Heap.boundIn?_define_self (by cbv) _ _))
      constructor
      · rintro ⟨⟩
      · rintro i y e o ⟨⟩
        exact .inr rfl
    · have hv := (Heap.boundIn?_define_of_ne _ (.inr hx) _).symm.trans hv
      have hv := (Heap.boundIn?_alloc_of_lt (by cbv) _ x).symm.trans hv
      have hroot := Discipline.holds_root (D := Discipline.plain) {}
      rcases hroot.bound 0 rfl x v hv with hv | ⟨_, hmem⟩
      · exact ⟨hv.assigned, fun i y e o h => .inl (hv.closure i y e o h).2⟩
      · cases hmem
  · have hv := (Heap.boundIn?_define_of_ne _ (.inl (by decide)) _).symm.trans hv
    cases (Heap.boundIn?_alloc_size _ _ x).symm.trans hv

theorem clean_quoting : quoting.heap.Clean 0 := by
  have hreach : ∀ g, quoting.heap.Reaches 0 g → g = 0 ∨ g = 1 := by
    intro g hr
    induction hr with
    | refl => exact .inl rfl
    | @outer g o _ ho ih =>
      have hnone : quoting.heap.outer? g = none := by
        rcases ih with rfl | rfl <;> cbv
      rw [hnone] at ho
      cases ho
    | closure _ hx ih => exact (boundIn_quoting ih hx).2 _ _ _ _ rfl
  intro g hr x hx
  exact (boundIn_quoting (hreach g hr) hx).1 rfl

end Placeholder

/-- A name is used early after another binding has failed in the same frame. -/
theorem placeholder_never_survives_early_use :
    Placeholder.ending.1 = .error (.fault (.uninitialised "h")) ∧
    Placeholder.ending.2.heap.Clean 0 ∧
    ∃ b q g, Point.WhileBinding ⟨b, Placeholder.earlyUse, 0, Placeholder.afterFailure, []⟩ g "h" q ∧
      q.Raises (.fault (.uninitialised "h")) Placeholder.ending.2 := by
  have hroot : ({} : Machine).withRoot.CleanAt 0 := .withRoot .empty
  have hfailing : Placeholder.failingBinding.Plain := by
    simp [Placeholder.failingBinding, Expr.Plain, Expr.Each]
  have hearly : Placeholder.earlyUse.Plain := by
    simp [Placeholder.earlyUse, Expr.Plain, Expr.Each, Value.Plain, Value.Each, Value.isProcedure]
  have hstop : Placeholder.ending.1 = .error (.fault (.uninitialised "h")) := by cbv
  have hending : (Limits.evaluate { stack := 20, rounds := 20 } Placeholder.earlyUse 0).exec
      Placeholder.afterFailure = (.error (.fault (.uninitialised "h")), Placeholder.ending.2) :=
    Prod.ext hstop rfl
  obtain ⟨hclean, _, _, _, horigin⟩ := placeholder_never_survives hroot.framed hroot.frame
    hroot.clean hroot.code [({ stack := 20, rounds := 20 }, Placeholder.failingBinding)]
    (List.forall_mem_singleton.mpr hfailing) hearly rfl hending
  obtain ⟨b, q, g, _, hraises, _, _, hbinding⟩ := horigin "h" rfl
  exact ⟨hstop, hclean, b, q, g, hbinding, hraises⟩

/-- Where a closure that can be reached quotes the placeholder, plain code in a clean frame makes
    the frame unclean and meets the placeholder without any `letrec`. -/
theorem quoting_closure_hands_out_placeholder :
    Placeholder.quoting.Framed ∧ Placeholder.quoting.heap.Clean 0 ∧ Placeholder.handOut.Plain ∧
    Placeholder.handedOut.1 = .error (.fault (.uninitialised "y")) ∧
    ¬ Placeholder.handedOut.2.heap.Clean 0 := by
  refine ⟨Placeholder.framed_quoting, Placeholder.clean_quoting, ?_, by cbv, ?_⟩
  · simp [Placeholder.handOut, Expr.Plain, Expr.Each, Value.Plain, Value.Each, Value.isProcedure]
  · intro hclean
    exact hclean 0 .refl "y" (by cbv)

end MiniLisp
