import Mathlib
import MiniLisp.Proofs.Sessions

/-!
# Frames are what their history says

Frames are shared: a definition in one of them changes what is seen from all frames inside it. But
what a frame shows can be told from what has been done, without looking at the heap: which frame
was made inside which, and what was bound where, in which order.

* `History`: the frames that were made and the bindings that succeeded. `Operation.record` adds an
  operation to it, from nothing but the operation and its answer.
* `Operation.exec_proper`: an operation that succeeds answers with a new frame, if it makes one.
* `History.Chain`, `History.Nearest`, `History.Last`: what a history says about a name in a frame.
* `History.Reaches`: a history of operations in any order, and the machine that they lead to.
* `Operation.exec_error_iff`: which operations fail, and that these change no frame.
* `History.Records`: the heap and the history agree. The heap may have more frames, as one is made
  before a binding in it fails. `History.Records.step`: every operation keeps this.
* `frames_show_their_history`: what follows for lookup, depth and later definitions.
-/

namespace MiniLisp

/-- What can be done to frames. -/
inductive Operation where
  /-- A new frame with none around it. -/
  | createRoot
  /-- A new frame inside another one. -/
  | extend (f : FrameId)
  /-- A definition under a name that is given as data. -/
  | define (f : FrameId) (key value : Datum)
  /-- A new frame for the argument of a closure with the given frame and parameter. -/
  | bind (f : FrameId) (key arg : Datum)

namespace Operation

/-- An operation as a request to the machine. -/
def request : Operation → Request
  | createRoot => .extend none
  | extend f => .extend (some f)
  | define f key v => .define f key v
  | bind f key v => .bind f key v

/-- Carries out an operation. -/
def perform (limits : Limits) (op : Operation) : Eval Answer := op.request.perform limits

/-- The frame that an operation refers to. -/
def frame? : Operation → Option FrameId
  | createRoot => none
  | extend f | define f _ _ | bind f _ _ => some f

/-- A definition or an argument under something other than a symbol. -/
def Improper (op : Operation) : Prop :=
  ∃ f key v, (op = .define f key v ∨ op = .bind f key v) ∧ ∀ x, key ≠ .symbol x

end Operation

/-! ## Histories -/

/-- What has been done: the frames that were made, each with the one around it, and the names that
    were bound, each with its frame and value; both in order. -/
structure History where
  made : List (FrameId × Option FrameId) := []
  bound : List (FrameId × String × Datum) := []

/-- Adds a frame that was made inside another one, or inside none. -/
def History.make (h : History) (f : FrameId) (outer : Option FrameId) : History :=
  { h with made := h.made ++ [(f, outer)] }

/-- Adds a name that was bound in a frame. -/
def History.bind (h : History) (f : FrameId) (x : String) (v : Datum) : History :=
  { h with bound := h.bound ++ [(f, x, v)] }

/-- Adds an operation that has had the given answer. One that has failed adds nothing. -/
def Operation.record (h : History) : Operation → Outcome Answer → History
  | createRoot, .ok (.frame g) => h.make g none
  | extend f, .ok (.frame g) => h.make g (some f)
  | define f (.symbol x) v, .ok .done => h.bind f x v
  | bind f (.symbol x) v, .ok (.frame g) => (h.make g (some f)).bind g x v
  | _, _ => h

/-- In a machine an operation is answered as given, and this adds to a history what makes it the
    other one. -/
def Operation.Adds (op : Operation) (limits : Limits) (m : Machine) (h : History) (a : Answer)
    (h' : History) : Prop :=
  ((op.perform limits).exec m).1 = .ok a ∧ op.record h (.ok a) = h'

namespace History

variable (h : History)

/-- The frame has been made. -/
def Has (f : FrameId) : Prop := ∃ o, (f, o) ∈ h.made

/-- The frames from one outwards. -/
inductive Chain : FrameId → List FrameId → Prop
  | root {f : FrameId} (made : (f, none) ∈ h.made) : Chain f [f]
  | outer {f o : FrameId} {fs : List FrameId} (made : (f, some o) ∈ h.made) (rest : Chain o fs) :
      Chain f (f :: fs)

/-- The name has been bound in the frame. -/
def Binds (f : FrameId) (x : String) : Prop := ∃ v, (f, x, v) ∈ h.bound

/-- The value is the last one that the name has been bound to in the frame. -/
def Last (f : FrameId) (x : String) (v : Datum) : Prop :=
  ∃ before after, h.bound = before ++ (f, x, v) :: after ∧ ∀ w, (f, x, w) ∉ after

/-- The nearest frame from one outwards in which the name has been bound. -/
def Nearest (f : FrameId) (x : String) (g : FrameId) : Prop :=
  ∃ inner outer, h.Chain f (inner ++ g :: outer) ∧ h.Binds g x ∧ ∀ e ∈ inner, ¬ h.Binds e x

/-- A frame is around another one, or both are inside the same one or inside none. -/
def Apart (f g : FrameId) : Prop :=
  (∃ fs, h.Chain f (f :: fs) ∧ g ∈ fs) ∨ g ≠ f ∧ ∃ o, (f, o) ∈ h.made ∧ (g, o) ∈ h.made

/-- The operations that have been carried out one after the other, from a machine without frames,
    each under limits of its own and on a frame that had been made, lead to a machine. -/
inductive Reaches : History → Machine → Prop
  | start : Reaches {} {}
  | step {h : History} {m : Machine} (before : Reaches h m) (op : Operation)
      (refers : ∀ f, op.frame? = some f → h.Has f) (limits : Limits) :
      Reaches (op.record h ((op.perform limits).exec m).1) ((op.perform limits).exec m).2

end History

/-! ## What an operation does -/

namespace Operation

variable (limits : Limits) (m : Machine)

theorem exec_createRoot : (createRoot.perform limits).exec m =
    (.ok (.frame m.heap.size), { m with heap := m.heap.alloc { outer := none } }) := rfl

theorem exec_extend (f : FrameId) : ((extend f).perform limits).exec m =
    (.ok (.frame m.heap.size), { m with heap := m.heap.alloc { outer := some f } }) := rfl

theorem exec_define (f : FrameId) (x : String) (v : Datum) :
    ((define f (.symbol x) v).perform limits).exec m = (.ok .done, m.define f x v) := rfl

theorem exec_bind (f : FrameId) (x : String) (v : Datum) :
    ((bind f (.symbol x) v).perform limits).exec m =
      (.ok (.frame m.heap.size), m.bindFrame f x v) :=
  Eval.exec_bind_ok (Eval.exec_bindFrame f x v m) _

/-- What fails leaves the machine as it was or, where an argument was to be bound, with the frame
    that was made for it. -/
theorem exec_improper {op : Operation} (hop : op.Improper) :
    ∃ s m', (op.perform limits).exec m = (.error s, m') ∧
      (m' = m ∨ ∃ f key v, op = .bind f key v ∧
        m' = { m with heap := m.heap.alloc { outer := some f } }) := by
  obtain ⟨f, key, v, rfl | rfl, hkey⟩ := hop
  · rcases Eval.exec_defineKey limits.stack f v key m with ⟨x, hx, -⟩ | ⟨-, s, hs⟩
    · exact absurd hx (hkey x)
    · exact ⟨s, m, Eval.exec_bind_error hs _, .inl rfl⟩
  · rcases Eval.exec_bindKey limits.stack f v key m with ⟨x, hx, -⟩ | ⟨-, s, hs⟩
    · exact absurd hx (hkey x)
    · exact ⟨s, _, Eval.exec_bind_error hs _, .inr ⟨f, key, v, rfl, rfl⟩⟩

theorem exists_symbol_of_proper {f : FrameId} {key v : Datum}
    (h : ¬ (define f key v).Improper ∨ ¬ (bind f key v).Improper) : ∃ x, key = .symbol x := by
  by_contra hne
  rcases h with h | h
  · exact h ⟨f, key, v, .inl rfl, not_exists.mp hne⟩
  · exact h ⟨f, key, v, .inr rfl, not_exists.mp hne⟩

theorem exec_proper {op : Operation} (hop : ¬ op.Improper) :
    ∃ a m', (op.perform limits).exec m = (.ok a, m') := by
  cases op with
  | createRoot => exact ⟨_, _, exec_createRoot limits m⟩
  | extend f => exact ⟨_, _, exec_extend limits m f⟩
  | define f key v =>
    obtain ⟨x, rfl⟩ := exists_symbol_of_proper (.inl hop)
    exact ⟨_, _, exec_define limits m f x v⟩
  | bind f key v =>
    obtain ⟨x, rfl⟩ := exists_symbol_of_proper (.inr hop)
    exact ⟨_, _, exec_bind limits m f x v⟩

/-- An operation fails exactly if it is improper. -/
theorem exec_error_iff {op : Operation} :
    (∃ s, ((op.perform limits).exec m).1 = .error s) ↔ op.Improper := by
  constructor
  · rintro ⟨s, hs⟩
    by_contra hop
    obtain ⟨a, m', ha⟩ := exec_proper limits m hop
    rw [ha] at hs
    cases hs
  · intro hop
    obtain ⟨s, m', hs, -⟩ := exec_improper limits m hop
    exact ⟨s, congrArg Prod.fst hs⟩

/-- What fails changes no frame, and nothing else but that there may be one more. -/
theorem unchanged_of_error {op : Operation} {s : Stop}
    (hs : ((op.perform limits).exec m).1 = .error s) :
    (∀ f < m.heap.size, ((op.perform limits).exec m).2.heap.frame? f = m.heap.frame? f) ∧
      (((op.perform limits).exec m).2 = m ∨ ∃ f key v, op = .bind f key v ∧
        ((op.perform limits).exec m).2 = { m with heap := m.heap.alloc { outer := some f } }) := by
  obtain ⟨_, m', heq, hm'⟩ := exec_improper limits m ((exec_error_iff limits m).mp ⟨s, hs⟩)
  rw [heq]
  refine ⟨fun g hg => ?_, hm'⟩
  rcases hm' with rfl | ⟨f, -, -, -, rfl⟩
  · rfl
  · exact Heap.frame?_alloc_of_lt hg _

theorem record_error (h : History) (op : Operation) (s : Stop) : op.record h (.error s) = h := by
  cases op with
  | createRoot | extend => rfl
  | define f key v | bind f key v => cases key <;> rfl

end Operation

/-! ## What a history records -/

namespace Heap

theorem boundIn?_alloc_empty (heap : Heap) (outer : Option FrameId) (x : String) (f : FrameId) :
    (heap.alloc { outer }).boundIn? x f = heap.boundIn? x f := by
  rcases Nat.lt_trichotomy f heap.size with hlt | rfl | hgt
  · exact boundIn?_alloc_of_lt hlt _ x
  · have hnone : heap.frame? heap.size = none := Array.getElem?_eq_none (Nat.le_refl _)
    rw [boundIn?_alloc_size, boundIn?, hnone]
    rfl
  · have hnone : heap.frame? f = none := Array.getElem?_eq_none (Nat.le_of_lt hgt)
    have hnone' : (heap.alloc { outer }).frame? f = none :=
      Array.getElem?_eq_none (by simpa [alloc, size] using hgt)
    rw [boundIn?, boundIn?, hnone, hnone']

end Heap

namespace History

variable {h : History} {heap : Heap} {f g o : FrameId} {x y : String} {v u : Datum}

theorem last_bind : (h.bind g y u).Last f x v ↔
    (f, x, v) = (g, y, u) ∨ (f, x) ≠ (g, y) ∧ h.Last f x v := by
  constructor
  · rintro ⟨before, after, heq, hafter⟩
    rcases List.eq_nil_or_concat after with rfl | ⟨after, w, rfl⟩
    · obtain ⟨-, hlast⟩ := List.append_inj' heq rfl
      exact .inl (List.singleton_inj.mp hlast).symm
    · have hlist : h.bound ++ [(g, y, u)] = before ++ (f, x, v) :: after ++ [w] := by
        simpa [History.bind] using heq
      obtain ⟨hbound, hw⟩ := List.append_inj' hlist rfl
      obtain rfl := List.singleton_inj.mp hw
      refine .inr ⟨fun hkey => hafter u ?_, before, after, hbound, fun w hw => hafter w ?_⟩
      · obtain ⟨rfl, rfl⟩ := Prod.mk.inj hkey
        simp
      · simp [hw]
  · rintro (hnew | ⟨hkey, before, after, heq, hafter⟩)
    · exact ⟨h.bound, [], by rw [hnew]; rfl, by simp⟩
    · refine ⟨before, after ++ [(g, y, u)], by simp [History.bind, heq], fun w hw => ?_⟩
      rcases List.mem_append.mp hw with hw | hw
      · exact hafter w hw
      · obtain ⟨rfl, hrest⟩ := Prod.mk.inj (List.mem_singleton.mp hw)
        obtain ⟨rfl, -⟩ := Prod.mk.inj hrest
        exact hkey rfl

theorem binds_iff : h.Binds f x ↔ ∃ v, h.Last f x v := by
  constructor
  · obtain ⟨made, bound⟩ := h
    rintro ⟨v, hv⟩
    induction bound using List.reverseRecOn with
    | nil => cases hv
    | append_singleton bound w ih =>
      obtain ⟨g, y, u⟩ := w
      by_cases hkey : (f, x) = (g, y)
      · obtain ⟨rfl, rfl⟩ := Prod.mk.inj hkey
        exact ⟨u, (last_bind (h := ⟨made, bound⟩)).mpr (.inl rfl)⟩
      · rcases List.mem_append.mp hv with hv | hv
        · obtain ⟨v', hlast⟩ := ih hv
          exact ⟨v', (last_bind (h := ⟨made, bound⟩)).mpr (.inr ⟨hkey, hlast⟩)⟩
        · cases List.mem_singleton.mp hv
          exact absurd rfl hkey
  · rintro ⟨v, before, after, heq, -⟩
    exact ⟨v, by simp [heq]⟩

/-- The frames of a history are frames of a heap, and the bindings of the heap are those of the
    history. -/
structure Records (h : History) (heap : Heap) : Prop where
  made : ∀ f o, (f, o) ∈ h.made → f < heap.size ∧ heap.outer? f = o
  outer : ∀ f o, (f, some o) ∈ h.made → h.Has o
  closed : heap.Closed (· < heap.size)
  boundIn?_iff : ∀ f x v, heap.boundIn? x f = some v ↔ h.Last f x v

namespace Records

theorem empty : Records {} {} where
  made := nofun
  outer := nofun
  closed f o hf _ := absurd hf (Nat.not_lt_zero f)
  boundIn?_iff f x v := by simp [Heap.boundIn?, Heap.frame?, Last]

theorem lt_size (hr : h.Records heap) (hf : h.Has f) : f < heap.size := by
  obtain ⟨o, ho⟩ := hf
  exact (hr.made f o ho).1

/-- The next frame of the heap has not been made yet. -/
theorem not_has_size (hr : h.Records heap) : ¬ h.Has heap.size :=
  fun hf => Nat.lt_irrefl _ (hr.lt_size hf)

/-- A frame that nobody is told of. -/
theorem leak (hr : h.Records heap) {outer : Option FrameId}
    (houter : ∀ o, outer = some o → o < heap.size) : h.Records (heap.alloc { outer }) where
  made f o ho := by
    obtain ⟨hf, heq⟩ := hr.made f o ho
    rw [Heap.size_alloc, Heap.outer?_alloc_of_lt hf]
    exact ⟨Nat.lt_succ_of_lt hf, heq⟩
  outer := hr.outer
  closed f o hf ho := by
    simp only [Heap.size_alloc] at hf ⊢
    rcases Nat.lt_succ_iff_lt_or_eq.mp hf with hlt | rfl
    · rw [Heap.outer?_alloc_of_lt hlt] at ho
      obtain ⟨hof, ho⟩ := hr.closed f o hlt ho
      exact ⟨hof, Nat.lt_succ_of_lt ho⟩
    · rw [Heap.outer?_alloc_size] at ho
      exact ⟨houter o ho, Nat.lt_succ_of_lt (houter o ho)⟩
  boundIn?_iff f x v := by
    rw [Heap.boundIn?_alloc_empty]
    exact hr.boundIn?_iff f x v

theorem alloc (hr : h.Records heap) {outer : Option FrameId}
    (houter : ∀ o, outer = some o → h.Has o) :
    (h.make heap.size outer).Records (heap.alloc { outer }) := by
  have hleak := hr.leak fun o ho => hr.lt_size (houter o ho)
  refine ⟨fun f o ho => ?_, fun f o ho => ?_, hleak.closed, hleak.boundIn?_iff⟩
  · rcases List.mem_append.mp ho with ho | ho
    · exact hleak.made f o ho
    · cases List.mem_singleton.mp ho
      rw [Heap.size_alloc, Heap.outer?_alloc_size]
      exact ⟨Nat.lt_succ_self _, rfl⟩
  · have hhas : h.Has o := by
      rcases List.mem_append.mp ho with ho | ho
      · exact hr.outer f o ho
      · cases List.mem_singleton.mp ho
        exact houter o rfl
    obtain ⟨o', ho'⟩ := hhas
    exact ⟨o', List.mem_append_left _ ho'⟩

theorem define (hr : h.Records heap) (hf : f < heap.size) (x : String) (v : Datum) :
    (h.bind f x v).Records (heap.define f x v) where
  made g o ho := by
    rw [Heap.size_define, Heap.outer?_define]
    exact hr.made g o ho
  outer := hr.outer
  closed g o hg ho := by
    rw [Heap.size_define] at hg ⊢
    rw [Heap.outer?_define] at ho
    exact hr.closed g o hg ho
  boundIn?_iff g y u := by
    rw [last_bind]
    by_cases hkey : (g, y) = (f, x)
    · obtain ⟨rfl, rfl⟩ := Prod.mk.inj hkey
      rw [Heap.boundIn?_define_self hf]
      simp [eq_comm]
    · have hne : f ≠ g ∨ y ≠ x := by
        rw [Prod.mk.injEq, not_and_or] at hkey
        exact hkey.imp_left Ne.symm
      have hnew : (g, y, u) ≠ (f, x, v) := by
        rintro ⟨⟩
        exact hkey rfl
      rw [Heap.boundIn?_define_of_ne heap hne, hr.boundIn?_iff]
      simp [hkey, hnew]

/-- An operation that fails may have made a frame, but nobody is told of it. -/
theorem step_of_error {m : Machine} (hr : h.Records m.heap) (op : Operation)
    (refers : ∀ f, op.frame? = some f → h.Has f) (limits : Limits) {s : Stop}
    (hs : ((op.perform limits).exec m).1 = .error s) :
    h.Records ((op.perform limits).exec m).2.heap := by
  obtain ⟨-, hm | ⟨f, key, v, rfl, hm⟩⟩ := Operation.unchanged_of_error limits m hs
  · rw [hm]
    exact hr
  · rw [hm]
    refine hr.leak ?_
    rintro o ⟨⟩
    exact hr.lt_size (refers f rfl)

/-- Every operation keeps the heap as its history says. -/
theorem step {m : Machine} (hr : h.Records m.heap) (op : Operation)
    (refers : ∀ f, op.frame? = some f → h.Has f) (limits : Limits) :
    (op.record h ((op.perform limits).exec m).1).Records ((op.perform limits).exec m).2.heap := by
  by_cases hop : op.Improper
  · obtain ⟨s, hs⟩ := (Operation.exec_error_iff limits m).mpr hop
    rw [hs, Operation.record_error]
    exact hr.step_of_error op refers limits hs
  cases op with
  | createRoot =>
    rw [Operation.exec_createRoot]
    refine hr.alloc ?_
    rintro o ⟨⟩
  | extend f =>
    rw [Operation.exec_extend]
    refine hr.alloc ?_
    rintro o ⟨⟩
    exact refers f rfl
  | define f key v =>
    obtain ⟨x, rfl⟩ := Operation.exists_symbol_of_proper (.inl hop)
    rw [Operation.exec_define]
    exact hr.define (hr.lt_size (refers f rfl)) x v
  | bind f key v =>
    obtain ⟨x, rfl⟩ := Operation.exists_symbol_of_proper (.inr hop)
    rw [Operation.exec_bind]
    have houter : ∀ o, some f = some o → h.Has o := by
      rintro o ⟨⟩
      exact refers f rfl
    have hbind := (hr.alloc houter).define (f := m.heap.size) (by simp) x v
    rw [Heap.define_alloc_size] at hbind
    exact hbind

end Records

theorem Reaches.records {m : Machine} (hm : h.Reaches m) : h.Records m.heap := by
  induction hm with
  | start => exact .empty
  | step _ op refers limits ih => exact ih.step op refers limits

end History

/-! ## What a history says -/

namespace Heap

variable {heap : Heap} {f g : FrameId} {fs fs' : List FrameId}

theorem Walk.lt_size (hw : heap.Walk f fs) : f < heap.size := by
  cases hw with
  | root allocated _ => exact allocated
  | outer around _ =>
    by_contra hge
    have hnone : heap.frame? f = none := Array.getElem?_eq_none (Nat.not_lt.mp hge)
    rw [outer?, hnone] at around
    cases around

theorem Walk.ne_nil (hw : heap.Walk f fs) : fs ≠ [] := by
  cases hw <;> exact List.cons_ne_nil _ _

theorem Walk.unique (hw : heap.Walk f fs) (hw' : heap.Walk f fs') : fs = fs' := by
  induction hw generalizing fs' with
  | root _ outermost =>
    cases hw' with
    | root => rfl
    | outer around _ =>
      rw [outermost] at around
      cases around
  | outer around _ ih =>
    cases hw' with
    | root _ outermost =>
      rw [outermost] at around
      cases around
    | outer around' rest' =>
      rw [around] at around'
      cases around'
      rw [ih rest']

/-- Frames further out have been allocated earlier. -/
theorem Closed.walk_pairwise (hclosed : heap.Closed (· < heap.size)) (hw : heap.Walk f fs) :
    fs.Pairwise (· > ·) ∧ ∀ g ∈ fs, g ≤ f := by
  induction hw with
  | root => simp
  | @outer f o fs around rest ih =>
    obtain ⟨hlt, -⟩ := hclosed f o (Walk.outer around rest).lt_size around
    obtain ⟨hpairwise, hle⟩ := ih
    have hbelow : ∀ g ∈ fs, g < f := fun g hg => Nat.lt_of_le_of_lt (hle g hg) hlt
    refine ⟨List.pairwise_cons.mpr ⟨hbelow, hpairwise⟩, ?_⟩
    exact List.forall_mem_cons.mpr ⟨Nat.le_refl f, fun g hg => (hbelow g hg).le⟩

theorem chain_define (heap : Heap) (f : FrameId) (x : String) (v : Datum) (g : FrameId) :
    (heap.define f x v).chain g = heap.chain g := by
  have hframe : ∀ g, ((heap.define f x v).frame? g).isSome = (heap.frame? g).isSome := by
    intro g
    rw [frame?_define]
    split <;> simp
  have hchain : ∀ n g, (heap.define f x v).chainUpTo n g = heap.chainUpTo n g := by
    intro n
    induction n with
    | zero => exact fun _ => rfl
    | succ n ih =>
      intro g
      rw [chainUpTo_succ, chainUpTo_succ, hframe, outer?_define, funext ih]
  exact hchain _ g

theorem findSome?_congr {α β : Type} {p q : α → Option β} {as : List α}
    (heq : ∀ a ∈ as, p a = q a) : as.findSome? p = as.findSome? q := by
  induction as with
  | nil => rfl
  | cons a as ih =>
    rw [List.forall_mem_cons] at heq
    rw [List.findSome?_cons, List.findSome?_cons, heq.1, ih heq.2]

/-- What a frame shows of a name depends on the frames of its chain only. -/
theorem lookup_define_of_notMem (hf : f ∉ heap.chain g) (x y : String) (v : Datum) :
    (heap.define f x v).find? g y = heap.find? g y ∧
      (heap.define f x v).lookup? g y = heap.lookup? g y := by
  have hbound : ∀ e ∈ heap.chain g, (heap.define f x v).boundIn? y e = heap.boundIn? y e := by
    intro e he
    exact boundIn?_define_of_ne heap (.inl (ne_of_mem_of_not_mem he hf).symm) v
  unfold find? lookup?
  rw [chain_define]
  constructor
  · exact List.find?_congr fun e he => by rw [hbound e he]
  · exact findSome?_congr hbound

/-- A definition in a frame of the chain is seen unless a frame before it binds the name. -/
theorem lookup?_define_of_chain {o : FrameId} {inner outer : List FrameId}
    (hchain : heap.chain f = inner ++ o :: outer) (ho : o < heap.size) (hinner : o ∉ inner)
    (x : String) (v : Datum) : (heap.define o x v).lookup? f x =
      (inner.findSome? (heap.boundIn? x)).or (some v) := by
  have hbound : ∀ e ∈ inner, (heap.define o x v).boundIn? x e = heap.boundIn? x e := by
    intro e he
    exact boundIn?_define_of_ne heap (.inl (ne_of_mem_of_not_mem he hinner).symm) v
  rw [lookup?, chain_define, hchain, List.findSome?_append, findSome?_congr hbound,
    List.findSome?_cons, boundIn?_define_self ho]

end Heap

namespace History.Records

variable {h : History} {heap : Heap} {f g o : FrameId} {fs : List FrameId} {x : String} {v : Datum}

theorem walk_of_chain (hr : h.Records heap) (hc : h.Chain f fs) : heap.Walk f fs := by
  induction hc with
  | root made =>
    obtain ⟨hf, hnone⟩ := hr.made _ _ made
    exact .root hf hnone
  | outer made _ ih => exact .outer (hr.made _ _ made).2 ih

theorem chain_of_walk (hr : h.Records heap) (hw : heap.Walk f fs) (hf : h.Has f) :
    h.Chain f fs := by
  induction hw with
  | root _ outermost =>
    obtain ⟨o, ho⟩ := hf
    cases outermost.symm.trans (hr.made _ _ ho).2
    exact .root ho
  | outer around _ ih =>
    obtain ⟨o, ho⟩ := hf
    cases around.symm.trans (hr.made _ _ ho).2
    exact .outer ho (ih (hr.outer _ _ ho))

theorem chain_iff (hr : h.Records heap) (hf : h.Has f) : h.Chain f fs ↔ fs = heap.chain f := by
  have hwalk : heap.Walk f (heap.chain f) := hr.closed.walk_chain (hr.lt_size hf)
  constructor
  · intro hc
    exact (hr.walk_of_chain hc).unique hwalk
  · rintro rfl
    exact hr.chain_of_walk hwalk hf

/-- The depth of a frame is one more than the number of frames on its chain that are inside another
    one. -/
theorem depth_eq (hr : h.Records heap) (hf : h.Has f) :
    ∃ inner root, (∀ fs, h.Chain f fs ↔ fs = inner ++ [root]) ∧
      heap.depth f = inner.length + 1 := by
  have hne : heap.chain f ≠ [] := (hr.closed.walk_chain (hr.lt_size hf)).ne_nil
  obtain ⟨inner, root, hchain⟩ : ∃ inner root, heap.chain f = inner ++ [root] :=
    ⟨_, _, (List.dropLast_append_getLast hne).symm⟩
  refine ⟨inner, root, fun fs => ?_, ?_⟩
  · rw [← hchain]
    exact hr.chain_iff hf
  · rw [Heap.depth, hchain, List.length_append, List.length_singleton]

theorem isSome_boundIn?_iff (hr : h.Records heap) :
    (heap.boundIn? x f).isSome ↔ h.Binds f x := by
  rw [binds_iff, Option.isSome_iff_exists]
  exact exists_congr fun v => hr.boundIn?_iff f x v

theorem boundIn?_eq_none_iff (hr : h.Records heap) : heap.boundIn? x f = none ↔ ¬ h.Binds f x := by
  rw [← hr.isSome_boundIn?_iff, Option.not_isSome_iff_eq_none]

theorem find?_iff (hr : h.Records heap) (hf : h.Has f) :
    heap.find? f x = some g ↔ h.Nearest f x g := by
  rw [Heap.find?, List.find?_eq_some_iff_append]
  simp only [Bool.not_eq_true', Bool.eq_false_iff, ne_eq, hr.isSome_boundIn?_iff]
  constructor
  · rintro ⟨hg, inner, outer, hchain, hinner⟩
    exact ⟨inner, outer, (hr.chain_iff hf).mpr hchain.symm, hg, hinner⟩
  · rintro ⟨inner, outer, hchain, hg, hinner⟩
    exact ⟨hg, inner, outer, ((hr.chain_iff hf).mp hchain).symm, hinner⟩

theorem lookup?_iff (hr : h.Records heap) (hf : h.Has f) :
    heap.lookup? f x = some v ↔ ∃ g, h.Nearest f x g ∧ h.Last g x v := by
  rw [Heap.lookup?, List.findSome?_eq_some_iff]
  simp only [hr.boundIn?_iff, hr.boundIn?_eq_none_iff]
  constructor
  · rintro ⟨inner, g, outer, hchain, hlast, hinner⟩
    have hbinds : h.Binds g x := binds_iff.mpr ⟨v, hlast⟩
    exact ⟨g, ⟨inner, outer, (hr.chain_iff hf).mpr hchain.symm, hbinds, hinner⟩, hlast⟩
  · rintro ⟨g, ⟨inner, outer, hchain, -, hinner⟩, hlast⟩
    exact ⟨inner, g, outer, ((hr.chain_iff hf).mp hchain).symm, hlast, hinner⟩

theorem lookup?_eq_none_iff (hr : h.Records heap) (hf : h.Has f) :
    heap.lookup? f x = none ↔ ¬ ∃ g, h.Nearest f x g := by
  rw [Option.eq_none_iff_forall_ne_some]
  simp only [ne_eq, hr.lookup?_iff hf]
  constructor
  · rintro hnone ⟨g, inner, outer, hchain, hbinds, hinner⟩
    obtain ⟨v, hlast⟩ := binds_iff.mp hbinds
    exact hnone v ⟨g, ⟨inner, outer, hchain, hbinds, hinner⟩, hlast⟩
  · rintro hnone v ⟨g, hg, -⟩
    exact hnone ⟨g, hg⟩

/-- A definition in a frame around another one is seen from there, unless it is shadowed. -/
theorem lookup?_define_around {inner outer : List FrameId} (hr : h.Records heap)
    (hchain : h.Chain f (inner ++ o :: outer)) (x : String) (v : Datum) :
    ((∀ e ∈ inner, ¬ h.Binds e x) → (heap.define o x v).lookup? f x = some v) ∧
      ((∃ e ∈ inner, h.Binds e x) → (heap.define o x v).lookup? f x = heap.lookup? f x) := by
  have hwalk := hr.walk_of_chain hchain
  obtain ⟨hpairwise, hle⟩ := hr.closed.walk_pairwise hwalk
  have heq : heap.chain f = inner ++ o :: outer :=
    (hr.closed.walk_chain hwalk.lt_size).unique hwalk
  have ho : o < heap.size := Nat.lt_of_le_of_lt (hle o (by simp)) hwalk.lt_size
  have hinner : o ∉ inner := by
    intro hmem
    have hlt : o > o := (List.pairwise_append.mp hpairwise).2.2 o hmem o (List.mem_cons_self ..)
    exact Nat.lt_irrefl o hlt
  rw [Heap.lookup?_define_of_chain heq ho hinner]
  constructor
  · intro hnone
    have hunbound : inner.findSome? (heap.boundIn? x) = none :=
      List.findSome?_eq_none_iff.mpr fun e he => hr.boundIn?_eq_none_iff.mpr (hnone e he)
    rw [hunbound]
    rfl
  · rintro ⟨e, he, hbinds⟩
    have hsome : inner.findSome? (heap.boundIn? x) ≠ none := by
      intro hnone
      have hunbound := List.findSome?_eq_none_iff.mp hnone e he
      exact hr.boundIn?_eq_none_iff.mp hunbound hbinds
    obtain ⟨w, hw⟩ := Option.ne_none_iff_exists'.mp hsome
    rw [Heap.lookup?, heq, List.findSome?_append, hw]
    rfl

theorem notMem_chain_of_apart (hr : h.Records heap) (ha : h.Apart f g) : f ∉ heap.chain g := by
  intro hmem
  rcases ha with ⟨fs, hchain, hg⟩ | ⟨hne, o, hfo, hgo⟩
  · -- a frame around it has been allocated earlier, and so have those around that one
    have hwalk := hr.walk_of_chain hchain
    have hlt : g < f := List.rel_of_pairwise_cons (hr.closed.walk_pairwise hwalk).1 hg
    have hwalk' := hr.closed.walk_chain (hlt.trans hwalk.lt_size)
    exact absurd ((hr.closed.walk_pairwise hwalk').2 f hmem) (Nat.not_le.mpr hlt)
  · -- the frames around a frame inside the same one are also around the frame itself
    obtain ⟨hf, rfl⟩ := hr.made f o hfo
    obtain ⟨hg, houter⟩ := hr.made g _ hgo
    have hwalk := hr.closed.walk_chain hg
    generalize heap.chain g = gs at hmem hwalk
    cases hwalk with
    | root => exact hne (List.mem_singleton.mp hmem).symm
    | @outer _ o _ around rest =>
      rcases List.mem_cons.mp hmem with rfl | hmem
      · exact hne rfl
      · have hle := (hr.closed.walk_pairwise rest).2 f hmem
        have hlt := (hr.closed f o hf (houter.symm.trans around)).1
        exact absurd hle (Nat.not_le.mpr hlt)

end History.Records

namespace Eval

variable {f : FrameId} {x : String} {v : Datum} {m m' : Machine}

theorem exec_lookup_ok_iff :
    (lookup f x).exec m = (.ok v, m) ↔ m.heap.lookup? f x = some v := by
  rw [exec_lookup]
  cases m.heap.lookup? f x <;> simp

theorem exec_lookup_unbound_iff :
    (lookup f x).exec m = (.error (.fault (.unbound x)), m) ↔ m.heap.lookup? f x = none := by
  rw [exec_lookup]
  cases m.heap.lookup? f x <;> simp

theorem exec_lookup_congr (heq : m'.heap.lookup? f x = m.heap.lookup? f x) :
    ((lookup f x).exec m').1 = ((lookup f x).exec m).1 := by
  rw [exec_lookup, exec_lookup, heq]
  cases m.heap.lookup? f x <;> rfl

end Eval

/-- Whatever is done to frames, in any order, the frames are what the history of it says. There is
    one chain from each frame outwards, and its depth is one more than the number of frames on it
    that were made inside another one. A name is found in the nearest frame of the chain in which it has
    been bound, and its value is the last one that it has been bound to there; it is unbound exactly
    if there is no such frame.

    A new root, a new frame inside another one and a new frame for an argument are frames that had
    not been made before, and are recorded with the frame around them; a definition and an argument
    are recorded with their frame. An operation fails exactly if it binds something other than a
    symbol. Then it adds nothing to the history and leaves every frame as it was: a definition that
    fails leaves the whole machine so, and an argument that is not bound leaves the new frame empty.

    A definition in a frame of the chain is seen, unless the name has been bound in a frame before
    that one; then nothing changes. It changes nothing for the frames around its own and for those
    beside it. -/
theorem frames_show_their_history {h : History} {m : Machine} (hm : h.Reaches m) :
    (∀ f, h.Has f →
      (∃ inner root, (∀ fs, h.Chain f fs ↔ fs = inner ++ [root]) ∧
        m.heap.depth f = inner.length + 1) ∧
      ∀ x, (∀ g, m.heap.find? f x = some g ↔ h.Nearest f x g) ∧
        (∀ v, (Eval.lookup f x).exec m = (.ok v, m) ↔ ∃ g, h.Nearest f x g ∧ h.Last g x v) ∧
        ((Eval.lookup f x).exec m = (.error (.fault (.unbound x)), m) ↔ ¬ ∃ g, h.Nearest f x g)) ∧
    (∀ limits, ∃ g, ¬ h.Has g ∧
      Operation.createRoot.Adds limits m h (.frame g) (h.make g none) ∧
      (∀ f, (Operation.extend f).Adds limits m h (.frame g) (h.make g (some f))) ∧
      (∀ f x v, (Operation.bind f (.symbol x) v).Adds limits m h (.frame g)
        ((h.make g (some f)).bind g x v)) ∧
      ∀ f x v, (Operation.define f (.symbol x) v).Adds limits m h .done (h.bind f x v)) ∧
    (∀ limits (op : Operation),
      ((∃ s, ((op.perform limits).exec m).1 = .error s) ↔ op.Improper) ∧
      ∀ s, ((op.perform limits).exec m).1 = .error s → op.record h (.error s) = h ∧
        (∀ f < m.heap.size, ((op.perform limits).exec m).2.heap.frame? f = m.heap.frame? f) ∧
        (((op.perform limits).exec m).2 = m ∨ ∃ f key v, op = .bind f key v ∧
          ((op.perform limits).exec m).2 = { m with heap := m.heap.alloc { outer := some f } })) ∧
    (∀ limits f inner o outer x v, h.Chain f (inner ++ o :: outer) →
      let m' := (((Operation.define o (.symbol x) v).perform limits).exec m).2
      ((∀ e ∈ inner, ¬ h.Binds e x) → (Eval.lookup f x).exec m' = (.ok v, m')) ∧
      ((∃ e ∈ inner, h.Binds e x) →
        ((Eval.lookup f x).exec m').1 = ((Eval.lookup f x).exec m).1)) ∧
    ∀ limits f g x v, h.Apart f g →
      let m' := (((Operation.define f (.symbol x) v).perform limits).exec m).2
      ∀ y, m'.heap.find? g y = m.heap.find? g y ∧
        ((Eval.lookup g y).exec m').1 = ((Eval.lookup g y).exec m).1 := by
  have hr := hm.records
  refine ⟨fun f hf => ⟨hr.depth_eq hf, fun x => ⟨fun g => hr.find?_iff hf, fun v => ?_, ?_⟩⟩,
    fun limits => ⟨m.heap.size, hr.not_has_size, ⟨rfl, rfl⟩, fun f => ⟨rfl, rfl⟩, fun f x v => ?_,
      fun f x v => ⟨rfl, rfl⟩⟩,
    fun limits op => ⟨Operation.exec_error_iff limits m, fun s hs => ⟨op.record_error h s, ?_⟩⟩,
    ?_, ?_⟩
  · rw [Eval.exec_lookup_ok_iff]
    exact hr.lookup?_iff hf
  · rw [Eval.exec_lookup_unbound_iff]
    exact hr.lookup?_eq_none_iff hf
  · exact ⟨by rw [Operation.exec_bind], rfl⟩
  · exact Operation.unchanged_of_error limits m hs
  · intro limits f inner o outer x v hchain
    obtain ⟨hseen, hshadowed⟩ := hr.lookup?_define_around hchain x v
    rw [Operation.exec_define]
    exact ⟨fun hnone => Eval.exec_lookup_ok_iff.mpr (hseen hnone),
      fun hsome => Eval.exec_lookup_congr (hshadowed hsome)⟩
  · intro limits f g x v hapart
    rw [Operation.exec_define]
    intro m' y
    obtain ⟨hfind, hlookup⟩ :=
      Heap.lookup_define_of_notMem (hr.notMem_chain_of_apart hapart) x y v
    exact ⟨hfind, Eval.exec_lookup_congr hlookup⟩

namespace FrameHistory

/-- A root, a frame inside it, and a frame for an argument inside that one. A name has been bound in
    the root, and once more after the others had been made. -/
def history : History where
  made := [(0, none), (1, some 0), (3, some 1)]
  bound := [(0, "x", .int 1), (3, "y", .int 3), (0, "x", .int 4)]

/-- The machine that this leads to. It has one more frame, made for an argument that could not be
    bound. -/
def machine : Machine where
  heap := ⟨#[{ bindings := [("x", .int 4)] }, { outer := some 0 }, { outer := some 1 },
    { bindings := [("y", .int 3)], outer := some 1 }]⟩

theorem history_reaches : history.Reaches machine := by
  have hroot : History.Reaches _ _ := .step .start .createRoot (by rintro f ⟨⟩) ⟨1, 1⟩
  have hbound := hroot.step (.define 0 (.symbol "x") (.int 1))
    (by rintro f ⟨⟩; exact ⟨none, .head _⟩) ⟨1, 1⟩
  have hinside := hbound.step (.extend 0) (by rintro f ⟨⟩; exact ⟨none, .head _⟩) ⟨1, 1⟩
  -- a text is no name, so that this definition fails, and this argument is not bound
  have hfailed := hinside.step (.define 1 (.text "x") (.int 2))
    (by rintro f ⟨⟩; exact ⟨some 0, .tail _ (.head _)⟩) ⟨1, 1⟩
  have hunbound := hfailed.step (.bind 1 (.text "y") (.int 2))
    (by rintro f ⟨⟩; exact ⟨some 0, .tail _ (.head _)⟩) ⟨1, 1⟩
  have hcalled := hunbound.step (.bind 1 (.symbol "y") (.int 3))
    (by rintro f ⟨⟩; exact ⟨some 0, .tail _ (.head _)⟩) ⟨1, 1⟩
  exact hcalled.step (.define 0 (.symbol "x") (.int 4))
    (by rintro f ⟨⟩; exact ⟨none, .head _⟩) ⟨1, 1⟩

end FrameHistory

/-- The innermost frame shows the value that the root was given last, although the frame was made
    before that, and the frame around it does not show the argument. -/
theorem frames_show_their_history_later :
    FrameHistory.history.Reaches FrameHistory.machine ∧
    FrameHistory.machine.heap.depth 3 = 3 ∧ FrameHistory.machine.heap.find? 3 "x" = some 0 ∧
    (Eval.lookup 3 "x").exec FrameHistory.machine = (.ok (.int 4), FrameHistory.machine) ∧
    (Eval.lookup 1 "y").exec FrameHistory.machine =
      (.error (.fault (.unbound "y")), FrameHistory.machine) := by
  obtain ⟨hframes, -⟩ := frames_show_their_history FrameHistory.history_reaches
  have hroot : FrameHistory.history.Chain 0 [0] := .root (.head _)
  have hchain : FrameHistory.history.Chain 1 [1, 0] := .outer (.tail _ (.head _)) hroot
  have hlong : FrameHistory.history.Chain 3 [3, 1, 0] :=
    .outer (.tail _ (.tail _ (.head _))) hchain
  have hnearest : FrameHistory.history.Nearest 3 "x" 0 := by
    refine ⟨[3, 1], [], hlong, ⟨.int 1, .head _⟩, ?_⟩
    simp [FrameHistory.history, History.Binds]
  have hlast : FrameHistory.history.Last 0 "x" (.int 4) :=
    ⟨[(0, "x", .int 1), (3, "y", .int 3)], [], rfl, by simp⟩
  obtain ⟨⟨inner, root, hunique, -⟩, houter⟩ := hframes 1 ⟨some 0, .tail _ (.head _)⟩
  have hunbound : ¬ ∃ g, FrameHistory.history.Nearest 1 "y" g := by
    rintro ⟨g, inner', outer', hchain', ⟨v, hv⟩, -⟩
    have heq : inner' ++ g :: outer' = [1, 0] :=
      ((hunique _).mp hchain').trans ((hunique _).mp hchain).symm
    have hmem : g ∈ [1, 0] := by simp [← heq]
    obtain ⟨rfl, -⟩ : g = 3 ∧ v = .int 3 := by simpa [FrameHistory.history] using hv
    exact absurd hmem (by decide)
  obtain ⟨⟨inner', root', hunique', hdepth⟩, hshown⟩ :=
    hframes 3 ⟨some 1, .tail _ (.tail _ (.head _))⟩
  have hlength : inner'.length + 1 = 3 := by
    simpa using (congrArg List.length ((hunique' _).mp hlong)).symm
  obtain ⟨hfind, hvalue, -⟩ := hshown "x"
  exact ⟨FrameHistory.history_reaches, hdepth.trans hlength, (hfind 0).mpr hnearest,
    (hvalue _).mpr ⟨0, hnearest, hlast⟩, (houter "y").2.2.mpr hunbound⟩

end MiniLisp
