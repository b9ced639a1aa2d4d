import MiniLisp.Proofs.Lookup
import MiniLisp.Proofs.Simulation

/-!
# Heaps that differ in generated names

Two runs that differ only in the names generated for loops allocate their frames in the same
order. A `Layout` says what is known of these frames: each has the same outer frame in both
heaps, the names that the program uses are bound to related values, and what else is bound in
it is recorded, for each of the heaps, when the frame is made.

* `Layout`, `Place`: the frames of two heaps, with what each of them binds besides the names in
  use. Layouts are ordered by the addition of frames.
* `Layout.Relates`: two machines whose heaps are as a layout says.
* `Layout.correspondence`: layouts as the worlds of a correspondence between runs, and what the
  elementary computations do in it.
-/

namespace MiniLisp

/-- A frame of two heaps. -/
structure Place where
  /-- Whether all names are bound to related values, or only those in use. -/
  common : Bool
  outer : Option FrameId
  /-- What the frame of the first heap binds besides. -/
  extra₁ : Bindings := []
  /-- What the frame of the second heap binds besides. -/
  extra₂ : Bindings := []

/-- The frame binds the name to related values, if at all. -/
def Place.Covers (used : List String) (p : Place) (x : String) : Prop :=
  p.common = true ∨ x ∈ used

/-- The frames of two heaps of one size; about some of them nothing is said. -/
structure Layout where
  size : Nat
  place : FrameId → Option Place

namespace Layout

/-- The layout after one more frame has been allocated. -/
def push (w : Layout) (p : Place) : Layout where
  size := w.size + 1
  place f := if f = w.size then some p else w.place f

/-- A frame has the given place. -/
def Has (w : Layout) (f : FrameId) (p : Place) : Prop := f < w.size ∧ w.place f = some p

instance : Preorder Layout where
  le w w' := w.size ≤ w'.size ∧ ∀ f < w.size, w'.place f = w.place f
  le_refl _ := ⟨le_rfl, fun _ _ => rfl⟩
  le_trans w w' w'' h h' :=
    ⟨h.1.trans h'.1, fun f hf => (h'.2 f (lt_of_lt_of_le hf h.1)).trans (h.2 f hf)⟩

variable {w w' : Layout} {f : FrameId} {p q : Place}

/-- The layout of heaps about which nothing is known but their size. -/
def blank (n : Nat) : Layout := ⟨n, fun _ => none⟩

theorem Has.mono (h : w.Has f p) (hw : w ≤ w') : w'.Has f p :=
  ⟨lt_of_lt_of_le h.1 hw.1, (hw.2 f h.1).trans h.2⟩

theorem not_has_blank {n : Nat} : ¬ (blank n).Has f p := fun h => nomatch h.2

theorem le_push (w : Layout) (p : Place) : w ≤ w.push p :=
  ⟨Nat.le_succ _, fun _ hf => if_neg (Nat.ne_of_lt hf)⟩

theorem has_push (w : Layout) (p : Place) : (w.push p).Has w.size p :=
  ⟨Nat.lt_succ_self _, if_pos rfl⟩

/-- A frame of the larger layout is the new one or was there before. -/
theorem Has.of_push (h : (w.push p).Has f q) : f = w.size ∧ q = p ∨ w.Has f q := by
  obtain ⟨hlt, hplace⟩ := h
  have hplace : (if f = w.size then some p else w.place f) = some q := hplace
  by_cases hf : f = w.size
  · rw [if_pos hf] at hplace
    exact .inl ⟨hf, (Option.some.inj hplace).symm⟩
  · rw [if_neg hf] at hplace
    exact .inr ⟨Nat.lt_of_le_of_ne (Nat.le_of_lt_succ hlt) hf, hplace⟩

/-! ## Heaps that are as a layout says -/

/-- Outer frames are allocated earlier, and those of a common frame are common. -/
def Ordered (w : Layout) : Prop :=
  ∀ f p o, w.Has f p → p.outer = some o →
    o < f ∧ ∃ q, w.Has o q ∧ (p.common = true → q.common = true)

/-- A heap is as a layout says, as far as this concerns one heap; `extra` selects it. -/
structure Describes (w : Layout) (used : List String) (extra : Place → Bindings) (h : Heap) :
    Prop where
  size : h.size = w.size
  outer : ∀ f p, w.Has f p → h.outer? f = p.outer
  rest : ∀ f p, w.Has f p → ∀ x, ¬ p.Covers used x → h.boundIn? x f = (extra p).get? x

/-- Two machines whose heaps are as a layout says, with `V` as the relation between values.
    The layout is one of those that are `allowed`. -/
structure Relates (w : Layout) (used : List String) (allowed : Layout → Prop)
    (V : Datum → Datum → Prop) (m₁ m₂ : Machine) : Prop where
  allow : allowed w
  ordered : w.Ordered
  left : w.Describes used Place.extra₁ m₁.heap
  right : w.Describes used Place.extra₂ m₂.heap
  bound : ∀ f p, w.Has f p → ∀ x, p.Covers used x →
    Option.Rel V (m₁.heap.boundIn? x f) (m₂.heap.boundIn? x f)
  output : m₁.output = m₂.output
  nextId : m₁.nextId = m₂.nextId

variable {used : List String} {extra : Place → Bindings} {h : Heap}

/-- The frames that have a place are closed under going outwards. -/
theorem Describes.closed (hd : w.Describes used extra h) (hw : w.Ordered) :
    h.Closed fun f => ∃ p, w.Has f p := by
  rintro f o ⟨p, hp⟩ ho
  rw [hd.outer f p hp] at ho
  obtain ⟨hlt, q, hq, _⟩ := hw f p o hp ho
  exact ⟨hlt, q, hq⟩

theorem Describes.lookup?_eq (hd : w.Describes used extra h) (hw : w.Ordered) (hp : w.Has f p)
    (x : String) :
    h.lookup? f x = (h.boundIn? x f).or (p.outer.bind fun o => h.lookup? o x) := by
  rw [(hd.closed hw).lookup?_eq ⟨p, hp⟩, hd.outer f p hp]

theorem Describes.alloc (hd : w.Describes used extra h) {bs : Bindings}
    (hbs : ∀ x, ¬ p.Covers used x → bs.get? x = (extra p).get? x) :
    (w.push p).Describes used extra (h.alloc { bindings := bs, outer := p.outer }) := by
  refine ⟨by rw [Heap.size_alloc, hd.size, push], ?_, ?_⟩
  · intro f q hq
    rcases hq.of_push with ⟨rfl, rfl⟩ | hq
    · rw [← hd.size, Heap.outer?_alloc_size]
    · rw [Heap.outer?_alloc_of_lt (hd.size ▸ hq.1), hd.outer f q hq]
  · intro f q hq x hx
    rcases hq.of_push with ⟨rfl, rfl⟩ | hq
    · rw [← hd.size, Heap.boundIn?_alloc_size, hbs x hx]
    · rw [Heap.boundIn?_alloc_of_lt (hd.size ▸ hq.1), hd.rest f q hq x hx]

theorem Describes.define (hd : w.Describes used extra h) {x : String} (hp : w.Has f p)
    (hx : p.Covers used x) (v : Datum) : w.Describes used extra (h.define f x v) := by
  refine ⟨by rw [Heap.size_define, hd.size], ?_, ?_⟩
  · intro g q hq
    rw [Heap.outer?_define, hd.outer g q hq]
  · intro g q hq y hy
    have hne : f ≠ g ∨ y ≠ x := by
      by_contra hcon
      rw [not_or, not_not, not_not] at hcon
      obtain ⟨rfl, rfl⟩ := hcon
      have hpq : p = q := Option.some.inj (hp.2.symm.trans hq.2)
      exact hy (hpq ▸ hx)
    rw [Heap.boundIn?_define_of_ne _ hne, hd.rest g q hq y hy]

/-! ## Names that are not in use -/

/-- A name that is not in use is found from a frame: it is bound there, or in an outer frame
    and not before. -/
inductive Finds (w : Layout) (extra : Place → Bindings) (x : String) (v : Datum) :
    FrameId → Prop
  | here {f : FrameId} {p : Place} (has : w.Has f p) (own : p.common = false)
      (hit : (extra p).get? x = some v) : Finds w extra x v f
  | outer {f o : FrameId} {p : Place} (has : w.Has f p) (own : p.common = false)
      (miss : (extra p).get? x = none) (link : p.outer = some o) (rest : Finds w extra x v o) :
      Finds w extra x v f

theorem Finds.mono {x : String} {v : Datum} (hf : w.Finds extra x v f) (hw : w ≤ w') :
    w'.Finds extra x v f := by
  induction hf with
  | here hp hown hit => exact .here (hp.mono hw) hown hit
  | outer hp hown hmiss hlink _ ih => exact .outer (hp.mono hw) hown hmiss hlink ih

theorem Describes.lookup?_of_finds (hd : w.Describes used extra h) (hw : w.Ordered) {x : String}
    {v : Datum} (hx : x ∉ used) (hf : w.Finds extra x v f) : h.lookup? f x = some v := by
  induction hf with
  | @here f p hp hown hit =>
    have hcov : ¬ p.Covers used x := by simp [Place.Covers, hown, hx]
    rw [hd.lookup?_eq hw hp, hd.rest f p hp x hcov, hit, Option.some_or]
  | @outer f o p hp hown hmiss hlink _ ih =>
    have hcov : ¬ p.Covers used x := by simp [Place.Covers, hown, hx]
    rw [hd.lookup?_eq hw hp, hd.rest f p hp x hcov, hmiss, Option.none_or, hlink, Option.bind_some,
      ih]

/-! ## Machines that are as a layout says -/

namespace Relates

variable {allowed : Layout → Prop} {V V' : Datum → Datum → Prop} {m₁ m₂ : Machine}

theorem blank {m : Machine} (hallow : allowed (Layout.blank m.heap.size)) :
    (Layout.blank m.heap.size).Relates used allowed V m m where
  allow := hallow
  ordered _ _ _ hp := absurd hp not_has_blank
  left := ⟨rfl, fun _ _ hp => absurd hp not_has_blank, fun _ _ hp => absurd hp not_has_blank⟩
  right := ⟨rfl, fun _ _ hp => absurd hp not_has_blank, fun _ _ hp => absurd hp not_has_blank⟩
  bound _ _ hp := absurd hp not_has_blank
  output := rfl
  nextId := rfl

theorem imp (hr : w.Relates used allowed V m₁ m₂) (hV : ∀ v₁ v₂, V v₁ v₂ → V' v₁ v₂) :
    w.Relates used allowed V' m₁ m₂ where
  __ := hr
  bound f p hp x hx := by
    have hrel := hr.bound f p hp x hx
    revert hrel
    generalize m₁.heap.boundIn? x f = a
    generalize m₂.heap.boundIn? x f = b
    rintro (⟨hab⟩ | _)
    · exact .some (hV _ _ hab)
    · exact .none

theorem write (hr : w.Relates used allowed V m₁ m₂) (line : String) :
    w.Relates used allowed V (m₁.write line) (m₂.write line) where
  __ := hr
  output := by rw [Machine.write, Machine.write, hr.output]

theorem takeId (hr : w.Relates used allowed V m₁ m₂) :
    w.Relates used allowed V m₁.takeId m₂.takeId where
  __ := hr
  nextId := by rw [Machine.takeId, Machine.takeId, hr.nextId]

theorem define (hr : w.Relates used allowed V m₁ m₂) {x : String} {v₁ v₂ : Datum} (hp : w.Has f p)
    (hx : p.Covers used x) (hv : V v₁ v₂) :
    w.Relates used allowed V (m₁.define f x v₁) (m₂.define f x v₂) where
  __ := hr
  left := hr.left.define hp hx v₁
  right := hr.right.define hp hx v₂
  bound g q hq y hy := by
    by_cases hgy : f = g ∧ y = x
    · obtain ⟨rfl, rfl⟩ := hgy
      have hlt₁ : f < m₁.heap.size := hr.left.size ▸ hp.1
      have hlt₂ : f < m₂.heap.size := hr.right.size ▸ hp.1
      simp only [Machine.define, Heap.boundIn?_define_self hlt₁, Heap.boundIn?_define_self hlt₂]
      exact .some hv
    · have hne : f ≠ g ∨ y ≠ x := not_and_or.mp hgy
      simp only [Machine.define, Heap.boundIn?_define_of_ne _ hne]
      exact hr.bound g q hq y hy

/-- A frame is allocated on both sides, with the outer frame and the further names that its
    place records. -/
theorem alloc (hr : w.Relates used allowed V m₁ m₂) (p : Place) (bs₁ bs₂ : Bindings)
    (hallow : allowed (w.push p))
    (houter : ∀ o, p.outer = some o → ∃ q, w.Has o q ∧ (p.common = true → q.common = true))
    (hbound : ∀ x, p.Covers used x → Option.Rel V (bs₁.get? x) (bs₂.get? x))
    (hrest : ∀ x, ¬ p.Covers used x →
      bs₁.get? x = p.extra₁.get? x ∧ bs₂.get? x = p.extra₂.get? x) :
    (w.push p).Relates used allowed V
      { m₁ with heap := m₁.heap.alloc { bindings := bs₁, outer := p.outer } }
      { m₂ with heap := m₂.heap.alloc { bindings := bs₂, outer := p.outer } } where
  allow := hallow
  ordered := by
    intro f q o hq ho
    rcases hq.of_push with ⟨rfl, rfl⟩ | hq
    · obtain ⟨q', hq', hcommon⟩ := houter o ho
      exact ⟨hq'.1, q', hq'.mono (le_push w _), hcommon⟩
    · obtain ⟨hlt, q', hq', hcommon⟩ := hr.ordered f q o hq ho
      exact ⟨hlt, q', hq'.mono (le_push w p), hcommon⟩
  left := hr.left.alloc fun x hx => (hrest x hx).1
  right := hr.right.alloc fun x hx => (hrest x hx).2
  bound f q hq x hx := by
    rcases hq.of_push with ⟨rfl, rfl⟩ | hq
    · have h₁ := Heap.boundIn?_alloc_size m₁.heap { bindings := bs₁, outer := q.outer } x
      have h₂ := Heap.boundIn?_alloc_size m₂.heap { bindings := bs₂, outer := q.outer } x
      rw [hr.left.size] at h₁
      rw [hr.right.size] at h₂
      rw [h₁, h₂]
      exact hbound x hx
    · rw [Heap.boundIn?_alloc_of_lt (hr.left.size ▸ hq.1),
        Heap.boundIn?_alloc_of_lt (hr.right.size ▸ hq.1)]
      exact hr.bound f q hq x hx
  output := hr.output
  nextId := hr.nextId

/-- A frame is allocated that binds no name in use. -/
theorem allocExtra (hr : w.Relates used allowed V m₁ m₂) (p : Place) (hown : p.common = false)
    (hallow : allowed (w.push p))
    (houter : ∀ o, p.outer = some o → ∃ q, w.Has o q)
    (hextra : ∀ x ∈ used, p.extra₁.get? x = none ∧ p.extra₂.get? x = none) :
    (w.push p).Relates used allowed V
      { m₁ with heap := m₁.heap.alloc { bindings := p.extra₁, outer := p.outer } }
      { m₂ with heap := m₂.heap.alloc { bindings := p.extra₂, outer := p.outer } } := by
  have hsort : ∀ o, p.outer = some o → ∃ q, w.Has o q ∧ (p.common = true → q.common = true) := by
    intro o ho
    obtain ⟨q, hq⟩ := houter o ho
    exact ⟨q, hq, fun hcommon => absurd hcommon (hown ▸ Bool.false_ne_true)⟩
  refine hr.alloc p p.extra₁ p.extra₂ hallow hsort (fun x hx => ?_) fun _ _ => ⟨rfl, rfl⟩
  obtain ⟨h₁, h₂⟩ := hextra x (hx.resolve_left (hown ▸ Bool.false_ne_true))
  rw [h₁, h₂]
  exact .none

/-- A frame is allocated that binds one name, which it covers, to related values. -/
theorem allocOne (hr : w.Relates used allowed V m₁ m₂) {common : Bool} {outer : Option FrameId}
    {x : String} {v₁ v₂ : Datum} (hallow : allowed (w.push { common, outer }))
    (houter : ∀ o, outer = some o → ∃ q, w.Has o q ∧ (common = true → q.common = true))
    (hx : common = true ∨ x ∈ used) (hv : V v₁ v₂) :
    (w.push { common, outer }).Relates used allowed V
      { m₁ with heap := m₁.heap.alloc { bindings := [(x, v₁)], outer } }
      { m₂ with heap := m₂.heap.alloc { bindings := [(x, v₂)], outer } } := by
  refine hr.alloc { common, outer } [(x, v₁)] [(x, v₂)] hallow houter (fun y _ => ?_) fun y hy => ?_
  · by_cases hy : y = x
    · subst hy
      simp only [Bindings.get?, List.lookup_cons_self]
      exact .some hv
    · rw [Bindings.get?_singleton_of_ne hy, Bindings.get?_singleton_of_ne hy]
      exact .none
  · have hyx : y ≠ x := fun heq => hy (heq ▸ hx)
    exact ⟨Bindings.get?_singleton_of_ne hyx v₁, Bindings.get?_singleton_of_ne hyx v₂⟩

/-- A root frame is made on both sides. -/
theorem withRoot (hr : w.Relates used allowed V m₁ m₂) (hused : "print" ∈ used)
    (hallow : allowed (w.push { common := false, outer := none }))
    (hV : ∀ i, V (.native i "print" .print) (.native i "print" .print)) :
    (w.push { common := false, outer := none }).Relates used allowed V m₁.withRoot m₂.withRoot := by
  have hprint : V (.native m₁.nextId "print" .print) (.native m₂.nextId "print" .print) := by
    rw [hr.nextId]
    exact hV _
  exact (hr.allocOne hallow (fun o ho => nomatch ho) (.inr hused) hprint).takeId

/-- A name that a frame covers is looked up alike on both sides. -/
theorem lookup?_rel (hr : w.Relates used allowed V m₁ m₂) {x : String} (hp : w.Has f p)
    (hx : p.Covers used x) :
    Option.Rel V (m₁.heap.lookup? f x) (m₂.heap.lookup? f x) := by
  induction f using Nat.strongRecOn generalizing p with
  | ind f ih =>
    rw [hr.left.lookup?_eq hr.ordered hp, hr.right.lookup?_eq hr.ordered hp]
    have hrel := hr.bound f p hp x hx
    revert hrel
    generalize m₁.heap.boundIn? x f = a
    generalize m₂.heap.boundIn? x f = b
    rintro (⟨hab⟩ | _)
    · exact .some hab
    · -- neither frame binds the name, and both go on in the same outer frame
      rw [Option.none_or, Option.none_or]
      cases ho : p.outer with
      | none => exact .none
      | some o =>
        obtain ⟨hlt, q, hq, hcommon⟩ := hr.ordered f p o hp ho
        exact ih o hlt hq (hx.imp hcommon id)

end Relates

/-! ## Layouts as worlds -/

section Correspondence

open Correspondence

variable (used : List String) (allowed : Layout → Prop)
  (closures : Layout → String → Expr → FrameId → Expr → FrameId → Prop)
  (code : Layout → Expr → FrameId → Expr → FrameId → Prop)

/-- Runs whose machines are as a layout says. Objects have the same identities on both sides. -/
def correspondence : Correspondence Layout where
  ids _ := Eq
  closures := closures
  code := code
  machines w := w.Relates used allowed (Value.Alike Eq (closures w))

variable {used allowed closures code}

theorem write_simulates (line : String) :
    (correspondence used allowed closures code).Simulates w (fun _ _ _ => True)
      (Eval.write line) (Eval.write line) := by
  intro m₁ m₂ hm
  rw [Eval.exec_write, Eval.exec_write]
  exact ⟨w, le_rfl, hm.write line, trivial⟩

theorem freshId_simulates :
    (correspondence used allowed closures code).Simulates w (fun _ => Eq)
      Eval.freshId Eval.freshId := by
  intro m₁ m₂ hm
  rw [Eval.exec_freshId, Eval.exec_freshId]
  exact ⟨w, le_rfl, hm.takeId, hm.nextId⟩

theorem define_simulates {x : String} (hp : w.Has f p) (hx : p.Covers used x) {v₁ v₂ : Datum}
    (hv : (correspondence used allowed closures code).values w v₁ v₂) :
    (correspondence used allowed closures code).Simulates w (fun _ _ _ => True)
      (Eval.define f x v₁) (Eval.define f x v₂) := by
  intro m₁ m₂ hm
  rw [Eval.exec_define, Eval.exec_define]
  exact ⟨w, le_rfl, hm.define hp hx hv, trivial⟩

theorem assignable {x : String} (hp : w.Has f p) (hx : p.Covers used x) :
    (correspondence used allowed closures code).Assignable w x f f :=
  fun _ hw _ _ hv => define_simulates (hp.mono hw) hx hv

theorem read_simulates {x : String} (hp : w.Has f p) (hx : p.Covers used x) :
    (correspondence used allowed closures code).Simulates w
      (correspondence used allowed closures code).values
      (Direct.read f x) (Direct.read f x) :=
  Correspondence.read_simulates fun _ _ hm => hm.lookup?_rel hp hx

/-- A generated name is read off the place that records it. -/
theorem exec_read_of_finds {x : String} {i : ObjectId} {param : String} {body : Expr}
    {frame : FrameId} {m : Machine} (hd : w.Describes used extra m.heap) (hw : w.Ordered)
    (hx : x ∉ used) (hf : w.Finds extra x (.closure i param body frame) f) :
    (Direct.read f x).exec m = (.ok (.closure i param body frame), m) := by
  rw [Direct.exec_read, hd.lookup?_of_finds hw hx hf]

section Growing

variable (hclosures : ∀ {w w'}, w ≤ w' → ∀ x e₁ f₁ e₂ f₂,
  closures w x e₁ f₁ e₂ f₂ → closures w' x e₁ f₁ e₂ f₂)
include hclosures

theorem Relates.grow {m₁ m₂ : Machine} (hw : w ≤ w')
    (hr : w'.Relates used allowed (Value.Alike Eq (closures w)) m₁ m₂) :
    w'.Relates used allowed (Value.Alike Eq (closures w')) m₁ m₂ :=
  hr.imp fun _ _ hv => hv.mono (fun _ _ h => h) (hclosures hw)

/-- The frame of a name that the frame around it covers. -/
theorem bindFrame_simulates
    (hallow : allowed w → allowed (w.push { common := p.common, outer := some f }))
    {x : String} (hp : w.Has f p) (hx : p.Covers used x) {v₁ v₂ : Datum}
    (hv : (correspondence used allowed closures code).values w v₁ v₂) :
    (correspondence used allowed closures code).Simulates w
      (fun w' g₁ g₂ => g₁ = g₂ ∧ w'.Has g₁ { common := p.common, outer := some f })
      (Eval.bindFrame f x v₁) (Eval.bindFrame f x v₂) := by
  intro m₁ m₂ hm
  let q : Place := { common := p.common, outer := some f }
  have halloc := hm.allocOne (hallow hm.allow) (fun o ho => ⟨p, Option.some.inj ho ▸ hp, id⟩) hx hv
  rw [Eval.exec_bindFrame, Eval.exec_bindFrame]
  refine ⟨w.push q, le_push w q, Relates.grow hclosures (le_push w q) halloc, ?_⟩
  refine ⟨hm.left.size.trans hm.right.size.symm, ?_⟩
  rw [hm.left.size]
  exact has_push w q

/-- The parts of a `letrec` are evaluated in a frame inside the given one. -/
theorem matches_letrec
    (hallow : allowed w → allowed (w.push { common := p.common, outer := some f }))
    {x : String} (hp : w.Has f p) (hx : p.Covers used x) {e₁ e₂ b₁ b₂ : Expr}
    (hparts : ∀ w', w ≤ w' → ∀ g, w'.Has g { common := p.common, outer := some f } →
      code w' e₁ g e₂ g ∧ code w' b₁ g b₂ g) :
    (correspondence used allowed closures code).Matches w
      (.letrec x e₁ b₁) f (.letrec x e₂ b₂) f := by
  refine .letrec fun m₁ m₂ hm => ?_
  have hv : (correspondence used allowed closures code).values w
      .unassigned .unassigned := .atom rfl
  obtain ⟨w', hw, hm', hr⟩ := bindFrame_simulates hclosures hallow hp hx hv m₁ m₂ hm
  refine ⟨w', hw, hm', hr.mono ?_⟩
  rintro g _ ⟨rfl, hg⟩
  obtain ⟨he, hb⟩ := hparts w' hw g hg
  exact ⟨he, hb, assignable hg hx⟩

end Growing

variable (used allowed closures code) in
/-- A simulation over layouts owes this: that frames with nothing but names in use are allowed,
    that closures and code stay related in larger layouts, and that the bodies of related
    closures are related code in a frame inside that of the closures, which are in one place. -/
def simulation
    (hallow : ∀ {w} common outer, allowed w → allowed (w.push { common, outer }))
    (hclosures : ∀ {w w'}, w ≤ w' → ∀ x e₁ f₁ e₂ f₂,
      closures w x e₁ f₁ e₂ f₂ → closures w' x e₁ f₁ e₂ f₂)
    (hcode : ∀ {w w'}, w ≤ w' → ∀ {e₁ f₁ e₂ f₂}, code w e₁ f₁ e₂ f₂ → code w' e₁ f₁ e₂ f₂)
    (hcall : ∀ {w x e₁ f₁ e₂ f₂}, closures w x e₁ f₁ e₂ f₂ →
      f₁ = f₂ ∧ ∃ p, w.Has f₁ p ∧ p.Covers used x ∧ ∀ w', w ≤ w' → ∀ g,
        w'.Has g { common := p.common, outer := some f₁ } → code w' e₁ g e₂ g) :
    Simulation Layout where
  toCorrespondence := correspondence used allowed closures code
  oneToOne _ i j i' j' h h' := by rw [show i = j from h, show i' = j' from h']
  ids_mono _ _ _ h := h
  closures_mono := hclosures
  code_mono := hcode
  write _ line := write_simulates line
  freshId _ := freshId_simulates
  call := by
    rintro w x e₁ f₁ e₂ f₂ v₁ v₂ hc hv m₁ m₂ hm
    obtain ⟨rfl, p, hp, hx, hbody⟩ := hcall hc
    obtain ⟨w', hw, hm', hr⟩ := bindFrame_simulates hclosures (hallow _ _) hp hx hv m₁ m₂ hm
    refine ⟨w', hw, hm', hr.mono ?_⟩
    rintro g _ ⟨rfl, hg⟩
    exact hbody w' hw g hg

end Correspondence

end Layout

end MiniLisp
