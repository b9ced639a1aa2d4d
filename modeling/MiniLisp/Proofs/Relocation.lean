import MiniLisp.Proofs.FrameEffect
import MiniLisp.Proofs.Simulation

/-!
# Evaluation among other frames and objects

What code does depends neither on the places at which frames are allocated nor on the identities
that objects are given. Two runs of the same code, from machines that agree on the frames and
objects there were at some time and that may have come to differ in number of frames and objects
since, allocate in step; the second one is the first with everything that is new moved up.

* `Relocation`: the frames and objects that stay where they are, and how far all others move.
* `Value.relocate`: a value, moved.
* `Machine.Owns`, `Machine.Sound`: a value refers to frames and objects of a machine only, and so
  do all values that its frames hold.
* `Relocation.Copies`: a machine is a copy of another one, moved.
* `Relocation.simulation`: a run and its copy as a simulation.
-/

namespace MiniLisp

/-! ## Moving what is new -/

/-- A place or an identity, moved up unless it is below the base. -/
def shift (base offset i : Nat) : Nat := if i < base then i else i + offset

theorem shift_of_lt {base i : Nat} (h : i < base) (offset : Nat) : shift base offset i = i :=
  if_pos h

theorem shift_of_le {base i : Nat} (h : base ≤ i) (offset : Nat) :
    shift base offset i = i + offset := if_neg (Nat.not_lt.mpr h)

theorem shift_succ {base i : Nat} (h : base ≤ i) (offset : Nat) :
    shift base offset (i + 1) = shift base offset i + 1 := by
  rw [shift_of_le h, shift_of_le (Nat.le_succ_of_le h)]
  omega

theorem shift_lt_shift {base offset i j : Nat} (h : i < j) :
    shift base offset i < shift base offset j := by
  unfold shift
  split_ifs <;> omega

theorem shift_injective (base offset : Nat) : Function.Injective (shift base offset) := by
  intro i j h
  unfold shift at h
  split_ifs at h <;> omega

namespace Value

mutual

/-- A value whose frames and identities are moved, except in the bodies of closures. -/
def relocate (frame : FrameId → FrameId) (object : ObjectId → ObjectId) : Value Expr → Value Expr
  | .float i x => .float (object i) x
  | .list i items => .list (object i) (relocateAll frame object items)
  | .tuple i items => .tuple (object i) (relocateAll frame object items)
  | .native i x action => .native (object i) x action
  | .closure i x body f => .closure (object i) x body (frame f)
  | v => v

/-- `Value.relocate` of every value of a list. -/
def relocateAll (frame : FrameId → FrameId) (object : ObjectId → ObjectId) :
    List (Value Expr) → List (Value Expr)
  | [] => []
  | v :: vs => relocate frame object v :: relocateAll frame object vs

end

theorem relocateAll_eq_map (frame : FrameId → FrameId) (object : ObjectId → ObjectId)
    (vs : List Datum) : relocateAll frame object vs = vs.map (relocate frame object) := by
  induction vs with
  | nil => rfl
  | cons v vs ih => rw [relocateAll, ih, List.map_cons]

/-- Values that differ by a move are equal up to it. -/
theorem Alike.eq_relocate {frame : FrameId → FrameId} {object : ObjectId → ObjectId}
    {ids : ObjectId → ObjectId → Prop}
    {closures : String → Expr → FrameId → Expr → FrameId → Prop} {v w : Datum}
    (h : Alike ids closures v w) (hids : ∀ i j, ids i j → j = object i)
    (hclosures : ∀ x e f e' f', closures x e f e' f' → e' = e ∧ f' = frame f) :
    w = v.relocate frame object := by
  have hitems : ∀ {xs ys : List Datum}, xs.length = ys.length →
      (∀ x y, (x, y) ∈ xs.zip ys → y = x.relocate frame object) →
      ys = relocateAll frame object xs := by
    intro xs ys hlen hxy
    have hall : List.Forall₂ (fun x y => x.relocate frame object = y) xs ys :=
      List.forall₂_iff_zip.mpr ⟨hlen, fun hmem => (hxy _ _ hmem).symm⟩
    have hmap := List.forall₂_map_left_iff.mpr hall
    rw [List.forall₂_eq_eq_eq] at hmap
    rw [relocateAll_eq_map, hmap]
  induction h with
  | @atom v ha => cases v <;> first | rfl | cases ha
  | float h => rw [hids _ _ h, relocate]
  | list h len _ ih => rw [hids _ _ h, hitems len ih, relocate]
  | tuple h len _ ih => rw [hids _ _ h, hitems len ih, relocate]
  | native h => rw [hids _ _ h, relocate]
  | closure h hc =>
    obtain ⟨rfl, rfl⟩ := hclosures _ _ _ _ _ hc
    rw [hids _ _ h, relocate]

end Value

/-! ## Values of a machine -/

/-- The identity of a value and the frame of a closure are below the given bounds. -/
def Value.Below (frames ids : Nat) : Datum → Prop
  | .float i _ | .list i _ | .tuple i _ | .native i _ _ => i < ids
  | .closure i _ _ f => i < ids ∧ f < frames
  | _ => True

theorem Value.Below.mono {frames frames' ids ids' : Nat} (hframes : frames ≤ frames')
    (hids : ids ≤ ids') (v : Datum) (h : v.Below frames ids) : v.Below frames' ids' := by
  cases v with
  | float | list | tuple | native => exact lt_of_lt_of_le h hids
  | closure => exact ⟨lt_of_lt_of_le h.1 hids, lt_of_lt_of_le h.2 hframes⟩
  | _ => trivial

namespace Machine

/-- A value refers to frames and objects of a machine only, and so do the bodies of closures
    in it. -/
def Owns (m : Machine) (v : Datum) : Prop := v.Throughout (Value.Below m.heap.size m.nextId)

/-- The frame around a frame was allocated before it, and what frames hold is the machine's. -/
structure Sound (m : Machine) : Prop where
  outer : ∀ f < m.heap.size, ∀ o, m.heap.outer? f = some o → o < f
  bound : ∀ f < m.heap.size, ∀ x v, m.heap.boundIn? x f = some v → m.Owns v

end Machine

/-! ## Copies of a machine -/

/-- The frames and objects that stay where they are, how far all others are moved, and what the
    two machines have printed at the start. -/
structure Relocation where
  frames : Nat
  ids : Nat
  frameOffset : Nat
  idOffset : Nat
  output₁ : String
  output₂ : String

namespace Relocation

variable (T : Relocation)

/-- Where a frame is moved to. -/
def frame (f : FrameId) : FrameId := shift T.frames T.frameOffset f

/-- The identity that an object is given. -/
def object (i : ObjectId) : ObjectId := shift T.ids T.idOffset i

/-- Code that refers to frames and objects that stay where they are. -/
def Code (e : Expr) : Prop := e.Throughout (Value.Below T.frames T.ids)

/-- How many frames and identities there are in the machine that is copied. -/
abbrev World := Nat × Nat

/-- Code with the frame that it is evaluated in, and the same code in the frame that this one is
    moved to. -/
structure SameCode (w : World) (e : Expr) (f : FrameId) (e' : Expr) (f' : FrameId) : Prop where
  code : e' = e
  frame : f' = T.frame f
  lt : f < w.1
  stays : T.Code e

/-- Values that differ by the move. -/
def Values (w : World) : Datum → Datum → Prop :=
  Value.Alike (fun i j => i < w.2 ∧ j = T.object i) fun _ => T.SameCode w

/-- The second machine is a copy of the first one, moved. -/
structure Copies (w : World) (m₁ m₂ : Machine) : Prop where
  frames_le : T.frames ≤ w.1
  ids_le : T.ids ≤ w.2
  size₁ : m₁.heap.size = w.1
  size₂ : m₂.heap.size = T.frame w.1
  nextId₁ : m₁.nextId = w.2
  nextId₂ : m₂.nextId = T.object w.2
  ordered : ∀ g < w.1, ∀ o, m₁.heap.outer? g = some o → o < g
  outer : ∀ g < w.1, m₂.heap.outer? (T.frame g) = (m₁.heap.outer? g).map T.frame
  bound : ∀ g < w.1, ∀ x,
    Option.Rel (T.Values w) (m₁.heap.boundIn? x g) (m₂.heap.boundIn? x (T.frame g))
  output : ∃ s, m₁.output = T.output₁ ++ s ∧ m₂.output = T.output₂ ++ s

variable {T} {w w' : World} {m₁ m₂ : Machine}

theorem SameCode.mono {e e' : Expr} {f f' : FrameId} (h : T.SameCode w e f e' f') (hw : w ≤ w') :
    T.SameCode w' e f e' f' :=
  { h with lt := lt_of_lt_of_le h.lt hw.1 }

theorem Values.mono {v v' : Datum} (h : T.Values w v v') (hw : w ≤ w') : T.Values w' v v' :=
  Value.Alike.mono h (fun _ _ hi => ⟨lt_of_lt_of_le hi.1 hw.2, hi.2⟩)
    fun _ _ _ _ _ hc => hc.mono hw

theorem rel_mono {a b : Option Datum} (h : Option.Rel (T.Values w) a b) (hw : w ≤ w') :
    Option.Rel (T.Values w') a b := by
  cases h with
  | some hab => exact .some (hab.mono hw)
  | none => exact .none

theorem frame_injective : Function.Injective T.frame := shift_injective _ _

/-- A value of what stays where it is is its own copy. -/
theorem values_self {v : Datum} (hv : v.Throughout (Value.Below T.frames T.ids))
    (hframes : T.frames ≤ w.1) (hids : T.ids ≤ w.2) : T.Values w v v := by
  have hid : ∀ {i}, i < T.ids → i < w.2 ∧ i = T.object i :=
    fun hi => ⟨lt_of_lt_of_le hi hids, (shift_of_lt hi _).symm⟩
  induction v using Value.inductionOn with
  | atom v ha => exact .atom ha
  | float i x => exact .float (hid hv)
  | list i xs ih =>
    have hxs := Value.allThroughout_iff.mp hv.2
    exact .list_self (hid hv.1) fun x hx => ih x hx (hxs x hx)
  | tuple i xs ih =>
    have hxs := Value.allThroughout_iff.mp hv.2
    exact .tuple_self (hid hv.1) fun x hx => ih x hx (hxs x hx)
  | native i x a => exact .native (hid hv)
  | closure i x e f =>
    obtain ⟨⟨hi, hf⟩, he⟩ := hv
    exact .closure (hid hi) ⟨rfl, (shift_of_lt hf _).symm, lt_of_lt_of_le hf hframes, he⟩

namespace Copies

theorem write (h : T.Copies w m₁ m₂) (line : String) :
    T.Copies w (m₁.write line) (m₂.write line) where
  __ := h
  output := by
    obtain ⟨s, h₁, h₂⟩ := h.output
    refine ⟨s ++ line ++ "\n", ?_, ?_⟩
    · rw [Machine.write, h₁]
      simp only [String.append_assoc]
    · rw [Machine.write, h₂]
      simp only [String.append_assoc]

theorem takeId (h : T.Copies w m₁ m₂) : T.Copies (w.1, w.2 + 1) m₁.takeId m₂.takeId where
  __ := h
  ids_le := Nat.le_succ_of_le h.ids_le
  nextId₁ := congrArg (· + 1) h.nextId₁
  nextId₂ := by
    rw [object, shift_succ h.ids_le]
    exact congrArg (· + 1) h.nextId₂
  bound g hg x := rel_mono (h.bound g hg x) ⟨le_rfl, Nat.le_succ _⟩

theorem define (h : T.Copies w m₁ m₂) {f : FrameId} (hf : f < w.1) (x : String) {v₁ v₂ : Datum}
    (hv : T.Values w v₁ v₂) : T.Copies w (m₁.define f x v₁) (m₂.define (T.frame f) x v₂) where
  __ := h
  size₁ := (Heap.size_define ..).trans h.size₁
  size₂ := (Heap.size_define ..).trans h.size₂
  ordered g hg o ho := by
    simp only [Machine.define, Heap.outer?_define] at ho
    exact h.ordered g hg o ho
  outer g hg := by
    simp only [Machine.define, Heap.outer?_define]
    exact h.outer g hg
  bound g hg y := by
    by_cases hgy : f = g ∧ y = x
    · obtain ⟨rfl, rfl⟩ := hgy
      have hlt₁ : f < m₁.heap.size := h.size₁ ▸ hf
      have hlt₂ : T.frame f < m₂.heap.size := h.size₂ ▸ shift_lt_shift hf
      simp only [Machine.define, Heap.boundIn?_define_self hlt₁, Heap.boundIn?_define_self hlt₂]
      exact .some hv
    · have hne : f ≠ g ∨ y ≠ x := not_and_or.mp hgy
      have hne' : T.frame f ≠ T.frame g ∨ y ≠ x := hne.imp_left frame_injective.ne
      simp only [Machine.define, Heap.boundIn?_define_of_ne _ hne, Heap.boundIn?_define_of_ne _ hne']
      exact h.bound g hg y

/-- A frame that binds one name is allocated on both sides. -/
theorem allocOne (h : T.Copies w m₁ m₂) {outer : Option FrameId}
    (houter : ∀ o, outer = some o → o < w.1) (x : String) {v₁ v₂ : Datum}
    (hv : T.Values w v₁ v₂) :
    T.Copies (w.1 + 1, w.2)
      { m₁ with heap := m₁.heap.alloc { bindings := [(x, v₁)], outer } }
      { m₂ with heap := m₂.heap.alloc { bindings := [(x, v₂)], outer := outer.map T.frame } } := by
  have hw : w ≤ (w.1 + 1, w.2) := ⟨Nat.le_succ _, le_rfl⟩
  have hold : ∀ {g}, g < w.1 → g < m₁.heap.size ∧ T.frame g < m₂.heap.size :=
    fun hg => ⟨h.size₁ ▸ hg, h.size₂ ▸ shift_lt_shift hg⟩
  refine { h with
    frames_le := Nat.le_succ_of_le h.frames_le
    size₁ := by rw [Heap.size_alloc, h.size₁]
    size₂ := by rw [Heap.size_alloc, h.size₂, frame, frame, shift_succ h.frames_le]
    ordered := fun g hg o ho => ?_
    outer := fun g hg => ?_
    bound := fun g hg y => ?_ }
  · rcases Nat.lt_succ_iff_lt_or_eq.mp hg with hg | rfl
    · rw [Heap.outer?_alloc_of_lt (hold hg).1] at ho
      exact h.ordered g hg o ho
    · rw [← h.size₁, Heap.outer?_alloc_size] at ho
      exact houter o ho
  · rcases Nat.lt_succ_iff_lt_or_eq.mp hg with hg | rfl
    · rw [Heap.outer?_alloc_of_lt (hold hg).1, Heap.outer?_alloc_of_lt (hold hg).2]
      exact h.outer g hg
    · rw [← h.size₂, Heap.outer?_alloc_size, ← h.size₁, Heap.outer?_alloc_size]
  · rcases Nat.lt_succ_iff_lt_or_eq.mp hg with hg | rfl
    · rw [Heap.boundIn?_alloc_of_lt (hold hg).1, Heap.boundIn?_alloc_of_lt (hold hg).2]
      exact rel_mono (h.bound g hg y) hw
    · have h₁ := Heap.boundIn?_alloc_size m₁.heap { bindings := [(x, v₁)], outer } y
      have h₂ := Heap.boundIn?_alloc_size m₂.heap
        { bindings := [(x, v₂)], outer := outer.map T.frame } y
      rw [h.size₁] at h₁
      rw [h.size₂] at h₂
      rw [h₁, h₂]
      by_cases hy : y = x
      · subst hy
        simp only [Bindings.get?, List.lookup_cons_self]
        exact .some (hv.mono hw)
      · rw [Bindings.get?_singleton_of_ne hy, Bindings.get?_singleton_of_ne hy]
        exact .none

/-- A name is looked up alike on both sides. -/
theorem lookup?_rel (h : T.Copies w m₁ m₂) {f : FrameId} (hf : f < w.1) (x : String) :
    Option.Rel (T.Values w) (m₁.heap.lookup? f x) (m₂.heap.lookup? (T.frame f) x) := by
  have hclosed₁ : m₁.heap.Closed (· < w.1) := fun g o hg ho =>
    ⟨h.ordered g hg o ho, (h.ordered g hg o ho).trans hg⟩
  have hclosed₂ : m₂.heap.Closed fun g' => ∃ g < w.1, T.frame g = g' := by
    rintro _ o ⟨g, hg, rfl⟩ ho
    rw [h.outer g hg] at ho
    obtain ⟨o', ho', rfl⟩ := Option.map_eq_some_iff.mp ho
    have hlt := h.ordered g hg o' ho'
    exact ⟨shift_lt_shift hlt, o', hlt.trans hg, rfl⟩
  induction f using Nat.strongRecOn with
  | ind f ih =>
    rw [hclosed₁.lookup?_eq hf, hclosed₂.lookup?_eq ⟨f, hf, rfl⟩, h.outer f hf]
    have hrel := h.bound f hf x
    revert hrel
    generalize m₁.heap.boundIn? x f = a
    generalize m₂.heap.boundIn? x (T.frame f) = b
    rintro (⟨hab⟩ | _)
    · exact .some hab
    · rw [Option.none_or, Option.none_or]
      cases ho : m₁.heap.outer? f with
      | none => exact .none
      | some o =>
        have hlt := h.ordered f hf o ho
        exact ih o hlt (hlt.trans hf)

end Copies

/-! ## Machines and their copies -/

/-- The part of a value that is moved belongs to the machine. -/
theorem Values.throughout {v v' : Datum} (h : T.Values w v v') (hframes : T.frames ≤ w.1)
    (hids : T.ids ≤ w.2) : v.Throughout (Value.Below w.1 w.2) := by
  have hitems : ∀ {xs ys : List Datum}, xs.length = ys.length →
      (∀ x y, (x, y) ∈ xs.zip ys → x.Throughout (Value.Below w.1 w.2)) →
      Value.AllThroughout (Value.Below w.1 w.2) xs := by
    intro xs ys hlen hxy
    refine Value.allThroughout_iff.mpr fun x hx => ?_
    obtain ⟨y, hmem⟩ := exists_mem_zip_left hlen hx
    exact hxy x y hmem
  induction h with
  | @atom v _ => cases v <;> trivial
  | float h => exact h.1
  | list h len _ ih => exact ⟨h.1, hitems len ih⟩
  | tuple h len _ ih => exact ⟨h.1, hitems len ih⟩
  | native h => exact h.1
  | closure h hc =>
    exact ⟨⟨h.1, hc.lt⟩, Expr.Throughout.mono (Value.Below.mono hframes hids) _ hc.stays⟩

/-- A machine that has a copy is sound. -/
theorem Copies.sound (h : T.Copies w m₁ m₂) : m₁.Sound where
  outer f hf := h.ordered f (h.size₁ ▸ hf)
  bound f hf x v hv := by
    have hrel := h.bound f (h.size₁ ▸ hf) x
    rw [hv] at hrel
    generalize m₂.heap.boundIn? x (T.frame f) = b at hrel
    obtain ⟨hab⟩ := hrel
    rw [Machine.Owns, h.size₁, h.nextId₁]
    exact hab.throughout h.frames_le h.ids_le

/-! ## A run and its copy -/

variable (T) in
/-- Runs of the same code, of which the second is moved. -/
def correspondence : Correspondence World where
  ids w i j := i < w.2 ∧ j = T.object i
  closures w _ := T.SameCode w
  code := T.SameCode
  machines := T.Copies

theorem bindFrame_simulates {f : FrameId} (hf : f < w.1) {x : String} {v₁ v₂ : Datum}
    (hv : T.Values w v₁ v₂) :
    T.correspondence.Simulates w (fun w' g₁ g₂ => g₂ = T.frame g₁ ∧ g₁ < w'.1)
      (Eval.bindFrame f x v₁) (Eval.bindFrame (T.frame f) x v₂) := by
  intro m₁ m₂ hm
  rw [Eval.exec_bindFrame, Eval.exec_bindFrame]
  have houter : ∀ o, some f = some o → o < w.1 := fun o ho => Option.some.inj ho ▸ hf
  refine ⟨(w.1 + 1, w.2), ⟨Nat.le_succ _, le_rfl⟩, hm.allocOne houter x hv, ?_, ?_⟩
  · rw [hm.size₁, hm.size₂]
  · rw [hm.size₁]
    exact Nat.lt_succ_self _

theorem assignable {f : FrameId} (hf : f < w.1) (x : String) :
    T.correspondence.Assignable w x f (T.frame f) := by
  intro w' hw v₁ v₂ hv m₁ m₂ hm
  rw [Eval.exec_define, Eval.exec_define]
  exact ⟨w', le_rfl, hm.define (lt_of_lt_of_le hf hw.1) x hv, trivial⟩

variable (T) in
/-- A run and its copy, as a simulation. -/
def simulation : Simulation World where
  toCorrespondence := T.correspondence
  oneToOne w i j i' j' h h' := by
    rw [h.2, h'.2]
    exact (shift_injective T.ids T.idOffset).eq_iff.symm
  ids_mono hw _ _ h := ⟨lt_of_lt_of_le h.1 hw.2, h.2⟩
  closures_mono hw _ _ _ _ _ h := h.mono hw
  code_mono hw _ _ _ _ h := h.mono hw
  write w line := by
    intro m₁ m₂ hm
    rw [Eval.exec_write, Eval.exec_write]
    exact ⟨w, le_rfl, hm.write line, trivial⟩
  freshId w := by
    intro m₁ m₂ hm
    rw [Eval.exec_freshId, Eval.exec_freshId]
    refine ⟨(w.1, w.2 + 1), ⟨le_rfl, Nat.le_succ _⟩, hm.takeId, ?_, ?_⟩
    · rw [hm.nextId₁]
      exact Nat.lt_succ_self _
    · rw [hm.nextId₁, hm.nextId₂]
  call := by
    rintro w x e f _ _ v₁ v₂ ⟨rfl, rfl, hf, he⟩ hv m₁ m₂ hm
    obtain ⟨w', hw, hm', hr⟩ := bindFrame_simulates hf hv m₁ m₂ hm
    refine ⟨w', hw, hm', hr.mono ?_⟩
    rintro g _ ⟨rfl, hg⟩
    exact ⟨rfl, rfl, hg, he⟩

theorem selfRelated {f : FrameId} (hf : f < w.1) (hframes : T.frames ≤ w.1)
    (hids : T.ids ≤ w.2) :
    T.correspondence.SelfRelated w T.Code (Value.Throughout (Value.Below T.frames T.ids)) f
      (T.frame f) where
  hereditary := Expr.throughout_hereditary _
  values hd := values_self hd hframes hids
  code he := ⟨rfl, rfl, hf, he⟩
  closures he := ⟨rfl, rfl, hf, he⟩
  read x := Correspondence.read_simulates fun _ _ hm => hm.lookup?_rel hf x
  assignable x := assignable hf x
  enter x := by
    intro m₁ m₂ hm
    have hv : T.Values w .unassigned .unassigned := .atom rfl
    obtain ⟨w', hw, hm', hr⟩ := bindFrame_simulates hf hv m₁ m₂ hm
    refine ⟨w', hw, hm', hr.mono ?_⟩
    rintro g _ ⟨rfl, hg⟩
    exact ⟨fun he => ⟨rfl, rfl, hg, he⟩, assignable hg x⟩

end Relocation

end MiniLisp
