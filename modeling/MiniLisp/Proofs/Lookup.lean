import MiniLisp.Proofs.Computation

/-!
# Lookup, frame by frame

`Heap.lookup?` reads a chain of frames that is computed up to a bound. Where outer frames are
allocated earlier, the bound is never reached, and a name is looked up in the frame itself and
then around it.

* `Heap.outer?`, with `Heap.boundIn?`: what a heap says about one frame, and how the two ways
  in which a heap changes affect it.
* `Heap.find?_of_lookup?`: the nearest frame that binds a name gives its value.
* `Heap.Closed.lookup?_eq`: lookup as a recursion over outer frames.
* `Heap.Closed.depth_of_outer?`: depth as one.
* `Machine.boundIn?_withRoot`: what a new root frame binds.
-/

namespace MiniLisp

theorem Bindings.get?_singleton_of_ne {x y : String} (h : y ≠ x) (v : Datum) :
    Bindings.get? [(x, v)] y = none :=
  get?_insert_of_ne h v []

namespace Heap

/-- The frame around a frame. -/
def outer? (h : Heap) (f : FrameId) : Option FrameId := (h.frame? f).bind Frame.outer

variable (h : Heap)

/-! ## One frame of a heap that changes -/

@[simp] theorem outer?_alloc_size (frame : Frame) :
    (h.alloc frame).outer? h.size = frame.outer := by
  simp [outer?]

theorem outer?_alloc_of_lt {h : Heap} {f : FrameId} (hf : f < h.size) (frame : Frame) :
    (h.alloc frame).outer? f = h.outer? f := by
  rw [outer?, frame?_alloc_of_lt hf, outer?]

@[simp] theorem boundIn?_alloc_size (frame : Frame) (x : String) :
    (h.alloc frame).boundIn? x h.size = frame.bindings.get? x := by
  simp [boundIn?]

theorem boundIn?_alloc_of_lt {h : Heap} {f : FrameId} (hf : f < h.size) (frame : Frame)
    (x : String) : (h.alloc frame).boundIn? x f = h.boundIn? x f := by
  rw [boundIn?, frame?_alloc_of_lt hf, boundIn?]

@[simp] theorem outer?_define (f g : FrameId) (x : String) (v : Datum) :
    (h.define f x v).outer? g = h.outer? g := by
  rw [outer?, frame?_define, outer?]
  by_cases hfg : f = g
  · rw [if_pos hfg]
    cases h.frame? g <;> rfl
  · rw [if_neg hfg]

theorem boundIn?_define_self {h : Heap} {f : FrameId} (hf : f < h.size) (x : String) (v : Datum) :
    (h.define f x v).boundIn? x f = some v := by
  have hframe : h.frame? f = some h.frames[f] := Array.getElem?_eq_getElem hf
  rw [boundIn?, frame?_define, if_pos rfl, hframe]
  exact Bindings.get?_insert_self x v _

theorem boundIn?_define_of_ne {f g : FrameId} {x y : String} (hne : f ≠ g ∨ y ≠ x) (v : Datum) :
    (h.define f x v).boundIn? y g = h.boundIn? y g := by
  rw [boundIn?, frame?_define, boundIn?]
  by_cases hfg : f = g
  · rw [if_pos hfg]
    have hyx : y ≠ x := hne.resolve_left (not_not_intro hfg)
    cases h.frame? g with
    | none => rfl
    | some frame => exact Bindings.get?_insert_of_ne hyx v _
  · rw [if_neg hfg]

/-! ## Chains -/

/-- A set of frames that is closed under going outwards, and in which outer frames are
    allocated earlier. -/
def Closed (P : FrameId → Prop) : Prop := ∀ f o, P f → h.outer? f = some o → o < f ∧ P o

variable {h} {P : FrameId → Prop}

theorem chainUpTo_succ (n : Nat) (f : FrameId) :
    h.chainUpTo (n + 1) f =
      if (h.frame? f).isSome then f :: (h.outer? f).elim [] (h.chainUpTo n) else [] := by
  cases hf : h.frame? f with
  | none => simp [chainUpTo, hf]
  | some frame =>
    cases ho : frame.outer <;> simp [chainUpTo, outer?, hf, ho]

/-- The value of a name is the one that the nearest frame binds it to. -/
theorem find?_of_lookup? {f : FrameId} {x : String} {v : Datum}
    (hv : h.lookup? f x = some v) : ∃ g, h.find? f x = some g ∧ h.boundIn? x g = some v := by
  unfold lookup? at hv
  unfold find?
  generalize h.chain f = frames at hv ⊢
  induction frames with
  | nil => cases hv
  | cons g gs ih =>
    rw [List.findSome?_cons] at hv
    cases hg : h.boundIn? x g with
    | some w =>
      rw [hg] at hv
      exact ⟨g, by simp [hg], hg.trans hv⟩
    | none =>
      rw [hg] at hv
      obtain ⟨g', hfind, hbound⟩ := ih hv
      exact ⟨g', by simp [hg, hfind], hbound⟩

/-- The bound on the length of a chain does not matter. -/
theorem Closed.chainUpTo_eq_chain (hP : h.Closed P) {f : FrameId} (hf : P f) {n : Nat}
    (hn : f < n) : h.chainUpTo n f = h.chain f := by
  induction f using Nat.strongRecOn generalizing n with
  | ind f ih =>
    obtain ⟨k, rfl⟩ := Nat.exists_eq_add_one_of_ne_zero (Nat.ne_zero_of_lt hn)
    rw [chain, chainUpTo_succ, chainUpTo_succ]
    cases ho : h.outer? f with
    | none => rfl
    | some o =>
      obtain ⟨hlt, hPo⟩ := hP f o hf ho
      have hok : o < k := Nat.lt_of_lt_of_le hlt (Nat.le_of_lt_succ hn)
      have hk : h.chainUpTo k o = h.chain o := ih o hlt hPo hok
      have hf' : h.chainUpTo f o = h.chain o := ih o hlt hPo hlt
      simp only [Option.elim, hk, hf']

/-- A name is looked up in the frame itself, and then in the frame around it. -/
theorem Closed.lookup?_eq (hP : h.Closed P) {f : FrameId} (hf : P f) (x : String) :
    h.lookup? f x = (h.boundIn? x f).or ((h.outer? f).bind fun o => h.lookup? o x) := by
  rw [lookup?, chain, chainUpTo_succ]
  cases hframe : h.frame? f with
  | none => simp [boundIn?, outer?, hframe]
  | some frame =>
    rw [Option.isSome_some, if_pos rfl, List.findSome?_cons]
    cases hx : h.boundIn? x f with
    | some v => rfl
    | none =>
      cases ho : h.outer? f with
      | none => rfl
      | some o =>
        obtain ⟨hlt, hPo⟩ := hP f o hf ho
        simp only [Option.elim, Option.or, Option.bind, hP.chainUpTo_eq_chain hPo hlt, lookup?]

/-! ## Frames around a frame -/

variable {h' : Heap} {f o : FrameId} {x : String} {v : Datum}

theorem isSome_of_bind {α : Type} {k : Frame → Option α} {a : α}
    (ha : (h.frame? f).bind k = some a) : (h.frame? f).isSome := by
  obtain ⟨frame, hframe, _⟩ := Option.bind_eq_some_iff.mp ha
  rw [hframe]
  rfl

/-- A name that a frame binds has this value in it. -/
theorem lookup?_of_boundIn? (hv : h.boundIn? x f = some v) : h.lookup? f x = some v := by
  rw [lookup?, chain, chainUpTo_succ, if_pos (isSome_of_bind hv), List.findSome?_cons, hv]

/-- A name that is not bound in a frame but in the one around it has the value that it has
    there. -/
theorem lookup?_of_outer? (ho : h.outer? f = some o) (hlt : o < f) (hnone : h.boundIn? x f = none)
    (hv : h.boundIn? x o = some v) : h.lookup? f x = some v := by
  obtain ⟨n, rfl⟩ := Nat.exists_eq_add_one_of_ne_zero (Nat.ne_zero_of_lt hlt)
  rw [lookup?, chain, chainUpTo_succ, if_pos (isSome_of_bind ho), List.findSome?_cons, hnone, ho]
  simp only [Option.elim]
  rw [chainUpTo_succ, if_pos (isSome_of_bind hv), List.findSome?_cons, hv]

theorem Closed.depth_of_outer? (hP : h.Closed P) (hf : P f) (ho : h.outer? f = some o) :
    h.depth f = h.depth o + 1 := by
  obtain ⟨hlt, hPo⟩ := hP f o hf ho
  rw [depth, chain, chainUpTo_succ, if_pos (isSome_of_bind ho), ho, List.length_cons]
  simp only [Option.elim]
  rw [hP.chainUpTo_eq_chain hPo hlt, depth]

/-- A frame has as many around it in another heap that has the same frames. -/
theorem Closed.depth_congr (hP : h.Closed P) (hframes : ∀ g, P g → h'.frame? g = h.frame? g)
    (hf : P f) : h'.depth f = h.depth f := by
  have hchain : ∀ n g, P g → h'.chainUpTo n g = h.chainUpTo n g := by
    intro n
    induction n with
    | zero => exact fun _ _ => rfl
    | succ n ih =>
      intro g hg
      have houter : h'.outer? g = h.outer? g := by rw [outer?, hframes g hg, outer?]
      rw [chainUpTo_succ, chainUpTo_succ, houter, hframes g hg]
      cases ho : h.outer? g with
      | none => rfl
      | some o => simp only [Option.elim, ih o (hP g o hg ho).2]
  rw [depth, chain, hchain _ f hf, depth, chain]

end Heap

/-! ## Root frames -/

theorem Machine.size_withRoot (m : Machine) : m.withRoot.heap.size = m.heap.size + 1 :=
  Heap.size_alloc ..

/-- A new root frame binds `print` only. -/
theorem Machine.boundIn?_withRoot (m : Machine) (x : String) :
    m.withRoot.heap.boundIn? x m.heap.size =
      if x = "print" then some (.native m.nextId "print" .print) else none := by
  rw [withRoot, Heap.boundIn?_alloc_size]
  by_cases hx : x = "print"
  · rw [if_pos hx, hx, Bindings.get?, List.lookup_cons_self]
  · rw [if_neg hx, Bindings.get?_singleton_of_ne hx]

end MiniLisp
