import MiniLisp.Expr.Basic
import MiniLisp.Value.Printed

/-!
# Frames and the heap

A frame binds names to values and may continue in an outer frame. All frames live in a heap
and refer to each other by their place in it. A frame is allocated after its outer frame, so
the frames from one outwards form a finite chain.

* `Bindings` — names with values, in the order in which the names were first bound.
* `Heap.chain` — a frame and those around it, innermost first.
* `Heap.find?`, `Heap.lookup?`, `Heap.depth` — the nearest frame that binds a name, the value
  it binds the name to, and the number of frames: all of them read off the chain.
* `Heap.alloc`, `Heap.define` — the two ways in which a heap changes.
* `Heap.frameText`, `Heap.chainText` — the texts of one frame and of a whole chain.
-/

namespace MiniLisp

/-- Names with values, in the order in which the names were first bound. -/
abbrev Bindings := List (String × Datum)

namespace Bindings

/-- The value of a name. -/
def get? (bs : Bindings) (x : String) : Option Datum := bs.lookup x

/-- Binds a name: in the place that it has, or else at the end. -/
def insert (x : String) (v : Datum) : Bindings → Bindings
  | [] => [(x, v)]
  | (y, w) :: rest => if y = x then (x, v) :: rest else (y, w) :: insert x v rest

@[simp] theorem get?_insert_self (x : String) (v : Datum) (bs : Bindings) :
    (insert x v bs).get? x = some v := by
  induction bs with
  | nil => simp [insert, get?]
  | cons b bs ih =>
    obtain ⟨y, w⟩ := b
    by_cases h : y = x
    · simp [insert, get?, h]
    · have hx : (x == y) = false := by simp [Ne.symm h]
      simpa [insert, get?, h, List.lookup_cons, hx] using ih

theorem get?_insert_of_ne {x y : String} (h : y ≠ x) (v : Datum) (bs : Bindings) :
    (insert x v bs).get? y = bs.get? y := by
  have hy : (y == x) = false := by simp [h]
  induction bs with
  | nil => simp [insert, get?, List.lookup_cons, hy]
  | cons b bs ih =>
    obtain ⟨z, w⟩ := b
    by_cases hz : z = x
    · simp [insert, get?, hz, List.lookup_cons, hy]
    · simp only [insert, hz, if_false, get?, List.lookup_cons] at ih ⊢
      rw [ih]

/-- The text of bindings: names and values in braces, with `inspect` for the values
    (`_write_vars`). -/
def print (inspect : Datum → Outcome String) (bs : Bindings) : Outcome String := do
  let entries ← bs.mapM fun b => do pure (b.1 ++ ": " ++ (← inspect b.2))
  pure ("\x7b" ++ ", ".intercalate entries ++ "\x7d")

end Bindings

/-- A frame: its bindings, and the frame around it if there is one (`Environment`). -/
structure Frame where
  bindings : Bindings := []
  outer : Option FrameId := none

/-- All frames ever allocated. -/
structure Heap where
  frames : Array Frame := #[]

namespace Heap

/-- The number of frames. -/
def size (h : Heap) : Nat := h.frames.size

/-- The frame at a place. -/
def frame? (h : Heap) (f : FrameId) : Option Frame := h.frames[f]?

/-- Allocates a frame. -/
def alloc (h : Heap) (frame : Frame) : Heap := ⟨h.frames.push frame⟩

/-- Binds a name in one frame (`Environment.define`). -/
def define (h : Heap) (f : FrameId) (x : String) (v : Datum) : Heap :=
  ⟨h.frames.modify f fun frame => { frame with bindings := frame.bindings.insert x v }⟩

@[simp] theorem size_alloc (h : Heap) (frame : Frame) : (h.alloc frame).size = h.size + 1 := by
  simp [alloc, size]

@[simp] theorem frame?_alloc_size (h : Heap) (frame : Frame) :
    (h.alloc frame).frame? h.size = some frame := by
  simp [alloc, frame?, size]

theorem frame?_alloc_of_lt {h : Heap} {f : FrameId} (hf : f < h.size) (frame : Frame) :
    (h.alloc frame).frame? f = h.frame? f := by
  have hf : f < h.frames.size := hf
  simp [alloc, frame?, Array.getElem?_push_lt hf, hf]

@[simp] theorem size_define (h : Heap) (f : FrameId) (x : String) (v : Datum) :
    (h.define f x v).size = h.size := by
  simp [define, size]

theorem frame?_define (h : Heap) (f g : FrameId) (x : String) (v : Datum) :
    (h.define f x v).frame? g = if f = g then
      (h.frame? g).map fun frame => { frame with bindings := frame.bindings.insert x v }
    else h.frame? g := by
  simp [define, frame?, Array.getElem?_modify]

/-- At most `n` frames from one outwards. -/
def chainUpTo (h : Heap) : Nat → FrameId → List FrameId
  | 0, _ => []
  | n + 1, f =>
    match h.frame? f with
    | none => []
    | some frame =>
      match frame.outer with
      | none => [f]
      | some o => f :: chainUpTo h n o

/-- The frames from one outwards, innermost first. Outer frames are allocated earlier, so the
    place of the first one bounds their number. -/
def chain (h : Heap) (f : FrameId) : List FrameId := h.chainUpTo (f + 1) f

/-- The value that a frame itself binds a name to. -/
def boundIn? (h : Heap) (x : String) (f : FrameId) : Option Datum :=
  (h.frame? f).bind fun frame => frame.bindings.get? x

/-- The nearest frame of a chain that binds a name (`Environment.find`). -/
def find? (h : Heap) (f : FrameId) (x : String) : Option FrameId :=
  (h.chain f).find? fun g => (h.boundIn? x g).isSome

/-- The value of a name: the one that the nearest frame binds it to (`Environment.lookup`). -/
def lookup? (h : Heap) (f : FrameId) (x : String) : Option Datum :=
  (h.chain f).findSome? (h.boundIn? x)

/-- The number of frames from one outwards (`Environment.depth`). -/
def depth (h : Heap) (f : FrameId) : Nat := (h.chain f).length

/-- The bindings of a frame. -/
def bindings (h : Heap) (f : FrameId) : Bindings := (h.frame? f).elim [] Frame.bindings

/-- The text of a frame's own bindings, with a mark when it has an outer frame. -/
def frameText (h : Heap) (inspect : Datum → Outcome String) (f : FrameId) :
    Outcome String := do
  let own ← (h.bindings f).print inspect
  pure (if ((h.frame? f).bind Frame.outer).isSome then own ++ " -> ..." else own)

/-- The text of a frame and all frames around it. -/
def chainText (h : Heap) (inspect : Datum → Outcome String) (f : FrameId) :
    Outcome String := do
  let texts ← (h.chain f).mapM fun g => (h.bindings g).print inspect
  pure ("<Environment chain: " ++ " -> ".intercalate texts ++ ">")

end Heap

end MiniLisp
