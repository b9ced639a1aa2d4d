import MiniLisp.Expr.Expansion
import MiniLisp.Heap

/-!
# The machine

What evaluation reads and changes: the heap of frames, the text printed so far, and the
identities handed out to new objects. A computation on the machine keeps its changes also
when it stops.

* `Machine`, `Eval` — the state, and the computations on it.
* `Eval.newFrame`, `Eval.define`, `Eval.write`, `Eval.freshId` — the elementary changes.
* `Eval.lookup` — the value of a name, or the fault that it has none.
* `Eval.newRoot` — a root frame that binds `print` and nothing else.
-/

namespace MiniLisp

/-- The state of evaluation. -/
structure Machine where
  heap : Heap := {}
  /-- The text printed so far. -/
  output : String := ""
  /-- The least identity that no object has. -/
  nextId : ObjectId := 0

/-- Computations on the machine. -/
abbrev Eval := ExceptT Stop (StateM Machine)

namespace Eval

/-- A computation that leaves the machine alone. -/
def ofOutcome {α : Type} (x : Outcome α) : Eval α := ExceptT.mk (pure x)

/-- A computation that leaves the machine alone and draws names from a supply of its own. -/
def ofNaming {α : Type} (names : FreshNames) (x : Naming α) : Eval α :=
  ofOutcome (x.run.run names).1

/-- Stops with a fault. -/
def fault {α : Type} (f : Fault) : Eval α := throw (.fault f)

/-- A new identity. -/
def freshId : Eval ObjectId :=
  modifyGet fun m => (m.nextId, { m with nextId := m.nextId + 1 })

/-- A new, empty frame: inside the given one (`Environment.extend`), or else a root
    (`Environment.create_root`). -/
def newFrame (outer : Option FrameId) : Eval FrameId :=
  modifyGet fun m => (m.heap.size, { m with heap := m.heap.alloc { outer } })

/-- Binds a name in a frame (`Environment.define`). -/
def define (f : FrameId) (x : String) (v : Datum) : Eval Unit :=
  modify fun m => { m with heap := m.heap.define f x v }

/-- Prints a line. There is no text that the output refuses. -/
def write (line : String) : Eval Unit :=
  modify fun m => { m with output := m.output ++ line ++ "\n" }

/-- The value of a name in a frame or around it (`Environment.lookup`). -/
def lookup (f : FrameId) (x : String) : Eval Datum := do
  match (← get).heap.lookup? f x with
  | some v => pure v
  | none => fault (.unbound x)

/-- A new frame inside the given one that binds one name (`Closure.bind` for a parameter that is a
    symbol, and the frame of `letrec_form`). -/
def bindFrame (outer : FrameId) (x : String) (v : Datum) : Eval FrameId := do
  let f ← newFrame (some outer)
  define f x v
  pure f

/-- A new root frame that binds `print` (`Runner.root_environment`). -/
def newRoot : Eval FrameId := do
  let f ← newFrame none
  define f "print" (.native (← freshId) "print" .print)
  pure f

/-! ## Names that are data

Names can be given as data. Only a symbol is ever bound. -/

/-- Binds the name that a datum is (`Environment.define`, for any key). -/
def defineKey (budget : Nat) (f : FrameId) (v : Datum) : Datum → Eval Unit
  | .symbol x => define f x v
  | key => do fault (.notDefinable (← ofOutcome (key.inspect budget)))

/-- A new frame inside the given one that binds the name that a datum is (`Closure.bind`). The
    frame is made before the name is looked at. -/
def bindKey (budget : Nat) (outer : FrameId) (v key : Datum) : Eval FrameId := do
  let f ← newFrame (some outer)
  defineKey budget f v key
  pure f

/-- The value of the name that a datum is (`Environment.lookup`, for any key). -/
def lookupKey (budget : Nat) (f : FrameId) : Datum → Eval Datum
  | .symbol x => lookup f x
  | key => do fault (.unbound (← ofOutcome (key.plain budget)))

/-- The nearest frame that binds the name that a datum is (`Environment.find`, for any key). -/
def findKey? (f : FrameId) : Datum → Eval (Option FrameId)
  | .symbol x => do pure ((← get).heap.find? f x)
  | _ => pure none

end Eval

end MiniLisp
