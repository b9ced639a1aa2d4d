import Mathlib
import MiniLisp.Proofs.FrameEffect
import MiniLisp.Proofs.Relocation

/-!
# Procedures without hidden state

A procedure that is applied to the same argument again answers as it did before, whatever
procedures have been applied in between. It prints the same, and it stops for the same reason or
gives the same value, except that the frames and objects made during the call are new ones.

* `Limits.apply`: the application of a procedure.
* `Machine.afterCalls`: the machine after applications in a row, however each of them ends.
* `repeated_calls_agree`: the first call and a later one.
-/

namespace MiniLisp

/-- Applies a procedure to an argument, and makes the calls that this leaves pending. -/
def Limits.apply (limits : Limits) (head arg : Datum) : Eval Datum := do
  match ← (step limits.rounds limits.stack).apply limits.rounds limits.stack head arg .inner with
  | .value v => pure v

theorem Limits.apply_eq (limits : Limits) (head arg : Datum) :
    limits.apply head arg =
      Direct.apply ((step limits.rounds limits.stack).call (limits.rounds + 1)) limits.stack head
        arg := by
  apply Evaluator.apply_bind
  · intro v
    rfl
  · intro param body frame
    simp [Evaluator.enter, Evaluator.call]

theorem Limits.apply_keeps (limits : Limits) (head arg : Datum) :
    (limits.apply head arg).Keeps := by
  rw [Limits.apply_eq]
  exact Direct.apply_keeps (step_call_confined _ _ _) _ head arg

/-- The machine after applications of procedures in a row, however each of them ends. -/
def Machine.afterCalls (m : Machine) (calls : List (Limits × Datum × Datum)) : Machine :=
  calls.foldl (fun m (limits, head, arg) => ((limits.apply head arg).exec m).2) m

theorem Machine.keeps_afterCalls (m : Machine) (calls : List (Limits × Datum × Datum)) :
    m.Keeps (m.afterCalls calls) := by
  induction calls generalizing m with
  | nil => exact .refl m
  | cons c calls ih => exact (c.1.apply_keeps c.2.1 c.2.2 m).trans (ih _)

namespace Relocation

/-- The move from a sound machine to one that has kept its frames. -/
def between (m n : Machine) : Relocation where
  frames := m.heap.size
  ids := m.nextId
  frameOffset := n.heap.size - m.heap.size
  idOffset := n.nextId - m.nextId
  output₁ := m.output
  output₂ := n.output

theorem copies_between {m n : Machine} (hm : m.Sound) (h : m.Keeps n) :
    (between m n).Copies (m.heap.size, m.nextId) m n := by
  have hframe : ∀ g < m.heap.size, (between m n).frame g = g := fun g hg => shift_of_lt hg _
  refine ⟨le_rfl, le_rfl, rfl, ?_, rfl, ?_, hm.outer, fun g hg => ?_, fun g hg x => ?_, ?_⟩
  · simp only [frame, between, shift_of_le le_rfl]
    exact (Nat.add_sub_cancel' h.size).symm
  · simp only [object, between, shift_of_le le_rfl]
    exact (Nat.add_sub_cancel' h.nextId).symm
  · rw [hframe g hg, Heap.outer?, h.frames g hg, ← Heap.outer?]
    cases ho : m.heap.outer? g with
    | none => rfl
    | some o => exact congrArg some (hframe o ((hm.outer g hg o ho).trans hg)).symm
  · rw [hframe g hg, Heap.boundIn?, Heap.boundIn?, h.frames g hg, ← Heap.boundIn?]
    cases hv : m.heap.boundIn? x g with
    | none => exact .none
    | some v => exact .some (values_self (hm.bound g hg x v hv) le_rfl le_rfl)
  · exact ⟨"", String.append_empty.symm, String.append_empty.symm⟩

variable {T : Relocation} {w : World} {v v' : Datum}

theorem Values.eq_relocate (h : T.Values w v v') : v' = v.relocate T.frame T.object :=
  Value.Alike.eq_relocate h (fun _ _ hid => hid.2) fun _ _ _ _ _ hc => ⟨hc.code, hc.frame⟩

theorem Values.eq_map_relocate {a a' : Option Datum} (h : Option.Rel (T.Values w) a a') :
    a' = a.map (Value.relocate T.frame T.object) := by
  cases h with
  | some hv => exact congrArg some hv.eq_relocate
  | none => rfl

theorem Values.display_eq (h : T.Values w v v') (b : Nat) : v'.display b = v.display b := by
  have hwithin : Stop.Within (fun _ => False) b b := .inl rfl
  rcases Value.Alike.display h hwithin with ⟨_, _, hfalse⟩ | hrel
  · exact hfalse.elim
  · exact (Outcome.rel_eq_iff.mp hrel).symm

/-- A procedure is applied alike on a machine and on its copy. -/
theorem apply_tracks (limits : Limits) {head arg head' arg' : Datum}
    (hhead : T.Values w head head') (harg : T.Values w arg arg') {m₁ m₂ : Machine}
    (hm : T.Copies w m₁ m₂) :
    ∃ w', T.Copies w' ((limits.apply head arg).exec m₁).2 ((limits.apply head' arg').exec m₂).2 ∧
      Outcome.Rel (T.Values w') ((limits.apply head arg).exec m₁).1
        ((limits.apply head' arg').exec m₂).1 := by
  have hcall : T.correspondence.Tracks ((step limits.rounds limits.stack).call (limits.rounds + 1))
      ((step limits.rounds limits.stack).call (limits.rounds + 1)) := by
    refine step_call_induction (P := fun ev => T.correspondence.Tracks ev ev)
      (fun _ _ _ _ _ _ => .throw _) (fun _ _ _ _ _ _ => .throw _) ?_ _ _ _
    rintro inner last call budget hinner hlast hcall w e f _ _ ⟨rfl, rfl, hf, he⟩ m₁ m₂ hm
    have hmatches := (selfRelated hf hm.frames_le hm.ids_le).matches_self he
    exact T.simulation.form_simulates hinner hlast hcall budget hmatches m₁ m₂ hm
  rw [Limits.apply_eq, Limits.apply_eq]
  obtain ⟨w', _, hcopies, hrel⟩ :=
    T.simulation.apply_simulates hcall hhead harg limits.stack m₁ m₂ hm
  exact ⟨w', hcopies, hrel⟩

end Relocation

/-- A procedure that is applied to the same argument again, after the first call and any further
    calls, prints what it has printed before and ends as it has ended before, with the same fault
    or with a value of the same text that differs in the places of the frames and in the
    identities of the objects made during the call only. The frames that the value can refer to
    differ in this way too. The first call leaves a sound machine that owns the value. -/
theorem repeated_calls_agree (limits : Limits) {m : Machine} (hm : m.Sound) {head arg : Datum}
    (hhead : m.Owns head) (harg : m.Owns arg) (calls : List (Limits × Datum × Datum))
    {r r' : Outcome Datum} {m₁ m₂ m₃ : Machine}
    (hfirst : (limits.apply head arg).exec m = (r, m₁)) (hcalls : m₁.afterCalls calls = m₂)
    (hagain : (limits.apply head arg).exec m₂ = (r', m₃)) {frame : FrameId → FrameId}
    {object : ObjectId → ObjectId}
    (hframe : frame = shift m.heap.size (m₂.heap.size - m.heap.size))
    (hobject : object = shift m.nextId (m₂.nextId - m.nextId)) :
    r' = r.map (Value.relocate frame object) ∧
    (∃ text, m₁.output = m.output ++ text ∧ m₃.output = m₂.output ++ text) ∧
    (∀ v b, r = .ok v → (v.relocate frame object).display b = v.display b) ∧
    (∀ g < m₁.heap.size,
      m₃.heap.outer? (frame g) = (m₁.heap.outer? g).map frame ∧
      ∀ x, m₃.heap.boundIn? x (frame g) =
        (m₁.heap.boundIn? x g).map (Value.relocate frame object)) ∧
    m₁.Sound ∧ ∀ v, r = .ok v → m₁.Owns v := by
  subst hcalls hframe hobject
  have hkeeps : m.Keeps (m₁.afterCalls calls) := by
    have hcall := limits.apply_keeps head arg m
    rw [hfirst] at hcall
    exact hcall.trans (m₁.keeps_afterCalls calls)
  have hcopies := Relocation.copies_between hm hkeeps
  set T := Relocation.between m (m₁.afterCalls calls)
  have hself : ∀ {v : Datum}, m.Owns v → T.Values (m.heap.size, m.nextId) v v :=
    fun hv => Relocation.values_self hv le_rfl le_rfl
  obtain ⟨w, hcopies, hrel⟩ := Relocation.apply_tracks limits (hself hhead) (hself harg) hcopies
  rw [hfirst, hagain] at hcopies hrel
  refine ⟨?_, hcopies.output, ?_, fun g hg => ⟨?_, fun x => ?_⟩, hcopies.sound, ?_⟩
  · cases r with
    | error s => exact hrel.error_left
    | ok v =>
      obtain ⟨v', rfl, hv⟩ := hrel.ok_left
      exact congrArg Except.ok hv.eq_relocate
  · rintro v b rfl
    obtain ⟨v', -, hv⟩ := hrel.ok_left
    exact hv.eq_relocate ▸ hv.display_eq b
  · exact hcopies.outer g (hcopies.size₁ ▸ hg)
  · exact Relocation.Values.eq_map_relocate (hcopies.bound g (hcopies.size₁ ▸ hg) x)
  · rintro v rfl
    obtain ⟨v', -, hv⟩ := hrel.ok_left
    rw [Machine.Owns, hcopies.size₁, hcopies.nextId₁]
    exact hv.throughout hcopies.frames_le hcopies.ids_le

namespace RepeatedCalls

/-- `(lambda (x) (begin (print x) (lambda (y) x)))`, in the root frame. -/
def speaking : Datum :=
  .closure 1 "x" (.begin [.apply (.name "print") (.name "x"), .lambda "y" (.name "x")]) 0

/-- The machine with a new root frame and the identity of one closure. -/
def machine : Machine := ({} : Machine).withRoot.takeId

/-- The first call. -/
def first : Outcome Datum × Machine :=
  (Limits.apply { stack := 20, rounds := 20 } speaking (.bool false)).exec machine

/-- Another call of the closure, a call of what is not a procedure, and one without stack. -/
def others : List (Limits × Datum × Datum) :=
  [({ stack := 20, rounds := 20 }, speaking, .bool true),
    ({ stack := 20, rounds := 20 }, .bool true, .unit),
    ({ stack := 0, rounds := 20 }, speaking, .bool true)]

/-- The call that repeats the first one. -/
def again : Outcome Datum × Machine :=
  (Limits.apply { stack := 20, rounds := 20 } speaking (.bool false)).exec
    (first.2.afterCalls others)

theorem sound_machine : machine.Sound := by
  refine ⟨fun f hf o ho => ?_, fun f hf x v hv => ?_⟩
  · obtain rfl : f = 0 := Nat.lt_one_iff.mp hf
    cases ho
  · obtain rfl : f = 0 := Nat.lt_one_iff.mp hf
    by_cases hx : x = "print"
    · subst hx
      obtain rfl : (.native 0 "print" .print : Datum) = v := by
        have hprint : machine.heap.boundIn? "print" 0 = some (.native 0 "print" .print) := by cbv
        exact Option.some.inj (hprint.symm.trans hv)
      exact Nat.zero_lt_two
    · cases (Bindings.get?_singleton_of_ne hx _).symm.trans hv

end RepeatedCalls

open RepeatedCalls in
/-- A closure that prints and makes another closure is called again after three further calls,
    two of which have failed. -/
theorem repeated_calls_agree_after_failures :
    machine.Sound ∧ machine.Owns speaking ∧ machine.Owns (.bool false) ∧
    first.1 = .ok (.closure 2 "y" (.name "x") 1) ∧ first.2.output = "#f\n" ∧
    again.1 = .ok (.closure 4 "y" (.name "x") 4) ∧
    again.2.output = (first.2.afterCalls others).output ++ "#f\n" := by
  have hsize : machine.heap.size = 1 := by cbv
  have hnext : machine.nextId = 2 := by cbv
  have hspeaking : machine.Owns speaking := by
    rw [Machine.Owns, hsize, hnext]
    simp [speaking, Value.Throughout, Expr.Throughout, Value.Below]
  have hfalse : machine.Owns (.bool false) := trivial
  have hfirst : first.1 = .ok (.closure 2 "y" (.name "x") 1) := by cbv
  have hprinted : first.2.output = "#f\n" := by cbv
  have hsize' : (first.2.afterCalls others).heap.size = 4 := by cbv
  have hnext' : (first.2.afterCalls others).nextId = 4 := by cbv
  have hcall : (Limits.apply { stack := 20, rounds := 20 } speaking (.bool false)).exec machine =
      (first.1, first.2) := rfl
  have hrepeat : (Limits.apply { stack := 20, rounds := 20 } speaking (.bool false)).exec
      (first.2.afterCalls others) = (again.1, again.2) := rfl
  obtain ⟨hvalue, ⟨text, htext, hagain⟩, _⟩ := repeated_calls_agree { stack := 20, rounds := 20 }
    sound_machine hspeaking hfalse others hcall rfl hrepeat rfl rfl
  rw [hfirst, hsize, hsize', hnext, hnext'] at hvalue
  have hempty : machine.output = "" := rfl
  rw [hempty, String.empty_append] at htext
  refine ⟨sound_machine, hspeaking, hfalse, hfirst, hprinted, hvalue, ?_⟩
  rw [← hprinted]
  exact htext ▸ hagain

end MiniLisp
