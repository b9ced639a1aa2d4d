import MiniLisp.Run
import MiniLisp.Proofs.Expansion
import MiniLisp.Proofs.Lookup
import MiniLisp.Proofs.Reading
import MiniLisp.Proofs.SelfSimulation

/-!
# References to frames

Closures and frames refer to frames by their places in the heap. No such reference dangles: the
frame around a frame is made before it, and the closures that frames hold are of frames that
have been made. A run keeps it so, and the closures in the value that it ends with are of
frames of the machine that it leaves; the value can then be quoted in the next program.

The proof is a simulation of a run by itself, in which the world is the number of frames.

* `Machine.Framed`: no reference of a machine dangles.
* `References.diagonal`: evaluation keeps this.
* `run_settled`: so do runs of programs, whatever they end with.
-/

namespace MiniLisp

/-- Outer frames are made before the frames inside them, and the closures that frames hold are
    of frames that have been made. -/
structure Machine.Framed (m : Machine) : Prop where
  outer : ∀ f < m.heap.size, ∀ o, m.heap.outer? f = some o → o < f
  closures : ∀ f < m.heap.size, ∀ x v, m.heap.boundIn? x f = some v →
    v.ClosuresIn (· < m.heap.size)

namespace Machine.Framed

variable {m : Machine} {f : FrameId} {x : String} {v : Datum}

theorem empty : Machine.Framed {} where
  outer f hf := absurd hf (Nat.not_lt_zero f)
  closures f hf := absurd hf (Nat.not_lt_zero f)

theorem alloc (hm : m.Framed) {frame : Frame} (houter : ∀ o, frame.outer = some o → o < m.heap.size)
    (hbound : ∀ x v, frame.bindings.get? x = some v → v.ClosuresIn (· < m.heap.size)) :
    Machine.Framed { m with heap := m.heap.alloc frame } := by
  have hsize : (m.heap.alloc frame).size = m.heap.size + 1 := Heap.size_alloc ..
  have hgrow : ∀ v : Datum, v.ClosuresIn (· < m.heap.size) →
      v.ClosuresIn (· < (m.heap.alloc frame).size) := by
    rw [hsize]
    exact Value.closuresIn_mono fun f hf => Nat.lt_succ_of_lt hf
  refine ⟨fun f hf o ho => ?_, fun f hf x v hv => hgrow v ?_⟩
  · rcases Nat.lt_succ_iff_lt_or_eq.mp (hsize ▸ hf) with hf | rfl
    · exact hm.outer f hf o (Heap.outer?_alloc_of_lt hf frame ▸ ho)
    · exact houter o (Heap.outer?_alloc_size m.heap frame ▸ ho)
  · rcases Nat.lt_succ_iff_lt_or_eq.mp (hsize ▸ hf) with hf | rfl
    · exact hm.closures f hf x v (Heap.boundIn?_alloc_of_lt hf frame x ▸ hv)
    · exact hbound x v (Heap.boundIn?_alloc_size m.heap frame x ▸ hv)

theorem allocOne (hm : m.Framed) {outer : Option FrameId}
    (houter : ∀ o, outer = some o → o < m.heap.size) (hv : v.ClosuresIn (· < m.heap.size)) :
    Machine.Framed { m with heap := m.heap.alloc { bindings := [(x, v)], outer } } := by
  refine hm.alloc houter fun y u hu => ?_
  by_cases hy : y = x
  · subst hy
    rw [Bindings.get?, List.lookup_cons_self] at hu
    exact Option.some.inj hu ▸ hv
  · rw [Bindings.get?_singleton_of_ne hy] at hu
    cases hu

theorem closed (hm : m.Framed) : m.heap.Closed (· < m.heap.size) := by
  intro f o hf ho
  have hlt := hm.outer f hf o ho
  exact ⟨hlt, hlt.trans hf⟩

theorem takeId (hm : m.Framed) : m.takeId.Framed := ⟨hm.outer, hm.closures⟩

theorem withRoot (hm : m.Framed) : m.withRoot.Framed := by
  have hnone : ∀ o, (none : Option FrameId) = some o → o < m.heap.size := fun _ ho => nomatch ho
  have hprint : Value.ClosuresIn (· < m.heap.size) (.native m.nextId "print" .print) := trivial
  exact (hm.allocOne hnone hprint).takeId

theorem define (hm : m.Framed) (f : FrameId) (x : String) (hv : v.ClosuresIn (· < m.heap.size)) :
    (m.define f x v).Framed := by
  have hsize : (m.heap.define f x v).size = m.heap.size := Heap.size_define ..
  refine ⟨fun g hg o ho => ?_, fun g hg y u hu => ?_⟩
  · exact hm.outer g (hsize ▸ hg) o (Heap.outer?_define m.heap f g x v ▸ ho)
  · simp only [Machine.define] at hg hu ⊢
    rw [hsize] at hg ⊢
    by_cases hgy : f = g ∧ y = x
    · obtain ⟨rfl, rfl⟩ := hgy
      rw [Heap.boundIn?_define_self hg] at hu
      exact Option.some.inj hu ▸ hv
    · rw [Heap.boundIn?_define_of_ne _ (not_and_or.mp hgy)] at hu
      exact hm.closures g hg y u hu

end Machine.Framed

/-- The value of a name is one that a frame holds. -/
theorem Heap.boundIn?_of_lookup? {h : Heap} {f : FrameId} {x : String} {v : Datum}
    (hv : h.lookup? f x = some v) : ∃ g < h.size, h.boundIn? x g = some v := by
  obtain ⟨g, _, hg⟩ := List.exists_of_findSome?_eq_some hv
  refine ⟨g, ?_, hg⟩
  by_contra hlt
  have hframe : h.frame? g = none := Array.getElem?_eq_none (Nat.le_of_not_lt hlt)
  rw [Heap.boundIn?, hframe] at hg
  cases hg

/-! ## A run as a simulation of itself -/

namespace References

variable {n : Nat} {e : Expr} {f : FrameId} {x : String} {v : Datum}

/-- An expression that refers to the first `n` frames only, in one of them. -/
def Code (n : Nat) (e : Expr) (f : FrameId) (e' : Expr) (f' : FrameId) : Prop :=
  (e = e' ∧ f = f') ∧ f < n ∧ e.ClosuresIn (· < n)

theorem code_of_le {n n' : Nat} (hn : n ≤ n') (hf : f < n') (he : e.ClosuresIn (· < n)) :
    Code n' e f e f :=
  ⟨⟨rfl, rfl⟩, hf, Expr.closuresIn_mono (fun _ hf => Nat.lt_of_lt_of_le hf hn) e he⟩

theorem Code.mono {n n' : Nat} (hn : n ≤ n') {e : Expr} {f : FrameId} {e' : Expr} {f' : FrameId}
    (h : Code n e f e' f') : Code n' e f e' f' := by
  obtain ⟨⟨rfl, rfl⟩, hf, he⟩ := h
  exact code_of_le hn (Nat.lt_of_lt_of_le hf hn) he

/-- Both runs are in the same state, in which there are `n` frames. -/
def correspondence : Correspondence Nat where
  ids _ := Eq
  closures n _ := Code n
  code := Code
  machines n m₁ m₂ := m₁ = m₂ ∧ m₁.Framed ∧ m₁.heap.size = n

theorem values_iff {v₁ v₂ : Datum} :
    correspondence.values n v₁ v₂ ↔ v₁ = v₂ ∧ v₁.ClosuresIn (· < n) := by
  constructor
  · intro h
    exact ⟨h.eq_of_alike (fun _ _ h => h) fun _ _ _ _ _ h => h.1,
      h.closuresIn fun _ _ _ _ _ h => h.2⟩
  · rintro ⟨rfl, h⟩
    exact h.alike (fun _ => rfl) fun _ _ _ hf he => ⟨⟨rfl, rfl⟩, hf, he⟩

theorem bindFrame_simulates (hf : f < n) (hv : v.ClosuresIn (· < n)) :
    correspondence.Simulates n (fun n' g g' => g = g' ∧ g < n') (Eval.bindFrame f x v)
      (Eval.bindFrame f x v) := by
  rintro m _ ⟨rfl, hm, rfl⟩
  rw [Eval.exec_bindFrame]
  have houter : ∀ o, some f = some o → o < m.heap.size := fun o ho => Option.some.inj ho ▸ hf
  refine ⟨m.heap.size + 1, Nat.le_succ _, ⟨rfl, hm.allocOne houter hv, ?_⟩, rfl, Nat.lt_succ_self _⟩
  exact Heap.size_alloc ..

theorem assignable (x : String) (f : FrameId) : correspondence.Assignable n x f f := by
  intro n' _ v₁ v₂ hvalues
  obtain ⟨rfl, hv⟩ := values_iff.mp hvalues
  rintro m _ ⟨rfl, hm, rfl⟩
  rw [Eval.exec_define]
  exact ⟨_, le_rfl, ⟨rfl, hm.define f x hv, Heap.size_define ..⟩, trivial⟩

theorem read_simulates (x : String) (f : FrameId) :
    correspondence.Simulates n correspondence.values (Direct.read f x) (Direct.read f x) := by
  refine Correspondence.read_simulates ?_
  rintro m _ ⟨rfl, hm, rfl⟩
  cases hv : m.heap.lookup? f x with
  | none => exact .none
  | some v =>
    obtain ⟨g, hg, hbound⟩ := Heap.boundIn?_of_lookup? hv
    exact .some (values_iff.mpr ⟨rfl, hm.closures g hg x v hbound⟩)

/-- A run, as a simulation of itself. -/
def simulation : Simulation Nat where
  toCorrespondence := correspondence
  oneToOne _ i j i' j' h h' := by rw [show i = j from h, show i' = j' from h']
  ids_mono _ _ _ h := h
  closures_mono hn _ _ _ _ _ h := h.mono hn
  code_mono hn _ _ _ _ h := h.mono hn
  write n line := by
    rintro m _ ⟨rfl, hm, rfl⟩
    exact ⟨_, le_rfl, ⟨rfl, ⟨hm.outer, hm.closures⟩, rfl⟩, trivial⟩
  freshId n := by
    rintro m _ ⟨rfl, hm, rfl⟩
    exact ⟨_, le_rfl, ⟨rfl, hm.takeId, rfl⟩, rfl⟩
  call := by
    rintro n x e f _ _ v₁ v₂ ⟨⟨rfl, rfl⟩, hf, he⟩ hvalues m₁ m₂ hm
    obtain ⟨rfl, hv⟩ := values_iff.mp hvalues
    obtain ⟨n', hn, hm', hr⟩ := bindFrame_simulates hf hv m₁ m₂ hm
    refine ⟨n', hn, hm', hr.mono ?_⟩
    rintro g _ ⟨rfl, hg⟩
    exact code_of_le hn hg he

theorem selfRelated (hf : f < n) :
    simulation.SelfRelated n (Expr.ClosuresIn (· < n)) (Value.ClosuresIn (· < n)) f f where
  hereditary := Expr.closuresIn_hereditary _
  values hd := values_iff.mpr ⟨rfl, hd⟩
  code he := ⟨⟨rfl, rfl⟩, hf, he⟩
  closures he := ⟨⟨rfl, rfl⟩, hf, he⟩
  read x := read_simulates x f
  assignable x := assignable x f
  enter x := by
    intro m₁ m₂ hm
    have hv : Value.ClosuresIn (· < n) (.unassigned : Datum) := trivial
    obtain ⟨n', hn, hm', hr⟩ := bindFrame_simulates hf hv m₁ m₂ hm
    refine ⟨n', hn, hm', hr.mono ?_⟩
    rintro g _ ⟨rfl, hg⟩
    exact ⟨code_of_le hn hg, assignable x g⟩

theorem diagonal : simulation.Diagonal where
  same h := h.1
  matches_self h := (selfRelated h.2.1).matches_self h.2.2

end References

/-! ## Endings -/

/-- No reference dangles at the end of a computation, in the machine or in the value. -/
def Settled (a : Outcome Datum × Machine) : Prop :=
  a.2.Framed ∧ ∀ v, a.1 = .ok v → v.ClosuresIn (· < a.2.heap.size)

theorem settled_error {m : Machine} (hm : m.Framed) (s : Stop) : Settled (.error s, m) :=
  ⟨hm, fun _ h => nomatch h⟩

theorem Settled.reportExhaustion {x : Eval Datum} {m : Machine} (h : Settled (x.exec m)) :
    Settled ((reportExhaustion x).exec m) := by
  rw [MiniLisp.reportExhaustion, Eval.exec_tryCatch]
  generalize x.exec m = a at h ⊢
  obtain ⟨r, m'⟩ := a
  cases r with
  | ok v => exact h
  | error s => cases s <;> exact settled_error h.1 _

theorem settled_bind_ofOutcome {α : Type} {x : Outcome α} {k : α → Eval Datum} {m : Machine}
    (hm : m.Framed) (hk : ∀ a, x = .ok a → Settled ((k a).exec m)) :
    Settled ((Eval.ofOutcome x >>= k).exec m) := by
  cases x with
  | ok a => exact hk a rfl
  | error s => exact settled_error hm s

/-- A computation that simulates itself leaves no dangling reference. -/
theorem settled_of_simulates {m : Machine} (hm : m.Framed) {x : Eval Datum}
    (h : References.simulation.Simulates m.heap.size References.simulation.values x x) :
    Settled (x.exec m) := by
  obtain ⟨n, _, ⟨_, hm', rfl⟩, hr⟩ := h m m ⟨rfl, hm, rfl⟩
  refine ⟨hm', fun v hv => ?_⟩
  rw [hv] at hr
  exact (References.values_iff.mp hr).2

theorem evaluate_settled {m : Machine} (hm : m.Framed) {e : Expr} {f : FrameId}
    (hf : f < m.heap.size) (he : e.ClosuresIn (· < m.heap.size)) (rounds budget : Nat) :
    Settled ((evaluate rounds budget e f).exec m) :=
  settled_of_simulates hm <|
    References.diagonal.evaluate_tracks rounds budget m.heap.size e f e f ⟨⟨rfl, rfl⟩, hf, he⟩

/-- A run of a program whose data refer to frames of the machine leaves no dangling reference. -/
theorem run_settled {m : Machine} (hm : m.Framed) {e : Expr}
    (he : e.ClosuresIn (· < m.heap.size)) (limits : Limits) (stem : String) :
    Settled ((run limits stem e).exec m) := by
  refine Settled.reportExhaustion (settled_bind_ofOutcome hm fun e₁ h₁ => ?_)
  refine settled_bind_ofOutcome hm fun e₂ h₂ => ?_
  have he₁ := Expr.ofProgram_closuresIn he h₁
  obtain ⟨gs, _, hexp⟩ := Expr.expand_expands he₁ (Prod.ext h₂ rfl)
  have hsize := m.size_withRoot
  have he₂ : e₂.ClosuresIn (· < m.withRoot.heap.size) := by
    rw [hsize]
    exact Expr.closuresIn_mono (fun _ hf => Nat.lt_succ_of_lt hf) e₂ hexp.closuresIn
  rw [Eval.exec_bind_ok (Eval.exec_newRoot m)]
  exact evaluate_settled hm.withRoot (hsize ▸ Nat.lt_succ_self _) he₂ limits.rounds limits.stack

end MiniLisp
