import MiniLisp.Run
import Mathlib.Data.List.Forall2
import Mathlib.Order.Basic

/-!
# Computations and how they end

A computation on the machine is a function from a machine to an outcome and a machine. This
module gives that function for every elementary computation, and the relation between the
outcomes of two computations that later modules lift to machines.

* `Eval.exec`: the outcome and the final machine, with one equation for each elementary step.
* `Eval.Ends`: a computation ends with a value or a fault, and was not cut off by a bound.
* `Outcome.Follows`: an outcome is related to another one, or is a stop that is excused.
* `Stop.Within`: two bounds of which the second one cuts off no more than the first.
* `Eventually`: what holds under every bound that is large enough.
-/

namespace MiniLisp

/-! ## Outcomes -/

namespace Outcome

variable {α β γ δ : Type}

/-- Two outcomes agree: related values, or the same stop. -/
def Rel (R : α → β → Prop) : Outcome α → Outcome β → Prop
  | .ok a, .ok b => R a b
  | .error s, .error t => s = t
  | _, _ => False

/-- An outcome is a stop of the given sort. -/
def Excused (excused : Stop → Prop) (x : Outcome α) : Prop := ∃ s, x = .error s ∧ excused s

/-- The second outcome agrees with the first one, unless the first is excused. -/
def Follows (excused : Stop → Prop) (R : α → β → Prop) (x : Outcome α) (y : Outcome β) : Prop :=
  Excused excused x ∨ Rel R x y

variable {excused : Stop → Prop} {R : α → β → Prop} {Q : γ → δ → Prop}

theorem Rel.ok_left {a : α} {y : Outcome β} (h : Rel R (.ok a) y) : ∃ b, y = .ok b ∧ R a b := by
  cases y with
  | ok b => exact ⟨b, rfl, h⟩
  | error t => exact h.elim

theorem Rel.error_left {s : Stop} {y : Outcome β} (h : Rel R (.error s) y) : y = .error s := by
  cases y with
  | ok b => exact h.elim
  | error t => rw [show s = t from h]

/-- What is related to a value or a fault is one. -/
theorem Rel.fault_left {r : Except Fault α} {y : Outcome β} (h : Rel R (r.mapError .fault) y) :
    ∃ r' : Except Fault β, y = r'.mapError .fault := by
  cases r with
  | ok a =>
    obtain ⟨b, rfl, _⟩ := h.ok_left
    exact ⟨.ok b, rfl⟩
  | error fault => exact ⟨.error fault, h.error_left⟩

theorem Rel.mono_of_eq {R' : α → β → Prop} {x : Outcome α} {y : Outcome β} (h : Rel R x y)
    (hR : ∀ a b, x = .ok a → y = .ok b → R a b → R' a b) : Rel R' x y := by
  cases x with
  | ok a =>
    obtain ⟨b, rfl, hab⟩ := h.ok_left
    exact hR a b rfl rfl hab
  | error s =>
    obtain rfl := h.error_left
    exact rfl

theorem Rel.mono {R' : α → β → Prop} {x : Outcome α} {y : Outcome β} (h : Rel R x y)
    (hR : ∀ a b, R a b → R' a b) : Rel R' x y :=
  h.mono_of_eq fun a b _ _ => hR a b

theorem Rel.flip {x : Outcome α} {y : Outcome β} (h : Rel R x y) : Rel (fun b a => R a b) y x := by
  cases x with
  | ok a =>
    obtain ⟨b, rfl, hab⟩ := h.ok_left
    exact hab
  | error s => rw [h.error_left]; rfl

theorem rel_eq_iff {x y : Outcome α} : Rel Eq x y ↔ x = y := by
  cases x <;> cases y <;> simp [Rel]

theorem bind_ok_iff {x : Outcome α} {f : α → Outcome β} {b : β} :
    (x >>= f) = .ok b ↔ ∃ a, x = .ok a ∧ f a = .ok b := by
  cases x with
  | ok a =>
    constructor
    · intro h
      exact ⟨a, rfl, h⟩
    · rintro ⟨_, ha, h⟩
      cases ha
      exact h
  | error s =>
    constructor
    · intro h
      cases h
    · rintro ⟨_, ha, _⟩
      cases ha

theorem mapM_ok {f : α → Outcome β} {as : List α} {bs : List β} (h : as.mapM f = .ok bs) :
    as.length = bs.length ∧ ∀ a b, (a, b) ∈ as.zip bs → f a = .ok b := by
  induction as generalizing bs with
  | nil =>
    cases h
    exact ⟨rfl, nofun⟩
  | cons a as ih =>
    rw [List.mapM_cons] at h
    obtain ⟨b, hb, h⟩ := bind_ok_iff.mp h
    obtain ⟨bs', hbs, h⟩ := bind_ok_iff.mp h
    cases h
    obtain ⟨hlength, hparts⟩ := ih hbs
    refine ⟨by simp [hlength], fun a' b' hmem => ?_⟩
    rcases List.mem_cons.mp hmem with heq | hmem
    · cases heq
      exact hb
    · exact hparts a' b' hmem

protected theorem Follows.pure {a : α} {b : β} (h : R a b) :
    Follows excused R (pure a : Outcome α) (pure b : Outcome β) := .inr h

theorem Follows.error (s : Stop) : Follows excused R (.error s) (.error s) := .inr rfl

protected theorem Follows.bind {x : Outcome α} {y : Outcome β} {f : α → Outcome γ}
    {g : β → Outcome δ} (h : Follows excused R x y)
    (hfg : ∀ a b, R a b → Follows excused Q (f a) (g b)) :
    Follows excused Q (x >>= f) (y >>= g) := by
  rcases h with ⟨s, rfl, hs⟩ | h
  · exact .inl ⟨s, rfl, hs⟩
  · cases x with
    | ok a =>
      obtain ⟨b, rfl, hab⟩ := h.ok_left
      exact hfg a b hab
    | error s =>
      rw [h.error_left]
      exact .inr rfl

protected theorem Follows.mapM {f : α → Outcome γ} {g : β → Outcome δ} {xs : List α} {ys : List β}
    (h : List.Forall₂ R xs ys) (hfg : ∀ a b, R a b → Follows excused Q (f a) (g b)) :
    Follows excused (List.Forall₂ Q) (xs.mapM f) (ys.mapM g) := by
  induction h with
  | nil => exact .pure .nil
  | cons hab _ ih =>
    rw [List.mapM_cons, List.mapM_cons]
    refine (hfg _ _ hab).bind fun c d hcd => ih.bind fun cs ds hcds => ?_
    exact .pure (.cons hcd hcds)

theorem Follows.refl (x : Outcome α) : Follows excused Eq x x := .inr (rel_eq_iff.mpr rfl)

protected theorem Follows.map {x y : Outcome α} (h : Follows excused Eq x y) (f : α → γ) :
    Follows excused Eq (x >>= fun a => pure (f a)) (y >>= fun a => pure (f a)) :=
  h.bind fun _ _ hab => .pure (congrArg f hab)

theorem Follows.bind_eq {x y : Outcome α} {f g : α → Outcome γ} (h : Follows excused Eq x y)
    (hfg : ∀ a, Follows excused Eq (f a) (g a)) : Follows excused Eq (x >>= f) (y >>= g) :=
  h.bind fun a _ hab => hab ▸ hfg a

theorem Follows.mapM_eq {f : α → Outcome γ} {g : β → Outcome γ} {xs : List α} {ys : List β}
    (h : List.Forall₂ R xs ys) (hfg : ∀ a b, R a b → Follows excused Eq (f a) (g b)) :
    Follows excused Eq (xs.mapM f) (ys.mapM g) := by
  have hall := Follows.mapM h hfg
  rwa [List.forall₂_eq_eq_eq] at hall

/-- When nothing is excused, to follow is to be equal. -/
theorem Follows.eq {x y : Outcome α} (h : Follows (fun _ => False) Eq x y) : x = y := by
  rcases h with ⟨s, _, hs⟩ | h
  · exact hs.elim
  · exact rel_eq_iff.mp h

end Outcome

/-! ## Bounds -/

/-- The second bound is the first one, or a larger one where exhaustion is excused. -/
def Stop.Within (excused : Stop → Prop) (b b' : Nat) : Prop :=
  b = b' ∨ (excused .exhausted ∧ b ≤ b')

namespace Stop.Within

variable {excused : Stop → Prop} {b b' : Nat}

theorem succ_left (h : Within excused (b + 1) b') : ∃ c, b' = c + 1 ∧ Within excused b c := by
  rcases h with rfl | ⟨h, hle⟩
  · exact ⟨b, rfl, .inl rfl⟩
  · exact ⟨b' - 1, by omega, .inr ⟨h, by omega⟩⟩

/-- A function that has no answer under the bound zero has none that needs to be followed. -/
theorem zero_left {α β : Type} {R : α → β → Prop} (h : Within excused 0 b')
    (y : Nat → Outcome β) (hy : y 0 = .error .exhausted) :
    Outcome.Follows excused R (.error .exhausted : Outcome α) (y b') := by
  rcases h with rfl | ⟨h, _⟩
  · rw [hy]; exact .error _
  · exact .inl ⟨_, rfl, h⟩

end Stop.Within

/-- A property of bounds holds of all that are large enough. -/
def Eventually (P : Nat → Prop) : Prop := ∃ n, ∀ b, n ≤ b → P b

namespace Eventually

variable {P Q : Nat → Prop}

theorem exists_ge (h : Eventually P) (n : Nat) : ∃ b, n ≤ b ∧ P b := by
  obtain ⟨n', h⟩ := h
  exact ⟨max n n', Nat.le_max_left .., h _ (Nat.le_max_right ..)⟩

theorem of_forall (h : ∀ b, P b) : Eventually P := ⟨0, fun b _ => h b⟩

theorem mono (h : Eventually P) (hPQ : ∀ b, P b → Q b) : Eventually Q := by
  obtain ⟨n, h⟩ := h
  exact ⟨n, fun b hb => hPQ b (h b hb)⟩

/-- What one more than a large bound is enough for. -/
theorem succ (h : Eventually P) (hPQ : ∀ b, P b → Q (b + 1)) : Eventually Q := by
  obtain ⟨n, h⟩ := h
  refine ⟨n + 1, fun b hb => ?_⟩
  obtain ⟨c, rfl⟩ : ∃ c, b = c + 1 := ⟨b - 1, by omega⟩
  exact hPQ c (h c (by omega))

theorem add (h : Eventually P) (c : Nat) : Eventually fun b => P (b + c) := by
  obtain ⟨n, h⟩ := h
  exact ⟨n, fun b hb => h (b + c) (Nat.le_add_right_of_le hb)⟩

theorem and (hP : Eventually P) (hQ : Eventually Q) : Eventually fun b => P b ∧ Q b := by
  obtain ⟨n₁, h₁⟩ := hP
  obtain ⟨n₂, h₂⟩ := hQ
  refine ⟨max n₁ n₂, fun b hb => ⟨h₁ b ?_, h₂ b ?_⟩⟩
  · omega
  · omega

theorem all {α : Type} {P : α → Nat → Prop} {xs : List α} (h : ∀ x ∈ xs, Eventually (P x)) :
    Eventually fun b => ∀ x ∈ xs, P x b := by
  induction xs with
  | nil => exact .of_forall fun _ => nofun
  | cons x xs ih =>
    rw [List.forall_mem_cons] at h
    exact (h.1.and (ih h.2)).mono fun b hb => List.forall_mem_cons.mpr hb

end Eventually

/-! ## Elementary changes of the machine -/

namespace Heap

theorem define_alloc_size (h : Heap) (frame : Frame) (x : String) (v : Datum) :
    (h.alloc frame).define h.size x v =
      h.alloc { frame with bindings := frame.bindings.insert x v } := by
  simp only [alloc, define, size, Heap.mk.injEq]
  apply Array.ext_getElem?
  intro i
  rw [Array.getElem?_modify]
  by_cases hi : h.frames.size = i
  · subst hi; simp
  · simp [hi, Ne.symm hi, Array.getElem?_push]

end Heap

namespace Machine

/-- The machine after a name has been bound in a frame. -/
def define (m : Machine) (f : FrameId) (x : String) (v : Datum) : Machine :=
  { m with heap := m.heap.define f x v }

/-- The machine after a frame with one binding has been made inside another. -/
def bindFrame (m : Machine) (outer : FrameId) (x : String) (v : Datum) : Machine :=
  { m with heap := m.heap.alloc { bindings := [(x, v)], outer := some outer } }

/-- The machine after a root frame has been made. -/
def withRoot (m : Machine) : Machine :=
  { m with
    heap := m.heap.alloc { bindings := [("print", .native m.nextId "print" .print)] }
    nextId := m.nextId + 1 }

/-- The machine after a line has been printed. -/
def write (m : Machine) (line : String) : Machine :=
  { m with output := m.output ++ line ++ "\n" }

/-- The machine after an identity has been handed out. -/
def takeId (m : Machine) : Machine := { m with nextId := m.nextId + 1 }

end Machine

/-! ## The function of a computation -/

namespace Eval

variable {α β : Type}

/-- The outcome of a computation and the machine that it leaves. -/
def exec (x : Eval α) (m : Machine) : Outcome α × Machine := x.run.run m

/-- The computation ends with a value or a fault, and leaves the given machine. -/
def Ends (x : Eval α) (m : Machine) (r : Except Fault α) (m' : Machine) : Prop :=
  x.exec m = (r.mapError .fault, m')

@[simp] theorem exec_pure (a : α) (m : Machine) : (pure a : Eval α).exec m = (.ok a, m) := rfl

@[simp] theorem exec_throw (s : Stop) (m : Machine) :
    (throw s : Eval α).exec m = (.error s, m) := rfl

@[simp] theorem exec_fault (f : Fault) (m : Machine) :
    (fault f : Eval α).exec m = (.error (.fault f), m) := rfl

@[simp] theorem exec_ofOutcome (x : Outcome α) (m : Machine) : (ofOutcome x).exec m = (x, m) :=
  rfl

@[simp] theorem exec_freshId (m : Machine) : freshId.exec m = (.ok m.nextId, m.takeId) := rfl

@[simp] theorem exec_write (line : String) (m : Machine) :
    (write line).exec m = (.ok (), m.write line) := rfl

@[simp] theorem exec_define (f : FrameId) (x : String) (v : Datum) (m : Machine) :
    (define f x v).exec m = (.ok (), m.define f x v) := rfl

@[simp] theorem exec_newFrame (outer : Option FrameId) (m : Machine) :
    (newFrame outer).exec m = (.ok m.heap.size, { m with heap := m.heap.alloc { outer } }) := rfl

theorem exec_bind (x : Eval α) (f : α → Eval β) (m : Machine) :
    (x >>= f).exec m =
      match x.exec m with
      | (.ok a, m') => (f a).exec m'
      | (.error s, m') => (.error s, m') := by
  cases h : x.run.run m with
  | mk r m' => cases r <;> simp [exec, ExceptT.run_bind, h] <;> rfl

theorem exec_bind_ok {x : Eval α} {m m' : Machine} {a : α} (h : x.exec m = (.ok a, m'))
    (f : α → Eval β) : (x >>= f).exec m = (f a).exec m' := by
  rw [exec_bind, h]

theorem exec_bind_error {x : Eval α} {m m' : Machine} {s : Stop}
    (h : x.exec m = (.error s, m')) (f : α → Eval β) :
    (x >>= f).exec m = (.error s, m') := by
  rw [exec_bind, h]

theorem exec_tryCatch (x : Eval α) (k : Stop → Eval α) (m : Machine) :
    (tryCatch x k).exec m =
      match x.exec m with
      | (.ok a, m') => (.ok a, m')
      | (.error s, m') => (k s).exec m' := by
  cases h : x.run.run m with
  | mk r m' =>
    have hexec : x.exec m = (r, m') := h
    have hrun : StateT.run x m = (r, m') := h
    rw [hexec]
    cases r <;>
      simp [exec, tryCatch, tryCatchThe, MonadExceptOf.tryCatch, ExceptT.tryCatch, hrun] <;> rfl

/-- A relation between machines before and after that is transitive holds of computations in
    a row. -/
theorem exec_bind_trans {R : Machine → Machine → Prop}
    (htrans : ∀ {m m' m''}, R m m' → R m' m'' → R m m'')
    {x : Eval α} {k : α → Eval β} (hx : ∀ m, R m (x.exec m).2)
    (hk : ∀ a m, R m ((k a).exec m).2) (m : Machine) : R m ((x >>= k).exec m).2 := by
  have hm := hx m
  rw [exec_bind]
  split
  · next a m' heq =>
    rw [heq] at hm
    exact htrans hm (hk a m')
  · next s m' heq =>
    rw [heq] at hm
    exact hm

@[simp] theorem exec_bindFrame (outer : FrameId) (x : String) (v : Datum) (m : Machine) :
    (bindFrame outer x v).exec m = (.ok m.heap.size, m.bindFrame outer x v) := by
  rw [bindFrame, exec_bind_ok (exec_newFrame _ m), exec_bind_ok (exec_define _ _ _ _), exec_pure]
  simp only [Machine.define, Heap.define_alloc_size]
  rfl

@[simp] theorem exec_newRoot (m : Machine) :
    newRoot.exec m = (.ok m.heap.size, m.withRoot) := by
  rw [newRoot, exec_bind_ok (exec_newFrame _ m), exec_bind_ok (exec_freshId _),
    exec_bind_ok (exec_define _ _ _ _), exec_pure]
  simp only [Machine.define, Machine.takeId, Heap.define_alloc_size]
  rfl

theorem exec_lookup (f : FrameId) (x : String) (m : Machine) :
    (lookup f x).exec m =
      match m.heap.lookup? f x with
      | some v => (.ok v, m)
      | none => (.error (.fault (.unbound x)), m) := by
  show (match m.heap.lookup? f x with
    | some v => (pure v : Eval Datum)
    | none => fault (.unbound x)).exec m = _
  cases m.heap.lookup? f x <;> rfl

theorem ends_of_fst_eq {x : Eval α} {m : Machine} {r : Except Fault α}
    (h : (x.exec m).1 = r.mapError .fault) : x.Ends m r (x.exec m).2 := Prod.ext h rfl

theorem ends_newRoot_bind_iff {k : FrameId → Eval α} {m m' : Machine} {r : Except Fault α} :
    (newRoot >>= k).Ends m r m' ↔ (k m.heap.size).Ends m.withRoot r m' := by
  rw [Ends, exec_bind_ok (exec_newRoot m), Ends]

theorem Ends.unique {x : Eval α} {m m₁ m₂ : Machine} {r₁ r₂ : Except Fault α}
    (h₁ : x.Ends m r₁ m₁) (h₂ : x.Ends m r₂ m₂) : r₁ = r₂ ∧ m₁ = m₂ := by
  rw [Ends] at h₁ h₂
  rw [h₁, Prod.mk.injEq] at h₂
  refine ⟨?_, h₂.2⟩
  cases r₁ <;> cases r₂ <;> simp_all [Except.mapError]

end Eval

end MiniLisp
