import MiniLisp.Proofs.CodeClass

/-!
# Which texts can be written

A value has a text unless it holds an integer of more than 4300 digits. The stack may end
before that is found out, but it does not for a budget that is large enough.

* `Value.Writable`: all integers in a value can be written.
* `Outcome.Writes`: a text is made exactly if what it shows is writable, unless the stack ends.
* `Value.inspect_writes`, `Value.display_writes`: this holds of the texts of values.
* `Value.inspect_settles`, `Value.display_settles`: under a large budget the stack does not end.
-/

namespace MiniLisp

/-! ## Outcomes that depend on what can be written -/

/-- Something is made exactly if the condition holds, unless the stack ends before. -/
inductive Outcome.Writes {α : Type} (writable : Prop) : Outcome α → Prop
  | ok (h : writable) (a : α) : Writes writable (.ok a)
  | tooLong (h : ¬ writable) : Writes writable (.error (.fault .digitLimit))
  | exhausted : Writes writable (.error .exhausted)

namespace Outcome.Writes

variable {α β : Type} {P Q : Prop} {x : Outcome α} {f : α → Outcome β}

theorem iff (h : x.Writes P) (hPQ : P ↔ Q) : x.Writes Q := by rwa [← hPQ]

theorem pure (h : P) (a : α) : (Pure.pure a : Outcome α).Writes P := .ok h a

theorem bind (hx : x.Writes P) (hf : ∀ a, (f a).Writes Q) : (x >>= f).Writes (P ∧ Q) := by
  cases hx with
  | ok hP a =>
    have hPQ : Q ↔ P ∧ Q := by simp [hP]
    exact (hf a).iff hPQ
  | tooLong hP => exact .tooLong fun h => hP h.1
  | exhausted => exact .exhausted

theorem map (hx : x.Writes P) (g : α → β) : (x >>= fun a => Pure.pure (g a)).Writes P :=
  (hx.bind fun a => .pure trivial (g a)).iff (and_iff_left trivial)

theorem mapM {f : α → Outcome β} {P : α → Prop} {xs : List α}
    (h : ∀ x ∈ xs, (f x).Writes (P x)) : (xs.mapM f).Writes (∀ x ∈ xs, P x) := by
  induction xs with
  | nil => exact .pure (by simp) []
  | cons x xs ih =>
    rw [List.forall_mem_cons] at h
    rw [List.mapM_cons]
    exact (h.1.bind fun y => (ih h.2).map (y :: ·)).iff List.forall_mem_cons.symm

theorem error_cases (h : x.Writes P) {s : Stop} (hs : x = .error s) :
    s = .exhausted ∨ s = .fault .digitLimit ∧ ¬ P := by
  cases h with
  | ok _ a => cases hs
  | tooLong hP =>
    cases hs
    exact .inr ⟨rfl, hP⟩
  | exhausted =>
    cases hs
    exact .inl rfl

/-- Where something is made and used, a fault is that it cannot be made, or one of its use. -/
theorem bind_fault_cases (h : x.Writes P) {fault : Fault} (hs : x >>= f = .error (.fault fault)) :
    fault = .digitLimit ∧ ¬ P ∨ ∃ a, f a = .error (.fault fault) := by
  cases h with
  | ok _ a => exact .inr ⟨a, hs⟩
  | tooLong hP =>
    cases hs
    exact .inl ⟨rfl, hP⟩
  | exhausted => cases hs

theorem tooLong_iff (h : x.Writes P) (hends : x ≠ .error .exhausted) :
    x = .error (.fault .digitLimit) ↔ ¬ P := by
  cases h with
  | ok hP a => simp [hP]
  | tooLong hP => simp [hP]
  | exhausted => exact absurd rfl hends

end Outcome.Writes

/-- A computation does not end with a stop that no part of it ends with. -/
theorem Outcome.bind_ne_error {α β : Type} {x : Outcome α} {f : α → Outcome β} {s : Stop}
    (hx : x ≠ .error s) (hf : ∀ a, f a ≠ .error s) : x >>= f ≠ .error s := by
  cases x with
  | ok a => exact hf a
  | error t =>
    rintro ⟨⟩
    exact hx rfl

theorem Outcome.mapM_ne_error {α β : Type} {f : α → Outcome β} {xs : List α} {s : Stop}
    (h : ∀ x ∈ xs, f x ≠ .error s) : xs.mapM f ≠ .error s := by
  induction xs with
  | nil => exact nofun
  | cons x xs ih =>
    rw [List.forall_mem_cons] at h
    rw [List.mapM_cons]
    exact bind_ne_error h.1 fun _ => bind_ne_error (ih h.2) nofun

theorem integerText_writes (n : Int) : (integerText n).Writes (n.natAbs < digitBound) := by
  unfold integerText integerText?
  by_cases h : n.natAbs < digitBound
  · rw [if_pos h]
    exact .ok h _
  · rw [if_neg h]
    exact .tooLong h

namespace Value

/-! ## Values -/

/-- The integers that a value itself is made of have at most 4300 digits. -/
def Short : Datum → Prop
  | .int n => n.natAbs < digitBound
  | .frac q => q.num.natAbs < digitBound ∧ q.den < digitBound
  | _ => True

/-- All integers in a value have at most 4300 digits. -/
def Writable (v : Datum) : Prop := v.Each Short

theorem writable_list_iff {i : ObjectId} {items : List Datum} :
    Writable (.list i items) ↔ ∀ v ∈ items, Writable v := by
  simp [Writable, Each, Short]

theorem writable_tuple_iff {i : ObjectId} {items : List Datum} :
    Writable (.tuple i items) ↔ ∀ v ∈ items, Writable v := by
  simp [Writable, Each, Short]

theorem inspect_writes (b : Nat) (v : Datum) : (v.inspect b).Writes v.Writable := by
  induction b generalizing v with
  | zero => exact .exhausted
  | succ b ih =>
    cases v with
    | int n => exact integerText_writes n
    | frac q => exact (integerText_writes q.num).bind fun _ => (integerText_writes q.den).map _
    | list i items => exact ((Outcome.Writes.mapM fun v _ => ih v).map _).iff writable_list_iff.symm
    | tuple i items =>
      exact ((Outcome.Writes.mapM fun v _ => ih v).map _).iff writable_tuple_iff.symm
    | _ => exact .ok trivial _

theorem fractionText_writes (q : Rat) :
    (fractionText q).Writes (q.num.natAbs < digitBound ∧ q.den < digitBound) := by
  refine (integerText_writes q.num).bind fun num => ?_
  split_ifs with hden
  · refine .pure ?_ num
    rw [hden]
    decide +kernel
  · exact (integerText_writes q.den).map _

theorem plain_writes (b : Nat) (v : Datum) : (v.plain b).Writes v.Writable := by
  cases v with
  | text s | symbol x => exact .ok trivial _
  | frac q => exact fractionText_writes q
  | _ => exact inspect_writes b _

theorem displayNested_writes (b : Nat) (v : Datum) : (v.displayNested b).Writes v.Writable := by
  induction b generalizing v with
  | zero => exact .exhausted
  | succ b ih =>
    cases v with
    | bool t => cases t <;> exact .ok trivial _
    | text s => exact .ok trivial _
    | list i items => exact ((Outcome.Writes.mapM fun v _ => ih v).map _).iff writable_list_iff.symm
    | tuple i items =>
      exact ((Outcome.Writes.mapM fun v _ => ih v).map _).iff writable_tuple_iff.symm
    | _ => exact plain_writes (b + 1) _

theorem display_writes (b : Nat) (v : Datum) : (v.display b).Writes v.Writable := by
  cases v with
  | text s => exact .ok trivial _
  | _ => exact displayNested_writes b _

/-! ## Large budgets -/

theorem integerText_ne_exhausted (n : Int) : integerText n ≠ .error .exhausted := by
  intro h
  unfold integerText at h
  split at h <;> cases h

theorem fractionText_ne_exhausted (q : Rat) : fractionText q ≠ .error .exhausted := by
  refine Outcome.bind_ne_error (integerText_ne_exhausted _) fun num => ?_
  split_ifs
  · exact nofun
  · exact Outcome.bind_ne_error (integerText_ne_exhausted _) nofun

theorem inspect_atom_ne_exhausted {v : Datum} (hv : v.isAtom = true) (b : Nat) :
    v.inspect (b + 1) ≠ .error .exhausted := by
  cases v with
  | int n => exact integerText_ne_exhausted n
  | frac q =>
    refine Outcome.bind_ne_error (integerText_ne_exhausted _) fun num => ?_
    exact Outcome.bind_ne_error (integerText_ne_exhausted _) nofun
  | list | tuple => cases hv
  | _ => exact nofun

theorem settles_of_succ {P : Nat → Prop} (h : ∀ b, P (b + 1)) : Eventually P :=
  (Eventually.of_forall fun _ => trivial).succ fun b _ => h b

/-- A budget that is large enough for the elements of a list is so for the list, with one
    more. -/
theorem settles_of_items {f : Nat → Datum → Outcome String} {P : Nat → Prop} {vs : List Datum}
    (h : ∀ v ∈ vs, Eventually fun b => f b v ≠ .error .exhausted)
    (hP : ∀ b, vs.mapM (f b) ≠ .error .exhausted → P (b + 1)) : Eventually P :=
  (Eventually.all h).succ fun b hb => hP b (Outcome.mapM_ne_error hb)

theorem inspect_settles (v : Datum) : Eventually fun b => v.inspect b ≠ .error .exhausted := by
  induction v using Value.inductionOn with
  | atom v hv => exact settles_of_succ fun b => inspect_atom_ne_exhausted hv b
  | list i items ih | tuple i items ih =>
    exact settles_of_items ih fun b h => Outcome.bind_ne_error h nofun
  | _ => exact settles_of_succ fun b => nofun

theorem eventually_inspect_tooLong {v : Datum} (hv : ¬ v.Writable) :
    Eventually fun b => v.inspect b = .error (.fault .digitLimit) :=
  (inspect_settles v).mono fun b hb => ((inspect_writes b v).tooLong_iff hb).mpr hv

theorem displayNested_settles (v : Datum) :
    Eventually fun b => v.displayNested b ≠ .error .exhausted := by
  induction v using Value.inductionOn with
  | atom v hv =>
    refine settles_of_succ fun b => ?_
    have hinspect := inspect_atom_ne_exhausted hv b
    cases v with
    | bool t => cases t <;> exact nofun
    | frac q => exact fractionText_ne_exhausted q
    | text s | symbol x => exact nofun
    | list | tuple => cases hv
    | _ => exact hinspect
  | list i items ih | tuple i items ih =>
    exact settles_of_items ih fun b h => Outcome.bind_ne_error h nofun
  | _ => exact settles_of_succ fun b => nofun

theorem display_settles (v : Datum) : Eventually fun b => v.display b ≠ .error .exhausted := by
  cases v with
  | text s => exact .of_forall fun b => nofun
  | _ => exact displayNested_settles _

theorem eventually_display_tooLong {v : Datum} (hv : ¬ v.Writable) :
    Eventually fun b => v.display b = .error (.fault .digitLimit) :=
  (display_settles v).mono fun b hb => ((display_writes b v).tooLong_iff hb).mpr hv

end Value

/-! ## Expressions -/

/-- To show an expression fails for the length of an integer or for want of stack only. -/
theorem Expr.inspect_writes (b : Nat) (e : Expr) : ∃ P, (e.inspect b).Writes P := by
  induction b generalizing e with
  | zero => exact ⟨True, .exhausted⟩
  | succ b ih =>
    cases e with
    | numeral v | quote v => exact ⟨_, (v.inspect_writes b).map _⟩
    | text s | truth t | name x => exact ⟨_, .ok trivial _⟩
    | define x e | lambda x e =>
      obtain ⟨P, hP⟩ := ih e
      exact ⟨_, hP.map _⟩
    | letrec x e₁ e₂ | binary x e₁ e₂ | apply e₁ e₂ =>
      obtain ⟨P₁, h₁⟩ := ih e₁
      obtain ⟨P₂, h₂⟩ := ih e₂
      exact ⟨_, h₁.bind fun _ => h₂.map _⟩
    | branch e₁ e₂ e₃ =>
      obtain ⟨P₁, h₁⟩ := ih e₁
      obtain ⟨P₂, h₂⟩ := ih e₂
      obtain ⟨P₃, h₃⟩ := ih e₃
      exact ⟨_, h₁.bind fun _ => h₂.bind fun _ => h₃.map _⟩
    | begin es =>
      choose P hP using ih
      exact ⟨_, (Outcome.Writes.mapM fun e _ => hP e).map _⟩
    | loop i e₁ e₂ u e₃ e₄ =>
      obtain ⟨P₁, h₁⟩ := ih e₁
      obtain ⟨P₂, h₂⟩ := ih e₂
      obtain ⟨P₃, h₃⟩ := ih e₃
      obtain ⟨P₄, h₄⟩ := ih e₄
      exact ⟨_, h₁.bind fun _ => h₂.bind fun _ => h₃.bind fun _ => h₄.map _⟩
    | stray v => exact ⟨_, v.inspect_writes b⟩

end MiniLisp
