import Mathlib
import MiniLisp.Proofs.CoreForms
import MiniLisp.Proofs.Rejection

/-!
# How a run fails

A run of a program given as plain data is meant to fail with faults of the language only: of
form, of a name, of arithmetic or of recursion. It can fail otherwise in two ways. A number with
more than 4300 digits cannot be shown, neither by `print` nor in a message; and a float cannot
be divided by a fraction that is rounded to zero. This module says that there is no third way in
which evaluation fails, and that in both cases such a run exists. What is printed goes to an output
that is taken to accept every text: `Eval.write` does not fail.

* `Value.Raw`: plain data.
* `Stop.Accounted`: the failures that are meant.
* `run_fault_iff`: the part of a run that a fault comes from.
* `run_accounted`, `exists_run_of_raises`: the two directions.
* `failures_accounted_iff`: the programs that fail only as they are meant to.
* `tiny_divisor_fails`: a program that fails otherwise.
-/

namespace MiniLisp

/-! ## Programs that are read -/

theorem Denotes.unique {d : Datum} {e e' : Expr} (h : Denotes d e) (h' : Denotes d e') :
    e = e' := by
  obtain ⟨b, _, hb, hb'⟩ := (h.eventually_read.and h'.eventually_read).exists_ge 0
  cases hb.symm.trans hb'
  rfl

/-- The reader does not stop at a part that is too long in a datum that denotes something. -/
theorem Reader.Rejects.writable_of_denotes {d v : Datum} {e : Expr} (h : Rejects d v)
    (hd : Denotes d e) : v.Writable := by
  by_contra hv
  obtain ⟨b, _, hb, hb'⟩ := ((h.eventually_tooLong hv).and hd.eventually_read).exists_ge 0
  cases hb.symm.trans hb'

/-! ## Plain data -/

/-- The values that plain data are made of. -/
def Value.RawNode : Datum → Prop
  | .list _ _ | .symbol _ | .int _ | .float _ _ | .frac _ | .text _ | .bool _ => True
  | _ => False

/-- Lists, symbols, numbers, texts and truth values, at any depth. -/
def Value.Raw (v : Datum) : Prop := v.Each RawNode

theorem Value.Raw.noProcedure {v : Datum} (h : v.Raw) :
    v.Each fun w => w.isProcedure = false := by
  induction v using Value.inductionOn with
  | list i items ih =>
    have hitems := eachOf_iff.mp h.2
    exact ⟨rfl, eachOf_iff.mpr fun v hv => ih v hv (hitems v hv)⟩
  | tuple i items => exact h.1.elim
  | atom v hv => cases v <;> first | rfl | cases hv
  | float i x => rfl
  | native | closure => exact h.elim

theorem Denotes.quotesNoProcedure {d : Datum} {e : Expr} (h : Denotes d e) (hd : d.Raw) :
    e.QuotesNoProcedure := by
  induction h with
  | bool | text | yes | no | name | number => trivial
  | quote => exact Value.Raw.noProcedure hd.2.2.1
  | define _ ih | lambda _ ih => exact ⟨trivial, ih hd.2.2.2.1⟩
  | letrec _ _ ih₁ ih₂ => exact ⟨trivial, ih₁ hd.2.2.1.2.1.2.2.1, ih₂ hd.2.2.2.1⟩
  | branch _ _ _ ih₁ ih₂ ih₃ => exact ⟨trivial, ih₁ hd.2.2.1, ih₂ hd.2.2.2.1, ih₃ hd.2.2.2.2.1⟩
  | begin _ hlength _ ih =>
    refine ⟨trivial, Expr.eachOf_iff.mpr fun e he => ?_⟩
    obtain ⟨d, hmem⟩ := exists_mem_zip hlength he
    exact ih d e hmem (Value.eachOf_iff.mp hd.2.2 d (List.of_mem_zip hmem).1)
  | loop _ _ _ _ ih₁ ih₂ ih₃ ih₄ =>
    exact ⟨trivial, ih₁ hd.2.2.1.2.2.1, ih₂ hd.2.2.2.1, ih₃ hd.2.2.2.2.1.2.2.1, ih₄ hd.2.2.2.2.2.1⟩
  | binary _ _ ih₁ ih₂ => exact ⟨trivial, ih₁ hd.2.2.1, ih₂ hd.2.2.2.1⟩
  | apply _ _ _ ih₁ ih₂ => exact ⟨trivial, ih₁ hd.2.1, ih₂ hd.2.2.1⟩

/-! ## Expansion -/

/-- The computation never stops for the given reason. -/
def Naming.Never {α : Type} (s : Stop) (x : Naming α) : Prop :=
  ∀ names, (x.exec names).1 ≠ .error s

namespace Naming.Never

variable {α β : Type} {s : Stop}

theorem pure (a : α) : Never s (Pure.pure a : Naming α) := by
  rintro names ⟨⟩

theorem ofOutcome {x : Outcome α} (h : x ≠ .error s) : Never s (Naming.ofOutcome x) := fun _ => h

theorem freshName : Never s Naming.freshName := by
  rintro names ⟨⟩

theorem reserveAll (xs : List String) : Never s (Naming.reserveAll xs) := by
  rintro names ⟨⟩

theorem throw {t : Stop} (h : t ≠ s) : Never s (throw t : Naming α) := by
  rintro names ⟨⟩
  exact h rfl

theorem bind {x : Naming α} {f : α → Naming β} (hx : Never s x) (hf : ∀ a, Never s (f a)) :
    Never s (x >>= f) := by
  intro names
  have hfirst := hx names
  rw [exec_bind]
  split
  · next a names' _ => exact hf a names'
  · next t names' heq =>
    rw [heq] at hfirst
    rintro ⟨⟩
    exact hfirst rfl

theorem mapM {ι : Type} {f : ι → Naming α} {is : List ι} (h : ∀ i ∈ is, Never s (f i)) :
    Never s (is.mapM f) := by
  induction is with
  | nil => exact .pure []
  | cons i is ih =>
    rw [List.forall_mem_cons] at h
    rw [List.mapM_cons]
    exact h.1.bind fun _ => (ih h.2).bind fun _ => .pure _

end Naming.Never

namespace Expr

theorem reserveNames_never {s : Stop} (hs : s ≠ .exhausted) (b : Nat) (e : Expr) :
    Naming.Never s (e.reserveNames b) := by
  refine (Naming.Never.reserveAll _).bind fun _ => .ofOutcome ?_
  rcases Nat.lt_or_ge b e.height with hlt | hge
  · rw [(listing_of_lt_height hlt).1]
    rintro ⟨⟩
    exact hs rfl
  · rw [listing_of_height_le hge]
    exact nofun

/-- What was read is expanded unless the stack ends or a loop assigns another variable. -/
theorem expandLoops_never {s : Stop} (hs : s ≠ .exhausted)
    (hloop : ∀ i u, s ≠ .fault (.loopVariable i u)) (b : Nat) {e : Expr} (he : e.Readable) :
    Naming.Never s (e.expandLoops b) := by
  induction b generalizing e with
  | zero => exact .throw hs.symm
  | succ b ih =>
    cases e with
    | numeral | text | truth | name | quote => exact .pure _
    | stray d => exact he.elim
    | define x e | lambda x e => exact (ih he.2).bind fun _ => .pure _
    | letrec x e₁ e₂ | binary op e₁ e₂ | apply e₁ e₂ =>
      exact (ih he.2.1).bind fun _ => (ih he.2.2).bind fun _ => .pure _
    | branch e₁ e₂ e₃ =>
      refine (ih he.2.1).bind fun _ => (ih he.2.2.1).bind fun _ => ?_
      exact (ih he.2.2.2).bind fun _ => .pure _
    | begin es =>
      have hes := eachOf_iff.mp he.2
      exact (Naming.Never.mapM fun e hmem => ih (hes e hmem)).bind fun _ => .pure _
    | loop i start test assigned update body =>
      obtain ⟨_, hstart, htest, hupdate, hbody⟩ := he
      rw [expandLoops]
      split
      · exact .throw (hloop i assigned).symm
      · refine Naming.Never.freshName.bind fun f => (ih hupdate).bind fun _ => ?_
        refine (ih htest).bind fun _ => (ih hbody).bind fun _ => ?_
        exact (ih hstart).bind fun _ => .pure _

theorem expand_never {s : Stop} (hs : s ≠ .exhausted)
    (hloop : ∀ i u, s ≠ .fault (.loopVariable i u)) (b : Nat) {e : Expr} (he : e.Readable) :
    Naming.Never s (e.expand b) :=
  (reserveNames_never hs b e).bind fun _ => expandLoops_never hs hloop b he

end Expr

/-! ## Runs -/

/-- The failures that the language accounts for. A run that was cut off has not failed, and the
    end of the stack is reported as a fault. -/
def Stop.Accounted : Stop → Prop
  | .fault f => f.kind = .illFormed ∨ f.kind = .unboundName ∨ f.kind = .arithmetic ∨
      f.kind = .recursion
  | .exhausted => False
  | .unfinished => True

theorem Stop.accounted_fault_iff {f : Fault} :
    (Stop.fault f).Accounted ↔ f.kind ≠ .numberText ∧ f.kind ≠ .floatDivision := by
  rw [Accounted]
  cases f.kind <;> simp

variable {d : Datum} {stem : String} {m n : Machine} {limits : Limits}

theorem reportExhaustion_error_iff {α : Type} {x : Eval α} {s : Stop} :
    (reportExhaustion x).exec m = (.error s, n) ↔
      s ≠ .exhausted ∧ x.exec m = (.error s, n) ∨
        s = .fault .recursionTooDeep ∧ x.exec m = (.error .exhausted, n) := by
  rw [reportExhaustion, Eval.exec_tryCatch]
  obtain ⟨r, m', hx⟩ : ∃ r m', x.exec m = (r, m') := ⟨_, _, rfl⟩
  rw [hx]
  cases r with
  | ok a => simp
  | error t => cases t <;> simp <;> grind

/-- A fault other than that of the stack comes from reading, from expansion or from
    evaluation. -/
theorem run_fault_iff {f : Fault} (hf : f ≠ .recursionTooDeep) :
    (run limits stem (.stray d)).exec m = (.error (.fault f), n) ↔
      Expr.read limits.stack d = .error (.fault f) ∧ m = n ∨
      ∃ e, Expr.read limits.stack d = .ok e ∧
        (((e.expand limits.stack).exec { stem }).1 = .error (.fault f) ∧ m = n ∨
        ∃ e', ((e.expand limits.stack).exec { stem }).1 = .ok e' ∧
          (limits.evaluate e' m.heap.size).exec m.withRoot = (.error (.fault f), n)) := by
  have hnaming : ∀ e : Expr, (Eval.ofNaming { stem } (e.expand limits.stack)).exec m =
      (((e.expand limits.stack).exec { stem }).1, m) := fun _ => rfl
  rw [run, reportExhaustion_error_iff]
  simp [hf, Eval.exec_bind_error_iff, Expr.ofProgram, hnaming, Eval.exec_newRoot]

/-- Every value that is shown when the expression is evaluated in a new root frame can be
    written, and no float is divided by a fraction that is rounded to zero. -/
def Expr.Representable (e : Expr) (m : Machine) : Prop :=
  ∀ b q, Point.Visits ⟨b, e, m.heap.size, m.withRoot, []⟩ q →
    (∀ v, q.Shows v → v.Writable) ∧ ¬ q.Vanishes

theorem Expr.Representable.evaluate_accounted {e : Expr} (h : e.Representable m) (he : e.Core)
    {rounds budget : Nat} {f : Fault}
    (hrun : (evaluate rounds budget e m.heap.size).exec m.withRoot = (.error (.fault f), n)) :
    (Stop.fault f).Accounted := by
  obtain ⟨b, q, hvisits, hraises⟩ := Point.exists_raises_of_evaluate hrun
  obtain ⟨hshows, hdivides⟩ := h b q hvisits
  cases hraises.cause rfl with
  | unbound | uninitialised => exact .inr (.inl rfl)
  | notProcedure | bindingValue => exact .inl rfl
  | arithmetic hkind => exact .inr (.inr (.inl hkind))
  | tooLong hv hlong => exact absurd (hshows _ hv) hlong
  | vanishing hq => exact absurd hq hdivides
  | malformed hcode => exact absurd hcode (he.not_malformed hvisits)

/-- A program that shows and divides only what it can fails as it is meant to. -/
theorem run_accounted (hd : d.Raw) (hread : ∀ v, Reader.Rejects d v → v.Writable)
    (hrun : ∀ e e' b, Denotes d e → ((e.expand b).exec { stem }).1 = .ok e' → e'.Representable m)
    {s : Stop} (h : (run limits stem (.stray d)).exec m = (.error s, n)) : s.Accounted := by
  cases s with
  | unfinished => trivial
  | exhausted =>
    rcases reportExhaustion_error_iff.mp h with ⟨hne, _⟩ | ⟨hs, _⟩
    · exact absurd rfl hne
    · cases hs
  | fault f =>
    by_cases hf : f = .recursionTooDeep
    · subst hf
      exact .inr (.inr (.inr rfl))
    rcases (run_fault_iff hf).mp h with ⟨hfails, _⟩ | ⟨e, he, hnext⟩
    · rcases Reader.read_fails hfails with hs | ⟨_, ⟨⟩, hkind | ⟨_, v, hv, hlong⟩⟩
      · cases hs
      · exact .inl hkind
      · exact absurd (hread v hv) hlong
    have hdenotes := Expr.read_denotes he
    rcases hnext with ⟨hfails, _⟩ | ⟨e', he', heval⟩
    · -- Expansion has one fault, which is of form.
      by_contra hkind
      have hloop : ∀ i u, Stop.fault f ≠ .fault (.loopVariable i u) := by
        rintro i u ⟨⟩
        exact hkind (.inl rfl)
      exact Expr.expand_never Stop.noConfusion hloop limits.stack hdenotes.readable { stem } hfails
    · have hcore := Expr.expand_core he (hdenotes.quotesNoProcedure hd) he'
      exact (hrun e e' _ hdenotes he').evaluate_accounted hcore heval

/-! ## Runs that fail otherwise -/

/-- A run can be long enough to meet a fault that some point of it raises. -/
theorem exists_run_of_raises {f : Fault} (hf : f ≠ .recursionTooDeep) {e e' : Expr} {b k : Nat}
    {q : Point} (he : Denotes d e) (he' : ((e.expand b).exec { stem }).1 = .ok e')
    (hvisits : Point.Visits ⟨k, e', m.heap.size, m.withRoot, []⟩ q)
    (hraises : Eventually fun j => ∃ n, (q.raise j).Raises (.fault f) n) :
    ∃ limits n, (run limits stem (.stray d)).exec m = (.error (.fault f), n) := by
  -- One stack is enough to read the program, to expand it and to reach the point.
  obtain ⟨j, hj, hread, n, hn⟩ := ((he.eventually_read.add k).and hraises).exists_ge b
  have hb : b ≤ j + k := by omega
  have hexpand := Expr.expand_ok_of_le (Prod.ext he' rfl) hb
  have hdirect : (direct (j + k) e' m.heap.size).Ends m.withRoot (.error f) n :=
    Point.exec_error_iff.mpr ⟨_, hvisits.raise j, hn⟩
  refine ⟨{ stack := j + k, rounds := j + k }, n, (run_fault_iff hf).mpr (.inr ⟨e, hread, .inr ?_⟩)⟩
  exact ⟨e', congrArg Prod.fst hexpand, (direct_below_evaluate (j + k) e' _).ends hdirect⟩

theorem Reader.Rejects.exists_run {v : Datum} (h : Rejects d v) (hv : ¬ v.Writable) :
    ∃ limits n, (run limits stem (.stray d)).exec m = (.error (.fault .digitLimit), n) := by
  obtain ⟨b, _, hb⟩ := (h.eventually_tooLong hv).exists_ge 0
  exact ⟨{ stack := b }, m, (run_fault_iff Fault.noConfusion).mpr (.inl ⟨hb, rfl⟩)⟩

theorem representable_of_accounted {e e' : Expr} {b : Nat}
    (h : ∀ limits s n, (run limits stem (.stray d)).exec m = (.error s, n) → s.Accounted)
    (he : Denotes d e) (he' : ((e.expand b).exec { stem }).1 = .ok e') : e'.Representable m := by
  intro k q hq
  constructor
  · intro v hv
    by_contra hlong
    obtain ⟨limits, n, hrun⟩ :=
      exists_run_of_raises Fault.noConfusion he he' hq (hv.eventually_raises hlong)
    exact (Stop.accounted_fault_iff.mp (h _ _ _ hrun)).1 rfl
  · intro hdivides
    obtain ⟨limits, n, hrun⟩ :=
      exists_run_of_raises Fault.noConfusion he he' hq (.of_forall hdivides.raises)
    exact (Stop.accounted_fault_iff.mp (h _ _ _ hrun)).2 rfl

/-! ## Division -/

/-- A division of numbers fails with a fault of arithmetic or for a vanishing divisor. -/
theorem Value.operate_div_arithmetic_iff {v w : Datum} {a c : Number} (hv : v.number? = some a)
    (hw : w.number? = some c) :
    (∀ b i s, v.operate b i "/" w = .error s → ∃ f, s = .fault f ∧ f.kind = .arithmetic) ↔
      a.div c ≠ .error .vanishingDivisor := by
  constructor
  · intro h hdiv
    have hfails : v.operate 0 0 "/" w = .error (.fault .floatDivisionByZero) := by
      rw [operate_div rfl hv hw, hdiv]
      rfl
    obtain ⟨f, hf, hkind⟩ := h 0 0 _ hfails
    cases hf
    cases hkind
  · intro hdiv b i s h
    rw [operate_div rfl hv hw] at h
    cases hr : a.div c with
    | ok n =>
      rw [hr] at h
      cases h
    | error err =>
      rw [hr] at h
      cases h
      cases err with
      | overflow | divisionByZero => exact ⟨_, rfl, rfl⟩
      | vanishingDivisor => exact absurd hr hdiv

/-! ## The failures of a program -/

/-- All failures of the runs of a program that is plain data are accounted for exactly if every
    part at which reading stops can be written, and so can every value that an evaluation shows,
    and no float is divided by a fraction that is rounded to zero. A division of numbers fails
    with a fault of arithmetic exactly if it is not such a division. -/
theorem failures_accounted_iff {d : Datum} (hd : d.Raw) (stem : String) (m : Machine) :
    ((∀ limits s n, (run limits stem (.stray d)).exec m = (.error s, n) → s.Accounted) ↔
      (∀ v, Reader.Rejects d v → v.Writable) ∧
      ∀ e e' b, Denotes d e → ((e.expand b).exec { stem }).1 = .ok e' → e'.Representable m) ∧
    ∀ (v w : Datum) (a c : Number), v.number? = some a → w.number? = some c →
      ((∀ b i s, v.operate b i "/" w = .error s → ∃ f, s = .fault f ∧ f.kind = .arithmetic) ↔
        ¬ ∃ x q, a = .float x ∧ c = .frac q ∧ q ≠ 0 ∧ |q| * 2 ^ 1075 ≤ 1) := by
  refine ⟨⟨fun h => ⟨?_, ?_⟩, ?_⟩, ?_⟩
  · intro v hv
    by_contra hlong
    obtain ⟨limits, n, hrun⟩ := hv.exists_run hlong
    exact (Stop.accounted_fault_iff.mp (h _ _ _ hrun)).1 rfl
  · exact fun e e' b he he' => representable_of_accounted h he he'
  · rintro ⟨hread, hrun⟩ limits s n h
    exact run_accounted hd hread hrun h
  · intro v w a c hv hw
    rw [Value.operate_div_arithmetic_iff hv hw, ← Number.div_vanishing_iff]

namespace Failures

/-- The float `1.0`. -/
def one : Datum := .float 1 (Float.ofBits 0x3ff0000000000000)

/-- `(/ 1.0 q)`, where `q` is a fraction. -/
def quotient (q : Rat) : Datum := .list 0 [.symbol "/", one, .frac q]

/-- The tree that is read from it. -/
def tree (q : Rat) : Expr := .binary "/" (.numeral one) (.numeral (.frac q))

theorem quotient_raw (q : Rat) : (quotient q).Raw :=
  ⟨trivial, trivial, trivial, trivial, trivial⟩

theorem quotient_denotes (q : Rat) : Denotes (quotient q) (tree q) :=
  Expr.read_denotes (b := 2) rfl

theorem expand_tree (q : Rat) (b : Nat) (stem : String) :
    (((tree q).expand (b + 2)).exec { stem }).1 = .ok (tree q) := rfl

theorem run_quotient {q : Rat} {f : Fault} (hf : f ≠ .recursionTooDeep)
    (h : ∀ b i, one.operate b i "/" (.frac q) = .error (.fault f)) :
    (run {} "loop" (.stray (quotient q))).exec {} =
      (.error (.fault f), ({} : Machine).withRoot.takeId) := by
  have hdirect : (direct 2 (tree q) 0).Ends ({} : Machine).withRoot (.error f)
      ({} : Machine).withRoot.takeId :=
    Point.Raises.exec_error (p := ⟨2, tree q, 0, _, []⟩) (.operator rfl rfl (h 1 _))
  have hbelow : Evaluation.Below (direct 2) ({} : Limits).evaluate :=
    direct_below_step.2 (by decide) (by decide) (by decide) (by decide)
  refine (run_fault_iff hf).mpr (.inr ⟨tree q, rfl, .inr ⟨tree q, expand_tree q 998 _, ?_⟩⟩)
  exact (hbelow (tree q) 0).ends hdirect

theorem visits_tree {q : Rat} {b : Nat} {f : FrameId} {m : Machine} {p : Point}
    (h : Point.Visits ⟨b, tree q, f, m, []⟩ p) :
    p = ⟨b, tree q, f, m, []⟩ ∨ ∃ v, p.code = .numeral v := by
  induction h with
  | refl => exact .inl rfl
  | tail _ hstep ih =>
    rcases ih with rfl | ⟨v, hv⟩
    · cases hstep with
      | left | right => exact .inr ⟨_, rfl⟩
    · cases hstep <;> cases hv

theorem tree_representable {q : Rat} (hq : ¬ (q ≠ 0 ∧ |q| * 2 ^ 1075 ≤ 1)) (m : Machine) :
    (tree q).Representable m := by
  intro b p hp
  rcases visits_tree hp with rfl | ⟨v, hv⟩
  · constructor
    · intro v hv
      cases hv with
      | @operand b _ _ _ _ _ _ _ _ _ _ left right hleft hright hop hne hother hshown =>
        cases b with
        | zero => cases hleft
        | succ b =>
          cases hleft
          cases hright
          rcases hother with h | h <;> cases h
    · intro hv
      cases hv with
      | @quotient b _ _ _ _ _ _ _ _ _ _ _ hleft hright hop hnonzero hsmall =>
        cases b with
        | zero => cases hleft
        | succ b =>
          cases hright
          exact hq ⟨hnonzero, hsmall⟩
  · constructor
    · intro w hw
      cases hw <;> cases hv
    · intro hdiv
      cases hdiv
      cases hv

end Failures

/-- A division by zero fails with a fault of arithmetic, and no run of it fails otherwise than
    it is meant to. -/
theorem failures_accounted_iff_division_by_zero :
    (Failures.quotient 0).Raw ∧
    (run {} "loop" (.stray (Failures.quotient 0))).exec {} =
      (.error (.fault .divisionByZero), ({} : Machine).withRoot.takeId) ∧
    ∀ limits s n, (run limits "loop" (.stray (Failures.quotient 0))).exec {} = (.error s, n) →
      s.Accounted := by
  refine ⟨Failures.quotient_raw 0, Failures.run_quotient Fault.noConfusion ?_, ?_⟩
  · intro b i
    rw [Value.operate_div rfl rfl rfl]
    rfl
  · refine (failures_accounted_iff (Failures.quotient_raw 0) "loop" {}).1.mpr ⟨?_, ?_⟩
    · exact fun v hv => hv.writable_of_denotes (Failures.quotient_denotes 0)
    · intro e e' b he he'
      obtain rfl := he.unique (Failures.quotient_denotes 0)
      have hexpand := Expr.expand_ok_of_le (Prod.ext he' rfl) (Nat.le_add_right b 2)
      cases (congrArg Prod.fst hexpand).symm.trans (Failures.expand_tree 0 b "loop")
      exact Failures.tree_representable (fun h => h.1 rfl) {}

/-- A float is divided by a fraction that is not zero but is rounded to it, and the run fails
    in a way that is not meant. -/
theorem tiny_divisor_fails :
    (Failures.quotient (mkRat 1 (10 ^ 400))).Raw ∧
    (run {} "loop" (.stray (Failures.quotient (mkRat 1 (10 ^ 400))))).exec {} =
      (.error (.fault .floatDivisionByZero), ({} : Machine).withRoot.takeId) ∧
    ¬ (Stop.fault .floatDivisionByZero).Accounted := by
  have hsmall : |mkRat 1 (10 ^ 400)| * 2 ^ 1075 ≤ 1 := by
    rw [Binary64.abs_mul_le_one_iff]
    decide +kernel
  have hnonzero : mkRat 1 (10 ^ 400) ≠ 0 := by decide +kernel
  refine ⟨Failures.quotient_raw _, Failures.run_quotient Fault.noConfusion ?_, ?_⟩
  · exact fun b i => Value.operate_vanishing rfl hnonzero hsmall
  · exact fun h => (Stop.accounted_fault_iff.mp h).2 rfl

end MiniLisp
