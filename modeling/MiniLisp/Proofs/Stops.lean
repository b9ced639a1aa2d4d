import MiniLisp.Proofs.Activation
import MiniLisp.Proofs.Division
import MiniLisp.Proofs.Texts

/-!
# What a run stops with

Each fault is raised at points of its own: a name without a value at a name, a fault of form
where something is not a procedure or where the tree is malformed, and the two faults that are
not the program's where a number is too long to be shown, or where a divisor is rounded to zero.

* `Value.OperateFails`, `Value.operate_fails`: how an operator fails.
* `Expr.Malformed`: the trees that cannot be evaluated as they stand.
* `Point.Shows`, `Point.Vanishes`: the values whose texts are made at a point, and the divisions
  whose divisor is rounded to zero.
* `Point.Cause`, `Point.Raises.cause`: why a fault is raised at a point.
* `Point.Shows.eventually_raises`, `Point.Vanishes.raises`: a number that is too long to be shown,
  and a divisor that is rounded to zero, do raise a fault.
-/

namespace MiniLisp

/-! ## Operators -/

namespace Value

/-- The ways in which an operator fails other than for want of stack. -/
inductive OperateFails (v : Datum) (op : String) (w : Datum) : Fault → Prop
  /-- There is no such operator. -/
  | unknown (none : Operator.ofText? op = none) :
      OperateFails v op w (.unknownOperator (Text.quoted op))
  /-- The arithmetic fails. -/
  | arithmetic {o : Operator} {m n : Number} {f : Fault} (operator : Operator.ofText? op = some o)
      (left : v.number? = some m) (right : w.number? = some n)
      (kind : f.kind = .arithmetic) : OperateFails v op w f
  /-- The divisor is rounded to zero. -/
  | vanishing {i : ObjectId} {x : Float} {q : Rat} (operator : Operator.ofText? op = some .div)
      (left : v = .float i x) (right : w = .frac q) (nonzero : q ≠ 0)
      (small : |q| * 2 ^ 1075 ≤ 1) : OperateFails v op w .floatDivisionByZero
  /-- An operand is not a number, and both are shown. -/
  | operands {o : Operator} {left right : String} (operator : Operator.ofText? op = some o)
      (other : v.number? = none ∨ w.number? = none) :
      OperateFails v op w (.operands o.text left right)
  /-- An operand is not a number, and one of them cannot be shown. -/
  | tooLong {o : Operator} (operator : Operator.ofText? op = some o) (notEqual : o ≠ .equal)
      (other : v.number? = none ∨ w.number? = none) (long : ¬ (v.Writable ∧ w.Writable)) :
      OperateFails v op w .digitLimit

theorem allPairs_ne_fault {test : Datum → Datum → Outcome Bool} {f : Fault}
    (htest : ∀ v w, test v w ≠ .error (.fault f)) (vs ws : List Datum) :
    allPairs test vs ws ≠ .error (.fault f) := by
  fun_induction allPairs test vs ws with
  | case1 v vs w ws ih =>
    refine Outcome.bind_ne_error (htest v w) fun t => ?_
    split
    · exact ih
    · exact nofun
  | case2 => exact nofun

theorem agree_ne_fault (b : Nat) (v w : Datum) (f : Fault) : agree b v w ≠ .error (.fault f) := by
  induction b generalizing v w with
  | zero => rintro ⟨⟩
  | succ b ih =>
    unfold agree
    split_ifs
    · rintro ⟨⟩
    · split
      · rintro ⟨⟩
      · split
        · split_ifs
          · exact allPairs_ne_fault ih _ _
          · rintro ⟨⟩
        · refine Outcome.bind_ne_error (allPairs_ne_fault ih _ _) fun t => ?_
          split <;> rintro ⟨⟩
        · rintro ⟨⟩

theorem equal_ne_fault (b : Nat) (v w : Datum) (f : Fault) : equal b v w ≠ .error (.fault f) := by
  induction b generalizing v w with
  | zero => rintro ⟨⟩
  | succ b ih =>
    unfold equal
    split_ifs
    · rintro ⟨⟩
    · split
      · rintro ⟨⟩
      · split
        · split_ifs
          · exact allPairs_ne_fault ih _ _
          · rintro ⟨⟩
        · exact agree_ne_fault b _ _ f
        · rintro ⟨⟩

theorem result_fails {o : Operator} {i : ObjectId} {r : Except ArithError Number} {f : Fault}
    (h : (o.result i r : Outcome Datum) = .error (.fault f)) :
    f.kind = .arithmetic ∨ f = .floatDivisionByZero ∧ r = .error .vanishingDivisor := by
  cases r with
  | ok n => cases h
  | error e =>
    cases h
    cases e with
    | overflow | divisionByZero => exact .inl rfl
    | vanishingDivisor => exact .inr ⟨rfl, rfl⟩

theorem combine_ne_vanishing {onInts : Int → Int → Int} {onRats : Rat → Rat → Rat}
    {onFloats : Float → Float → Float} (m n : Number) :
    Number.combine onInts onRats onFloats m n ≠ .error .vanishingDivisor := by
  intro h
  unfold Number.combine at h
  split at h
  iterate 4 cases h
  cases hm : m.toFloat with
  | error e =>
    rw [hm] at h
    cases h
    exact m.toFloat_ne_vanishing hm
  | ok x =>
    rw [hm] at h
    cases hn : n.toFloat with
    | error e =>
      rw [hn] at h
      cases h
      exact n.toFloat_ne_vanishing hn
    | ok y =>
      rw [hn] at h
      cases h

theorem eq_float_of_number? {v : Datum} {x : Float} (h : v.number? = some (.float x)) :
    ∃ i, v = .float i x := by
  cases v with
  | float i y =>
    cases h
    exact ⟨i, rfl⟩
  | _ => cases h

theorem eq_frac_of_number? {v : Datum} {q : Rat} (h : v.number? = some (.frac q)) :
    v = .frac q := by
  cases v <;> cases h
  rfl

theorem operate_fails {v w : Datum} {b : Nat} {i : ObjectId} {op : String} {f : Fault}
    (h : v.operate b i op w = .error (.fault f)) : OperateFails v op w f := by
  unfold operate at h
  split at h
  · next hop =>
    cases h
    exact .unknown hop
  · exact absurd h (Outcome.bind_ne_error (equal_ne_fault b v w f) nofun)
  · next o hne hop =>
    split at h
    · next m n hm hn =>
      cases o with
      | greater | less | equal => cases h
      | add | sub | mul =>
        rcases result_fails h with hkind | ⟨_, hr⟩
        · exact .arithmetic hop hm hn hkind
        · exact absurd hr (combine_ne_vanishing m n)
      | div =>
        rcases result_fails h with hkind | ⟨rfl, hr⟩
        · exact .arithmetic hop hm hn hkind
        · obtain ⟨x, q, rfl, rfl, hq, hsmall⟩ := (Number.div_vanishing_iff m n).mp hr
          obtain ⟨i, rfl⟩ := eq_float_of_number? hm
          exact .vanishing hop rfl (eq_frac_of_number? hn) hq hsmall
    · next hother =>
      have hnone : v.number? = none ∨ w.number? = none := by
        by_contra hsome
        rw [not_or, ← ne_eq, ← ne_eq, Option.ne_none_iff_exists', Option.ne_none_iff_exists'] at hsome
        obtain ⟨⟨m, hm⟩, n, hn⟩ := hsome
        exact hother m n hm hn
      rcases (inspect_writes b v).bind_fault_cases h with ⟨rfl, hv⟩ | ⟨left, h⟩
      · exact .tooLong hop hne hnone fun hwritable => hv hwritable.1
      rcases (inspect_writes b w).bind_fault_cases h with ⟨rfl, hw⟩ | ⟨right, h⟩
      · exact .tooLong hop hne hnone fun hwritable => hw hwritable.2
      · cases h
        exact .operands hop hnone

/-- An operator other than equality does to values that are numbers what it does to the numbers. -/
theorem operate_numbers {v w : Datum} {op : String} {o : Operator} {m n : Number}
    (hop : Operator.ofText? op = some o) (hne : o ≠ .equal) (hv : v.number? = some m)
    (hw : w.number? = some n) (b : Nat) (i : ObjectId) :
    v.operate b i op w = o.onNumbers i m n := by
  unfold operate
  rw [hop]
  cases o with
  | equal => exact absurd rfl hne
  | add | sub | mul | div | greater | less =>
    dsimp only
    rw [hv, hw]

theorem operate_equal {v w : Datum} {op : String} {b : Nat} {t : Bool}
    (hop : Operator.ofText? op = some .equal) (h : v.equal b w = .ok t) (i : ObjectId) :
    v.operate b i op w = .ok (.bool t) := by
  unfold operate
  rw [hop]
  dsimp only
  rw [h]
  rfl

/-- A division of numbers ends as their arithmetic does. -/
theorem operate_div {v w : Datum} {op : String} {m n : Number}
    (hop : Operator.ofText? op = some .div) (hv : v.number? = some m) (hw : w.number? = some n)
    (b : Nat) (i : ObjectId) : v.operate b i op w = Operator.div.result i (m.div n) :=
  operate_numbers hop nofun hv hw b i

/-- A division by a vanishing divisor fails. -/
theorem operate_vanishing {b : Nat} {i j : ObjectId} {op : String} {x : Float} {q : Rat}
    (hop : Operator.ofText? op = some .div) (hq : q ≠ 0) (hsmall : |q| * 2 ^ 1075 ≤ 1) :
    operate b i op (.float j x : Datum) (.frac q) = .error (.fault .floatDivisionByZero) := by
  have hdiv := (Number.div_vanishing_iff (.float x) (.frac q)).mpr ⟨x, q, rfl, rfl, hq, hsmall⟩
  rw [operate_div hop rfl rfl, hdiv]
  rfl

/-- Operands that cannot be shown are too long for the message, under a large budget. -/
theorem operate_tooLong {v w : Datum} {op : String} {o : Operator}
    (hop : Operator.ofText? op = some o) (hne : o ≠ .equal)
    (hnone : v.number? = none ∨ w.number? = none) (hlong : ¬ (v.Writable ∧ w.Writable)) :
    Eventually fun b => ∀ i, v.operate b i op w = .error (.fault .digitLimit) := by
  refine ((inspect_settles v).and (inspect_settles w)).mono ?_
  rintro b ⟨hv, hw⟩ i
  have hshown : ∀ g : String → String → Fault,
      (do let left ← v.inspect b
          let right ← w.inspect b
          Outcome.fault (g left right) : Outcome Datum) = .error (.fault .digitLimit) := by
    intro g
    have hv' := inspect_writes b v
    have hw' := inspect_writes b w
    generalize v.inspect b = left at hv hv' ⊢
    generalize w.inspect b = right at hw hw' ⊢
    cases hv' with
    | ok hvw _ =>
      cases hw' with
      | ok hww _ => exact absurd ⟨hvw, hww⟩ hlong
      | tooLong _ => rfl
      | exhausted => exact absurd rfl hw
    | tooLong _ => rfl
    | exhausted => exact absurd rfl hv
  unfold operate
  rw [hop]
  cases o with
  | equal => exact absurd rfl hne
  | _ =>
    dsimp only
    split
    · next hm hn =>
      rw [hm, hn] at hnone
      rcases hnone with h | h <;> cases h
    · exact hshown _

end Value

/-- The stop of a message is its fault, or that what it shows is too long or too deep. -/
theorem Stop.showing_fault_cases {text : Outcome String} {P : Prop} (htext : text.Writes P)
    {fault : String → Fault} {f : Fault} (h : Stop.showing text fault = .fault f) :
    (∃ shown, f = fault shown) ∨ f = .digitLimit ∧ ¬ P := by
  cases htext with
  | ok _ shown =>
    cases h
    exact .inl ⟨shown, rfl⟩
  | tooLong hP =>
    cases h
    exact .inr ⟨rfl, hP⟩
  | exhausted => cases h

/-! ## Points -/

/-- A tree that cannot be evaluated as it stands: a loop that was not expanded, a datum, a
    sequence of nothing, or an operator that does not exist. -/
def Expr.Malformed : Expr → Prop
  | .loop _ _ _ _ _ _ | .stray _ => True
  | .begin es => es = []
  | .binary op _ _ => Operator.ofText? op = none
  | _ => False

theorem Expr.malformed_of_isUnknown {e : Expr} (h : e.isUnknown = true) : e.Malformed := by
  cases e <;> first | exact trivial | cases h

namespace Point

/-- The text of a value is made at a point: for `print`, or for a message. -/
inductive Shows : Point → Datum → Prop
  | print {b : Nat} {e₁ e₂ : Expr} {f : FrameId} {m m₁ m₂ : Machine}
      {ps : List (FrameId × String)} {i : ObjectId} {name : String} {v : Datum}
      (callee : (direct b e₁ f).exec m = (.ok (.native i name .print), m₁))
      (arg : (direct b e₂ f).exec m₁ = (.ok v, m₂)) : Shows ⟨b + 1, .apply e₁ e₂, f, m, ps⟩ v
  | head {b : Nat} {e₁ e₂ : Expr} {f : FrameId} {m m₁ m₂ : Machine}
      {ps : List (FrameId × String)} {v w : Datum}
      (callee : (direct b e₁ f).exec m = (.ok v, m₁)) (other : v.isProcedure = false)
      (arg : (direct b e₂ f).exec m₁ = (.ok w, m₂)) : Shows ⟨b + 1, .apply e₁ e₂, f, m, ps⟩ v
  | binding {b : Nat} {x : String} {e₁ e₂ : Expr} {f : FrameId} {m m' : Machine}
      {ps : List (FrameId × String)} {v : Datum}
      (bound : (direct b e₁ m.heap.size).exec (m.bindFrame f x .unassigned) = (.ok v, m'))
      (other : v.isProcedure = false) : Shows ⟨b + 1, .letrec x e₁ e₂, f, m, ps⟩ v
  | operand {b : Nat} {op : String} {e₁ e₂ : Expr} {f : FrameId} {m m₁ m₂ : Machine}
      {ps : List (FrameId × String)} {o : Operator} {u v w : Datum}
      (left : (direct b e₁ f).exec m = (.ok v, m₁)) (right : (direct b e₂ f).exec m₁ = (.ok w, m₂))
      (operator : Operator.ofText? op = some o) (notEqual : o ≠ .equal)
      (other : v.number? = none ∨ w.number? = none) (shown : u = v ∨ u = w) :
      Shows ⟨b + 1, .binary op e₁ e₂, f, m, ps⟩ u

/-- A float is divided by a fraction that is not zero but is rounded to it. -/
inductive Vanishes : Point → Prop
  | quotient {b : Nat} {op : String} {e₁ e₂ : Expr} {f : FrameId} {m m₁ m₂ : Machine}
      {ps : List (FrameId × String)} {i : ObjectId} {x : Float} {q : Rat}
      (left : (direct b e₁ f).exec m = (.ok (.float i x), m₁))
      (right : (direct b e₂ f).exec m₁ = (.ok (.frac q), m₂))
      (operator : Operator.ofText? op = some .div) (nonzero : q ≠ 0)
      (small : |q| * 2 ^ 1075 ≤ 1) : Vanishes ⟨b + 1, .binary op e₁ e₂, f, m, ps⟩

/-- Why a fault is raised at a point. -/
inductive Cause (p : Point) : Fault → Prop
  /-- A name has no value. -/
  | unbound {x : String} (code : p.code = .name x)
      (free : p.machine.heap.lookup? p.frame x = none) : Cause p (.unbound x)
  /-- A name has the placeholder of a `letrec` for its value. -/
  | uninitialised {x : String} (code : p.code = .name x)
      (placeholder : p.machine.heap.lookup? p.frame x = some .unassigned) :
      Cause p (.uninitialised x)
  /-- What is applied is not a procedure. -/
  | notProcedure {e₁ e₂ : Expr} {shown : String} (code : p.code = .apply e₁ e₂) :
      Cause p (.notProcedure shown)
  /-- What a `letrec` binds is not a procedure. -/
  | bindingValue {x shown : String} {e₁ e₂ : Expr} (code : p.code = .letrec x e₁ e₂) :
      Cause p (.bindingValue x shown)
  /-- An operator does not allow its operands. -/
  | arithmetic {f : Fault} (kind : f.kind = .arithmetic) : Cause p f
  /-- An integer in what is shown has too many digits. -/
  | tooLong {v : Datum} (shows : p.Shows v) (long : ¬ v.Writable) : Cause p .digitLimit
  /-- A divisor is rounded to zero. -/
  | vanishing (divides : p.Vanishes) : Cause p .floatDivisionByZero
  /-- The tree is malformed. -/
  | malformed {f : Fault} (code : p.code.Malformed)
      (kind : f.kind = .illFormed ∨ f.kind = .numberText) : Cause p f

variable {p : Point} {f : Fault} {n : Machine}

/-- Every fault has one of these causes. -/
theorem Raises.cause {s : Stop} (h : p.Raises s n) (hs : s = .fault f) : p.Cause f := by
  cases h with
  | exhausted => cases hs
  | unbound hx =>
    cases hs
    exact .unbound rfl hx
  | uninitialised hx =>
    cases hs
    exact .uninitialised rfl hx
  | binding hbound hv =>
    rcases Stop.showing_fault_cases (Value.inspect_writes _ _) hs with ⟨_, rfl⟩ | ⟨rfl, hlong⟩
    · exact .bindingValue rfl
    · exact .tooLong (.binding hbound hv) hlong
  | operator hleft hright hfailure =>
    subst hs
    cases Value.operate_fails hfailure with
    | unknown hop => exact .malformed hop (.inl rfl)
    | arithmetic _ _ _ hkind => exact .arithmetic hkind
    | vanishing hop hv hw hq hsmall =>
      subst hv hw
      exact .vanishing (.quotient hleft hright hop hq hsmall)
    | operands => exact .arithmetic rfl
    | tooLong hop hne hnone hlong =>
      rcases not_and_or.mp hlong with hlong | hlong
      · exact .tooLong (.operand hleft hright hop hne hnone (.inl rfl)) hlong
      · exact .tooLong (.operand hleft hright hop hne hnone (.inr rfl)) hlong
  | empty =>
    cases hs
    exact .malformed rfl (.inl rfl)
  | print hcallee harg hfailure =>
    subst hs
    rcases (Value.display_writes _ _).error_cases hfailure with hs | ⟨hs, hlong⟩
    · cases hs
    · cases hs
      exact .tooLong (.print hcallee harg) hlong
  | head hcallee hv harg =>
    rcases Stop.showing_fault_cases (Value.inspect_writes _ _) hs with ⟨_, rfl⟩ | ⟨rfl, hlong⟩
    · exact .notProcedure rfl
    · exact .tooLong (.head hcallee hv harg) hlong
  | @unknown b e _ _ _ he =>
    obtain ⟨P, hP⟩ := e.inspect_writes b
    have hmalformed := Expr.malformed_of_isUnknown he
    rcases Stop.showing_fault_cases hP hs with ⟨_, rfl⟩ | ⟨rfl, _⟩
    · exact .malformed hmalformed (.inl rfl)
    · exact .malformed hmalformed (.inr rfl)

/-! ## Faults that are not the program's -/

/-- A value that is too long to be shown raises a fault, given enough stack. -/
theorem Shows.eventually_raises {v : Datum} (h : p.Shows v) (hv : ¬ v.Writable) :
    Eventually fun k => ∃ n, (p.raise k).Raises (.fault .digitLimit) n := by
  have hmessage : ∀ b (g : String → Fault),
      Eventually fun k => Stop.showing (v.inspect (k + b)) g = .fault .digitLimit := by
    intro b g
    refine ((Value.eventually_inspect_tooLong hv).add b).mono fun k hk => ?_
    rw [hk]
    rfl
  cases h with
  | @print b _ _ _ _ _ _ _ _ _ _ hcallee harg =>
    refine ((Value.eventually_display_tooLong hv).add b).mono fun k hk => ?_
    exact ⟨_, .print (direct_ok_add hcallee k) (direct_ok_add harg k) hk⟩
  | @head b _ _ _ _ _ _ _ _ _ hcallee hother harg =>
    refine (hmessage b .notProcedure).mono fun k hk => ?_
    rw [← hk]
    exact ⟨_, .head (direct_ok_add hcallee k) hother (direct_ok_add harg k)⟩
  | @binding b x _ _ _ _ _ _ _ hbound hother =>
    refine (hmessage b (.bindingValue x)).mono fun k hk => ?_
    rw [← hk]
    exact ⟨_, .binding (direct_ok_add hbound k) hother⟩
  | @operand b _ _ _ _ _ _ _ _ _ _ left right hleft hright hop hne hother hshown =>
    have hlong : ¬ (left.Writable ∧ right.Writable) := by
      rcases hshown with rfl | rfl
      · exact fun h => hv h.1
      · exact fun h => hv h.2
    refine ((Value.operate_tooLong hop hne hother hlong).add b).mono fun k hk => ?_
    exact ⟨_, .operator (direct_ok_add hleft k) (direct_ok_add hright k) (hk _)⟩

/-- A divisor that is rounded to zero raises a fault. -/
theorem Vanishes.raises (h : p.Vanishes) (k : Nat) :
    ∃ n, (p.raise k).Raises (.fault .floatDivisionByZero) n := by
  cases h with
  | quotient hleft hright hop hq hsmall =>
    exact ⟨_, .operator (direct_ok_add hleft k) (direct_ok_add hright k)
      (Value.operate_vanishing hop hq hsmall)⟩

end Point

end MiniLisp
