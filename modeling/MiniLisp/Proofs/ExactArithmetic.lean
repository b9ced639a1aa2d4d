import Mathlib
import MiniLisp.Proofs.EqualityTest
import MiniLisp.Proofs.Stops

/-!
# Exact arithmetic is rational arithmetic

As long as no float takes part, operators compute with rationals. What remains to be said beside
the value of a result is its kind: sums, differences and products of integers are integers, a
quotient of integers is one if there is no remainder, and everything else is a fraction, also
where its denominator is one.

* `Exact`: the operands, with their values and the rationals that they are.
* `Exact.combine`, `Exact.quotient`: the two ways to compute a result.
* `Exact.lt`, `Exact.eq`: order and equality.
* `exact_operations`: the seven operators.
-/

namespace MiniLisp

/-- An exact operand: an integer or a fraction. -/
inductive Exact where
  | int (n : Int)
  | frac (q : Rat)
deriving DecidableEq

namespace Exact

/-- The operand as a value. -/
def value : Exact → Datum
  | int n => .int n
  | frac q => .frac q

/-- The number that the value is. -/
def number : Exact → Number
  | int n => .int n
  | frac q => .frac q

/-- The rational that it is read as. -/
def rational : Exact → Rat
  | int n => n
  | frac q => q

/-- Whether it is an integer by kind. A fraction of denominator one is not. -/
def isInt : Exact → Bool
  | int _ => true
  | frac _ => false

/-- A fraction has a positive denominator that shares no factor with the numerator, and is the
    quotient of the two. -/
def InLowestTerms : Exact → Prop
  | int _ => True
  | frac q => 0 < q.den ∧ q.num.natAbs.Coprime q.den ∧ (q.num : Rat) / q.den = q

@[simp] theorem number?_value (a : Exact) : a.value.number? = some a.number := by
  cases a <;> rfl

theorem ofNumber_number (a : Exact) (i : ObjectId) : Value.ofNumber i a.number = a.value := by
  cases a <;> rfl

@[simp] theorem quantity_number (a : Exact) : a.number.quantity = .finite a.rational := by
  cases a <;> rfl

theorem inLowestTerms (a : Exact) : a.InLowestTerms := by
  cases a with
  | int n => trivial
  | frac q => exact ⟨q.den_pos, q.reduced, q.num_div_den⟩

/-! ## Results -/

/-- Arithmetic comes to the given rational, and to an integer exactly under the given condition. -/
def Comes (result : Except ArithError Number) (r : Rat) (whole : Prop) : Prop :=
  ∃ c : Exact, result = .ok c.number ∧ c.rational = r ∧ (c.isInt = true ↔ whole)

variable {a b : Exact}

/-- An operation that agrees on integers and rationals comes to what it is on rationals. -/
theorem combine {onInts : Int → Int → Int} (onRats : Rat → Rat → Rat)
    (hcast : ∀ m n : Int, (onInts m n : Rat) = onRats m n) (onFloats : Float → Float → Float)
    (a b : Exact) :
    Comes (Number.combine onInts onRats onFloats a.number b.number)
      (onRats a.rational b.rational) (a.isInt = true ∧ b.isInt = true) := by
  cases a with
  | int m =>
    cases b with
    | int n => exact ⟨.int (onInts m n), rfl, hcast m n, by simp [isInt]⟩
    | frac q => exact ⟨.frac (onRats m q), rfl, rfl, by simp [isInt]⟩
  | frac p =>
    cases b with
    | int n => exact ⟨.frac (onRats p n), rfl, rfl, by simp [isInt]⟩
    | frac q => exact ⟨.frac (onRats p q), rfl, rfl, by simp [isInt]⟩

theorem lt (a b : Exact) : a.number.lt b.number = decide (a.rational < b.rational) := by
  rw [Number.lt, quantity_number, quantity_number]
  rfl

theorem eq (a b : Exact) : a.number.eq b.number = decide (a.rational = b.rational) := by
  rw [Number.eq, quantity_number, quantity_number]
  exact beq_eq_decide _ _

theorem eq_zero_iff (b : Exact) : b.number.eq (.int 0) = true ↔ b.rational = 0 := by
  cases b with
  | int n => exact Number.eq_zero_int n
  | frac q => exact Number.eq_zero_frac q

theorem div_zero (a : Exact) (hb : b.rational = 0) :
    a.number.div b.number = .error .divisionByZero := if_pos (b.eq_zero_iff.mpr hb)

/-- The quotient of two integers is an integer exactly if there is no remainder. -/
theorem ofRat_div (m : Int) {n : Int} (hn : n ≠ 0) :
    Comes (.ok (.ofRat (m / n))) (m / n) (n ∣ m) := by
  have hwhole := Rat.den_div_intCast_eq_one_iff m n hn
  by_cases hdvd : n ∣ m
  · refine ⟨.int (m / n : Rat).num, ?_, ?_, by simp [isInt, hdvd]⟩
    · rw [Number.ofRat, if_pos (hwhole.mpr hdvd)]
      rfl
    · exact Rat.den_eq_one_iff _ |>.mp (hwhole.mpr hdvd)
  · refine ⟨.frac (m / n), ?_, rfl, by simp [isInt, hdvd]⟩
    rw [Number.ofRat, if_neg (mt hwhole.mp hdvd)]
    rfl

/-- Both operands are integers and the second divides the first. -/
def Divides (b a : Exact) : Prop := ∃ m n : Int, a = .int m ∧ b = .int n ∧ n ∣ m

theorem quotient (a : Exact) (hb : b.rational ≠ 0) :
    Comes (a.number.div b.number) (a.rational / b.rational) (b.Divides a) := by
  have hdiv : a.number.div b.number = Number.quotient a.number b.number :=
    if_neg (mt b.eq_zero_iff.mp hb)
  rw [hdiv]
  cases a with
  | int m =>
    cases b with
    | int n =>
      obtain ⟨c, hc, hvalue, hwhole⟩ := ofRat_div m (Int.cast_ne_zero.mp hb)
      exact ⟨c, hc, hvalue, by simpa [Divides] using hwhole⟩
    | frac q => exact ⟨.frac (m / q), rfl, rfl, by simp [isInt, Divides]⟩
  | frac p =>
    cases b with
    | int n => exact ⟨.frac (p / n), rfl, rfl, by simp [isInt, Divides]⟩
    | frac q => exact ⟨.frac (p / q), rfl, rfl, by simp [isInt, Divides]⟩

/-! ## Operators -/

/-- An operator yields the given rational, in lowest terms, and as an integer exactly under the
    given condition. -/
def Yields (outcome : Outcome Datum) (r : Rat) (whole : Prop) : Prop :=
  ∃ c : Exact, outcome = .ok c.value ∧ c.rational = r ∧ (c.isInt = true ↔ whole) ∧ c.InLowestTerms

theorem Comes.yields {result : Except ArithError Number} {r : Rat} {whole : Prop}
    (h : Comes result r whole) (op : Operator) (i : ObjectId) :
    Yields (op.result i result) r whole := by
  obtain ⟨c, rfl, hvalue, hwhole⟩ := h
  refine ⟨c, ?_, hvalue, hwhole, c.inLowestTerms⟩
  rw [← c.ofNumber_number i]
  rfl

theorem operate_value {op : String} {o : Operator} (hop : Operator.ofText? op = some o)
    (hne : o ≠ .equal) (a b : Exact) (budget : Nat) (i : ObjectId) :
    a.value.operate budget i op b.value = o.onNumbers i a.number b.number :=
  Value.operate_numbers hop hne a.number?_value b.number?_value budget i

theorem eq_of_same (h : a.value.same b.value = true) : a = b := by
  cases a <;> cases b <;> simp_all [value, Value.same]

theorem equal_value (a b : Exact) (budget : Nat) :
    a.value.equal (budget + 1) b.value = .ok (decide (a.rational = b.rational)) := by
  cases hsame : a.value.same b.value with
  | true =>
    rw [← eq_of_same hsame, decide_eq_true rfl]
    exact Value.test_of_same (r := .strict) (Value.same_self _)
  | false =>
    rw [← eq]
    exact Value.test_of_numbers (r := .strict) hsame a.number?_value b.number?_value

section

variable (a b : Exact) (budget : Nat) (i : ObjectId)

theorem add_yields : Yields (a.value.operate budget i "+" b.value) (a.rational + b.rational)
    (a.isInt = true ∧ b.isInt = true) := by
  rw [operate_value (o := .add) rfl nofun]
  exact (combine (· + ·) Int.cast_add _ a b).yields .add i

theorem sub_yields : Yields (a.value.operate budget i "-" b.value) (a.rational - b.rational)
    (a.isInt = true ∧ b.isInt = true) := by
  rw [operate_value (o := .sub) rfl nofun]
  exact (combine (· - ·) Int.cast_sub _ a b).yields .sub i

theorem mul_yields : Yields (a.value.operate budget i "*" b.value) (a.rational * b.rational)
    (a.isInt = true ∧ b.isInt = true) := by
  rw [operate_value (o := .mul) rfl nofun]
  exact (combine (· * ·) Int.cast_mul _ a b).yields .mul i

variable {b} in
theorem div_yields (hb : b.rational ≠ 0) :
    Yields (a.value.operate budget i "/" b.value) (a.rational / b.rational) (b.Divides a) := by
  rw [operate_value (o := .div) rfl nofun]
  exact (quotient a hb).yields .div i

variable {b} in
theorem div_fails (hb : b.rational = 0) :
    a.value.operate budget i "/" b.value = .error (.fault .divisionByZero) := by
  rw [operate_value (o := .div) rfl nofun, Operator.onNumbers, div_zero a hb]
  rfl

theorem operate_less : a.value.operate budget i "<" b.value =
    .ok (.bool (decide (a.rational < b.rational))) := by
  rw [operate_value (o := .less) rfl nofun, ← lt]
  rfl

theorem operate_greater : a.value.operate budget i ">" b.value =
    .ok (.bool (decide (a.rational > b.rational))) := by
  have hlt := b.lt a
  rw [operate_value (o := .greater) rfl nofun, Operator.onNumbers, hlt]
  rfl

theorem operate_equal : a.value.operate (budget + 1) i "=" b.value =
    .ok (.bool (decide (a.rational = b.rational))) :=
  Value.operate_equal rfl (a.equal_value b budget) i

end

theorem Yields.ne_error {outcome : Outcome Datum} {r : Rat} {whole : Prop}
    (h : Yields outcome r whole) (s : Stop) : outcome ≠ .error s := by
  obtain ⟨c, rfl, _⟩ := h
  exact nofun

end Exact

/-- Operators compute with integers and fractions as with the rationals that they are.

    A sum, a difference and a product are integers if both operands are, and fractions otherwise.
    A quotient fails exactly for a divisor of zero, and is an integer exactly if both operands are
    and the division leaves no remainder. Comparisons are those of rationals; equality takes one
    level of the stack budget, like all comparison of values. Nothing else can fail. -/
theorem exact_operations (a b : Exact) (budget : Nat) (i : ObjectId) :
    Exact.Yields (a.value.operate budget i "+" b.value) (a.rational + b.rational)
      (a.isInt = true ∧ b.isInt = true) ∧
    Exact.Yields (a.value.operate budget i "-" b.value) (a.rational - b.rational)
      (a.isInt = true ∧ b.isInt = true) ∧
    Exact.Yields (a.value.operate budget i "*" b.value) (a.rational * b.rational)
      (a.isInt = true ∧ b.isInt = true) ∧
    ((∃ f : Fault, f.kind = .arithmetic ∧
      a.value.operate budget i "/" b.value = .error (.fault f)) ↔ b.rational = 0) ∧
    (b.rational ≠ 0 →
      Exact.Yields (a.value.operate budget i "/" b.value) (a.rational / b.rational)
        (b.Divides a)) ∧
    a.value.operate budget i "<" b.value = .ok (.bool (decide (a.rational < b.rational))) ∧
    a.value.operate budget i ">" b.value = .ok (.bool (decide (a.rational > b.rational))) ∧
    a.value.operate (budget + 1) i "=" b.value =
      .ok (.bool (decide (a.rational = b.rational))) ∧
    ∀ (op : Operator) (s : Stop), a.value.operate (budget + 1) i op.text b.value = .error s →
      op = .div ∧ b.rational = 0 := by
  refine ⟨a.add_yields b budget i, a.sub_yields b budget i, a.mul_yields b budget i, ⟨?_, ?_⟩,
    a.div_yields budget i, a.operate_less b budget i, a.operate_greater b budget i,
    a.operate_equal b budget i, ?_⟩
  · rintro ⟨f, _, hfault⟩
    by_contra hb
    exact (a.div_yields budget i hb).ne_error _ hfault
  · exact fun hb => ⟨.divisionByZero, rfl, a.div_fails budget i hb⟩
  · intro op s hs
    cases op with
    | add => exact absurd hs ((a.add_yields b _ i).ne_error s)
    | sub => exact absurd hs ((a.sub_yields b _ i).ne_error s)
    | mul => exact absurd hs ((a.mul_yields b _ i).ne_error s)
    | div =>
      refine ⟨rfl, ?_⟩
      by_contra hb
      exact (a.div_yields _ i hb).ne_error s hs
    | greater => cases hs.symm.trans (a.operate_greater b _ i)
    | less => cases hs.symm.trans (a.operate_less b _ i)
    | equal => cases hs.symm.trans (a.operate_equal b budget i)

/-- A negative divisor without a remainder, one with a remainder, and a fraction of denominator
    one, which keeps its quotient a fraction. -/
theorem exact_operations_quotients :
    ((Exact.int (-3)).rational ≠ 0 ∧ (Exact.int (-3)).Divides (.int 6) ∧
      Exact.Yields ((Exact.int 6).value.operate 0 0 "/" (Exact.int (-3)).value) (-2) True) ∧
    ((Exact.int (-4)).rational ≠ 0 ∧ ¬ (Exact.int (-4)).Divides (.int 6) ∧
      Exact.Yields ((Exact.int 6).value.operate 0 0 "/" (Exact.int (-4)).value) (-3 / 2) False) ∧
    ((Exact.frac 3).rational ≠ 0 ∧
      Exact.Yields ((Exact.int 6).value.operate 0 0 "/" (Exact.frac 3).value) 2 False) := by
  obtain ⟨-, -, -, -, hwhole, -⟩ := exact_operations (.int 6) (.int (-3)) 0 0
  obtain ⟨-, -, -, -, hrest, -⟩ := exact_operations (.int 6) (.int (-4)) 0 0
  obtain ⟨-, -, -, -, hfrac, -⟩ := exact_operations (.int 6) (.frac 3) 0 0
  have hdivides : (Exact.int (-3)).Divides (.int 6) := ⟨6, -3, rfl, rfl, by decide⟩
  have hremains : ¬ (Exact.int (-4)).Divides (.int 6) := by
    rintro ⟨m, n, hm, hn, hdvd⟩
    cases hm
    cases hn
    revert hdvd
    decide
  have hkind : ¬ (Exact.frac 3).Divides (.int 6) := by
    rintro ⟨m, n, -, hn, -⟩
    cases hn
  have htwo : (Exact.int 6).rational / (Exact.int (-3)).rational = -2 := by decide +kernel
  have hhalves : (Exact.int 6).rational / (Exact.int (-4)).rational = -3 / 2 := by decide +kernel
  have hthree : (Exact.int 6).rational / (Exact.frac 3).rational = 2 := by decide +kernel
  refine ⟨⟨by decide, hdivides, ?_⟩, ⟨by decide, hremains, ?_⟩, by decide, ?_⟩
  · simpa only [htwo, hdivides] using hwhole (by decide)
  · simpa only [hhalves, hremains] using hrest (by decide)
  · simpa only [hthree, hkind] using hfrac (by decide)

end MiniLisp
