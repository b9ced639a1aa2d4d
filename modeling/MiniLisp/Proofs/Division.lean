import Mathlib
import MiniLisp.Number.Basic

/-!
# Divisors that are rounded to zero

A division by zero is refused. But a fraction that is not zero can be so small that the float
nearest to it is zero, and then the division of a float by it fails at a place that does not
look for a zero divisor. This happens for fractions of at most `2^-1075`, which is half of the
least positive float, and for no other operands.

* `Binary64.quantity_eq_zero_iff`: the floats of value zero.
* `Binary64.nearestWord_eq_zero_iff`: the quotients that are rounded to zero.
* `Binary64.ofRat?_zero_iff`: the rationals that are rounded to zero.
* `Number.div_vanishing_iff`: the divisions whose divisor vanishes.
-/

namespace MiniLisp

namespace Binary64

theorem twoPow_pos (n : Nat) : 0 < twoPow n := Nat.two_pow_pos n

theorem twoPow_succ (n : Nat) : twoPow (n + 1) = 2 * twoPow n := Nat.pow_succ'

theorem leadingOne_pos : 0 < leadingOne := twoPow_pos 52

/-! ## Floats of value zero -/

theorem scale_eq_zero_iff (m e : Int) : scale m e = 0 ↔ m = 0 := by
  unfold scale
  split_ifs with he
  · have hpow : (twoPow e.toNat : Int) ≠ 0 := Int.natCast_ne_zero.mpr (twoPow_pos _).ne'
    rw [Int.cast_eq_zero, Int.mul_eq_zero, or_iff_left hpow]
  · exact Rat.mkRat_eq_zero (twoPow_pos _).ne'

theorem significand_eq_zero_iff (x : Float) :
    significand x = 0 ↔ biased x = 0 ∧ fraction x = 0 := by
  have hleading := leadingOne_pos
  unfold significand
  split_ifs with h
  · simp [h]
  · simp only [h, false_and, iff_false]
    omega

theorem quantity_eq_zero_iff (x : Float) :
    (quantity x).eq (.finite 0) = true ↔ biased x = 0 ∧ fraction x = 0 := by
  unfold quantity
  by_cases hbiased : biased x = 2047
  · rw [if_pos hbiased, hbiased]
    split_ifs <;> simp [Quantity.eq]
  · rw [if_neg hbiased, ← significand_eq_zero_iff]
    simp only [Quantity.eq, beq_iff_eq, scale_eq_zero_iff]
    split_ifs <;> omega

/-! ## Words of floats -/

/-- A word whose exponent is not that of infinities and NaNs is the word of a float. -/
theorem toBits_ofBits {u : UInt64} (h : u.toNat / leadingOne % 2048 ≠ 2047) :
    (Float.ofBits u).toBits = u := by
  have hnumber : @Float.Model.UnpackedFloat.isNaNBits .binary64 u.toBitVec = false := by
    rw [Float.Model.UnpackedFloat.isNaNBits, decide_eq_false_iff_not, not_and]
    intro hexponent
    have hnat := congrArg BitVec.toNat hexponent
    rw [Float.Model.UnpackedFloat.unpackExponent_def, BitVec.extractLsb'_toNat,
      Nat.shiftRight_eq_div_pow] at hnat
    exact absurd hnat h
  have hpack := @Float.Model.UnpackedFloat.pack_unpack .binary64 u.toBitVec
  rw [hnumber] at hpack
  exact UInt64.toBitVec_inj.mp (hpack (by decide))

/-- The fields of a finite float, whatever its sign. -/
theorem fields_ofBits {word u : Nat} (hword : word < 2047 * leadingOne)
    (hu : u = word ∨ u = signBit + word) :
    biased (Float.ofBits (UInt64.ofNat u)) * leadingOne +
      fraction (Float.ofBits (UInt64.ofNat u)) = word := by
  have hleading : leadingOne = 4503599627370496 := rfl
  have hsign : signBit = 9223372036854775808 := rfl
  have htoNat : (UInt64.ofNat u).toNat = u := by
    rw [UInt64.toNat_ofNat']
    omega
  have hbits : (Float.ofBits (UInt64.ofNat u)).toBits = UInt64.ofNat u := by
    refine toBits_ofBits ?_
    rw [htoNat, hleading]
    omega
  rw [biased, fraction, hbits, htoNat, hleading]
  omega

/-! ## Quotients that are rounded to zero -/

theorem roundDiv_eq_zero_iff {n d : Nat} (hd : 0 < d) : roundDiv n d = 0 ↔ 2 * n ≤ d := by
  have hcases : n / d = 0 ∧ n % d = n ∧ n < d ∨ 1 ≤ n / d ∧ d ≤ n := by
    rcases Nat.lt_or_ge n d with h | h
    · exact .inl ⟨Nat.div_eq_of_lt h, Nat.mod_eq_of_lt h, h⟩
    · exact .inr ⟨(Nat.one_le_div_iff hd).mpr h, h⟩
  unfold roundDiv
  dsimp only
  split_ifs
  · omega
  · rw [false_iff]
    omega
  · omega

theorem log2_add_le {n d k : Nat} (hn : 0 < n) (h : n * twoPow k ≤ d) :
    n.log2 + k ≤ d.log2 := by
  have hd : d ≠ 0 := by
    have hpos := Nat.mul_pos hn (twoPow_pos k)
    omega
  rw [Nat.le_log2 hd, Nat.pow_add]
  exact (Nat.mul_le_mul_right _ (Nat.log2_self_le hn.ne')).trans h

/-- A quotient far below the least float has the place of the least float as its last one. -/
theorem lastPlace_of_le {n d : Nat} (hn : 0 < n) (h : n * twoPow 1075 ≤ d) :
    lastPlace n d = -1074 := by
  have hlog := log2_add_le hn h
  have horder : binaryOrder n d ≤ -1075 := by
    unfold binaryOrder
    dsimp only
    split_ifs <;> omega
  unfold lastPlace
  omega

theorem nearestWord_eq_zero_iff {n d : Nat} (hn : 0 < n) (hd : 0 < d) :
    nearestWord n d = 0 ↔ n * twoPow 1075 ≤ d := by
  have hround : roundDiv (n * twoPow 1074) (d * twoPow 0) = 0 ↔ n * twoPow 1075 ≤ d := by
    have hone : twoPow 0 = 1 := rfl
    rw [hone, Nat.mul_one, roundDiv_eq_zero_iff hd, twoPow_succ 1074, Nat.mul_left_comm]
  unfold nearestWord
  rw [if_neg hn.ne']
  dsimp only
  constructor
  · intro h
    obtain ⟨hplace, hquotient⟩ := Nat.add_eq_zero_iff.mp h
    have he : lastPlace n d = -1074 := by
      have hle : -1074 ≤ lastPlace n d := le_max_right _ _
      have hzero := (Nat.mul_eq_zero.mp hplace).resolve_right leadingOne_pos.ne'
      omega
    rw [he] at hquotient
    exact hround.mp hquotient
  · intro h
    rw [lastPlace_of_le hn h]
    exact Nat.add_eq_zero_iff.mpr ⟨Nat.zero_mul _, hround.mpr h⟩

/-! ## Rationals that are rounded to zero -/

/-- A rational of at most half the least positive float. -/
theorem abs_mul_le_one_iff (q : Rat) (k : Nat) :
    |q| * 2 ^ k ≤ 1 ↔ q.num.natAbs * twoPow k ≤ q.den := by
  have hden : (0 : Rat) < q.den := Nat.cast_pos.mpr q.den_pos
  have habs : |q| = q.num.natAbs / q.den := by
    rw [Nat.cast_natAbs, Int.cast_abs]
    calc |q| = |(q.num : Rat) / q.den| := by rw [Rat.num_div_den]
      _ = |(q.num : Rat)| / q.den := by rw [abs_div, abs_of_pos hden]
  have hpow : (2 : Rat) ^ k = (twoPow k : Nat) := (Nat.cast_pow 2 k).symm
  rw [habs, hpow, div_mul_eq_mul_div, div_le_one hden, ← Nat.cast_mul, Nat.cast_le]

/-- The fields of the float nearest to a rational are those of its word. -/
theorem fields_ofRat? {q : Rat} {x : Float} (h : ofRat? q = some x) :
    biased x * leadingOne + fraction x = nearestWord q.num.natAbs q.den := by
  unfold ofRat? at h
  dsimp only at h
  generalize nearestWord q.num.natAbs q.den = word at h ⊢
  split at h
  · next hfinite =>
    cases h
    refine fields_ofBits hfinite ?_
    split_ifs
    · exact .inr rfl
    · exact .inl rfl
  · cases h

theorem ofRat?_zero_iff {q : Rat} (hq : q ≠ 0) :
    (∃ x, ofRat? q = some x ∧ (quantity x).eq (.finite 0) = true) ↔ |q| * 2 ^ 1075 ≤ 1 := by
  have hnum : 0 < q.num.natAbs := Int.natAbs_pos.mpr (Rat.num_ne_zero.mpr hq)
  rw [abs_mul_le_one_iff, ← nearestWord_eq_zero_iff hnum q.den_pos]
  constructor
  · rintro ⟨x, hx, hzero⟩
    obtain ⟨hbiased, hfraction⟩ := (quantity_eq_zero_iff x).mp hzero
    rw [← fields_ofRat? hx, hbiased, hfraction, Nat.zero_mul]
  · intro hword
    have hlt : nearestWord q.num.natAbs q.den < 2047 * leadingOne := by
      rw [hword]
      exact Nat.mul_pos (by decide) leadingOne_pos
    have hx : ∃ x, ofRat? q = some x := ⟨_, if_pos hlt⟩
    obtain ⟨x, hx⟩ := hx
    refine ⟨x, hx, (quantity_eq_zero_iff x).mpr ?_⟩
    have hfields := fields_ofRat? hx
    rw [hword, Nat.add_eq_zero_iff, Nat.mul_eq_zero, or_iff_left leadingOne_pos.ne'] at hfields
    exact hfields

end Binary64

namespace Number

theorem elim_eq_ok_iff {o : Option Float} {y : Float} :
    o.elim (throw .overflow) pure = (.ok y : Except ArithError Float) ↔ o = some y := by
  cases o with
  | none => simp [throw, throwThe, MonadExceptOf.throw]
  | some x => simp [pure, Except.pure]

theorem toFloat_ne_vanishing (a : Number) : a.toFloat ≠ .error .vanishingDivisor := by
  have helim : ∀ x : Option Float,
      x.elim (throw .overflow) pure ≠ (.error .vanishingDivisor : Except ArithError Float) := by
    intro x
    cases x <;> exact nofun
  cases a with
  | int n | frac q => exact helim _
  | float x => exact nofun

theorem eq_zero_int (n : Int) : (int n).eq (int 0) = true ↔ (n : Rat) = 0 := by
  simp [eq, quantity, Quantity.eq]

theorem eq_zero_frac (q : Rat) : (frac q).eq (int 0) = true ↔ q = 0 := by
  simp [eq, quantity, Quantity.eq]

/-- Of the numbers other than zero, only fractions are rounded to zero. -/
theorem toFloat_zero_iff {b : Number} (hb : ¬ b.eq (int 0) = true) :
    (∃ y, b.toFloat = .ok y ∧ (Binary64.quantity y).eq (.finite 0) = true) ↔
      ∃ q : Rat, b = .frac q ∧ q ≠ 0 ∧ |q| * 2 ^ 1075 ≤ 1 := by
  cases b with
  | int n =>
    have hn : (n : Rat) ≠ 0 := fun h => hb ((eq_zero_int n).mpr h)
    have hlarge : ¬ |(n : Rat)| * 2 ^ 1075 ≤ 1 := by
      rw [Binary64.abs_mul_le_one_iff, Rat.num_intCast, Rat.den_intCast]
      have hone : 0 < n.natAbs := Int.natAbs_pos.mpr (Int.cast_ne_zero.mp hn)
      have htwo : Binary64.twoPow 1075 = 2 * Binary64.twoPow 1074 := Binary64.twoPow_succ 1074
      have hpow := Binary64.twoPow_pos 1074
      have hle := Nat.le_mul_of_pos_left (Binary64.twoPow 1075) hone
      omega
    simp only [toFloat, elim_eq_ok_iff, Binary64.ofRat?_zero_iff hn, hlarge, reduceCtorEq,
      false_and, exists_false]
  | frac q =>
    have hq : q ≠ 0 := fun h => hb ((eq_zero_frac q).mpr h)
    simp only [toFloat, elim_eq_ok_iff, Binary64.ofRat?_zero_iff hq, frac.injEq]
    exact ⟨fun h => ⟨q, rfl, hq, h⟩, fun ⟨_, heq, _, h⟩ => heq ▸ h⟩
  | float x =>
    constructor
    · rintro ⟨y, hy, hzero⟩
      cases hy
      exact absurd hzero hb
    · rintro ⟨q, hq, _⟩
      cases hq

/-- The quotient of two numbers as floats. -/
def floatQuotient (a b : Number) : Except ArithError Number := do
  let x ← a.toFloat
  let y ← b.toFloat
  if (Binary64.quantity y).eq (.finite 0) then throw .vanishingDivisor
  pure (float (x / y))

theorem floatQuotient_vanishing_iff (a b : Number) :
    floatQuotient a b = .error .vanishingDivisor ↔
      (∃ x, a.toFloat = .ok x) ∧
        ∃ y, b.toFloat = .ok y ∧ (Binary64.quantity y).eq (.finite 0) = true := by
  have ha := toFloat_ne_vanishing a
  have hb := toFloat_ne_vanishing b
  unfold floatQuotient
  generalize a.toFloat = left at ha ⊢
  generalize b.toFloat = right at hb ⊢
  cases left with
  | error e => simpa [bind, Except.bind] using ha
  | ok x =>
    cases right with
    | error e => simpa [bind, Except.bind] using hb
    | ok y =>
      by_cases hy : (Binary64.quantity y).eq (.finite 0) = true
      · simp [bind, Except.bind, hy, throw, throwThe, MonadExceptOf.throw]
      · simp [bind, Except.bind, hy, pure, Except.pure]

/-- The divisor of a division vanishes exactly if a float is divided by a fraction that is not
    zero and is at most `2^-1075`, up to sign. -/
theorem div_vanishing_iff (a b : Number) :
    a.div b = .error .vanishingDivisor ↔
      ∃ x q, a = .float x ∧ b = .frac q ∧ q ≠ 0 ∧ |q| * 2 ^ 1075 ≤ 1 := by
  unfold div
  by_cases hb : b.eq (int 0) = true
  · rw [if_pos hb]
    constructor
    · exact nofun
    · rintro ⟨x, q, rfl, rfl, hq, _⟩
      exact absurd ((eq_zero_frac q).mp hb) hq
  · rw [if_neg hb]
    cases a with
    | float x =>
      have hfloats : quotient (.float x) b = floatQuotient (.float x) b := by cases b <;> rfl
      rw [hfloats, floatQuotient_vanishing_iff, toFloat_zero_iff hb]
      constructor
      · rintro ⟨_, q, hq⟩
        exact ⟨x, q, rfl, hq⟩
      · rintro ⟨_, q, _, hq⟩
        exact ⟨⟨x, rfl⟩, q, hq⟩
    | int m | frac p =>
      refine ⟨fun h => ?_, fun ⟨_, _, ha, _⟩ => nomatch ha⟩
      cases b with
      | int | frac => cases h
      | float y =>
        -- a float is its own divisor, and that it is not zero was looked at before
        obtain ⟨_, hy⟩ := (floatQuotient_vanishing_iff _ _).mp h
        obtain ⟨q, hq, _⟩ := (toFloat_zero_iff hb).mp hy
        cases hq

end Number

end MiniLisp
