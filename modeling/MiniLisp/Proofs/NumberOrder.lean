import Mathlib
import MiniLisp.Proofs.Equality
import MiniLisp.Proofs.Stops

/-!
# Numbers of all kinds are in one order

Integers, fractions and floats compare by their exact values. Each number other than a NaN has a
place on the line of the rationals with an infinity at both ends, and the three comparisons are
those of the places. So they are the comparisons of one linear order, whatever the kinds of the
operands, and no conversion between the kinds can make them disagree.

* `Binary64.place`, `Value.place`: the places, read off the fields of a float.
* `Quantity.lt_iff`, `Quantity.eq_iff`: exact values compare as their places.
* `Value.compares_places`: the three comparisons of ordered numbers.
* `Value.compares_nan`: the comparisons with a NaN.
* `numbers_linearly_ordered`: the laws together.
-/

namespace MiniLisp

/-- The rationals with an infinity at both ends. -/
abbrev Line := WithBot (WithTop ℚ)

/-! ## Places -/

namespace Quantity

/-- The place of an exact value; an undefined one has none. -/
def place : Quantity → Option Line
  | finite q => some ((q : WithTop ℚ) : Line)
  | posInf => some ⊤
  | negInf => some ⊥
  | undefined => none

variable {a b : Quantity} {x y : Line}

theorem lt_iff (ha : a.place = some x) (hb : b.place = some y) : a.lt b = true ↔ x < y := by
  cases a <;> cases ha <;> cases b <;> cases hb <;> simp [lt, lt_top_iff_ne_top, ← WithBot.coe_top]

theorem eq_iff (ha : a.place = some x) (hb : b.place = some y) : a.eq b = true ↔ x = y := by
  cases a <;> cases ha <;> cases b <;> cases hb <;> simp [eq]

theorem place_eq_none_iff : a.place = none ↔ a = undefined := by
  cases a <;> simp [place]

theorem lt_undefined (h : a = undefined ∨ b = undefined) : a.lt b = false := by
  rcases h with rfl | rfl
  · rfl
  · cases a <;> rfl

theorem eq_undefined (h : a = undefined ∨ b = undefined) : a.eq b = false := by
  rcases h with rfl | rfl
  · rfl
  · cases a <;> rfl

end Quantity

namespace Binary64

theorem scale_eq (m e : Int) : scale m e = m * (2 : ℚ) ^ e := by
  unfold scale
  split_ifs with he
  · lift e to Nat using he
    simp [twoPow]
  · obtain ⟨k, rfl⟩ : ∃ k : Nat, e = -(k : Int) := ⟨(-e).toNat, by omega⟩
    simp [twoPow, Rat.mkRat_eq_div, div_eq_mul_inv]

/-- The place of a float: a sign, an integer and a power of two, unless all bits of the exponent
    are ones. -/
def place (x : Float) : Option Line :=
  if biased x = 2047 then
    if fraction x = 0 then some (if negative x then ⊥ else ⊤) else none
  else
    some (((if negative x then -1 else 1) * significand x * 2 ^ exponent x : ℚ) : WithTop ℚ)

theorem place_quantity (x : Float) : (quantity x).place = place x := by
  unfold quantity place
  by_cases hbiased : biased x = 2047
  · rw [if_pos hbiased, if_pos hbiased]
    by_cases hfraction : fraction x = 0
    · rw [if_neg (not_not.mpr hfraction), if_pos hfraction]
      split_ifs <;> rfl
    · rw [if_pos hfraction, if_neg hfraction]
      rfl
  · rw [if_neg hbiased, if_neg hbiased, Quantity.place, scale_eq]
    split_ifs <;> simp

end Binary64

namespace Value

/-- The place of a number. -/
def place : Datum → Option Line
  | int n => some (((n : ℚ) : WithTop ℚ) : Line)
  | frac q => some ((q : WithTop ℚ) : Line)
  | float _ x => Binary64.place x
  | _ => none

/-- A number other than a NaN. -/
def IsOrdered (v : Datum) : Prop := ∃ x, v.place = some x

/-- A float without a place. -/
def IsNaN (v : Datum) : Prop := ∃ i x, v = .float i x ∧ Binary64.place x = none

variable {O : Objects} {u v w : Datum} {x y : Line} {n : Number}

theorem place_eq (hn : v.number? = some n) : v.place = n.quantity.place := by
  cases v with
  | int | frac =>
    cases hn
    rfl
  | float i x =>
    cases hn
    exact (Binary64.place_quantity x).symm
  | _ => cases hn

theorem number_of_place (hv : v.place = some x) : ∃ n, v.number? = some n := by
  cases v with
  | int | frac | float => exact ⟨_, rfl⟩
  | _ => cases hv

/-! ## Comparisons -/

/-- An operator answers whether its operands compare so, under every budget that lets it start. -/
def Compares (op : String) (v w : Datum) (t : Bool) : Prop :=
  ∀ budget i, v.operate (budget + 1) i op w = .ok (.bool t)

theorem Compares.unique {op : String} {s t : Bool} (h : Compares op v w s)
    (h' : Compares op v w t) : s = t := by
  cases (h 0 0).symm.trans (h' 0 0)
  rfl

theorem Compares.iff {op : String} {s : Bool} (h : Compares op v w s) (t : Bool) :
    Compares op v w t ↔ t = s := by
  constructor
  · exact fun h' => h'.unique h
  · rintro rfl
    exact h

theorem compares_less {m : Number} (hv : v.number? = some m) (hw : w.number? = some n) :
    Compares "<" v w (m.lt n) := fun _ _ => operate_numbers (o := .less) rfl nofun hv hw _ _

theorem compares_greater {m : Number} (hv : v.number? = some m) (hw : w.number? = some n) :
    Compares ">" v w (n.lt m) := fun _ _ => operate_numbers (o := .greater) rfl nofun hv hw _ _

/-- Numbers that are one object are equal without a look at their values. -/
theorem compares_equal {m : Number} (hv : v.number? = some m) (hw : w.number? = some n) :
    Compares "=" v w (v.same w || m.eq n) := by
  intro budget i
  refine operate_equal rfl ?_ i
  cases hsame : v.same w with
  | true => exact test_of_same (r := .strict) hsame
  | false => exact test_of_numbers (r := .strict) hsame hv hw

/-- Numbers other than NaNs compare as their places. -/
theorem compares_places (hv : O.Has v) (hw : O.Has w) (hx : v.place = some x)
    (hy : w.place = some y) :
    Compares "<" v w (decide (x < y)) ∧ Compares "=" v w (decide (x = y)) ∧
      Compares ">" v w (decide (x > y)) := by
  obtain ⟨m, hm⟩ := number_of_place hx
  obtain ⟨n, hn⟩ := number_of_place hy
  have hmx : m.quantity.place = some x := (place_eq hm).symm.trans hx
  have hny : n.quantity.place = some y := (place_eq hn).symm.trans hy
  have hless : m.lt n = decide (x < y) := by
    rw [Bool.eq_iff_iff, decide_eq_true_iff]
    exact Quantity.lt_iff hmx hny
  have hgreater : n.lt m = decide (x > y) := by
    rw [Bool.eq_iff_iff, decide_eq_true_iff]
    exact Quantity.lt_iff hny hmx
  have hequal : (v.same w || m.eq n) = decide (x = y) := by
    rw [Bool.eq_iff_iff, Bool.or_eq_true, decide_eq_true_iff]
    constructor
    · rintro (hsame | heq)
      · rw [O.one hv hw hsame] at hx
        exact Option.some.inj (hx.symm.trans hy)
      · exact (Quantity.eq_iff hmx hny).mp heq
    · exact fun heq => .inr ((Quantity.eq_iff hmx hny).mpr heq)
  exact ⟨hless ▸ compares_less hm hn, hequal ▸ compares_equal hm hn,
    hgreater ▸ compares_greater hm hn⟩

/-- A NaN is neither below nor above any number, and equals only itself. -/
theorem compares_nan (hv : v.isNumber = true) (hw : w.isNumber = true)
    (hnan : v.IsNaN ∨ w.IsNaN) :
    Compares "<" v w false ∧ Compares "=" v w (v.same w) ∧ Compares ">" v w false := by
  obtain ⟨m, hm⟩ := Option.isSome_iff_exists.mp hv
  obtain ⟨n, hn⟩ := Option.isSome_iff_exists.mp hw
  have hundefined : m.quantity = .undefined ∨ n.quantity = .undefined := by
    rcases hnan with ⟨i, x, rfl, hx⟩ | ⟨i, x, rfl, hx⟩
    · exact .inl (Quantity.place_eq_none_iff.mp (place_eq hm ▸ hx))
    · exact .inr (Quantity.place_eq_none_iff.mp (place_eq hn ▸ hx))
  have hless : m.lt n = false := Quantity.lt_undefined hundefined
  have hequal : m.eq n = false := Quantity.eq_undefined hundefined
  have hgreater : n.lt m = false := Quantity.lt_undefined hundefined.symm
  refine ⟨hless ▸ compares_less hm hn, ?_, hgreater ▸ compares_greater hm hn⟩
  have h := compares_equal hm hn
  rwa [hequal, Bool.or_false] at h

/-- Whether the first of two operands is below, equal to or above the second is told by exactly one
    of the three comparisons. -/
theorem compares_once (hv : O.Has v) (hw : O.Has w) (hx : v.place = some x)
    (hy : w.place = some y) :
    ∃ less equal greater, Compares "<" v w less ∧ Compares "=" v w equal ∧
      Compares ">" v w greater ∧ [less, equal, greater].count true = 1 := by
  obtain ⟨hless, hequal, hgreater⟩ := compares_places hv hw hx hy
  refine ⟨_, _, _, hless, hequal, hgreater, ?_⟩
  rcases lt_trichotomy x y with h | h | h
  · simp [h, h.ne, h.not_gt]
  · simp [h]
  · simp [h, h.ne', h.not_gt]

/-- Only the places of the operands matter. -/
theorem compares_congr {op : String} (hop : op ∈ ["<", "=", ">"]) {v' w' : Datum} (hv : O.Has v)
    (hw : O.Has w) (hv' : O.Has v') (hw' : O.Has w') (hx : v.place = some x)
    (hy : w.place = some y) (hx' : v'.place = some x) (hy' : w'.place = some y) (t : Bool) :
    Compares op v w t ↔ Compares op v' w' t := by
  obtain ⟨hless, hequal, hgreater⟩ := compares_places hv hw hx hy
  obtain ⟨hless', hequal', hgreater'⟩ := compares_places hv' hw' hx' hy'
  simp only [List.mem_cons, List.not_mem_nil, or_false] at hop
  rcases hop with rfl | rfl | rfl
  · rw [hless.iff, hless'.iff]
  · rw [hequal.iff, hequal'.iff]
  · rw [hgreater.iff, hgreater'.iff]

end Value

/-- The comparisons of numbers are those of one linear order.

    Numbers other than NaNs compare as their places on the line, so exactly one of the three
    comparisons is true; one number is above another exactly if the other is below it; to be below
    is transitive; and operands that are equal can stand for each other in all three. A NaN is
    neither below nor above a number, and equal to it only if the two are one object. -/
theorem numbers_linearly_ordered (O : Objects) :
    (∀ v w, O.Has v → O.Has w → ∀ x y, v.place = some x → w.place = some y →
      v.Compares "<" w (decide (x < y)) ∧ v.Compares "=" w (decide (x = y)) ∧
        v.Compares ">" w (decide (x > y))) ∧
    (∀ v w, O.Has v → O.Has w → v.IsOrdered → w.IsOrdered →
      (∃ less equal greater, v.Compares "<" w less ∧ v.Compares "=" w equal ∧
        v.Compares ">" w greater ∧ [less, equal, greater].count true = 1) ∧
      ∀ t, v.Compares ">" w t ↔ w.Compares "<" v t) ∧
    (∀ u v w, O.Has u → O.Has v → O.Has w → u.IsOrdered → v.IsOrdered → w.IsOrdered →
      u.Compares "<" v true → v.Compares "<" w true → u.Compares "<" w true) ∧
    (∀ v v' w, O.Has v → O.Has v' → O.Has w → v.IsOrdered → v'.IsOrdered → w.IsOrdered →
      v.Compares "=" v' true → ∀ op ∈ ["<", "=", ">"], ∀ t,
        (v.Compares op w t ↔ v'.Compares op w t) ∧ (w.Compares op v t ↔ w.Compares op v' t)) ∧
    ∀ v w, O.Has v → O.Has w → v.isNumber = true → w.isNumber = true → v.IsNaN ∨ w.IsNaN →
      v.Compares "<" w false ∧ v.Compares ">" w false ∧
        ∃ equal, v.Compares "=" w equal ∧ (equal = true ↔ v = w) := by
  refine ⟨?_, ?_, ?_, ?_, ?_⟩
  · exact fun v w hv hw x y hx hy => Value.compares_places hv hw hx hy
  · rintro v w hv hw ⟨x, hx⟩ ⟨y, hy⟩
    refine ⟨Value.compares_once hv hw hx hy, fun t => ?_⟩
    rw [(Value.compares_places hv hw hx hy).2.2.iff, (Value.compares_places hw hv hy hx).1.iff]
  · rintro u v w hu hv hw ⟨x, hx⟩ ⟨y, hy⟩ ⟨z, hz⟩ huv hvw
    have hxy : x < y := by
      simpa using ((Value.compares_places hu hv hx hy).1.iff true).mp huv
    have hyz : y < z := by
      simpa using ((Value.compares_places hv hw hy hz).1.iff true).mp hvw
    have h := (Value.compares_places hu hw hx hz).1
    rwa [decide_eq_true (hxy.trans hyz)] at h
  · rintro v v' w hv hv' hw ⟨x, hx⟩ ⟨x', hx'⟩ ⟨y, hy⟩ heq op hop t
    obtain rfl : x = x' := by
      simpa using ((Value.compares_places hv hv' hx hx').2.1.iff true).mp heq
    exact ⟨Value.compares_congr hop hv hw hv' hw hx hy hx' hy t,
      Value.compares_congr hop hw hv hw hv' hy hx hy hx' t⟩
  · intro v w hv hw hm hn hnan
    obtain ⟨hless, hequal, hgreater⟩ := Value.compares_nan hm hn hnan
    refine ⟨hless, hgreater, _, hequal, O.one hv hw, ?_⟩
    rintro rfl
    exact Value.same_self v

namespace NumberOrder

/-- The float `2^53`, above which not every integer is a float. -/
def limit : Datum := .float 0 (Float.ofBits 0x4340000000000000)

/-- The negative zero. -/
def negativeZero : Datum := .float 1 (Float.ofBits 0x8000000000000000)

/-- The infinity. -/
def infinity : Datum := .float 2 (Float.ofBits 0x7ff0000000000000)

/-- Numbers that exist side by side: these floats, two NaNs, and integers and fractions that are no
    floats or beyond all of them. -/
def members : List Datum :=
  [limit, negativeZero, infinity, Equality.nan 3, Equality.nan 4, .int (2 ^ 53 + 1),
    .frac (2 ^ 53 + 1 / 3), .int 0, .int (10 ^ 200 * 10 ^ 200)]

/-- No identity belongs to two of them. -/
def objects : Objects where
  Has v := v ∈ members
  list {i xs} h := by simp [members, limit, negativeZero, infinity, Equality.nan] at h
  tuple {i xs} h := by simp [members, limit, negativeZero, infinity, Equality.nan] at h
  one {v w} hv hw h := by
    simp only [members, List.mem_cons, List.not_mem_nil, or_false] at hv hw
    rcases hv with rfl | rfl | rfl | rfl | rfl | rfl | rfl | rfl | rfl <;>
      rcases hw with rfl | rfl | rfl | rfl | rfl | rfl | rfl | rfl | rfl <;>
      first | rfl | exact absurd h (by decide +kernel)

theorem place_float {i : ObjectId} {x : Float} {q : Quantity} (h : Binary64.quantity x = q) :
    (Value.float i x : Datum).place = q.place := by
  rw [← h, Binary64.place_quantity]
  rfl

theorem place_limit : limit.place = some (((2 ^ 53 : ℚ) : WithTop ℚ) : Line) :=
  place_float (q := .finite (2 ^ 53)) (by decide +kernel)

theorem place_negativeZero : negativeZero.place = some (((0 : ℚ) : WithTop ℚ) : Line) :=
  place_float (q := .finite 0) (by decide +kernel)

theorem place_infinity : infinity.place = some ⊤ := place_float (q := .posInf) (by decide +kernel)

theorem isNaN_nan (i : ObjectId) : (Equality.nan i).IsNaN :=
  ⟨i, _, rfl, place_float (i := i) (q := .undefined) (by decide +kernel)⟩

end NumberOrder

/-- An integer and a fraction just above a float of the same nearest float, an integer beyond all
    finite floats, the two zeros, and NaNs. -/
theorem numbers_linearly_ordered_near_floats :
    (∀ v ∈ NumberOrder.members, NumberOrder.objects.Has v) ∧
    NumberOrder.limit.Compares "<" (.frac (2 ^ 53 + 1 / 3)) true ∧
    (Value.frac (2 ^ 53 + 1 / 3) : Datum).Compares "<" (.int (2 ^ 53 + 1)) true ∧
    NumberOrder.limit.Compares "<" (.int (2 ^ 53 + 1)) true ∧
    (Value.int (10 ^ 200 * 10 ^ 200) : Datum).Compares "<" NumberOrder.infinity true ∧
    NumberOrder.negativeZero.Compares "=" (.int 0) true ∧
    (Equality.nan 3).Compares "<" (Equality.nan 4) false ∧
    ∃ equal, (Equality.nan 3).Compares "=" (Equality.nan 4) equal ∧
      (equal = true ↔ Equality.nan 3 = Equality.nan 4) := by
  obtain ⟨hplaces, -, htrans, -, hnan⟩ := numbers_linearly_ordered NumberOrder.objects
  have hlimit : NumberOrder.objects.Has NumberOrder.limit := by
    simp [NumberOrder.objects, NumberOrder.members]
  have hfrac : NumberOrder.objects.Has (.frac (2 ^ 53 + 1 / 3)) := by
    simp [NumberOrder.objects, NumberOrder.members]
  have hint : NumberOrder.objects.Has (.int (2 ^ 53 + 1)) := by
    simp [NumberOrder.objects, NumberOrder.members]
  have hlow : NumberOrder.limit.Compares "<" (.frac (2 ^ 53 + 1 / 3)) true := by
    have h := (hplaces _ _ hlimit hfrac _ _ NumberOrder.place_limit rfl).1
    rwa [decide_eq_true (by norm_cast; norm_num)] at h
  have hhigh : (Value.frac (2 ^ 53 + 1 / 3) : Datum).Compares "<" (.int (2 ^ 53 + 1)) true := by
    have h := (hplaces _ _ hfrac hint _ _ rfl rfl).1
    rwa [decide_eq_true (by norm_cast; norm_num)] at h
  refine ⟨fun _ h => h, hlow, hhigh, ?_, ?_, ?_, ?_⟩
  · exact htrans _ _ _ hlimit hfrac hint ⟨_, NumberOrder.place_limit⟩ ⟨_, rfl⟩ ⟨_, rfl⟩ hlow hhigh
  · have h := (hplaces (.int (10 ^ 200 * 10 ^ 200)) NumberOrder.infinity
      (by simp [NumberOrder.objects, NumberOrder.members])
      (by simp [NumberOrder.objects, NumberOrder.members]) _ _ rfl NumberOrder.place_infinity).1
    rwa [decide_eq_true (by exact WithBot.coe_lt_coe.mpr (WithTop.coe_lt_top _))] at h
  · have h := (hplaces NumberOrder.negativeZero (.int 0)
      (by simp [NumberOrder.objects, NumberOrder.members])
      (by simp [NumberOrder.objects, NumberOrder.members]) _ _ NumberOrder.place_negativeZero
      rfl).2.1
    rwa [decide_eq_true (by simp)] at h
  · obtain ⟨hless, _, hequal⟩ := hnan (Equality.nan 3) (Equality.nan 4)
      (by simp [NumberOrder.objects, NumberOrder.members])
      (by simp [NumberOrder.objects, NumberOrder.members]) rfl rfl (.inl (NumberOrder.isNaN_nan 3))
    exact ⟨hless, hequal⟩

end MiniLisp
