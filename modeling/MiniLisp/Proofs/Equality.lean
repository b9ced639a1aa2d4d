import Mathlib
import MiniLisp.Proofs.EqualityTest

/-!
# Equality is an equivalence

Equality starts with identity: an object equals itself, and a NaN or a procedure equals nothing
else. Numbers are then compared by value across their three kinds, lists element by element, and
tuples in a looser way in which truth values count as numbers. For values that exist side by side,
where one identity belongs to one value, all of this together is one equivalence.

* `Objects`: values that exist side by side.
* `Value.Equals.trans`: equality is transitive for such values, in both ways of comparing.
* `Value.equals_congr`: copies of values have the same answer, where no NaN, procedure or
  placeholder is inside.
* `Value.Corresponds`, `Value.Equals.corresponds`, `Value.Corresponds.equals`: equality in terms of
  shape and content.
* `equality_is_equivalence`: the laws together.
-/

namespace MiniLisp

/-- Values that exist side by side: along with a value its parts do, and two values that are one
    object are the same value. -/
structure Objects where
  Has : Datum → Prop
  list : ∀ {i xs}, Has (.list i xs) → ∀ x ∈ xs, Has x
  tuple : ∀ {i xs}, Has (.tuple i xs) → ∀ x ∈ xs, Has x
  one : ∀ {v w}, Has v → Has w → v.same w = true → v = w

namespace Value

variable {O : Objects} {r : Regard} {b : Nat} {u v w : Datum} {i j : ObjectId} {xs ys : List Datum}

/-! ## Transitivity -/

/-- Between two elements at the same place of two lists there is one of a third list. -/
theorem exists_mem_zip_between {α β γ : Type} {as : List α} {bs : List β} {cs : List γ}
    (h : as.length = bs.length) {a : α} {c : γ} (hmem : (a, c) ∈ as.zip cs) :
    ∃ b, (a, b) ∈ as.zip bs ∧ (b, c) ∈ bs.zip cs := by
  obtain ⟨n, hn, heq⟩ := List.mem_iff_getElem.mp hmem
  rw [List.getElem_zip, Prod.mk.injEq] at heq
  obtain ⟨rfl, rfl⟩ := heq
  rw [List.length_zip, Nat.lt_min] at hn
  have hb : n < bs.length := h ▸ hn.1
  have hab : n < (as.zip bs).length := List.length_zip ▸ Nat.lt_min.mpr ⟨hn.1, hb⟩
  have hbc : n < (bs.zip cs).length := List.length_zip ▸ Nat.lt_min.mpr ⟨hb, hn.2⟩
  refine ⟨bs[n], ?_, ?_⟩
  · exact List.mem_iff_getElem.mpr ⟨n, hab, List.getElem_zip⟩
  · exact List.mem_iff_getElem.mpr ⟨n, hbc, List.getElem_zip⟩

theorem Equals.trans (h : Equals r u v) (h' : Equals r v w) (hu : O.Has u) (hv : O.Has v)
    (hw : O.Has w) : Equals r u w := by
  induction h generalizing w with
  | same one => exact O.one hu hv one ▸ h'
  | @numbers r u v m n left right value =>
    cases h' with
    | same one => exact O.one hv hw one ▸ .numbers left right value
    | @numbers _ _ _ n' k left' right' value' =>
      obtain rfl : n = n' := Option.some.inj (right.symm.trans left')
      rw [Number.eq_true_iff] at value value'
      exact .numbers left right' (Number.eq_true_iff.mpr ⟨value.1.trans value'.1, value.2⟩)
    | lists | tuples => cases r <;> cases right
  | @lists r i j xs ys length items ih =>
    cases h' with
    | same one => exact O.one hv hw one ▸ .lists length items
    | numbers left' _ _ => cases r <;> cases left'
    | lists length' items' =>
      refine .lists (length.trans length') fun x z hxz => ?_
      obtain ⟨y, hxy, hyz⟩ := exists_mem_zip_between length hxz
      exact ih x y hxy (items' y z hyz) (O.list hu x (List.of_mem_zip hxy).1)
        (O.list hv y (List.of_mem_zip hxy).2) (O.list hw z (List.of_mem_zip hyz).2)
  | @tuples r i j xs ys length items ih =>
    cases h' with
    | same one => exact O.one hv hw one ▸ .tuples length items
    | numbers left' _ _ => cases r <;> cases left'
    | tuples length' items' =>
      refine .tuples (length.trans length') fun x z hxz => ?_
      obtain ⟨y, hxy, hyz⟩ := exists_mem_zip_between length hxz
      exact ih x y hxy (items' y z hyz) (O.tuple hu x (List.of_mem_zip hxy).1)
        (O.tuple hv y (List.of_mem_zip hxy).2) (O.tuple hw z (List.of_mem_zip hyz).2)

/-! ## Identity -/

/-- Values of the same shape and content; the identities of the objects in them may differ. -/
def SameContent (v w : Datum) : Prop :=
  Alike (fun _ _ => True) (fun _ e f e' f' => e = e' ∧ f = f') v w

theorem SameContent.symm (h : SameContent v w) : SameContent w v :=
  (Alike.swap h).mono (fun _ _ h => h) fun _ _ _ _ _ h => ⟨h.1.symm, h.2.symm⟩

/-- Whether a value has an identity that decides what it equals: a NaN, a procedure, or the
    placeholder. -/
def IsPersonal : Datum → Prop
  | float _ x => Binary64.quantity x = .undefined
  | native _ _ _ | closure _ _ _ _ | unassigned => True
  | _ => False

/-- No such value is inside a value. -/
def Impersonal (v : Datum) : Prop := v.Each fun u => ¬ u.IsPersonal

theorem Impersonal.of_list (h : Impersonal (.list i xs)) : ∀ x ∈ xs, Impersonal x :=
  eachOf_iff.mp h.2

theorem Impersonal.of_tuple (h : Impersonal (.tuple i xs)) : ∀ x ∈ xs, Impersonal x :=
  eachOf_iff.mp h.2

theorem SameContent.impersonal (h : SameContent v w) (hv : v.Impersonal) : w.Impersonal := by
  induction h with
  | atom | float | native | closure => exact hv
  | list _ length _ ih =>
    refine ⟨not_false, eachOf_iff.mpr fun y hy => ?_⟩
    obtain ⟨x, hxy⟩ := exists_mem_zip length hy
    exact ih x y hxy (hv.of_list x (List.of_mem_zip hxy).1)
  | tuple _ length _ ih =>
    refine ⟨not_false, eachOf_iff.mpr fun y hy => ?_⟩
    obtain ⟨x, hxy⟩ := exists_mem_zip length hy
    exact ih x y hxy (hv.of_tuple x (List.of_mem_zip hxy).1)

/-- Copies of a value are equal, if no identity inside it matters. -/
theorem SameContent.equals (hv : v.Impersonal) (h : SameContent u v) (h' : SameContent v w)
    (r : Regard) : Equals r u w := by
  induction v using Value.inductionOn generalizing r u w with
  | atom v ha =>
    cases h with
    | atom _ =>
      cases h' with
      | atom _ => exact .same (same_self v)
      | _ => cases ha
    | _ => cases ha
  | float i x =>
    have hdefined : Binary64.quantity x ≠ .undefined := hv
    cases h with
    | atom ha => cases ha
    | float =>
      cases h' with
      | atom ha => cases ha
      | float =>
        have hself : (Number.float x).eq (.float x) = true := Number.eq_true_iff.mpr ⟨rfl, hdefined⟩
        cases r with
        | strict => exact .numbers rfl rfl hself
        | loose => exact .numbers rfl rfl hself
  | list i xs ih =>
    cases h with
    | atom ha => cases ha
    | list _ length items =>
      cases h' with
      | atom ha => cases ha
      | list _ length' items' =>
        refine .lists (length.trans length') fun y z hyz => ?_
        obtain ⟨x, hyx, hxz⟩ := exists_mem_zip_between length hyz
        have hx := (List.of_mem_zip hyx).2
        exact ih x hx (hv.of_list x hx) (items y x hyx) (items' x z hxz) r
  | tuple i xs ih =>
    cases h with
    | atom ha => cases ha
    | tuple _ length items =>
      cases h' with
      | atom ha => cases ha
      | tuple _ length' items' =>
        refine .tuples (length.trans length') fun y z hyz => ?_
        obtain ⟨x, hyx, hxz⟩ := exists_mem_zip_between length hyz
        have hx := (List.of_mem_zip hyx).2
        exact ih x hx (hv.of_tuple x hx) (items y x hyx) (items' x z hxz) .loose
  | native i name action => exact absurd trivial hv
  | closure i param body f => exact absurd trivial hv

theorem SameContent.number?_eq (h : SameContent v w) (r : Regard) : r.number? v = r.number? w := by
  cases r with
  | strict => exact Alike.number?_eq h
  | loose => exact Alike.countsAs?_eq h

/-- Copies of equal values are equal, if no identity inside them matters. -/
theorem Equals.of_sameContent {v' w' : Datum} (h : Equals r v w) (hv : O.Has v) (hw : O.Has w)
    (himp : v.Impersonal) (hv' : SameContent v' v) (hw' : SameContent w w') :
    Equals r v' w' := by
  induction h generalizing v' w' with
  | same one =>
    obtain rfl := O.one hv hw one
    exact hv'.equals himp hw' _
  | @numbers r v w m n left right value =>
    exact .numbers ((hv'.number?_eq r).trans left) ((hw'.number?_eq r).symm.trans right) value
  | lists length items ih =>
    cases hv' with
    | atom ha => cases ha
    | list _ length₁ items₁ =>
      cases hw' with
      | atom ha => cases ha
      | list _ length₂ items₂ =>
        refine .lists (length₁.trans (length.trans length₂)) fun x' y' hxy' => ?_
        obtain ⟨x, hx', hxy⟩ := exists_mem_zip_between length₁ hxy'
        obtain ⟨y, hxy, hy'⟩ := exists_mem_zip_between length hxy
        obtain ⟨hx, hy⟩ := List.of_mem_zip hxy
        exact ih x y hxy (O.list hv x hx) (O.list hw y hy) (himp.of_list x hx) (items₁ x' x hx')
          (items₂ y y' hy')
  | tuples length items ih =>
    cases hv' with
    | atom ha => cases ha
    | tuple _ length₁ items₁ =>
      cases hw' with
      | atom ha => cases ha
      | tuple _ length₂ items₂ =>
        refine .tuples (length₁.trans (length.trans length₂)) fun x' y' hxy' => ?_
        obtain ⟨x, hx', hxy⟩ := exists_mem_zip_between length₁ hxy'
        obtain ⟨y, hxy, hy'⟩ := exists_mem_zip_between length hxy
        obtain ⟨hx, hy⟩ := List.of_mem_zip hxy
        exact ih x y hxy (O.tuple hv x hx) (O.tuple hw y hy) (himp.of_tuple x hx) (items₁ x' x hx')
          (items₂ y y' hy')

/-- Whether two values are equal does not depend on which copies of them are compared. -/
theorem equals_congr {O' : Objects} {v' w' : Datum} (himp : v.Impersonal) (hv : O.Has v)
    (hw : O.Has w) (hv' : O'.Has v') (hw' : O'.Has w') (hvv' : SameContent v v')
    (hww' : SameContent w w') : Equals r v w ↔ Equals r v' w' :=
  ⟨fun h => h.of_sameContent hv hw himp hvv'.symm hww',
    fun h => h.of_sameContent hv' hw' (hvv'.impersonal himp) hvv' hww'.symm⟩

/-! ## Content -/

/-- No tuple is inside a value. -/
def TupleFree (v : Datum) : Prop := v.Each fun u => ∀ i xs, u ≠ .tuple i xs

theorem TupleFree.of_list (h : TupleFree (.list i xs)) : ∀ x ∈ xs, TupleFree x := eachOf_iff.mp h.2

/-- Lists of one shape, with numbers of equal value or other leaves of one kind and content at
    the same places. -/
inductive Corresponds : Datum → Datum → Prop
  | numbers {v w : Datum} {m n : Number} (left : v.number? = some m) (right : w.number? = some n)
      (value : m.quantity = n.quantity) : Corresponds v w
  | text {s : String} : Corresponds (.text s) (.text s)
  | bool {t : Bool} : Corresponds (.bool t) (.bool t)
  | symbol {x : String} : Corresponds (.symbol x) (.symbol x)
  | null : Corresponds .null .null
  | unit : Corresponds .unit .unit
  | lists {i j : ObjectId} {xs ys : List Datum} (length : xs.length = ys.length)
      (items : ∀ x y, (x, y) ∈ xs.zip ys → Corresponds x y) :
      Corresponds (.list i xs) (.list j ys)

theorem Corresponds.refl (himp : v.Impersonal) (hfree : v.TupleFree) : Corresponds v v := by
  induction v using Value.inductionOn with
  | atom v ha =>
    cases v with
    | int n => exact .numbers rfl rfl rfl
    | frac q => exact .numbers rfl rfl rfl
    | text s => exact .text
    | bool t => exact .bool
    | symbol x => exact .symbol
    | null => exact .null
    | unit => exact .unit
    | unassigned => exact absurd trivial himp
    | _ => cases ha
  | float i x => exact .numbers rfl rfl rfl
  | list i xs ih =>
    refine .lists rfl fun x y hxy => ?_
    obtain rfl := List.forall₂_zip (List.forall₂_same.mpr fun _ _ => rfl) hxy
    have hx := (List.of_mem_zip hxy).1
    exact ih x hx (himp.of_list x hx) (hfree.of_list x hx)
  | tuple i xs _ => exact absurd rfl (hfree.self i xs)
  | native i name action => exact absurd trivial himp
  | closure i param body f => exact absurd trivial himp

theorem Equals.corresponds (h : Equals r v w) (hr : r = .strict) (hv : O.Has v) (hw : O.Has w)
    (himp : v.Impersonal) (hfree : v.TupleFree) : Corresponds v w := by
  induction h with
  | same one => exact O.one hv hw one ▸ .refl himp hfree
  | numbers left right value =>
    subst hr
    exact .numbers left right (Number.eq_true_iff.mp value).1
  | lists length items ih =>
    refine .lists length fun x y hxy => ?_
    obtain ⟨hx, hy⟩ := List.of_mem_zip hxy
    exact ih x y hxy hr (O.list hv x hx) (O.list hw y hy) (himp.of_list x hx) (hfree.of_list x hx)
  | tuples => exact absurd rfl (hfree.self _ _)

theorem Corresponds.equals (h : Corresponds v w) (himp : v.Impersonal) : Equals .strict v w := by
  induction h with
  | @numbers v w m n left right value =>
    have hdefined : m.quantity ≠ .undefined := by
      cases v with
      | int | frac => cases left; exact nofun
      | float i x => cases left; exact himp
      | _ => cases left
    exact .numbers left right (Number.eq_true_iff.mpr ⟨value, hdefined⟩)
  | text | bool | symbol | null | unit => exact .same (same_self _)
  | lists length items ih =>
    exact .lists length fun x y hxy => ih x y hxy (himp.of_list x (List.of_mem_zip hxy).1)

/-! ## Places in lists -/

/-- The value at a place in nested lists. -/
def at? : List Nat → Datum → Option Datum
  | [], v => some v
  | n :: path, .list _ xs => xs[n]?.bind (at? path)
  | _ :: _, _ => none

theorem exists_list_of_at? {n : Nat} {path : List Nat} {x : Datum}
    (h : at? (n :: path) v = some x) :
    ∃ i xs y, v = .list i xs ∧ xs[n]? = some y ∧ at? path y = some x := by
  cases v with
  | list i xs =>
    obtain ⟨y, hy, hx⟩ := Option.bind_eq_some_iff.mp h
    exact ⟨i, xs, y, rfl, hy, hx⟩
  | _ => cases h

/-- Equal values have equal values at the same places. -/
theorem Equals.at? {path : List Nat} {x y : Datum} (h : Equals r v w) (hv : O.Has v)
    (hw : O.Has w) (hx : at? path v = some x) (hy : at? path w = some y) : Equals r x y := by
  induction path generalizing v w with
  | nil =>
    cases hx
    cases hy
    exact h
  | cons n path ih =>
    obtain ⟨i, xs, x', rfl, hx', hx⟩ := exists_list_of_at? hx
    obtain ⟨j, ys, y', rfl, hy', hy⟩ := exists_list_of_at? hy
    have hitem : Equals r x' y' := by
      cases h with
      | same one =>
        obtain ⟨rfl, rfl⟩ := Value.list.inj (O.one hv hw one)
        cases hx'.symm.trans hy'
        exact .same (same_self x')
      | numbers left _ _ => cases r <;> cases left
      | lists length items =>
        refine items x' y' (List.mem_iff_getElem?.mpr ⟨n, ?_⟩)
        rw [List.getElem?_zip_eq_some]
        exact ⟨hx', hy'⟩
    have hv' := O.list hv x' (List.mem_of_getElem? hx')
    have hw' := O.list hw y' (List.mem_of_getElem? hy')
    exact ih hitem hv' hw' hx hy

theorem Equals.not_number_of_bool {t : Bool} (h : Equals .strict (.bool t) w) :
    w.isNumber = false := by
  cases h with
  | same one => cases w <;> first | rfl | cases one
  | numbers left _ _ => cases left

end Value

/-! ## Answers -/

namespace Value

variable {v w : Datum}

/-- The answer to whether two values are equal, under every budget that is large enough. -/
def Verdict (v w : Datum) (t : Bool) : Prop := Eventually fun b => v.equal b w = .ok t

theorem verdict_iff {t : Bool} : Verdict v w t ↔ (t = true ↔ Equals .strict v w) := by
  constructor
  · intro h
    obtain ⟨b, _, hb⟩ := h.exists_ge 0
    exact equals_iff_of_test (r := .strict) hb
  · intro h
    refine (settles .strict v w).mono ?_
    rintro b ⟨t', ht'⟩
    rw [Bool.eq_iff_iff.mpr (h.trans (equals_iff_of_test ht').symm)]
    exact ht'

end Value

/-- Equality is an equivalence of values that exist side by side, and identity matters only where
    it has to.

    Every comparison is answered if the budget is large enough, an answer under any budget is the
    answer, and it is the same in the other direction. A value equals itself, and equality is
    transitive. Where no NaN, procedure or placeholder is inside, copies of the values have the
    same answer; and where no tuple is inside either, the values are equal exactly if they
    correspond: lists of one shape with numbers of equal value, or leaves of one kind and content,
    at the same places. A truth value never stands at the place of a number. -/
theorem equality_is_equivalence (O : Objects) :
    (∀ v w : Datum, (∃! t, v.Verdict w t) ∧ (∀ b t, v.equal b w = .ok t → v.Verdict w t) ∧
      ∀ b, v.equal b w = w.equal b v) ∧
    (∀ (v : Datum) (b : Nat), v.equal (b + 1) v = .ok true) ∧
    (∀ u v w, O.Has u → O.Has v → O.Has w → u.Verdict v true → v.Verdict w true →
      u.Verdict w true) ∧
    (∀ v w, O.Has v → O.Has w → v.Impersonal → w.Impersonal →
      (∀ (O' : Objects) v' w', O'.Has v' → O'.Has w' → v.SameContent v' → w.SameContent w' →
        ∀ t, v.Verdict w t ↔ v'.Verdict w' t) ∧
      (v.TupleFree → w.TupleFree → (v.Verdict w true ↔ v.Corresponds w))) ∧
    ∀ v w path t x, O.Has v → O.Has w → v.Verdict w true → v.at? path = some (.bool t) →
      w.at? path = some x → x.isNumber = false := by
  classical
  simp only [Value.verdict_iff, true_iff]
  refine ⟨fun v w => ⟨?_, ?_, ?_⟩, ?_, ?_, ?_, ?_⟩
  · refine ⟨decide (Value.Equals .strict v w), decide_eq_true_iff, fun t ht => ?_⟩
    have ht : t = true ↔ Value.Equals .strict v w := ht
    rw [Bool.eq_iff_iff, ht, decide_eq_true_iff]
  · exact fun b t h => Value.equals_iff_of_test (r := .strict) h
  · exact fun b => Value.test_comm .strict b v w
  · exact fun v b => Value.test_of_same (r := .strict) (Value.same_self v)
  · exact fun u v w hu hv hw h h' => h.trans h' hu hv hw
  · intro v w hv hw himp _
    refine ⟨fun O' v' w' hv' hw' hvv' hww' t => ?_, fun hfree _ => ⟨?_, ?_⟩⟩
    · rw [Value.equals_congr himp hv hw hv' hw' hvv' hww']
    · exact fun h => h.corresponds rfl hv hw himp hfree
    · exact fun h => h.equals himp
  · intro v w path t x hv hw h hx hy
    exact (h.at? hv hw hx hy).not_number_of_bool

namespace Equality

/-- A NaN, as an object of its own. -/
def nan (i : ObjectId) : Datum := .float i (Float.ofBits 0x7ff8000000000000)

/-- The float one. -/
def one : Datum := .float 2 (Float.ofBits 0x3ff0000000000000)

/-- Values that exist side by side: two NaNs, and lists and tuples of them and of truth values and
    ones. -/
def members : List Datum :=
  [.bool true, .int 1, one, nan 0, nan 1, .list 3 [nan 0, .bool true], .list 4 [nan 0, .bool true],
    .list 5 [nan 1, .bool true], .list 6 [nan 0, .int 1], .tuple 7 [.bool true], .tuple 8 [.int 1],
    .tuple 9 [one]]

/-- They are closed under parts, and no identity belongs to two of them. -/
def objects : Objects where
  Has v := v ∈ members
  list {i xs} h := by
    simp only [members, nan, one, List.mem_cons, List.not_mem_nil, or_false, reduceCtorEq, false_or,
      Value.list.injEq] at h
    rcases h with ⟨rfl, rfl⟩ | ⟨rfl, rfl⟩ | ⟨rfl, rfl⟩ | ⟨rfl, rfl⟩ <;> simp [members, nan]
  tuple {i xs} h := by
    simp only [members, nan, one, List.mem_cons, List.not_mem_nil, or_false, reduceCtorEq, false_or,
      Value.tuple.injEq] at h
    rcases h with ⟨rfl, rfl⟩ | ⟨rfl, rfl⟩ | ⟨rfl, rfl⟩ <;> simp [members, one]
  one {v w} hv hw h := by
    simp only [members, List.mem_cons, List.not_mem_nil, or_false] at hv hw
    rcases hv with rfl | rfl | rfl | rfl | rfl | rfl | rfl | rfl | rfl | rfl | rfl | rfl <;>
      rcases hw with rfl | rfl | rfl | rfl | rfl | rfl | rfl | rfl | rfl | rfl | rfl | rfl <;>
      first | rfl | cases h

end Equality

/-- A NaN in two lists is one object and equal, and two NaNs are not; a truth value and a number
    differ in lists. In tuples they are equal, and so are the tuples of a truth value, an integer
    and a float, each two of them. -/
theorem equality_is_equivalence_nan :
    (∀ v ∈ Equality.members, Equality.objects.Has v) ∧
    (Value.list 3 [Equality.nan 0, .bool true]).Verdict
      (.list 4 [Equality.nan 0, .bool true]) true ∧
    (Value.list 3 [Equality.nan 0, .bool true]).Verdict
      (.list 5 [Equality.nan 1, .bool true]) false ∧
    (Value.list 3 [Equality.nan 0, .bool true]).Verdict (.list 6 [Equality.nan 0, .int 1]) false ∧
    (Value.tuple 7 [.bool true] : Datum).Verdict (.tuple 8 [.int 1]) true ∧
    (Value.tuple 8 [.int 1] : Datum).Verdict (.tuple 9 [Equality.one]) true ∧
    (Value.tuple 7 [.bool true] : Datum).Verdict (.tuple 9 [Equality.one]) true := by
  obtain ⟨hanswer, _, htrans, _⟩ := equality_is_equivalence Equality.objects
  have h78 : (Value.tuple 7 [.bool true] : Datum).Verdict (.tuple 8 [.int 1]) true :=
    (hanswer _ _).2.1 3 true rfl
  have h89 : (Value.tuple 8 [.int 1] : Datum).Verdict (.tuple 9 [Equality.one]) true :=
    (hanswer _ _).2.1 3 true (by decide +kernel)
  refine ⟨fun _ h => h, (hanswer _ _).2.1 2 true rfl, (hanswer _ _).2.1 2 false (by decide +kernel),
    (hanswer _ _).2.1 2 false rfl, h78, h89, ?_⟩
  refine htrans _ _ _ ?_ ?_ ?_ h78 h89 <;> simp [Equality.objects, Equality.members]

end MiniLisp
