import MiniLisp.Proofs.Texts

/-!
# What comparisons decide

Values are compared in two ways: `Value.equal` is the equality of programs, and `Value.agree` the
looser one of what stands inside tuples. Both run under a stack budget. Here they are two cases of
one test, and what this test decides under a budget that is large enough is a relation by itself,
which no budget occurs in.

* `Value.Regard`, `Value.Regard.test`: the two ways to compare, and the test.
* `Value.Meets`, `Value.meets`: what one level of the test comes to.
* `Value.Equals`: the relation.
* `Value.equals_iff_of_test`, `Value.Equals.eventually`, `Value.settles`: an answer under any budget
  is right, and there is one under every budget that is large enough.
* `Value.test_comm`: the test is the same in both directions, under every budget.
-/

namespace MiniLisp

/-! ## Numbers -/

theorem Quantity.eq_true_iff {a b : Quantity} : a.eq b = true ↔ a = b ∧ a ≠ .undefined := by
  cases a <;> cases b <;> simp [Quantity.eq]

theorem Number.eq_true_iff {m n : Number} :
    m.eq n = true ↔ m.quantity = n.quantity ∧ m.quantity ≠ .undefined :=
  Quantity.eq_true_iff

theorem Number.eq_comm (m n : Number) : m.eq n = n.eq m := by
  rw [Bool.eq_iff_iff, Number.eq_true_iff, Number.eq_true_iff]
  constructor
  · rintro ⟨heq, hdefined⟩
    exact ⟨heq.symm, heq ▸ hdefined⟩
  · rintro ⟨heq, hdefined⟩
    exact ⟨heq.symm, heq ▸ hdefined⟩

namespace Value

/-! ## The test -/

/-- The two ways in which values are compared: as programs do, and as elements of tuples. -/
inductive Regard where
  | strict
  | loose

namespace Regard

/-- The number that a value is compared as. -/
def number? : Regard → Datum → Option Number
  | strict, v => v.number?
  | loose, v => v.countsAs?

/-- The comparison of two values under a stack budget. -/
def test : Regard → Nat → Datum → Datum → Outcome Bool
  | strict, b, v, w => v.equal b w
  | loose, b, v, w => v.agree b w

end Regard

variable {r : Regard} {b : Nat} {v w : Datum} {i j : ObjectId} {xs ys : List Datum}

/-! ## Pairs of elements -/

theorem allPairs_true_iff {test : Datum → Datum → Outcome Bool} :
    allPairs test xs ys = .ok true ↔ ∀ x y, (x, y) ∈ xs.zip ys → test x y = .ok true := by
  induction xs generalizing ys with
  | nil => simp [allPairs, pure, Except.pure]
  | cons x xs ih =>
    cases ys with
    | nil => simp [allPairs, pure, Except.pure]
    | cons y ys =>
      rw [allPairs, Outcome.bind_ok_iff]
      simp only [List.zip_cons_cons, List.mem_cons, Prod.mk.injEq]
      constructor
      · rintro ⟨t, hxy, hrest⟩ x' y' (⟨rfl, rfl⟩ | hmem)
        · cases t with
          | true => exact hxy
          | false => cases hrest
        · cases t with
          | true => exact ih.mp hrest x' y' hmem
          | false => cases hrest
      · intro h
        exact ⟨true, h x y (.inl ⟨rfl, rfl⟩), ih.mpr fun x' y' hmem => h x' y' (.inr hmem)⟩

theorem allPairs_ok {test : Datum → Datum → Outcome Bool}
    (h : ∀ x y, (x, y) ∈ xs.zip ys → ∃ t, test x y = .ok t) :
    ∃ t, allPairs test xs ys = .ok t := by
  induction xs generalizing ys with
  | nil => exact ⟨true, rfl⟩
  | cons x xs ih =>
    cases ys with
    | nil => exact ⟨true, rfl⟩
    | cons y ys =>
      obtain ⟨t, ht⟩ := h x y (List.mem_cons_self ..)
      rw [allPairs, ht]
      cases t with
      | true => exact ih fun x' y' hmem => h x' y' (List.mem_cons_of_mem _ hmem)
      | false => exact ⟨false, rfl⟩

theorem allPairs_comm {test : Datum → Datum → Outcome Bool} (h : ∀ x y, test x y = test y x) :
    allPairs test xs ys = allPairs test ys xs := by
  induction xs generalizing ys with
  | nil => cases ys <;> rfl
  | cons x xs ih =>
    cases ys with
    | nil => rfl
    | cons y ys => rw [allPairs, allPairs, h x y, ih]

/-! ## One level -/

theorem test_of_same (h : v.same w = true) : r.test (b + 1) v w = .ok true := by
  cases r with
  | strict => exact if_pos h
  | loose => exact if_pos h

theorem test_of_numbers {m n : Number} (htwo : v.same w = false) (hv : r.number? v = some m)
    (hw : r.number? w = some n) : r.test (b + 1) v w = .ok (m.eq n) := by
  cases r with
  | strict =>
    have hv : v.number? = some m := hv
    have hw : w.number? = some n := hw
    simp only [Regard.test, equal, htwo, hv, hw]
    rfl
  | loose =>
    have hv : v.countsAs? = some m := hv
    have hw : w.countsAs? = some n := hw
    simp only [Regard.test, agree, htwo, hv, hw]
    rfl

theorem test_lists (htwo : (Value.list i xs : Datum).same (.list j ys) = false) :
    r.test (b + 1) (.list i xs) (.list j ys) =
      if xs.length = ys.length then allPairs (r.test b) xs ys else .ok false := by
  cases r with
  | strict =>
    simp only [Regard.test, equal, htwo]
    rfl
  | loose =>
    simp only [Regard.test, agree, htwo]
    rfl

theorem agree_tuples (htwo : (Value.tuple i xs : Datum).same (.tuple j ys) = false) :
    Regard.loose.test (b + 1) (.tuple i xs) (.tuple j ys) = (do
      if ← allPairs (Regard.loose.test b) xs ys then pure (xs.length == ys.length)
      else pure false) := by
  simp only [Regard.test, agree, htwo]
  rfl

theorem equal_tuples (htwo : (Value.tuple i xs : Datum).same (.tuple j ys) = false) :
    Regard.strict.test (b + 1) (.tuple i xs) (.tuple j ys) =
      Regard.loose.test b (.tuple i xs) (.tuple j ys) := by
  simp only [Regard.test, equal, htwo]
  rfl

theorem test_of_unlike (htwo : v.same w = false)
    (hnumbers : r.number? v = none ∨ r.number? w = none)
    (hlists : ∀ i xs j ys, ¬ (v = .list i xs ∧ w = .list j ys))
    (htuples : ∀ i xs j ys, ¬ (v = .tuple i xs ∧ w = .tuple j ys)) (b : Nat) :
    r.test (b + 1) v w = .ok false := by
  cases r with
  | strict =>
    simp only [Regard.test, equal, htwo, Bool.false_eq_true, if_false]
    split
    · next hv hw => exact absurd hnumbers (by simp [Regard.number?, hv, hw])
    · split
      · exact absurd ⟨rfl, rfl⟩ (hlists _ _ _ _)
      · exact absurd ⟨rfl, rfl⟩ (htuples _ _ _ _)
      · rfl
  | loose =>
    simp only [Regard.test, agree, htwo, Bool.false_eq_true, if_false]
    split
    · next hv hw => exact absurd hnumbers (by simp [Regard.number?, hv, hw])
    · split
      · exact absurd ⟨rfl, rfl⟩ (hlists _ _ _ _)
      · exact absurd ⟨rfl, rfl⟩ (htuples _ _ _ _)
      · rfl

/-- What two values are to a comparison. -/
inductive Meets (r : Regard) (v w : Datum) : Prop
  | same (one : v.same w = true)
  | numbers {m n : Number} (two : v.same w = false) (left : r.number? v = some m)
      (right : r.number? w = some n)
  | lists {i j : ObjectId} {xs ys : List Datum} (two : v.same w = false) (left : v = .list i xs)
      (right : w = .list j ys)
  | tuples {i j : ObjectId} {xs ys : List Datum} (two : v.same w = false) (left : v = .tuple i xs)
      (right : w = .tuple j ys)
  | unlike (differ : ∀ b, r.test (b + 1) v w = .ok false)
      (converse : ∀ b, r.test (b + 1) w v = .ok false)

theorem meets (r : Regard) (v w : Datum) : Meets r v w := by
  cases two : v.same w with
  | true => exact .same two
  | false =>
    by_cases hlists : ∃ i xs j ys, v = .list i xs ∧ w = .list j ys
    · obtain ⟨i, xs, j, ys, left, right⟩ := hlists
      exact .lists two left right
    by_cases htuples : ∃ i xs j ys, v = .tuple i xs ∧ w = .tuple j ys
    · obtain ⟨i, xs, j, ys, left, right⟩ := htuples
      exact .tuples two left right
    have hunlike : (r.number? v = none ∨ r.number? w = none) → Meets r v w := by
      intro hnumbers
      refine .unlike (test_of_unlike two hnumbers ?_ ?_)
        (test_of_unlike (same_comm v w ▸ two) hnumbers.symm ?_ ?_)
      · exact fun i xs j ys h => hlists ⟨i, xs, j, ys, h⟩
      · exact fun i xs j ys h => htuples ⟨i, xs, j, ys, h⟩
      · exact fun i xs j ys h => hlists ⟨j, ys, i, xs, h.symm⟩
      · exact fun i xs j ys h => htuples ⟨j, ys, i, xs, h.symm⟩
    cases left : r.number? v with
    | none => exact hunlike (.inl left)
    | some m =>
      cases right : r.number? w with
      | none => exact hunlike (.inr right)
      | some n => exact .numbers two left right

/-! ## The relation -/

/-- Two values are equal in the given way, whatever budget it takes to find out. -/
inductive Equals : Regard → Datum → Datum → Prop
  | same {r : Regard} {v w : Datum} (one : v.same w = true) : Equals r v w
  | numbers {r : Regard} {v w : Datum} {m n : Number} (left : r.number? v = some m)
      (right : r.number? w = some n) (value : m.eq n = true) : Equals r v w
  | lists {r : Regard} {i j : ObjectId} {xs ys : List Datum} (length : xs.length = ys.length)
      (items : ∀ x y, (x, y) ∈ xs.zip ys → Equals r x y) : Equals r (.list i xs) (.list j ys)
  | tuples {r : Regard} {i j : ObjectId} {xs ys : List Datum} (length : xs.length = ys.length)
      (items : ∀ x y, (x, y) ∈ xs.zip ys → Equals .loose x y) :
      Equals r (.tuple i xs) (.tuple j ys)

/-- Tuples are compared in the same way wherever they stand. -/
theorem Equals.tuples_regard (h : Equals r (.tuple i xs) (.tuple j ys)) (r' : Regard) :
    Equals r' (.tuple i xs) (.tuple j ys) := by
  cases h with
  | same one => exact .same one
  | numbers left _ _ => cases r <;> cases left
  | tuples length items => exact .tuples length items

theorem agree_tuples_true (htwo : (Value.tuple i xs : Datum).same (.tuple j ys) = false) :
    Regard.loose.test (b + 1) (.tuple i xs) (.tuple j ys) = .ok true ↔
      xs.length = ys.length ∧
        ∀ x y, (x, y) ∈ xs.zip ys → Regard.loose.test b x y = .ok true := by
  rw [agree_tuples htwo, Outcome.bind_ok_iff, ← allPairs_true_iff]
  constructor
  · rintro ⟨t, hpairs, ht⟩
    cases t with
    | false => cases ht
    | true => exact ⟨by simpa [pure, Except.pure] using ht, hpairs⟩
  · rintro ⟨hlength, hpairs⟩
    exact ⟨true, hpairs, by simp [hlength, pure, Except.pure]⟩

/-! ## Right answers -/

/-- An answer that two values are equal is right. -/
theorem equals_of_test (h : r.test b v w = .ok true) : Equals r v w := by
  induction b generalizing r v w with
  | zero => cases r <;> cases h
  | succ b ih =>
    cases meets r v w with
    | same one => exact .same one
    | numbers two left right =>
      rw [test_of_numbers two left right, Except.ok.injEq] at h
      exact .numbers left right h
    | lists two left right =>
      subst left right
      rw [test_lists two] at h
      split_ifs at h with length
      · exact .lists length fun x y hxy => ih (allPairs_true_iff.mp h x y hxy)
      · cases h
    | tuples two left right =>
      subst left right
      cases r with
      | strict =>
        -- tuples are handed on to the loose comparison, which starts with them again
        rw [equal_tuples two] at h
        exact (ih h).tuples_regard _
      | loose =>
        obtain ⟨length, items⟩ := (agree_tuples_true two).mp h
        exact .tuples length fun x y hxy => ih (items x y hxy)
    | unlike differ _ =>
      rw [differ b] at h
      cases h

/-- What is equal is found to be so, if the budget is large enough. -/
theorem Equals.eventually (h : Equals r v w) : Eventually fun b => r.test b v w = .ok true := by
  have hitems : ∀ {r : Regard} {xs ys : List Datum},
      (∀ x y, (x, y) ∈ xs.zip ys → Eventually fun b => r.test b x y = .ok true) →
      Eventually fun b => ∀ x y, (x, y) ∈ xs.zip ys → r.test b x y = .ok true := by
    intro r xs ys h
    exact (Eventually.all fun p hp => h p.1 p.2 hp).mono fun b hb x y hxy => hb (x, y) hxy
  induction h with
  | same one => exact settles_of_succ fun b => test_of_same one
  | @numbers r v w m n left right value =>
    refine settles_of_succ fun b => ?_
    cases two : v.same w with
    | true => exact test_of_same two
    | false => rw [test_of_numbers two left right, value]
  | @lists r i j xs ys length _ ih =>
    refine (hitems ih).succ fun b hb => ?_
    cases two : (Value.list i xs : Datum).same (.list j ys) with
    | true => exact test_of_same two
    | false => rw [test_lists two, if_pos length, allPairs_true_iff.mpr hb]
  | @tuples r i j xs ys length _ ih =>
    cases two : (Value.tuple i xs : Datum).same (.tuple j ys) with
    | true => exact settles_of_succ fun b => test_of_same two
    | false =>
      have hloose : Eventually fun b =>
          Regard.loose.test b (.tuple i xs) (.tuple j ys) = .ok true :=
        (hitems ih).succ fun b hb => (agree_tuples_true two).mpr ⟨length, hb⟩
      cases r with
      | strict => exact hloose.succ fun b hb => (equal_tuples two).trans hb
      | loose => exact hloose

/-! ## Answers under large budgets -/

/-- The comparison of two values is answered, if the budget is large enough. -/
def Settles (r : Regard) (v w : Datum) : Prop := Eventually fun b => ∃ t, r.test b v w = .ok t

theorem settles_pairs (h : ∀ x ∈ xs, ∀ w, Settles r x w) (ys : List Datum) :
    Eventually fun b => ∃ t, allPairs (r.test b) xs ys = .ok t := by
  have hpairs : ∀ p ∈ xs.zip ys, Settles r p.1 p.2 := fun p hp => h p.1 (List.of_mem_zip hp).1 p.2
  exact (Eventually.all hpairs).mono fun b hb => allPairs_ok fun x y hxy => hb (x, y) hxy

theorem settles_tuples (two : (Value.tuple i xs : Datum).same (.tuple j ys) = false)
    (h : ∀ x ∈ xs, ∀ w, Settles .loose x w) (r : Regard) :
    Settles r (.tuple i xs) (.tuple j ys) := by
  have hloose : Settles .loose (.tuple i xs) (.tuple j ys) := by
    refine (settles_pairs h ys).succ ?_
    rintro b ⟨t, ht⟩
    rw [agree_tuples two, ht]
    cases t with
    | true => exact ⟨_, rfl⟩
    | false => exact ⟨_, rfl⟩
  cases r with
  | strict => exact hloose.succ fun b hb => by rwa [equal_tuples two]
  | loose => exact hloose

/-- To compare a value it is enough that its parts can be compared. -/
theorem settles_of_parts
    (h : ∀ i xs, v = .list i xs ∨ v = .tuple i xs → ∀ x ∈ xs, ∀ r w, Settles r x w)
    (r : Regard) (w : Datum) : Settles r v w := by
  cases meets r v w with
  | same one => exact settles_of_succ fun b => ⟨true, test_of_same one⟩
  | numbers two left right => exact settles_of_succ fun b => ⟨_, test_of_numbers two left right⟩
  | @lists i j xs ys two left right =>
    subst left right
    have hparts := fun x hx => h i xs (.inl rfl) x hx r
    refine (settles_pairs hparts ys).succ fun b hb => ?_
    rw [test_lists two]
    split_ifs
    · exact hb
    · exact ⟨false, rfl⟩
  | @tuples i j xs ys two left right =>
    subst left right
    exact settles_tuples two (fun x hx => h i xs (.inr rfl) x hx .loose) r
  | unlike differ _ => exact settles_of_succ fun b => ⟨false, differ b⟩

theorem settles (r : Regard) (v w : Datum) : Settles r v w := by
  induction v using Value.inductionOn generalizing r w with
  | list i xs ih | tuple i xs ih =>
    refine settles_of_parts ?_ r w
    rintro _ _ (h | h) <;> cases h
    exact fun x hx r w => ih x hx r w
  | atom v ha =>
    refine settles_of_parts ?_ r w
    rintro _ _ (rfl | rfl) <;> cases ha
  | float | native | closure =>
    refine settles_of_parts ?_ r w
    rintro _ _ (h | h) <;> cases h

/-- An answer is kept under every larger budget. -/
theorem test_mono {t : Bool} {b' : Nat} (h : r.test b v w = .ok t) (hb : b ≤ b') :
    r.test b' v w = .ok t := by
  have hwithin : Stop.Within (fun _ => True) b b' := .inr ⟨trivial, hb⟩
  have hfollows : Outcome.Follows (fun _ => True) Eq (r.test b v w) (r.test b' v w) := by
    cases r with
    | strict => exact v.alike_self.equal oneToOne_eq w.alike_self hwithin
    | loose => exact v.alike_self.agree oneToOne_eq w.alike_self hwithin
  rcases hfollows with ⟨s, hs, _⟩ | heq
  · rw [h] at hs
    cases hs
  · rw [← Outcome.rel_eq_iff.mp heq, h]

/-- An answer is right, whatever the budget it was found under. -/
theorem equals_iff_of_test {t : Bool} (h : r.test b v w = .ok t) : t = true ↔ Equals r v w := by
  constructor
  · rintro rfl
    exact equals_of_test h
  · intro hequals
    obtain ⟨b', hb, htrue⟩ := hequals.eventually.exists_ge b
    rw [test_mono h hb, Except.ok.injEq] at htrue
    exact htrue

/-! ## Symmetry -/

/-- Which of two values comes first makes no difference, also to the budget that it takes. -/
theorem test_comm (r : Regard) (b : Nat) (v w : Datum) : r.test b v w = r.test b w v := by
  induction b generalizing r v w with
  | zero => cases r <;> rfl
  | succ b ih =>
    have hcomm := same_comm v w
    cases meets r v w with
    | same one => rw [test_of_same one, test_of_same (hcomm ▸ one)]
    | numbers two left right =>
      rw [test_of_numbers two left right, test_of_numbers (hcomm ▸ two) right left, Number.eq_comm]
    | lists two left right =>
      subst left right
      rw [test_lists two, test_lists (hcomm ▸ two), allPairs_comm (ih r)]
      simp only [eq_comm]
    | @tuples i j xs ys two left right =>
      subst left right
      cases r with
      | strict => rw [equal_tuples two, equal_tuples (hcomm ▸ two), ih]
      | loose =>
        rw [agree_tuples two, agree_tuples (hcomm ▸ two), allPairs_comm (ih .loose)]
        simp only [Bool.beq_comm]
    | unlike differ converse => rw [differ b, converse b]

end Value

end MiniLisp
