import MiniLisp.Proofs.Computation
import Mathlib.Data.List.Perm.Subperm
import Mathlib.Data.List.Nodup

/-!
# Drawn names are fresh

Different numbers make different names, so that among one more number than there are reserved
names one makes a name that is free. The search of `FreshNames.draw` therefore ends at a name
that is not reserved.

* `FreshNames.candidate_injective`: the number can be read off the name.
* `FreshNames.draw_notMem`: the drawn name was not reserved.
* `FreshNames.Draws`: several names drawn in a row; they differ from each other, too.
* `Naming.exec`: the outcome of a computation that draws names, and the supply that it leaves.
-/

namespace MiniLisp

namespace FreshNames

theorem candidate_injective (stem : String) : Function.Injective (candidate stem) := by
  intro m n h
  have hrepr : m.repr = n.repr := (String.append_right_inj _).mp h
  have hdigits : Nat.toDigits 10 m = Nat.toDigits 10 n := by
    rw [← Nat.toList_repr, ← Nat.toList_repr, hrepr]
  rw [← Nat.ofDigitChars_ten_toDigits (n := m), hdigits, Nat.ofDigitChars_ten_toDigits]

theorem percent_mem_candidate (stem : String) (n : Nat) : '%' ∈ (candidate stem n).toList := by
  simp [candidate]

variable {stem : String} {reserved : List String}

theorem le_firstFree (stem : String) (reserved : List String) (k n : Nat) :
    n ≤ firstFree stem reserved k n := by
  induction k generalizing n with
  | zero => exact Nat.le_refl n
  | succ k ih =>
    rw [firstFree]
    split
    · exact Nat.le_of_succ_le (ih (n + 1))
    · exact Nat.le_refl n

/-- The search fails only when every name that it tries is reserved. -/
theorem mem_of_firstFree_mem {k n : Nat}
    (h : candidate stem (firstFree stem reserved k n) ∈ reserved) :
    ∀ j ≤ k, candidate stem (n + j) ∈ reserved := by
  induction k generalizing n with
  | zero =>
    intro j hj
    rw [Nat.le_zero.mp hj]
    exact h
  | succ k ih =>
    rw [firstFree] at h
    by_cases hn : reserved.contains (candidate stem n)
    · rw [if_pos hn] at h
      intro j hj
      cases j with
      | zero => exact List.contains_iff_mem.mp hn
      | succ j =>
        rw [show n + (j + 1) = n + 1 + j by omega]
        exact ih h j (by omega)
    · rw [if_neg hn] at h
      exact absurd (List.contains_iff_mem.mpr h) hn

theorem firstFree_notMem (stem : String) (reserved : List String) (n : Nat) :
    candidate stem (firstFree stem reserved reserved.length n) ∉ reserved := by
  intro h
  have hall := mem_of_firstFree_mem h
  let tried := (List.range (reserved.length + 1)).map fun j => candidate stem (n + j)
  have hnodup : tried.Nodup := by
    refine List.Nodup.map (fun i j hij => ?_) List.nodup_range
    have := candidate_injective stem hij
    omega
  have hsub : tried ⊆ reserved := by
    intro x hx
    obtain ⟨j, hj, rfl⟩ := List.mem_map.mp hx
    exact hall j (Nat.le_of_lt_succ (List.mem_range.mp hj))
  have hlen := (List.subperm_of_subset hnodup hsub).length_le
  rw [List.length_map, List.length_range] at hlen
  omega

theorem draw_notMem (names : FreshNames) : names.draw.1 ∉ names.reserved :=
  firstFree_notMem _ _ _

/-- None of the given names will be drawn: each is reserved or has no percent sign. -/
def Avoids (names : FreshNames) (used : List String) : Prop :=
  ∀ x ∈ used, x ∈ names.reserved ∨ '%' ∉ x.toList

theorem Avoids.draw_notMem {names : FreshNames} {used : List String} (h : names.Avoids used) :
    names.draw.1 ∉ used := by
  intro hmem
  rcases h _ hmem with hres | hpercent
  · exact names.draw_notMem hres
  · exact hpercent (percent_mem_candidate _ _)

/-- The names that are drawn one after the other from one state of a supply to another. -/
inductive Draws : List String → FreshNames → FreshNames → Prop
  | nil {names : FreshNames} : Draws [] names names
  | cons {gs : List String} {names names' : FreshNames} (rest : Draws gs names.draw.2 names') :
      Draws (names.draw.1 :: gs) names names'

namespace Draws

variable {gs hs : List String} {names names' names'' : FreshNames}

theorem append (h : Draws gs names names') (h' : Draws hs names' names'') :
    Draws (gs ++ hs) names names'' := by
  induction h with
  | nil => exact h'
  | cons _ ih => exact .cons (ih h')

theorem mem_reserved_iff (h : Draws gs names names') {x : String} :
    x ∈ names'.reserved ↔ x ∈ gs ∨ x ∈ names.reserved := by
  induction h with
  | nil => simp
  | cons _ ih => rw [ih]; simp [draw, or_left_comm, or_assoc]

theorem notMem_reserved (h : Draws gs names names') : ∀ g ∈ gs, g ∉ names.reserved := by
  induction h with
  | nil => intro g hg; cases hg
  | @cons gs names _ _ ih =>
    intro g hg
    rcases List.mem_cons.mp hg with rfl | hg
    · exact draw_notMem names
    · exact fun hres => ih g hg (List.mem_cons_of_mem _ hres)

theorem nodup (h : Draws gs names names') : gs.Nodup := by
  induction h with
  | nil => exact List.nodup_nil
  | cons rest ih =>
    refine List.nodup_cons.mpr ⟨fun hmem => ?_, ih⟩
    exact rest.notMem_reserved _ hmem (List.mem_cons_self ..)

theorem avoids (h : Draws gs names names') {used : List String} (ha : names.Avoids used) :
    names'.Avoids used :=
  fun x hx => (ha x hx).imp_left fun hres => h.mem_reserved_iff.mpr (.inr hres)

end Draws

end FreshNames

/-! ## Computations that draw names -/

namespace Naming

variable {α β : Type}

/-- The outcome of a computation and the supply of names that it leaves. -/
def exec (x : Naming α) (names : FreshNames) : Outcome α × FreshNames := x.run.run names

@[simp] theorem exec_pure (a : α) (names : FreshNames) :
    (pure a : Naming α).exec names = (.ok a, names) := rfl

@[simp] theorem exec_throw (s : Stop) (names : FreshNames) :
    (throw s : Naming α).exec names = (.error s, names) := rfl

@[simp] theorem exec_ofOutcome (x : Outcome α) (names : FreshNames) :
    (ofOutcome x).exec names = (x, names) := rfl

@[simp] theorem exec_freshName (names : FreshNames) :
    freshName.exec names = (.ok names.draw.1, names.draw.2) := rfl

@[simp] theorem exec_reserveAll (xs : List String) (names : FreshNames) :
    (reserveAll xs).exec names = (.ok (), names.reserveAll xs) := rfl

theorem exec_bind (x : Naming α) (f : α → Naming β) (names : FreshNames) :
    (x >>= f).exec names =
      match x.exec names with
      | (.ok a, names') => (f a).exec names'
      | (.error s, names') => (.error s, names') := by
  cases h : x.run.run names with
  | mk r names' => cases r <;> simp [exec, ExceptT.run_bind, h] <;> rfl

theorem exec_bind_ok_iff {x : Naming α} {f : α → Naming β} {names names' : FreshNames} {b : β} :
    (x >>= f).exec names = (.ok b, names') ↔
      ∃ a names₁, x.exec names = (.ok a, names₁) ∧ (f a).exec names₁ = (.ok b, names') := by
  rw [exec_bind]
  obtain ⟨r, names₁, hx⟩ : ∃ r names₁, x.exec names = (r, names₁) := ⟨_, _, rfl⟩
  rw [hx]
  cases r <;> simp

end Naming

end MiniLisp
