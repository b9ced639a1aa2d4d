import Mathlib
import MiniLisp.Proofs.FreshNames

/-!
# Which names are drawn

A supply looks for a name by trying one number after the other, and the search has no bound of its
own. It ends because the reserved names are finite in number while different numbers make different
names. Nor do supplies with different stems ever meet: the digits at the end of a name hold no
percent sign, so that the last one of the name is where its stem ends.

* `FreshNames.candidate_inj`: the stem and the number can be read off a name.
* `FreshNames.Searches`: a search, try by try, without a bound on their number.
* `FreshNames.searches_iff`: it ends, and `FreshNames.draw` is what it ends with.
* `FreshNames.Leads`: a supply that names are drawn from and reserved in, in any order.
* `FreshNames.names_least_and_new`: what is drawn then.
-/

namespace MiniLisp.FreshNames

/-! ## The parts of a name -/

theorem percent_notMem_repr (n : Nat) : '%' ∉ n.repr.toList := by
  intro h
  rw [Nat.toList_repr] at h
  have hdigit := Nat.isDigit_of_mem_toDigits (by decide) (by decide) h
  exact absurd hdigit (by decide)

/-- The last separator in a list is where it is cut. -/
theorem append_cons_inj_of_notMem_right {α : Type} {c : α} {xs ys xs' ys' : List α} (h : c ∉ ys)
    (h' : c ∉ ys') (heq : xs ++ c :: ys = xs' ++ c :: ys') : xs = xs' ∧ ys = ys' := by
  rcases List.append_eq_append_iff.mp heq with ⟨zs, rfl, hzs⟩ | ⟨zs, rfl, hzs⟩
  · cases zs with
    | nil => simpa using hzs
    | cons z zs =>
      have hmem : c ∈ ys := by simp [(List.cons.inj hzs).2]
      exact absurd hmem h
  · cases zs with
    | nil => simpa using hzs.symm
    | cons z zs =>
      have hmem : c ∈ ys' := by simp [(List.cons.inj hzs).2]
      exact absurd hmem h'

theorem candidate_inj {stem stem' : String} {m n : Nat} :
    candidate stem m = candidate stem' n ↔ stem = stem' ∧ m = n := by
  constructor
  · intro h
    have hlist : stem.toList ++ '%' :: m.repr.toList = stem'.toList ++ '%' :: n.repr.toList := by
      simpa [candidate] using congrArg String.toList h
    have hstem := (append_cons_inj_of_notMem_right (percent_notMem_repr m) (percent_notMem_repr n)
      hlist).1
    obtain rfl := String.toList_inj.mp hstem
    exact ⟨rfl, candidate_injective stem h⟩
  · rintro ⟨rfl, rfl⟩
    rfl

/-! ## The search -/

/-- One try: the next number is used up; its name, if it is free, is reserved and given out. -/
def attempt (names : FreshNames) : Option String × FreshNames :=
  let x := candidate names.stem names.next
  if x ∈ names.reserved then (none, { names with next := names.next + 1 })
  else (some x, { names with reserved := x :: names.reserved, next := names.next + 1 })

/-- A search: tries with the given numbers, of which the last one gives the name. -/
inductive Searches : FreshNames → List Nat → String → FreshNames → Prop
  | found {names names' : FreshNames} {x : String} (given : names.attempt = (some x, names')) :
      Searches names [names.next] x names'
  | passed {names names' names'' : FreshNames} {ns : List Nat} {x : String}
      (refused : names.attempt = (none, names')) (rest : Searches names' ns x names'') :
      Searches names (names.next :: ns) x names''

variable {names names' names'' : FreshNames} {ns ns' : List Nat} {x x' : String}

theorem Searches.unique (h : names.Searches ns x names') (h' : names.Searches ns' x' names'') :
    ns = ns' ∧ x = x' ∧ names' = names'' := by
  induction h generalizing ns' with
  | found given =>
    cases h' with
    | found given' =>
      rw [given] at given'
      cases given'
      exact ⟨rfl, rfl, rfl⟩
    | passed refused' _ =>
      rw [given] at refused'
      cases refused'
  | passed refused _ ih =>
    cases h' with
    | found given' =>
      rw [refused] at given'
      cases given'
    | passed refused' rest' =>
      rw [refused] at refused'
      cases refused'
      obtain ⟨rfl, rfl, rfl⟩ := ih rest'
      exact ⟨rfl, rfl, rfl⟩

/-- Where a bounded search finds a free name, the search without a bound finds the same. -/
theorem searches_firstFree {stem : String} {reserved : List String} {k n m : Nat}
    (hm : firstFree stem reserved k n = m) (hfree : candidate stem m ∉ reserved) :
    Searches ⟨stem, reserved, n⟩ (List.range' n (m + 1 - n)) (candidate stem m)
      ⟨stem, candidate stem m :: reserved, m + 1⟩ := by
  have hfound : ∀ n, candidate stem n ∉ reserved →
      Searches ⟨stem, reserved, n⟩ [n] (candidate stem n)
        ⟨stem, candidate stem n :: reserved, n + 1⟩ := by
    intro n hn
    exact .found (by simp [attempt, hn])
  -- Along `firstFree`. When its bound `k` runs out it stops at `m` untested, so `hfree` is needed.
  induction k generalizing n with
  | zero =>
    obtain rfl : n = m := hm
    rw [show n + 1 - n = 1 by omega]
    exact hfound n hfree
  | succ k ih =>
    rw [firstFree] at hm
    by_cases hn : reserved.contains (candidate stem n)
    · rw [if_pos hn] at hm
      have hle : n + 1 ≤ m := hm ▸ le_firstFree stem reserved k (n + 1)
      have htaken : candidate stem n ∈ reserved := List.contains_iff_mem.mp hn
      rw [show m + 1 - n = m + 1 - (n + 1) + 1 by omega, List.range'_succ]
      exact .passed (by simp [attempt, htaken]) (ih hm)
    · rw [if_neg hn] at hm
      subst hm
      rw [show n + 1 - n = 1 by omega]
      exact hfound n hfree

/-- Every search ends, and a name is drawn as the search finds it. -/
theorem searches_iff : names.Searches ns x names' ↔
    ns = List.range' names.next (names.draw.2.next - names.next) ∧
      x = names.draw.1 ∧ names' = names.draw.2 := by
  have hdraw : names.Searches (List.range' names.next (names.draw.2.next - names.next))
      names.draw.1 names.draw.2 := searches_firstFree rfl names.draw_notMem
  constructor
  · intro h
    exact h.unique hdraw
  · rintro ⟨rfl, rfl, rfl⟩
    exact hdraw

/-- The number of the name that is drawn. -/
def drawnNumber (names : FreshNames) : Nat :=
  firstFree names.stem names.reserved names.reserved.length names.next

theorem mem_of_lt_firstFree {stem : String} {reserved : List String} {k n j : Nat} (hn : n ≤ j)
    (hj : j < firstFree stem reserved k n) : candidate stem j ∈ reserved := by
  induction k generalizing n with
  | zero => exact absurd hj (Nat.not_lt.mpr hn)
  | succ k ih =>
    rw [firstFree] at hj
    split at hj
    · next htaken =>
      rcases Nat.eq_or_lt_of_le hn with rfl | hlt
      · exact List.contains_iff_mem.mp htaken
      · exact ih hlt hj
    · exact absurd hj (Nat.not_lt.mpr hn)

theorem drawnNumber_isLeast (names : FreshNames) :
    IsLeast {k | names.next ≤ k ∧ candidate names.stem k ∉ names.reserved} names.drawnNumber := by
  refine ⟨⟨le_firstFree .., names.draw_notMem⟩, ?_⟩
  rintro k ⟨hk, hfree⟩
  by_contra hlt
  exact hfree (mem_of_lt_firstFree hk (Nat.not_le.mp hlt))

/-! ## A supply in use -/

/-- What can be done with a supply. -/
inductive Use where
  | draw
  | reserve (x : String)

/-- What has been done with a supply: the numbers that were tried and the names that were drawn, in
    order, and the state that it is in. -/
structure History where
  tried : List Nat := []
  drawn : List String := []
  names : FreshNames

/-- The history of a supply that has been put to the given uses. -/
inductive Leads (start : FreshNames) : List Use → History → Prop
  | nil : Leads start [] { names := start }
  | draw {uses : List Use} {h : History} {ns : List Nat} {x : String} {names : FreshNames}
      (before : Leads start uses h) (search : h.names.Searches ns x names) :
      Leads start (uses ++ [.draw]) ⟨h.tried ++ ns, h.drawn ++ [x], names⟩
  | reserve {uses : List Use} {h : History} (before : Leads start uses h) (x : String) :
      Leads start (uses ++ [.reserve x]) { h with names := h.names.reserve x }

namespace Leads

variable {start : FreshNames} {uses : List Use} {h h' : History}

theorem total (start : FreshNames) (uses : List Use) : ∃ h, Leads start uses h := by
  induction uses using List.reverseRecOn with
  | nil => exact ⟨_, .nil⟩
  | append_singleton uses use ih =>
    obtain ⟨h, hh⟩ := ih
    cases use with
    | draw => exact ⟨_, .draw hh (searches_iff.mpr ⟨rfl, rfl, rfl⟩)⟩
    | reserve x => exact ⟨_, .reserve hh x⟩

theorem unique (hh : Leads start uses h) (hh' : Leads start uses h') : h = h' := by
  -- The last of the uses tells which constructor both end with.
  induction hh generalizing h' with
  | nil =>
    generalize huses : [] = uses at hh'
    cases hh' with
    | nil => rfl
    | draw | reserve => simp at huses
  | @draw uses h ns x names _ search ih =>
    generalize huses : uses ++ [.draw] = uses' at hh'
    cases hh' with
    | nil => simp at huses
    | draw before' search' =>
      obtain ⟨rfl, -⟩ := List.append_inj' huses rfl
      obtain rfl := ih before'
      obtain ⟨rfl, rfl, rfl⟩ := search.unique search'
      rfl
    | reserve => simp at huses
  | @reserve uses h _ x ih =>
    generalize huses : uses ++ [.reserve x] = uses' at hh'
    cases hh' with
    | nil => simp at huses
    | draw => simp at huses
    | reserve before' x' =>
      obtain ⟨rfl, hx⟩ := List.append_inj' huses rfl
      cases hx
      obtain rfl := ih before'
      rfl

/-- Numbers are tried in order, from the first one on, and none is left out. -/
theorem tried_eq (hh : Leads start uses h) : h.names.stem = start.stem ∧
    start.next ≤ h.names.next ∧ h.tried = List.range' start.next (h.names.next - start.next) := by
  induction hh with
  | nil => simp
  | @draw uses h ns x names _ search ih =>
    obtain ⟨hstem, hle, htried⟩ := ih
    obtain ⟨rfl, -, rfl⟩ := searches_iff.mp search
    have hnext : h.names.next ≤ h.names.draw.2.next := Nat.le_succ_of_le (le_firstFree ..)
    refine ⟨hstem, hle.trans hnext, ?_⟩
    have happend := List.range'_append_1 (s := start.next) (m := h.names.next - start.next)
      (n := h.names.draw.2.next - h.names.next)
    have hsum : h.names.next - start.next + (h.names.draw.2.next - h.names.next) =
        h.names.draw.2.next - start.next := by omega
    rw [Nat.add_sub_cancel' hle, hsum] at happend
    rw [htried, happend]
  | reserve _ x ih => exact ih

theorem mem_reserved_iff (hh : Leads start uses h) {x : String} : x ∈ h.names.reserved ↔
    x ∈ start.reserved ∨ .reserve x ∈ uses ∨ x ∈ h.drawn := by
  induction hh with
  | nil => simp
  | @draw uses h ns y names _ search ih =>
    obtain ⟨-, rfl, rfl⟩ := searches_iff.mp search
    have hdraw : x ∈ h.names.draw.2.reserved ↔ x = h.names.draw.1 ∨ x ∈ h.names.reserved :=
      List.mem_cons
    rw [hdraw, ih]
    simp [or_comm, or_left_comm, or_assoc]
  | reserve _ y ih =>
    rw [mem_reserve, ih]
    simp [or_comm, or_left_comm]

theorem exists_number (hh : Leads start uses h) {x : String} (hx : x ∈ h.drawn) :
    ∃ n, x = candidate start.stem n := by
  induction hh with
  | nil => cases hx
  | @draw uses h ns y names before search ih =>
    obtain ⟨-, rfl, -⟩ := searches_iff.mp search
    rcases List.mem_append.mp hx with hx | hx
    · exact ih hx
    · obtain rfl := List.mem_singleton.mp hx
      exact ⟨h.names.drawnNumber, by rw [← before.tried_eq.1]; rfl⟩
  | reserve _ _ ih => exact ih hx

/-- The numbers that are left to be tried are those above all that have been tried. -/
theorem next_le_iff (hh : Leads start uses h) {k : Nat} :
    h.names.next ≤ k ↔ start.next ≤ k ∧ ∀ t ∈ h.tried, t < k := by
  obtain ⟨-, hle, htried⟩ := hh.tried_eq
  simp only [htried, List.mem_range'_1]
  constructor
  · intro hk
    exact ⟨hle.trans hk, fun t ht => by omega⟩
  · rintro ⟨hk, hall⟩
    by_contra hlt
    exact absurd (hall k ⟨hk, by omega⟩) (Nat.lt_irrefl k)

end Leads

/-- Of a supply with any stem and any names reserved at first, from which names are drawn and in which
    names are reserved in any order, there is one history. The next search in it ends, with the name
    that `draw` gives: it has the least positive number that is greater than all that have been tried
    and whose name is not reserved. This name was not reserved, also not by a draw, and is reserved
    from then on; so are the names that were reserved at first or later. A supply with another stem
    never draws a name that this one draws. -/
theorem names_least_and_new (stem : String) (reserved : List String) (uses : List Use) :
    ∃ h : History, (∀ h', Leads { stem, reserved } uses h' ↔ h' = h) ∧
      (∃ m ns, h.names.Searches ns (candidate stem m) h.names.draw.2 ∧
        h.names.draw.1 = candidate stem m ∧
        IsLeast {k | 1 ≤ k ∧ (∀ t ∈ h.tried, t < k) ∧ candidate stem k ∉ h.names.reserved} m) ∧
      (h.names.draw.1 ∉ h.names.reserved ∧ h.names.draw.1 ∉ h.drawn ∧
        h.names.draw.1 ∈ h.names.draw.2.reserved) ∧
      (∀ x, x ∈ h.names.reserved ↔ x ∈ reserved ∨ .reserve x ∈ uses ∨ x ∈ h.drawn) ∧
      ∀ stem' reserved' uses' h', stem' ≠ stem →
        Leads { stem := stem', reserved := reserved' } uses' h' → ∀ x ∈ h.drawn, x ∉ h'.drawn := by
  obtain ⟨h, hh⟩ := Leads.total { stem, reserved } uses
  have hstem : h.names.stem = stem := hh.tried_eq.1
  have hname : h.names.draw.1 = candidate stem h.names.drawnNumber := by
    rw [← hstem]
    rfl
  refine ⟨h, fun h' => ⟨fun hh' => hh'.unique hh, fun heq => heq ▸ hh⟩, ?_, ?_, ?_, ?_⟩
  · refine ⟨h.names.drawnNumber, _, searches_iff.mpr ⟨rfl, hname.symm, rfl⟩, hname, ?_⟩
    have hleast := h.names.drawnNumber_isLeast
    simp only [hstem, hh.next_le_iff, and_assoc] at hleast
    exact hleast
  · refine ⟨h.names.draw_notMem, fun hx => ?_, List.mem_cons_self⟩
    exact h.names.draw_notMem (hh.mem_reserved_iff.mpr (.inr (.inr hx)))
  · exact fun x => hh.mem_reserved_iff
  · intro stem' reserved' uses' h' hne hh' x hx hx'
    obtain ⟨m, rfl⟩ := hh.exists_number hx
    obtain ⟨n, heq⟩ := hh'.exists_number hx'
    exact hne (candidate_inj.mp heq).1.symm

end MiniLisp.FreshNames
