/-!
# Fresh names

A supply of names that no program uses. A name is a stem, a percent sign and a number; the
numbers count upwards and are never used again, and a name that is reserved is passed over.

* `FreshNames.reserve` — adds names that must not be drawn.
* `FreshNames.draw` — the next name that is not reserved, which is reserved from then on.
-/

namespace MiniLisp

/-- The state of a supply of fresh names (`NameAllocator`). -/
structure FreshNames where
  /-- What every drawn name starts with. -/
  stem : String := "loop"
  /-- The names that must not be drawn. -/
  reserved : List String := []
  /-- The least number that has not been tried. -/
  next : Nat := 1
deriving DecidableEq, Repr

namespace FreshNames

/-- The name with the given stem and number. -/
def candidate (stem : String) (n : Nat) : String := stem ++ "%" ++ Nat.repr n

/-- Adds a name to the reserved ones. -/
def reserve (names : FreshNames) (x : String) : FreshNames :=
  { names with reserved := names.reserved.insert x }

/-- Adds names to the reserved ones. -/
def reserveAll (names : FreshNames) (xs : List String) : FreshNames := xs.foldl reserve names

@[simp] theorem mem_reserve {names : FreshNames} {x y : String} :
    y ∈ (names.reserve x).reserved ↔ y = x ∨ y ∈ names.reserved := by
  simp [reserve]

theorem mem_reserveAll {xs : List String} {names : FreshNames} {y : String} :
    y ∈ (names.reserveAll xs).reserved ↔ y ∈ xs ∨ y ∈ names.reserved := by
  induction xs generalizing names with
  | nil => simp [reserveAll]
  | cons x xs ih => simp [reserveAll] at ih ⊢; rw [ih]; simp [or_assoc, or_left_comm]

/-- The least number from `n` on whose name is free, among the first `k` numbers; the one
    after these when none is. -/
def firstFree (stem : String) (reserved : List String) : Nat → Nat → Nat
  | 0, n => n
  | k + 1, n =>
    if reserved.contains (candidate stem n) then firstFree stem reserved k (n + 1) else n

/-- The next free name. Different numbers make different names, so one of the next
    `reserved.length + 1` numbers is free (`gen_sym`). -/
def draw (names : FreshNames) : String × FreshNames :=
  let n := firstFree names.stem names.reserved names.reserved.length names.next
  let x := candidate names.stem n
  (x, { names with reserved := x :: names.reserved, next := n + 1 })

/-- The reserved names in the order of their characters, each once. -/
def sorted (names : FreshNames) : List String :=
  names.reserved.eraseDups.mergeSort fun x y => x ≤ y

end FreshNames

end MiniLisp
