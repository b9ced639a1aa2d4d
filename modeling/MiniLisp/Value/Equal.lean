import MiniLisp.Fault
import MiniLisp.Value.Basic

/-!
# Equality of values

Two equalities, both decided under a stack budget that every level of nesting spends:

* `Value.equal` — the equality of programs. An object equals itself; numbers compare by
  value; lists compare element by element; other values are equal when they are of one kind
  and content, and tuples when they agree.
* `Value.agree` — the looser equality of what stands inside tuples. It differs in that truth
  values count as the numbers one and zero, also within lists inside tuples.
-/

namespace MiniLisp.Value

variable {Code : Type}

/-- Whether a test holds of all pairs of elements at the same place, asked from the front
    until one fails; what one list has beyond the other is left out. -/
def allPairs (test : Value Code → Value Code → Outcome Bool) :
    List (Value Code) → List (Value Code) → Outcome Bool
  | x :: xs, y :: ys => do
    if ← test x y then allPairs test xs ys else pure false
  | _, _ => pure true

/-- The number that a value counts as inside a tuple. -/
def countsAs? : Value Code → Option Number
  | bool b => some (.int (if b then 1 else 0))
  | v => v.number?

/-- The equality of elements of tuples. Lists of different lengths differ without a look at
    their elements, tuples only after one at those that both have. -/
def agree : Nat → Value Code → Value Code → Outcome Bool
  | 0, _, _ => .error .exhausted
  | b + 1, v, w =>
    if v.same w then pure true
    else
      match v.countsAs?, w.countsAs? with
      | some m, some n => pure (m.eq n)
      | _, _ =>
        match v, w with
        | list _ xs, list _ ys =>
          if xs.length = ys.length then allPairs (agree b) xs ys else pure false
        | tuple _ xs, tuple _ ys => do
          if ← allPairs (agree b) xs ys then pure (xs.length == ys.length) else pure false
        | _, _ => pure false

/-- The equality of values (`is_equal`). -/
def equal : Nat → Value Code → Value Code → Outcome Bool
  | 0, _, _ => .error .exhausted
  | b + 1, v, w =>
    if v.same w then pure true
    else
      match v.number?, w.number? with
      | some m, some n => pure (m.eq n)
      | _, _ =>
        match v, w with
        | list _ xs, list _ ys =>
          if xs.length = ys.length then allPairs (equal b) xs ys else pure false
        | tuple _ _, tuple _ _ => agree b v w
        | _, _ => pure false

end MiniLisp.Value
