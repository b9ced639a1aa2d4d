import MiniLisp.Proofs.Budgets
import Mathlib.Algebra.Order.Group.Multiset

/-!
# Generated names are hygienic and expansion is linear

Expansion draws one name for each loop, after it has reserved the names of the expression. Its
result holds the names of the expression as often as the expression does: only the variable that
a loop assigns is written once less, and the name drawn for the loop is written three times. A
supply that serves several expressions, one after the other, keeps what has been reserved and
drawn, also where an expansion has failed.

* `Expr.nodes`: the expressions inside an expression, in the order in which they are expanded.
* `Expr.Expands.count_symbols`: how often a name is written in the result.
* `FreshNames.Draws.exists_number`: drawn names have numbers that were not tried before.
* `Naming.Drawing`: computations that do nothing to the supply but draw names from it.
* `expansion_hygienic_and_linear`: the names of one result, and of a sequence of results.
-/

namespace MiniLisp

namespace Expr

/-! ## The loops of an expression -/

mutual

/-- An expression and all expressions inside it, in the order in which expansion comes to them:
    a node before its parts, and the parts of a loop in the order update, test, body, start. -/
@[simp] def nodes : Expr → List Expr
  | define x e => define x e :: e.nodes
  | letrec x e₁ e₂ => letrec x e₁ e₂ :: (e₁.nodes ++ e₂.nodes)
  | binary op e₁ e₂ => binary op e₁ e₂ :: (e₁.nodes ++ e₂.nodes)
  | branch e₁ e₂ e₃ => branch e₁ e₂ e₃ :: (e₁.nodes ++ (e₂.nodes ++ e₃.nodes))
  | begin es => begin es :: allNodes es
  | lambda x e => lambda x e :: e.nodes
  | apply e₁ e₂ => apply e₁ e₂ :: (e₁.nodes ++ e₂.nodes)
  | loop i e₁ e₂ u e₃ e₄ =>
    loop i e₁ e₂ u e₃ e₄ :: (e₃.nodes ++ (e₂.nodes ++ (e₄.nodes ++ e₁.nodes)))
  | e => [e]

/-- The nodes of several expressions. -/
@[simp] def allNodes : List Expr → List Expr
  | [] => []
  | e :: es => e.nodes ++ allNodes es

end

/-- Of a loop, its variable and the one that its update clause assigns. -/
@[simp] def loopVariables : Expr → List (String × String)
  | loop i _ _ u _ _ => [(i, u)]
  | _ => []

/-- The loops of an expression, each by its two variables. -/
def loops (e : Expr) : List (String × String) := e.nodes.flatMap loopVariables

/-- The variables that the loops of an expression assign, one for each loop. -/
def assigned (e : Expr) : List String := e.loops.map Prod.snd

mutual

/-- The variable that a loop assigns is one of the names of the expression. -/
theorem count_assigned_le (x : String) : ∀ e : Expr, e.assigned.count x ≤ e.symbols.count x
  | numeral _ | text _ | truth _ | quote _ | stray _ | name _ => by simp [assigned, loops]
  | define _ e | lambda _ e => by
    have h := count_assigned_le x e
    simp [assigned, loops, symbols, List.count_cons] at h ⊢
    omega
  | letrec _ e₁ e₂ => by
    have h₁ := count_assigned_le x e₁
    have h₂ := count_assigned_le x e₂
    simp [assigned, loops, symbols, List.count_cons] at h₁ h₂ ⊢
    omega
  | binary _ e₁ e₂ | apply e₁ e₂ => by
    have h₁ := count_assigned_le x e₁
    have h₂ := count_assigned_le x e₂
    simp [assigned, loops, symbols] at h₁ h₂ ⊢
    omega
  | branch e₁ e₂ e₃ => by
    have h₁ := count_assigned_le x e₁
    have h₂ := count_assigned_le x e₂
    have h₃ := count_assigned_le x e₃
    simp [assigned, loops, symbols] at h₁ h₂ h₃ ⊢
    omega
  | begin es => by
    have h := count_allAssigned_le x es
    simpa [assigned, loops, symbols] using h
  | loop i e₁ e₂ u e₃ e₄ => by
    have h₁ := count_assigned_le x e₁
    have h₂ := count_assigned_le x e₂
    have h₃ := count_assigned_le x e₃
    have h₄ := count_assigned_le x e₄
    simp [assigned, loops, symbols, List.count_cons] at h₁ h₂ h₃ h₄ ⊢
    omega

theorem count_allAssigned_le (x : String) : ∀ es : List Expr,
    (((allNodes es).flatMap loopVariables).map Prod.snd).count x ≤ (allSymbols es).count x
  | [] => by simp
  | e :: es => by
    have h₁ := count_assigned_le x e
    have h₂ := count_allAssigned_le x es
    simp [assigned, loops, allSymbols] at h₁ h₂ ⊢
    omega

end

namespace Expands

variable {used : List String} {frames : FrameId → Prop} {gs : List String} {e e' : Expr}

/-- One name is drawn for each loop. -/
theorem length_loops (h : Expands used frames gs e e') : gs.length = e.loops.length := by
  induction h with
  | numeral | text | truth | name | quote | beginNil => simp [loops]
  | define _ _ ih | lambda _ _ ih => simpa [loops] using ih
  | letrec _ _ _ ih₁ ih₂ | binary _ _ ih₁ ih₂ | apply _ _ ih₁ ih₂ | beginCons _ _ ih₁ ih₂ =>
    simp [loops] at ih₁ ih₂ ⊢
    omega
  | branch _ _ _ ih₁ ih₂ ih₃ =>
    simp [loops] at ih₁ ih₂ ih₃ ⊢
    omega
  | loop _ _ _ _ _ _ ih₁ ih₂ ih₃ ih₄ =>
    simp [loops] at ih₁ ih₂ ih₃ ih₄ ⊢
    omega

/-- A name is written in the expansion where it is written in the expression, except where a
    loop assigns it, and three times for each loop that it is drawn for. -/
theorem count_symbols (h : Expands used frames gs e e') (x : String) :
    e'.symbols.count x + e.assigned.count x = e.symbols.count x + 3 * gs.count x := by
  induction h with
  | numeral | text | truth | name | quote | beginNil => simp [assigned, loops]
  | define _ _ ih | lambda _ _ ih =>
    simp [assigned, loops, symbols, List.count_cons] at ih ⊢
    omega
  | letrec _ _ _ ih₁ ih₂ =>
    simp [assigned, loops, symbols, List.count_cons] at ih₁ ih₂ ⊢
    omega
  | binary _ _ ih₁ ih₂ | apply _ _ ih₁ ih₂ =>
    simp [assigned, loops, symbols] at ih₁ ih₂ ⊢
    omega
  | beginCons _ _ ih₁ ih₂ =>
    simp [assigned, loops, symbols, allSymbols] at ih₁ ih₂ ⊢
    omega
  | branch _ _ _ ih₁ ih₂ ih₃ =>
    simp [assigned, loops, symbols] at ih₁ ih₂ ih₃ ⊢
    omega
  | loop _ _ _ _ _ _ ih₁ ih₂ ih₃ ih₄ =>
    simp [assigned, loops, symbols, allSymbols, ofLoop, List.count_cons] at ih₁ ih₂ ih₃ ih₄ ⊢
    omega

end Expands

/-- A stack that is deep enough holds all levels of a tree. -/
theorem eventually_height_le (e : Expr) : Eventually fun b => e.height ≤ b :=
  ⟨e.height, fun _ h => h⟩

end Expr

/-! ## What is drawn -/

namespace FreshNames

theorem Draws.eq_of_nil {names names' : FreshNames} (h : Draws [] names names') :
    names' = names := by
  cases h
  rfl

/-- Drawn names have the stem of the supply and numbers that it had not tried yet. -/
theorem Draws.exists_number {gs : List String} {names names' : FreshNames}
    (h : Draws gs names names') : names.next ≤ names'.next ∧
      ∀ g ∈ gs, ∃ n, names.next ≤ n ∧ n < names'.next ∧ g = candidate names.stem n := by
  induction h with
  | nil => exact ⟨Nat.le_refl _, by simp⟩
  | @cons gs names names' _ ih =>
    obtain ⟨hnext, hgs⟩ := ih
    have hle : names.next ≤ firstFree names.stem names.reserved names.reserved.length names.next :=
      le_firstFree _ _ _ _
    have hlt : names.draw.2.next =
        firstFree names.stem names.reserved names.reserved.length names.next + 1 := rfl
    refine ⟨by omega, List.forall_mem_cons.mpr ⟨⟨_, hle, by omega, rfl⟩, fun g hg => ?_⟩⟩
    obtain ⟨n, hn, hn', rfl⟩ := hgs g hg
    exact ⟨n, by omega, hn', rfl⟩

@[simp] theorem reserveAll_next (names : FreshNames) (xs : List String) :
    (names.reserveAll xs).next = names.next := by
  induction xs generalizing names with
  | nil => rfl
  | cons x xs ih => exact ih (names.reserve x)

@[simp] theorem reserveAll_stem (names : FreshNames) (xs : List String) :
    (names.reserveAll xs).stem = names.stem := by
  induction xs generalizing names with
  | nil => rfl
  | cons x xs ih => exact ih (names.reserve x)

end FreshNames

/-- The computation does nothing to the supply but draw names from it, however it ends. -/
def Naming.Drawing {α : Type} (x : Naming α) : Prop :=
  ∀ names, ∃ gs, FreshNames.Draws gs names (x.exec names).2

namespace Naming.Drawing

variable {α β : Type}

theorem pure (a : α) : Drawing (Pure.pure a : Naming α) := fun _ => ⟨[], .nil⟩

theorem throw (s : Stop) : Drawing (throw s : Naming α) := fun _ => ⟨[], .nil⟩

theorem ofOutcome (x : Outcome α) : Drawing (Naming.ofOutcome x) := fun _ => ⟨[], .nil⟩

theorem freshName : Drawing Naming.freshName := fun _ => ⟨_, .cons .nil⟩

theorem bind {x : Naming α} {f : α → Naming β} (hx : Drawing x) (hf : ∀ a, Drawing (f a)) :
    Drawing (x >>= f) := by
  intro names
  obtain ⟨gs, hgs⟩ := hx names
  rw [exec_bind]
  split
  · next a names₁ heq =>
    rw [heq] at hgs
    obtain ⟨hs, hhs⟩ := hf a names₁
    exact ⟨gs ++ hs, hgs.append hhs⟩
  · next s names₁ heq =>
    rw [heq] at hgs
    exact ⟨gs, hgs⟩

theorem mapM {ι : Type} {f : ι → Naming α} (hf : ∀ i, Drawing (f i)) (is : List ι) :
    Drawing (is.mapM f) := by
  induction is with
  | nil => exact .pure []
  | cons i is ih =>
    rw [List.mapM_cons]
    exact (hf i).bind fun _ => ih.bind fun _ => .pure _

end Naming.Drawing

theorem Expr.expandLoops_drawing (b : Nat) (e : Expr) : (e.expandLoops b).Drawing := by
  induction b generalizing e with
  | zero => exact .throw _
  | succ b ih =>
    cases e with
    | numeral | text | truth | name | quote => exact .pure _
    | stray d => exact (Naming.Drawing.ofOutcome _).bind fun _ => .throw _
    | define x e | lambda x e => exact (ih e).bind fun _ => .pure _
    | letrec x e₁ e₂ | binary op e₁ e₂ | apply e₁ e₂ =>
      exact (ih e₁).bind fun _ => (ih e₂).bind fun _ => .pure _
    | branch e₁ e₂ e₃ =>
      exact (ih e₁).bind fun _ => (ih e₂).bind fun _ => (ih e₃).bind fun _ => .pure _
    | begin es => exact (Naming.Drawing.mapM ih es).bind fun _ => .pure _
    | loop i start test assigned update body =>
      rw [expandLoops]
      split
      · exact .throw _
      · refine Naming.Drawing.freshName.bind fun _ => (ih update).bind fun _ => ?_
        exact (ih test).bind fun _ => (ih body).bind fun _ => (ih start).bind fun _ => .pure _

/-! ## One supply for several expressions -/

namespace FreshNames

/-- The names that are drawn when an expression is expanded, whether or not this succeeds. -/
def Generates (names : FreshNames) (b : Nat) (e : Expr) (gs : List String) : Prop :=
  Draws gs (names.reserveAll (e.listing b).found) ((e.expand b).exec names).2

/-- The supply after expressions have been expanded one after the other, each under a stack
    budget of its own and whether or not this succeeded. -/
def after (names : FreshNames) (calls : List (Nat × Expr)) : FreshNames :=
  calls.foldl (fun names c => ((c.2.expand c.1).exec names).2) names

variable {names : FreshNames} {b : Nat} {e : Expr} {gs : List String} {x : String}

/-- Where the stack ends in the search for names, the names found so far are reserved, and nothing
    else is done. -/
theorem exec_expand_of_lt_height (h : b < e.height) :
    (e.expand b).exec names = (.error .exhausted, names.reserveAll (e.listing b).found) := by
  rw [Expr.expand, Naming.exec_bind, Expr.exec_reserveNames, (Expr.listing_of_lt_height h).1]

theorem exists_generates (names : FreshNames) (b : Nat) (e : Expr) :
    ∃ gs, names.Generates b e gs := by
  unfold Generates
  rcases Nat.lt_or_ge b e.height with hlt | hge
  · rw [exec_expand_of_lt_height hlt]
    exact ⟨[], .nil⟩
  · rw [Expr.expand, Naming.exec_bind, Expr.exec_reserveNames, Expr.listing_of_height_le hge]
    exact e.expandLoops_drawing b _

/-- What an expansion draws was not reserved before, and is afterwards. -/
theorem Generates.notMem_reserved (h : names.Generates b e gs) :
    ∀ g ∈ gs, g ∉ names.reserved :=
  fun g hg hres => Draws.notMem_reserved h g hg (mem_reserveAll.mpr (.inr hres))

/-- What an expansion draws is none of the names that it has found in the expression. -/
theorem Generates.notMem_found (h : names.Generates b e gs) :
    ∀ g ∈ gs, g ∉ (e.listing b).found :=
  fun g hg hfound => Draws.notMem_reserved h g hg (mem_reserveAll.mpr (.inl hfound))

theorem Generates.mem_reserved (h : names.Generates b e gs) (hx : x ∈ gs) :
    x ∈ ((e.expand b).exec names).2.reserved :=
  h.mem_reserved_iff.mpr (.inl hx)

theorem mem_expand_of_mem_reserveAll
    (h : x ∈ (names.reserveAll (e.listing b).found).reserved) :
    x ∈ ((e.expand b).exec names).2.reserved := by
  obtain ⟨gs, hgs⟩ := exists_generates names b e
  exact hgs.mem_reserved_iff.mpr (.inr h)

/-- Nothing that has been reserved or drawn is given back. -/
theorem mem_after (calls : List (Nat × Expr)) (h : x ∈ names.reserved) :
    x ∈ (names.after calls).reserved := by
  induction calls generalizing names with
  | nil => exact h
  | cons c calls ih => exact ih (mem_expand_of_mem_reserveAll (mem_reserveAll.mpr (.inr h)))

/-- What one call has left reserved stays so until the last one. -/
theorem mem_after_of_call {earlier later : List (Nat × Expr)} {c : Nat × Expr}
    (h : x ∈ ((c.2.expand c.1).exec (names.after earlier)).2.reserved) :
    x ∈ (names.after (earlier ++ c :: later)).reserved := by
  rw [after, List.foldl_append]
  exact mem_after later h

theorem mem_after_of_found {calls : List (Nat × Expr)} {c : Nat × Expr} (hc : c ∈ calls)
    (hx : x ∈ (c.2.listing c.1).found) : x ∈ (names.after calls).reserved := by
  obtain ⟨earlier, later, rfl⟩ := List.append_of_mem hc
  exact mem_after_of_call (mem_expand_of_mem_reserveAll (mem_reserveAll.mpr (.inl hx)))

end FreshNames

/-! ## Results -/

/-- Expansion is hygienic and linear. Where it succeeds, it draws one name for each loop. These
    differ from each other, from the reserved names and from those of the expression, they have
    the stem of the supply and numbers not tried before, and they are reserved afterwards together
    with the names of the expression. The result holds the names of the expression, less one for
    each loop, and each drawn name three times.

    When a supply serves one call after the other, what a call draws has not been drawn before, and
    is none of the names found in any expression so far, no matter how the calls ended. These are
    all names of an expression with no more levels than the stack. Of a higher one they are the
    first, and these are reserved although the call fails. -/
theorem expansion_hygienic_and_linear (names : FreshNames) :
    (∀ b e e' names', (e.expand b).exec names = (.ok e', names') →
      ∃ gs, names.Generates b e gs ∧ gs.length = e.loops.length ∧ gs.Nodup ∧
        (∀ g ∈ gs, g ∉ names.reserved ∧ g ∉ e.symbols ∧
          ∃ n, names.next ≤ n ∧ n < names'.next ∧ g = FreshNames.candidate names.stem n) ∧
        (e.assigned : Multiset String) ≤ e.symbols ∧
        (e'.symbols : Multiset String) = e.symbols - e.assigned + 3 • (gs : Multiset String) ∧
        ∀ x, x ∈ names'.reserved ↔ x ∈ names.reserved ∨ x ∈ e.symbols ∨ x ∈ gs) ∧
    (∀ calls b e, ∃ gs, (names.after calls).Generates b e gs ∧ gs.Nodup ∧
      ∀ g ∈ gs, g ∉ names.reserved ∧
        (∀ c ∈ calls ++ [(b, e)], g ∉ (c.2.listing c.1).found) ∧
        ∀ earlier c later hs, calls = earlier ++ c :: later →
          (names.after earlier).Generates c.1 c.2 hs → g ∉ hs) ∧
    ∀ b e,
      (Expr.height e ≤ b → e.listing b = { found := e.symbols } ∧ e.names b = .ok e.symbols) ∧
      (b < e.height → (e.listing b).found <+: e.symbols ∧
        (e.expand b).exec names = (.error .exhausted, names.reserveAll (e.listing b).found)) := by
  refine ⟨fun b e e' names' h => ?_, fun calls b e => ?_, fun b e => ⟨fun h => ?_, fun h => ?_⟩⟩
  · have hdata : e.ClosuresIn fun _ => True := Expr.closuresIn_of_forall (fun _ => trivial) e
    obtain ⟨gs, hgs, hexpands⟩ := Expr.expand_expands hdata h
    have hgenerates : names.Generates b e gs := by
      rw [FreshNames.Generates, Expr.listing_of_height_le (Expr.height_le_of_expand h), h]
      exact hgs
    have hle : (e.assigned : Multiset String) ≤ e.symbols := by
      rw [Multiset.le_iff_count]
      exact fun x => by simpa using Expr.count_assigned_le x e
    refine ⟨gs, hgenerates, hexpands.length_loops, hgs.nodup, fun g hg => ⟨?_, ?_, ?_⟩, hle, ?_, ?_⟩
    · exact hgenerates.notMem_reserved g hg
    · exact fun hmem => hgs.notMem_reserved g hg (FreshNames.mem_reserveAll.mpr (.inl hmem))
    · simpa using hgs.exists_number.2 g hg
    · ext x
      have hcount := hexpands.count_symbols x
      have hassigned := Expr.count_assigned_le x e
      simp only [Multiset.coe_count, Multiset.count_add, Multiset.count_sub, Multiset.count_nsmul]
      omega
    · intro x
      rw [hgs.mem_reserved_iff, FreshNames.mem_reserveAll]
      tauto
  · obtain ⟨gs, hgs⟩ := FreshNames.exists_generates (names.after calls) b e
    refine ⟨gs, hgs, hgs.nodup, fun g hg => ⟨?_, fun c hc hx => ?_, ?_⟩⟩
    · exact fun hres => hgs.notMem_reserved g hg (FreshNames.mem_after calls hres)
    · rcases List.mem_append.mp hc with hc | hc
      · exact hgs.notMem_reserved g hg (FreshNames.mem_after_of_found hc hx)
      · rw [List.mem_singleton] at hc
        subst hc
        exact hgs.notMem_found g hg hx
    · rintro earlier c later hs rfl hhs hmem
      exact hgs.notMem_reserved g hg (FreshNames.mem_after_of_call (hhs.mem_reserved hmem))
  · exact ⟨Expr.listing_of_height_le h, Expr.names_of_height_le h⟩
  · exact ⟨(Expr.listing_of_lt_height h).2, FreshNames.exec_expand_of_lt_height h⟩

/-! ## Where the stack ends in the search for names -/

theorem FreshNames.draw_of_notMem {names : FreshNames}
    (h : candidate names.stem names.next ∉ names.reserved) :
    names.draw.1 = candidate names.stem names.next := by
  have hfirst : ∀ k, firstFree names.stem names.reserved k names.next = names.next := by
    rintro (_ | k)
    · rfl
    · rw [firstFree, if_neg (List.contains_iff_mem.not.mpr h)]
  exact congrArg (candidate names.stem) (hfirst _)

namespace Hygiene

/-- Definitions inside each other, around an expression. -/
def nested (x : String) : Nat → Expr → Expr
  | 0, e => e
  | n + 1, e => .define x (nested x n e)

/-- A loop that never runs. -/
def idle : Expr := .loop "i" (.name "i") (.truth false) "i" (.name "i") (.name "i")

variable {x y : String} {e : Expr}

/-- The stack ends before the search has come to the innermost expression. -/
theorem listing_nested (x : String) (n : Nat) (e : Expr) :
    (nested x n e).listing n =
      { found := List.replicate n x, ending := .error .exhausted } := by
  induction n with
  | zero => rfl
  | succ n ih =>
    rw [nested, Expr.listing, Expr.parts, List.map_singleton, ih]
    rfl

theorem mem_symbols_nested (hy : y ∈ e.symbols) (n : Nat) : y ∈ (nested x n e).symbols := by
  induction n with
  | zero => exact hy
  | succ n ih => exact List.mem_cons_of_mem x ih

theorem lt_height_nested (x : String) (n : Nat) (e : Expr) : n < (nested x n e).height := by
  by_contra h
  have hlisting := Expr.listing_of_height_le (Nat.not_lt.mp h)
  rw [listing_nested] at hlisting
  cases congrArg Listing.ending hlisting

theorem exec_expand_nested (n : Nat) (names : FreshNames) :
    ((nested x n e).expand n).exec names =
      (.error .exhausted, names.reserveAll (List.replicate n x)) := by
  rw [FreshNames.exec_expand_of_lt_height (lt_height_nested x n e), listing_nested]

theorem after_nested (n : Nat) (names : FreshNames) :
    names.after [(n, nested x n e)] = names.reserveAll (List.replicate n x) :=
  congrArg Prod.snd (exec_expand_nested n names)

theorem exec_expand_idle (b : Nat) (names : FreshNames) :
    (idle.expand (b + 2)).exec names =
      (.ok (.ofLoop (names.reserveAll idle.symbols).draw.1 "i" (.name "i") (.truth false)
        (.name "i") (.name "i")), (names.reserveAll idle.symbols).draw.2) := rfl

end Hygiene

/-- A name of an expression with more levels than the stack is not reserved, and the next loop is
    given it. -/
theorem deep_name_given_to_loop :
    let names : FreshNames := {}
    let deep := Hygiene.nested "x" 1000 (.name "loop%1")
    let later := names.after [(1000, deep)]
    "loop%1" ∈ deep.symbols ∧ ((deep.expand 1000).exec names).1 = .error .exhausted ∧
      later.Generates 1000 Hygiene.idle ["loop%1"] ∧
      ((Hygiene.idle.expand 1000).exec later).1 =
        .ok (.ofLoop "loop%1" "i" (.name "i") (.truth false) (.name "i") (.name "i")) := by
  intro names deep later
  have hlater : later = names.reserveAll (List.replicate 1000 "x") :=
    Hygiene.after_nested 1000 names
  have hdraw : (later.reserveAll Hygiene.idle.symbols).draw.1 = "loop%1" := by
    have hnext : FreshNames.candidate (later.reserveAll Hygiene.idle.symbols).stem
        (later.reserveAll Hygiene.idle.symbols).next = "loop%1" := by
      rw [hlater]
      simp only [FreshNames.reserveAll_stem, FreshNames.reserveAll_next]
      decide
    rw [← hnext]
    refine FreshNames.draw_of_notMem ?_
    rw [hnext, hlater, FreshNames.mem_reserveAll, FreshNames.mem_reserveAll]
    rintro (h | h | h)
    · simp [Hygiene.idle, Expr.symbols] at h
    · exact absurd (List.mem_replicate.mp h).2 (by decide)
    · cases h
  refine ⟨Hygiene.mem_symbols_nested (List.mem_singleton.mpr rfl) 1000, ?_, ?_, ?_⟩
  · rw [Hygiene.exec_expand_nested]
  · have hheight : Hygiene.idle.height ≤ 1000 := by simp [Hygiene.idle, Expr.height]
    rw [FreshNames.Generates, Hygiene.exec_expand_idle 998, Expr.listing_of_height_le hheight,
      ← hdraw]
    exact .cons .nil
  · rw [Hygiene.exec_expand_idle 998, hdraw]

end MiniLisp
