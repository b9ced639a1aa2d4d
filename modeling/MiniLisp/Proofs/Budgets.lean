import MiniLisp.Proofs.Expansion
import MiniLisp.Proofs.Reading

/-!
# Reading and expansion under more stack

Under a larger budget a datum is read and a tree is expanded as before, unless the stack has ended
before; and what denotes an expression is read under every budget that is large enough.

* `Denotes.eventually_read`: a datum that denotes an expression is read, given enough stack.
* `Expr.read_follows`: reading under a larger budget.
* `Naming.Follows`, `Expr.expand_follows`: expansion under a larger budget, with the names that
  it draws.
-/

namespace MiniLisp

open Outcome (Follows)

/-! ## Reading -/

/-- A form is read as its head prescribes. -/
theorem Expr.read_head (b : Nat) (i : ObjectId) (head : Head) (parts : List Datum) :
    read (b + 1) (.list i (.symbol head.text :: parts)) =
      Reader.form b (read b) head parts := by
  have hhead : Reader.head? (.symbol head.text) = some head := Head.ofName?_text head
  unfold read
  dsimp only
  rw [hhead]

theorem mapM_read {b : Nat} {ds : List Datum} {es : List Expr} (hlength : ds.length = es.length)
    (h : ∀ p ∈ ds.zip es, Expr.read b p.1 = .ok p.2) : ds.mapM (Expr.read b) = .ok es := by
  induction ds generalizing es with
  | nil =>
    cases es with
    | nil => rfl
    | cons => cases hlength
  | cons d ds ih =>
    cases es with
    | nil => cases hlength
    | cons e es =>
      rw [List.zip_cons_cons, List.forall_mem_cons] at h
      rw [List.mapM_cons, h.1, ih (Nat.succ.inj hlength) h.2]
      rfl

/-- What denotes an expression is read as this expression, given enough stack. -/
theorem Denotes.eventually_read {d : Datum} {e : Expr} (h : Denotes d e) :
    Eventually fun b => Expr.read b d = .ok e := by
  have hone : ∀ {d : Datum} {e : Expr}, (∀ b, Expr.read (b + 1) d = .ok e) →
      Eventually fun b => Expr.read b d = .ok e :=
    fun h => (Eventually.of_forall fun _ => trivial).succ fun b _ => h b
  induction h with
  | bool | text | yes | no | quote => exact hone fun _ => rfl
  | @number v hv => exact hone fun b => by cases v <;> first | rfl | cases hv
  | name hyes hno =>
    refine hone fun b => ?_
    rw [Expr.read, Reader.symbol, if_neg hyes, if_neg hno]
    rfl
  | define _ ih =>
    refine ih.succ fun b h => (Expr.read_head b _ (.keyword .define) _).trans ?_
    simp only [Reader.form, Reader.symbolAs, pure_bind, h]
    rfl
  | letrec _ _ ih₁ ih₂ =>
    refine (ih₁.and ih₂).succ ?_
    rintro b ⟨h₁, h₂⟩
    refine (Expr.read_head b _ (.keyword .letrec) _).trans ?_
    simp only [Reader.form, Reader.symbolAs, pure_bind, h₁, h₂]
    rfl
  | branch _ _ _ ih₁ ih₂ ih₃ =>
    refine (ih₁.and (ih₂.and ih₃)).succ ?_
    rintro b ⟨h₁, h₂, h₃⟩
    refine (Expr.read_head b _ (.keyword .branch) _).trans ?_
    simp only [Reader.form, h₁, h₂, h₃]
    rfl
  | @begin i ds es hnonempty hlength _ ih =>
    have hall : Eventually fun b => ∀ p ∈ ds.zip es, Expr.read b p.1 = .ok p.2 :=
      .all fun p hp => ih p.1 p.2 hp
    refine hall.succ fun b h => (Expr.read_head b _ (.keyword .begin) _).trans ?_
    obtain ⟨d, ds', rfl⟩ := List.exists_cons_of_ne_nil hnonempty
    have hparts := mapM_read hlength h
    simp only [Reader.form, hparts]
    rfl
  | lambda _ ih =>
    refine ih.succ fun b h => (Expr.read_head b _ (.keyword .lambda) _).trans ?_
    simp only [Reader.form, Reader.symbolAs, pure_bind, h]
    rfl
  | loop _ _ _ _ ih₁ ih₂ ih₃ ih₄ =>
    refine ((ih₁.and ih₂).and (ih₃.and ih₄)).succ ?_
    rintro b ⟨⟨h₁, h₂⟩, h₃, h₄⟩
    refine (Expr.read_head b _ (.keyword .loop) _).trans ?_
    simp only [Reader.form, Reader.pair, Reader.symbolAs, pure_bind, h₁, h₂, h₃, h₄]
    rfl
  | @binary _ op _ _ _ _ _ _ ih₁ ih₂ =>
    refine (ih₁.and ih₂).succ ?_
    rintro b ⟨h₁, h₂⟩
    refine (Expr.read_head b _ (.operator op) _).trans ?_
    simp only [Reader.form, h₁, h₂]
    rfl
  | apply hother _ _ ih₁ ih₂ =>
    refine (ih₁.and ih₂).succ ?_
    rintro b ⟨h₁, h₂⟩
    simp only [Expr.read, hother, h₁, h₂]
    rfl

variable {excused : Stop → Prop} {b b' : Nat}

namespace Reader

/-- A message that shows a datum is made alike. -/
theorem shown_follows {α : Type} (fault : String → Fault) (d : Datum)
    (hb : Stop.Within excused b b') :
    Follows excused Eq (do Outcome.fault (fault (← d.inspect b)) : Outcome α)
      (do Outcome.fault (fault (← d.inspect b'))) := by
  refine (d.inspect_follows hb).bind fun s t hst => ?_
  subst hst
  exact .error _

theorem symbolAs_follows (role : NameRole) (d : Datum) (hb : Stop.Within excused b b') :
    Follows excused Eq (symbolAs b role d) (symbolAs b' role d) := by
  cases d with
  | symbol x => exact .refl _
  | _ => exact shown_follows (.notSymbol role) _ hb

variable {read read' : Datum → Outcome Expr} (hb : Stop.Within excused b b')
  (hread : ∀ d, Follows excused Eq (read d) (read' d))
include hb hread

theorem pair_follows (clause : Clause) (d : Datum) :
    Follows excused Eq (pair b read clause d) (pair b' read' clause d) := by
  unfold pair
  split
  · exact (symbolAs_follows _ _ hb).bind_eq fun x => (hread _).map _
  · exact .error _

theorem form_follows (head : Head) (parts : List Datum) :
    Follows excused Eq (form b read head parts) (form b' read' head parts) := by
  unfold form
  split
  · -- a definition
    exact (symbolAs_follows _ _ hb).bind_eq fun x => (hread _).map _
  · -- a `letrec`
    split
    · refine (symbolAs_follows _ _ hb).bind_eq fun x => ?_
      exact (hread _).bind_eq fun e => (hread _).map _
    · exact .error _
    · exact .error _
  · exact .refl _
  · -- a choice
    exact (hread _).bind_eq fun e₁ => (hread _).bind_eq fun e₂ => (hread _).map _
  · exact .error _
  · -- a sequence
    have hparts : ∀ ds : List Datum, Follows excused Eq (ds.mapM read) (ds.mapM read') := by
      intro ds
      have hds : List.Forall₂ Eq ds ds := List.forall₂_same.mpr fun _ _ => rfl
      exact Outcome.Follows.mapM_eq hds fun d _ hd => hd ▸ hread d
    exact (hparts _).map _
  · -- a procedure
    split
    · exact (symbolAs_follows _ _ hb).bind_eq fun x => (hread _).map _
    · exact .error _
  · -- a loop
    refine (pair_follows hb hread _ _).bind_eq fun p => ?_
    refine (pair_follows hb hread _ _).bind_eq fun q => ?_
    exact (hread _).bind_eq fun e => (hread _).map _
  · -- an operator
    exact (hread _).bind_eq fun e => (hread _).map _
  · exact .error _

end Reader

/-- A datum is read alike under a larger budget, unless the stack has ended. -/
theorem Expr.read_follows (hb : Stop.Within excused b b') (d : Datum) :
    Follows excused Eq (read b d) (read b' d) := by
  induction b generalizing b' d with
  | zero => exact hb.zero_left (fun b => read b d) rfl
  | succ b ih =>
    obtain ⟨c, rfl, hc⟩ := hb.succ_left
    have hread : ∀ d, Follows excused Eq (read b d) (read c d) := fun d => ih hc d
    cases d with
    | bool | int | frac | float | text | symbol => exact .refl _
    | list i items =>
      cases items with
      | nil => exact .refl _
      | cons first parts =>
        unfold read
        dsimp only
        split
        · exact Reader.form_follows hc hread _ _
        · split
          · exact (hread _).bind_eq fun e => (hread _).map _
          · exact .error _
    | _ => exact Reader.shown_follows .malformed _ hc

/-! ## Expansion -/

/-- The second computation ends as the first one does and draws the same names, unless the first
    is excused. -/
def Naming.Follows {α : Type} (excused : Stop → Prop) (x y : Naming α) : Prop :=
  ∀ names, Outcome.Excused excused (x.exec names).1 ∨ y.exec names = x.exec names

namespace Naming.Follows

variable {α β : Type}

theorem refl (x : Naming α) : Naming.Follows excused x x := fun _ => .inr rfl

theorem ofOutcome {x y : Outcome α} (h : Outcome.Follows excused Eq x y) :
    Naming.Follows excused (Naming.ofOutcome x) (Naming.ofOutcome y) := by
  intro names
  refine h.imp id fun hrel => ?_
  rw [Outcome.rel_eq_iff.mp hrel]

protected theorem bind {x y : Naming α} {f g : α → Naming β} (h : Naming.Follows excused x y)
    (hfg : ∀ a, Naming.Follows excused (f a) (g a)) :
    Naming.Follows excused (x >>= f) (y >>= g) := by
  intro names
  rw [exec_bind, exec_bind]
  obtain ⟨r, names', hx⟩ : ∃ r names', x.exec names = (r, names') := ⟨_, _, rfl⟩
  have hxy := h names
  rw [hx] at hxy ⊢
  rcases hxy with ⟨s, hs, hexcused⟩ | hy
  · dsimp only at hs
    subst hs
    exact .inl ⟨s, rfl, hexcused⟩
  · rw [hy]
    cases r with
    | ok a => exact hfg a names'
    | error s => exact .inr rfl

protected theorem map {x y : Naming α} (h : Naming.Follows excused x y) (f : α → β) :
    Naming.Follows excused (x >>= fun a => pure (f a)) (y >>= fun a => pure (f a)) :=
  h.bind fun _ => .refl _

protected theorem mapM {ι : Type} {f g : ι → Naming α}
    (hfg : ∀ i, Naming.Follows excused (f i) (g i)) (is : List ι) :
    Naming.Follows excused (is.mapM f) (is.mapM g) := by
  induction is with
  | nil => exact .refl _
  | cons i is ih =>
    rw [List.mapM_cons, List.mapM_cons]
    exact (hfg i).bind fun _ => ih.map _

end Naming.Follows

namespace Expr

theorem expandLoops_follows (hb : Stop.Within excused b b') (e : Expr) :
    Naming.Follows excused (e.expandLoops b) (e.expandLoops b') := by
  induction b generalizing b' e with
  | zero =>
    rcases hb with rfl | ⟨hexcused, _⟩
    · exact .refl _
    · exact fun names => .inl ⟨_, rfl, hexcused⟩
  | succ b ih =>
    obtain ⟨c, rfl, hc⟩ := hb.succ_left
    have ih : ∀ e : Expr, Naming.Follows excused (e.expandLoops b) (e.expandLoops c) :=
      fun e => ih hc e
    cases e with
    | numeral | text | truth | name | quote => exact .refl _
    | stray d =>
      exact (Naming.Follows.ofOutcome (d.inspect_follows hc)).bind fun _ => .refl _
    | define x e | lambda x e => exact (ih e).map _
    | letrec x e₁ e₂ | binary op e₁ e₂ | apply e₁ e₂ =>
      exact (ih e₁).bind fun _ => (ih e₂).map _
    | branch e₁ e₂ e₃ => exact (ih e₁).bind fun _ => (ih e₂).bind fun _ => (ih e₃).map _
    | begin es => exact (Naming.Follows.mapM ih es).map _
    | loop i start test assigned update body =>
      rw [expandLoops, expandLoops]
      split
      · exact .refl _
      · refine (Naming.Follows.refl _).bind fun f => (ih update).bind fun _ => ?_
        exact (ih test).bind fun _ => (ih body).bind fun _ => (ih start).map _

theorem reserveNames_follows (hb : Stop.Within excused b b') (e : Expr) :
    Naming.Follows excused (e.reserveNames b) (e.reserveNames b') := by
  rcases hb with rfl | ⟨hexcused, hle⟩
  · exact .refl _
  · intro names
    rcases Nat.lt_or_ge b e.height with hlt | hge
    · exact .inl ⟨_, (listing_of_lt_height hlt).1, hexcused⟩
    · rw [exec_reserveNames, exec_reserveNames, listing_of_height_le hge,
        listing_of_height_le (hge.trans hle)]
      exact .inr rfl

/-- A tree is expanded alike under a larger budget, unless the stack has ended. -/
theorem expand_follows (hb : Stop.Within excused b b') (e : Expr) :
    Naming.Follows excused (e.expand b) (e.expand b') :=
  (e.reserveNames_follows hb).bind fun _ => e.expandLoops_follows hb

theorem expand_ok_of_le {e e' : Expr} {names names' : FreshNames}
    (h : (e.expand b).exec names = (.ok e', names')) (hb : b ≤ b') :
    (e.expand b').exec names = (.ok e', names') := by
  have hwithin : Stop.Within (· = .exhausted) b b' := .inr ⟨rfl, hb⟩
  rcases expand_follows hwithin e names with ⟨s, hs, _⟩ | heq
  · rw [h] at hs
    cases hs
  · exact heq.trans h

end Expr

end MiniLisp
