import MiniLisp.Proofs.Expansion
import Mathlib.Data.Set.Function

/-!
# Expansions under different names

Two expansions of one expression differ in the names of loops only. The names are drawn in
the same order, so the renaming takes the names of the one expansion to those of the other in
order; and whether expansion succeeds does not depend on the names at all.

* `Expr.rename`: an expression under other names.
* `Expr.Expands.rename_eq`: the one expansion is the other one under other names.
* `Expr.expand_rename`: expansions from two supplies of names fail alike, or are equal up to a
  one-to-one renaming that keeps the names of the expression.
-/

namespace MiniLisp

namespace Expr

mutual

/-- The expression with all its names replaced; data stay as they are. -/
def rename (ρ : String → String) : Expr → Expr
  | name x => name (ρ x)
  | define x e => define (ρ x) (e.rename ρ)
  | letrec x e₁ e₂ => letrec (ρ x) (e₁.rename ρ) (e₂.rename ρ)
  | binary op e₁ e₂ => binary op (e₁.rename ρ) (e₂.rename ρ)
  | branch e₁ e₂ e₃ => branch (e₁.rename ρ) (e₂.rename ρ) (e₃.rename ρ)
  | begin es => begin (renameAll ρ es)
  | lambda x e => lambda (ρ x) (e.rename ρ)
  | apply e₁ e₂ => apply (e₁.rename ρ) (e₂.rename ρ)
  | loop i e₁ e₂ u e₃ e₄ =>
    loop (ρ i) (e₁.rename ρ) (e₂.rename ρ) (ρ u) (e₃.rename ρ) (e₄.rename ρ)
  | numeral v => numeral v
  | text s => text s
  | truth b => truth b
  | quote d => quote d
  | stray d => stray d

/-- Several expressions with their names replaced. -/
def renameAll (ρ : String → String) : List Expr → List Expr
  | [] => []
  | e :: es => e.rename ρ :: renameAll ρ es

end

namespace Expands

variable {used : List String} {frames : FrameId → Prop} {gs hs : List String} {e e₁ e₂ : Expr}

/-- An expression has one name for each of its loops. -/
theorem length_eq (h₁ : Expands used frames gs e e₁) (h₂ : Expands used frames hs e e₂) :
    gs.length = hs.length := by
  induction h₁ generalizing hs e₂ with
  | numeral _ | text | truth | name _ | quote _ | beginNil => cases h₂; rfl
  | define _ _ ih => cases h₂ with | define _ h => exact ih h
  | lambda _ _ ih => cases h₂ with | lambda _ h => exact ih h
  | letrec _ _ _ ih ih' =>
    cases h₂ with
    | letrec _ h h' => rw [List.length_append, List.length_append, ih h, ih' h']
  | binary _ _ ih ih' =>
    cases h₂ with
    | binary h h' => rw [List.length_append, List.length_append, ih h, ih' h']
  | apply _ _ ih ih' =>
    cases h₂ with
    | apply h h' => rw [List.length_append, List.length_append, ih h, ih' h']
  | beginCons _ _ ih ih' =>
    cases h₂ with
    | beginCons h h' => rw [List.length_append, List.length_append, ih h, ih' h']
  | branch _ _ _ ih ih' ih'' =>
    cases h₂ with
    | branch h h' h'' => simp only [List.length_append, ih h, ih' h', ih'' h'']
  | loop _ _ _ _ _ _ ihu iht ihb ihs =>
    cases h₂ with
    | loop _ _ hu ht hb hs =>
      simp only [List.length_cons, List.length_append, ihu hu, iht ht, ihb hb, ihs hs]

theorem notMem_used (h : Expands used frames gs e e₁) {g : String} (hg : g ∈ gs) : g ∉ used := by
  induction h with
  | numeral _ | text | truth | name _ | quote _ | beginNil => cases hg
  | define _ _ ih | lambda _ _ ih => exact ih hg
  | letrec _ _ _ ih ih' | binary _ _ ih ih' | apply _ _ ih ih' | beginCons _ _ ih ih' =>
    exact (List.mem_append.mp hg).elim ih ih'
  | branch _ _ _ ih ih' ih'' =>
    simp only [List.mem_append] at hg
    exact hg.elim ih fun hg => hg.elim ih' ih''
  | loop _ hfresh _ _ _ _ ihu iht ihb ihs =>
    simp only [List.mem_cons, List.mem_append] at hg
    rcases hg with rfl | hg | hg | hg | hg
    · exact hfresh
    · exact ihu hg
    · exact iht hg
    · exact ihb hg
    · exact ihs hg

/-- The names of an expansion are those of the expression and those of its loops. -/
theorem mem_symbols (h : Expands used frames gs e e₁) {x : String} (hx : x ∈ e₁.symbols) :
    x ∈ used ∨ x ∈ gs := by
  induction h with
  | numeral _ | text | truth | quote _ | beginNil => cases hx
  | name huse => exact .inl (List.mem_singleton.mp hx ▸ huse)
  | define huse _ ih | lambda huse _ ih =>
    rcases List.mem_cons.mp hx with rfl | hx
    · exact .inl huse
    · exact ih hx
  | letrec huse _ _ ih ih' =>
    simp only [symbols, List.mem_cons, List.mem_append] at hx ⊢
    grind
  | binary _ _ ih ih' | apply _ _ ih ih' =>
    simp only [symbols, List.mem_append] at hx ⊢
    grind
  | beginCons _ _ ih ih' =>
    simp only [symbols, allSymbols, List.mem_append] at hx ih' ⊢
    grind
  | branch _ _ _ ih ih' ih'' =>
    simp only [symbols, List.mem_append] at hx ⊢
    grind
  | loop huse _ _ _ _ _ ihu iht ihb ihs =>
    simp only [ofLoop, symbols, allSymbols, List.mem_cons, List.mem_append, List.append_nil] at hx ⊢
    grind

/-- One expansion is the other one under other names. -/
theorem rename_eq (h₁ : Expands used frames gs e e₁) (h₂ : Expands used frames hs e e₂)
    {ρ : String → String} (hmap : gs.map ρ = hs) (hfix : ∀ x ∈ used, ρ x = x) :
    e₁.rename ρ = e₂ := by
  have hsplit : ∀ {as bs cs ds : List String}, (as ++ bs).map ρ = cs ++ ds →
      as.length = cs.length → as.map ρ = cs ∧ bs.map ρ = ds := by
    intro as bs cs ds h hlen
    rw [List.map_append] at h
    exact List.append_inj h (by rw [List.length_map, hlen])
  induction h₁ generalizing hs e₂ with
  | numeral _ | text | truth | quote _ | beginNil => cases h₂; rfl
  | name huse =>
    cases h₂
    rw [rename, hfix _ huse]
  | define huse _ ih =>
    cases h₂ with
    | define _ h => rw [rename, hfix _ huse, ih h hmap]
  | lambda huse _ ih =>
    cases h₂ with
    | lambda _ h => rw [rename, hfix _ huse, ih h hmap]
  | letrec huse hb _ ih ih' =>
    cases h₂ with
    | letrec _ h h' =>
      obtain ⟨hm, hm'⟩ := hsplit hmap (hb.length_eq h)
      rw [rename, hfix _ huse, ih h hm, ih' h' hm']
  | binary hl _ ih ih' =>
    cases h₂ with
    | binary h h' =>
      obtain ⟨hm, hm'⟩ := hsplit hmap (hl.length_eq h)
      rw [rename, ih h hm, ih' h' hm']
  | apply hc _ ih ih' =>
    cases h₂ with
    | apply h h' =>
      obtain ⟨hm, hm'⟩ := hsplit hmap (hc.length_eq h)
      rw [rename, ih h hm, ih' h' hm']
  | branch ht hy _ ih ih' ih'' =>
    cases h₂ with
    | branch h h' h'' =>
      obtain ⟨hm, hmap⟩ := hsplit hmap (ht.length_eq h)
      obtain ⟨hm', hm''⟩ := hsplit hmap (hy.length_eq h')
      rw [rename, ih h hm, ih' h' hm', ih'' h'' hm'']
  | beginCons he _ ih ih' =>
    cases h₂ with
    | beginCons h h' =>
      obtain ⟨hm, hm'⟩ := hsplit hmap (he.length_eq h)
      have htail := ih' h' hm'
      rw [rename] at htail
      injection htail with htail
      rw [rename, renameAll, ih h hm, htail]
  | loop huse _ hu ht hb _ ihu iht ihb ihs =>
    cases h₂ with
    | loop _ _ hu' ht' hb' hs' =>
      rw [List.map_cons, List.cons.injEq] at hmap
      obtain ⟨hg, hmap⟩ := hmap
      obtain ⟨hmu, hmap⟩ := hsplit hmap (hu.length_eq hu')
      obtain ⟨hmt, hmap⟩ := hsplit hmap (ht.length_eq ht')
      obtain ⟨hmb, hms⟩ := hsplit hmap (hb.length_eq hb')
      simp only [ofLoop, rename, renameAll, hg, hfix _ huse, ihu hu' hmu, iht ht' hmt, ihb hb' hmb,
        ihs hs' hms]

end Expands

/-! ## The renaming -/

/-- Takes the names of one list to those of another one, in order. -/
def replace (gs hs : List String) (x : String) : String := ((gs.zip hs).lookup x).getD x

theorem replace_of_notMem {gs hs : List String} {x : String} (hx : x ∉ gs) :
    replace gs hs x = x := by
  have hnone : (gs.zip hs).lookup x = none := by
    rw [List.lookup_eq_none_iff]
    rintro ⟨y, z⟩ hyz
    have hne : x ≠ y := fun heq => hx (heq ▸ (List.of_mem_zip hyz).1)
    simp [hne]
  rw [replace, hnone, Option.getD_none]

theorem map_replace {gs hs : List String} (hnodup : gs.Nodup) (hlen : gs.length = hs.length) :
    gs.map (replace gs hs) = hs := by
  induction gs generalizing hs with
  | nil => exact (List.length_eq_zero_iff.mp hlen.symm).symm
  | cons g gs ih =>
    obtain ⟨h, hs, rfl⟩ := List.exists_cons_of_length_eq_add_one hlen.symm
    obtain ⟨hg, hnodup⟩ := List.nodup_cons.mp hnodup
    have hhead : replace (g :: gs) (h :: hs) g = h := by
      simp [replace]
    have htail : gs.map (replace (g :: gs) (h :: hs)) = gs.map (replace gs hs) := by
      refine List.map_congr_left fun x hx => ?_
      have hxg : (x == g) = false := by
        rw [beq_eq_false_iff_ne]
        rintro rfl
        exact hg hx
      simp only [replace, List.zip_cons_cons, List.lookup_cons, hxg]
    rw [List.map_cons, hhead, htail, ih hnodup (Nat.succ.inj hlen)]

/-- A renaming is one-to-one if it fixes some names and takes the others, which are different,
    to different ones that are not among these. -/
theorem injOn_of_map {used gs : List String} {ρ : String → String} (hfix : ∀ x ∈ used, ρ x = x)
    (hnodup : (gs.map ρ).Nodup) (hfresh : ∀ g ∈ gs.map ρ, g ∉ used) :
    Set.InjOn ρ {x | x ∈ used ∨ x ∈ gs} := by
  have hmixed : ∀ {x y}, x ∈ used → y ∈ gs → ρ x ≠ ρ y := by
    intro x y hx hy heq
    rw [hfix x hx] at heq
    exact hfresh (ρ y) (List.mem_map_of_mem hy) (heq ▸ hx)
  rintro x (hx | hx) y (hy | hy) heq
  · rw [← hfix x hx, ← hfix y hy, heq]
  · exact absurd heq (hmixed hx hy)
  · exact absurd heq.symm (hmixed hy hx)
  · exact List.inj_on_of_nodup_map hnodup hx hy heq

/-! ## Failure does not depend on names -/

end Expr

/-- Both computations give related answers or stop for the same reason, whatever the supplies
    of names. -/
def Naming.Parallel {α β : Type} (R : α → β → Prop) (x : Naming α) (y : Naming β) : Prop :=
  ∀ names₁ names₂, Outcome.Rel R (x.exec names₁).1 (y.exec names₂).1

namespace Naming.Parallel

variable {α β γ δ : Type} {R : α → β → Prop} {Q : γ → δ → Prop}

protected theorem pure {a : α} {b : β} (h : R a b) : Parallel R (Pure.pure a) (Pure.pure b) :=
  fun _ _ => h

theorem throw (s : Stop) : Parallel R (throw s) (throw s) := fun _ _ => rfl

theorem ofOutcome (x : Outcome α) : Parallel Eq (ofOutcome x) (ofOutcome x) :=
  fun _ _ => Outcome.rel_eq_iff.mpr rfl

theorem freshName : Parallel (fun _ _ => True) freshName freshName := fun _ _ => trivial

protected theorem bind {x : Naming α} {y : Naming β} {f : α → Naming γ} {g : β → Naming δ}
    (h : Parallel R x y) (hfg : ∀ a b, R a b → Parallel Q (f a) (g b)) :
    Parallel Q (x >>= f) (y >>= g) := by
  intro names₁ names₂
  have hxy := h names₁ names₂
  rw [exec_bind, exec_bind]
  obtain ⟨r₁, n₁, hx⟩ : ∃ r₁ n₁, x.exec names₁ = (r₁, n₁) := ⟨_, _, rfl⟩
  obtain ⟨r₂, n₂, hy⟩ : ∃ r₂ n₂, y.exec names₂ = (r₂, n₂) := ⟨_, _, rfl⟩
  rw [hx, hy] at hxy ⊢
  cases r₁ with
  | ok a =>
    obtain ⟨b, hb, hab⟩ := hxy.ok_left
    dsimp only at hb
    subst hb
    exact hfg a b hab n₁ n₂
  | error s =>
    have hr₂ : r₂ = .error s := hxy.error_left
    subst hr₂
    rfl

protected theorem mapM {ι : Type} {f : ι → Naming α} {g : ι → Naming β}
    (hfg : ∀ i, Parallel (fun _ _ => True) (f i) (g i)) (is : List ι) :
    Parallel (fun _ _ => True) (is.mapM f) (is.mapM g) := by
  induction is with
  | nil => exact .pure trivial
  | cons i is ih =>
    rw [List.mapM_cons, List.mapM_cons]
    exact (hfg i).bind fun _ _ _ => ih.bind fun _ _ _ => .pure trivial

end Naming.Parallel

namespace Expr

theorem expandLoops_parallel (b : Nat) (e : Expr) :
    Naming.Parallel (fun _ _ => True) (e.expandLoops b) (e.expandLoops b) := by
  induction b generalizing e with
  | zero => exact .throw _
  | succ b ih =>
    cases e with
    | numeral _ | text _ | truth _ | name _ | quote _ => exact .pure trivial
    | stray d => exact (Naming.Parallel.ofOutcome _).bind fun s _ hst => hst ▸ .throw _
    | define x e | lambda x e => exact (ih e).bind fun _ _ _ => .pure trivial
    | letrec x e₁ e₂ | binary op e₁ e₂ | apply e₁ e₂ =>
      exact (ih e₁).bind fun _ _ _ => (ih e₂).bind fun _ _ _ => .pure trivial
    | branch e₁ e₂ e₃ =>
      refine (ih e₁).bind fun _ _ _ => (ih e₂).bind fun _ _ _ => ?_
      exact (ih e₃).bind fun _ _ _ => .pure trivial
    | begin es => exact (Naming.Parallel.mapM ih es).bind fun _ _ _ => .pure trivial
    | loop i start test assigned update body =>
      rw [expandLoops]
      split
      · exact .throw _
      · refine Naming.Parallel.freshName.bind fun _ _ _ => ?_
        refine (ih update).bind fun _ _ _ => (ih test).bind fun _ _ _ => ?_
        exact (ih body).bind fun _ _ _ => (ih start).bind fun _ _ _ => .pure trivial

theorem expand_parallel (budget : Nat) (e : Expr) :
    Naming.Parallel (fun _ _ => True) (e.expand budget) (e.expand budget) := by
  have hreserve : Naming.Parallel Eq (e.reserveNames budget) (e.reserveNames budget) :=
    fun _ _ => Outcome.rel_eq_iff.mpr rfl
  exact hreserve.bind fun _ _ _ => expandLoops_parallel budget e

/-- Expansions from two supplies of names fail alike, or are equal up to a one-to-one renaming
    that fixes the names of the expression. -/
theorem expand_rename (budget : Nat) (e : Expr) (names₁ names₂ : FreshNames) :
    Outcome.Rel
      (fun e₁ e₂ => ∃ ρ : String → String, (∀ x ∈ e.symbols, ρ x = x) ∧
        Set.InjOn ρ {x | x ∈ e₁.symbols} ∧ e₁.rename ρ = e₂)
      ((e.expand budget).exec names₁).1 ((e.expand budget).exec names₂).1 := by
  have hrel := expand_parallel budget e names₁ names₂
  obtain ⟨r₁, n₁, h₁⟩ : ∃ r n, (e.expand budget).exec names₁ = (r, n) := ⟨_, _, rfl⟩
  obtain ⟨r₂, n₂, h₂⟩ : ∃ r n, (e.expand budget).exec names₂ = (r, n) := ⟨_, _, rfl⟩
  rw [h₁, h₂] at hrel ⊢
  cases r₁ with
  | error s =>
    have hr₂ : r₂ = .error s := hrel.error_left
    subst hr₂
    rfl
  | ok e₁ =>
    obtain ⟨e₂, he₂, _⟩ := hrel.ok_left
    dsimp only at he₂
    subst he₂
    obtain ⟨gs, hgs, hexp₁⟩ := expand_expands (closuresIn_of_forall (fun _ => trivial) e) h₁
    obtain ⟨hs, hhs, hexp₂⟩ := expand_expands (closuresIn_of_forall (fun _ => trivial) e) h₂
    have hmap := map_replace hgs.nodup (hexp₁.length_eq hexp₂)
    have hfix : ∀ x ∈ e.vocabulary, replace gs hs x = x :=
      fun x hx => replace_of_notMem fun hmem => hexp₁.notMem_used hmem hx
    have hnodup : (gs.map (replace gs hs)).Nodup := by
      rw [hmap]
      exact hhs.nodup
    have hfresh : ∀ g ∈ gs.map (replace gs hs), g ∉ e.vocabulary := by
      rw [hmap]
      exact fun g hg => hexp₂.notMem_used hg
    exact ⟨replace gs hs, fun x hx => hfix x (List.mem_cons_of_mem _ hx),
      (injOn_of_map hfix hnodup hfresh).mono fun x hx => hexp₁.mem_symbols hx,
      hexp₁.rename_eq hexp₂ hmap hfix⟩

end Expr

end MiniLisp
