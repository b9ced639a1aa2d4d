import Mathlib
import MiniLisp.Proofs.Discipline
import MiniLisp.Proofs.Reading
import MiniLisp.Proofs.Stops

/-!
# Programs that are read and expanded are well-formed

What the reader accepts and expansion leaves is a tree in which every node can be evaluated:
there is no loop and no datum in it, sequences have parts, and operators exist. All code that
runs comes from such trees, since data hold no procedures, so a run never meets a malformed node.

* `Expr.Core`: the trees in which every node can be evaluated.
* `Expr.expand_core`: expansion of what was read gives such a tree.
* `accepted_programs_stay_wellformed`: no malformed node is reached, and the only faults of form
  are that something is not a procedure.
-/

namespace MiniLisp

namespace Expr

/-- What is said of one node of a tree that can be evaluated. -/
def CoreNode (e : Expr) : Prop :=
  ¬ e.Malformed ∧
    match e with
    | .numeral d | .quote d => d.isProcedure = false
    | _ => True

/-- Every node of a tree can be evaluated, and no datum in it is a procedure. -/
def Core (e : Expr) : Prop := e.Each CoreNode

/-- The quoted data in an expression hold no procedures. -/
def QuotesNoProcedure (e : Expr) : Prop :=
  e.Each fun
    | .quote d => d.Each fun v => v.isProcedure = false
    | _ => True

theorem core_ofLoop {f i : String} {start test update body : Expr} (hstart : start.Core)
    (htest : test.Core) (hupdate : update.Core) (hbody : body.Core) :
    (ofLoop f i start test update body).Core := by
  have hnode : ∀ {e : Expr}, e.Core → e.Each CoreNode := fun h => h
  simp [Core, ofLoop, Each, EachOf, CoreNode, Malformed, loopResult, Value.isProcedure,
    hnode hstart, hnode htest, hnode hupdate, hnode hbody]

variable {used : List String} {frames : FrameId → Prop} {gs : List String} {e e' : Expr}

/-- The parts of a sequence can be evaluated once they are expanded. Said of a tree that is not a
    sequence, this says nothing. -/
def PartsCore (e e' : Expr) : Prop :=
  ∀ es, e = .begin es → ∃ es', e' = .begin es' ∧ es'.length = es.length ∧
    ((∀ p ∈ es, p.Readable ∧ p.QuotesNoProcedure) → ∀ p ∈ es', p.Core)

/-- The expansion of a readable tree can be evaluated. A sequence is expanded part by part, and
    what is left of it may be empty, so its parts are followed on the side. -/
theorem Expands.core (h : Expands used frames gs e e') :
    PartsCore e e' ∧ (e.Readable → e.QuotesNoProcedure → e'.Core) := by
  induction h with
  | @numeral v =>
    refine ⟨nofun, fun hread _ => ⟨id, ?_⟩⟩
    have hv : v.isNumber = true := hread
    cases v <;> first | rfl | cases hv
  | text | truth | name => exact ⟨nofun, fun _ _ => ⟨id, trivial⟩⟩
  | quote => exact ⟨nofun, fun _ hquote => ⟨id, Value.Each.self hquote⟩⟩
  | define _ _ ih | lambda _ _ ih =>
    exact ⟨nofun, fun hread hquote => ⟨⟨id, trivial⟩, ih.2 hread.2 hquote.2⟩⟩
  | letrec _ _ _ ih₁ ih₂ | apply _ _ ih₁ ih₂ =>
    exact ⟨nofun, fun hread hquote =>
      ⟨⟨id, trivial⟩, ih₁.2 hread.2.1 hquote.2.1, ih₂.2 hread.2.2 hquote.2.2⟩⟩
  | binary _ _ ih₁ ih₂ =>
    refine ⟨nofun, fun hread hquote => ⟨⟨?_, trivial⟩, ih₁.2 hread.2.1 hquote.2.1,
      ih₂.2 hread.2.2 hquote.2.2⟩⟩
    obtain ⟨o, ho⟩ := hread.1
    intro hnone
    cases ho.symm.trans hnone
  | branch _ _ _ ih₁ ih₂ ih₃ =>
    exact ⟨nofun, fun hread hquote => ⟨⟨id, trivial⟩, ih₁.2 hread.2.1 hquote.2.1,
      ih₂.2 hread.2.2.1 hquote.2.2.1, ih₃.2 hread.2.2.2 hquote.2.2.2⟩⟩
  | beginNil =>
    refine ⟨?_, fun hread _ => absurd rfl hread.1⟩
    rintro es ⟨⟩
    exact ⟨[], rfl, rfl, fun _ => nofun⟩
  | @beginCons _ _ e e' es es' _ _ ih₁ ih₂ =>
    obtain ⟨_, ⟨⟩, hlength, hparts⟩ := ih₂.1 es rfl
    have hall : (∀ p ∈ e :: es, p.Readable ∧ p.QuotesNoProcedure) → ∀ p ∈ e' :: es', p.Core := by
      intro h
      rw [List.forall_mem_cons] at h ⊢
      exact ⟨ih₁.2 h.1.1 h.1.2, hparts h.2⟩
    refine ⟨?_, fun hread hquote => ⟨⟨nofun, trivial⟩, eachOf_iff.mpr (hall fun p hp => ?_)⟩⟩
    · rintro _ ⟨⟩
      exact ⟨e' :: es', rfl, by simp [hlength], hall⟩
    · exact ⟨eachOf_iff.mp hread.2 p hp, eachOf_iff.mp hquote.2 p hp⟩
  | loop _ _ _ _ _ _ ih₁ ih₂ ih₃ ih₄ =>
    refine ⟨nofun, fun hread hquote => core_ofLoop ?_ ?_ ?_ ?_⟩
    · exact ih₄.2 hread.2.1 hquote.2.1
    · exact ih₂.2 hread.2.2.1 hquote.2.2.1
    · exact ih₁.2 hread.2.2.2.1 hquote.2.2.2.1
    · exact ih₃.2 hread.2.2.2.2 hquote.2.2.2.2

theorem expand_core {b b' : Nat} {d : Datum} {names : FreshNames} (hread : read b d = .ok e)
    (hquote : e.QuotesNoProcedure) (h : ((e.expand b').exec names).1 = .ok e') : e'.Core := by
  have hdata : e.ClosuresIn fun _ => True := closuresIn_of_forall (fun _ => trivial) e
  obtain ⟨_, _, hexpands⟩ := expand_expands hdata (Prod.ext h rfl)
  exact hexpands.core.2 (read_readable hread) hquote

end Expr

/-! ## Runs -/

/-- Trees in which every node can be evaluated, whatever names are bound to. -/
def Discipline.core : Discipline where
  code := Expr.Core
  placeholder := True
  hereditary := by
    have hdata : ∀ {d : Datum}, d.isProcedure = false →
        (d = .unassigned → True) ∧ ∀ i x e f, d ≠ .closure i x e f := by
      intro d hd
      refine ⟨fun _ => trivial, ?_⟩
      rintro i x e f rfl
      cases hd
    exact Expr.each_hereditary (fun h => hdata h.2) fun h => hdata h.2

/-- From a new root frame, code whose nodes can all be evaluated meets no other node. -/
theorem Expr.Core.not_malformed {e : Expr} (he : e.Core) {m : Machine} {k : Nat} {q : Point}
    (h : Point.Visits ⟨k, e, m.heap.size, m.withRoot, []⟩ q) : ¬ q.code.Malformed := by
  have hstart : Discipline.core.AtPoint {m.heap.size} ⟨k, e, m.heap.size, m.withRoot, []⟩ :=
    ⟨he, rfl, Discipline.holds_root m⟩
  obtain ⟨_, _, hq⟩ := hstart.visits h
  exact (Expr.Each.self hq.code).1

/-- For a program that the reader and expansion accept and whose quoted data hold no procedures,
    no evaluation that a run of any length enters, in a new root frame, is that of a malformed
    node: a loop, a datum, a sequence without parts or an operator that does not exist. So whatever
    bounds a run has, a fault of form in it is raised where something is applied that is not a
    procedure, or where a `letrec` binds something that is not one. -/
theorem accepted_programs_stay_wellformed {b b' : Nat} {d : Datum} {e e' : Expr}
    {names : FreshNames} (hread : Expr.read b d = .ok e) (hquote : e.QuotesNoProcedure)
    (hexpand : ((e.expand b').exec names).1 = .ok e') (m : Machine) :
    (∀ k q, Point.Visits ⟨k, e', m.heap.size, m.withRoot, []⟩ q → ¬ q.code.Malformed) ∧
    ∀ rounds budget fault n,
      (Eval.newRoot >>= evaluate rounds budget e').exec m = (.error (.fault fault), n) →
      fault.kind = .illFormed →
      ∃ k q, Point.Visits ⟨k, e', m.heap.size, m.withRoot, []⟩ q ∧ q.Raises (.fault fault) n ∧
        ((∃ e₁ e₂ shown, q.code = .apply e₁ e₂ ∧ fault = .notProcedure shown) ∨
          ∃ x e₁ e₂ shown, q.code = .letrec x e₁ e₂ ∧ fault = .bindingValue x shown) := by
  have hcore : e'.Core := Expr.expand_core hread hquote hexpand
  refine ⟨fun k q => hcore.not_malformed, fun rounds budget fault n hrun hkind => ?_⟩
  rw [Eval.exec_bind_ok (Eval.exec_newRoot m)] at hrun
  obtain ⟨k, q, hvisits, hraises⟩ := Point.exists_raises_of_evaluate hrun
  refine ⟨k, q, hvisits, hraises, ?_⟩
  cases hraises.cause rfl with
  | notProcedure hcode => exact .inl ⟨_, _, _, hcode, rfl⟩
  | bindingValue hcode => exact .inr ⟨_, _, _, _, hcode, rfl⟩
  | malformed hcode => exact absurd hcode (hcore.not_malformed hvisits)
  | arithmetic h => cases h.symm.trans hkind
  | unbound | uninitialised | tooLong | vanishing => cases hkind

namespace CoreForms

/-- `(for (i 0) (< i 1) (i (+ i 1)) (#t i))`, whose body applies a truth value. -/
def program : Datum :=
  .list 0 [.symbol "for", .list 1 [.symbol "i", .int 0], .list 2 [.symbol "<", .symbol "i", .int 1],
    .list 3 [.symbol "i", .list 4 [.symbol "+", .symbol "i", .int 1]],
    .list 5 [.symbol "#t", .symbol "i"]]

/-- The tree that is read from it. -/
def tree : Expr :=
  .loop "i" (.numeral (.int 0)) (.binary "<" (.name "i") (.numeral (.int 1))) "i"
    (.binary "+" (.name "i") (.numeral (.int 1))) (.apply (.truth true) (.name "i"))

/-- The tree with its loop expanded. -/
def expanded : Expr :=
  .ofLoop "loop%1" "i" (.numeral (.int 0)) (.binary "<" (.name "i") (.numeral (.int 1)))
    (.binary "+" (.name "i") (.numeral (.int 1))) (.apply (.truth true) (.name "i"))

end CoreForms

/-- A loop is read, expanded and run, and its body stops it where it applies a truth value. -/
theorem accepted_programs_stay_wellformed_loop :
    Expr.read 20 CoreForms.program = .ok CoreForms.tree ∧ CoreForms.tree.QuotesNoProcedure ∧
    ((CoreForms.tree.expand 20).exec { stem := "loop" }).1 = .ok CoreForms.expanded ∧
    ((Eval.newRoot >>= evaluate 20 20 CoreForms.expanded).exec {}).1 =
      .error (.fault (.notProcedure "True")) ∧
    ∃ k q, Point.Visits ⟨k, CoreForms.expanded, 0, ({} : Machine).withRoot, []⟩ q ∧
      ∃ e₁ e₂, q.code = .apply e₁ e₂ := by
  have hread : Expr.read 20 CoreForms.program = .ok CoreForms.tree := by cbv
  have hquote : CoreForms.tree.QuotesNoProcedure := by
    simp [CoreForms.tree, Expr.QuotesNoProcedure, Expr.Each]
  have hexpand : ((CoreForms.tree.expand 20).exec { stem := "loop" }).1 = .ok CoreForms.expanded := by
    cbv
  have hfault : ((Eval.newRoot >>= evaluate 20 20 CoreForms.expanded).exec {}).1 =
      .error (.fault (.notProcedure "True")) := by cbv
  refine ⟨hread, hquote, hexpand, hfault, ?_⟩
  obtain ⟨k, q, hvisits, _, hcause⟩ := (accepted_programs_stay_wellformed hread hquote hexpand {}).2
    20 20 _ _ (Prod.ext hfault rfl) rfl
  rcases hcause with ⟨e₁, e₂, _, hcode, _⟩ | ⟨_, _, _, _, _, hbinding⟩
  · exact ⟨k, q, hvisits, e₁, e₂, hcode⟩
  · cases hbinding

end MiniLisp
