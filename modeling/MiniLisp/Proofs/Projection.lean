import MiniLisp.Proofs.Hygiene
import MiniLisp.Proofs.Texts

/-!
# Expansion is a projection onto trees without loops

Expansion refuses two kinds of nodes: a loop that assigns another variable than its own, and a
datum in the place of an expression. It stops at the first of these that it comes to. A tree
without them is expanded, if the stack is deep enough, to a tree without loops, and such trees are
left as they are.

The message for a datum shows it, and fails to be made where the datum holds an integer of more
than 4300 digits. This is the only case in which a refused tree is not refused for its form.

* `Expr.offends`, `Expr.Refused`: the nodes that are refused, and for what.
* `Expr.expand_judged`: how expansion ends is decided by the first node that it refuses.
* `Expr.Expands.forall_nodes`: no node of an expansion is a loop or a datum.
* `expansion_projects_onto_core`: when expansion succeeds, how else it ends, and what it gives.
* `datum_too_long_to_refuse`: a datum that is not refused for its form.
-/

namespace MiniLisp

namespace Expr

/-- Whether expansion refuses a node, apart from its parts. -/
def offends : Expr → Bool
  | loop i _ _ u _ _ => u ≠ i
  | stray _ => true
  | _ => false

/-- The fault for which a node is refused. -/
inductive Refused : Expr → Fault → Prop
  | loop {i u : String} {start test update body : Expr} :
      Refused (.loop i start test u update body) (.loopVariable i u)
  | shown {d : Datum} {text : String} {b : Nat} (shown : d.inspect b = .ok text) :
      Refused (.stray d) (.malformed text)
  | tooLong {d : Datum} (long : ¬ d.Writable) : Refused (.stray d) .digitLimit

theorem Refused.illFormed_iff {n : Expr} {f : Fault} (h : n.Refused f) :
    f.kind = .illFormed ↔ ∀ d, n = .stray d → d.Writable := by
  cases h with
  | loop => simp [Fault.kind]
  | @shown d text b shown =>
    have hd : d.Writable := by
      have hwrites := d.inspect_writes b
      rw [shown] at hwrites
      cases hwrites
      assumption
    simpa [Fault.kind] using hd
  | tooLong long => simpa [Fault.kind] using long

/-- The fault of the first of some nodes that is refused, if one is. -/
def Judged (nodes : List Expr) (fault : Option Fault) : Prop :=
  Option.Rel Refused (nodes.find? offends) fault

namespace Judged

variable {ns ms : List Expr} {v w : Option Fault}

theorem nil : Judged [] none := .none

theorem append (h : Judged ns v) (h' : Judged ms w) : Judged (ns ++ ms) (v.or w) := by
  unfold Judged at h h' ⊢
  rw [List.find?_append]
  generalize ns.find? offends = a at h
  cases h with
  | none => simpa using h'
  | some hr => exact .some hr

theorem cons {n : Expr} (hn : n.offends = false) (h : Judged ns v) : Judged (n :: ns) v := by
  rw [Judged, List.find?_cons, hn]
  exact h

theorem of_refused {n : Expr} {f : Fault} (hn : n.offends = true) (hf : n.Refused f) :
    Judged (n :: ns) (some f) := by
  rw [Judged, List.find?_cons, hn]
  exact .some hf

theorem exists_of_find? {n : Expr} (h : Judged ns v) (hn : ns.find? offends = some n) :
    ∃ f, v = some f ∧ n.Refused f := by
  rw [Judged, hn] at h
  cases h with
  | some hr => exact ⟨_, rfl, hr⟩

theorem exists_find? {f : Fault} (h : Judged ns (some f)) :
    ∃ n, ns.find? offends = some n ∧ n.Refused f := by
  unfold Judged at h
  generalize ns.find? offends = a at h
  cases h with
  | some hr => exact ⟨_, rfl, hr⟩

theorem eq_none_iff (h : Judged ns v) : v = none ↔ ∀ n ∈ ns, n.offends = false := by
  have hall : ns.find? offends = none ↔ ∀ n ∈ ns, n.offends = false := by simp
  rw [← hall]
  cases v with
  | none =>
    cases hfind : ns.find? offends with
    | none => simp
    | some n =>
      obtain ⟨_, hnone, _⟩ := h.exists_of_find? hfind
      cases hnone
  | some f =>
    obtain ⟨n, hfind, _⟩ := h.exists_find?
    simp [hfind]

end Judged

end Expr

/-- The computation ends with the given fault, or with a result where none is given, whatever the
    supply of names. -/
def Naming.Answers {α : Type} (x : Naming α) : Option Fault → Prop
  | none => ∀ names, ∃ a, (x.exec names).1 = .ok a
  | some f => ∀ names, (x.exec names).1 = .error (.fault f)

namespace Naming.Answers

variable {α β : Type} {v w : Option Fault}

theorem pure (a : α) : Answers (Pure.pure a : Naming α) none := fun _ => ⟨a, rfl⟩

theorem freshName : Answers Naming.freshName none := fun _ => ⟨_, rfl⟩

theorem bind {x : Naming α} {k : α → Naming β} (hx : x.Answers v) (hk : ∀ a, (k a).Answers w) :
    (x >>= k).Answers (v.or w) := by
  cases v with
  | none =>
    have hrest : ∀ names, ∃ a names', (x >>= k).exec names = (k a).exec names' := by
      intro names
      obtain ⟨a, ha⟩ := hx names
      refine ⟨a, (x.exec names).2, ?_⟩
      rw [exec_bind, show x.exec names = (.ok a, (x.exec names).2) from Prod.ext ha rfl]
    rw [Option.none_or]
    cases w with
    | none =>
      intro names
      obtain ⟨a, names', heq⟩ := hrest names
      rw [heq]
      exact hk a names'
    | some f =>
      intro names
      obtain ⟨a, names', heq⟩ := hrest names
      rw [heq]
      exact hk a names'
  | some f =>
    intro names
    rw [exec_bind, show x.exec names = (.error (.fault f), (x.exec names).2) from
      Prod.ext (hx names) rfl]

theorem map {x : Naming α} (hx : x.Answers v) (g : α → β) :
    (x >>= fun a => Pure.pure (g a)).Answers v := by
  have h := hx.bind fun a => pure (g a)
  rwa [Option.or_none] at h

end Naming.Answers

namespace Expr

/-- A datum is refused, for the same reason under every budget that is enough to show it. -/
theorem stray_answers (d : Datum) : ∃ f, (stray d).Refused f ∧
    Eventually fun b => ((stray d).expandLoops b).Answers (some f) := by
  obtain ⟨n, hn⟩ := d.inspect_settles
  have hsame : ∀ b, n ≤ b → d.inspect b = d.inspect n := by
    intro b hb
    have hwithin : Stop.Within (· = .exhausted) n b := .inr ⟨rfl, hb⟩
    rcases d.inspect_follows hwithin with ⟨s, hs, rfl⟩ | heq
    · exact absurd hs (hn n (Nat.le_refl n))
    · exact (Outcome.rel_eq_iff.mp heq).symm
  have hsettles : Eventually fun b => d.inspect b = d.inspect n := ⟨n, hsame⟩
  cases hinspect : d.inspect n with
  | ok text =>
    refine ⟨.malformed text, .shown hinspect, hsettles.succ fun b hb names => ?_⟩
    rw [expandLoops, hb, hinspect]
    rfl
  | error s =>
    rcases (d.inspect_writes n).error_cases hinspect with rfl | ⟨rfl, hlong⟩
    · exact absurd hinspect (hn n (Nat.le_refl n))
    · refine ⟨.digitLimit, .tooLong hlong, hsettles.succ fun b hb names => ?_⟩
      rw [expandLoops, hb, hinspect]
      rfl

theorem mapM_answers {es : List Expr}
    (h : ∀ e ∈ es, ∃ v, Judged e.nodes v ∧ Eventually fun b => (e.expandLoops b).Answers v) :
    ∃ v, Judged (allNodes es) v ∧ Eventually fun b => (es.mapM (expandLoops b)).Answers v := by
  induction es with
  | nil => exact ⟨none, .nil, .of_forall fun _ => .pure []⟩
  | cons e es ih =>
    rw [List.forall_mem_cons] at h
    obtain ⟨v, hv, he⟩ := h.1
    obtain ⟨w, hw, hes⟩ := ih h.2
    refine ⟨v.or w, hv.append hw, (he.and hes).mono fun b hb => ?_⟩
    rw [List.mapM_cons]
    exact hb.1.bind fun e' => hb.2.map (e' :: ·)

/-- The first node that is refused decides how the expansion of loops ends. -/
theorem expandLoops_answers : ∀ e : Expr,
    ∃ v, Judged e.nodes v ∧ Eventually fun b => (e.expandLoops b).Answers v
  | stray d => by
    obtain ⟨f, hf, h⟩ := stray_answers d
    exact ⟨some f, .of_refused rfl hf, h⟩
  | numeral _ | text _ | truth _ | name _ | quote _ =>
    ⟨none, .cons rfl .nil, Value.settles_of_succ fun _ => .pure _⟩
  | define x e | lambda x e => by
    obtain ⟨v, hv, he⟩ := expandLoops_answers e
    exact ⟨v, .cons rfl hv, he.succ fun b hb => hb.map _⟩
  | letrec x e₁ e₂ | binary x e₁ e₂ => by
    obtain ⟨v₁, hv₁, h₁⟩ := expandLoops_answers e₁
    obtain ⟨v₂, hv₂, h₂⟩ := expandLoops_answers e₂
    refine ⟨v₁.or v₂, .cons rfl (hv₁.append hv₂), (h₁.and h₂).succ fun b hb => ?_⟩
    exact hb.1.bind fun _ => hb.2.map _
  | apply e₁ e₂ => by
    obtain ⟨v₁, hv₁, h₁⟩ := expandLoops_answers e₁
    obtain ⟨v₂, hv₂, h₂⟩ := expandLoops_answers e₂
    refine ⟨v₁.or v₂, .cons rfl (hv₁.append hv₂), (h₁.and h₂).succ fun b hb => ?_⟩
    exact hb.1.bind fun _ => hb.2.map _
  | branch e₁ e₂ e₃ => by
    obtain ⟨v₁, hv₁, h₁⟩ := expandLoops_answers e₁
    obtain ⟨v₂, hv₂, h₂⟩ := expandLoops_answers e₂
    obtain ⟨v₃, hv₃, h₃⟩ := expandLoops_answers e₃
    refine ⟨_, .cons rfl (hv₁.append (hv₂.append hv₃)), (h₁.and (h₂.and h₃)).succ fun b hb => ?_⟩
    exact hb.1.bind fun _ => hb.2.1.bind fun _ => hb.2.2.map _
  | begin es => by
    obtain ⟨v, hv, h⟩ := mapM_answers fun e (_ : e ∈ es) => expandLoops_answers e
    exact ⟨v, .cons rfl hv, h.succ fun b hb => hb.map _⟩
  | loop i start test u update body => by
    by_cases hu : u = i
    · obtain ⟨v₁, hv₁, h₁⟩ := expandLoops_answers update
      obtain ⟨v₂, hv₂, h₂⟩ := expandLoops_answers test
      obtain ⟨v₃, hv₃, h₃⟩ := expandLoops_answers body
      obtain ⟨v₄, hv₄, h₄⟩ := expandLoops_answers start
      refine ⟨_, .cons (by simp [offends, hu]) (hv₁.append (hv₂.append (hv₃.append hv₄))),
        (h₁.and (h₂.and (h₃.and h₄))).succ fun b hb => ?_⟩
      obtain ⟨hb₁, hb₂, hb₃, hb₄⟩ := hb
      have hparts := Naming.Answers.freshName.bind fun g => hb₁.bind fun update' =>
        hb₂.bind fun test' => hb₃.bind fun body' =>
          hb₄.map fun start' => ofLoop g i start' test' update' body'
      rw [expandLoops, if_neg (not_not_intro hu)]
      simpa using hparts
    · refine ⟨_, .of_refused (by simp [offends, hu]) .loop, Value.settles_of_succ fun b names => ?_⟩
      simp only [expandLoops, if_pos hu]
      rfl

/-- The first node that is refused decides how expansion ends. -/
theorem expand_judged (e : Expr) :
    ∃ v, Judged e.nodes v ∧ Eventually fun b => (e.expand b).Answers v := by
  obtain ⟨v, hv, h⟩ := expandLoops_answers e
  refine ⟨v, hv, (e.eventually_height_le.and h).mono fun b hb => ?_⟩
  have hreserve : (e.reserveNames b).Answers none := by
    intro names
    rw [exec_reserveNames, listing_of_height_le hb.1]
    exact ⟨(), rfl⟩
  have hall := hreserve.bind fun _ => hb.2
  rwa [Option.none_or] at hall

/-! ## What expansion gives -/

namespace Expands

variable {used : List String} {frames : FrameId → Prop} {gs : List String} {e e' : Expr}

/-- No node of an expansion is a loop or a datum. -/
theorem forall_nodes (h : Expands used frames gs e e') :
    ∀ n ∈ e'.nodes, n.offends = false ∧ n.loopVariables = [] := by
  induction h with
  | numeral | text | truth | name | quote | beginNil => simp [offends]
  | define _ _ ih | lambda _ _ ih => exact List.forall_mem_cons.mpr ⟨⟨rfl, rfl⟩, ih⟩
  | letrec _ _ _ ih₁ ih₂ | binary _ _ ih₁ ih₂ | apply _ _ ih₁ ih₂ =>
    simp only [nodes, List.forall_mem_cons, List.forall_mem_append]
    exact ⟨⟨rfl, rfl⟩, ih₁, ih₂⟩
  | branch _ _ _ ih₁ ih₂ ih₃ =>
    simp only [nodes, List.forall_mem_cons, List.forall_mem_append]
    exact ⟨⟨rfl, rfl⟩, ih₁, ih₂, ih₃⟩
  | beginCons _ _ ih₁ ih₂ =>
    simp only [nodes, allNodes, List.forall_mem_cons, List.forall_mem_append] at ih₂ ⊢
    exact ⟨⟨rfl, rfl⟩, ih₁, ih₂.2⟩
  | loop _ _ _ _ _ _ ih₁ ih₂ ih₃ ih₄ =>
    simp only [ofLoop, nodes, allNodes, List.forall_mem_cons, List.forall_mem_append,
      List.append_nil, List.cons_append, List.nil_append]
    exact ⟨⟨rfl, rfl⟩, ⟨rfl, rfl⟩, ⟨rfl, rfl⟩,
      ⟨ih₂, ⟨rfl, rfl⟩, ⟨ih₃, ⟨rfl, rfl⟩, ⟨rfl, rfl⟩, ih₁⟩, ⟨rfl, rfl⟩, by simp⟩,
      ⟨rfl, rfl⟩, ⟨rfl, rfl⟩, ih₄⟩

theorem loops_eq_nil (h : Expands used frames gs e e') : e'.loops = [] :=
  List.flatMap_eq_nil_iff.mpr fun n hn => (h.forall_nodes n hn).2

/-- Where no name is drawn, the tree stays as it is. -/
theorem eq_of_nil (h : Expands used frames gs e e') (hgs : gs = []) : e' = e := by
  induction h with
  | numeral | text | truth | name | quote | beginNil => rfl
  | define _ _ ih | lambda _ _ ih => rw [ih hgs]
  | letrec _ _ _ ih₁ ih₂ | binary _ _ ih₁ ih₂ | apply _ _ ih₁ ih₂ =>
    rw [List.append_eq_nil_iff] at hgs
    rw [ih₁ hgs.1, ih₂ hgs.2]
  | beginCons _ _ ih₁ ih₂ =>
    rw [List.append_eq_nil_iff] at hgs
    have htail := ih₂ hgs.2
    injection htail with htail
    rw [ih₁ hgs.1, htail]
  | branch _ _ _ ih₁ ih₂ ih₃ =>
    rw [List.append_eq_nil_iff, List.append_eq_nil_iff] at hgs
    rw [ih₁ hgs.1, ih₂ hgs.2.1, ih₃ hgs.2.2]
  | loop => cases hgs

/-- The tree stays as it is exactly if it has no loop. -/
theorem eq_iff (h : Expands used frames gs e e') : e' = e ↔ e.loops = [] := by
  constructor
  · rintro rfl
    exact h.loops_eq_nil
  · intro hloops
    have hlength := h.length_loops
    rw [hloops] at hlength
    exact h.eq_of_nil (List.eq_nil_of_length_eq_zero hlength)

end Expands

variable {b : Nat} {names : FreshNames} {e e' : Expr}

theorem expand_expands_of_ok (h : ((e.expand b).exec names).1 = .ok e') :
    ∃ gs, FreshNames.Draws gs (names.reserveAll e.symbols) ((e.expand b).exec names).2 ∧
      Expands e.vocabulary (fun _ => True) gs e e' :=
  expand_expands (closuresIn_of_forall (fun _ => trivial) e) (Prod.ext h rfl)

/-- A tree without loops that is expanded stays as it is, and no name is drawn for it. -/
theorem expand_eq_self (hloops : e.loops = []) (h : ((e.expand b).exec names).1 = .ok e') :
    (e.expand b).exec names = (.ok e, names.reserveAll e.symbols) := by
  obtain ⟨gs, hgs, hexpands⟩ := expand_expands_of_ok h
  have hlength := hexpands.length_loops
  rw [hloops] at hlength
  obtain rfl := List.eq_nil_of_length_eq_zero hlength
  obtain rfl := hexpands.eq_of_nil rfl
  exact Prod.ext h hgs.eq_of_nil

/-- How expansion ends under any budget: with a result, for want of stack, or with the fault of the
    first node that is refused. -/
theorem expand_error_cases {s : Stop} (h : ((e.expand b).exec names).1 = .error s) :
    s = .exhausted ∨ ∃ n f, e.nodes.find? offends = some n ∧ n.Refused f ∧ s = .fault f := by
  obtain ⟨v, hv, hanswers⟩ := e.expand_judged
  obtain ⟨b', hb, hb'⟩ := hanswers.exists_ge b
  have hwithin : Stop.Within (· = .exhausted) b b' := .inr ⟨rfl, hb⟩
  rcases expand_follows hwithin e names with ⟨t, ht, rfl⟩ | heq
  · cases h.symm.trans ht
    exact .inl rfl
  · rw [← heq] at h
    cases v with
    | none =>
      obtain ⟨e', he'⟩ := hb' names
      cases h.symm.trans he'
    | some f =>
      obtain ⟨n, hn, hf⟩ := hv.exists_find?
      cases h.symm.trans (hb' names)
      exact .inr ⟨n, f, hn, hf, rfl⟩

end Expr

/-! ## Results -/

/-- Expansion is a projection onto the trees without loops.

    Under every budget that is large enough, it succeeds exactly if no node is refused, and else it
    stops at the first node that is, with the fault of this node: one of form, unless the node is a
    datum that is too long to be shown. Under any budget it gives a result, ends for want of stack,
    or stops in this way. A result has no loop, is the tree itself exactly if that has none, and is
    expanded to itself, for which no name is drawn. -/
theorem expansion_projects_onto_core (e : Expr) :
    (Eventually fun b => ∀ names, (∃ e', ((e.expand b).exec names).1 = .ok e') ↔
      ∀ n ∈ e.nodes, n.offends = false) ∧
    (∀ n, e.nodes.find? Expr.offends = some n →
      ∃ f, n.Refused f ∧ (f.kind = .illFormed ↔ ∀ d, n = .stray d → d.Writable) ∧
        Eventually fun b => ∀ names, ((e.expand b).exec names).1 = .error (.fault f)) ∧
    (∀ b names s, ((e.expand b).exec names).1 = .error s → s = .exhausted ∨
      ∃ n f, e.nodes.find? Expr.offends = some n ∧ n.Refused f ∧ s = .fault f) ∧
    ∀ b names e', ((e.expand b).exec names).1 = .ok e' →
      e'.loops = [] ∧ (e' = e ↔ e.loops = []) ∧
      Eventually fun b' => ∀ names',
        (e'.expand b').exec names' = (.ok e', names'.reserveAll e'.symbols) := by
  obtain ⟨v, hv, hanswers⟩ := e.expand_judged
  refine ⟨hanswers.mono fun b hb names => ?_, fun n hn => ?_, fun b names s => ?_, ?_⟩
  · rw [← hv.eq_none_iff]
    cases v with
    | none => simpa using hb names
    | some f => simp [hb names]
  · obtain ⟨f, rfl, hf⟩ := hv.exists_of_find? hn
    exact ⟨f, hf, hf.illFormed_iff, hanswers⟩
  · exact Expr.expand_error_cases
  · intro b names e' h
    obtain ⟨gs, _, hexpands⟩ := Expr.expand_expands_of_ok h
    refine ⟨hexpands.loops_eq_nil, hexpands.eq_iff, ?_⟩
    obtain ⟨v', hv', hanswers'⟩ := e'.expand_judged
    obtain rfl : v' = none := hv'.eq_none_iff.mpr fun n hn => (hexpands.forall_nodes n hn).1
    refine hanswers'.mono fun b' hb' names' => ?_
    obtain ⟨e'', he''⟩ := hb' names'
    exact Expr.expand_eq_self hexpands.loops_eq_nil he''

/-- The least integer with more than 4300 digits, in the place of an expression, is the only node
    of a definition that is refused. It cannot be shown, so the definition is not refused for its
    form. -/
theorem datum_too_long_to_refuse :
    (Expr.define "x" (.stray (.int digitBound))).nodes.find? Expr.offends =
      some (.stray (.int digitBound)) ∧
    (Eventually fun b => ∀ names,
      (((Expr.define "x" (.stray (.int digitBound))).expand b).exec names).1 =
        .error (.fault .digitLimit)) ∧
    Fault.digitLimit.kind ≠ .illFormed := by
  have hlong : ¬ Value.Writable (.int digitBound) := by
    show ¬ (digitBound : Int).natAbs < digitBound
    rw [Int.natAbs_natCast]
    exact Nat.lt_irrefl digitBound
  refine ⟨rfl, ?_, by decide⟩
  obtain ⟨v, hv, hanswers⟩ := (Expr.define "x" (.stray (.int digitBound))).expand_judged
  obtain ⟨f, rfl, hf⟩ := hv.exists_of_find? rfl
  cases hf with
  | shown shown => exact absurd ((Expr.Refused.shown shown).illFormed_iff.mp rfl _ rfl) hlong
  | tooLong => exact hanswers

end MiniLisp
