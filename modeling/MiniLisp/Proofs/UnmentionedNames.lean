import Mathlib
import MiniLisp.Proofs.FrameEffect
import MiniLisp.Proofs.References
import MiniLisp.Proofs.SelfSimulation

/-!
# Names that a program does not mention

A program is evaluated in a root frame. Names that it does not mention may be bound there to
anything: it goes the same way, and ends with the same value in a machine that differs in these
bindings only.

Code finds a name in the root frame if no frame on the way binds it. The names that an
expression exposes are those that it looks up or binds and that it does not bind around
themselves. For all others the search ends before the root frame, and it does so also from the
frames of closures that were there before the program: these are not inside the root frame.
A name that was generated for a loop is bound around its uses, so it may be one of the others.

* `Expr.Exposes`: the names that an expression exposes; the program mentions them, and those
  that its expansion exposes, too.
* `Machine.SameBut`: machines that differ in some bindings of one frame.
* `Unmentioned.Scopes`, `Unmentioned.Describes`: for each frame the names whose search ends
  before the root frame.
* `Unmentioned.simulation`: a run, and one with further names bound in the root frame.
* `unmentioned_names_unobservable`: no such name can be told from an unbound one.
-/

namespace MiniLisp

/-! ## Names that an expression exposes -/

namespace Expr

mutual

/-- The expression looks the name up or binds it, and not inside a binding of the same name. -/
def Exposes (y : String) : Expr → Prop
  | name x => y = x
  | define x e => y = x ∨ e.Exposes y
  | lambda x e => y ≠ x ∧ e.Exposes y
  | letrec x e₁ e₂ => y ≠ x ∧ (e₁.Exposes y ∨ e₂.Exposes y)
  | binary _ e₁ e₂ | apply e₁ e₂ => e₁.Exposes y ∨ e₂.Exposes y
  | branch e₁ e₂ e₃ => e₁.Exposes y ∨ e₂.Exposes y ∨ e₃.Exposes y
  | begin es => AnyExposes y es
  | _ => False

/-- One of several expressions exposes the name. -/
def AnyExposes (y : String) : List Expr → Prop
  | [] => False
  | e :: es => e.Exposes y ∨ AnyExposes y es

end

variable {y : String}

theorem anyExposes_iff {es : List Expr} : AnyExposes y es ↔ ∃ e ∈ es, e.Exposes y := by
  induction es with
  | nil => simp [AnyExposes]
  | cons e es ih => simp [AnyExposes, ih]

mutual

theorem Exposes.mem_symbols : ∀ {e : Expr}, e.Exposes y → y ∈ e.symbols
  | .name _, h => List.mem_singleton.mpr h
  | .define _ _, h => List.mem_cons.mpr (h.imp_right Exposes.mem_symbols)
  | .lambda _ _, h => List.mem_cons_of_mem _ h.2.mem_symbols
  | .letrec _ _ _, h =>
    List.mem_cons_of_mem _
      (List.mem_append.mpr (h.2.imp Exposes.mem_symbols Exposes.mem_symbols))
  | .binary _ _ _, h | .apply _ _, h =>
    List.mem_append.mpr (h.imp Exposes.mem_symbols Exposes.mem_symbols)
  | .branch _ _ _, h => by
    rw [symbols, List.append_assoc, List.mem_append, List.mem_append]
    exact h.imp Exposes.mem_symbols (Or.imp Exposes.mem_symbols Exposes.mem_symbols)
  | .begin _, h => AnyExposes.mem_allSymbols h

theorem AnyExposes.mem_allSymbols : ∀ {es : List Expr}, AnyExposes y es → y ∈ allSymbols es
  | _ :: _, h => List.mem_append.mpr (h.imp Exposes.mem_symbols AnyExposes.mem_allSymbols)

end

mutual

theorem exposes_of_mem_targets : ∀ {e : Expr}, y ∈ e.targets → e.Exposes y
  | .define _ _, h => (List.mem_cons.mp h).imp_right exposes_of_mem_targets
  | .binary _ _ _, h | .apply _ _, h =>
    (List.mem_append.mp h).imp exposes_of_mem_targets exposes_of_mem_targets
  | .branch _ _ _, h => by
    rw [targets, List.append_assoc, List.mem_append, List.mem_append] at h
    exact h.imp exposes_of_mem_targets (Or.imp exposes_of_mem_targets exposes_of_mem_targets)
  | .begin _, h => anyExposes_of_mem_allTargets h

theorem anyExposes_of_mem_allTargets : ∀ {es : List Expr}, y ∈ allTargets es → AnyExposes y es
  | _ :: _, h => (List.mem_append.mp h).imp exposes_of_mem_targets anyExposes_of_mem_allTargets

end

/-- An expansion exposes names of the expression only: those that loops were given are bound
    around their uses. -/
theorem Expands.exposes_used {used : List String} {frames : FrameId → Prop} {gs : List String}
    {e e' : Expr} (h : Expands used frames gs e e') : e'.Exposes y → y ∈ used := by
  induction h with
  | numeral | text | truth | quote | beginNil => exact False.elim
  | name use => exact fun hy => hy ▸ use
  | define use _ ih => exact Or.rec (fun hy => hy ▸ use) ih
  | letrec _ _ _ ih₁ ih₂ => exact fun hy => hy.2.elim ih₁ ih₂
  | lambda _ _ ih => exact fun hy => ih hy.2
  | binary _ _ ih₁ ih₂ | apply _ _ ih₁ ih₂ | beginCons _ _ ih₁ ih₂ => exact Or.rec ih₁ ih₂
  | branch _ _ _ ih₁ ih₂ ih₃ => exact Or.rec ih₁ (Or.rec ih₂ ih₃)
  | @loop _ _ _ _ g i s s' t t' u u' b b' _ _ _ _ _ _ ihu iht ihb ihs =>
    simp only [ofLoop, Exposes, AnyExposes, or_false]
    rintro ⟨hg, ⟨_, ht | hb | hyg | hu⟩ | hyg | hs⟩
    · exact iht ht
    · exact ihb hb
    · exact absurd hyg hg
    · exact ihu hu
    · exact absurd hyg hg
    · exact ihs hs

end Expr

/-! ## Machines that differ in some bindings of a frame -/

/-- The machines differ at most in what one frame binds the given names to. -/
structure Machine.SameBut (f : FrameId) (xs : List String) (m m' : Machine) : Prop where
  size : m'.heap.size = m.heap.size
  output : m'.output = m.output
  nextId : m'.nextId = m.nextId
  frames : ∀ g, g ≠ f → m'.heap.frame? g = m.heap.frame? g
  outer : m'.heap.outer? f = m.heap.outer? f
  bound : ∀ x, x ∉ xs → m'.heap.boundIn? x f = m.heap.boundIn? x f

namespace Machine.SameBut

variable {f g : FrameId} {xs : List String} {m m' : Machine} {x : String}

theorem refl (f : FrameId) (xs : List String) (m : Machine) : m.SameBut f xs m :=
  ⟨rfl, rfl, rfl, fun _ _ => rfl, rfl, fun _ _ => rfl⟩

theorem outer?_eq (h : m.SameBut f xs m') (g : FrameId) :
    m'.heap.outer? g = m.heap.outer? g := by
  by_cases hg : g = f
  · rw [hg, h.outer]
  · rw [Heap.outer?, h.frames g hg, Heap.outer?]

theorem boundIn?_eq (h : m.SameBut f xs m') (hx : g = f → x ∉ xs) :
    m'.heap.boundIn? x g = m.heap.boundIn? x g := by
  by_cases hg : g = f
  · rw [hg, h.bound x (hx hg)]
  · rw [Heap.boundIn?, h.frames g hg, Heap.boundIn?]

/-- One of the names is bound in the second machine. -/
theorem defineRight (h : m.SameBut f xs m') (hx : x ∈ xs) (v : Datum) :
    m.SameBut f xs (m'.define f x v) where
  size := (Heap.size_define ..).trans h.size
  output := h.output
  nextId := h.nextId
  frames g hg := by
    rw [← h.frames g hg, Machine.define, Heap.frame?_define, if_neg (Ne.symm hg)]
  outer := (Heap.outer?_define ..).trans h.outer
  bound y hy := by
    have hyx : y ≠ x := fun heq => hy (heq ▸ hx)
    exact (Heap.boundIn?_define_of_ne _ (.inr hyx) v).trans (h.bound y hy)

theorem defineAll (h : m.SameBut f xs m') {bs : Bindings} (hbs : ∀ b ∈ bs, b.1 ∈ xs) :
    m.SameBut f xs (bs.foldl (fun n b => n.define f b.1 b.2) m') := by
  induction bs generalizing m' with
  | nil => exact h
  | cons b bs ih =>
    obtain ⟨hb, hbs⟩ := List.forall_mem_cons.mp hbs
    exact ih (h.defineRight hb b.2) hbs

/-- A name is bound in both machines. -/
theorem define (h : m.SameBut f xs m') (hf : f < m.heap.size) (g : FrameId) (x : String)
    (v : Datum) : (m.define g x v).SameBut f xs (m'.define g x v) where
  size := by rw [Machine.define, Machine.define, Heap.size_define, Heap.size_define, h.size]
  output := h.output
  nextId := h.nextId
  frames g' hg := by
    rw [Machine.define, Machine.define, Heap.frame?_define, Heap.frame?_define, h.frames g' hg]
  outer := by rw [Machine.define, Machine.define, Heap.outer?_define, Heap.outer?_define, h.outer]
  bound y hy := by
    rw [Machine.define, Machine.define]
    by_cases hgy : g = f ∧ y = x
    · obtain ⟨rfl, rfl⟩ := hgy
      rw [Heap.boundIn?_define_self (h.size ▸ hf), Heap.boundIn?_define_self hf]
    · rw [Heap.boundIn?_define_of_ne _ (not_and_or.mp hgy),
        Heap.boundIn?_define_of_ne _ (not_and_or.mp hgy), h.bound y hy]

/-- A frame is made in both machines. -/
theorem bindFrame (h : m.SameBut f xs m') (hf : f < m.heap.size) (g : FrameId) (x : String)
    (v : Datum) : (m.bindFrame g x v).SameBut f xs (m'.bindFrame g x v) where
  size := by
    rw [Machine.bindFrame, Machine.bindFrame, Heap.size_alloc, Heap.size_alloc, h.size]
  output := h.output
  nextId := h.nextId
  frames g' hg := by
    have hsize : m'.heap.frames.size = m.heap.frames.size := h.size
    have hframe : m'.heap.frames[g']? = m.heap.frames[g']? := h.frames g' hg
    simp only [Machine.bindFrame, Heap.alloc, Heap.frame?, Array.getElem?_push, hsize, hframe]
  outer := by
    rw [Machine.bindFrame, Machine.bindFrame, Heap.outer?_alloc_of_lt (h.size ▸ hf),
      Heap.outer?_alloc_of_lt hf, h.outer]
  bound y hy := by
    rw [Machine.bindFrame, Machine.bindFrame, Heap.boundIn?_alloc_of_lt (h.size ▸ hf),
      Heap.boundIn?_alloc_of_lt hf, h.bound y hy]

theorem write (h : m.SameBut f xs m') (line : String) :
    (m.write line).SameBut f xs (m'.write line) where
  __ := h
  output := by rw [Machine.write, Machine.write, h.output]

theorem takeId (h : m.SameBut f xs m') : m.takeId.SameBut f xs m'.takeId where
  __ := h
  nextId := by rw [Machine.takeId, Machine.takeId, h.nextId]

end Machine.SameBut

/-! ## Where the search for a name ends -/

namespace Unmentioned

/-- What is known of the frames of a heap, one of which is a root frame: the names for which a
    search that starts there ends before the root frame. From the frames before the root frame
    no search gets there. -/
structure Scopes (root : FrameId) where
  size : Nat
  shielded : FrameId → String → Prop
  root_lt : root < size
  lt_size : ∀ {f y}, shielded f y → f < size
  older : ∀ {f}, f < root → ∀ y, shielded f y

namespace Scopes

variable {root : FrameId}

instance : Preorder (Scopes root) where
  le w w' := w.size ≤ w'.size ∧ ∀ f y, w.shielded f y → w'.shielded f y
  le_refl _ := ⟨le_rfl, fun _ _ h => h⟩
  le_trans _ _ _ h h' := ⟨h.1.trans h'.1, fun f y hy => h'.2 f y (h.2 f y hy)⟩

/-- One more frame, inside the frame `f`, that binds the name `x`. -/
def push (w : Scopes root) (f : FrameId) (x : String) : Scopes root where
  size := w.size + 1
  shielded g y := w.shielded g y ∨ g = w.size ∧ (y = x ∨ w.shielded f y)
  root_lt := Nat.lt_succ_of_lt w.root_lt
  lt_size := by
    rintro g y (hg | ⟨rfl, _⟩)
    · exact Nat.lt_succ_of_lt (w.lt_size hg)
    · exact Nat.lt_succ_self _
  older hf y := .inl (w.older hf y)

theorem le_push (w : Scopes root) (f : FrameId) (x : String) : w ≤ w.push f x :=
  ⟨Nat.le_succ _, fun _ _ hy => .inl hy⟩

end Scopes

section Fits

variable (xs : List String) {root : FrameId} (w : Scopes root)

/-- Code in a frame: the closures in its data are of frames before the root frame, and the
    search for a name of `xs` that it exposes ends before the root frame. -/
structure Fits (e : Expr) (f : FrameId) : Prop where
  frame : f < w.size
  data : e.ClosuresIn (· < root)
  shields : ∀ y ∈ xs, e.Exposes y → w.shielded f y

/-- Equal closures that fit their frame. -/
def Closures (x : String) (e : Expr) (f : FrameId) (e' : Expr) (f' : FrameId) : Prop :=
  (e = e' ∧ f = f') ∧ Fits xs w (.lambda x e) f

/-- The closures in a value fit their frames. -/
abbrev Usable (v : Datum) : Prop := Value.Alike Eq (Closures xs w) v v

/-- A heap is as the scopes say, and the values in it are usable. -/
structure Describes (h : Heap) : Prop where
  size : h.size = w.size
  closed : h.Closed (· < w.size)
  shielded : ∀ {f y}, w.shielded f y →
    f ≠ root ∧ ((h.boundIn? y f).isSome = true ∨ ∀ o, h.outer? f = some o → w.shielded o y)
  usable : ∀ {f x v}, f < w.size → h.boundIn? x f = some v → Usable xs w v

end Fits

variable {xs : List String} {root : FrameId} {w w' : Scopes root} {e : Expr} {f : FrameId}
  {x : String} {v : Datum} {h : Heap} {m₁ m₂ : Machine}

theorem Fits.mono (hw : w ≤ w') (he : Fits xs w e f) : Fits xs w' e f where
  frame := he.frame.trans_le hw.1
  data := he.data
  shields y hy hexp := hw.2 f y (he.shields y hy hexp)

theorem Closures.mono (hw : w ≤ w') (x : String) (e₁ : Expr) (f₁ : FrameId) (e₂ : Expr)
    (f₂ : FrameId) (hc : Closures xs w x e₁ f₁ e₂ f₂) : Closures xs w' x e₁ f₁ e₂ f₂ :=
  ⟨hc.1, hc.2.mono hw⟩

theorem Usable.mono (hw : w ≤ w') (hv : Usable xs w v) : Usable xs w' v :=
  Value.Alike.mono hv (fun _ _ h => h) (Closures.mono hw)

theorem usable_of_closuresIn (hv : v.ClosuresIn (· < root)) : Usable xs w v := by
  refine hv.alike (fun _ => rfl) fun x e f hf he => ⟨⟨rfl, rfl⟩, ?_⟩
  exact ⟨w.lt_size (w.older hf x), he, fun y _ _ => w.older hf y⟩

/-- The body of a procedure fits a frame that binds its parameter. -/
theorem Fits.enter (he : Fits xs w (.lambda x e) f) : Fits xs (w.push f x) e w.size where
  frame := Nat.lt_succ_self _
  data := he.data
  shields y hy hexp := by
    by_cases hyx : y = x
    · exact .inr ⟨rfl, .inl hyx⟩
    · exact .inr ⟨rfl, .inr (he.shields y hy ⟨hyx, hexp⟩)⟩

namespace Describes

theorem define (hd : Describes xs w h) (f : FrameId) (x : String) (hv : Usable xs w v) :
    Describes xs w (h.define f x v) where
  size := (Heap.size_define ..).trans hd.size
  closed g o hg ho := by
    rw [Heap.outer?_define] at ho
    exact hd.closed g o hg ho
  shielded {g y} hg := by
    simp only [Heap.outer?_define]
    refine ⟨(hd.shielded hg).1, ?_⟩
    by_cases hgy : f = g ∧ y = x
    · obtain ⟨rfl, rfl⟩ := hgy
      rw [Heap.boundIn?_define_self (hd.size ▸ w.lt_size hg)]
      exact .inl rfl
    · rw [Heap.boundIn?_define_of_ne _ (not_and_or.mp hgy)]
      exact (hd.shielded hg).2
  usable {g y u} hg hu := by
    by_cases hgy : f = g ∧ y = x
    · obtain ⟨rfl, rfl⟩ := hgy
      rw [Heap.boundIn?_define_self (hd.size ▸ hg)] at hu
      exact Option.some.inj hu ▸ hv
    · rw [Heap.boundIn?_define_of_ne _ (not_and_or.mp hgy)] at hu
      exact hd.usable hg hu

theorem alloc (hd : Describes xs w h) (hf : f < w.size) (x : String) (hv : Usable xs w v) :
    Describes xs (w.push f x) (h.alloc { bindings := [(x, v)], outer := some f }) where
  size := by rw [Heap.size_alloc, hd.size, Scopes.push]
  closed g o hg ho := by
    rcases Nat.lt_succ_iff_lt_or_eq.mp hg with hg | rfl
    · rw [Heap.outer?_alloc_of_lt (hd.size ▸ hg)] at ho
      obtain ⟨hlt, ho⟩ := hd.closed g o hg ho
      exact ⟨hlt, Nat.lt_succ_of_lt ho⟩
    · rw [← hd.size, Heap.outer?_alloc_size] at ho
      cases ho
      exact ⟨hf, Nat.lt_succ_of_lt hf⟩
  shielded {g y} hg := by
    rcases hg with hg | ⟨rfl, hy⟩
    · have hlt : g < h.size := hd.size ▸ w.lt_size hg
      rw [Heap.boundIn?_alloc_of_lt hlt, Heap.outer?_alloc_of_lt hlt]
      obtain ⟨hne, hbound⟩ := hd.shielded hg
      exact ⟨hne, hbound.imp_right fun ho o hgo => .inl (ho o hgo)⟩
    · refine ⟨w.root_lt.ne', ?_⟩
      rw [← hd.size, Heap.boundIn?_alloc_size, Heap.outer?_alloc_size]
      rcases hy with rfl | hy
      · rw [Bindings.get?, List.lookup_cons_self]
        exact .inl rfl
      · refine .inr fun o ho => .inl ?_
        cases ho
        exact hy
  usable {g y u} hg hu := by
    have hgrow : Usable xs w u → Usable xs (w.push f x) u := Usable.mono (w.le_push f x)
    rcases Nat.lt_succ_iff_lt_or_eq.mp hg with hg | rfl
    · rw [Heap.boundIn?_alloc_of_lt (hd.size ▸ hg)] at hu
      exact hgrow (hd.usable hg hu)
    · rw [← hd.size, Heap.boundIn?_alloc_size] at hu
      by_cases hy : y = x
      · subst hy
        rw [Bindings.get?, List.lookup_cons_self] at hu
        exact hgrow (Option.some.inj hu ▸ hv)
      · rw [Bindings.get?_singleton_of_ne hy] at hu
        cases hu

/-- A search that ends before the root frame finds the same whatever is bound there. -/
theorem lookup?_eq (hd : Describes xs w m₁.heap) (hm : m₁.SameBut root xs m₂) (hf : f < w.size)
    (hx : x ∈ xs → w.shielded f x) : m₂.heap.lookup? f x = m₁.heap.lookup? f x := by
  have hclosed : m₂.heap.Closed (· < w.size) :=
    fun g o hg ho => hd.closed g o hg ((hm.outer?_eq g).symm.trans ho)
  induction f using Nat.strongRecOn with
  | ind f ih =>
    have hbound : m₂.heap.boundIn? x f = m₁.heap.boundIn? x f :=
      hm.boundIn?_eq fun hroot hxs => (hd.shielded (hx hxs)).1 hroot
    rw [hclosed.lookup?_eq hf, hd.closed.lookup?_eq hf, hbound, hm.outer?_eq]
    cases hv : m₁.heap.boundIn? x f with
    | some v => rfl
    | none =>
      cases ho : m₁.heap.outer? f with
      | none => rfl
      | some o =>
        obtain ⟨hlt, hsize⟩ := hd.closed f o hf ho
        refine ih o hlt hsize fun hxs => ?_
        rcases (hd.shielded (hx hxs)).2 with hsome | houter
        · rw [hv] at hsome
          cases hsome
        · exact houter o ho

end Describes

/-! ## The simulation -/

variable (xs root) in
/-- Runs of one program, with the names of `xs` bound to anything in the root frame. -/
def correspondence : Correspondence (Scopes root) where
  ids _ := Eq
  closures := Closures xs
  code w e f e' f' := (e = e' ∧ f = f') ∧ Fits xs w e f
  machines w m₁ m₂ := m₁.SameBut root xs m₂ ∧ Describes xs w m₁.heap

theorem eq_of_values {v₁ v₂ : Datum} (hv : (correspondence xs root).values w v₁ v₂) : v₁ = v₂ :=
  hv.eq_of_alike (fun _ _ h => h) fun _ _ _ _ _ h => h.1

theorem bindFrame_simulates (hf : f < w.size) (hv : Usable xs w v) :
    (correspondence xs root).Simulates w
      (fun w' g₁ g₂ => w' = w.push f x ∧ g₁ = w.size ∧ g₂ = w.size)
      (Eval.bindFrame f x v) (Eval.bindFrame f x v) := by
  rintro m₁ m₂ ⟨hm, hd⟩
  rw [Eval.exec_bindFrame, Eval.exec_bindFrame]
  have hroot : root < m₁.heap.size := hd.size ▸ w.root_lt
  refine ⟨_, w.le_push f x, ⟨hm.bindFrame hroot f x v, hd.alloc hf x hv⟩, rfl, hd.size, ?_⟩
  exact hm.size.trans hd.size

theorem assignable (x : String) (f : FrameId) : (correspondence xs root).Assignable w x f f := by
  intro w' _ v₁ v₂ hv
  obtain rfl := eq_of_values hv
  rintro m₁ m₂ ⟨hm, hd⟩
  rw [Eval.exec_define, Eval.exec_define]
  have hroot : root < m₁.heap.size := hd.size ▸ w'.root_lt
  exact ⟨w', le_rfl, ⟨hm.define hroot f x v₁, hd.define f x hv⟩, trivial⟩

theorem read_simulates (hx : Fits xs w (.name x) f) :
    (correspondence xs root).Simulates w (correspondence xs root).values (Direct.read f x)
      (Direct.read f x) := by
  refine Correspondence.read_simulates ?_
  rintro m₁ m₂ ⟨hm, hd⟩
  rw [hd.lookup?_eq hm hx.frame fun hxs => hx.shields x hxs rfl]
  cases hv : m₁.heap.lookup? f x with
  | none => exact .none
  | some v =>
    obtain ⟨g, hg, hbound⟩ := Heap.boundIn?_of_lookup? hv
    exact .some (hd.usable (hd.size ▸ hg) hbound)

variable (xs root) in
/-- A run, and one with further names bound in the root frame. -/
def simulation : Simulation (Scopes root) where
  toCorrespondence := correspondence xs root
  oneToOne _ i j i' j' h h' := by rw [show i = j from h, show i' = j' from h']
  ids_mono _ _ _ h := h
  closures_mono := Closures.mono
  code_mono hw _ _ _ _ h := ⟨h.1, h.2.mono hw⟩
  write w line := by
    rintro m₁ m₂ ⟨hm, hd⟩
    exact ⟨w, le_rfl, ⟨hm.write line, hd⟩, trivial⟩
  freshId w := by
    rintro m₁ m₂ ⟨hm, hd⟩
    exact ⟨w, le_rfl, ⟨hm.takeId, hd⟩, hm.nextId.symm⟩
  call := by
    rintro w x e f _ _ v₁ v₂ ⟨⟨rfl, rfl⟩, hfits⟩ hv m₁ m₂ hm
    obtain rfl := eq_of_values hv
    obtain ⟨w', hw, hm', hr⟩ := bindFrame_simulates hfits.frame hv m₁ m₂ hm
    refine ⟨w', hw, hm', hr.mono ?_⟩
    rintro _ _ ⟨rfl, rfl, rfl⟩
    exact ⟨⟨rfl, rfl⟩, hfits.enter⟩

theorem Fits.matches_self (he : Fits xs w e f) : (simulation xs root).Matches w e f e f := by
  -- a part of the expression that is evaluated in the same frame
  have hpart : ∀ {e'}, e'.ClosuresIn (· < root) → (∀ y, e'.Exposes y → e.Exposes y) →
      (simulation xs root).code w e' f e' f := fun hdata hexp =>
    ⟨⟨rfl, rfl⟩, he.frame, hdata, fun y hy hy' => he.shields y hy (hexp y hy')⟩
  have hdata := he.data
  cases e with
  | numeral v => exact .numeral (usable_of_closuresIn hdata)
  | quote d => exact .quote (usable_of_closuresIn hdata)
  | text s => exact .text
  | truth b => exact .truth
  | loop i s t u c b => exact .loop
  | stray d => exact .stray
  | name x => exact .name (read_simulates he)
  | define x e => exact .define (hpart hdata fun _ => .inr) (assignable x f)
  | lambda x e => exact .lambda ⟨⟨rfl, rfl⟩, he⟩
  | letrec x e b =>
    have hbinding : Fits xs w (.lambda x e) f :=
      ⟨he.frame, hdata.1, fun y hy hexp => he.shields y hy ⟨hexp.1, .inl hexp.2⟩⟩
    have hbody : Fits xs w (.lambda x b) f :=
      ⟨he.frame, hdata.2, fun y hy hexp => he.shields y hy ⟨hexp.1, .inr hexp.2⟩⟩
    refine .letrec fun m₁ m₂ hm => ?_
    have hv : Usable xs w .unassigned := .atom rfl
    obtain ⟨w', hw, hm', hr⟩ := bindFrame_simulates he.frame hv m₁ m₂ hm
    refine ⟨w', hw, hm', hr.mono ?_⟩
    rintro _ _ ⟨rfl, rfl, rfl⟩
    exact ⟨⟨⟨rfl, rfl⟩, hbinding.enter⟩, ⟨⟨rfl, rfl⟩, hbody.enter⟩, assignable x _⟩
  | binary op l r => exact .binary (hpart hdata.1 fun _ => .inl) (hpart hdata.2 fun _ => .inr)
  | apply c a => exact .apply (hpart hdata.1 fun _ => .inl) (hpart hdata.2 fun _ => .inr)
  | branch t y n =>
    exact .branch (hpart hdata.1 fun _ => .inl) (hpart hdata.2.1 fun _ h => .inr (.inl h))
      (hpart hdata.2.2 fun _ h => .inr (.inr h))
  | begin es =>
    refine .begin (List.forall₂_same.mpr fun e hmem => ?_)
    exact hpart (Expr.allClosuresIn_iff.mp hdata e hmem)
      fun y hy => Expr.anyExposes_iff.mpr ⟨e, hmem, hy⟩

theorem diagonal : (simulation xs root).Diagonal where
  same h := h.1
  matches_self h := h.2.matches_self

/-! ## Root frames -/

variable {m : Machine} {extras : Bindings}

/-- The frames of a machine in which a root frame has just been made. -/
def ofRoot (m : Machine) : Scopes m.heap.size where
  size := m.heap.size + 1
  shielded f _ := f < m.heap.size
  root_lt := Nat.lt_succ_self _
  lt_size hf := Nat.lt_succ_of_lt hf
  older hf _ := hf

theorem ofRoot_describes (hm : m.Framed) : Describes xs (ofRoot m) m.withRoot.heap where
  size := m.size_withRoot
  closed := by
    have hclosed := hm.withRoot.closed
    rwa [Machine.size_withRoot] at hclosed
  shielded {f y} hf := by
    have hlt : f < m.withRoot.heap.size := m.size_withRoot ▸ Nat.lt_succ_of_lt hf
    exact ⟨hf.ne, .inr fun o ho => (hm.withRoot.outer f hlt o ho).trans hf⟩
  usable {f x v} hf hv := by
    rcases Nat.lt_succ_iff_lt_or_eq.mp hf with hf | rfl
    · rw [Machine.withRoot, Heap.boundIn?_alloc_of_lt hf] at hv
      exact usable_of_closuresIn (hm.closures f hf x v hv)
    · rw [Machine.boundIn?_withRoot] at hv
      split at hv
      · cases hv
        exact .native rfl
      · cases hv

end Unmentioned

/-- The machine after a root frame has been made and further names have been bound in it. -/
def Machine.withRootAnd (m : Machine) (extras : Bindings) : Machine :=
  extras.foldl (fun n b => n.define m.heap.size b.1 b.2) m.withRoot

theorem Machine.SameBut.withRootAnd (m : Machine) (extras : Bindings) :
    m.withRoot.SameBut m.heap.size (extras.map Prod.fst) (m.withRootAnd extras) :=
  (Machine.SameBut.refl ..).defineAll fun _ hb => List.mem_map_of_mem hb

/-- In a new root frame a program does the same whether or not the given names are bound there,
    up to these bindings. It leaves them as they are, and of other names it binds only those that
    are mentioned. -/
structure Indifferent (m : Machine) (mentioned : List String) (extras : Bindings)
    (program : FrameId → Eval Datum) : Prop where
  outcome : ((program m.heap.size).exec (m.withRootAnd extras)).1 =
    ((program m.heap.size).exec m.withRoot).1
  machine : ((program m.heap.size).exec m.withRoot).2.SameBut m.heap.size (extras.map Prod.fst)
    ((program m.heap.size).exec (m.withRootAnd extras)).2
  kept : ∀ x ∈ extras.map Prod.fst,
    ((program m.heap.size).exec (m.withRootAnd extras)).2.heap.boundIn? x m.heap.size =
      (m.withRootAnd extras).heap.boundIn? x m.heap.size
  binds : ∀ x, x ≠ "print" → x ∉ mentioned →
    ((program m.heap.size).exec m.withRoot).2.heap.boundIn? x m.heap.size = none

namespace Unmentioned

variable {m : Machine} {e e' : Expr} {extras : Bindings} {xs mentioned : List String}

/-- An expression exposes names that are mentioned, and `print`. -/
def Mentions (mentioned : List String) (e : Expr) : Prop :=
  ∀ y, e.Exposes y → y = "print" ∨ y ∈ mentioned

theorem Mentions.not_exposes (he : Mentions mentioned e)
    (hxs : ∀ x ∈ xs, x ≠ "print" ∧ x ∉ mentioned) : ∀ x ∈ xs, ¬ e.Exposes x :=
  fun x hx hexp => (he x hexp).elim (hxs x hx).1 (hxs x hx).2

theorem fits_root (he : e.ClosuresIn (· < m.heap.size)) (hexp : ∀ x ∈ xs, ¬ e.Exposes x) :
    Fits xs (ofRoot m) e m.heap.size :=
  ⟨Nat.lt_succ_self _, he, fun y hy hy' => absurd hy' (hexp y hy)⟩

theorem evaluate_indifferent (hm : m.Framed) (he : e.ClosuresIn (· < m.heap.size))
    (hmentions : Mentions mentioned e)
    (hextras : ∀ x ∈ extras.map Prod.fst, x ≠ "print" ∧ x ∉ mentioned) (rounds budget : Nat) :
    Indifferent m mentioned extras (evaluate rounds budget e) := by
  have hexp := hmentions.not_exposes hextras
  have hstart := Machine.SameBut.withRootAnd m extras
  have htracks :=
    diagonal.evaluate_tracks rounds budget (ofRoot m) e _ e _ ⟨⟨rfl, rfl⟩, fits_root he hexp⟩
  obtain ⟨w, _, ⟨hsame, _⟩, hr⟩ := htracks _ _ ⟨hstart, ofRoot_describes hm⟩
  have hroot : m.heap.size < m.withRoot.heap.size := m.size_withRoot ▸ Nat.lt_succ_self _
  have hroot' : m.heap.size < (m.withRootAnd extras).heap.size := hstart.size ▸ hroot
  refine ⟨?_, hsame, fun x hx => ?_, fun x hprint hx => ?_⟩
  · exact (Outcome.rel_eq_iff.mp (hr.mono fun _ _ => eq_of_values)).symm
  · refine (evaluate_confined rounds budget e _ _).bound hroot' x fun htarget => ?_
    exact hexp x hx (Expr.exposes_of_mem_targets htarget)
  · rw [(evaluate_confined rounds budget e _ _).bound hroot x, Machine.boundIn?_withRoot,
      if_neg hprint]
    exact fun htarget => (hmentions x (Expr.exposes_of_mem_targets htarget)).elim hprint hx

/-- A program that fails before it is evaluated does not touch the root frame. -/
theorem indifferent_of_throw (m : Machine) (mentioned : List String) (extras : Bindings)
    (s : Stop) : Indifferent m mentioned extras fun _ => throw s where
  outcome := rfl
  machine := .withRootAnd m extras
  kept _ _ := rfl
  binds x hprint _ := (m.boundIn?_withRoot x).trans (if_neg hprint)

/-- No search that a program starts for a name which is not mentioned gets to the root frame. -/
theorem visits_lookup?_eq (hm : m.Framed) (he : e.ClosuresIn (· < m.heap.size))
    (hmentions : Mentions mentioned e) {b : Nat} {p : Point} {x : String}
    (hvisits : Point.Visits ⟨b, e, m.heap.size, m.withRoot, []⟩ p) (hp : p.code = .name x)
    (hprint : x ≠ "print") (hx : x ∉ mentioned) (v : Datum) :
    (p.machine.heap.define m.heap.size x v).lookup? p.frame x =
      p.machine.heap.lookup? p.frame x := by
  have hexp : ∀ y ∈ [x], ¬ e.Exposes y :=
    hmentions.not_exposes fun y hy => List.mem_singleton.mp hy ▸ ⟨hprint, hx⟩
  have hstart : (simulation [x] m.heap.size).At (ofRoot m) ⟨b, e, m.heap.size, m.withRoot, []⟩ :=
    ⟨⟨⟨rfl, rfl⟩, fits_root he hexp⟩, .refl .., ofRoot_describes hm⟩
  obtain ⟨w, _, ⟨_, hfits⟩, _, hd⟩ := diagonal.visits hstart hvisits
  rw [hp] at hfits
  have hdefined := (Machine.SameBut.refl m.heap.size [x] p.machine).defineRight
    (List.mem_singleton_self x) v
  exact hd.lookup?_eq hdefined hfits.frame fun hmem => hfits.shields x hmem rfl

theorem mentions_self (hmentioned : mentioned = e.symbols) : Mentions mentioned e :=
  fun _ hy => .inr (hmentioned ▸ hy.mem_symbols)

/-- The expansion of an expression exposes no name that the expression does not mention. -/
theorem mentions_of_expand {budget : Nat} {names : FreshNames} (hmentioned : mentioned = e.symbols)
    (he : e.ClosuresIn (· < m.heap.size)) (h : ((e.expand budget).exec names).1 = .ok e') :
    Mentions mentioned e' ∧ e'.ClosuresIn (· < m.heap.size) := by
  obtain ⟨gs, _, hexpands⟩ := Expr.expand_expands he (Prod.ext h rfl)
  refine ⟨fun y hy => ?_, hexpands.closuresIn⟩
  rw [hmentioned]
  exact List.mem_cons.mp (hexpands.exposes_used hy)

end Unmentioned

/-- Names that an expression does not mention cannot affect it. Let further names be bound in a
    new root frame, to any values, none of them `print` and none among the names of the
    expression. The expression as it stands, and its expansion under any supply of names, gives
    the same outcome there under all bounds, prints the same, and leaves the same machine up to
    these bindings, which it keeps. It binds no name in the root frame that is not among its own;
    and where it looks a name up that is neither among them nor `print`, it would find the same if
    the root frame bound that name to any value. The closures that it quotes are of frames of the
    machine, in which no reference dangles; `run_settled` says that runs leave such machines. -/
theorem unmentioned_names_unobservable {m : Machine} (hm : m.Framed) {e : Expr}
    (he : e.ClosuresIn (· < m.heap.size)) {b : Nat} {mentioned : List String}
    (hmentioned : e.names b = .ok mentioned) {extras : Bindings}
    (hextras : ∀ x ∈ extras.map Prod.fst, x ≠ "print" ∧ x ∉ mentioned)
    (rounds budget : Nat) (names : FreshNames) :
    Indifferent m mentioned extras (evaluate rounds budget e) ∧
    Indifferent m mentioned extras (fun root => do
      let e' ← Eval.ofNaming names (e.expand budget)
      evaluate rounds budget e' root) ∧
    ∀ e', e' = e ∨ ((e.expand budget).exec names).1 = .ok e' →
      ∀ stack p x, Point.Visits ⟨stack, e', m.heap.size, m.withRoot, []⟩ p → p.code = .name x →
        x ≠ "print" → x ∉ mentioned → ∀ v,
          (p.machine.heap.define m.heap.size x v).lookup? p.frame x =
            p.machine.heap.lookup? p.frame x := by
  have hsymbols : mentioned = e.symbols := Expr.names_eq_symbols hmentioned
  have hself : Unmentioned.Mentions mentioned e := Unmentioned.mentions_self hsymbols
  refine ⟨?_, ?_, ?_⟩
  · exact Unmentioned.evaluate_indifferent hm he hself hextras rounds budget
  · obtain ⟨r, hr⟩ : ∃ r, ((e.expand budget).exec names).1 = r := ⟨_, rfl⟩
    have hnaming : Eval.ofNaming names (e.expand budget) = Eval.ofOutcome r := by rw [← hr]; rfl
    rw [hnaming]
    cases r with
    | error s => exact Unmentioned.indifferent_of_throw m mentioned extras s
    | ok e' =>
      obtain ⟨hmentions, he'⟩ := Unmentioned.mentions_of_expand hsymbols he hr
      exact Unmentioned.evaluate_indifferent hm he' hmentions hextras rounds budget
  · rintro e' (rfl | he') stack p x hvisits hp hprint hx
    · exact Unmentioned.visits_lookup?_eq hm he hself hvisits hp hprint hx
    · obtain ⟨hmentions, he'⟩ := Unmentioned.mentions_of_expand hsymbols he he'
      exact Unmentioned.visits_lookup?_eq hm he' hmentions hvisits hp hprint hx

namespace Unmentioned

/-- A loop that prints a line twice. -/
def counting : Expr :=
  .loop "i" (.numeral (.int 0)) (.binary "<" (.name "i") (.numeral (.int 2))) "i"
    (.binary "+" (.name "i") (.numeral (.int 1))) (.apply (.name "print") (.text "tick"))

/-- The loop is expanded and evaluated. -/
def ticking (root : FrameId) : Eval Datum := do
  let e' ← Eval.ofNaming { stem := "loop" } (counting.expand 30)
  evaluate 30 30 e' root

/-- A binding of the name that the loop is given. -/
def hidden : Bindings := [("loop%1", .text "hidden")]

end Unmentioned

/-- The loop runs as it would, although the name that it is given is bound already, and the
    binding is still there afterwards. -/
theorem unmentioned_names_unobservable_ticking :
    ((Unmentioned.counting.expand 30).exec { stem := "loop" }).1.map Expr.symbols =
      .ok ["loop%1", "i", "i", "print", "loop%1", "i", "loop%1"] ∧
    ((Unmentioned.ticking 0).exec (Machine.withRootAnd {} Unmentioned.hidden)).2.output =
      "tick\ntick\n" ∧
    ((Unmentioned.ticking 0).exec (Machine.withRootAnd {} Unmentioned.hidden)).2.heap.boundIn?
      "loop%1" 0 = some (.text "hidden") := by
  have hdata : Unmentioned.counting.ClosuresIn (· < 0) := by
    simp [Unmentioned.counting, Expr.ClosuresIn, Value.ClosuresIn]
  have hnames : Unmentioned.counting.names 30 = .ok Unmentioned.counting.symbols := by cbv
  have hextras : ∀ x ∈ Unmentioned.hidden.map Prod.fst,
      x ≠ "print" ∧ x ∉ Unmentioned.counting.symbols := by
    simp [Unmentioned.hidden, Unmentioned.counting, Expr.symbols]
  have hrun : Indifferent {} Unmentioned.counting.symbols Unmentioned.hidden Unmentioned.ticking :=
    (unmentioned_names_unobservable .empty hdata hnames hextras 30 30 { stem := "loop" }).2.1
  have hroot : Heap.size (Machine.heap {}) = 0 := rfl
  obtain ⟨_, hmachine, hkept, _⟩ := hrun
  rw [hroot] at hmachine hkept
  refine ⟨by cbv, ?_, ?_⟩
  · rw [hmachine.output]
    cbv
  · rw [hkept "loop%1" (.head _)]
    cbv

namespace Unmentioned

/-- `(lambda (x) secret)`. -/
def revealing : Expr := .lambda "x" (.name "secret")

/-- What `revealing` gives in the first root frame. -/
def revealed : Datum := .closure 1 "x" (.name "secret") 0

/-- A call of that closure, quoted: no name is mentioned. -/
def calling : Expr := .apply (.quote revealed) (.numeral (.int 1))

end Unmentioned

/-- A quoted closure of the root frame itself looks up a name that is not mentioned. -/
theorem quoted_closure_observes_root :
    ((evaluate 30 30 Unmentioned.revealing 0).exec (Machine.withRoot {})).1 =
      .ok Unmentioned.revealed ∧
    Unmentioned.calling.names 30 = .ok [] ∧
    ((evaluate 30 30 Unmentioned.calling 0).exec (Machine.withRoot {})).1 =
      .error (.fault (.unbound "secret")) ∧
    ((evaluate 30 30 Unmentioned.calling 0).exec
      (Machine.withRootAnd {} [("secret", .int 42)])).1 = .ok (.int 42) := by
  refine ⟨by cbv, by cbv, by cbv, by cbv⟩

end MiniLisp
