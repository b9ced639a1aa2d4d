import MiniLisp.Proofs.Alike
import MiniLisp.Proofs.FreshNames

/-!
# What expansion does to a tree

The expansion of loops as a relation between trees, apart from the supply of names and from
the stack budget. The relation carries the names that the loops were given, in the order in
which they were drawn, and records that these are none of the names that the program uses.

* `Expr.symbols`: the names of an expression, which `Expr.names` finds whenever it ends.
* `Expr.height`: the levels of a tree; `Expr.listing_seeks`: a budget of so many is what the search
  for names takes, and with less it finds the first of them.
* `Expr.Expands`: a tree with its expansion.
* `Expr.expand_expands`: where expansion succeeds, its result is related to the expression by
  names that were drawn after those of the expression had been reserved.
-/

namespace MiniLisp

namespace Expr

/-! ## The names of an expression -/

mutual

/-- The names that an expression binds or refers to. -/
def symbols : Expr → List String
  | name x => [x]
  | define x e | lambda x e => x :: e.symbols
  | letrec x e₁ e₂ => x :: (e₁.symbols ++ e₂.symbols)
  | loop i e₁ e₂ u e₃ e₄ => i :: u :: (e₁.symbols ++ e₂.symbols ++ e₃.symbols ++ e₄.symbols)
  | binary _ e₁ e₂ | apply e₁ e₂ => e₁.symbols ++ e₂.symbols
  | branch e₁ e₂ e₃ => e₁.symbols ++ e₂.symbols ++ e₃.symbols
  | begin es => allSymbols es
  | numeral _ | text _ | truth _ | quote _ | stray _ => []

/-- The names of several expressions. -/
def allSymbols : List Expr → List String
  | [] => []
  | e :: es => e.symbols ++ allSymbols es

end

theorem flatten_map_symbols (es : List Expr) : (es.map symbols).flatten = allSymbols es := by
  induction es with
  | nil => rfl
  | cons e es ih => rw [List.map_cons, List.flatten_cons, ih, allSymbols]

theorem symbols_eq_parts (e : Expr) : e.symbols = e.ownNames ++ allSymbols e.parts := by
  cases e <;> simp [symbols, ownNames, parts, allSymbols]

mutual

/-- The number of levels of a tree. -/
def height : Expr → Nat
  | define _ e | lambda _ e => e.height + 1
  | letrec _ e₁ e₂ | binary _ e₁ e₂ | apply e₁ e₂ => max e₁.height e₂.height + 1
  | branch e₁ e₂ e₃ => max e₁.height (max e₂.height e₃.height) + 1
  | begin es => maxHeight es + 1
  | loop _ e₁ e₂ _ e₃ e₄ => max e₁.height (max e₂.height (max e₃.height e₄.height)) + 1
  | numeral _ | text _ | truth _ | name _ | quote _ | stray _ => 1

/-- The number of levels of the highest of several trees. -/
def maxHeight : List Expr → Nat
  | [] => 0
  | e :: es => max e.height (maxHeight es)

end

theorem height_eq_parts (e : Expr) : e.height = maxHeight e.parts + 1 := by
  cases e <;> simp [height, parts, maxHeight]

end Expr

/-! ## The search for names -/

namespace Listing

variable {l k : Listing} {xs ys : List String} {p q : Prop}

/-- A search for the given names. With enough stack it finds them all, and with less it stops
    after the first of them. -/
def Seeks (l : Listing) (xs : List String) (enough : Prop) : Prop :=
  (enough → l = { found := xs }) ∧ (¬ enough → l.ending = .error .exhausted ∧ l.found <+: xs)

theorem Seeks.append (hl : l.Seeks xs p) (hk : k.Seeks ys q) :
    (l.append k).Seeks (xs ++ ys) (p ∧ q) := by
  by_cases hp : p
  · rw [hl.1 hp]
    refine ⟨fun h => by rw [hk.1 h.2]; rfl, fun h => ?_⟩
    obtain ⟨hending, hfound⟩ := hk.2 fun hq => h ⟨hp, hq⟩
    exact ⟨hending, (List.prefix_append_right_inj xs).mpr hfound⟩
  · obtain ⟨hending, hfound⟩ := hl.2 hp
    have happend : l.append k = l := by rw [Listing.append, hending]
    rw [happend]
    exact ⟨fun h => absurd h.1 hp, fun _ => ⟨hending, hfound.trans (List.prefix_append xs ys)⟩⟩

end Listing

namespace Expr

variable {b : Nat} {e : Expr}

theorem concat_listing_seeks (h : ∀ e : Expr, (e.listing b).Seeks e.symbols (e.height ≤ b))
    (es : List Expr) :
    (Listing.concat (es.map (listing b))).Seeks (allSymbols es) (maxHeight es ≤ b) := by
  induction es with
  | nil => exact ⟨fun _ => rfl, fun h => absurd (Nat.zero_le b) h⟩
  | cons e es ih =>
    rw [maxHeight, Nat.max_le]
    exact (h e).append ih

/-- A budget is enough exactly when the tree has no more levels. -/
theorem listing_seeks (b : Nat) (e : Expr) : (e.listing b).Seeks e.symbols (e.height ≤ b) := by
  induction b generalizing e with
  | zero =>
    have hheight := e.height_eq_parts
    exact ⟨fun h => by omega, fun _ => ⟨rfl, List.nil_prefix⟩⟩
  | succ b ih =>
    have hown : Listing.Seeks { found := e.ownNames } e.ownNames True :=
      ⟨fun _ => rfl, fun h => absurd trivial h⟩
    have hall := hown.append (concat_listing_seeks ih e.parts)
    rw [true_and] at hall
    rw [symbols_eq_parts, height_eq_parts, Nat.add_le_add_iff_right]
    exact hall

theorem listing_of_height_le (h : e.height ≤ b) : e.listing b = { found := e.symbols } :=
  (listing_seeks b e).1 h

theorem listing_of_lt_height (h : b < e.height) :
    (e.listing b).ending = .error .exhausted ∧ (e.listing b).found <+: e.symbols :=
  (listing_seeks b e).2 (Nat.not_le.mpr h)

theorem names_of_height_le (h : e.height ≤ b) : e.names b = .ok e.symbols := by
  rw [names, listing_of_height_le h]
  rfl

theorem names_of_lt_height (h : b < e.height) : e.names b = .error .exhausted := by
  rw [names, (listing_of_lt_height h).1]
  rfl

theorem height_le_of_listing (h : (e.listing b).ending = .ok ()) : e.height ≤ b := by
  by_contra hlt
  rw [(listing_of_lt_height (Nat.not_le.mp hlt)).1] at h
  cases h

theorem height_le_of_names {xs : List String} (h : e.names b = .ok xs) : e.height ≤ b := by
  by_contra hlt
  rw [names_of_lt_height (Nat.not_le.mp hlt)] at h
  cases h

theorem names_eq_symbols {xs : List String} (h : e.names b = .ok xs) : xs = e.symbols := by
  rw [names_of_height_le (height_le_of_names h)] at h
  exact (Except.ok.inj h).symm

/-- The names that an expression can refer to in a root frame: its own, and `print`. -/
def vocabulary (e : Expr) : List String := "print" :: e.symbols

/-! ## Expansion as a relation -/

/-- An expression with its expansion, and the names that its loops were given. `used` holds
    the names of the expression, and all closures in its data are of the given frames. -/
inductive Expands (used : List String) (frames : FrameId → Prop) :
    List String → Expr → Expr → Prop
  | numeral {v : Datum} (data : v.ClosuresIn frames) :
      Expands used frames [] (.numeral v) (.numeral v)
  | text {s : String} : Expands used frames [] (.text s) (.text s)
  | truth {b : Bool} : Expands used frames [] (.truth b) (.truth b)
  | name {x : String} (use : x ∈ used) : Expands used frames [] (.name x) (.name x)
  | define {gs : List String} {x : String} {e e' : Expr} (use : x ∈ used)
      (value : Expands used frames gs e e') :
      Expands used frames gs (.define x e) (.define x e')
  | letrec {gs hs : List String} {x : String} {e e' b b' : Expr} (use : x ∈ used)
      (binding : Expands used frames gs e e') (body : Expands used frames hs b b') :
      Expands used frames (gs ++ hs) (.letrec x e b) (.letrec x e' b')
  | quote {d : Datum} (data : d.ClosuresIn frames) :
      Expands used frames [] (.quote d) (.quote d)
  | binary {gs hs : List String} {op : String} {e e' b b' : Expr}
      (left : Expands used frames gs e e') (right : Expands used frames hs b b') :
      Expands used frames (gs ++ hs) (.binary op e b) (.binary op e' b')
  | branch {gs hs ks : List String} {e e' b b' c c' : Expr}
      (test : Expands used frames gs e e') (yes : Expands used frames hs b b')
      (no : Expands used frames ks c c') :
      Expands used frames (gs ++ (hs ++ ks)) (.branch e b c) (.branch e' b' c')
  | beginNil : Expands used frames [] (.begin []) (.begin [])
  | beginCons {gs hs : List String} {e e' : Expr} {es es' : List Expr}
      (head : Expands used frames gs e e')
      (tail : Expands used frames hs (.begin es) (.begin es')) :
      Expands used frames (gs ++ hs) (.begin (e :: es)) (.begin (e' :: es'))
  | lambda {gs : List String} {x : String} {e e' : Expr} (use : x ∈ used)
      (body : Expands used frames gs e e') :
      Expands used frames gs (.lambda x e) (.lambda x e')
  | apply {gs hs : List String} {e e' b b' : Expr} (callee : Expands used frames gs e e')
      (arg : Expands used frames hs b b') :
      Expands used frames (gs ++ hs) (.apply e b) (.apply e' b')
  | loop {gs hs ks ls : List String} {g i : String} {s s' t t' u u' b b' : Expr}
      (use : i ∈ used) (fresh : g ∉ used) (update : Expands used frames gs u u')
      (test : Expands used frames hs t t') (body : Expands used frames ks b b')
      (start : Expands used frames ls s s') :
      Expands used frames (g :: (gs ++ (hs ++ (ks ++ ls)))) (.loop i s t i u b)
        (ofLoop g i s' t' u' b')

/-- Loops are the expressions that expansion gives another form. -/
theorem eq_loop_or_ne (e : Expr) :
    (∃ i s t a u b, e = .loop i s t a u b) ∨ ∀ i s t a u b, e ≠ .loop i s t a u b := by
  cases e with
  | loop i s t a u b => exact .inl ⟨i, s, t, a, u, b, rfl⟩
  | _ => exact .inr fun _ _ _ _ _ _ => nofun

/-- The parts of a sequence are expanded one by one. -/
theorem Expands.begin_inv {used : List String} {frames : FrameId → Prop} {gs : List String}
    {es : List Expr} {e' : Expr} (h : Expands used frames gs (.begin es) e') :
    ∃ es', e' = .begin es' ∧
      List.Forall₂ (fun e e' => ∃ hs, Expands used frames hs e e') es es' := by
  induction es generalizing gs e' with
  | nil =>
    cases h
    exact ⟨[], rfl, .nil⟩
  | cons e es ih =>
    cases h with
    | beginCons hhead htail =>
      obtain ⟨es', heq, hall⟩ := ih htail
      cases heq
      exact ⟨_, rfl, .cons ⟨_, hhead⟩ hall⟩

/-- Expansion keeps the data of an expression. -/
theorem Expands.closuresIn {used : List String} {frames : FrameId → Prop} {gs : List String}
    {e e' : Expr} (h : Expands used frames gs e e') : e'.ClosuresIn frames := by
  induction h with
  | numeral hd | quote hd => exact hd
  | text | truth | name | beginNil => trivial
  | define _ _ ih | lambda _ _ ih => exact ih
  | letrec _ _ _ ihe ihb => exact ⟨ihe, ihb⟩
  | binary _ _ ihl ihr => exact ⟨ihl, ihr⟩
  | branch _ _ _ iht ihy ihn => exact ⟨iht, ihy, ihn⟩
  | beginCons _ _ ihe ihes => exact ⟨ihe, ihes⟩
  | apply _ _ ihe ihb => exact ⟨ihe, ihb⟩
  | loop _ _ _ _ _ _ ihu iht ihb ihs =>
    exact ⟨⟨iht, ⟨ihb, ⟨trivial, ihu⟩, trivial⟩, trivial⟩, trivial, ihs⟩

section Runs

variable {used : List String} {frames : FrameId → Prop} {names names' : FreshNames}

theorem mapM_expands {expand : Expr → Naming Expr} {es es' : List Expr}
    (hexpand : ∀ e ∈ es, ∀ {e' names names'}, (expand e).exec names = (.ok e', names') →
      names.Avoids used →
      ∃ gs, FreshNames.Draws gs names names' ∧ Expands used frames gs e e')
    (havoids : names.Avoids used)
    (h : (es.mapM expand).exec names = (.ok es', names')) :
    ∃ gs, FreshNames.Draws gs names names' ∧
      Expands used frames gs (.begin es) (.begin es') := by
  induction es generalizing es' names with
  | nil =>
    cases h
    exact ⟨[], .nil, .beginNil⟩
  | cons e es ih =>
    rw [List.mapM_cons] at h
    obtain ⟨e', names₁, he, h⟩ := Naming.exec_bind_ok_iff.mp h
    obtain ⟨gs, hgs, hee'⟩ := hexpand e (List.mem_cons_self ..) he havoids
    obtain ⟨es', names₂, hes, h⟩ := Naming.exec_bind_ok_iff.mp h
    cases h
    obtain ⟨hs, hhs, hees'⟩ := ih (fun e he => hexpand e (List.mem_cons_of_mem _ he))
      (hgs.avoids havoids) hes
    exact ⟨gs ++ hs, hgs.append hhs, .beginCons hee' hees'⟩

/-- A loop that is expanded assigns its own variable, and is given the next name. -/
theorem expandLoops_loop_inv {b : Nat} {i assigned : String} {start test update body e' : Expr}
    (h : ((loop i start test assigned update body).expandLoops (b + 1)).exec names =
      (.ok e', names')) :
    assigned = i ∧ ∃ update' names₁ test' names₂ body' names₃ start',
      (update.expandLoops b).exec names.draw.2 = (.ok update', names₁) ∧
      (test.expandLoops b).exec names₁ = (.ok test', names₂) ∧
      (body.expandLoops b).exec names₂ = (.ok body', names₃) ∧
      (start.expandLoops b).exec names₃ = (.ok start', names') ∧
      e' = ofLoop names.draw.1 i start' test' update' body' := by
  rw [expandLoops] at h
  by_cases hassigned : assigned ≠ i
  · rw [if_pos hassigned] at h
    cases h
  · rw [if_neg hassigned] at h
    obtain ⟨g, names₁, hg, h⟩ := Naming.exec_bind_ok_iff.mp h
    cases hg
    obtain ⟨update', names₁, h₁, h⟩ := Naming.exec_bind_ok_iff.mp h
    obtain ⟨test', names₂, h₂, h⟩ := Naming.exec_bind_ok_iff.mp h
    obtain ⟨body', names₃, h₃, h⟩ := Naming.exec_bind_ok_iff.mp h
    obtain ⟨start', names₄, h₄, h⟩ := Naming.exec_bind_ok_iff.mp h
    cases h
    exact ⟨not_not.mp hassigned, update', names₁, test', names₂, body', names₃, start', h₁, h₂, h₃,
      h₄, rfl⟩

/-- Where expansion succeeds, it has replaced every loop by a procedure under a name drawn
    for it. -/
theorem expandLoops_expands {b : Nat} {e e' : Expr} (hsymbols : ∀ x ∈ e.symbols, x ∈ used)
    (hdata : e.ClosuresIn frames)
    (h : (e.expandLoops b).exec names = (.ok e', names')) (havoids : names.Avoids used) :
    ∃ gs, FreshNames.Draws gs names names' ∧ Expands used frames gs e e' := by
  induction b generalizing e e' names names' with
  | zero => cases h
  | succ b ih =>
    cases e with
    | numeral v => cases h; exact ⟨[], .nil, .numeral hdata⟩
    | text s => cases h; exact ⟨[], .nil, .text⟩
    | truth t => cases h; exact ⟨[], .nil, .truth⟩
    | quote d => cases h; exact ⟨[], .nil, .quote hdata⟩
    | name x => cases h; exact ⟨[], .nil, .name (hsymbols x (List.mem_cons_self ..))⟩
    | stray d =>
      obtain ⟨s, _, _, hs⟩ := Naming.exec_bind_ok_iff.mp h
      cases hs
    | define x e =>
      simp only [symbols, List.forall_mem_cons] at hsymbols
      obtain ⟨e₁, _, he, h⟩ := Naming.exec_bind_ok_iff.mp h
      obtain ⟨gs, hgs, hee⟩ := ih hsymbols.2 hdata he havoids
      cases h
      exact ⟨gs, hgs, .define hsymbols.1 hee⟩
    | lambda x e =>
      simp only [symbols, List.forall_mem_cons] at hsymbols
      obtain ⟨e₁, _, he, h⟩ := Naming.exec_bind_ok_iff.mp h
      obtain ⟨gs, hgs, hee⟩ := ih hsymbols.2 hdata he havoids
      cases h
      exact ⟨gs, hgs, .lambda hsymbols.1 hee⟩
    | letrec x e₁ e₂ =>
      simp only [symbols, List.forall_mem_cons, List.forall_mem_append] at hsymbols
      obtain ⟨e₁', _, h₁, h⟩ := Naming.exec_bind_ok_iff.mp h
      obtain ⟨gs, hgs, hee₁⟩ := ih hsymbols.2.1 hdata.1 h₁ havoids
      obtain ⟨e₂', _, h₂, h⟩ := Naming.exec_bind_ok_iff.mp h
      obtain ⟨hs, hhs, hee₂⟩ := ih hsymbols.2.2 hdata.2 h₂ (hgs.avoids havoids)
      cases h
      exact ⟨gs ++ hs, hgs.append hhs, .letrec hsymbols.1 hee₁ hee₂⟩
    | binary op e₁ e₂ =>
      simp only [symbols, List.forall_mem_append] at hsymbols
      obtain ⟨e₁', _, h₁, h⟩ := Naming.exec_bind_ok_iff.mp h
      obtain ⟨gs, hgs, hee₁⟩ := ih hsymbols.1 hdata.1 h₁ havoids
      obtain ⟨e₂', _, h₂, h⟩ := Naming.exec_bind_ok_iff.mp h
      obtain ⟨hs, hhs, hee₂⟩ := ih hsymbols.2 hdata.2 h₂ (hgs.avoids havoids)
      cases h
      exact ⟨gs ++ hs, hgs.append hhs, .binary hee₁ hee₂⟩
    | apply e₁ e₂ =>
      simp only [symbols, List.forall_mem_append] at hsymbols
      obtain ⟨e₁', _, h₁, h⟩ := Naming.exec_bind_ok_iff.mp h
      obtain ⟨gs, hgs, hee₁⟩ := ih hsymbols.1 hdata.1 h₁ havoids
      obtain ⟨e₂', _, h₂, h⟩ := Naming.exec_bind_ok_iff.mp h
      obtain ⟨hs, hhs, hee₂⟩ := ih hsymbols.2 hdata.2 h₂ (hgs.avoids havoids)
      cases h
      exact ⟨gs ++ hs, hgs.append hhs, .apply hee₁ hee₂⟩
    | branch e₁ e₂ e₃ =>
      simp only [symbols, List.forall_mem_append] at hsymbols
      obtain ⟨e₁', _, h₁, h⟩ := Naming.exec_bind_ok_iff.mp h
      obtain ⟨gs, hgs, hee₁⟩ := ih hsymbols.1.1 hdata.1 h₁ havoids
      have hav₁ := hgs.avoids havoids
      obtain ⟨e₂', _, h₂, h⟩ := Naming.exec_bind_ok_iff.mp h
      obtain ⟨hs, hhs, hee₂⟩ := ih hsymbols.1.2 hdata.2.1 h₂ hav₁
      obtain ⟨e₃', _, h₃, h⟩ := Naming.exec_bind_ok_iff.mp h
      obtain ⟨ks, hks, hee₃⟩ := ih hsymbols.2 hdata.2.2 h₃ (hhs.avoids hav₁)
      cases h
      exact ⟨_, hgs.append (hhs.append hks), .branch hee₁ hee₂ hee₃⟩
    | begin es =>
      obtain ⟨es', _, hes, h⟩ := Naming.exec_bind_ok_iff.mp h
      cases h
      refine mapM_expands (fun e he _ _ _ h hav => ?_) havoids hes
      refine ih (fun x hx => hsymbols x ?_) (allClosuresIn_iff.mp hdata e he) h hav
      rw [symbols, ← flatten_map_symbols]
      exact List.mem_flatten.mpr ⟨_, List.mem_map_of_mem he, hx⟩
    | loop i start test assigned update body =>
      simp only [symbols, List.forall_mem_cons, List.forall_mem_append] at hsymbols
      obtain ⟨hi, _, ⟨⟨hstart, htest⟩, hupdate⟩, hbody⟩ := hsymbols
      obtain ⟨dstart, dtest, dupdate, dbody⟩ := hdata
      obtain ⟨rfl, update', _, test', _, body', _, start', h₁, h₂, h₃, h₄, rfl⟩ :=
        expandLoops_loop_inv h
      have hav₁ : names.draw.2.Avoids used := (FreshNames.Draws.cons .nil).avoids havoids
      obtain ⟨gs, hgs, hu⟩ := ih hupdate dupdate h₁ hav₁
      have hav₂ := hgs.avoids hav₁
      obtain ⟨hs, hhs, ht⟩ := ih htest dtest h₂ hav₂
      have hav₃ := hhs.avoids hav₂
      obtain ⟨ks, hks, hbd⟩ := ih hbody dbody h₃ hav₃
      obtain ⟨ls, hls, hst⟩ := ih hstart dstart h₄ (hks.avoids hav₃)
      exact ⟨_, .cons (hgs.append (hhs.append (hks.append hls))),
        .loop hi havoids.draw_notMem hu ht hbd hst⟩

@[simp] theorem exec_reserveNames (b : Nat) (e : Expr) (names : FreshNames) :
    (e.reserveNames b).exec names =
      ((e.listing b).ending, names.reserveAll (e.listing b).found) := rfl

/-- Expansion has succeeded only if all names of the expression were found. -/
theorem height_le_of_expand {b : Nat} {e e' : Expr}
    (h : (e.expand b).exec names = (.ok e', names')) : e.height ≤ b := by
  obtain ⟨_, _, hreserve, _⟩ := Naming.exec_bind_ok_iff.mp h
  exact height_le_of_listing (congrArg Prod.fst hreserve)

/-- The names of an expression are reserved before its loops are named. -/
theorem expand_expands {b : Nat} {e e' : Expr} (hdata : e.ClosuresIn frames)
    (h : (e.expand b).exec names = (.ok e', names')) :
    ∃ gs, FreshNames.Draws gs (names.reserveAll e.symbols) names' ∧
      Expands e.vocabulary frames gs e e' := by
  have hheight := height_le_of_expand h
  obtain ⟨_, _, hreserve, h⟩ := Naming.exec_bind_ok_iff.mp h
  rw [exec_reserveNames, listing_of_height_le hheight] at hreserve
  cases hreserve
  refine expandLoops_expands (fun x hx => List.mem_cons_of_mem _ hx) hdata h fun x hx => ?_
  rcases List.mem_cons.mp hx with rfl | hx
  · exact .inr (by decide)
  · exact .inl (FreshNames.mem_reserveAll.mpr (.inl hx))

end Runs

end Expr

end MiniLisp
