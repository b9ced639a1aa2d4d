import MiniLisp.Proofs.CodeClass

/-!
# What is read from a datum

The grammar of programs, as a relation between data and the expressions that they denote, and
what it says of the expressions that are read.

* `Denotes`: the relation, with one rule for each form.
* `Expr.read_denotes`: a datum denotes the expression that is read from it.
* `Expr.Readable`, `Expr.read_readable`: only numbers are literal numbers, operators exist, and
  a sequence has parts; a keyword is never applied.
* `Expr.read_closuresIn`, `Expr.ofProgram_closuresIn`: the closures in what is read are closures
  in the datum.
-/

namespace MiniLisp

/-- A datum denotes an expression. -/
inductive Denotes : Datum → Expr → Prop
  | bool {t : Bool} : Denotes (.bool t) (.truth t)
  | number {v : Datum} (number : v.isNumber = true) : Denotes v (.numeral v)
  | text {s : String} : Denotes (.text s) (.text s)
  | yes : Denotes (.symbol "#t") (.truth true)
  | no : Denotes (.symbol "#f") (.truth false)
  | name {x : String} (notYes : x ≠ "#t") (notNo : x ≠ "#f") : Denotes (.symbol x) (.name x)
  | define {i : ObjectId} {x : String} {d : Datum} {e : Expr} (value : Denotes d e) :
      Denotes (.list i [.symbol "define", .symbol x, d]) (.define x e)
  | letrec {i j k : ObjectId} {x : String} {d₁ d₂ : Datum} {e₁ e₂ : Expr} (binding : Denotes d₁ e₁)
      (body : Denotes d₂ e₂) :
      Denotes (.list i [.symbol "letrec", .list j [.list k [.symbol x, d₁]], d₂]) (.letrec x e₁ e₂)
  | quote {i : ObjectId} {d : Datum} : Denotes (.list i [.symbol "quote", d]) (.quote d)
  | branch {i : ObjectId} {d₁ d₂ d₃ : Datum} {e₁ e₂ e₃ : Expr} (test : Denotes d₁ e₁)
      (yes : Denotes d₂ e₂) (no : Denotes d₃ e₃) :
      Denotes (.list i [.symbol "if", d₁, d₂, d₃]) (.branch e₁ e₂ e₃)
  | begin {i : ObjectId} {ds : List Datum} {es : List Expr} (nonempty : ds ≠ [])
      (length : ds.length = es.length) (parts : ∀ d e, (d, e) ∈ ds.zip es → Denotes d e) :
      Denotes (.list i (.symbol "begin" :: ds)) (.begin es)
  | lambda {i j : ObjectId} {x : String} {d : Datum} {e : Expr} (body : Denotes d e) :
      Denotes (.list i [.symbol "lambda", .list j [.symbol x], d]) (.lambda x e)
  | loop {i j k : ObjectId} {x y : String} {d₁ d₂ d₃ d₄ : Datum} {e₁ e₂ e₃ e₄ : Expr}
      (start : Denotes d₁ e₁) (test : Denotes d₂ e₂) (update : Denotes d₃ e₃)
      (body : Denotes d₄ e₄) :
      Denotes (.list i [.symbol "for", .list j [.symbol x, d₁], d₂, .list k [.symbol y, d₃], d₄])
        (.loop x e₁ e₂ y e₃ e₄)
  | binary {i : ObjectId} {op : Operator} {d₁ d₂ : Datum} {e₁ e₂ : Expr} (left : Denotes d₁ e₁)
      (right : Denotes d₂ e₂) :
      Denotes (.list i [.symbol op.text, d₁, d₂]) (.binary op.text e₁ e₂)
  | apply {i : ObjectId} {d₁ d₂ : Datum} {e₁ e₂ : Expr} (other : Reader.head? d₁ = none)
      (callee : Denotes d₁ e₁) (arg : Denotes d₂ e₂) : Denotes (.list i [d₁, d₂]) (.apply e₁ e₂)

/-! ## Reading -/

namespace Reader

variable {budget : Nat} {read : Datum → Outcome Expr}

theorem symbolAs_ok {role : NameRole} {d : Datum} {x : String}
    (h : symbolAs budget role d = .ok x) : d = .symbol x := by
  unfold symbolAs at h
  split at h
  · cases h
    rfl
  · obtain ⟨_, _, h⟩ := Outcome.bind_ok_iff.mp h
    cases h

theorem symbol_denotes (x : String) : Denotes (.symbol x) (symbol x) := by
  unfold symbol
  split_ifs with hyes hno
  · exact hyes ▸ .yes
  · exact hno ▸ .no
  · exact .name hyes hno

variable (hread : ∀ {d e}, read d = .ok e → Denotes d e)
include hread

theorem pair_ok {clause : Clause} {d : Datum} {x : String} {e : Expr}
    (h : pair budget read clause d = .ok (x, e)) :
    ∃ i d', d = .list i [.symbol x, d'] ∧ Denotes d' e := by
  unfold pair at h
  split at h
  · obtain ⟨y, hy, h⟩ := Outcome.bind_ok_iff.mp h
    obtain ⟨e', he, h⟩ := Outcome.bind_ok_iff.mp h
    cases h
    exact ⟨_, _, by rw [symbolAs_ok hy], hread he⟩
  · cases h

theorem form_denotes {head : Head} {parts : List Datum} {e : Expr}
    (h : form budget read head parts = .ok e) (i : ObjectId) :
    Denotes (.list i (.symbol head.text :: parts)) e := by
  unfold form at h
  split at h
  · -- a definition
    obtain ⟨x, hx, h⟩ := Outcome.bind_ok_iff.mp h
    obtain ⟨e, he, h⟩ := Outcome.bind_ok_iff.mp h
    cases h
    rw [symbolAs_ok hx]
    exact .define (hread he)
  · -- a `letrec`
    split at h
    · obtain ⟨x, hx, h⟩ := Outcome.bind_ok_iff.mp h
      obtain ⟨e₁, h₁, h⟩ := Outcome.bind_ok_iff.mp h
      obtain ⟨e₂, h₂, h⟩ := Outcome.bind_ok_iff.mp h
      cases h
      rw [symbolAs_ok hx]
      exact .letrec (hread h₁) (hread h₂)
    · cases h
    · cases h
  · -- a quotation
    cases h
    exact .quote
  · -- a choice
    obtain ⟨e₁, h₁, h⟩ := Outcome.bind_ok_iff.mp h
    obtain ⟨e₂, h₂, h⟩ := Outcome.bind_ok_iff.mp h
    obtain ⟨e₃, h₃, h⟩ := Outcome.bind_ok_iff.mp h
    cases h
    exact .branch (hread h₁) (hread h₂) (hread h₃)
  · cases h
  · -- a sequence
    next parts hparts =>
    obtain ⟨es, hes, h⟩ := Outcome.bind_ok_iff.mp h
    cases h
    obtain ⟨hlength, hparts'⟩ := Outcome.mapM_ok hes
    exact .begin hparts hlength fun d e hmem => hread (hparts' d e hmem)
  · -- a procedure
    split at h
    · obtain ⟨x, hx, h⟩ := Outcome.bind_ok_iff.mp h
      obtain ⟨e, he, h⟩ := Outcome.bind_ok_iff.mp h
      cases h
      rw [symbolAs_ok hx]
      exact .lambda (hread he)
    · cases h
  · -- a loop
    obtain ⟨⟨x, start⟩, hstart, h⟩ := Outcome.bind_ok_iff.mp h
    obtain ⟨⟨y, update⟩, hupdate, h⟩ := Outcome.bind_ok_iff.mp h
    obtain ⟨test, htest, h⟩ := Outcome.bind_ok_iff.mp h
    obtain ⟨body, hbody, h⟩ := Outcome.bind_ok_iff.mp h
    cases h
    obtain ⟨j, d₁, rfl, h₁⟩ := pair_ok hread hstart
    obtain ⟨k, d₃, rfl, h₃⟩ := pair_ok hread hupdate
    exact .loop h₁ (hread htest) h₃ (hread hbody)
  · -- an operator
    obtain ⟨e₁, h₁, h⟩ := Outcome.bind_ok_iff.mp h
    obtain ⟨e₂, h₂, h⟩ := Outcome.bind_ok_iff.mp h
    cases h
    exact .binary (hread h₁) (hread h₂)
  · cases h

end Reader

theorem Expr.read_denotes {b : Nat} {d : Datum} {e : Expr} (h : read b d = .ok e) :
    Denotes d e := by
  induction b generalizing d e with
  | zero => cases h
  | succ b ih =>
    cases d with
    | bool _ =>
      cases h
      exact .bool
    | int _ | frac _ | float _ _ =>
      cases h
      exact .number rfl
    | text _ =>
      cases h
      exact .text
    | symbol x =>
      cases h
      exact Reader.symbol_denotes x
    | list i items =>
      cases items with
      | nil => cases h
      | cons first parts =>
        unfold read at h
        dsimp only at h
        split at h
        · next head hhead =>
          cases first with
          | symbol x =>
            obtain rfl := Head.text_of_ofName? hhead
            exact Reader.form_denotes ih h i
          | _ => cases hhead
        · next hother =>
          split at h
          · obtain ⟨e₁, h₁, h⟩ := Outcome.bind_ok_iff.mp h
            obtain ⟨e₂, h₂, h⟩ := Outcome.bind_ok_iff.mp h
            cases h
            exact .apply hother (ih h₁) (ih h₂)
          · cases h
    | _ =>
      obtain ⟨s, _, h⟩ := Outcome.bind_ok_iff.mp h
      cases h

/-! ## Expressions that can be read -/

/-- What is said of one node of an expression that can be read. -/
def Expr.ReadableNode : Expr → Prop
  | .numeral v => v.isNumber = true
  | .name x => x ≠ "#t" ∧ x ≠ "#f"
  | .binary op _ _ => ∃ o, Operator.ofText? op = some o
  | .begin es => es ≠ []
  | .apply (.name x) _ => Head.ofName? x = none
  | .stray _ => False
  | _ => True

/-- Literal numbers are numbers, no name is that of a truth value, operators exist, sequences
    have parts, no keyword is applied, and no datum stands for an expression. -/
def Expr.Readable (e : Expr) : Prop := e.Each ReadableNode

theorem Denotes.readable {d : Datum} {e : Expr} (h : Denotes d e) : e.Readable := by
  induction h with
  | bool | text | yes | no | quote => trivial
  | number hv => exact hv
  | name hyes hno => exact ⟨hyes, hno⟩
  | define _ ih | lambda _ ih => exact ⟨trivial, ih⟩
  | letrec _ _ ih₁ ih₂ => exact ⟨trivial, ih₁, ih₂⟩
  | branch _ _ _ ih₁ ih₂ ih₃ => exact ⟨trivial, ih₁, ih₂, ih₃⟩
  | begin hnonempty hlength _ ih =>
    refine ⟨fun hnil => ?_, Expr.eachOf_iff.mpr fun e he => ?_⟩
    · rw [hnil, List.length_nil] at hlength
      exact hnonempty (List.eq_nil_of_length_eq_zero hlength)
    · obtain ⟨d, hmem⟩ := exists_mem_zip hlength he
      exact ih d e hmem
  | loop _ _ _ _ ih₁ ih₂ ih₃ ih₄ => exact ⟨trivial, ih₁, ih₂, ih₃, ih₄⟩
  | binary _ _ ih₁ ih₂ => exact ⟨⟨_, Operator.ofText?_text _⟩, ih₁, ih₂⟩
  | apply hother hcallee _ ih₁ ih₂ =>
    refine ⟨?_, ih₁, ih₂⟩
    cases hcallee with
    | name => exact hother
    | _ => trivial

theorem Expr.read_readable {b : Nat} {d : Datum} {e : Expr} (h : read b d = .ok e) : e.Readable :=
  (read_denotes h).readable

/-! ## Closures -/

theorem Denotes.closuresIn {frames : FrameId → Prop} {d : Datum} {e : Expr} (h : Denotes d e)
    (hd : d.ClosuresIn frames) : e.ClosuresIn frames := by
  induction h with
  | bool | text | yes | no | name => trivial
  | number => exact hd
  | quote => exact hd.2.1
  | define _ ih | lambda _ ih => exact ih hd.2.2.1
  | letrec _ _ ih₁ ih₂ => exact ⟨ih₁ hd.2.1.1.2.1, ih₂ hd.2.2.1⟩
  | branch _ _ _ ih₁ ih₂ ih₃ => exact ⟨ih₁ hd.2.1, ih₂ hd.2.2.1, ih₃ hd.2.2.2.1⟩
  | begin _ hlength _ ih =>
    refine Expr.allClosuresIn_iff.mpr fun e he => ?_
    obtain ⟨d, hmem⟩ := exists_mem_zip hlength he
    exact ih d e hmem (Value.allClosuresIn_iff.mp hd.2 d (List.of_mem_zip hmem).1)
  | loop _ _ _ _ ih₁ ih₂ ih₃ ih₄ =>
    exact ⟨ih₁ hd.2.1.2.1, ih₂ hd.2.2.1, ih₃ hd.2.2.2.1.2.1, ih₄ hd.2.2.2.2.1⟩
  | binary _ _ ih₁ ih₂ => exact ⟨ih₁ hd.2.1, ih₂ hd.2.2.1⟩
  | apply _ _ _ ih₁ ih₂ => exact ⟨ih₁ hd.1, ih₂ hd.2.1⟩

namespace Expr

variable {frames : FrameId → Prop}

theorem read_closuresIn {b : Nat} {d : Datum} {e : Expr} (hd : d.ClosuresIn frames)
    (h : read b d = .ok e) : e.ClosuresIn frames := (read_denotes h).closuresIn hd

theorem ofProgram_closuresIn {b : Nat} {e e' : Expr} (he : e.ClosuresIn frames)
    (h : e.ofProgram b = .ok e') : e'.ClosuresIn frames := by
  cases e with
  | stray d => exact read_closuresIn he h
  | _ =>
    cases h
    exact he

end Expr

end MiniLisp
