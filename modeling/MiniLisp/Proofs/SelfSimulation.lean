import MiniLisp.Proofs.Activation
import MiniLisp.Proofs.Simulation

/-!
# Runs that simulate themselves

A simulation may relate each expression, in each frame, to itself only. What it says about
machines is then an invariant of evaluation. It holds at the end of a run, and also wherever
another evaluation is entered on the way.

* `Simulation.Diagonal`: a simulation of this kind.
* `Simulation.Diagonal.evaluate_tracks`: evaluation under any bounds follows it.
* `Simulation.At`, `Simulation.Diagonal.visits`: it holds wherever an evaluation enters another.
-/

namespace MiniLisp

namespace Simulation

variable {World : Type} [Preorder World]

/-- Related code is the same on both sides and matches itself. -/
structure Diagonal (S : Simulation World) : Prop where
  same : ∀ {w e₁ f₁ e₂ f₂}, S.code w e₁ f₁ e₂ f₂ → e₁ = e₂ ∧ f₁ = f₂
  matches_self : ∀ {w e f}, S.code w e f e f → S.Matches w e f e f

variable {S : Simulation World} {w : World}

theorem throw_tracks (s : Stop) : S.Tracks (fun _ _ => throw s) fun _ _ => throw s :=
  fun _ _ _ _ _ _ => .throw s

namespace Diagonal

/-! ## Evaluation -/

theorem form_tracks (hS : S.Diagonal) (budget : Nat) {inner last call : Evaluation}
    (hinner : S.Tracks inner inner) (hlast : S.Tracks last last) (hcall : S.Tracks call call) :
    S.Tracks (Direct.form inner last call budget) (Direct.form inner last call budget) := by
  intro w e f _ _ hcode
  obtain ⟨rfl, rfl⟩ := hS.same hcode
  exact S.form_simulates hinner hlast hcall budget (hS.matches_self hcode)

theorem evaluate_tracks (hS : S.Diagonal) (rounds budget : Nat) :
    S.Tracks (evaluate rounds budget) (evaluate rounds budget) :=
  evaluate_induction (P := fun ev => S.Tracks ev ev) (throw_tracks _) (throw_tracks _)
    (fun budget => hS.form_tracks budget) rounds budget

theorem direct_tracks (hS : S.Diagonal) (budget : Nat) :
    S.Tracks (direct budget) (direct budget) := by
  induction budget with
  | zero => exact throw_tracks _
  | succ budget ih => exact hS.form_tracks budget ih ih ih

end Diagonal

/-! ## The evaluations that an evaluation enters -/

/-- An evaluation starts with code and a machine that are related to themselves. -/
structure At (S : Simulation World) (w : World) (p : Point) : Prop where
  code : S.code w p.code p.frame p.code p.frame
  machines : S.machines w p.machine p.machine

variable {p q : Point} {b : Nat} {e : Expr} {f : FrameId} {m m' : Machine} {v : Datum}

/-- What a computation gives and leaves is related to itself, if its start is. -/
theorem ok_of_simulates {α : Type} {R : World → α → α → Prop} {x : Eval α} {a : α}
    (h : S.Simulates w R x x) (hm : S.machines w m m) (hx : x.exec m = (.ok a, m')) :
    ∃ w', w ≤ w' ∧ S.machines w' m' m' ∧ R w' a a := by
  obtain ⟨w', hw, hm', hr⟩ := h m m hm
  rw [hx] at hm' hr
  exact ⟨w', hw, hm', hr⟩

namespace Diagonal

theorem direct_ok (hS : S.Diagonal) (hcode : S.code w e f e f) (hm : S.machines w m m)
    (h : (direct b e f).exec m = (.ok v, m')) :
    ∃ w', w ≤ w' ∧ S.machines w' m' m' ∧ S.values w' v v :=
  ok_of_simulates (hS.direct_tracks b w e f e f hcode) hm h

theorem begin_enters (hS : S.Diagonal) {es : List Expr} {ps : List (FrameId × String)}
    (hes : ∀ e ∈ es, S.code w e f e f) (hm : S.machines w m m)
    (h : Point.Enters ⟨b + 1, .begin es, f, m, ps⟩ q) : ∃ w', w ≤ w' ∧ S.At w' q := by
  induction es generalizing w m with
  | nil => cases h
  | cons e es ih =>
    obtain ⟨he, hes⟩ := List.forall_mem_cons.mp hes
    cases h with
    | first => exact ⟨w, le_rfl, he, hm⟩
    | later hfirst hrest =>
      obtain ⟨w₁, hw₁, hm₁, _⟩ := hS.direct_ok he hm hfirst
      obtain ⟨w₂, hw₂, hq⟩ := ih (fun e he => S.code_mono hw₁ (hes e he)) hm₁ hrest
      exact ⟨w₂, hw₁.trans hw₂, hq⟩

theorem enters (hS : S.Diagonal) (hp : S.At w p) (h : p.Enters q) :
    ∃ w', w ≤ w' ∧ S.At w' q := by
  obtain ⟨hcode, hm⟩ := hp
  have hmatches := hS.matches_self hcode
  -- A part that comes after another one starts where that one has ended.
  have hafter : ∀ {b e₁ e₂ v m'}, S.code w e₁ p.frame e₁ p.frame →
      S.code w e₂ p.frame e₂ p.frame → (direct b e₁ p.frame).exec p.machine = (.ok v, m') →
      ∀ b' ps, ∃ w', w ≤ w' ∧ S.At w' ⟨b', e₂, p.frame, m', ps⟩ := by
    intro b e₁ e₂ v m' he₁ he₂ h₁ b' ps
    obtain ⟨w', hw, hm', _⟩ := hS.direct_ok he₁ hm h₁
    exact ⟨w', hw, S.code_mono hw he₂, hm'⟩
  cases h with
  | define =>
    cases hmatches with
    | define he _ => exact ⟨w, le_rfl, he, hm⟩
  | binding =>
    cases hmatches with
    | letrec henter =>
      obtain ⟨w', hw, hm', he, _⟩ := ok_of_simulates henter hm (Eval.exec_bindFrame ..)
      exact ⟨w', hw, he, hm'⟩
  | body hbound _ =>
    cases hmatches with
    | letrec henter =>
      obtain ⟨w₁, hw₁, hm₁, he, hb, hx⟩ := ok_of_simulates henter hm (Eval.exec_bindFrame ..)
      obtain ⟨w₂, hw₂, hm₂, hv⟩ := hS.direct_ok he hm₁ hbound
      obtain ⟨w₃, hw₃, hm₃, _⟩ := ok_of_simulates (hx w₂ hw₂ _ _ hv) hm₂ (Eval.exec_define ..)
      exact ⟨w₃, hw₁.trans (hw₂.trans hw₃), S.code_mono (hw₂.trans hw₃) hb, hm₃⟩
  | left =>
    cases hmatches with
    | binary he _ => exact ⟨w, le_rfl, he, hm⟩
  | right hleft =>
    cases hmatches with
    | binary he hb => exact hafter he hb hleft _ _
  | test =>
    cases hmatches with
    | branch he _ _ => exact ⟨w, le_rfl, he, hm⟩
  | yes htest _ =>
    cases hmatches with
    | branch he hy _ => exact hafter he hy htest _ _
  | no htest _ =>
    cases hmatches with
    | branch he _ hn => exact hafter he hn htest _ _
  | first =>
    cases hmatches with
    | begin hes => exact hS.begin_enters (List.forall₂_same.mp hes) hm .first
  | later hfirst hrest =>
    cases hmatches with
    | begin hes => exact hS.begin_enters (List.forall₂_same.mp hes) hm (.later hfirst hrest)
  | callee =>
    cases hmatches with
    | apply he _ => exact ⟨w, le_rfl, he, hm⟩
  | arg hcallee =>
    cases hmatches with
    | apply he hb => exact hafter he hb hcallee _ _
  | call hcallee harg =>
    cases hmatches with
    | apply he hb =>
      obtain ⟨w₁, hw₁, hm₁, hclosure⟩ := hS.direct_ok he hm hcallee
      obtain ⟨w₂, hw₂, hm₂, hv⟩ := hS.direct_ok (S.code_mono hw₁ hb) hm₁ harg
      have hclosure := S.values_mono hw₂ hclosure
      cases hclosure with
      | atom hatom => cases hatom
      | closure _ hc =>
        obtain ⟨w₃, hw₃, hm₃, hbody⟩ :=
          ok_of_simulates (S.call hc hv) hm₂ (Eval.exec_bindFrame ..)
        exact ⟨w₃, hw₁.trans (hw₂.trans hw₃), hbody, hm₃⟩

theorem visits (hS : S.Diagonal) (hp : S.At w p) (h : p.Visits q) :
    ∃ w', w ≤ w' ∧ S.At w' q := by
  induction h with
  | refl => exact ⟨w, le_rfl, hp⟩
  | tail _ hstep ih =>
    obtain ⟨w₁, hw₁, hq⟩ := ih
    obtain ⟨w₂, hw₂, hr⟩ := hS.enters hq hstep
    exact ⟨w₂, hw₁.trans hw₂, hr⟩

end Diagonal

end Simulation

end MiniLisp
