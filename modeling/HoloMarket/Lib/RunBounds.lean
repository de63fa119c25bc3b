import Mathlib.Algebra.BigOperators.Group.List.Basic
import Mathlib.Algebra.GroupWithZero.Nat
import HoloMarket.Lib.Machine

/-!
# Bounds on runs

The run rule for events that are admitted whatever the state, with what the run gives
out, and the potential method: what the steps of a run cost is paid from a potential
that the events raise by their own credit at most.
-/

namespace HoloMarket
namespace Machine

variable {σ ε ω : Type*} {step : σ → ε → Option σ} {out : σ → ε → List ω}

theorem run_outputs_of_forall {I : σ → List ω → Prop} {P : ε → Prop}
    (hstep : ∀ s e s' l, I s l → P e → step s e = some s' → I s' (l ++ out s e)) {s s' : σ}
    {l : List ω} {es : List ε} (hI : I s l) (hP : ∀ e ∈ es, P e)
    (hrun : run step s es = some s') : I s' (l ++ outputs step out s es) := by
  induction es generalizing s l with
  | nil =>
    cases hrun
    unfold outputs
    rwa [List.append_nil]
  | cons e es ih =>
    obtain ⟨s₁, h₁, hrest⟩ := Option.bind_eq_some_iff.mp hrun
    have hnext := ih (hstep s e s₁ l hI (hP e List.mem_cons_self) h₁)
      (fun e' he' => hP e' (List.mem_cons_of_mem e he')) hrest
    unfold outputs
    rwa [h₁, Option.elim_some, ← List.append_assoc]

/-- The potential method, along an invariant: `χ` is a budget that steps may raise. -/
theorem run_potential {I : σ → Prop} {φ χ : σ → Nat} {uses feeds : ε → Bool}
    (hstep : ∀ s e s', I s → step s e = some s' →
      I s' ∧ φ s' + (uses e).toNat + χ s ≤ φ s + (feeds e).toNat + χ s') {s s' : σ}
    {es : List ε} (hI : I s) (hrun : run step s es = some s') :
    I s' ∧ φ s' + es.countP uses + χ s ≤ φ s + es.countP feeds + χ s' := by
  induction es generalizing s with
  | nil =>
    cases hrun
    exact ⟨hI, Nat.le_refl _⟩
  | cons e es ih =>
    obtain ⟨s₁, h₁, hrest⟩ := Option.bind_eq_some_iff.mp hrun
    obtain ⟨hI₁, hone⟩ := hstep s e s₁ hI h₁
    obtain ⟨hI', hrest'⟩ := ih hI₁ hrest
    have hcount : ∀ P : ε → Bool, (e :: es).countP P = es.countP P + (P e).toNat := by
      intro P
      rw [List.countP_cons]
      cases P e <;> rfl
    rw [hcount, hcount]
    exact ⟨hI', by omega⟩

/-- A sum over a list with one entry replaced. -/
theorem sum_map_set {α : Type*} {l : List α} {i : Nat} {a : α} (b : α) (f : α → Nat)
    (h : l[i]? = some a) : ((l.set i b).map f).sum + f a = (l.map f).sum + f b := by
  induction l generalizing i with
  | nil => cases h
  | cons x l ih =>
    cases i with
    | zero =>
      cases h
      simp only [List.set_cons_zero, List.map_cons, List.sum_cons]
      omega
    | succ i =>
      have hrest := ih h
      simp only [List.set_cons_succ, List.map_cons, List.sum_cons]
      omega

/-- The same for a count. -/
theorem countP_set {α : Type*} {l : List α} {i : Nat} {a : α} (b : α) (P : α → Bool)
    (h : l[i]? = some a) :
    (l.set i b).countP P + (P a).toNat = l.countP P + (P b).toNat := by
  have hsum : ∀ l : List α, l.countP P = (l.map fun x => (P x).toNat).sum := by
    intro l
    induction l with
    | nil => rfl
    | cons x l ih =>
      rw [List.countP_cons, List.map_cons, List.sum_cons, ih]
      cases P x
      · simp
      · simp [Nat.add_comm]
  rw [hsum, hsum]
  exact sum_map_set b (fun x => (P x).toNat) h

end Machine
end HoloMarket
