import Mathlib.Data.Option.Basic
import Mathlib.Data.List.Basic

/-!
# Deterministic machines driven by events

A machine is a partial step function.  Every choice that the environment makes
is part of the event, so that a run is a function of the event list and a
property of every interleaving is a property of every list.
-/

namespace HoloMarket
namespace Machine

variable {σ ε : Type*}

/-- The state after a list of events, when each of them is enabled in turn. -/
def run (step : σ → ε → Option σ) : σ → List ε → Option σ
  | s, [] => some s
  | s, e :: es => (step s e).bind fun s' => run step s' es

variable {step : σ → ε → Option σ}

@[simp] theorem run_nil (s : σ) : run step s [] = some s := rfl

@[simp] theorem run_cons (s : σ) (e : ε) (es : List ε) :
    run step s (e :: es) = (step s e).bind fun s' => run step s' es := rfl

theorem run_append (s : σ) (es fs : List ε) :
    run step s (es ++ fs) = (run step s es).bind fun s' => run step s' fs := by
  induction es generalizing s with
  | nil => rfl
  | cons e es ih =>
    rw [List.cons_append, run_cons, run_cons, Option.bind_assoc]
    exact congrArg _ (funext fun s' => ih s')

theorem run_concat (s : σ) (es : List ε) (e : ε) :
    run step s (es ++ [e]) = (run step s es).bind fun s' => step s' e := by
  rw [run_append]
  exact congrArg _ (funext fun s' => by simp)

instance decidableElim {α : Type*} {p : Prop} {P : α → Prop} [Decidable p]
    [∀ a, Decidable (P a)] : ∀ o : Option α, Decidable (o.elim p P)
  | none => inferInstanceAs (Decidable p)
  | some a => inferInstanceAs (Decidable (P a))

theorem exists_of_elim {α : Type*} {P : α → Prop} {o : Option α} (h : o.elim False P) :
    ∃ a, o = some a ∧ P a := by
  cases o with
  | none => exact h.elim
  | some a => exact ⟨a, rfl, h⟩

/-- Every step of the run starts in a state where `ok` admits the event. -/
def RunOk (step : σ → ε → Option σ) (ok : σ → ε → Prop) : σ → List ε → Prop
  | _, [] => True
  | s, e :: es => ok s e ∧ (step s e).elim True fun s' => RunOk step ok s' es

variable {ok : σ → ε → Prop}

instance RunOk.decidable [∀ s e, Decidable (ok s e)] :
    ∀ (s : σ) (es : List ε), Decidable (RunOk step ok s es)
  | _, [] => inferInstanceAs (Decidable True)
  | s, e :: es =>
    have : ∀ s', Decidable (RunOk step ok s' es) := fun s' => RunOk.decidable s' es
    inferInstanceAs (Decidable (ok s e ∧ (step s e).elim True fun s' => RunOk step ok s' es))

theorem RunOk.cons {s s' : σ} {e : ε} {es : List ε} (he : ok s e) (hs : step s e = some s')
    (h : RunOk step ok s' es) : RunOk step ok s (e :: es) := by
  refine ⟨he, ?_⟩
  rw [hs]
  exact h

theorem RunOk.tail {s s' : σ} {e : ε} {es : List ε} (h : RunOk step ok s (e :: es))
    (hs : step s e = some s') : RunOk step ok s' es := by
  have htail := h.2
  rw [hs] at htail
  exact htail

/-- The run rule: what every admitted step preserves holds at the end of every
admitted run. -/
theorem run_inv {I : σ → Prop}
    (hstep : ∀ s e s', I s → ok s e → step s e = some s' → I s')
    {s s' : σ} {es : List ε} (hI : I s) (hok : RunOk step ok s es)
    (hrun : run step s es = some s') : I s' := by
  induction es generalizing s with
  | nil =>
    cases hrun
    exact hI
  | cons e es ih =>
    obtain ⟨s₁, h₁, hrest⟩ := Option.bind_eq_some_iff.mp hrun
    exact ih (hstep s e s₁ hI hok.1 h₁) (hok.tail h₁) hrest

/-- The run rule for events that are admitted whatever the state. -/
theorem run_inv_of_forall {I : σ → Prop} {P : ε → Prop}
    (hstep : ∀ s e s', I s → P e → step s e = some s' → I s') {s s' : σ} {es : List ε}
    (hI : I s) (hP : ∀ e ∈ es, P e) (hrun : run step s es = some s') : I s' := by
  induction es generalizing s with
  | nil =>
    cases hrun
    exact hI
  | cons e es ih =>
    obtain ⟨s₁, h₁, hrest⟩ := Option.bind_eq_some_iff.mp hrun
    exact ih (hstep s e s₁ hI (hP e List.mem_cons_self) h₁)
      (fun e' he' => hP e' (List.mem_cons_of_mem e he')) hrest

/-- What is admitted under one condition is admitted under a weaker one. -/
theorem RunOk.imp {I : σ → Prop} {ok' : σ → ε → Prop}
    (himp : ∀ s e, I s → ok s e → ok' s e)
    (hstep : ∀ s e s', I s → ok s e → step s e = some s' → I s') {s : σ} {es : List ε}
    (hI : I s) (h : RunOk step ok s es) : RunOk step ok' s es := by
  induction es generalizing s with
  | nil => trivial
  | cons e es ih =>
    refine ⟨himp s e hI h.1, ?_⟩
    cases hs : step s e with
    | none => trivial
    | some s' => exact ih (hstep s e s' hI h.1 hs) (h.tail hs)

theorem RunOk.and {ok' : σ → ε → Prop} {s : σ} {es : List ε} (h : RunOk step ok s es)
    (h' : RunOk step ok' s es) : RunOk step (fun s e => ok s e ∧ ok' s e) s es := by
  induction es generalizing s with
  | nil => trivial
  | cons e es ih =>
    refine ⟨⟨h.1, h'.1⟩, ?_⟩
    cases hs : step s e with
    | none => trivial
    | some s' => exact ih (h.tail hs) (h'.tail hs)

/-- Two conditions that agree wherever an invariant of the admitted steps holds
admit the same runs. -/
theorem runOk_congr {I : σ → Prop} {ok' : σ → ε → Prop}
    (hok : ∀ s e, I s → (ok s e ↔ ok' s e))
    (hstep : ∀ s e s', I s → ok s e → step s e = some s' → I s') {s : σ} (hI : I s)
    (es : List ε) : RunOk step ok s es ↔ RunOk step ok' s es := by
  induction es generalizing s with
  | nil => exact Iff.rfl
  | cons e es ih =>
    refine and_congr_right_iff.mpr ?_ |>.trans (and_congr_left_iff.mpr fun _ => hok s e hI)
    intro he
    cases hs : step s e with
    | none => exact Iff.rfl
    | some s' => exact ih (hstep s e s' hI he hs)

/-- The run rule for steps that are admitted unconditionally. -/
theorem run_inv_all {I : σ → Prop} (hstep : ∀ s e s', I s → step s e = some s' → I s')
    {s s' : σ} {es : List ε} (hI : I s) (hrun : run step s es = some s') : I s' := by
  induction es generalizing s with
  | nil =>
    cases hrun
    exact hI
  | cons e es ih =>
    obtain ⟨s₁, h₁, hrest⟩ := Option.bind_eq_some_iff.mp hrun
    exact ih (hstep s e s₁ hI h₁) hrest

/-! ## What a run gives out -/

variable {ω : Type*} {out : σ → ε → List ω}

/-- What the steps of a run give out, in order. -/
def outputs (step : σ → ε → Option σ) (out : σ → ε → List ω) : σ → List ε → List ω
  | _, [] => []
  | s, e :: es => out s e ++ (step s e).elim [] fun s' => outputs step out s' es

/-- The run rule for a state together with what has been given out. -/
theorem run_outputs_inv {I : σ → List ω → Prop}
    (hstep : ∀ s e s' l, I s l → ok s e → step s e = some s' → I s' (l ++ out s e))
    {s s' : σ} {l : List ω} {es : List ε} (hI : I s l) (hok : RunOk step ok s es)
    (hrun : run step s es = some s') : I s' (l ++ outputs step out s es) := by
  induction es generalizing s l with
  | nil =>
    cases hrun
    unfold outputs
    rwa [List.append_nil]
  | cons e es ih =>
    obtain ⟨s₁, h₁, hrest⟩ := Option.bind_eq_some_iff.mp hrun
    have hnext := ih (hstep s e s₁ l hI hok.1 h₁) (hok.tail h₁) hrest
    unfold outputs
    rwa [h₁, Option.elim_some, ← List.append_assoc]

end Machine
end HoloMarket
