import Mathlib.Algebra.Order.Field.Basic
import Mathlib.Data.List.Induction
import HoloMarket.Net.ExecutionEngine

/-!
# The halt latch

Three guards share the flag `halted_`: a streak of rejects, a margin call and a
drawdown.  The flag is compared with the history of the calls, in which a guard
trips or does not; only a reset clears it, and the high-water mark outlives the
reset.
-/

namespace HoloMarket

/-- The calls that reach the latch. -/
inductive LatchCall (K : Type*) where
  | dispatchUpdate (rec : OrderRecord K)
  | forceHalt
  | checkDrawdown (currentTotalPnl maxDrawdownUsd : K)
  | resetHalt

namespace LatchCall

variable {K : Type*}

/-- An update that ends a streak of rejects, or a reset. -/
def endsStreak : LatchCall K → Bool
  | .dispatchUpdate rec => rec.status = .Open ∨ rec.status = .Filled
  | .resetHalt => true
  | _ => false

def isReject : LatchCall K → Bool
  | .dispatchUpdate rec => rec.status = .Rejected
  | _ => false

def pnl? : LatchCall K → Option K
  | .checkDrawdown currentTotalPnl _ => some currentTotalPnl
  | _ => none

/-- The rejects dispatched since the last reset, Open or Filled update. -/
def rejects (cs : List (LatchCall K)) : Nat :=
  (cs.reverse.takeWhile fun c => !c.endsStreak).countP isReject

/-- The highest PnL ever passed, or zero. -/
def peak [Zero K] [Max K] (cs : List (LatchCall K)) : K := (cs.filterMap pnl?).foldl max 0

/-- The call trips a guard, made after the calls `before`. -/
def Trips [Zero K] [Max K] [Sub K] [LE K] (before : List (LatchCall K)) : LatchCall K → Prop
  | .dispatchUpdate rec => rec.status = .Rejected ∧ 5 ≤ rejects before + 1
  | .forceHalt => True
  | .checkDrawdown currentTotalPnl maxDrawdownUsd =>
    maxDrawdownUsd ≤ max (peak before) currentTotalPnl - currentTotalPnl
  | .resetHalt => False

/-- A guard has tripped since the last reset. -/
def Tripped [Zero K] [Max K] [Sub K] [LE K] (cs : List (LatchCall K)) : Prop :=
  ∃ before c after, cs = before ++ c :: after ∧ Trips before c ∧
    ∀ d ∈ after, d ≠ .resetHalt

theorem rejects_concat (cs : List (LatchCall K)) (c : LatchCall K) :
    rejects (cs ++ [c]) =
      if c.endsStreak then 0 else rejects cs + if c.isReject then 1 else 0 := by
  unfold rejects
  rw [List.reverse_append]
  cases h : c.endsStreak with
  | true => simp [h]
  | false => simp [h, List.countP_cons]

theorem peak_concat [Zero K] [Max K] (cs : List (LatchCall K)) (c : LatchCall K) :
    peak (cs ++ [c]) = match c.pnl? with
      | none => peak cs
      | some x => max (peak cs) x := by
  unfold peak
  rw [List.filterMap_append, List.foldl_append]
  cases h : c.pnl? <;> simp [h]

theorem tripped_concat [Zero K] [Max K] [Sub K] [LE K] (cs : List (LatchCall K))
    (c : LatchCall K) :
    Tripped (cs ++ [c]) ↔ Tripped cs ∧ c ≠ .resetHalt ∨ Trips cs c := by
  constructor
  · rintro ⟨before, d, after, heq, hd, hafter⟩
    induction after using List.reverseRecOn with
    | nil =>
      obtain ⟨rfl, h⟩ := List.append_inj' heq rfl
      obtain rfl := List.head_eq_of_cons_eq h
      exact Or.inr hd
    | append_singleton after e _ =>
      obtain ⟨h₁, h₂⟩ := List.append_inj'
        (show cs ++ [c] = (before ++ d :: after) ++ [e] by rw [heq]; simp) rfl
      obtain rfl := List.head_eq_of_cons_eq h₂
      refine Or.inl ⟨⟨before, d, after, h₁, hd, fun x hx => ?_⟩, ?_⟩
      · exact hafter x (List.mem_append_left _ hx)
      · exact hafter c (by simp)
  · rintro (⟨⟨before, d, after, rfl, hd, hafter⟩, hc⟩ | hc)
    · refine ⟨before, d, after ++ [c], by simp, hd, fun x hx => ?_⟩
      rcases List.mem_append.mp hx with hx | hx
      · exact hafter x hx
      · rw [List.mem_singleton.mp hx]
        exact hc
    · exact ⟨cs, c, [], rfl, hc, fun d hd => absurd hd List.not_mem_nil⟩

end LatchCall

namespace ExecutionEngine

variable {K : Type*}

section
variable (eng : ExecutionEngine K) (chan : Nat) (r : OrderRecord K)

@[simp] theorem trySend_halted : (eng.trySend chan r).halted = eng.halted := by
  unfold trySend
  split_ifs <;> rfl

@[simp] theorem trySend_consecutiveRejects :
    (eng.trySend chan r).consecutiveRejects = eng.consecutiveRejects := by
  unfold trySend
  split_ifs <;> rfl

@[simp] theorem trySend_pnlHighWaterMark :
    (eng.trySend chan r).pnlHighWaterMark = eng.pnlHighWaterMark := by
  unfold trySend
  split_ifs <;> rfl

/-- Whether a monitor waits for the order is nothing to the latch. -/
theorem dispatchUpdate_latch :
    (eng.dispatchUpdate r).halted = (eng.countRejects r.status).halted ∧
      (eng.dispatchUpdate r).consecutiveRejects =
        (eng.countRejects r.status).consecutiveRejects ∧
      (eng.dispatchUpdate r).pnlHighWaterMark = (eng.countRejects r.status).pnlHighWaterMark := by
  unfold dispatchUpdate
  dsimp only
  cases (eng.countRejects r.status).waiters.lookup (fnv1a64 r.clientOrderId) with
  | none => exact ⟨rfl, rfl, rfl⟩
  | some chan => simp

end

variable [Field K] [LinearOrder K]

def latchCall (eng : ExecutionEngine K) : LatchCall K → ExecutionEngine K
  | .dispatchUpdate rec => eng.dispatchUpdate rec
  | .forceHalt => eng.forceHalt
  | .checkDrawdown currentTotalPnl maxDrawdownUsd =>
    eng.checkDrawdown currentTotalPnl maxDrawdownUsd
  | .resetHalt => eng.resetHalt

/-- The latch as it is when the engine is made. -/
def armed (eng : ExecutionEngine K) : ExecutionEngine K :=
  { eng with halted := false, consecutiveRejects := 0, pnlHighWaterMark := 0 }

/-- Counter, mark and flag are functions of the calls made. -/
structure Latch (eng : ExecutionEngine K) (cs : List (LatchCall K)) : Prop where
  consecutiveRejects : eng.consecutiveRejects = LatchCall.rejects cs
  pnlHighWaterMark : eng.pnlHighWaterMark = LatchCall.peak cs
  halted : eng.halted = true ↔ LatchCall.Tripped cs

theorem latch_armed (eng : ExecutionEngine K) : eng.armed.Latch [] where
  consecutiveRejects := rfl
  pnlHighWaterMark := rfl
  halted := by
    refine iff_of_false nofun ?_
    rintro ⟨before, c, after, h, -⟩
    cases before <;> cases h

namespace Latch

variable {eng : ExecutionEngine K} {cs : List (LatchCall K)}

/-- The fifth reject in a row trips the breaker; Open and Filled updates end the
streak and the others are neutral. -/
theorem dispatchUpdate (h : eng.Latch cs) (r : OrderRecord K) :
    (eng.dispatchUpdate r).Latch (cs ++ [.dispatchUpdate r]) := by
  obtain ⟨hhalt, hcount, hpeak⟩ := eng.dispatchUpdate_latch r
  have htrip : LatchCall.Tripped (cs ++ [.dispatchUpdate r]) ↔
      eng.halted = true ∨ r.status = .Rejected ∧ 5 ≤ LatchCall.rejects cs + 1 := by
    rw [LatchCall.tripped_concat, and_iff_left (by nofun), h.halted]
    rfl
  refine ⟨hcount.trans ?_, hpeak.trans ?_, ?_⟩
  · rw [LatchCall.rejects_concat]
    cases hs : r.status <;>
      simp [countRejects, LatchCall.endsStreak, LatchCall.isReject, hs, h.consecutiveRejects]
  · rw [LatchCall.peak_concat]
    show _ = LatchCall.peak cs
    cases hs : r.status <;> simp [countRejects, h.pnlHighWaterMark]
  · rw [hhalt, htrip]
    cases hs : r.status <;>
      simp [countRejects, kMaxConsecutiveRejects, h.consecutiveRejects]

theorem forceHalt (h : eng.Latch cs) : eng.forceHalt.Latch (cs ++ [.forceHalt]) where
  consecutiveRejects := by
    rw [LatchCall.rejects_concat]
    exact h.consecutiveRejects
  pnlHighWaterMark := by
    rw [LatchCall.peak_concat]
    exact h.pnlHighWaterMark
  halted := by
    rw [LatchCall.tripped_concat]
    exact iff_of_true rfl (Or.inr trivial)

theorem checkDrawdown (h : eng.Latch cs) (x limit : K) :
    (eng.checkDrawdown x limit).Latch (cs ++ [.checkDrawdown x limit]) := by
  have hpeak : (if eng.pnlHighWaterMark < x then x else eng.pnlHighWaterMark) =
      max (LatchCall.peak cs) x := by
    rw [h.pnlHighWaterMark, max_def_lt]
  refine ⟨?_, ?_, ?_⟩
  · rw [LatchCall.rejects_concat]
    exact h.consecutiveRejects
  · rw [LatchCall.peak_concat]
    exact hpeak
  · rw [LatchCall.tripped_concat, and_iff_left (by nofun), ← h.halted]
    unfold ExecutionEngine.checkDrawdown
    dsimp only
    rw [hpeak, Bool.or_eq_true, decide_eq_true_eq]
    rfl

theorem resetHalt (h : eng.Latch cs) : eng.resetHalt.Latch (cs ++ [.resetHalt]) where
  consecutiveRejects := by
    rw [LatchCall.rejects_concat]
    rfl
  pnlHighWaterMark := by
    rw [LatchCall.peak_concat]
    exact h.pnlHighWaterMark
  halted := by
    rw [LatchCall.tripped_concat]
    refine iff_of_false nofun ?_
    rintro (⟨-, hne⟩ | htrip)
    · exact hne rfl
    · exact htrip

theorem latchCall (h : eng.Latch cs) (c : LatchCall K) :
    (eng.latchCall c).Latch (cs ++ [c]) := by
  cases c with
  | dispatchUpdate rec => exact h.dispatchUpdate rec
  | forceHalt => exact h.forceHalt
  | checkDrawdown x limit => exact h.checkDrawdown x limit
  | resetHalt => exact h.resetHalt

theorem run (h : eng.Latch cs) (ds : List (LatchCall K)) :
    (ds.foldl ExecutionEngine.latchCall eng).Latch (cs ++ ds) := by
  induction ds generalizing eng cs with
  | nil => simpa using h
  | cons d ds ih => simpa using ih (h.latchCall d)

end Latch

/-- The engine is halted after a trace exactly if a guard has tripped since the
last reset: the fifth or later reject of a streak, a margin call, or a PnL below
the mark by the limit or more. -/
theorem halted_iff_tripped (eng : ExecutionEngine K) (cs : List (LatchCall K)) :
    (cs.foldl latchCall eng.armed).halted = true ↔ LatchCall.Tripped cs :=
  (eng.latch_armed.run cs).halted

end ExecutionEngine
end HoloMarket
