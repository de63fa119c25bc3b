import HoloMarket.App.TradeSizing
import HoloMarket.Lib.SampleVariance

/-!
# The report of the backtest

`PnlTracker::print_report` and the rows of `flush_csv`.  The report is computed from
running sums, the rows are the trades, and both say the same, in exact arithmetic: the
program adds doubles, whose rounding alone can make the variance of equal returns positive.
-/

namespace HoloMarket
namespace PnlTracker

open SampleVariance

variable {K : Type} [Field K] [LinearOrder K]

structure Report (K : Type) where
  signalsExecuted : Nat
  filtered : Nat
  winRate : K
  meanNet : K
  stdDev : K
  sharpe : K
  terminalPnl : K

/-- The lines of `print_report`, or none when no signal passed.  The sums are exact here. -/
def printReport (sqrt : K → K) (t : PnlTracker K) : Option (Report K) :=
  if t.n = 0 then none
  else
    let mean := t.sumRet / (t.n : K)
    let var := t.sumRet2 / (t.n : K) - mean * mean
    let stdv := if 0 < var then sqrt var else 1
    some
      { signalsExecuted := t.n
        filtered := t.filtered
        winRate := (t.wins : K) / (t.n : K) * (100 : Nat)
        meanNet := mean
        stdDev := stdv
        sharpe := mean / stdv
        terminalPnl := t.currentPnl }

/-- The columns `pnl` and `cumulative_pnl` of `flush_csv`. -/
def pnlColumns (t : PnlTracker K) : List (K × K) :=
  t.ticks.map fun tick => (tick.pnl, tick.cumulativePnl)

/-- The report that the returns of the trades ask for. -/
def reportOf (sqrt : K → K) (filtered : Nat) (rs : List K) : Option (Report K) :=
  if rs = [] then none
  else
    let stdv := if Constant rs then 1 else sqrt (variance rs)
    some
      { signalsExecuted := rs.length
        filtered := filtered
        winRate := (rs.countP fun r => decide (0 < r) : K) / (rs.length : K) * (100 : Nat)
        meanNet := mean rs
        stdDev := stdv
        sharpe := mean rs / stdv
        terminalPnl := rs.sum }

/-- The sums after the returns of the trades. -/
structure Tallied (t : PnlTracker K) (rs : List K) : Prop where
  n : t.n = rs.length
  wins : t.wins = rs.countP fun r => decide (0 < r)
  sumRet : t.sumRet = rs.sum
  sumRet2 : t.sumRet2 = (rs.map fun r => r * r).sum
  currentPnl : t.currentPnl = rs.sum
  curve : t.equityCurve = rs.scanl (fun total r => total + r) 0
  columns : t.pnlColumns = rs.zip t.equityCurve.tail

theorem tallied_init : Tallied (init : PnlTracker K) [] where
  n := rfl
  wins := rfl
  sumRet := rfl
  sumRet2 := rfl
  currentPnl := rfl
  curve := rfl
  columns := rfl

section Steps

variable {env : BacktestEnv K} {t : PnlTracker K} {rs : List K} {c : RecordCall K}

omit [LinearOrder K] in
theorem scanl_concat (rs : List K) (r : K) :
    (rs ++ [r]).scanl (fun total r => total + r) 0 =
      rs.scanl (fun total r => total + r) 0 ++ [rs.sum + r] := by
  rw [List.scanl_append, List.sum_eq_foldl]
  rfl

theorem Tallied.execute (h : Tallied t rs) :
    Tallied (t.execute env c) (rs ++ [t.netRet env c]) where
  n := by
    rw [List.length_append, ← h.n]
    rfl
  wins := by
    rw [List.countP_append, ← h.wins]
    show (if 0 < t.netRet env c then t.wins + 1 else t.wins) = _
    by_cases hpos : 0 < t.netRet env c
    · rw [if_pos hpos, List.countP_cons_of_pos (by simpa using hpos)]
      rfl
    · rw [if_neg hpos, List.countP_cons_of_neg (by simpa using hpos)]
      rfl
  sumRet := by
    rw [List.sum_append, List.sum_singleton, ← h.sumRet]
    rfl
  sumRet2 := by
    rw [List.map_append, List.sum_append, ← h.sumRet2]
    show t.sumRet2 + _ = t.sumRet2 + List.sum [_]
    rw [List.sum_singleton]
  currentPnl := by
    rw [List.sum_append, List.sum_singleton, ← h.currentPnl]
    rfl
  curve := by
    rw [scanl_concat, ← h.curve, ← h.currentPnl]
    rfl
  columns := by
    have hlen : rs.length = t.equityCurve.tail.length := by
      rw [h.curve, List.length_tail, List.length_scanl]
      rfl
    have hne : t.equityCurve ≠ [] := by
      rw [h.curve]
      intro hnil
      have hzero := congrArg List.length hnil
      rw [List.length_scanl] at hzero
      exact absurd hzero (Nat.succ_ne_zero _)
    show (t.ticks ++ [_]).map _ = (rs ++ [_]).zip (t.equityCurve ++ [_]).tail
    rw [List.map_append, List.tail_append_of_ne_nil hne, List.zip_append hlen]
    exact congrArg (· ++ _) h.columns

theorem Tallied.record (h : Tallied t rs) :
    Tallied (t.record env c) (rs ++ if t.Passes env c then [t.netRet env c] else []) := by
  by_cases hp : t.Passes env c
  · rw [if_pos hp, record_of_passes hp]
    exact h.execute
  · rw [if_neg hp, List.append_nil]
    unfold PnlTracker.record
    by_cases hi : Ignored c
    · rw [if_pos hi]
      exact h
    · have hf : t.Filtered env c := by
        by_contra hf
        exact hp ⟨hi, hf⟩
      rw [if_neg hi, if_neg (by simp [warm_updated]), if_pos hf]
      exact ⟨h.n, h.wins, h.sumRet, h.sumRet2, h.currentPnl, h.curve, h.columns⟩

end Steps

/-! ## Runs -/

/-- The net returns of the calls that passed, in their order. -/
def netReturns (env : BacktestEnv K) (calls : List (RecordCall K)) : List K :=
  ((init.moments env calls).filter fun x => decide (x.1.Passes env x.2)).map fun x =>
    x.1.netRet env x.2

section Runs

variable {env : BacktestEnv K} {calls : List (RecordCall K)}

theorem moments_concat (t : PnlTracker K) (calls : List (RecordCall K)) (c : RecordCall K) :
    t.moments env (calls ++ [c]) = t.moments env calls ++ [(t.run env calls, c)] := by
  induction calls generalizing t with
  | nil => rfl
  | cons d calls ih => exact congrArg (List.cons _) (ih (t.record env d))

theorem netReturns_concat (calls : List (RecordCall K)) (c : RecordCall K) :
    netReturns env (calls ++ [c]) = netReturns env calls ++
      if (init.run env calls).Passes env c then [(init.run env calls).netRet env c] else [] := by
  unfold netReturns
  rw [moments_concat, List.filter_append, List.map_append]
  by_cases h : (init.run env calls).Passes env c
  · rw [if_pos h, List.filter_singleton, decide_eq_true h]
    rfl
  · rw [if_neg h, List.filter_singleton, decide_eq_false h]
    rfl

theorem tallied_run (env : BacktestEnv K) (calls : List (RecordCall K)) :
    Tallied (init.run env calls) (netReturns env calls) := by
  induction calls using List.reverseRecOn with
  | nil => exact tallied_init
  | append_singleton calls c ih =>
    rw [run_concat, netReturns_concat]
    exact ih.record

variable [IsStrictOrderedRing K]

theorem Tallied.printReport {t : PnlTracker K} {rs : List K} (h : Tallied t rs) (sqrt : K → K) :
    t.printReport sqrt = reportOf sqrt t.filtered rs := by
  unfold PnlTracker.printReport reportOf
  rw [h.n]
  by_cases hnil : rs = []
  · rw [if_pos hnil, if_pos (List.length_eq_zero_iff.mpr hnil)]
  · rw [if_neg hnil, if_neg (mt List.length_eq_zero_iff.mp hnil), h.sumRet, h.sumRet2, h.wins,
      h.currentPnl]
    have hvar : (rs.map fun r => r * r).sum / (rs.length : K) -
        rs.sum / (rs.length : K) * (rs.sum / (rs.length : K)) = variance rs :=
      (variance_eq hnil).symm
    simp only [hvar, variance_pos_iff hnil, ite_not]
    rfl

end Runs

end PnlTracker
end HoloMarket
