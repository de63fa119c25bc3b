import HoloMarket.App.RiskCheck
import Mathlib.Analysis.Complex.Trigonometric
import Mathlib.Analysis.SpecialFunctions.Log.Basic

/-!
# The trade record of the backtest

`EwmaPair` and `PnlTracker::record` of `main_backtest.cpp`, in exact arithmetic.
The direction of a trade multiplies the gross return after the spread has been
taken off it, so that the spread is charged to one direction and credited to the
other.
-/

namespace HoloMarket

/-- What `record` takes from outside: the C mathematics library and the value of
`HOLO_K_ALPHA`. -/
structure BacktestEnv (K : Type) where
  log : K → K
  tanh : K → K
  sqrt : K → K
  signbit : K → Bool
  activeKAlpha : K

variable {K : Type} [Field K] [LinearOrder K]

/-- `std::copysign(1.0F, x)`. -/
def BacktestEnv.copysignOne (env : BacktestEnv K) (x : K) : K :=
  if env.signbit x then -1 else 1

structure EwmaPair (K : Type) where
  mu : K
  m2 : K
  warm : Bool

namespace EwmaPair

def kMinSigma : K := 1 / (10 ^ 5 : Nat)

def kMaxGrossBps : K := (5 : Nat)

def fresh : EwmaPair K := { mu := 0, m2 := 1 / (10 ^ 8 : Nat), warm := false }

def sigma (env : BacktestEnv K) (bl : EwmaPair K) : K :=
  env.sqrt (max bl.m2 (kMinSigma * kMinSigma))

/-- The pair after the update, and the z-score. -/
def update (env : BacktestEnv K) (bl : EwmaPair K) (logRatio : K) : EwmaPair K × K :=
  if !bl.warm then ({ mu := logRatio, m2 := 1 / (10 ^ 8 : Nat), warm := true }, 0)
  else
    let alpha := env.activeKAlpha
    let diff := logRatio - bl.mu
    let next : EwmaPair K :=
      { bl with mu := bl.mu + alpha * diff, m2 := (1 - alpha) * bl.m2 + alpha * diff * diff }
    (next, (logRatio - next.mu) / next.sigma env)

def sigmaBps (env : BacktestEnv K) (bl : EwmaPair K) : K :=
  bl.sigma env * (10 ^ 4 : Nat)

end EwmaPair

structure TickRecord (K : Type) where
  timestampNs : Nat
  pnl : K
  cumulativePnl : K
  yangMillsAction : K
  maxCurl : K
  floerAsdResidual : K
  betti1 : Int
  spreadBps : K

/-- The arguments of a call of `record`. -/
structure RecordCall (K : Type) where
  edge : RoutedEdge K
  midSrc : K
  midDst : K
  spreadPrice : K
  sig : SignalRecord K

structure PnlTracker (K : Type) where
  equityCurve : List K
  ticks : List (TickRecord K)
  currentPnl : K
  sumRet : K
  sumRet2 : K
  n : Nat
  wins : Nat
  filtered : Nat
  prevSignalTsNs : Nat
  baselines : List (EwmaPair K)

namespace PnlTracker

def init : PnlTracker K where
  equityCurve := [0]
  ticks := []
  currentPnl := 0
  sumRet := 0
  sumRet2 := 0
  n := 0
  wins := 0
  filtered := 0
  prevSignalTsNs := 0
  baselines := List.replicate (kFeedNInstruments * kFeedNInstruments) EwmaPair.fresh

/-! ## The parts of a call -/

section Parts

variable (env : BacktestEnv K) (t : PnlTracker K) (c : RecordCall K)

/-- The two early returns. -/
def Ignored (c : RecordCall K) : Prop :=
  c.midSrc ≤ 0 ∨ c.midDst ≤ 0 ∨
    kFeedNInstruments ≤ c.edge.srcInstrument ∨ kFeedNInstruments ≤ c.edge.dstInstrument

instance : Decidable (Ignored c) := inferInstanceAs (Decidable (_ ∨ _))

def pairIndex (c : RecordCall K) : Nat :=
  c.edge.srcInstrument * kFeedNInstruments + c.edge.dstInstrument

/-- `bl` after `bl.update(log_ratio)`, and `z_score`. -/
def updated : EwmaPair K × K :=
  (t.baselines.getD (pairIndex c) EwmaPair.fresh).update env (env.log (c.midDst / c.midSrc))

def signalStrength : K := env.tanh c.edge.harmonicFlow

def direction : K :=
  -env.copysignOne (t.updated env c).2 * env.copysignOne (signalStrength env c)

def grossRet : K :=
  min (|signalStrength env c| * |(t.updated env c).2| * (t.updated env c).1.sigmaBps env)
    EwmaPair.kMaxGrossBps

def spreadBps (c : RecordCall K) : K := c.spreadPrice / c.midSrc * (10 ^ 4 : Nat)

/-- The filter takes the trade out. -/
def Filtered : Prop :=
  t.grossRet env c ≤ spreadBps c ∨ |(t.updated env c).2| < 1 / (2 : Nat)

instance : Decidable (t.Filtered env c) := inferInstanceAs (Decidable (_ ∨ _))

def netRet : K := t.direction env c * (t.grossRet env c - spreadBps c)

/-- The state after a trade that passed. -/
def execute : PnlTracker K :=
  let netRet := t.netRet env c
  let currentPnl := t.currentPnl + netRet
  { t with
    sumRet := t.sumRet + netRet
    sumRet2 := t.sumRet2 + netRet * netRet
    n := t.n + 1
    wins := if 0 < netRet then t.wins + 1 else t.wins
    currentPnl := currentPnl
    equityCurve := t.equityCurve ++ [currentPnl]
    ticks := t.ticks ++
      [{ timestampNs := c.sig.timestampNs
         pnl := netRet
         cumulativePnl := currentPnl
         yangMillsAction := c.sig.yangMillsAction
         maxCurl := c.sig.maxCurl
         floerAsdResidual := c.sig.floerAsdResidual
         betti1 := c.sig.floerHF1
         spreadBps := spreadBps c }]
    prevSignalTsNs := c.sig.timestampNs
    baselines := t.baselines.set (pairIndex c) (t.updated env c).1 }

def record : PnlTracker K :=
  if Ignored c then t
  else if !(t.updated env c).1.warm then
    { t with baselines := t.baselines.set (pairIndex c) (t.updated env c).1 }
  else if t.Filtered env c then
    { t with
      baselines := t.baselines.set (pairIndex c) (t.updated env c).1
      filtered := t.filtered + 1 }
  else t.execute env c

/-- The trade passes the filter. -/
def Passes : Prop := ¬ Ignored c ∧ ¬ t.Filtered env c

instance : Decidable (t.Passes env c) := inferInstanceAs (Decidable (_ ∧ _))

end Parts

section Steps

variable {env : BacktestEnv K} {t t' : PnlTracker K} {c c' : RecordCall K}

theorem warm_updated : (t.updated env c).1.warm = true := by
  unfold updated EwmaPair.update
  by_cases h : ((t.baselines.getD (pairIndex c) EwmaPair.fresh).warm) = true
  · simp only [h, Bool.not_true, Bool.false_eq_true, if_false]
  · simp only [Bool.eq_false_iff.mpr h, Bool.not_false, if_true]

theorem record_of_passes (h : t.Passes env c) : t.record env c = t.execute env c := by
  unfold record
  rw [if_neg h.1, if_neg (by simp [warm_updated]), if_neg h.2]

theorem record_of_not_passes (h : ¬ t.Passes env c) :
    (t.record env c).currentPnl = t.currentPnl ∧ (t.record env c).ticks = t.ticks := by
  unfold record
  by_cases hi : Ignored c
  · rw [if_pos hi]
    exact ⟨rfl, rfl⟩
  · have hf : t.Filtered env c := by
      by_contra hf
      exact h ⟨hi, hf⟩
    rw [if_neg hi, if_neg (by simp [warm_updated]), if_pos hf]
    exact ⟨rfl, rfl⟩

/-- The baselines move in the same way whether the trade passes or not. -/
theorem baselines_record : (t.record env c).baselines =
    if Ignored c then t.baselines else t.baselines.set (pairIndex c) (t.updated env c).1 := by
  unfold record
  by_cases hi : Ignored c
  · rw [if_pos hi, if_pos hi]
  · rw [if_neg hi, if_neg hi, if_neg (by simp [warm_updated])]
    by_cases hf : t.Filtered env c
    · rw [if_pos hf]
    · rw [if_neg hf]
      rfl

/-- The second call is the first at a spread that is at least as large. -/
def Costlier (c c' : RecordCall K) : Prop :=
  c' = { c with spreadPrice := c'.spreadPrice } ∧ c.spreadPrice ≤ c'.spreadPrice

/-- The state that the first half of a call reads. -/
theorem updated_congr (hb : t.baselines = t'.baselines) (hc : Costlier c c') :
    t'.updated env c' = t.updated env c := by
  rw [hc.1]
  unfold updated
  rw [hb]
  rfl

theorem direction_congr (hb : t.baselines = t'.baselines) (hc : Costlier c c') :
    t'.direction env c' = t.direction env c := by
  unfold direction
  rw [updated_congr hb hc, hc.1]
  rfl

theorem grossRet_congr (hb : t.baselines = t'.baselines) (hc : Costlier c c') :
    t'.grossRet env c' = t.grossRet env c := by
  unfold grossRet
  rw [updated_congr hb hc, hc.1]
  rfl

theorem baselines_record_congr (hb : t.baselines = t'.baselines) (hc : Costlier c c') :
    (t.record env c).baselines = (t'.record env c').baselines := by
  have hpair : pairIndex c' = pairIndex c := by rw [hc.1]; rfl
  have hignored : Ignored c' ↔ Ignored c := by rw [hc.1]; rfl
  rw [baselines_record, baselines_record, updated_congr hb hc, hpair, hb]
  simp only [hignored]

/-! ## What a spread does to a trade -/

/-- The z-score and the flow have opposite signs: the trade has the direction
in which the gross return counts as a gain. -/
def Opposed (env : BacktestEnv K) (t : PnlTracker K) (c : RecordCall K) : Prop :=
  env.signbit (t.updated env c).2 ≠ env.signbit (signalStrength env c)

/-- The spread is taken off the trade: the signs are opposite or there is none. -/
def Charged (env : BacktestEnv K) (t : PnlTracker K) (c : RecordCall K) : Prop :=
  t.Opposed env c ∨ c.spreadPrice = 0

instance (env : BacktestEnv K) (t : PnlTracker K) (c : RecordCall K) :
    Decidable (t.Opposed env c) :=
  inferInstanceAs (Decidable (_ ≠ _))

theorem direction_eq : t.direction env c = if t.Opposed env c then 1 else -1 := by
  unfold direction Opposed BacktestEnv.copysignOne
  by_cases hz : env.signbit (t.updated env c).2 = true <;>
    by_cases hs : env.signbit (signalStrength env c) = true <;> simp [hz, hs]

/-- The gross return with the sign of the trade, less the spread. -/
def signedNet (env : BacktestEnv K) (t : PnlTracker K) (c : RecordCall K) : K :=
  t.direction env c * t.grossRet env c - spreadBps c

/-- The call recorded one trade, with the net return `r`. -/
def Recorded (env : BacktestEnv K) (t : PnlTracker K) (c : RecordCall K) (r : K) : Prop :=
  ∃ tick, (t.record env c).ticks = t.ticks ++ [tick] ∧ tick.pnl = r ∧
    (t.record env c).currentPnl = t.currentPnl + r

theorem recorded_iff (h : t.Passes env c) {r : K} :
    t.Recorded env c r ↔ r = t.netRet env c := by
  unfold Recorded
  rw [record_of_passes h]
  constructor
  · rintro ⟨tick, hticks, rfl, -⟩
    have htick := List.append_cancel_left hticks
    rw [← (List.cons.inj htick).1]
  · rintro rfl
    exact ⟨_, rfl, rfl, rfl⟩

variable [IsStrictOrderedRing K]

omit [IsStrictOrderedRing K] in
theorem midSrc_pos (h : ¬ Ignored c) : 0 < c.midSrc := by
  rw [Ignored, not_or, not_le] at h
  exact h.1

theorem spreadBps_eq_zero_iff (h : ¬ Ignored c) : spreadBps c = 0 ↔ c.spreadPrice = 0 := by
  have hmid := midSrc_pos h
  unfold spreadBps
  rw [mul_eq_zero, div_eq_zero_iff, or_iff_left (by positivity), or_iff_left hmid.ne']

theorem spreadBps_mono (h : ¬ Ignored c) (hc : Costlier c c') : spreadBps c ≤ spreadBps c' := by
  have hmid := midSrc_pos h
  have hle := hc.2
  unfold spreadBps
  rw [show c'.midSrc = c.midSrc by rw [hc.1]]
  gcongr

/-- A trade that passes at the larger spread passes at the smaller one. -/
theorem passes_of_costlier (hb : t.baselines = t'.baselines) (hc : Costlier c c')
    (h : t'.Passes env c') : t.Passes env c := by
  have hignored : Ignored c' ↔ Ignored c := by rw [hc.1]; rfl
  have hmono := spreadBps_mono (mt hignored.mpr h.1) hc
  refine ⟨mt hignored.mpr h.1, fun hf => h.2 ?_⟩
  unfold Filtered at hf ⊢
  rw [grossRet_congr hb hc, updated_congr hb hc]
  exact hf.imp_left fun hle => hle.trans hmono

/-- The net return is the signed gross return less the spread exactly when the
spread is taken off. -/
theorem netRet_eq_signedNet_iff (h : ¬ Ignored c) :
    t.netRet env c = t.signedNet env c ↔ t.Charged env c := by
  unfold netRet signedNet Charged
  rw [direction_eq, ← spreadBps_eq_zero_iff h]
  by_cases ho : t.Opposed env c
  · rw [if_pos ho, one_mul, one_mul]
    exact iff_of_true rfl (Or.inl ho)
  · rw [if_neg ho, or_iff_right ho]
    constructor
    · intro heq
      linarith
    · intro hzero
      rw [hzero, sub_zero, sub_zero]

theorem netRet_le_of_charged (hb : t.baselines = t'.baselines) (hc : Costlier c c')
    (h : ¬ Ignored c) (h₁ : t.Charged env c) (h₂ : t'.Charged env c') :
    t'.netRet env c' ≤ t.netRet env c := by
  have hignored : Ignored c' ↔ Ignored c := by rw [hc.1]; rfl
  rw [(netRet_eq_signedNet_iff h).mpr h₁, (netRet_eq_signedNet_iff (mt hignored.mp h)).mpr h₂]
  unfold signedNet
  rw [direction_congr hb hc, grossRet_congr hb hc]
  have hmono := spreadBps_mono h hc
  linarith

/-- At both spreads the trade is recorded with the signed gross return less the
spread, and at the larger spread with no more than at the smaller. -/
def SpreadIsCost (env : BacktestEnv K) (t : PnlTracker K) (c c' : RecordCall K) : Prop :=
  ∃ r r', t.Recorded env c r ∧ t.Recorded env c' r' ∧ r' ≤ r ∧
    r = t.signedNet env c ∧ r' = t.signedNet env c'

theorem spreadIsCost_iff (hc : Costlier c c') (h : t.Passes env c') :
    t.SpreadIsCost env c c' ↔ t.Charged env c ∧ t.Charged env c' := by
  have hpass : t.Passes env c := passes_of_costlier rfl hc h
  constructor
  · rintro ⟨r, r', hr, hr', -, hnet, hnet'⟩
    rw [recorded_iff hpass] at hr
    rw [recorded_iff h] at hr'
    exact ⟨(netRet_eq_signedNet_iff hpass.1).mp (hr.symm.trans hnet),
      (netRet_eq_signedNet_iff h.1).mp (hr'.symm.trans hnet')⟩
  · rintro ⟨h₁, h₂⟩
    exact ⟨t.netRet env c, t.netRet env c', (recorded_iff hpass).mpr rfl, (recorded_iff h).mpr rfl,
      netRet_le_of_charged rfl hc hpass.1 h₁ h₂, (netRet_eq_signedNet_iff hpass.1).mpr h₁,
      (netRet_eq_signedNet_iff h.1).mpr h₂⟩

/-! ## Runs -/

end Steps

/-- The calls one after the other. -/
def run (env : BacktestEnv K) (t : PnlTracker K) (calls : List (RecordCall K)) : PnlTracker K :=
  calls.foldl (fun t c => t.record env c) t

/-- The calls with the states they were made in. -/
def moments (env : BacktestEnv K) (t : PnlTracker K) :
    List (RecordCall K) → List (PnlTracker K × RecordCall K)
  | [] => []
  | c :: calls => (t, c) :: (t.record env c).moments env calls

/-- Which calls were trades that passed. -/
def executed (env : BacktestEnv K) (t : PnlTracker K) (calls : List (RecordCall K)) : List Bool :=
  (t.moments env calls).map fun x => decide (x.1.Passes env x.2)

/-- Every trade of the run had the spread taken off. -/
def ChargedRun (env : BacktestEnv K) (t : PnlTracker K) (calls : List (RecordCall K)) : Prop :=
  ∀ x ∈ t.moments env calls, x.1.Passes env x.2 → x.1.Charged env x.2

section Runs

variable {env : BacktestEnv K} {t t' : PnlTracker K} {c c' : RecordCall K}
  [IsStrictOrderedRing K]

theorem currentPnl_record_mono (hb : t.baselines = t'.baselines)
    (hpnl : t'.currentPnl ≤ t.currentPnl) (hc : Costlier c c')
    (hsame : t.Passes env c ↔ t'.Passes env c') (h₁ : t.Passes env c → t.Charged env c)
    (h₂ : t'.Passes env c' → t'.Charged env c') :
    (t'.record env c').currentPnl ≤ (t.record env c).currentPnl := by
  by_cases h : t.Passes env c
  · have hnet := netRet_le_of_charged hb hc h.1 (h₁ h) (h₂ (hsame.mp h))
    rw [record_of_passes h, record_of_passes (hsame.mp h)]
    exact add_le_add hpnl hnet
  · rw [(record_of_not_passes h).1, (record_of_not_passes (mt hsame.mpr h)).1]
    exact hpnl

theorem currentPnl_run_mono {calls calls' : List (RecordCall K)}
    (hcalls : List.Forall₂ Costlier calls calls') (hb : t.baselines = t'.baselines)
    (hpnl : t'.currentPnl ≤ t.currentPnl)
    (hsame : t.executed env calls = t'.executed env calls')
    (h₁ : t.ChargedRun env calls) (h₂ : t'.ChargedRun env calls') :
    (t'.run env calls').currentPnl ≤ (t.run env calls).currentPnl := by
  induction hcalls generalizing t t' with
  | nil => exact hpnl
  | cons hc hcalls ih =>
    obtain ⟨hhead, htail⟩ := List.cons.inj hsame
    have hfirst := List.forall_mem_cons.mp h₁
    have hfirst' := List.forall_mem_cons.mp h₂
    exact ih (baselines_record_congr hb hc)
      (currentPnl_record_mono hb hpnl hc (decide_eq_decide.mp hhead) hfirst.1 hfirst'.1)
      htail hfirst.2 hfirst'.2

/-- Where the spread is taken off the trade, a larger spread never raises the
net return of a trade, and never the profit of a run with the same trades.  For
a single trade the condition is exact. -/
theorem spreadIsCost_of_charged (env : BacktestEnv K) :
    (∀ (t : PnlTracker K) (c c' : RecordCall K), Costlier c c' → t.Passes env c' →
      (t.SpreadIsCost env c c' ↔ t.Charged env c ∧ t.Charged env c')) ∧
    ∀ (t : PnlTracker K) (calls calls' : List (RecordCall K)),
      List.Forall₂ Costlier calls calls' → t.executed env calls = t.executed env calls' →
      t.ChargedRun env calls → t.ChargedRun env calls' →
      (t.run env calls').currentPnl ≤ (t.run env calls).currentPnl :=
  ⟨fun _ _ _ hc h => spreadIsCost_iff hc h, fun _ _ _ hcalls hsame h₁ h₂ =>
    currentPnl_run_mono hcalls rfl le_rfl hsame h₁ h₂⟩

end Runs

/-! ## A trade in each direction -/

section Real

/-- The library in exact arithmetic, and the default of `HOLO_K_ALPHA`. -/
noncomputable def realEnv : BacktestEnv ℝ where
  log := Real.log
  tanh := Real.tanh
  sqrt := Real.sqrt
  signbit x := decide (x < 0)
  activeKAlpha := 1 / (50 : Nat)

/-- Every baseline is warm, one below the ratio of equal prices. -/
noncomputable def warmTracker : PnlTracker ℝ :=
  { init with
    baselines := List.replicate (kFeedNInstruments * kFeedNInstruments)
      { mu := -1, m2 := 1, warm := true } }

/-- The edge from 0 to 1 at equal prices, with the given flow and spread. -/
noncomputable def equalPrices (flow spread : ℝ) : RecordCall ℝ where
  edge :=
    { srcInstrument := 0, dstInstrument := 1, harmonicFlow := flow, yangMillsAction := 1
      signalTsNs := 0, edgeIndex := 0 }
  midSrc := 1
  midDst := 1
  spreadPrice := spread
  sig :=
    { timestampNs := 0, yangMillsAction := 1, nActiveLoops := 0, nHarmonicDims := 0
      maxCurl := 0, meanCurl := 0, nEdges := 0, floerHF0 := 0, floerHF1 := 0, floerHF2 := 0
      floerEuler := 0, floerNInstantons := 0, floerEntryAction := 0, floerExitAction := 0
      floerInstantonLen := 0, floerAsdResidual := 0, floerSignal := 0
      floerInstantonFound := false }

theorem not_ignored_equalPrices (flow spread : ℝ) : ¬ Ignored (equalPrices flow spread) := by
  unfold Ignored equalPrices kFeedNInstruments
  norm_num

theorem updated_equalPrices (flow spread : ℝ) :
    warmTracker.updated realEnv (equalPrices flow spread) =
      ({ mu := -49 / 50, m2 := 1, warm := true }, 49 / 50) := by
  simp [updated, warmTracker, equalPrices, pairIndex, kFeedNInstruments, EwmaPair.update, realEnv,
    EwmaPair.sigma, EwmaPair.kMinSigma]
  norm_num

theorem half_le_tanh_one : 1 / 2 ≤ Real.tanh 1 := by
  have hexp : (3 : ℝ) ≤ Real.exp 1 * Real.exp 1 := by
    have hle := Real.add_one_le_exp (1 + 1 : ℝ)
    rw [Real.exp_add] at hle
    linarith
  have hpos := Real.exp_pos 1
  have hinv : (Real.exp 1)⁻¹ * 3 ≤ Real.exp 1 := by
    rw [inv_mul_le_iff₀ hpos]
    exact hexp
  rw [Real.tanh_eq, Real.exp_neg, div_le_div_iff₀ (by norm_num) (by positivity)]
  linarith

theorem half_le_abs_tanh {flow : ℝ} (h : |flow| = 1) : 1 / 2 ≤ |Real.tanh flow| := by
  rcases abs_eq (by norm_num) |>.mp h with rfl | rfl
  · exact half_le_tanh_one.trans (le_abs_self _)
  · rw [Real.tanh_neg, abs_neg]
    exact half_le_tanh_one.trans (le_abs_self _)

theorem tanh_one_pos : 0 < Real.tanh 1 :=
  lt_of_lt_of_le (by norm_num) half_le_tanh_one

theorem grossRet_equalPrices {flow : ℝ} (h : |flow| = 1) (spread : ℝ) :
    warmTracker.grossRet realEnv (equalPrices flow spread) = 5 := by
  have htanh : 1 / 2 ≤ |signalStrength realEnv (equalPrices flow spread)| := half_le_abs_tanh h
  have hsigma : EwmaPair.sigmaBps realEnv ({ mu := -49 / 50, m2 := 1, warm := true }) = 10 ^ 4 := by
    simp [EwmaPair.sigmaBps, EwmaPair.sigma, realEnv, EwmaPair.kMinSigma]
    norm_num
  have hz : |(49 : ℝ) / 50| = 49 / 50 := by norm_num
  unfold grossRet
  rw [updated_equalPrices, hsigma, hz]
  refine (min_eq_right ?_).trans (Nat.cast_ofNat)
  show ((5 : Nat) : ℝ) ≤ _
  rw [Nat.cast_ofNat]
  linarith

theorem passes_equalPrices {flow : ℝ} (h : |flow| = 1) {spread : ℝ} (hs : spread * 10 ^ 4 < 5) :
    warmTracker.Passes realEnv (equalPrices flow spread) := by
  refine ⟨not_ignored_equalPrices flow spread, ?_⟩
  have hbps : spreadBps (equalPrices flow spread) = spread * 10 ^ 4 := by
    show spread / 1 * ((10 ^ 4 : Nat) : ℝ) = _
    norm_num
  unfold Filtered
  rw [grossRet_equalPrices h, updated_equalPrices, hbps, not_or]
  refine ⟨not_le.mpr hs, ?_⟩
  norm_num [abs_of_pos]

theorem costlier_equalPrices (flow : ℝ) {s₁ s₂ : ℝ} (h : s₁ ≤ s₂) :
    Costlier (equalPrices flow s₁) (equalPrices flow s₂) :=
  ⟨rfl, h⟩

/-- With a positive flow the z-score has the sign of the flow. -/
theorem not_opposed_equalPrices (spread : ℝ) :
    ¬ warmTracker.Opposed realEnv (equalPrices 1 spread) := by
  unfold Opposed
  rw [updated_equalPrices, not_not]
  have hstrength : 0 ≤ signalStrength realEnv (equalPrices 1 spread) := tanh_one_pos.le
  show decide _ = decide _
  rw [decide_eq_decide]
  refine iff_of_false ?_ (not_lt.mpr hstrength)
  norm_num

/-- A spread of one basis point raises the net return of a trade whose flow has
the sign of the z-score from -5 to -4. -/
theorem spread_is_gain :
    warmTracker.Passes realEnv (equalPrices 1 (1 / 10 ^ 4)) ∧
    warmTracker.Recorded realEnv (equalPrices 1 0) (-5) ∧
    warmTracker.Recorded realEnv (equalPrices 1 (1 / 10 ^ 4)) (-4) ∧
    ¬ ∀ (t : PnlTracker ℝ) (c c' : RecordCall ℝ), Costlier c c' → t.Passes realEnv c' →
      t.SpreadIsCost realEnv c c' := by
  have hflow : |(1 : ℝ)| = 1 := abs_one
  have hpass : warmTracker.Passes realEnv (equalPrices 1 (1 / 10 ^ 4)) :=
    passes_equalPrices hflow (by norm_num)
  have hpass₀ : warmTracker.Passes realEnv (equalPrices 1 0) :=
    passes_equalPrices hflow (by norm_num)
  have hnet : ∀ spread : ℝ, warmTracker.netRet realEnv (equalPrices 1 spread) =
      -(5 - spread * 10 ^ 4) := by
    intro spread
    unfold netRet
    rw [direction_eq, if_neg (not_opposed_equalPrices spread), grossRet_equalPrices hflow]
    show -1 * (5 - spread / 1 * ((10 ^ 4 : Nat) : ℝ)) = _
    push_cast
    ring
  refine ⟨hpass, (recorded_iff hpass₀).mpr ?_, (recorded_iff hpass).mpr ?_, fun h => ?_⟩
  · rw [hnet]
    norm_num
  · rw [hnet]
    norm_num
  · have hlarger := costlier_equalPrices 1 (show (0 : ℝ) ≤ 1 / 10 ^ 4 by norm_num)
    have hcost := h warmTracker _ _ hlarger hpass
    rcases ((spreadIsCost_iff hlarger hpass).mp hcost).2 with hopposed | hzero
    · exact not_opposed_equalPrices _ hopposed
    · have hne : (1 : ℝ) / 10 ^ 4 ≠ 0 := by norm_num
      exact hne hzero

theorem opposed_equalPrices (spread : ℝ) :
    warmTracker.Opposed realEnv (equalPrices (-1) spread) := by
  unfold Opposed
  rw [updated_equalPrices]
  have hstrength : signalStrength realEnv (equalPrices (-1) spread) < 0 := by
    show Real.tanh (-1) < 0
    rw [Real.tanh_neg]
    exact neg_neg_of_pos tanh_one_pos
  show decide _ ≠ decide _
  rw [Ne, decide_eq_decide]
  intro h
  have hneg := h.mpr hstrength
  norm_num at hneg

theorem spread_is_cost_at :
    warmTracker.SpreadIsCost realEnv (equalPrices (-1) 0) (equalPrices (-1) (1 / 10 ^ 4)) ∧
    (warmTracker.run realEnv [equalPrices (-1) (1 / 10 ^ 4)]).currentPnl ≤
      (warmTracker.run realEnv [equalPrices (-1) 0]).currentPnl := by
  have hflow : |(-1 : ℝ)| = 1 := by norm_num
  have hcost := costlier_equalPrices (-1) (show (0 : ℝ) ≤ 1 / 10 ^ 4 by norm_num)
  have hpass : warmTracker.Passes realEnv (equalPrices (-1) (1 / 10 ^ 4)) :=
    passes_equalPrices hflow (by norm_num)
  have hpass₀ : warmTracker.Passes realEnv (equalPrices (-1) 0) :=
    passes_equalPrices hflow (by norm_num)
  refine ⟨((spreadIsCost_of_charged realEnv).1 _ _ _ hcost hpass).mpr
    ⟨Or.inl (opposed_equalPrices _), Or.inl (opposed_equalPrices _)⟩,
    (spreadIsCost_of_charged realEnv).2 _ _ _ (List.Forall₂.cons hcost List.Forall₂.nil) ?_ ?_ ?_⟩
  · show [decide _] = [decide _]
    rw [decide_eq_true hpass, decide_eq_true hpass₀]
  · exact List.forall_mem_singleton.mpr fun _ => Or.inl (opposed_equalPrices _)
  · exact List.forall_mem_singleton.mpr fun _ => Or.inl (opposed_equalPrices _)

end Real

end PnlTracker
end HoloMarket
