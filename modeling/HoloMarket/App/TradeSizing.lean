import HoloMarket.App.PnlTracker

/-!
# The size of a trade

What the baselines of `PnlTracker` make of a run.  The z-score is multiplied by the
deviation it was divided by, so that the variance decides whether a trade passes and
not how large it is; and a smoothing weight above a bound lets no trade pass at all.
-/

namespace HoloMarket
namespace PnlTracker

variable {K : Type} [Field K] [LinearOrder K]

/-! ## The baseline of a pair -/

/-- The log ratios that the calls on a pair have put into its baseline. -/
def pairRatios (env : BacktestEnv K) (i : Nat) (calls : List (RecordCall K)) : List K :=
  (calls.filter fun c => decide (¬ Ignored c ∧ pairIndex c = i)).map fun c =>
    env.log (c.midDst / c.midSrc)

/-- The exponentially weighted mean, started at the first value. -/
def runningMean (alpha : K) : List K → K
  | [] => 0
  | x :: xs => xs.foldl (fun mean y => mean + alpha * (y - mean)) x

/-- The baseline after the log ratios of its pair. -/
def baselineAfter (env : BacktestEnv K) (ratios : List K) : EwmaPair K :=
  ratios.foldl (fun bl x => (bl.update env x).1) EwmaPair.fresh

section Scores

variable {env : BacktestEnv K} {bl : EwmaPair K} {x : K}

/-- The update of a warm pair. -/
def nextPair (alpha : K) (bl : EwmaPair K) (x : K) : EwmaPair K :=
  { mu := bl.mu + alpha * (x - bl.mu)
    m2 := (1 - alpha) * bl.m2 + alpha * (x - bl.mu) * (x - bl.mu)
    warm := true }

theorem update_warm (h : bl.warm = true) : bl.update env x =
    (nextPair env.activeKAlpha bl x,
      (1 - env.activeKAlpha) * (x - bl.mu) / (nextPair env.activeKAlpha bl x).sigma env) := by
  unfold EwmaPair.update
  rw [h]
  show (nextPair env.activeKAlpha bl x, (x - (nextPair env.activeKAlpha bl x).mu) /
    (nextPair env.activeKAlpha bl x).sigma env) = _
  have hdiff : x - (nextPair env.activeKAlpha bl x).mu =
      (1 - env.activeKAlpha) * (x - bl.mu) := by
    show x - (bl.mu + env.activeKAlpha * (x - bl.mu)) = _
    ring
  rw [hdiff]

theorem update_cold (h : bl.warm = false) : (bl.update env x).2 = 0 := by
  unfold EwmaPair.update
  rw [h]
  rfl

end Scores

section Baselines

variable {env : BacktestEnv K} {t : PnlTracker K}

theorem pairRatios_concat (env : BacktestEnv K) (i : Nat) (calls : List (RecordCall K))
    (c : RecordCall K) : pairRatios env i (calls ++ [c]) =
      if ¬ Ignored c ∧ pairIndex c = i then
        pairRatios env i calls ++ [env.log (c.midDst / c.midSrc)]
      else pairRatios env i calls := by
  unfold pairRatios
  rw [List.filter_append, List.map_append]
  by_cases h : ¬ Ignored c ∧ pairIndex c = i
  · rw [if_pos h, List.filter_singleton, decide_eq_true h]
    rfl
  · rw [if_neg h, List.filter_singleton, decide_eq_false h]
    exact List.append_nil _

theorem baselineAfter_concat (env : BacktestEnv K) (ratios : List K) (x : K) :
    baselineAfter env (ratios ++ [x]) = ((baselineAfter env ratios).update env x).1 :=
  List.foldl_concat _ _ _ _

theorem pairIndex_lt {c : RecordCall K} (h : ¬ Ignored c) :
    pairIndex c < kFeedNInstruments * kFeedNInstruments := by
  unfold Ignored at h
  unfold pairIndex
  have hsrc : c.edge.srcInstrument < kFeedNInstruments := by
    by_contra hlt
    exact h (Or.inr (Or.inr (Or.inl (Nat.not_lt.mp hlt))))
  have hdst : c.edge.dstInstrument < kFeedNInstruments := by
    by_contra hlt
    exact h (Or.inr (Or.inr (Or.inr (Nat.not_lt.mp hlt))))
  have hmul := Nat.mul_le_mul_right kFeedNInstruments (Nat.succ_le_of_lt hsrc)
  rw [Nat.succ_mul] at hmul
  omega

/-- Every pair has the baseline that the calls on it make. -/
structure Isolated (env : BacktestEnv K) (t : PnlTracker K) (calls : List (RecordCall K)) :
    Prop where
  length : t.baselines.length = kFeedNInstruments * kFeedNInstruments
  baseline : ∀ i, t.baselines.getD i EwmaPair.fresh = baselineAfter env (pairRatios env i calls)

theorem isolated_init (env : BacktestEnv K) : Isolated env init [] where
  length := List.length_replicate
  baseline i := by
    show (List.replicate _ EwmaPair.fresh).getD i EwmaPair.fresh = EwmaPair.fresh
    rw [List.getD_eq_getElem?_getD, List.getElem?_replicate]
    by_cases h : i < kFeedNInstruments * kFeedNInstruments
    · rw [if_pos h]
      rfl
    · rw [if_neg h]
      rfl

theorem Isolated.record {calls : List (RecordCall K)} (h : Isolated env t calls)
    (c : RecordCall K) : Isolated env (t.record env c) (calls ++ [c]) := by
  refine ⟨?_, fun i => ?_⟩
  · rw [baselines_record]
    by_cases hi : Ignored c
    · rw [if_pos hi]
      exact h.length
    · rw [if_neg hi, List.length_set]
      exact h.length
  · rw [baselines_record, pairRatios_concat]
    by_cases hi : Ignored c
    · rw [if_pos hi, if_neg (fun hc => hc.1 hi)]
      exact h.baseline i
    · rw [if_neg hi, List.getD_eq_getElem?_getD]
      have hlt : pairIndex c < t.baselines.length := by
        rw [h.length]
        exact pairIndex_lt hi
      by_cases hpair : pairIndex c = i
      · rw [if_pos ⟨hi, hpair⟩, baselineAfter_concat, ← h.baseline i, ← hpair,
          List.getElem?_set_self hlt]
        rfl
      · rw [if_neg (fun hc => hpair hc.2), List.getElem?_set_ne hpair,
          ← List.getD_eq_getElem?_getD]
        exact h.baseline i

theorem run_concat (env : BacktestEnv K) (t : PnlTracker K) (calls : List (RecordCall K))
    (c : RecordCall K) : t.run env (calls ++ [c]) = (t.run env calls).record env c :=
  List.foldl_concat _ _ _ _

theorem isolated_run (env : BacktestEnv K) (calls : List (RecordCall K)) :
    Isolated env (init.run env calls) calls := by
  induction calls using List.reverseRecOn with
  | nil => exact isolated_init env
  | append_singleton calls c ih =>
    rw [run_concat]
    exact ih.record c

/-- After its first value a baseline is warm and holds the mean. -/
theorem baselineAfter_warm (env : BacktestEnv K) {ratios : List K} (h : ratios ≠ []) :
    (baselineAfter env ratios).warm = true ∧
      (baselineAfter env ratios).mu = runningMean env.activeKAlpha ratios := by
  induction ratios using List.reverseRecOn with
  | nil => exact absurd rfl h
  | append_singleton ratios x ih =>
    rw [baselineAfter_concat]
    cases ratios with
    | nil => exact ⟨rfl, rfl⟩
    | cons y ys =>
      obtain ⟨hwarm, hmu⟩ := ih (List.cons_ne_nil _ _)
      rw [update_warm hwarm]
      refine ⟨rfl, ?_⟩
      show (baselineAfter env (y :: ys)).mu + _ = _
      rw [hmu]
      exact (List.foldl_concat (fun mean z => mean + env.activeKAlpha * (z - mean)) y x ys).symm

end Baselines

/-! ## The z-score -/

section Real

/-- The library in exact arithmetic under a value of `HOLO_K_ALPHA`. -/
noncomputable def smoothing (alpha : ℝ) : BacktestEnv ℝ :=
  { realEnv with activeKAlpha := alpha }

variable {alpha : ℝ}

theorem sigma_sq (bl : EwmaPair ℝ) : bl.sigma (smoothing alpha) * bl.sigma (smoothing alpha) =
    max bl.m2 (EwmaPair.kMinSigma * EwmaPair.kMinSigma) :=
  Real.mul_self_sqrt (le_max_of_le_right (mul_self_nonneg _))

theorem sigma_pos (bl : EwmaPair ℝ) : 0 < bl.sigma (smoothing alpha) := by
  refine Real.sqrt_pos.mpr (lt_max_of_lt_right (mul_self_pos.mpr ?_))
  unfold EwmaPair.kMinSigma
  norm_num

/-- The variance cancels. -/
theorem abs_score_mul_sigmaBps (ha : alpha ≤ 1) {bl : EwmaPair ℝ} (h : bl.warm = true) (x : ℝ) :
    |(bl.update (smoothing alpha) x).2| *
        (bl.update (smoothing alpha) x).1.sigmaBps (smoothing alpha) =
      (1 - alpha) * |x - bl.mu| * (10 ^ 4 : Nat) := by
  have hsigma : 0 < (nextPair alpha bl x).sigma (smoothing alpha) := sigma_pos _
  rw [update_warm h]
  show |(1 - alpha) * (x - bl.mu) / (nextPair alpha bl x).sigma (smoothing alpha)| *
    ((nextPair alpha bl x).sigma (smoothing alpha) * (10 ^ 4 : Nat)) = _
  rw [abs_div, abs_mul, abs_of_nonneg (sub_nonneg.mpr ha), abs_of_pos hsigma, ← mul_assoc,
    div_mul_cancel₀ _ hsigma.ne']

/-- A pair keeps a variance that is not zero while the weight of the past is not. -/
def Spread (alpha : ℝ) (bl : EwmaPair ℝ) : Prop :=
  0 ≤ bl.m2 ∧ (alpha < 1 → 0 < bl.m2)

theorem spread_fresh (alpha : ℝ) : Spread alpha EwmaPair.fresh := by
  have hpos : (0 : ℝ) < EwmaPair.fresh.m2 := by
    unfold EwmaPair.fresh
    norm_num
  exact ⟨hpos.le, fun _ => hpos⟩

theorem Spread.update {bl : EwmaPair ℝ} (h : Spread alpha bl) (ha₀ : 0 ≤ alpha) (ha : alpha ≤ 1)
    (x : ℝ) : Spread alpha (bl.update (smoothing alpha) x).1 := by
  cases hwarm : bl.warm with
  | false =>
    have hfresh : (bl.update (smoothing alpha) x).1.m2 = EwmaPair.fresh.m2 := by
      unfold EwmaPair.update
      rw [hwarm]
      rfl
    unfold Spread
    rw [hfresh]
    exact spread_fresh alpha
  | true =>
    have hsq : 0 ≤ alpha * (x - bl.mu) * (x - bl.mu) := by
      rw [mul_assoc]
      exact mul_nonneg ha₀ (mul_self_nonneg _)
    rw [update_warm hwarm]
    refine ⟨add_nonneg (mul_nonneg (sub_nonneg.mpr ha) h.1) hsq, fun hlt => ?_⟩
    exact add_pos_of_pos_of_nonneg (mul_pos (sub_pos.mpr hlt) (h.2 hlt)) hsq

theorem spread_baselineAfter (ha₀ : 0 ≤ alpha) (ha : alpha ≤ 1) (ratios : List ℝ) :
    Spread alpha (baselineAfter (smoothing alpha) ratios) := by
  induction ratios using List.reverseRecOn with
  | nil => exact spread_fresh alpha
  | append_singleton ratios x ih =>
    rw [baselineAfter_concat]
    exact ih.update ha₀ ha x

/-- Under a large weight of the new value no z-score reaches the bound of the filter. -/
theorem abs_score_lt_half {bl : EwmaPair ℝ} (h : Spread alpha bl) (ha : alpha ≤ 1)
    (hbound : 4 * (1 - alpha) ^ 2 ≤ alpha) (x : ℝ) :
    |(bl.update (smoothing alpha) x).2| < 1 / 2 := by
  cases hwarm : bl.warm with
  | false =>
    rw [update_cold hwarm, abs_zero]
    norm_num
  | true =>
    have hsigma : 0 < (nextPair alpha bl x).sigma (smoothing alpha) := sigma_pos _
    have hsq : (nextPair alpha bl x).sigma (smoothing alpha) *
        (nextPair alpha bl x).sigma (smoothing alpha) = _ := sigma_sq _
    have hpos : 0 ≤ alpha := le_trans (by positivity) hbound
    rw [update_warm hwarm]
    show |(1 - alpha) * (x - bl.mu) / (nextPair alpha bl x).sigma (smoothing alpha)| < 1 / 2
    rw [abs_div, abs_of_pos hsigma, div_lt_iff₀ hsigma]
    refine abs_lt_of_sq_lt_sq ?_ (by positivity)
    have hm2 : (nextPair alpha bl x).m2 ≤
        (nextPair alpha bl x).sigma (smoothing alpha) *
          (nextPair alpha bl x).sigma (smoothing alpha) :=
      (le_max_left _ _).trans_eq hsq.symm
    have hnext : (nextPair alpha bl x).m2 =
        (1 - alpha) * bl.m2 + alpha * (x - bl.mu) * (x - bl.mu) := rfl
    have hold : 0 ≤ (1 - alpha) * bl.m2 := mul_nonneg (sub_nonneg.mpr ha) h.1
    have hle : 4 * (1 - alpha) ^ 2 * (x - bl.mu) ^ 2 ≤ alpha * (x - bl.mu) ^ 2 :=
      mul_le_mul_of_nonneg_right hbound (sq_nonneg _)
    by_cases hdiff : x - bl.mu = 0
    · rw [hdiff, mul_zero]
      have := mul_pos hsigma hsigma
      nlinarith
    · have hlt : 4 * (1 - alpha) ^ 2 * (x - bl.mu) ^ 2 <
          (nextPair alpha bl x).sigma (smoothing alpha) *
            (nextPair alpha bl x).sigma (smoothing alpha) := by
        rcases ha.lt_or_eq with hone | hone
        · have hpast := mul_pos (sub_pos.mpr hone) (h.2 hone)
          linarith
        · rw [hone, sub_self] at hle ⊢
          rw [zero_pow two_ne_zero, mul_zero, zero_mul]
          exact mul_pos (hone ▸ hsigma) (hone ▸ hsigma)
      nlinarith

end Real

/-! ## Runs -/

theorem n_record (env : BacktestEnv K) (t : PnlTracker K) (c : RecordCall K) :
    (t.record env c).n = if t.Passes env c then t.n + 1 else t.n := by
  by_cases h : t.Passes env c
  · rw [if_pos h, record_of_passes h]
    rfl
  · rw [if_neg h]
    unfold record
    by_cases hi : Ignored c
    · rw [if_pos hi]
    · have hf : t.Filtered env c := by
        by_contra hf
        exact h ⟨hi, hf⟩
      rw [if_neg hi, if_neg (by simp [warm_updated]), if_pos hf]

theorem updated_run (env : BacktestEnv K) (calls : List (RecordCall K)) (c : RecordCall K) :
    (init.run env calls).updated env c =
      (baselineAfter env (pairRatios env (pairIndex c) calls)).update env
        (env.log (c.midDst / c.midSrc)) := by
  unfold updated
  rw [(isolated_run env calls).baseline]

section Real

variable {alpha : ℝ} {calls : List (RecordCall ℝ)} {c : RecordCall ℝ}

/-- The gross return of a trade before the cap. -/
noncomputable def uncapped (alpha : ℝ) (calls : List (RecordCall ℝ)) (c : RecordCall ℝ) : ℝ :=
  |Real.tanh c.edge.harmonicFlow| *
    ((1 - alpha) * |Real.log (c.midDst / c.midSrc) -
      runningMean alpha (pairRatios (smoothing alpha) (pairIndex c) calls)| * (10 ^ 4 : Nat))

theorem grossRet_run (ha : alpha ≤ 1)
    (h : pairRatios (smoothing alpha) (pairIndex c) calls ≠ []) :
    (init.run (smoothing alpha) calls).grossRet (smoothing alpha) c =
      min (uncapped alpha calls c) EwmaPair.kMaxGrossBps := by
  obtain ⟨hwarm, hmu⟩ := baselineAfter_warm (smoothing alpha) h
  unfold grossRet uncapped
  rw [updated_run, mul_assoc, abs_score_mul_sigmaBps ha hwarm, hmu]
  rfl

theorem passes_run (ha : alpha ≤ 1)
    (h : (init.run (smoothing alpha) calls).Passes (smoothing alpha) c) :
    pairRatios (smoothing alpha) (pairIndex c) calls ≠ [] ∧
      |(init.run (smoothing alpha) calls).netRet (smoothing alpha) c| =
        min (uncapped alpha calls c) EwmaPair.kMaxGrossBps - spreadBps c := by
  have hfilter := h.2
  rw [Filtered, not_or, not_le, not_lt] at hfilter
  have hne : pairRatios (smoothing alpha) (pairIndex c) calls ≠ [] := by
    intro hnil
    have hscore := hfilter.2
    rw [updated_run, hnil] at hscore
    have hcold : ((baselineAfter (smoothing alpha) []).update (smoothing alpha)
        ((smoothing alpha).log (c.midDst / c.midSrc))).2 = 0 := update_cold rfl
    rw [hcold, abs_zero] at hscore
    norm_num at hscore
  refine ⟨hne, ?_⟩
  have hgain := sub_pos.mpr hfilter.1
  have hdir : |(init.run (smoothing alpha) calls).direction (smoothing alpha) c| = 1 := by
    rw [direction_eq]
    split <;> simp
  unfold netRet
  rw [abs_mul, hdir, one_mul, abs_of_pos hgain, grossRet_run ha hne]

/-- Under a large weight of the new value a run executes no trade. -/
theorem n_run_eq_zero (ha : alpha ≤ 1) (hbound : 4 * (1 - alpha) ^ 2 ≤ alpha)
    (calls : List (RecordCall ℝ)) : (init.run (smoothing alpha) calls).n = 0 := by
  have hpos : 0 ≤ alpha := le_trans (by positivity) hbound
  induction calls using List.reverseRecOn with
  | nil => rfl
  | append_singleton calls c ih =>
    rw [run_concat, n_record, if_neg, ih]
    intro hpass
    apply hpass.2
    right
    rw [updated_run]
    have hlt := abs_score_lt_half (spread_baselineAfter hpos ha
      (pairRatios (smoothing alpha) (pairIndex c) calls)) ha hbound
      ((smoothing alpha).log (c.midDst / c.midSrc))
    simpa using hlt

/-- The edge of `equalPrices` when the second price has grown by a log ratio. -/
noncomputable def grown (x : ℝ) : RecordCall ℝ :=
  { equalPrices 1 0 with midDst := Real.exp x }

theorem not_ignored_grown (x : ℝ) : ¬ Ignored (grown x) := by
  have hexp := Real.exp_pos x
  have hne := not_ignored_equalPrices 1 0
  unfold Ignored at hne ⊢
  rintro (h | h | h)
  · exact hne (Or.inl h)
  · exact absurd hexp (not_lt.mpr h)
  · exact hne (Or.inr (Or.inr h))

theorem log_grown (x : ℝ) : Real.log ((grown x).midDst / (grown x).midSrc) = x := by
  show Real.log (Real.exp x / 1) = x
  rw [div_one, Real.log_exp]

theorem pairRatios_grown (alpha : ℝ) (x : ℝ) :
    pairRatios (smoothing alpha) (pairIndex (grown x)) [grown 0] = [0] := by
  rw [← List.nil_append [grown 0], pairRatios_concat,
    if_pos ⟨not_ignored_grown 0, rfl⟩]
  show [Real.log _] = [0]
  rw [log_grown]

/-- A large enough jump passes. -/
theorem passes_grown (ha : alpha ≤ 1) {x : ℝ} (hx : 0 < (1 - alpha) * x)
    (hvar : (1 - alpha) * (1 / 10 ^ 8) + alpha * x ^ 2 ≤ (2 * ((1 - alpha) * x)) ^ 2)
    (hmin : 1 / 10 ^ 10 ≤ (2 * ((1 - alpha) * x)) ^ 2) :
    (init.run (smoothing alpha) [grown 0]).Passes (smoothing alpha) (grown x) := by
  have hratios := pairRatios_grown alpha x
  have hne : pairRatios (smoothing alpha) (pairIndex (grown x)) [grown 0] ≠ [] := by
    rw [hratios]
    exact List.cons_ne_nil _ _
  refine ⟨not_ignored_grown x, ?_⟩
  rw [Filtered, not_or, not_le, not_lt]
  constructor
  · rw [grossRet_run ha hne]
    have hspread : spreadBps (grown x) = 0 := by
      show (0 : ℝ) / 1 * _ = 0
      rw [zero_div, zero_mul]
    rw [hspread, uncapped, hratios, log_grown]
    show 0 < min (|Real.tanh 1| * ((1 - alpha) * |x - 0| * _)) ((5 : Nat) : ℝ)
    have habs : (1 - alpha) * x ≤ (1 - alpha) * |x - 0| := by
      rw [sub_zero]
      exact mul_le_mul_of_nonneg_left (le_abs_self x) (sub_nonneg.mpr ha)
    have hgap := lt_of_lt_of_le hx habs
    refine lt_min (mul_pos (abs_pos.mpr tanh_one_pos.ne') (mul_pos hgap (by norm_num))) ?_
    norm_num
  · rw [updated_run, hratios]
    show 1 / ((2 : Nat) : ℝ) ≤ |((baselineAfter (smoothing alpha) [0]).update (smoothing alpha)
      (Real.log _)).2|
    rw [log_grown, update_warm rfl]
    have hsigma : 0 < (nextPair alpha (baselineAfter (smoothing alpha) [0]) x).sigma
        (smoothing alpha) := sigma_pos _
    show 1 / ((2 : Nat) : ℝ) ≤ |(1 - alpha) * (x - 0) /
      (nextPair alpha (baselineAfter (smoothing alpha) [0]) x).sigma (smoothing alpha)|
    rw [sub_zero, abs_div, abs_of_pos hx, abs_of_pos hsigma, le_div_iff₀ hsigma]
    have hle : (nextPair alpha (baselineAfter (smoothing alpha) [0]) x).sigma (smoothing alpha) ≤
        2 * ((1 - alpha) * x) := by
      refine Real.sqrt_le_iff.mpr ⟨by linarith, max_le ?_ ?_⟩
      · refine le_trans (le_of_eq ?_) hvar
        show (1 - alpha) * (1 / ((10 ^ 8 : Nat) : ℝ)) + alpha * (x - 0) * (x - 0) = _
        push_cast
        ring
      · refine le_trans (le_of_eq ?_) hmin
        show (1 / ((10 ^ 5 : Nat) : ℝ)) * (1 / ((10 ^ 5 : Nat) : ℝ)) = _
        norm_num
    rw [Nat.cast_ofNat]
    linarith

/-- Below the bound there is such a jump. -/
theorem exists_jump (ha : alpha ≤ 1) (hbound : alpha < 4 * (1 - alpha) ^ 2) :
    ∃ x, 0 < (1 - alpha) * x ∧
      (1 - alpha) * (1 / 10 ^ 8) + alpha * x ^ 2 ≤ (2 * ((1 - alpha) * x)) ^ 2 ∧
      1 / 10 ^ 10 ≤ (2 * ((1 - alpha) * x)) ^ 2 := by
  have hlt : alpha < 1 := by
    refine lt_of_le_of_ne ha fun hone => ?_
    rw [hone] at hbound
    norm_num at hbound
  have hpast : 0 < 1 - alpha := sub_pos.mpr hlt
  have hroom : 0 < 4 * (1 - alpha) ^ 2 - alpha := sub_pos.mpr hbound
  obtain ⟨x, hx⟩ : ∃ x : ℝ, x = 1 + (1 - alpha) / (4 * (1 - alpha) ^ 2 - alpha) + 1 / (1 - alpha) :=
    ⟨_, rfl⟩
  have hquot : 0 < (1 - alpha) / (4 * (1 - alpha) ^ 2 - alpha) := div_pos hpast hroom
  have hinv : 0 < 1 / (1 - alpha) := one_div_pos.mpr hpast
  have hx₁ : 1 ≤ x := by linarith
  have hsq : x ≤ x ^ 2 := by nlinarith
  have hx₂ : 1 - alpha ≤ (4 * (1 - alpha) ^ 2 - alpha) * x ^ 2 := by
    have hle : (1 - alpha) / (4 * (1 - alpha) ^ 2 - alpha) ≤ x ^ 2 := by linarith
    rw [div_le_iff₀ hroom] at hle
    linarith
  have hx₃ : 1 ≤ (1 - alpha) * x := by
    have hle : 1 / (1 - alpha) ≤ x := by linarith
    rw [div_le_iff₀ hpast] at hle
    linarith
  refine ⟨x, by linarith, ?_, ?_⟩
  · nlinarith
  · nlinarith

/-- In every run the size of a trade is the deviation of its log ratio from the mean of
the earlier ones of its pair, whatever their variance, and a run can execute a trade
exactly when the weight of the new value is below the bound that the filter leaves. -/
theorem trades_sized (ha : alpha ≤ 1) :
    (∀ calls c, (init.run (smoothing alpha) calls).Passes (smoothing alpha) c →
      pairRatios (smoothing alpha) (pairIndex c) calls ≠ [] ∧
      |(init.run (smoothing alpha) calls).netRet (smoothing alpha) c| =
        min (uncapped alpha calls c) EwmaPair.kMaxGrossBps - spreadBps c) ∧
    ((∃ calls, 0 < (init.run (smoothing alpha) calls).n) ↔ alpha < 4 * (1 - alpha) ^ 2) := by
  refine ⟨fun _ _ h => passes_run ha h, ?_, fun hbound => ?_⟩
  · rintro ⟨calls, hn⟩
    by_contra hbound
    rw [n_run_eq_zero ha (not_lt.mp hbound)] at hn
    exact absurd hn (lt_irrefl 0)
  · obtain ⟨x, hx, hvar, hmin⟩ := exists_jump ha hbound
    refine ⟨[grown 0] ++ [grown x], ?_⟩
    rw [run_concat, n_record, if_pos (passes_grown ha hx hvar hmin)]
    exact Nat.succ_pos _

/-- The default weight lets trades pass. -/
theorem trades_sized_default :
    ∃ calls, 0 < (init.run (smoothing (1 / 50)) calls).n :=
  (trades_sized (by norm_num)).2.mpr (by norm_num)

end Real

end PnlTracker
end HoloMarket
