import Mathlib.Algebra.Order.Chebyshev
import HoloMarket.Math.CompleteHodge
import HoloMarket.Math.CudaPipeline
import HoloMarket.Math.YangMills

/-!
# The numbers of a signal record

`kernel_curl_magnitude`, `kernel_count_active_loops` and
`extract_arbitrage_signal` of `hodge_kernel.cu`, and what the fields that
`record_signal` derives from them say about each other.
-/

namespace HoloMarket

variable {K : Type} [Field K] [LinearOrder K]

def kArbitrageThreshold (K : Type) [Field K] : K := 1 / ((1000 : Nat) : K)

/-- `d_curl_magnitude` after the launch on `d_coexact`. -/
def kernelCurlMagnitude (coexact : Nat → K) (e : Nat) : K := |coexact e|

def kernelArbSignal (coexact : Nat → K) (e : Nat) : K :=
  if kArbitrageThreshold K < kernelCurlMagnitude coexact e then coexact e else 0

/-- The counter after the atomic additions, given the order in which the threads made
them. -/
def kernelCountActiveLoops (arbSignal : Nat → K) (nEdges : Nat) (threads : List Nat) : Int :=
  threads.foldl (fun count e => if e < nEdges ∧ 0 < |arbSignal e| then count + 1 else count) 0

/-- The threads of a launch over the edges. -/
def launchThreads (nEdges : Nat) : List Nat := List.range (gridDim nEdges * kHodgeBlockDim)

def extractArbitrageSignal (nEdges : Nat) (coexact : Nat → K) (action : K) (threads : List Nat)
    (now : Nat) : ArbitrageSignal K where
  harmonicFlow := coexact
  curlMagnitude := kernelCurlMagnitude coexact
  yangMillsAction := action
  nActiveLoops := kernelCountActiveLoops (kernelArbSignal coexact) nEdges threads
  nEdges := nEdges
  signalTsNs := now

/-! ## The fields -/

section
variable {nEdges : Nat} {c : Nat → K} {threads : List Nat}

omit [Field K] in
theorem foldl_max_le_iff (f : Nat → K) (es : List Nat) (best x : K) :
    es.foldl (fun best e => if best < f e then f e else best) best ≤ x ↔
      best ≤ x ∧ ∀ e ∈ es, f e ≤ x := by
  induction es generalizing best with
  | nil => simp
  | cons e es ih =>
    rw [List.foldl_cons, ih, List.forall_mem_cons]
    split_ifs with h
    · constructor
      · rintro ⟨he, hes⟩
        exact ⟨h.le.trans he, he, hes⟩
      · rintro ⟨-, he, hes⟩
        exact ⟨he, hes⟩
    · constructor
      · rintro ⟨hb, hes⟩
        exact ⟨hb, (not_lt.mp h).trans hb, hes⟩
      · rintro ⟨hb, -, hes⟩
        exact ⟨hb, hes⟩

omit [Field K] in
theorem foldl_max_eq (f : Nat → K) (es : List Nat) (best : K) :
    es.foldl (fun best e => if best < f e then f e else best) best = best ∨
      ∃ e ∈ es, es.foldl (fun best e => if best < f e then f e else best) best = f e := by
  induction es generalizing best with
  | nil => exact Or.inl rfl
  | cons e es ih =>
    rw [List.foldl_cons]
    rcases ih (if best < f e then f e else best) with h | ⟨e', he', h⟩
    · rw [h]
      split_ifs
      · exact Or.inr ⟨e, List.mem_cons_self, rfl⟩
      · exact Or.inl rfl
    · exact Or.inr ⟨e', List.mem_cons_of_mem e he', h⟩

omit [LinearOrder K] in
theorem foldl_add_eq_sum (f : Nat → K) (n : Nat) :
    (List.range n).foldl (fun acc e => acc + f e) 0 = ∑ e ∈ Finset.range n, f e := by
  induction n with
  | zero => rfl
  | succ n ih =>
    rw [List.range_succ, List.foldl_append, ih, Finset.sum_range_succ]
    rfl

variable [IsStrictOrderedRing K]

theorem kArbitrageThreshold_pos : 0 < kArbitrageThreshold K :=
  one_div_pos.mpr (Nat.cast_pos.mpr (by decide))

/-- The edges whose signal passes the threshold, whatever the order of the additions. -/
theorem kernelCountActiveLoops_eq (hthreads : threads.Perm (launchThreads nEdges)) :
    kernelCountActiveLoops (kernelArbSignal c) nEdges threads =
      ((Finset.range nEdges).filter fun e => kArbitrageThreshold K < |c e|).card := by
  have hactive : ∀ e, 0 < |kernelArbSignal c e| ↔ kArbitrageThreshold K < |c e| := by
    intro e
    unfold kernelArbSignal kernelCurlMagnitude
    split_ifs with h
    · exact ⟨fun _ => h, fun _ => kArbitrageThreshold_pos.trans h⟩
    · rw [abs_zero]
      exact ⟨fun h0 => absurd h0 (lt_irrefl 0), fun h' => absurd h' h⟩
  unfold kernelCountActiveLoops launchThreads at *
  rw [foldl_count, zero_add, hthreads.countP_eq, List.countP_eq_length_filter,
    ← List.toFinset_card_of_nodup (List.nodup_range.filter _)]
  congr 2
  ext e
  have hle := le_gridDim nEdges
  rw [List.mem_toFinset, List.mem_filter, List.mem_range, decide_eq_true_eq,
    hactive, Finset.mem_filter, Finset.mem_range]
  constructor
  · exact fun h => h.2
  · exact fun h => ⟨h.1.trans_le hle, h⟩

/-! ## Relations between the fields -/

section
variable {action : K} {now : Nat} {t : Tick K}

omit [IsStrictOrderedRing K] in
theorem maxCurl_le_iff (ht : t.sig = extractArbitrageSignal nEdges c action threads now) (x : K) :
    t.maxCurl ≤ x ↔ 0 ≤ x ∧ ∀ e < nEdges, |c e| ≤ x := by
  have hsize : t.size = nEdges := by
    rw [Tick.size, ht]
    rfl
  unfold Tick.maxCurl
  rw [foldl_max_le_iff, hsize, ht]
  simp only [List.mem_range]
  rfl

/-- The largest of the squares lies between their mean and their sum. -/
theorem maxCurl_sq (ht : t.sig = extractArbitrageSignal nEdges c action threads now) :
    t.maxCurl ^ 2 ≤ ∑ e ∈ Finset.range nEdges, c e ^ 2 ∧
      ∑ e ∈ Finset.range nEdges, c e ^ 2 ≤ nEdges * t.maxCurl ^ 2 := by
  have hle := (maxCurl_le_iff ht t.maxCurl).mp le_rfl
  constructor
  · have hsize : t.size = nEdges := by
      rw [Tick.size, ht]
      rfl
    rcases foldl_max_eq t.sig.curlMagnitude (List.range t.size) 0 with hzero | ⟨e, he, hmax⟩
    · have hmax : t.maxCurl = 0 := hzero
      rw [hmax, zero_pow two_ne_zero]
      exact Finset.sum_nonneg fun e _ => sq_nonneg _
    · have hmax' : t.maxCurl = |c e| := hmax.trans (by rw [ht]; rfl)
      rw [hmax', sq_abs]
      rw [hsize] at he
      exact Finset.single_le_sum (f := fun e => c e ^ 2) (fun e _ => sq_nonneg _)
        (Finset.mem_range.mpr (List.mem_range.mp he))
  · rw [← Finset.card_range nEdges, ← nsmul_eq_mul, Finset.card_range]
    refine (Finset.sum_le_card_nsmul _ _ _ fun e he => ?_).trans_eq (by rw [Finset.card_range])
    rw [← sq_abs]
    exact pow_le_pow_left₀ (abs_nonneg _) (hle.2 e (Finset.mem_range.mp he)) 2

/-- The square of the mean is at most the mean of the squares. -/
theorem mul_meanCurl_sq_le (ht : t.sig = extractArbitrageSignal nEdges c action threads now) :
    nEdges * t.meanCurl ^ 2 ≤ ∑ e ∈ Finset.range nEdges, c e ^ 2 := by
  have hsize : t.size = nEdges := by
    rw [Tick.size, ht]
    rfl
  have hmean : t.meanCurl = (∑ e ∈ Finset.range nEdges, |c e|) / nEdges := by
    unfold Tick.meanCurl
    rw [foldl_add_eq_sum, hsize, ht]
    show _ / ((nEdges : Int) : K) = _
    rw [Int.cast_natCast]
    rfl
  rcases Nat.eq_zero_or_pos nEdges with rfl | hpos
  · simp
  · have hcast : (0 : K) < nEdges := Nat.cast_pos.mpr hpos
    have hsq := sq_sum_le_card_mul_sum_sq (s := Finset.range nEdges) (f := fun e => |c e|)
    simp only [sq_abs, Finset.card_range] at hsq
    rw [hmean, div_pow, ← mul_div_assoc, div_le_iff₀ (pow_pos hcast 2)]
    calc nEdges * (∑ e ∈ Finset.range nEdges, |c e|) ^ 2
        ≤ nEdges * (nEdges * ∑ e ∈ Finset.range nEdges, c e ^ 2) :=
          mul_le_mul_of_nonneg_left hsq hcast.le
      _ = (∑ e ∈ Finset.range nEdges, c e ^ 2) * nEdges ^ 2 := by ring

theorem nActiveLoops_eq (ht : t.sig = extractArbitrageSignal nEdges c action threads now)
    (hthreads : threads.Perm (launchThreads nEdges)) : t.sig.nActiveLoops =
      ((Finset.range nEdges).filter fun e => kArbitrageThreshold K < |c e|).card := by
  rw [ht]
  exact kernelCountActiveLoops_eq hthreads

/-- An active loop is an edge above the threshold, and each carries at least the square of
the threshold. -/
theorem nActiveLoops_spec (ht : t.sig = extractArbitrageSignal nEdges c action threads now)
    (hthreads : threads.Perm (launchThreads nEdges)) :
    (0 < t.sig.nActiveLoops ↔ kArbitrageThreshold K < t.maxCurl) ∧
      t.sig.nActiveLoops * kArbitrageThreshold K ^ 2 ≤ ∑ e ∈ Finset.range nEdges, c e ^ 2 := by
  have hcount := nActiveLoops_eq ht hthreads
  constructor
  · rw [hcount, Int.natCast_pos, Finset.card_pos, ← not_le, maxCurl_le_iff ht]
    constructor
    · rintro ⟨e, he⟩ ⟨-, hall⟩
      obtain ⟨hlt, habove⟩ := Finset.mem_filter.mp he
      exact (hall e (Finset.mem_range.mp hlt)).not_gt habove
    · intro hnot
      by_contra hempty
      rw [Finset.not_nonempty_iff_eq_empty, Finset.filter_eq_empty_iff] at hempty
      exact hnot ⟨kArbitrageThreshold_pos.le,
        fun e he => not_lt.mp (hempty (Finset.mem_range.mpr he))⟩
  · rw [hcount, Int.cast_natCast, ← nsmul_eq_mul]
    calc _ ≤ ∑ e ∈ (Finset.range nEdges).filter fun e => kArbitrageThreshold K < |c e|,
          c e ^ 2 := by
          refine Finset.card_nsmul_le_sum _ _ _ fun e he => ?_
          rw [← sq_abs (c e)]
          exact pow_le_pow_left₀ kArbitrageThreshold_pos.le (Finset.mem_filter.mp he).2.le 2
      _ ≤ _ := Finset.sum_le_sum_of_subset_of_nonneg (Finset.filter_subset _ _)
          fun e _ _ => sq_nonneg _

end

end

variable [IsStrictOrderedRing K]

/-- On the complete graph four times the published action is the squared length of the
signal.  So in every published record it is at least the square of the largest curl and at
most that times the number of edges, at least the square of the mean curl times the number
of edges, and at least the square of the threshold times the number of active loops; and
there is an active loop exactly when the largest curl is above the threshold. -/
theorem signalRecord_consistent {n : Nat} {laplacian : SparseLaplacian}
    {edgeSlots : List (Nat × Nat)} {slots : List Triangle}
    (h : CompleteLaunch n laplacian edgeSlots slots) {ws : HodgeWorkspace K}
    (hws : ws = buildIncidenceMatrices K laplacian edgeSlots slots) {vectors values : Nat → K}
    (hmodes : ∀ k < ws.nEdges, ws.IsMode (values k) fun e => vectors (k * ws.nEdges + e))
    {omega gamma coexact : Nat → K} (hgamma : gamma = ws.gamma vectors values omega)
    (hcoexact : coexact = computeHodgeDecomposition ws omega gamma)
    {smem : Nat → Nat → K} {es : List BlockReduce.Event} {s : BlockReduce.Grid K}
    (hrun : Machine.run (ymStep gamma coexact ws.nEdges 1) (BlockReduce.init smem) es = some s)
    (hret : YmReturned ws.nEdges s) {threads : List Nat}
    (hthreads : threads.Perm (launchThreads ws.nEdges)) {now : Nat} {t : Tick K}
    (ht : t.sig = extractArbitrageSignal ws.nEdges coexact s.total threads now) :
    t.record.maxCurl ^ 2 ≤ ((4 : Nat) : K) * t.record.yangMillsAction ∧
      ((4 : Nat) : K) * t.record.yangMillsAction ≤ ws.nEdges * t.record.maxCurl ^ 2 ∧
      ws.nEdges * t.record.meanCurl ^ 2 ≤ ((4 : Nat) : K) * t.record.yangMillsAction ∧
      t.record.nActiveLoops * kArbitrageThreshold K ^ 2 ≤
        ((4 : Nat) : K) * t.record.yangMillsAction ∧
      (0 < t.record.nActiveLoops ↔ kArbitrageThreshold K < t.record.maxCurl) := by
  rw [h.buildIncidenceMatrices_eq] at hws
  subst hws
  have hzero : ∀ e, gamma e = 0 := by
    rw [hgamma]
    exact HodgeWorkspace.gamma_eq_zero (.build K n edgeSlots slots) _
      (fun k hk => (h.le_values hmodes k hk).2) omega
  have hfour : ((4 : Nat) : K) ≠ 0 := Nat.cast_ne_zero.mpr (by decide)
  have haction : ((4 : Nat) : K) * t.record.yangMillsAction =
      ∑ e ∈ Finset.range edgeSlots.length, coexact e ^ 2 := by
    show _ * t.sig.yangMillsAction = _
    rw [ht]
    show _ * s.total = _
    rw [ymTotal_eq hrun hret, mul_one, mul_one, mul_div_cancel₀ _ hfour]
    refine Finset.sum_congr rfl fun e _ => ?_
    rw [hzero e, zero_sub, neg_sq]
  obtain ⟨hlow, hhigh⟩ := maxCurl_sq ht
  obtain ⟨hactive, hcount⟩ := nActiveLoops_spec ht hthreads
  rw [haction]
  exact ⟨hlow, hhigh, mul_meanCurl_sq_le ht, hcount, hactive⟩

/-- A unit of flow on the first of three edges. -/
theorem signalRecord_consistent_three :
    ∃ t : Tick ℚ, t.record.nEdges = 3 ∧ 0 < t.record.nActiveLoops ∧
      t.record.maxCurl ^ 2 ≤ ((4 : Nat) : ℚ) * t.record.yangMillsAction := by
  let omega : Nat → ℚ := fun f => if f = 0 then 1 else 0
  let gamma := threeWorkspace.gamma threeVectors threeValues omega
  let coexact := computeHodgeDecomposition threeWorkspace omega gamma
  obtain ⟨es, s, hrun, hret⟩ := (BlockReduce.gridInv_init kHodgeBlockDim
    (gridDim threeWorkspace.nEdges) (ymLocalSum gamma coexact threeWorkspace.nEdges)
    (ymScale 1) fun _ _ => 0).exists_returned (k := 8) rfl
  obtain ⟨t, ht⟩ : ∃ t : Tick ℚ, t.sig = extractArbitrageSignal threeWorkspace.nEdges coexact
      s.total (launchThreads threeWorkspace.nEdges) 0 :=
    ⟨⟨_, fun _ => 0, fun _ => 0, 0, FloerRecord.blank⟩, rfl⟩
  have hedges : t.sig.nEdges = 3 := by
    rw [ht]
    rfl
  have hactive : 0 < t.sig.nActiveLoops := by
    rw [nActiveLoops_eq ht (List.Perm.refl _)]
    decide +kernel
  exact ⟨t, hedges, hactive, (signalRecord_consistent completeLaunch_three rfl isMode_three rfl rfl
    hrun hret (List.Perm.refl _) ht).1⟩

end HoloMarket
