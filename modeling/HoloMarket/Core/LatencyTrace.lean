import Mathlib.Algebra.Group.Nat.Defs
import Mathlib.Data.List.Induction
import Mathlib.Data.Nat.Log
import Mathlib.Logic.Function.Basic
import Mathlib.Order.MinMax
import HoloMarket.Lib.OrderStatistic

/-!
# LatencyTrace: the latency histogram of the live path

`latency_trace.hpp`: samples fall into the 40 buckets of their binary logarithm, and a
percentile is read off by a walk over the buckets.  The doubles of the percentiles are a
parameter.  The counters are unbounded here: they hold 64 bits, more than the samples of
any run.
-/

namespace HoloMarket

inductive Stage where
  | wsRecvToRingPush
  | ringPopToLobApply
  | gpuRunOnce
  | signalToOrderSend
  | pollWakeToSignalNoticed
  | count
deriving DecidableEq, Repr

/-- `static_cast<std::size_t>(stage)`. -/
def Stage.toNat : Stage → Nat
  | .wsRecvToRingPush => 0
  | .ringPopToLobApply => 1
  | .gpuRunOnce => 2
  | .signalToOrderSend => 3
  | .pollWakeToSignalNoticed => 4
  | .count => 5

def stageName : Stage → String
  | .wsRecvToRingPush => "ws_recv_to_ring_push"
  | .ringPopToLobApply => "ring_pop_to_lob_apply"
  | .gpuRunOnce => "gpu_run_once"
  | .signalToOrderSend => "signal_to_order_send"
  | .pollWakeToSignalNoticed => "poll_wake_to_signal_noticed"
  | .count => "unknown"

/-- The stages below `COUNT`, in order. -/
def stages : List Stage :=
  [.wsRecvToRingPush, .ringPopToLobApply, .gpuRunOnce, .signalToOrderSend,
    .pollWakeToSignalNoticed]

def kBuckets : Nat := 40

structure LatencyHistogram where
  buckets : Stage → Nat → Nat
  count : Stage → Nat
  max : Stage → Nat

namespace LatencyHistogram

def init : LatencyHistogram where
  buckets := fun _ _ => 0
  count := fun _ => 0
  max := fun _ => 0

/-- The loop of `bucket_for`, with the number of buckets above `b`. -/
def bucketLoop : Nat → Nat → Nat → Nat
  | 0, _, b => b
  | above + 1, ns, b => if 1 < ns then bucketLoop above (ns >>> 1) (b + 1) else b

def bucketFor (ns : Nat) : Nat := if ns < 1 then 0 else bucketLoop (kBuckets - 1) ns 0

/-- With one writer the exchange on `max_` goes through. -/
def record (h : LatencyHistogram) (stage : Stage) (ns : Nat) : LatencyHistogram :=
  if Stage.count.toNat ≤ stage.toNat then h
  else
    let bucket := bucketFor ns
    { buckets := Function.update h.buckets stage
        (Function.update (h.buckets stage) bucket (h.buckets stage bucket + 1))
      count := Function.update h.count stage (h.count stage + 1)
      max := Function.update h.max stage (if h.max stage < ns then ns else h.max stage) }

/-- A line of the dump, with the numbers that its texts show. -/
structure Line where
  stage : String
  p50 : Nat
  p90 : Nat
  p99 : Nat
  max : Nat
  n : Nat
deriving DecidableEq, Repr

section Percentiles

variable {D : Type*} [NatCast D] [Mul D] (trunc : D → Nat)

/-- `trunc` is the conversion of a double to an integer. -/
def percentileNs (h : LatencyHistogram) (stage : Stage) (n : Nat) (p : D) : Nat :=
  let target := trunc ((n : D) * p)
  match OrderStatistic.firstOver (h.buckets stage) target 0 (List.range kBuckets) with
  | some b => 1 <<< b
  | none => 1 <<< (kBuckets - 1)

variable [OfScientific D]

/-- The line of a stage with samples. -/
def line (h : LatencyHistogram) (stage : Stage) : Line where
  stage := stageName stage
  p50 := h.percentileNs trunc stage (h.count stage) 0.50
  p90 := h.percentileNs trunc stage (h.count stage) 0.90
  p99 := h.percentileNs trunc stage (h.count stage) 0.99
  max := h.max stage
  n := h.count stage

def reset (h : LatencyHistogram) (stage : Stage) : LatencyHistogram where
  buckets := Function.update h.buckets stage fun _ => 0
  count := Function.update h.count stage 0
  max := Function.update h.max stage 0

/-- One round of the loop of `dump`: the lines printed so far, and the histogram. -/
def dumpStage (s : List Line × LatencyHistogram) (stage : Stage) : List Line × LatencyHistogram :=
  if s.2.count stage = 0 then s else (s.1 ++ [s.2.line trunc stage], s.2.reset stage)

def dump (h : LatencyHistogram) : List Line × LatencyHistogram :=
  stages.foldl (dumpStage trunc) ([], h)

end Percentiles

/-! ## Buckets -/

theorem bucketLoop_eq (above ns b : Nat) :
    bucketLoop above ns b = b + min above (Nat.log 2 ns) := by
  induction above generalizing ns b with
  | zero => rw [bucketLoop, Nat.zero_min, Nat.add_zero]
  | succ above ih =>
    rw [bucketLoop]
    by_cases hns : 1 < ns
    · have hlog : Nat.log 2 ns = Nat.log 2 (ns / 2) + 1 :=
        Nat.log_of_one_lt_of_le (by decide) hns
      rw [if_pos hns, ih, Nat.shiftRight_one, hlog]
      omega
    · rw [if_neg hns, Nat.log_of_lt (Nat.lt_succ_of_le (Nat.le_of_not_lt hns)), Nat.min_zero,
        Nat.add_zero]

/-- A bucket holds the samples of one binary logarithm, but for the last, which also holds
all that is larger. -/
theorem bucketFor_eq (ns : Nat) : bucketFor ns = min (kBuckets - 1) (Nat.log 2 ns) := by
  unfold bucketFor
  by_cases hns : ns < 1
  · rw [if_pos hns, Nat.lt_one_iff.mp hns]
    rfl
  · rw [if_neg hns, bucketLoop_eq, Nat.zero_add]

theorem bucketFor_lt (ns : Nat) : bucketFor ns < kBuckets := by
  rw [bucketFor_eq]
  exact Nat.lt_of_le_of_lt (Nat.min_le_left _ _) (by decide)

theorem bucketFor_mono : Monotone bucketFor := by
  intro x y hxy
  rw [bucketFor_eq, bucketFor_eq]
  exact min_le_min_left _ (Nat.log_mono_right hxy)

/-- A sample within the range of the buckets lies between the bounds of its bucket. -/
theorem bucketFor_bounds {ns : Nat} (hlo : 1 ≤ ns) (hhi : ns < 2 ^ kBuckets) :
    2 ^ bucketFor ns ≤ ns ∧ ns < 2 * 2 ^ bucketFor ns := by
  have hne : ns ≠ 0 := Nat.one_le_iff_ne_zero.mp hlo
  have hlog : Nat.log 2 ns < kBuckets := Nat.log_lt_of_lt_pow hne hhi
  have hbucket : bucketFor ns = Nat.log 2 ns := by
    rw [bucketFor_eq]
    exact Nat.min_eq_right (Nat.le_pred_of_lt hlog)
  rw [hbucket, ← Nat.pow_succ']
  exact ⟨Nat.pow_log_le_self 2 hne, Nat.lt_pow_succ_log_self (by decide) ns⟩

/-! ## Runs of one thread -/

inductive Call where
  | record (stage : Stage) (ns : Nat)
  | dump
deriving DecidableEq, Repr

section Runs

variable {D : Type*} [NatCast D] [Mul D] [OfScientific D] (trunc : D → Nat)

def call (h : LatencyHistogram) : Call → LatencyHistogram
  | .record stage ns => h.record stage ns
  | .dump => (h.dump trunc).2

/-- The histogram after the calls of a thread. -/
def run (calls : List Call) : LatencyHistogram := calls.foldl (call trunc) init

end Runs

/-- What a call leaves of the samples since the last dump. -/
def note (samples : Stage → List Nat) : Call → Stage → List Nat
  | .record stage ns => Function.update samples stage (samples stage ++ [ns])
  | .dump => fun _ => []

/-- The samples of a stage since the last dump. -/
def recorded (calls : List Call) : Stage → List Nat := calls.foldl note fun _ => []

/-- The cells of a stage hold its samples. -/
structure Holds (h : LatencyHistogram) (stage : Stage) (samples : List Nat) : Prop where
  buckets : OrderStatistic.Counts bucketFor samples (h.buckets stage)
  count : h.count stage = samples.length
  le_max : ∀ ns ∈ samples, ns ≤ h.max stage
  max_mem : h.max stage ∈ 0 :: samples

/-- The cells of a stage. -/
def row (h : LatencyHistogram) (stage : Stage) : (Nat → Nat) × Nat × Nat :=
  (h.buckets stage, h.count stage, h.max stage)

theorem row_eq_iff {h h' : LatencyHistogram} {stage : Stage} :
    h.row stage = h'.row stage ↔ h.buckets stage = h'.buckets stage ∧
      h.count stage = h'.count stage ∧ h.max stage = h'.max stage := by
  unfold row
  rw [Prod.mk.injEq, Prod.mk.injEq]

theorem Holds.of_row {h h' : LatencyHistogram} {stage : Stage} {samples : List Nat}
    (hholds : h.Holds stage samples) (hrow : h'.row stage = h.row stage) :
    h'.Holds stage samples := by
  obtain ⟨hbuckets, hcount, hmax⟩ := row_eq_iff.mp hrow
  constructor
  · rw [hbuckets]
    exact hholds.buckets
  · rw [hcount]
    exact hholds.count
  · rw [hmax]
    exact hholds.le_max
  · rw [hmax]
    exact hholds.max_mem

theorem lt_count_of_ne {stage : Stage} (hstage : stage ≠ .count) :
    ¬ Stage.count.toNat ≤ stage.toNat := by
  cases stage with
  | count => exact absurd rfl hstage
  | _ => decide

theorem mem_stages {stage : Stage} (hstage : stage ≠ .count) : stage ∈ stages := by
  cases stage with
  | count => exact absurd rfl hstage
  | _ => decide

section Record

variable {h : LatencyHistogram} {stage : Stage} {samples : List Nat}

theorem Holds.record (hholds : h.Holds stage samples) (hstage : stage ≠ .count) (ns : Nat) :
    (h.record stage ns).Holds stage (samples ++ [ns]) := by
  unfold LatencyHistogram.record
  rw [if_neg (lt_count_of_ne hstage)]
  constructor
  · intro b
    dsimp only
    rw [Function.update_self, List.countP_append, List.countP_singleton, ← hholds.buckets b]
    by_cases hb : b = bucketFor ns
    · rw [hb, Function.update_self, if_pos (decide_eq_true rfl)]
    · rw [Function.update_of_ne hb, if_neg (by simpa using Ne.symm hb), Nat.add_zero]
  · dsimp only
    rw [Function.update_self, hholds.count, List.length_append, List.length_singleton]
  · intro x hx
    dsimp only
    rw [Function.update_self]
    rcases List.mem_append.mp hx with hx | hx
    · have hle := hholds.le_max x hx
      split_ifs <;> omega
    · rw [List.mem_singleton.mp hx]
      split_ifs <;> omega
  · dsimp only
    rw [Function.update_self, ← List.cons_append]
    split_ifs with hlt
    · exact List.mem_append_right _ List.mem_cons_self
    · exact List.mem_append_left _ hholds.max_mem

theorem row_record_of_ne (h : LatencyHistogram) {other : Stage} (hne : stage ≠ other) (ns : Nat) :
    (h.record other ns).row stage = h.row stage := by
  unfold LatencyHistogram.record
  by_cases hcount : Stage.count.toNat ≤ other.toNat
  · rw [if_pos hcount]
  · rw [if_neg hcount]
    exact row_eq_iff.mpr ⟨Function.update_of_ne hne _ _, Function.update_of_ne hne _ _,
      Function.update_of_ne hne _ _⟩

end Record

/-! ## The dump -/

theorem row_reset_of_ne (h : LatencyHistogram) {stage other : Stage} (hne : stage ≠ other) :
    (h.reset other).row stage = h.row stage :=
  row_eq_iff.mpr ⟨Function.update_of_ne hne _ _, Function.update_of_ne hne _ _,
    Function.update_of_ne hne _ _⟩

theorem row_reset_self (h : LatencyHistogram) (stage : Stage) :
    (h.reset stage).row stage = init.row stage :=
  row_eq_iff.mpr ⟨Function.update_self _ _ _, Function.update_self _ _ _,
    Function.update_self _ _ _⟩

theorem holds_init (stage : Stage) : init.Holds stage [] where
  buckets := fun _ => rfl
  count := rfl
  le_max := fun _ hns => nomatch hns
  max_mem := List.mem_cons_self

section Dump

variable {D : Type*} [NatCast D] [Mul D] [OfScientific D] (trunc : D → Nat)

theorem line_of_row {h h' : LatencyHistogram} {stage : Stage} (hrow : h'.row stage = h.row stage) :
    h'.line trunc stage = h.line trunc stage := by
  obtain ⟨hbuckets, hcount, hmax⟩ := row_eq_iff.mp hrow
  unfold line percentileNs
  rw [hbuckets, hcount, hmax]

theorem row_dumpStage_of_ne (s : List Line × LatencyHistogram) {stage other : Stage}
    (hne : stage ≠ other) : (dumpStage trunc s other).2.row stage = s.2.row stage := by
  unfold dumpStage
  split_ifs
  · rfl
  · exact row_reset_of_ne s.2 hne

/-- A stage without samples is passed over, and needs no reset. -/
theorem holds_dumpStage (s : List Line × LatencyHistogram) {stage : Stage} {samples : List Nat}
    (hholds : s.2.Holds stage samples) : (dumpStage trunc s stage).2.Holds stage [] := by
  unfold dumpStage
  split_ifs with hzero
  · have hnil : samples = [] := List.eq_nil_of_length_eq_zero (hholds.count.symm.trans hzero)
    rwa [hnil] at hholds
  · exact (holds_init stage).of_row (row_reset_self s.2 stage)

theorem row_foldl_dumpStage {l : List Stage} {stage : Stage} (hnot : stage ∉ l)
    (s : List Line × LatencyHistogram) :
    (l.foldl (dumpStage trunc) s).2.row stage = s.2.row stage := by
  induction l generalizing s with
  | nil => rfl
  | cons other l ih =>
    rw [List.foldl_cons, ih fun hmem => hnot (List.mem_cons_of_mem other hmem)]
    exact row_dumpStage_of_ne trunc s fun heq => hnot (heq ▸ List.mem_cons_self)

theorem holds_foldl_dumpStage {l : List Stage} {stage : Stage} (hmem : stage ∈ l)
    {s : List Line × LatencyHistogram} {samples : List Nat} (hholds : s.2.Holds stage samples) :
    (l.foldl (dumpStage trunc) s).2.Holds stage [] := by
  induction l using List.reverseRecOn with
  | nil => cases hmem
  | append_singleton l other ih =>
    rw [List.foldl_concat]
    by_cases heq : stage = other
    · subst heq
      by_cases hbefore : stage ∈ l
      · exact holds_dumpStage trunc _ (ih hbefore)
      · exact holds_dumpStage trunc _ (hholds.of_row (row_foldl_dumpStage trunc hbefore s))
    · have hl : stage ∈ l := by
        rcases List.mem_append.mp hmem with hl | hl
        · exact hl
        · exact absurd (List.mem_singleton.mp hl) heq
      exact (ih hl).of_row (row_dumpStage_of_ne trunc _ heq)

/-- The line of a stage whose cells are still those of `h`. -/
theorem lines_dumpStage {s : List Line × LatencyHistogram} {h : LatencyHistogram} {stage : Stage}
    (hrow : s.2.row stage = h.row stage) : (dumpStage trunc s stage).1 =
      s.1 ++ if h.count stage = 0 then [] else [h.line trunc stage] := by
  have hcount : s.2.count stage = h.count stage := (row_eq_iff.mp hrow).2.1
  unfold dumpStage
  rw [hcount]
  by_cases hzero : h.count stage = 0
  · rw [if_pos hzero, if_pos hzero, List.append_nil]
  · rw [if_neg hzero, if_neg hzero, line_of_row trunc hrow]

/-- The lines printed are those of the stages with samples, in order. -/
theorem lines_foldl_dumpStage {l : List Stage} (hnd : l.Nodup) (h : LatencyHistogram) :
    (l.foldl (dumpStage trunc) ([], h)).1 =
      (l.filter fun stage => decide (h.count stage ≠ 0)).map (h.line trunc) := by
  induction l using List.reverseRecOn with
  | nil => rfl
  | append_singleton l stage ih =>
    obtain ⟨hl, -, hdis⟩ := List.nodup_append.mp hnd
    have hnot : stage ∉ l := fun hmem => hdis stage hmem stage List.mem_cons_self rfl
    rw [List.foldl_concat, lines_dumpStage trunc (row_foldl_dumpStage trunc hnot ([], h)), ih hl,
      List.filter_append, List.map_append]
    refine congrArg _ ?_
    by_cases hzero : h.count stage = 0 <;> simp [hzero]

theorem dump_lines (h : LatencyHistogram) : (h.dump trunc).1 =
    (stages.filter fun stage => decide (h.count stage ≠ 0)).map (h.line trunc) :=
  lines_foldl_dumpStage trunc (by decide) h

/-! ## Runs -/

theorem Holds.call {h : LatencyHistogram} {stage : Stage} {samples : Stage → List Nat}
    (hholds : h.Holds stage (samples stage)) (hstage : stage ≠ .count) (c : Call) :
    (h.call trunc c).Holds stage (note samples c stage) := by
  cases c with
  | record other ns =>
    show (h.record other ns).Holds stage (Function.update samples other _ stage)
    by_cases heq : stage = other
    · subst heq
      rw [Function.update_self]
      exact hholds.record hstage ns
    · rw [Function.update_of_ne heq]
      exact hholds.of_row (row_record_of_ne h heq ns)
  | dump => exact holds_foldl_dumpStage trunc (mem_stages hstage) hholds

/-- After any calls, the cells of a stage hold its samples since the last dump. -/
theorem holds_run (calls : List Call) {stage : Stage} (hstage : stage ≠ .count) :
    (run trunc calls).Holds stage (recorded calls stage) := by
  induction calls using List.reverseRecOn with
  | nil => exact holds_init stage
  | append_singleton calls c ih =>
    unfold run recorded
    rw [List.foldl_concat, List.foldl_concat]
    exact ih.call trunc hstage c

end Dump

/-! ## Percentiles -/

/-- The sample at an index of the sorted samples. -/
def ranked (samples : List Nat) (i : Nat) : Option Nat :=
  (samples.insertionSort (· ≤ ·))[i]?

theorem exists_ranked {samples : List Nat} {i : Nat} (hi : i < samples.length) :
    ∃ x ∈ samples, ranked samples i = some x := by
  have hlt : i < (samples.insertionSort (· ≤ ·)).length := by
    rwa [List.length_insertionSort]
  have hget := List.getElem?_eq_getElem hlt
  exact ⟨_, (List.mem_insertionSort _).mp (List.mem_of_getElem? hget), hget⟩

theorem ranked_mono {samples : List Nat} {i j x y : Nat} (hij : i ≤ j)
    (hx : ranked samples i = some x) (hy : ranked samples j = some y) : x ≤ y := by
  obtain ⟨hi, rfl⟩ := List.getElem?_eq_some_iff.mp hx
  obtain ⟨hj, rfl⟩ := List.getElem?_eq_some_iff.mp hy
  exact List.sortedLE_insertionSort.monotone_get (Fin.mk_le_mk.mpr hij)

section Indices

variable {D : Type*} [NatCast D] [Mul D] {trunc : D → Nat} {h : LatencyHistogram} {stage : Stage}
  {samples : List Nat} {n : Nat}

/-- A percentile is the lower bound of the bucket of the sample at its index. -/
theorem percentileNs_eq (hholds : h.Holds stage samples) {p : D} {x : Nat}
    (hx : ranked samples (trunc ((n : D) * p)) = some x) :
    h.percentileNs trunc stage n p = 2 ^ bucketFor x := by
  unfold percentileNs
  dsimp only
  rw [OrderStatistic.firstOver_range bucketFor_mono hholds.buckets hx (bucketFor_lt x)]
  exact Nat.one_shiftLeft _

/-- The sample at the index of a percentile, and what is reported for it. -/
theorem Holds.exists_sample (hholds : h.Holds stage samples) {p : D}
    (hp : trunc ((n : D) * p) < samples.length) :
    ∃ x ∈ samples, ranked samples (trunc ((n : D) * p)) = some x ∧
      h.percentileNs trunc stage n p = 2 ^ bucketFor x := by
  obtain ⟨x, hmem, hx⟩ := exists_ranked hp
  exact ⟨x, hmem, hx, percentileNs_eq hholds hx⟩

theorem Holds.percentileNs_mono (hholds : h.Holds stage samples) {p q : D}
    (hpq : trunc ((n : D) * p) ≤ trunc ((n : D) * q))
    (hq : trunc ((n : D) * q) < samples.length) :
    h.percentileNs trunc stage n p ≤ h.percentileNs trunc stage n q := by
  obtain ⟨x, -, hx, hpx⟩ := hholds.exists_sample (hpq.trans_lt hq)
  obtain ⟨y, -, hy, hqy⟩ := hholds.exists_sample hq
  rw [hpx, hqy]
  exact Nat.pow_le_pow_right (by decide) (bucketFor_mono (ranked_mono hpq hx hy))

theorem Holds.percentileNs_le_max (hholds : h.Holds stage samples)
    (hns : ∀ ns ∈ samples, 1 ≤ ns ∧ ns < 2 ^ kBuckets) {p : D}
    (hp : trunc ((n : D) * p) < samples.length) :
    h.percentileNs trunc stage n p ≤ h.max stage := by
  obtain ⟨x, hmem, -, hpx⟩ := hholds.exists_sample hp
  rw [hpx]
  exact (bucketFor_bounds (hns x hmem).1 (hns x hmem).2).1.trans (hholds.le_max x hmem)

end Indices

end LatencyHistogram
end HoloMarket
