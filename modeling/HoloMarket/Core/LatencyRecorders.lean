import Mathlib.Algebra.Order.BigOperators.Group.List
import HoloMarket.Core.LatencyTrace
import HoloMarket.Lib.AtomicMax
import HoloMarket.Lib.DoubleRounding
import HoloMarket.Lib.RunBounds

/-!
# LatencyRecorders: the threads that share the histogram

`record` is called by the feed, the drain loops, the pipeline and the main loop at once,
and takes no lock: it is an addition to a bucket, an addition to the count and the loop
that raises `max_`.  `dump` runs in one thread while they record.  Here every access of
an atomic is a step, and the steps of all calls interleave freely.  What is proved is
about each cell on its own, so that the relaxed order of the accesses does not matter.
-/

namespace HoloMarket
namespace LatencyHistogram

/-! ## Accesses of the cells -/

def addBucket (h : LatencyHistogram) (stage : Stage) (b : Nat) : LatencyHistogram :=
  { h with
    buckets := Function.update h.buckets stage
      (Function.update (h.buckets stage) b (h.buckets stage b + 1)) }

def addCount (h : LatencyHistogram) (stage : Stage) : LatencyHistogram :=
  { h with count := Function.update h.count stage (h.count stage + 1) }

def storeBucket (h : LatencyHistogram) (stage : Stage) (b : Nat) : LatencyHistogram :=
  { h with
    buckets := Function.update h.buckets stage (Function.update (h.buckets stage) b 0) }

def storeCount (h : LatencyHistogram) (stage : Stage) : LatencyHistogram :=
  { h with count := Function.update h.count stage 0 }

def storeMax (h : LatencyHistogram) (stage : Stage) (ns : Nat) : LatencyHistogram :=
  { h with max := Function.update h.max stage ns }

theorem update_add_one {ι : Type*} [DecidableEq ι] (cells : ι → Nat) (i j : ι) :
    Function.update cells i (cells i + 1) j = cells j + if i = j then 1 else 0 := by
  by_cases h : i = j
  · rw [h, Function.update_self, if_pos rfl]
  · rw [Function.update_of_ne (Ne.symm h), if_neg h, Nat.add_zero]

theorem count_addCount (h : LatencyHistogram) (stage stage' : Stage) :
    (h.addCount stage).count stage' = h.count stage' + if stage = stage' then 1 else 0 :=
  update_add_one h.count stage stage'

theorem buckets_addBucket (h : LatencyHistogram) (stage stage' : Stage) (b b' : Nat) :
    (h.addBucket stage b).buckets stage' b' =
      h.buckets stage' b' + if stage = stage' ∧ b = b' then 1 else 0 := by
  unfold addBucket
  dsimp only
  by_cases h : stage = stage'
  · subst h
    rw [Function.update_self, update_add_one]
    simp
  · rw [Function.update_of_ne (Ne.symm h), if_neg fun hand => h hand.1, Nat.add_zero]

end LatencyHistogram

open LatencyHistogram
open DoubleRounding (Double)

/-- Where a call of `record` stands: before one of its additions, or in the loop. -/
inductive RecorderPc where
  | bucket
  | count
  | raise (pc : AtomicMax.Pc Nat)
deriving DecidableEq

/-- A call of `record`, which has returned when `pc` is `none`. -/
structure RecorderCall where
  stage : Stage
  ns : Nat
  pc : Option RecorderPc
deriving DecidableEq

namespace RecorderCall

/-- A stage out of range is not recorded. -/
def start (stage : Stage) (ns : Nat) : RecorderCall :=
  ⟨stage, ns, if Stage.count.toNat ≤ stage.toNat then none else some .bucket⟩

def access (h : LatencyHistogram) (fails : Bool) (c : RecorderCall) :
    Option (LatencyHistogram × RecorderCall) :=
  match c.pc with
  | none => none
  | some .bucket => some (h.addBucket c.stage (bucketFor c.ns), { c with pc := some .count })
  | some .count => some (h.addCount c.stage, { c with pc := some (.raise .load) })
  | some (.raise pc) =>
    let r := AtomicMax.access c.ns fails (h.max c.stage) pc
    some (h.storeMax c.stage r.1, { c with pc := r.2.map .raise })

end RecorderCall

/-- Where `dump` stands with a stage: in one of the three walks over the buckets, at the
line, or at one of the resets. -/
inductive DumpPc where
  | count
  | p50 (n b cum : Nat)
  | p90 (n p50 b cum : Nat)
  | p99 (n p50 p90 b cum : Nat)
  | max (n p50 p90 p99 : Nat)
  | bucket (b : Nat)
  | resetCount
  | resetMax
deriving DecidableEq

/-- A call of `dump` at a stage, with the stages behind it. -/
structure Dumper where
  stage : Stage
  rest : List Stage
  pc : DumpPc
deriving DecidableEq

namespace Dumper

/-- The dump at the first of the stages that are left. -/
def next : List Stage → Option Dumper
  | [] => none
  | stage :: rest => some ⟨stage, rest, .count⟩

section Access

variable {D : Type*} [NatCast D] [Mul D] [OfScientific D] (trunc : D → Nat)

/-- A load of `percentile_ns`: the walk goes on, or ends with a percentile. -/
def walk (h : LatencyHistogram) (stage : Stage) (n : Nat) (p : D) (b cum : Nat) :
    (Nat × Nat) ⊕ Nat :=
  let target := trunc ((n : D) * p)
  let cum := cum + h.buckets stage b
  if target < cum then .inr (1 <<< b)
  else if b + 1 < kBuckets then .inl (b + 1, cum)
  else .inr (1 <<< (kBuckets - 1))

/-- An access of `dump`, with the lines that it prints. -/
def access (h : LatencyHistogram) (d : Dumper) :
    LatencyHistogram × List Line × Option Dumper :=
  match d.pc with
  | .count =>
    let n := h.count d.stage
    (h, [], if n = 0 then next d.rest else some { d with pc := .p50 n 0 0 })
  | .p50 n b cum =>
    (h, [], some { d with
      pc := match walk trunc h d.stage n 0.50 b cum with
        | .inl (b, cum) => .p50 n b cum
        | .inr p50 => .p90 n p50 0 0 })
  | .p90 n p50 b cum =>
    (h, [], some { d with
      pc := match walk trunc h d.stage n 0.90 b cum with
        | .inl (b, cum) => .p90 n p50 b cum
        | .inr p90 => .p99 n p50 p90 0 0 })
  | .p99 n p50 p90 b cum =>
    (h, [], some { d with
      pc := match walk trunc h d.stage n 0.99 b cum with
        | .inl (b, cum) => .p99 n p50 p90 b cum
        | .inr p99 => .max n p50 p90 p99 })
  | .max n p50 p90 p99 =>
    (h, [⟨stageName d.stage, p50, p90, p99, h.max d.stage, n⟩], some { d with pc := .bucket 0 })
  | .bucket b =>
    (h.storeBucket d.stage b, [],
      some { d with pc := if b + 1 < kBuckets then .bucket (b + 1) else .resetCount })
  | .resetCount => (h.storeCount d.stage, [], some { d with pc := .resetMax })
  | .resetMax => (h.storeMax d.stage 0, [], next d.rest)

end Access

end Dumper

/-- The histogram, the calls of `record` so far, the dump and what it has printed. -/
structure Recorders where
  hist : LatencyHistogram
  calls : List RecorderCall
  dumper : Option Dumper
  lines : List Line

/-- A call of `record`, an access of one, the call of `dump`, an access of it. -/
inductive RecorderEvent where
  | record (stage : Stage) (ns : Nat)
  | access (i : Nat) (fails : Bool)
  | dump
  | dumpAccess
deriving DecidableEq

namespace Recorders

def start (h : LatencyHistogram) : Recorders := ⟨h, [], none, []⟩

variable {D : Type*} [NatCast D] [Mul D] [OfScientific D] (trunc : D → Nat)

def step (w : Recorders) : RecorderEvent → Option Recorders
  | .record stage ns => some { w with calls := w.calls ++ [RecorderCall.start stage ns] }
  | .access i fails =>
    w.calls[i]?.bind fun c =>
      (c.access w.hist fails).map fun r =>
        { w with hist := r.1, calls := w.calls.set i r.2 }
  | .dump => if w.dumper.isNone then some { w with dumper := Dumper.next stages } else none
  | .dumpAccess =>
    w.dumper.map fun d =>
      let r := d.access trunc w.hist
      { w with hist := r.1, lines := w.lines ++ r.2.1, dumper := r.2.2 }

end Recorders

/-! ## One call -/

namespace RecorderCall

/-- `1` for a call of the stage that has added to the bucket. -/
def onBucket (stage : Stage) (b : Nat) (c : RecorderCall) : Nat :=
  if c.stage = stage ∧ bucketFor c.ns = b ∧ c.pc ≠ some .bucket then 1 else 0

/-- `1` for a call of the stage that has added to the count. -/
def onCount (stage : Stage) (c : RecorderCall) : Nat :=
  if c.stage = stage ∧ c.pc ≠ some .bucket ∧ c.pc ≠ some .count then 1 else 0

/-- `1` for a call that has not returned. -/
def underWay (c : RecorderCall) : Nat := if c.pc.isSome then 1 else 0

/-- The accesses that a call still takes if nothing else raises the cell of its stage. -/
def cost (h : LatencyHistogram) (c : RecorderCall) : Nat :=
  match c.pc with
  | none => 0
  | some .bucket => 5
  | some .count => 4
  | some (.raise pc) => AtomicMax.cost (h.max c.stage) (some pc)

def Ok (c : RecorderCall) : Prop :=
  match c.pc with
  | some (.raise pc) => AtomicMax.Ok c.ns (some pc)
  | _ => True

theorem ok_start (stage : Stage) (ns : Nat) : (start stage ns).Ok := by
  unfold start
  split_ifs <;> trivial

theorem access_cases {c c' : RecorderCall} {h h' : LatencyHistogram} {fails : Bool}
    (hacc : c.access h fails = some (h', c')) :
    (c.pc = some .bucket ∧ h' = h.addBucket c.stage (bucketFor c.ns) ∧
      c' = { c with pc := some .count }) ∨
    (c.pc = some .count ∧ h' = h.addCount c.stage ∧ c' = { c with pc := some (.raise .load) }) ∨
    (∃ pc, c.pc = some (.raise pc) ∧
      h' = h.storeMax c.stage (AtomicMax.access c.ns fails (h.max c.stage) pc).1 ∧
      c' = { c with pc := (AtomicMax.access c.ns fails (h.max c.stage) pc).2.map .raise }) := by
  unfold access at hacc
  match hpc : c.pc with
  | none =>
    rw [hpc] at hacc
    cases hacc
  | some .bucket =>
    rw [hpc] at hacc
    cases hacc
    exact Or.inl ⟨rfl, rfl, rfl⟩
  | some .count =>
    rw [hpc] at hacc
    cases hacc
    exact Or.inr (Or.inl ⟨rfl, rfl, rfl⟩)
  | some (.raise pc) =>
    rw [hpc] at hacc
    cases hacc
    exact Or.inr (Or.inr ⟨pc, rfl, rfl, rfl⟩)

section Access

variable {c c' : RecorderCall} {h h' : LatencyHistogram} {fails : Bool}

theorem access_stage (hacc : c.access h fails = some (h', c')) :
    c'.stage = c.stage ∧ c'.ns = c.ns := by
  rcases access_cases hacc with ⟨-, -, rfl⟩ | ⟨-, -, rfl⟩ | ⟨pc, -, -, rfl⟩ <;> exact ⟨rfl, rfl⟩

theorem ok_raise {pc : AtomicMax.Pc Nat} (hok : c.Ok) (hpc : c.pc = some (.raise pc)) :
    AtomicMax.Ok c.ns (some pc) := by
  unfold Ok at hok
  rwa [hpc] at hok

theorem ok_access (hok : c.Ok) (hacc : c.access h fails = some (h', c')) : c'.Ok := by
  rcases access_cases hacc with ⟨-, -, rfl⟩ | ⟨-, -, rfl⟩ | ⟨pc, hpc, -, rfl⟩
  · trivial
  · trivial
  · have hnext := AtomicMax.ok_access (ok_raise hok hpc) fails (h.max c.stage)
    unfold Ok
    dsimp only
    cases hr : (AtomicMax.access c.ns fails (h.max c.stage) pc).2 with
    | none => trivial
    | some pc' =>
      rw [hr] at hnext
      exact hnext

theorem access_of_ne (hacc : c.access h fails = some (h', c')) {stage : Stage}
    (hne : stage ≠ c.stage) : h'.row stage = h.row stage := by
  rcases access_cases hacc with ⟨-, rfl, -⟩ | ⟨-, rfl, -⟩ | ⟨pc, -, rfl, -⟩
  · exact row_eq_iff.mpr ⟨Function.update_of_ne hne _ _, rfl, rfl⟩
  · exact row_eq_iff.mpr ⟨rfl, Function.update_of_ne hne _ _, rfl⟩
  · exact row_eq_iff.mpr ⟨rfl, rfl, Function.update_of_ne hne _ _⟩

/-- A bucket of the stage grows by one when the call adds to it. -/
theorem access_buckets (hacc : c.access h fails = some (h', c')) (stage : Stage) (b : Nat) :
    h'.buckets stage b + c.onBucket stage b = h.buckets stage b + c'.onBucket stage b := by
  unfold onBucket
  rcases access_cases hacc with ⟨hpc, rfl, rfl⟩ | ⟨hpc, rfl, rfl⟩ | ⟨pc, hpc, rfl, rfl⟩
  · rw [hpc, buckets_addBucket]
    simp
  · rw [hpc]
    simp [addCount]
  · rw [hpc]
    simp [storeMax]

theorem access_count (hacc : c.access h fails = some (h', c')) (stage : Stage) :
    h'.count stage + c.onCount stage = h.count stage + c'.onCount stage := by
  unfold onCount
  rcases access_cases hacc with ⟨hpc, rfl, rfl⟩ | ⟨hpc, rfl, rfl⟩ | ⟨pc, hpc, rfl, rfl⟩
  · rw [hpc]
    simp [addBucket]
  · rw [hpc, count_addCount]
    simp
  · rw [hpc]
    simp [storeMax]

/-- The maximum of the stage of the call is left or becomes its value, and does not fall;
when the call returns, it is at least the value. -/
theorem access_max (hok : c.Ok) (hacc : c.access h fails = some (h', c')) :
    h.max c.stage ≤ h'.max c.stage ∧
    (h'.max c.stage = h.max c.stage ∨ h'.max c.stage = c.ns) ∧
    (c'.pc = none → c.ns ≤ h'.max c.stage) := by
  rcases access_cases hacc with ⟨-, rfl, rfl⟩ | ⟨-, rfl, rfl⟩ | ⟨pc, hpc, rfl, rfl⟩
  · exact ⟨Nat.le_refl _, Or.inl rfl, nofun⟩
  · exact ⟨Nat.le_refl _, Or.inl rfl, nofun⟩
  · have hraise := ok_raise hok hpc
    dsimp only [storeMax]
    rw [Function.update_self]
    refine ⟨AtomicMax.le_access hraise fails _, AtomicMax.access_mem hraise fails _, ?_⟩
    intro hnone
    exact AtomicMax.le_of_access hraise fails _ (Option.map_eq_none_iff.mp hnone)

/-- An access brings the call nearer to its return, unless it raises the maximum: then the
call returns, and each of the others is put back by one access at most. -/
theorem access_cost (hok : c.Ok) (hacc : c.access h fails = some (h', c')) :
    (h'.max = h.max ∧ c'.underWay ≤ c.underWay ∧
      c'.cost h' + (if fails then 0 else 1) ≤ c.cost h) ∨
    (c'.cost h' = 0 ∧ c'.underWay + 1 = c.underWay ∧ 1 ≤ c.cost h ∧
      ∀ x : RecorderCall, x.cost h' ≤ x.cost h + x.underWay) := by
  rcases access_cases hacc with ⟨hpc, rfl, rfl⟩ | ⟨hpc, rfl, rfl⟩ | ⟨pc, hpc, rfl, rfl⟩
  · left
    refine ⟨rfl, ?_, ?_⟩
    · simp [underWay, hpc]
    · simp only [cost, hpc]
      split_ifs <;> omega
  · left
    refine ⟨rfl, ?_, ?_⟩
    · simp [underWay, hpc]
    · simp only [cost, hpc, AtomicMax.cost]
      split_ifs <;> omega
  · have hraise := ok_raise hok hpc
    have hcost : c.cost h = AtomicMax.cost (h.max c.stage) (some pc) := by
      simp only [cost, hpc]
    rcases AtomicMax.access_cases hraise fails (h.max c.stage) with hr | ⟨-, hr⟩
    · left
      have hfst : (AtomicMax.access c.ns fails (h.max c.stage) pc).1 = h.max c.stage :=
        congrArg Prod.fst hr
      have hsame := AtomicMax.cost_access hraise hfst
      rw [hr] at hsame ⊢
      rw [hcost]
      have hmax : (h.storeMax c.stage (h.max c.stage)).max = h.max :=
        Function.update_eq_self _ _
      refine ⟨hmax, ?_, ?_⟩
      · unfold underWay
        rw [hpc]
        split_ifs with h₁ h₂
        · exact Nat.le_refl 1
        · exact absurd rfl h₂
        · exact Nat.zero_le 1
        · exact Nat.le_refl 0
      · refine le_trans (Nat.add_le_add_right ?_ _) hsame
        unfold cost
        rw [hmax]
        dsimp only
        cases AtomicMax.test c.ns (h.max c.stage) with
        | none => exact Nat.zero_le _
        | some pc' => exact Nat.le_refl _
    · right
      rw [hr, hcost]
      refine ⟨rfl, ?_, AtomicMax.one_le_cost _ _, ?_⟩
      · simp [underWay, hpc]
      · intro x
        unfold cost underWay
        match x.pc with
        | none => exact Nat.zero_le _
        | some .bucket => exact Nat.le_succ 5
        | some .count => exact Nat.le_succ 4
        | some (.raise pc') => exact AtomicMax.cost_le_succ _ _ _

end Access

end RecorderCall

/-! ## All calls -/

namespace Recorders

section Totals

variable {f g : RecorderCall → Nat} {calls : List RecorderCall}

def total (f : RecorderCall → Nat) (calls : List RecorderCall) : Nat := (calls.map f).sum

theorem total_concat (f : RecorderCall → Nat) (calls : List RecorderCall) (c : RecorderCall) :
    total f (calls ++ [c]) = total f calls + f c := by
  simp [total]

theorem total_set {i : Nat} {c : RecorderCall} (hc : calls[i]? = some c) (c' : RecorderCall) :
    total f (calls.set i c') + f c = total f calls + f c' := Machine.sum_map_set c' f hc

theorem total_le (h : ∀ c, f c ≤ g c) (calls : List RecorderCall) :
    total f calls ≤ total g calls := by
  unfold total
  exact List.sum_le_sum fun c _ => h c

theorem total_add (f g : RecorderCall → Nat) (calls : List RecorderCall) :
    total (fun c => f c + g c) calls = total f calls + total g calls := by
  unfold total
  exact List.sum_map_add

end Totals

/-- A call of the stage with this value has been made. -/
def Made (calls : List RecorderCall) (stage : Stage) (ns : Nat) : Prop :=
  ∃ c ∈ calls, c.stage = stage ∧ c.ns = ns

namespace Made

variable {calls : List RecorderCall} {stage : Stage} {ns : Nat}

theorem concat (h : Made calls stage ns) (c : RecorderCall) : Made (calls ++ [c]) stage ns := by
  obtain ⟨x, hx, hxs⟩ := h
  exact ⟨x, List.mem_append_left _ hx, hxs⟩

/-- The call itself may be the one that has moved on. -/
theorem set (h : Made calls stage ns) {i : Nat} {c c' : RecorderCall} (hc : calls[i]? = some c)
    (hsame : c'.stage = c.stage ∧ c'.ns = c.ns) : Made (calls.set i c') stage ns := by
  obtain ⟨x, hx, hxs, hxn⟩ := h
  have hi : i < calls.length := (List.getElem?_eq_some_iff.mp hc).1
  by_cases hxc : x = c
  · subst hxc
    exact ⟨c', List.mem_set hi c', hsame.1.trans hxs, hsame.2.trans hxn⟩
  · obtain ⟨j, hj⟩ := List.getElem?_of_mem hx
    have hne : i ≠ j := by
      rintro rfl
      exact hxc (Option.some.inj (hj.symm.trans hc))
    refine ⟨x, List.mem_of_getElem? (i := j) ?_, hxs, hxn⟩
    rw [List.getElem?_set_ne hne]
    exact hj

end Made

theorem step_cases {D : Type*} [NatCast D] [Mul D] [OfScientific D] {trunc : D → Nat}
    {w w' : Recorders} {e : RecorderEvent} (hs : w.step trunc e = some w') :
    (∃ stage ns, e = .record stage ns ∧
      w' = { w with calls := w.calls ++ [RecorderCall.start stage ns] }) ∨
    (∃ i fails c h c', e = .access i fails ∧ w.calls[i]? = some c ∧
      c.access w.hist fails = some (h, c') ∧
      w' = { w with hist := h, calls := w.calls.set i c' }) ∨
    (e = .dump ∧ w.dumper = none ∧ w' = { w with dumper := Dumper.next stages }) ∨
    (∃ d h lines d', e = .dumpAccess ∧ w.dumper = some d ∧
      d.access trunc w.hist = (h, lines, d') ∧
      w' = { w with hist := h, lines := w.lines ++ lines, dumper := d' }) := by
  cases e with
  | record stage ns =>
    cases hs
    exact Or.inl ⟨stage, ns, rfl, rfl⟩
  | access i fails =>
    obtain ⟨c, hc, hs⟩ := Option.bind_eq_some_iff.mp hs
    obtain ⟨⟨h, c'⟩, hacc, rfl⟩ := Option.map_eq_some_iff.mp hs
    exact Or.inr (Or.inl ⟨i, fails, c, h, c', rfl, hc, hacc, rfl⟩)
  | dump =>
    unfold step at hs
    split_ifs at hs with hnone
    cases hs
    exact Or.inr (Or.inr (Or.inl ⟨rfl, Option.isNone_iff_eq_none.mp hnone, rfl⟩))
  | dumpAccess =>
    obtain ⟨d, hd, rfl⟩ := Option.map_eq_some_iff.mp hs
    exact Or.inr (Or.inr (Or.inr ⟨d, _, _, _, rfl, hd, rfl, rfl⟩))

theorem ok_step {D : Type*} [NatCast D] [Mul D] [OfScientific D] {trunc : D → Nat}
    {w w' : Recorders} {e : RecorderEvent} (hok : ∀ c ∈ w.calls, c.Ok)
    (hs : w.step trunc e = some w') : ∀ c ∈ w'.calls, c.Ok := by
  intro x hx
  rcases step_cases hs with ⟨stage, ns, -, rfl⟩ | ⟨i, fails, c, h, c', -, hc, hacc, rfl⟩ |
    ⟨-, -, rfl⟩ | ⟨d, h, lines, d', -, -, -, rfl⟩
  · rcases List.mem_append.mp hx with hx | hx
    · exact hok x hx
    · rw [List.mem_singleton.mp hx]
      exact RecorderCall.ok_start stage ns
  · rcases List.mem_or_eq_of_mem_set hx with hx | rfl
    · exact hok x hx
    · exact RecorderCall.ok_access (hok c (List.mem_of_getElem? hc)) hacc
  · exact hok x hx
  · exact hok x hx

/-! ## Between two dumps -/

/-- The cells of a stage after the accesses that the calls have made, when they were those
of `h₀` before. -/
structure Since (h₀ h : LatencyHistogram) (calls : List RecorderCall) (stage : Stage) : Prop where
  buckets : ∀ b, h.buckets stage b =
    h₀.buckets stage b + total (RecorderCall.onBucket stage b) calls
  count : h.count stage = h₀.count stage + total (RecorderCall.onCount stage) calls
  le_max : h₀.max stage ≤ h.max stage
  max_mem : h.max stage = h₀.max stage ∨ Made calls stage (h.max stage)
  returned : ∀ c ∈ calls, c.stage = stage → c.pc = none → c.ns ≤ h.max stage
  ok : ∀ c ∈ calls, c.Ok

namespace Since

variable {h₀ h h' : LatencyHistogram} {calls : List RecorderCall} {stage : Stage}

theorem nil (h₀ : LatencyHistogram) (stage : Stage) : Since h₀ h₀ [] stage where
  buckets _ := rfl
  count := rfl
  le_max := Nat.le_refl _
  max_mem := Or.inl rfl
  returned := nofun
  ok := nofun

theorem start (hsince : Since h₀ h calls stage) (hstage : stage ≠ .count) (other : Stage)
    (ns : Nat) : Since h₀ h (calls ++ [RecorderCall.start other ns]) stage := by
  have hpc : other = stage → (RecorderCall.start other ns).pc = some .bucket := by
    rintro rfl
    exact if_neg (lt_count_of_ne hstage)
  refine ⟨fun b => ?_, ?_, hsince.le_max, ?_, ?_, ?_⟩
  · have hzero : (RecorderCall.start other ns).onBucket stage b = 0 :=
      if_neg fun hon => hon.2.2 (hpc hon.1)
    rw [total_concat, hzero, Nat.add_zero, hsince.buckets b]
  · have hzero : (RecorderCall.start other ns).onCount stage = 0 :=
      if_neg fun hon => hon.2.1 (hpc hon.1)
    rw [total_concat, hzero, Nat.add_zero, hsince.count]
  · exact hsince.max_mem.imp_right fun hmade => hmade.concat _
  · intro c hc hcs hnone
    rcases List.mem_append.mp hc with hc | hc
    · exact hsince.returned c hc hcs hnone
    · rw [List.mem_singleton.mp hc] at hcs hnone
      rw [hpc hcs] at hnone
      cases hnone
  · intro c hc
    rcases List.mem_append.mp hc with hc | hc
    · exact hsince.ok c hc
    · rw [List.mem_singleton.mp hc]
      exact RecorderCall.ok_start other ns

theorem access (hsince : Since h₀ h calls stage) {i : Nat} {c c' : RecorderCall}
    (hc : calls[i]? = some c) {fails : Bool} (hacc : c.access h fails = some (h', c')) :
    Since h₀ h' (calls.set i c') stage := by
  have hmem : c ∈ calls := List.mem_of_getElem? hc
  have hi : i < calls.length := (List.getElem?_eq_some_iff.mp hc).1
  have hmem' : c' ∈ calls.set i c' := List.mem_set hi c'
  have hok : c.Ok := hsince.ok c hmem
  obtain ⟨hcs, hns⟩ := RecorderCall.access_stage hacc
  have hmax : h.max stage ≤ h'.max stage ∧
      (h'.max stage = h.max stage ∨ c.stage = stage ∧ h'.max stage = c.ns) ∧
      (c'.stage = stage → c'.pc = none → c'.ns ≤ h'.max stage) := by
    by_cases hstage : c.stage = stage
    · subst hstage
      obtain ⟨hle, hor, hret⟩ := RecorderCall.access_max hok hacc
      exact ⟨hle, hor.imp_right fun heq => ⟨rfl, heq⟩, fun _ hnone => hns ▸ hret hnone⟩
    · have hrow := (row_eq_iff.mp (RecorderCall.access_of_ne hacc (Ne.symm hstage))).2.2
      refine ⟨hrow.ge, Or.inl hrow, fun heq => absurd (hcs.symm.trans heq) hstage⟩
  obtain ⟨hle, hor, hret⟩ := hmax
  refine ⟨fun b => ?_, ?_, hsince.le_max.trans hle, ?_, ?_, ?_⟩
  · have hstep := RecorderCall.access_buckets hacc stage b
    have hset := total_set (f := RecorderCall.onBucket stage b) hc c'
    have hbefore := hsince.buckets b
    omega
  · have hstep := RecorderCall.access_count hacc stage
    have hset := total_set (f := RecorderCall.onCount stage) hc c'
    have hbefore := hsince.count
    omega
  · rcases hor with heq | ⟨hstage, heq⟩
    · rw [heq]
      exact hsince.max_mem.imp_right fun hmade => hmade.set hc ⟨hcs, hns⟩
    · exact Or.inr ⟨c', hmem', hcs.trans hstage, hns.trans heq.symm⟩
  · intro x hx hxs hnone
    rcases List.mem_or_eq_of_mem_set hx with hx | rfl
    · exact (hsince.returned x hx hxs hnone).trans hle
    · exact hret hxs hnone
  · intro x hx
    rcases List.mem_or_eq_of_mem_set hx with hx | rfl
    · exact hsince.ok x hx
    · exact RecorderCall.ok_access hok hacc

/-- When all calls have returned, the cells of the stage are determined. -/
theorem unique (hsince : Since h₀ h calls stage) (hsince' : Since h₀ h' calls stage)
    (hret : ∀ c ∈ calls, c.pc = none) : h.row stage = h'.row stage := by
  have hle : ∀ {x y : LatencyHistogram}, Since h₀ x calls stage → Since h₀ y calls stage →
      x.max stage ≤ y.max stage := by
    intro x y hx hy
    rcases hx.max_mem with heq | ⟨c, hc, hcs, hcn⟩
    · rw [heq]
      exact hy.le_max
    · rw [← hcn]
      exact hy.returned c hc hcs (hret c hc)
  refine row_eq_iff.mpr ⟨funext fun b => ?_, ?_, Nat.le_antisymm (hle hsince hsince')
    (hle hsince' hsince)⟩
  · rw [hsince.buckets b, hsince'.buckets b]
  · rw [hsince.count, hsince'.count]

/-- A call of one thread alone is a call that has returned. -/
theorem record (hsince : Since h₀ h calls stage) (hstage : stage ≠ .count) {c : RecorderCall}
    (hnone : c.pc = none) : Since h₀ (h.record c.stage c.ns) (calls ++ [c]) stage := by
  have hok : ∀ x ∈ calls ++ [c], x.Ok := by
    intro x hx
    rcases List.mem_append.mp hx with hx | hx
    · exact hsince.ok x hx
    · rw [List.mem_singleton.mp hx]
      unfold RecorderCall.Ok
      rw [hnone]
      trivial
  by_cases hcs : c.stage = stage
  · subst hcs
    have hrec : (h.record c.stage c.ns).max c.stage =
        if h.max c.stage < c.ns then c.ns else h.max c.stage := by
      unfold LatencyHistogram.record
      rw [if_neg (lt_count_of_ne hstage)]
      exact Function.update_self _ _ _
    have hle : h.max c.stage ≤ (h.record c.stage c.ns).max c.stage := by
      rw [hrec]
      split_ifs <;> omega
    refine ⟨fun b => ?_, ?_, hsince.le_max.trans hle, ?_, ?_, hok⟩
    · rw [total_concat, ← Nat.add_assoc, ← hsince.buckets b]
      unfold LatencyHistogram.record RecorderCall.onBucket
      rw [if_neg (lt_count_of_ne hstage), hnone]
      dsimp only
      rw [Function.update_self]
      by_cases hb : bucketFor c.ns = b
      · subst hb
        rw [Function.update_self]
        simp
      · rw [Function.update_of_ne (Ne.symm hb)]
        simp [hb]
    · rw [total_concat, ← Nat.add_assoc, ← hsince.count]
      unfold LatencyHistogram.record RecorderCall.onCount
      rw [if_neg (lt_count_of_ne hstage), hnone]
      simp
    · rw [hrec]
      split_ifs with hlt
      · exact Or.inr ⟨c, List.mem_append_right _ List.mem_cons_self, rfl, rfl⟩
      · exact hsince.max_mem.imp_right fun hmade => hmade.concat c
    · intro x hx hxs hxn
      rcases List.mem_append.mp hx with hx | hx
      · exact (hsince.returned x hx hxs hxn).trans hle
      · rw [List.mem_singleton.mp hx, hrec]
        split_ifs <;> omega
  · obtain ⟨hbuckets, hcount, hmax⟩ :=
      row_eq_iff.mp (row_record_of_ne h (Ne.symm hcs) c.ns)
    refine ⟨fun b => ?_, ?_, ?_, ?_, ?_, hok⟩
    · have hzero : c.onBucket stage b = 0 := if_neg fun hon => hcs hon.1
      rw [hbuckets, total_concat, hzero, Nat.add_zero, hsince.buckets b]
    · have hzero : c.onCount stage = 0 := if_neg fun hon => hcs hon.1
      rw [hcount, total_concat, hzero, Nat.add_zero, hsince.count]
    · rw [hmax]
      exact hsince.le_max
    · rw [hmax]
      exact hsince.max_mem.imp_right fun hmade => hmade.concat c
    · intro x hx hxs hxn
      rw [hmax]
      rcases List.mem_append.mp hx with hx | hx
      · exact hsince.returned x hx hxs hxn
      · exact absurd (List.mem_singleton.mp hx ▸ hxs) hcs

end Since

/-- One thread that makes the calls one after the other. -/
def recordAll (h : LatencyHistogram) (calls : List RecorderCall) : LatencyHistogram :=
  calls.foldl (fun h c => h.record c.stage c.ns) h

theorem since_recordAll (h₀ : LatencyHistogram) {stage : Stage} (hstage : stage ≠ .count)
    {calls : List RecorderCall} (hret : ∀ c ∈ calls, c.pc = none) :
    Since h₀ (recordAll h₀ calls) calls stage := by
  induction calls using List.reverseRecOn with
  | nil => exact Since.nil h₀ stage
  | append_singleton calls c ih =>
    unfold recordAll
    rw [List.foldl_concat]
    exact (ih fun x hx => hret x (List.mem_append_left _ hx)).record hstage
      (hret c (List.mem_append_right _ List.mem_cons_self))

/-- An event of the threads that record. -/
def IsRecord : RecorderEvent → Prop
  | .record _ _ => True
  | .access _ _ => True
  | _ => False

variable {D : Type*} [NatCast D] [Mul D] [OfScientific D] {trunc : D → Nat}

instance : DecidablePred IsRecord
  | .record _ _ => isTrue trivial
  | .access _ _ => isTrue trivial
  | .dump => isFalse id
  | .dumpAccess => isFalse id

theorem since_step {h₀ : LatencyHistogram} {stage : Stage} (hstage : stage ≠ .count)
    {w w' : Recorders} {e : RecorderEvent} (hsince : Since h₀ w.hist w.calls stage)
    (he : IsRecord e) (hs : w.step trunc e = some w') : Since h₀ w'.hist w'.calls stage := by
  rcases step_cases hs with ⟨other, ns, -, rfl⟩ | ⟨i, fails, c, h, c', -, hc, hacc, rfl⟩ |
    ⟨rfl, -, -⟩ | ⟨d, h, lines, d', rfl, -, -, -⟩
  · exact hsince.start hstage other ns
  · exact hsince.access hc hacc
  · exact he.elim
  · exact he.elim

/-- The calls among the events, in the order in which they start. -/
def callsOf (es : List RecorderEvent) : List (Stage × Nat) :=
  es.filterMap fun e =>
    match e with
    | .record stage ns => some (stage, ns)
    | _ => none

/-- The accesses among the events, but for those of exchanges that fail without a reason. -/
def accessesOf (es : List RecorderEvent) : Nat :=
  es.countP fun e =>
    match e with
    | .access _ fails => !fails
    | _ => false

/-! ## Progress -/

def pending (w : Recorders) : Nat := total RecorderCall.underWay w.calls

/-- What is left to do with at most `m` calls under way, each of which puts back the
others by one access when it raises a maximum. -/
def work (m : Nat) (w : Recorders) : Nat :=
  total (RecorderCall.cost w.hist) w.calls + m * w.pending

theorem underWay_le (c : RecorderCall) : c.underWay ≤ 1 := by
  unfold RecorderCall.underWay
  split_ifs <;> omega

theorem pending_le (w : Recorders) : w.pending ≤ w.calls.length := by
  unfold pending
  calc total RecorderCall.underWay w.calls
    _ ≤ total (fun _ => 1) w.calls := total_le underWay_le w.calls
    _ = w.calls.length := by simp [total]

theorem work_access {m i : Nat} {fails : Bool} {w : Recorders} {c c' : RecorderCall}
    {h : LatencyHistogram} (hm : w.pending ≤ m) (hc : w.calls[i]? = some c) (hok : c.Ok)
    (hacc : c.access w.hist fails = some (h, c')) :
    work m { w with hist := h, calls := w.calls.set i c' } + (if fails then 0 else 1) ≤
      work m w := by
  have hpend := total_set (f := RecorderCall.underWay) hc c'
  have hunder : total RecorderCall.underWay w.calls ≤ m := hm
  rcases RecorderCall.access_cost hok hacc with ⟨hmax, hle, hcost⟩ | ⟨hzero, hone, hpos, hother⟩
  · have hsame : RecorderCall.cost h = RecorderCall.cost w.hist := by
      funext x
      unfold RecorderCall.cost
      rw [hmax]
    have hset := total_set (f := RecorderCall.cost w.hist) hc c'
    have hmul : m * total RecorderCall.underWay (w.calls.set i c') ≤
        m * total RecorderCall.underWay w.calls := Nat.mul_le_mul_left m (by omega)
    unfold work pending
    dsimp only
    rw [hsame] at hcost ⊢
    omega
  · -- the others are put back, which the return of this one pays for
    have hset := total_set (f := RecorderCall.cost w.hist) hc c'
    have hset' := total_set (f := RecorderCall.cost h) hc c'
    have hall : total (RecorderCall.cost h) (w.calls.set i c') ≤
        total (RecorderCall.cost w.hist) (w.calls.set i c') +
          total RecorderCall.underWay (w.calls.set i c') := by
      rw [← total_add]
      exact total_le hother _
    have hret : c'.pc = none := by
      have hle := underWay_le c
      have hunder' : c'.underWay = 0 := by omega
      unfold RecorderCall.underWay at hunder'
      split_ifs at hunder' with hsome
      exact Option.not_isSome_iff_eq_none.mp hsome
    have hcost' : c'.cost w.hist = 0 := by
      unfold RecorderCall.cost
      rw [hret]
    have hmul : m * total RecorderCall.underWay (w.calls.set i c') + m =
        m * total RecorderCall.underWay w.calls := by
      rw [← Nat.mul_succ]
      exact congrArg _ (by omega)
    unfold work pending
    dsimp only
    split_ifs <;> omega

theorem work_start (m : Nat) (w : Recorders) (stage : Stage) (ns : Nat) :
    work m { w with calls := w.calls ++ [RecorderCall.start stage ns] } ≤ work m w + (m + 5) := by
  have hcost : (RecorderCall.start stage ns).cost w.hist ≤ 5 := by
    unfold RecorderCall.start RecorderCall.cost
    split_ifs
    · exact Nat.zero_le 5
    · exact Nat.le_refl 5
  have hunder : m * (RecorderCall.start stage ns).underWay ≤ m * 1 :=
    Nat.mul_le_mul_left m (underWay_le _)
  unfold work pending
  dsimp only
  rw [total_concat, total_concat, Nat.mul_add]
  omega

theorem length_step {w w' : Recorders} {e : RecorderEvent} (he : IsRecord e)
    (hs : w.step trunc e = some w') : w'.calls.length = w.calls.length + (callsOf [e]).length := by
  rcases step_cases hs with ⟨stage, ns, rfl, rfl⟩ | ⟨i, fails, c, h, c', rfl, -, -, rfl⟩ |
    ⟨rfl, -, -⟩ | ⟨d, h, lines, d', rfl, -, -, -⟩
  · exact List.length_append
  · exact List.length_set
  · exact he.elim
  · exact he.elim

theorem callsOf_cons (e : RecorderEvent) (es : List RecorderEvent) :
    callsOf (e :: es) = callsOf [e] ++ callsOf es := by
  cases e <;> rfl

theorem accessesOf_cons (e : RecorderEvent) (es : List RecorderEvent) :
    accessesOf (e :: es) = accessesOf [e] + accessesOf es := by
  unfold accessesOf
  rw [List.countP_cons, List.countP_cons, List.countP_nil]
  omega

/-- The accesses of a run, with what is left to do after it. -/
theorem work_run {m : Nat} {es : List RecorderEvent} (hes : ∀ e ∈ es, IsRecord e)
    {w w' : Recorders} (hok : ∀ c ∈ w.calls, c.Ok) (hrun : Machine.run (step trunc) w es = some w')
    (hm : w'.calls.length ≤ m) :
    accessesOf es + work m w' ≤ work m w + (m + 5) * (callsOf es).length ∧
      w'.calls.length = w.calls.length + (callsOf es).length := by
  induction es generalizing w with
  | nil =>
    cases hrun
    exact ⟨by simp [accessesOf, callsOf], rfl⟩
  | cons e es ih =>
    obtain ⟨w₁, hs, hrest⟩ := Option.bind_eq_some_iff.mp hrun
    have he : IsRecord e := hes e List.mem_cons_self
    have hes' : ∀ e ∈ es, IsRecord e := fun e' he' => hes e' (List.mem_cons_of_mem e he')
    have hlen := length_step he hs
    have hok₁ : ∀ c ∈ w₁.calls, c.Ok := ok_step hok hs
    obtain ⟨hwork, hlen'⟩ := ih hes' hok₁ hrest
    have hstep : accessesOf [e] + work m w₁ ≤ work m w + (m + 5) * (callsOf [e]).length := by
      rcases step_cases hs with ⟨stage, ns, rfl, rfl⟩ | ⟨i, fails, c, h, c', rfl, hc, hacc, rfl⟩ |
        ⟨rfl, -, -⟩ | ⟨d, h, lines, d', rfl, -, -, -⟩
      · have hstart := work_start m w stage ns
        show 0 + _ ≤ _ + (m + 5) * 1
        omega
      · have hle := w.pending_le
        have hone := work_access (m := m) (by omega) hc (hok c (List.mem_of_getElem? hc)) hacc
        cases fails with
        | true =>
          show 0 + _ ≤ _ + (m + 5) * 0
          exact hone.trans' (by simp)
        | false =>
          show 1 + _ ≤ _ + (m + 5) * 0
          exact hone.trans' (by simp [Nat.add_comm])
      · exact he.elim
      · exact he.elim
    rw [accessesOf_cons, callsOf_cons, List.length_append, Nat.mul_add]
    omega

/-! ## Exactness -/

theorem Since.perm {h₀ h : LatencyHistogram} {calls calls' : List RecorderCall} {stage : Stage}
    (hsince : Since h₀ h calls stage) (hperm : calls.Perm calls') :
    Since h₀ h calls' stage where
  buckets b := by
    rw [hsince.buckets b]
    exact congrArg _ (hperm.map _).sum_eq
  count := by
    rw [hsince.count]
    exact congrArg _ (hperm.map _).sum_eq
  le_max := hsince.le_max
  max_mem := hsince.max_mem.imp_right fun ⟨c, hc, hc'⟩ => ⟨c, hperm.mem_iff.mp hc, hc'⟩
  returned c hc := hsince.returned c (hperm.mem_iff.mpr hc)
  ok c hc := hsince.ok c (hperm.mem_iff.mpr hc)

/-- The calls that have returned, as calls. -/
def returnedCall (p : Stage × Nat) : RecorderCall := ⟨p.1, p.2, none⟩

theorem calls_run {es : List RecorderEvent} {w w' : Recorders}
    (hrun : Machine.run (step trunc) w es = some w') :
    w'.calls.map (fun c => (c.stage, c.ns)) =
      w.calls.map (fun c => (c.stage, c.ns)) ++ callsOf es := by
  induction es generalizing w with
  | nil =>
    cases hrun
    exact (List.append_nil _).symm
  | cons e es ih =>
    obtain ⟨w₁, hs, hrest⟩ := Option.bind_eq_some_iff.mp hrun
    rw [ih hrest, callsOf_cons, ← List.append_assoc]
    refine congrArg (· ++ _) ?_
    rcases step_cases hs with ⟨stage, ns, rfl, rfl⟩ | ⟨i, fails, c, h, c', rfl, hc, hacc, rfl⟩ |
      ⟨rfl, -, rfl⟩ | ⟨d, h, lines, d', rfl, -, -, rfl⟩
    · exact List.map_append
    · obtain ⟨hstage, hns⟩ := RecorderCall.access_stage hacc
      show (w.calls.set i c').map _ = _ ++ []
      rw [List.map_set, hstage, hns, List.append_nil]
      refine List.ext_getElem? fun j => ?_
      by_cases hij : i = j
      · subst hij
        rw [List.getElem?_set_self', List.getElem?_map, hc]
        rfl
      · rw [List.getElem?_set_ne hij]
    · exact (List.append_nil _).symm
    · exact (List.append_nil _).symm

theorem calls_eq {calls : List RecorderCall} (hret : ∀ c ∈ calls, c.pc = none) :
    calls = (calls.map fun c => (c.stage, c.ns)).map returnedCall := by
  rw [List.map_map]
  refine (List.map_congr_left (fun c hc => ?_)).trans (List.map_id _) |>.symm
  show RecorderCall.mk c.stage c.ns none = c
  rw [← hret c hc]

/-- Whatever the interleaving of the threads that record between two dumps, a call under
way can always take its next access, the calls take boundedly many but for exchanges that
fail without a reason, and once all have returned no sample is lost: the cells are those of
one thread that makes the calls one after the other, in any order, the maximum included. -/
theorem concurrentRecords_exact (h₀ : LatencyHistogram) (es : List RecorderEvent)
    (hes : ∀ e ∈ es, IsRecord e) (w : Recorders)
    (hrun : Machine.run (step trunc) (start h₀) es = some w) :
    (∀ i c, w.calls[i]? = some c → c.pc ≠ none → (w.step trunc (.access i false)).isSome) ∧
    accessesOf es ≤ (callsOf es).length * ((callsOf es).length + 5) ∧
    ((∀ c ∈ w.calls, c.pc = none) →
      ∀ order : List (Stage × Nat), order.Perm (callsOf es) → ∀ stage, stage ≠ .count →
        w.hist.row stage = (order.foldl (fun h p => h.record p.1 p.2) h₀).row stage) := by
  have hnil : ∀ c ∈ (start h₀).calls, c.Ok := nofun
  refine ⟨fun i c hc hpc => ?_, ?_, fun hret order horder stage hstage => ?_⟩
  · show (w.calls[i]?.bind _).isSome
    rw [hc, Option.bind_some, Option.isSome_map]
    unfold RecorderCall.access
    match c.pc, hpc with
    | some .bucket, _ => rfl
    | some .count, _ => rfl
    | some (.raise pc), _ => rfl
  · have hlen := (work_run hes hnil hrun (Nat.le_refl _)).2
    have hwork := (work_run hes hnil hrun (Nat.le_refl _)).1
    have hcalls : w.calls.length = (callsOf es).length := hlen.trans (Nat.zero_add _)
    have hzero : work w.calls.length (start h₀) = 0 := by
      simp [work, pending, total, start]
    rw [hzero, hcalls, Nat.mul_comm] at hwork
    omega
  · have hsince : Since h₀ w.hist w.calls stage :=
      Machine.run_inv_of_forall (I := fun w => Since h₀ w.hist w.calls stage)
        (fun s e s' hI he hs => since_step hstage hI he hs) (Since.nil h₀ stage) hes hrun
    have hcalls := calls_run hrun
    have hperm : w.calls.Perm (order.map returnedCall) := by
      rw [calls_eq hret, hcalls]
      exact (horder.map returnedCall).symm
    have hall : ∀ c ∈ order.map returnedCall, c.pc = none := by
      intro c hc
      obtain ⟨p, -, rfl⟩ := List.mem_map.mp hc
      rfl
    have hseq := since_recordAll h₀ hstage hall
    have hfold : recordAll h₀ (order.map returnedCall) =
        order.foldl (fun h p => h.record p.1 p.2) h₀ := List.foldl_map
    rw [← hfold]
    exact (hsince.perm hperm).unique hseq hall

/-- The second thread raises the maximum between the load and the exchange of the first,
whose exchange fails. -/
def raceForMax : List RecorderEvent :=
  [.record .gpuRunOnce 7, .record .gpuRunOnce 900, .access 0 false, .access 1 false,
    .access 0 false, .access 1 false, .access 0 false, .access 1 false, .access 1 true,
    .access 1 false, .access 0 false]

theorem concurrentRecords_exact_two :
    ∃ w, Machine.run (step Double.toUInt64) (start init) raceForMax = some w ∧
      accessesOf raceForMax ≤ 2 * (2 + 5) ∧
      w.hist.row .gpuRunOnce =
        ([(Stage.gpuRunOnce, 900), (Stage.gpuRunOnce, 7)].foldl
          (fun h p => h.record p.1 p.2) init).row .gpuRunOnce := by
  obtain ⟨w, hrun, hret⟩ : ∃ w,
      Machine.run (step Double.toUInt64) (start init) raceForMax = some w ∧
        ∀ c ∈ w.calls, c.pc = none := Machine.exists_of_elim (by decide)
  have hes : ∀ e ∈ raceForMax, IsRecord e := by decide
  obtain ⟨-, haccesses, hexact⟩ := concurrentRecords_exact init raceForMax hes w hrun
  exact ⟨w, hrun, haccesses, hexact hret _ (List.Perm.swap _ _ _) .gpuRunOnce (by decide)⟩

end Recorders
end HoloMarket
