import HoloMarket.Core.LatencyRecorders

/-!
# LatencyDumps: dumps while threads record

`dump` loads the count of a stage, walks over the buckets, prints the line and resets the
cells one after the other, while other threads record.  Samples that come in between are
lost, but none is reported twice; and a dump that no thread interferes with is the one of
a single thread.
-/

namespace HoloMarket

open LatencyHistogram
open DoubleRounding (Double)

namespace Recorders

/-! ## What a dump takes -/

/-- The samples that the lines of a stage report. -/
def reported (lines : List Line) (stage : Stage) : Nat :=
  ((lines.filter fun l => l.stage = stageName stage).map Line.n).sum

theorem reported_append (lines lines' : List Line) (stage : Stage) :
    reported (lines ++ lines') stage = reported lines stage + reported lines' stage := by
  simp [reported]

theorem stageName_injective : ∀ stage other, stageName stage = stageName other →
    stage = other := by
  intro stage other
  cases stage <;> cases other <;> decide

end Recorders

namespace DumpPc

/-- The count that the dump has loaded, as long as its line is not printed. -/
def loaded : DumpPc → Option Nat
  | .p50 n _ _ => some n
  | .p90 n _ _ _ => some n
  | .p99 n _ _ _ _ => some n
  | .max n _ _ _ => some n
  | _ => none

/-- The line is printed and the count not yet reset. -/
def printed : DumpPc → Bool
  | .bucket _ => true
  | .resetCount => true
  | _ => false

end DumpPc

namespace Recorders

/-- The count of a stage that no line reports: none of it between the line and the reset. -/
def held (d : Option Dumper) (h : LatencyHistogram) (stage : Stage) : Nat :=
  if ∃ d' ∈ d, d'.stage = stage ∧ d'.pc.printed then 0 else h.count stage

theorem held_some {d : Dumper} (hprinted : d.pc.printed = false) (h : LatencyHistogram)
    (stage : Stage) : held (some d) h stage = h.count stage := by
  refine if_neg ?_
  rintro ⟨d', hd', -, hprinted'⟩
  cases hd'
  rw [hprinted] at hprinted'
  cases hprinted'

theorem held_next (rest : List Stage) (h : LatencyHistogram) (stage : Stage) :
    held (Dumper.next rest) h stage = h.count stage := by
  cases rest with
  | nil => exact if_neg nofun
  | cons other rest => exact held_some rfl h stage

/-- What holds of a stage while threads record and a dump goes on. -/
structure Fair (w : Recorders) (stage : Stage) : Prop where
  ok : ∀ c ∈ w.calls, c.Ok
  max_made : w.hist.max stage = 0 ∨ Made w.calls stage (w.hist.max stage)
  lines_made : ∀ l ∈ w.lines, l.stage = stageName stage → l.max = 0 ∨ Made w.calls stage l.max
  loaded : ∀ d ∈ w.dumper, d.stage = stage → ∀ n ∈ d.pc.loaded, n ≤ w.hist.count stage
  reported : reported w.lines stage + held w.dumper w.hist stage ≤
    total (RecorderCall.onCount stage) w.calls

namespace Fair

variable {w : Recorders} {stage : Stage}

theorem start (stage : Stage) : Fair (start init) stage where
  ok := nofun
  max_made := Or.inl rfl
  lines_made := nofun
  loaded := nofun
  reported := by simp [Recorders.start, Recorders.reported, held, init, total]

theorem call (h : Fair w stage) (other : Stage) (ns : Nat) :
    Fair { w with calls := w.calls ++ [RecorderCall.start other ns] } stage where
  ok c hc := by
    rcases List.mem_append.mp hc with hc | hc
    · exact h.ok c hc
    · rw [List.mem_singleton.mp hc]
      exact RecorderCall.ok_start other ns
  max_made := h.max_made.imp_right fun hmade => hmade.concat _
  lines_made l hl hls := (h.lines_made l hl hls).imp_right fun hmade => hmade.concat _
  loaded := h.loaded
  reported := by
    have hle := h.reported
    dsimp only
    rw [total_concat]
    omega

theorem access (h : Fair w stage) {i : Nat} {c c' : RecorderCall} (hc : w.calls[i]? = some c)
    {fails : Bool} {hist : LatencyHistogram} (hacc : c.access w.hist fails = some (hist, c')) :
    Fair { w with hist := hist, calls := w.calls.set i c' } stage := by
  have hok : c.Ok := h.ok c (List.mem_of_getElem? hc)
  have hsame := RecorderCall.access_stage hacc
  have hcount := RecorderCall.access_count hacc stage
  have hset := total_set (f := RecorderCall.onCount stage) hc c'
  have hle : c.onCount stage ≤ c'.onCount stage := by
    unfold RecorderCall.onCount
    rw [hsame.1]
    rcases RecorderCall.access_cases hacc with ⟨hpc, -, -⟩ | ⟨hpc, -, -⟩ | ⟨pc, hpc, -, rfl⟩
    · rw [hpc]
      simp
    · rw [hpc]
      simp
    · dsimp only
      cases (AtomicMax.access c.ns fails (w.hist.max c.stage) pc).2 <;> simp [hpc]
  refine ⟨fun x hx => ?_, ?_, fun l hl hls => ?_, fun d hd hds n hn => ?_, ?_⟩
  · rcases List.mem_or_eq_of_mem_set hx with hx | rfl
    · exact h.ok x hx
    · exact RecorderCall.ok_access hok hacc
  · dsimp only
    have hold : w.hist.max stage = 0 ∨ Made (w.calls.set i c') stage (w.hist.max stage) :=
      h.max_made.imp_right fun hmade => hmade.set hc hsame
    by_cases hstage : c.stage = stage
    · subst hstage
      have hi : i < w.calls.length := (List.getElem?_eq_some_iff.mp hc).1
      rcases (RecorderCall.access_max hok hacc).2.1 with heq | heq
      · rw [heq]
        exact hold
      · rw [heq]
        exact Or.inr ⟨c', List.mem_set hi c', hsame⟩
    · rw [(row_eq_iff.mp (RecorderCall.access_of_ne hacc (Ne.symm hstage))).2.2]
      exact hold
  · exact (h.lines_made l hl hls).imp_right fun hmade => hmade.set hc hsame
  · have hn := h.loaded d hd hds n hn
    dsimp only
    omega
  · have hrep := h.reported
    unfold held at hrep ⊢
    dsimp only
    split_ifs at hrep ⊢ <;> omega

/-- A step of the dump that takes from the count no more than it reports. -/
theorem dump (h : Fair w stage) {hist : LatencyHistogram} {lines : List Line}
    {d' : Option Dumper} (hmax : hist.max stage = w.hist.max stage ∨ hist.max stage = 0)
    (hlines : ∀ l ∈ lines, l.stage = stageName stage → l.max = w.hist.max stage)
    (hloaded : ∀ d ∈ d', d.stage = stage → ∀ n ∈ d.pc.loaded, n ≤ hist.count stage)
    (hheld : Recorders.reported lines stage + held d' hist stage ≤
      held w.dumper w.hist stage) :
    Fair { w with hist := hist, lines := w.lines ++ lines, dumper := d' } stage where
  ok := h.ok
  max_made := by
    dsimp only
    rcases hmax with heq | heq
    · rw [heq]
      exact h.max_made
    · exact Or.inl heq
  lines_made l hl hls := by
    rcases List.mem_append.mp hl with hl | hl
    · exact h.lines_made l hl hls
    · rw [hlines l hl hls]
      exact h.max_made
  loaded := hloaded
  reported := by
    have hle := h.reported
    dsimp only
    rw [reported_append]
    omega

/-- A step of the dump that only reads goes on with the stage. -/
theorem read (h : Fair w stage) {d d' : Dumper} (hd : w.dumper = some d)
    (hprinted : d.pc.printed = false) (hstage : d'.stage = d.stage)
    (hprinted' : d'.pc.printed = false)
    (hloaded : ∀ n ∈ d'.pc.loaded, n ∈ d.pc.loaded ∨ n = w.hist.count d.stage) :
    Fair { w with hist := w.hist, lines := w.lines ++ [], dumper := some d' } stage := by
  refine h.dump (Or.inl rfl) nofun ?_ ?_
  · intro _ hd' hs n hn
    cases hd'
    rw [hstage] at hs
    rcases hloaded n hn with hn | rfl
    · exact h.loaded d hd hs n hn
    · exact (congrArg w.hist.count hs).le
  · rw [hd, held_some hprinted, held_some hprinted']
    exact (Nat.zero_add _).le

theorem walk (h : Fair w stage) {d : Dumper} (hd : w.dumper = some d) {n : Nat}
    (hn : d.pc.loaded = some n) (hprinted : d.pc.printed = false) {pc : DumpPc}
    (hn' : pc.loaded = some n) (hprinted' : pc.printed = false) :
    Fair { w with hist := w.hist, lines := w.lines ++ [], dumper := some { d with pc := pc } }
      stage := by
  refine h.read hd hprinted rfl hprinted' fun m hm => Or.inl ?_
  rw [hn]
  exact hn'.symm.trans hm

/-- The dump goes on with the next stage, whose count it has not loaded. -/
theorem next (h : Fair w stage) {d : Dumper} (hd : w.dumper = some d)
    (hprinted : d.pc.printed = false) {hist : LatencyHistogram}
    (hcount : hist.count = w.hist.count)
    (hmax : hist.max stage = w.hist.max stage ∨ hist.max stage = 0) (rest : List Stage) :
    Fair { w with hist := hist, lines := w.lines ++ [], dumper := Dumper.next rest } stage := by
  refine h.dump hmax nofun ?_ ?_
  · intro d' hd' _ n hn
    cases rest with
    | nil => cases hd'
    | cons other rest =>
      cases hd'
      cases hn
  · rw [hd, held_next, held_some hprinted, hcount]
    exact (Nat.zero_add _).le

variable {D : Type*} [NatCast D] [Mul D] [OfScientific D] {trunc : D → Nat}

theorem dumpAccess (h : Fair w stage) {d : Dumper} (hd : w.dumper = some d)
    {hist : LatencyHistogram} {lines : List Line} {d' : Option Dumper}
    (hacc : d.access trunc w.hist = (hist, lines, d')) :
    Fair { w with hist := hist, lines := w.lines ++ lines, dumper := d' } stage := by
  unfold Dumper.access at hacc
  cases hpc : d.pc with
  | count =>
    rw [hpc] at hacc
    cases hacc
    split_ifs
    · exact h.next hd (by rw [hpc]; rfl) rfl (Or.inl rfl) d.rest
    · refine h.read hd (by rw [hpc]; rfl) rfl rfl ?_
      intro n hn
      exact Or.inr (Option.some.inj hn).symm
  | p50 n b cum =>
    rw [hpc] at hacc
    cases hacc
    refine h.walk hd (n := n) (by rw [hpc]; rfl) (by rw [hpc]; rfl) ?_ ?_ <;> split <;> rfl
  | p90 n p50 b cum =>
    rw [hpc] at hacc
    cases hacc
    refine h.walk hd (n := n) (by rw [hpc]; rfl) (by rw [hpc]; rfl) ?_ ?_ <;> split <;> rfl
  | p99 n p50 p90 b cum =>
    rw [hpc] at hacc
    cases hacc
    refine h.walk hd (n := n) (by rw [hpc]; rfl) (by rw [hpc]; rfl) ?_ ?_ <;> split <;> rfl
  | max n p50 p90 p99 =>
    rw [hpc] at hacc
    cases hacc
    refine h.dump (Or.inl rfl) ?_ ?_ ?_
    · intro l hl hls
      rw [List.mem_singleton.mp hl] at hls ⊢
      rw [stageName_injective _ _ hls]
    · intro d' hd' _ n hn
      cases hd'
      cases hn
    · -- the line reports what was loaded, and the count is held back until its reset
      have hn : d.stage = stage → n ≤ w.hist.count stage := by
        intro hs
        refine h.loaded d hd hs n ?_
        rw [hpc]
        rfl
      rw [hd]
      unfold held Recorders.reported
      by_cases hs : d.stage = stage
      · subst hs
        simpa [hpc, DumpPc.printed] using hn rfl
      · have hname : stageName d.stage ≠ stageName stage :=
          fun heq => hs (stageName_injective _ _ heq)
        simp [hs, hname]
  | bucket b =>
    rw [hpc] at hacc
    cases hacc
    refine h.dump (Or.inl rfl) nofun ?_ ?_
    · intro d' hd' _ n hn
      cases hd'
      dsimp only at hn
      split_ifs at hn <;> cases hn
    · rw [hd]
      unfold held
      dsimp only [storeBucket]
      split_ifs <;> simp_all [Recorders.reported, DumpPc.printed]
  | resetCount =>
    rw [hpc] at hacc
    cases hacc
    refine h.dump (Or.inl rfl) nofun ?_ ?_
    · intro d' hd' _ n hn
      cases hd'
      cases hn
    · rw [hd]
      unfold held
      dsimp only [storeCount]
      by_cases hs : d.stage = stage
      · subst hs
        simp [Recorders.reported, DumpPc.printed]
      · simp [Recorders.reported, DumpPc.printed, hs, Function.update_of_ne (Ne.symm hs)]
  | resetMax =>
    rw [hpc] at hacc
    cases hacc
    have hcount : (w.hist.storeMax d.stage 0).count = w.hist.count := rfl
    refine h.next hd (by rw [hpc]; rfl) hcount ?_ d.rest
    dsimp only [storeMax]
    by_cases hs : stage = d.stage
    · subst hs
      exact Or.inr (Function.update_self _ _ _)
    · exact Or.inl (Function.update_of_ne hs _ _)

end Fair

variable {D : Type*} [NatCast D] [Mul D] [OfScientific D] {trunc : D → Nat}

theorem fair_step {stage : Stage} (w : Recorders) (e : RecorderEvent) (w' : Recorders)
    (h : Fair w stage) (hs : w.step trunc e = some w') : Fair w' stage := by
  rcases step_cases hs with ⟨other, ns, -, rfl⟩ | ⟨i, fails, c, hist, c', -, hc, hacc, rfl⟩ |
    ⟨-, hnone, rfl⟩ | ⟨d, hist, lines, d', -, hd, hacc, rfl⟩
  · exact h.call other ns
  · exact h.access hc hacc
  · have hheld := h.reported
    refine ⟨h.ok, h.max_made, h.lines_made, ?_, ?_⟩
    · intro d' hd' _ n hn
      cases hd'
      cases hn
    · rw [hnone] at hheld
      rwa [held_next]
  · exact h.dumpAccess hd hacc

/-! ## A dump that nothing interferes with -/

/-- No bucket out of range is counted in. -/
def InRange (h : LatencyHistogram) : Prop := ∀ stage b, kBuckets ≤ b → h.buckets stage b = 0

theorem InRange.storeBucket {h : LatencyHistogram} (hout : InRange h) (stage : Stage) (b : Nat) :
    InRange (h.storeBucket stage b) := by
  intro other b' hb'
  dsimp only [LatencyHistogram.storeBucket]
  by_cases hs : other = stage
  · subst hs
    rw [Function.update_self]
    by_cases heq : b' = b
    · rw [heq, Function.update_self]
    · rw [Function.update_of_ne heq, hout other b' hb']
  · rw [Function.update_of_ne hs, hout other b' hb']

theorem inRange_step (w : Recorders) (e : RecorderEvent) (w' : Recorders) (h : InRange w.hist)
    (hs : w.step trunc e = some w') : InRange w'.hist := by
  intro stage b hb
  have hold := h stage b hb
  rcases step_cases hs with ⟨other, ns, -, rfl⟩ | ⟨i, fails, c, hist, c', -, -, hacc, rfl⟩ |
    ⟨-, -, rfl⟩ | ⟨d, hist, lines, d', -, -, hacc, rfl⟩
  · exact hold
  · have hcells := RecorderCall.access_buckets hacc stage b
    have hout : c'.onBucket stage b = 0 := by
      refine if_neg fun hon => ?_
      have hlt := bucketFor_lt c'.ns
      omega
    dsimp only
    omega
  · exact hold
  · dsimp only
    unfold Dumper.access at hacc
    cases hpc : d.pc with
    | bucket b' =>
      rw [hpc] at hacc
      cases hacc
      exact h.storeBucket d.stage b' stage b hb
    | _ =>
      rw [hpc] at hacc
      cases hacc
      exact hold

/-- Some accesses of the dump alone lead from one state to the other. -/
def Dumps (trunc : D → Nat) (w w' : Recorders) : Prop :=
  ∃ k, Machine.run (step trunc) w (List.replicate k .dumpAccess) = some w'

namespace Dumps

variable {w w₁ w₂ : Recorders}

theorem refl (w : Recorders) : Dumps trunc w w := ⟨0, rfl⟩

theorem trans (h : Dumps trunc w w₁) (h' : Dumps trunc w₁ w₂) : Dumps trunc w w₂ := by
  obtain ⟨k, hk⟩ := h
  obtain ⟨k', hk'⟩ := h'
  refine ⟨k + k', ?_⟩
  rw [List.replicate_add, Machine.run_append, hk]
  exact hk'

theorem head {d : Dumper} (hd : w.dumper = some d) {h : LatencyHistogram} {lines : List Line}
    {d' : Option Dumper} (hacc : d.access trunc w.hist = (h, lines, d'))
    (hrest : Dumps trunc { w with hist := h, lines := w.lines ++ lines, dumper := d' } w₂) :
    Dumps trunc w w₂ := by
  refine trans ⟨1, ?_⟩ hrest
  show (step trunc w .dumpAccess).bind some = _
  show ((w.dumper.map _).bind some) = _
  rw [hd, Option.map_some, Option.bind_some, hacc]

end Dumps

section Alone

variable {h : LatencyHistogram} {calls : List RecorderCall} {stage : Stage} {rest : List Stage}
  {lines : List Line}

/-- The dump at a stage, between two accesses. -/
def standing (h : LatencyHistogram) (calls : List RecorderCall) (lines : List Line) (stage : Stage)
    (rest : List Stage) (pc : DumpPc) : Recorders := ⟨h, calls, some ⟨stage, rest, pc⟩, lines⟩

/-- The walk from a bucket on. -/
def walkFrom (h : LatencyHistogram) (stage : Stage) (target b cum len : Nat) : Nat :=
  match OrderStatistic.firstOver (h.buckets stage) target cum (List.range' b len) with
  | some b => 1 <<< b
  | none => 1 <<< (kBuckets - 1)

theorem dumps_walk (n : Nat) (p : D) (walking : Nat → Nat → DumpPc) (done : Nat → DumpPc)
    (hacc : ∀ b cum, Dumper.access trunc h ⟨stage, rest, walking b cum⟩ =
      (h, [], some ⟨stage, rest, match Dumper.walk trunc h stage n p b cum with
        | .inl (b, cum) => walking b cum
        | .inr r => done r⟩))
    (len : Nat) {b cum : Nat} (hb : b + len + 1 = kBuckets) :
    Dumps trunc (standing h calls lines stage rest (walking b cum))
      (standing h calls lines stage rest
        (done (walkFrom h stage (trunc ((n : D) * p)) b cum (len + 1)))) := by
  induction len generalizing b cum with
  | zero =>
    refine Dumps.head rfl (hacc b cum) ?_
    have hend : ¬ b + 1 < kBuckets := by omega
    unfold Dumper.walk walkFrom
    rw [List.range'_succ, OrderStatistic.firstOver, List.append_nil]
    dsimp only
    rw [if_neg hend]
    split_ifs <;> exact Dumps.refl _
  | succ len ih =>
    refine Dumps.head rfl (hacc b cum) ?_
    have hgo : b + 1 < kBuckets := by omega
    unfold Dumper.walk walkFrom
    rw [List.range'_succ, OrderStatistic.firstOver, List.append_nil]
    dsimp only
    rw [if_pos hgo]
    split_ifs
    · exact Dumps.refl _
    · exact ih (by omega)

omit [OfScientific D] in
theorem walkFrom_zero (h : LatencyHistogram) (stage : Stage) (n : Nat) (p : D) :
    walkFrom h stage (trunc ((n : D) * p)) 0 0 kBuckets = h.percentileNs trunc stage n p := rfl

theorem dumps_buckets (len : Nat) {h : LatencyHistogram} {b : Nat} (hb : b + len + 1 = kBuckets)
    (hout : InRange h) (hzero : ∀ b' < b, h.buckets stage b' = 0) :
    Dumps trunc (standing h calls lines stage rest (.bucket b))
      (standing { h with buckets := Function.update h.buckets stage fun _ => 0 } calls lines stage
        rest .resetCount) := by
  induction len generalizing h b with
  | zero =>
    refine Dumps.head rfl rfl ?_
    rw [if_neg (by omega), List.append_nil]
    have hall : h.storeBucket stage b =
        { h with buckets := Function.update h.buckets stage fun _ => 0 } := by
      unfold LatencyHistogram.storeBucket
      congr 2
      funext b'
      by_cases heq : b' = b
      · rw [heq, Function.update_self]
      · rw [Function.update_of_ne heq]
        by_cases hlt : b' < b
        · exact hzero b' hlt
        · exact hout stage b' (by omega)
    rw [← hall]
    exact Dumps.refl _
  | succ len ih =>
    refine Dumps.head rfl rfl ?_
    rw [if_pos (by omega), List.append_nil]
    have hnext := ih (h := h.storeBucket stage b) (b := b + 1) (by omega) (hout.storeBucket stage b)
      (fun b' hb' => by
        dsimp only [LatencyHistogram.storeBucket]
        rw [Function.update_self]
        by_cases heq : b' = b
        · rw [heq, Function.update_self]
        · rw [Function.update_of_ne heq]
          exact hzero b' (by omega))
    have hidem : Function.update (h.storeBucket stage b).buckets stage (fun _ => 0) =
        Function.update h.buckets stage fun _ => 0 := Function.update_idem _ _ _
    rw [hidem] at hnext
    exact hnext

/-- The dump at the first of the stages that are left. -/
def before (h : LatencyHistogram) (calls : List RecorderCall) (lines : List Line)
    (left : List Stage) : Recorders := ⟨h, calls, Dumper.next left, lines⟩

theorem dumps_stage (hout : InRange h) :
    Dumps trunc (before h calls lines (stage :: rest))
      (before (dumpStage trunc (lines, h) stage).2 calls (dumpStage trunc (lines, h) stage).1
        rest) := by
  unfold dumpStage
  refine Dumps.head rfl rfl ?_
  rw [List.append_nil]
  by_cases hzero : h.count stage = 0
  · rw [if_pos hzero]
    show Dumps trunc ⟨h, calls, if h.count stage = 0 then _ else _, lines⟩ _
    rw [if_pos hzero]
    exact Dumps.refl _
  · rw [if_neg hzero]
    show Dumps trunc ⟨h, calls, if h.count stage = 0 then _ else _, lines⟩ _
    rw [if_neg hzero]
    have hwalk : ∀ p : D, walkFrom h stage (trunc ((h.count stage : D) * p)) 0 0 (39 + 1) =
        h.percentileNs trunc stage (h.count stage) p := walkFrom_zero h stage _
    refine Dumps.trans (dumps_walk (h.count stage) (0.50 : D) (.p50 _)
      (fun p50 => .p90 _ p50 0 0) (fun _ _ => rfl) 39 rfl) ?_
    refine Dumps.trans (dumps_walk (h.count stage) (0.90 : D) (.p90 _ _)
      (fun p90 => .p99 _ _ p90 0 0) (fun _ _ => rfl) 39 rfl) ?_
    refine Dumps.trans (dumps_walk (h.count stage) (0.99 : D) (.p99 _ _ _)
      (fun p99 => .max _ _ _ p99) (fun _ _ => rfl) 39 rfl) ?_
    rw [hwalk, hwalk, hwalk]
    refine Dumps.head rfl rfl ?_
    refine Dumps.trans (dumps_buckets 39 rfl hout nofun) ?_
    refine Dumps.head rfl rfl (Dumps.head rfl rfl ?_)
    rw [List.append_nil, List.append_nil]
    exact Dumps.refl _

theorem inRange_dumpStage (hout : InRange h) (lines : List Line) (stage : Stage) :
    InRange (dumpStage trunc (lines, h) stage).2 := by
  unfold dumpStage
  split_ifs
  · exact hout
  · intro other b hb
    show Function.update h.buckets stage (fun _ => 0) other b = 0
    by_cases hs : other = stage
    · rw [hs, Function.update_self]
    · rw [Function.update_of_ne hs]
      exact hout other b hb

theorem dumps_stages (hout : InRange h) (calls : List RecorderCall) (lines : List Line)
    (left : List Stage) :
    Dumps trunc (before h calls lines left)
      (before (left.foldl (dumpStage trunc) (lines, h)).2 calls
        (left.foldl (dumpStage trunc) (lines, h)).1 []) := by
  induction left generalizing h lines with
  | nil => exact Dumps.refl _
  | cons stage left ih =>
    refine Dumps.trans (dumps_stage hout) ?_
    exact ih (inRange_dumpStage hout lines stage) _

theorem foldl_dumpStage_lines (left : List Stage) (lines : List Line) (h : LatencyHistogram) :
    left.foldl (dumpStage trunc) (lines, h) =
      (lines ++ (left.foldl (dumpStage trunc) ([], h)).1,
        (left.foldl (dumpStage trunc) ([], h)).2) := by
  induction left generalizing h lines with
  | nil => rw [List.foldl_nil, List.foldl_nil, List.append_nil]
  | cons stage left ih =>
    have hround : ∀ l : List Line, dumpStage trunc (l, h) stage =
        (l ++ (dumpStage trunc ([], h) stage).1, (dumpStage trunc ([], h) stage).2) := by
      intro l
      unfold dumpStage
      dsimp only
      split_ifs
      · rw [List.append_nil]
      · rfl
    rw [List.foldl_cons, List.foldl_cons, hround lines, ih,
      ← Prod.eta (dumpStage trunc ([], h) stage), ih (dumpStage trunc ([], h) stage).1,
      List.append_assoc]

end Alone

/-- The samples of a stage among the calls. -/
def samplesOf (calls : List (Stage × Nat)) (stage : Stage) : Nat :=
  calls.countP fun p => decide (p.1 = stage)

theorem total_onCount_le (calls : List RecorderCall) (stage : Stage) :
    total (RecorderCall.onCount stage) calls ≤
      samplesOf (calls.map fun c => (c.stage, c.ns)) stage := by
  unfold samplesOf
  induction calls with
  | nil => exact Nat.le_refl 0
  | cons c calls ih =>
    have hone : c.onCount stage ≤ if c.stage = stage then 1 else 0 := by
      unfold RecorderCall.onCount
      split_ifs with h₁ h₂
      · exact Nat.le_refl 1
      · exact absurd h₁.1 h₂
      · exact Nat.zero_le 1
      · exact Nat.le_refl 0
    unfold total at ih ⊢
    rw [List.map_cons, List.sum_cons, List.map_cons, List.countP_cons]
    simp only [decide_eq_true_eq]
    omega

/-- Whatever the interleaving of the threads that record and the dumps: no sample is
reported in two lines or in a line and in the cells, and a maximum that a line shows is the
value of a call, or zero when none has raised the cell yet.  A dump that nothing interferes
with prints the lines of one thread and leaves its histogram. -/
theorem concurrentDumps_report (es : List RecorderEvent) (w : Recorders)
    (hrun : Machine.run (step trunc) (start init) es = some w) :
    (∀ stage, reported w.lines stage ≤ samplesOf (callsOf es) stage ∧
      (w.dumper = none →
        reported w.lines stage + w.hist.count stage ≤ samplesOf (callsOf es) stage) ∧
      ∀ l ∈ w.lines, l.stage = stageName stage → l.max = 0 ∨ (stage, l.max) ∈ callsOf es) ∧
    (w.dumper = none → ∃ k,
      Machine.run (step trunc) w (.dump :: List.replicate k .dumpAccess) =
        some { w with
          hist := (w.hist.dump trunc).2
          lines := w.lines ++ (w.hist.dump trunc).1 }) := by
  have hcalls : w.calls.map (fun c => (c.stage, c.ns)) = callsOf es := calls_run hrun
  refine ⟨fun stage => ?_, fun hnone => ?_⟩
  · have hfair : Fair w stage :=
      Machine.run_inv_all (I := fun w => Fair w stage) fair_step (Fair.start stage) hrun
    have hle := hfair.reported
    have htotal := total_onCount_le w.calls stage
    rw [hcalls] at htotal
    refine ⟨by omega, fun hnone => ?_, fun l hl hls => ?_⟩
    · have hheld : held w.dumper w.hist stage = w.hist.count stage := by
        rw [hnone]
        exact held_next [] w.hist stage
      omega
    · refine (hfair.lines_made l hl hls).imp_right fun ⟨c, hc, hcs, hcn⟩ => ?_
      rw [← hcalls]
      exact List.mem_map.mpr ⟨c, hc, by rw [hcs, hcn]⟩
  · have hout : InRange w.hist :=
      Machine.run_inv_all (I := fun w => InRange w.hist) inRange_step (fun _ _ _ => rfl) hrun
    obtain ⟨k, hk⟩ : Dumps trunc _ _ := dumps_stages hout w.calls w.lines stages
    refine ⟨k, ?_⟩
    have hdump : w.step trunc .dump = some (before w.hist w.calls w.lines stages) := by
      unfold step
      rw [hnone]
      rfl
    rw [Machine.run_cons, hdump, Option.bind_some, hk, foldl_dumpStage_lines]
    have hend : before (w.hist.dump trunc).2 w.calls (w.lines ++ (w.hist.dump trunc).1) [] =
        { w with
          hist := (w.hist.dump trunc).2
          lines := w.lines ++ (w.hist.dump trunc).1 } := by
      unfold before
      rw [hnone]
      rfl
    exact congrArg some hend

/-- Two threads record while a dump goes on. -/
def dumpBetween : List RecorderEvent :=
  [.record .wsRecvToRingPush 700, .access 0 false, .access 0 false, .dump,
    .record .wsRecvToRingPush 30, .dumpAccess, .access 1 false, .access 1 false, .dumpAccess,
    .access 0 false, .access 0 false, .access 1 false]

theorem concurrentDumps_report_two :
    ∃ w, Machine.run (step Double.toUInt64) (start init) dumpBetween = some w ∧
      reported w.lines .wsRecvToRingPush ≤ 2 := by
  obtain ⟨w, hrun, -⟩ : ∃ w, Machine.run (step Double.toUInt64) (start init) dumpBetween = some w ∧
      True := Machine.exists_of_elim (by decide)
  exact ⟨w, hrun, ((concurrentDumps_report dumpBetween w hrun).1 .wsRecvToRingPush).1⟩

end Recorders
end HoloMarket
