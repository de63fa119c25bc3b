import Mathlib.Algebra.Field.Rat
import Mathlib.Algebra.Order.Ring.Rat
import HoloMarket.Lib.Machine
import HoloMarket.Math.SignalRing

/-!
# The signal history

The ring of `CudaPipeline` with its two readers: `last_signal` on another thread,
which copies a slot field by field while records are published, and
`build_cluster_window_and_fit` on the pipeline thread itself.
-/

namespace HoloMarket

open SharedCells

variable {K : Type}

def kClusterWindow : Nat := 128

def kClusterRefitEvery : Nat := 10

/-! ## The two threads -/

/-- The four features of a record. -/
def clusterRow [IntCast K] (rec : SignalRecord K) : List K :=
  [rec.yangMillsAction, rec.maxCurl, rec.meanCurl, (rec.floerHF1 : K)]

/-- `build_cluster_window_and_fit` up to the upload: the index it loads, and the
rows unless it returns early. -/
def buildClusterWindow [IntCast K] (m : HostMemory K) (lastRefit : Nat) :
    Option (Nat × List (List K)) :=
  let total : Nat := m .signalWriteIdx
  if total < kClusterWindow then none
  else if total - lastRefit < kClusterRefitEvery then none
  else some (total, (List.range kClusterWindow).map fun i =>
    clusterRow (m.slot ((total - kClusterWindow + i) % kSignalHistoryLen)))

/-- A caller of `last_signal`: outside, or past the load of `w` with the rest of
the copy still to make. -/
inductive ReaderPc (K : Type) where
  | idle
  | reading (w : Nat) (p : Reads (HostCell.Val K) (SignalRecord K))

/-- A window that was uploaded and fitted, with the ticks published at that moment. -/
structure ClusterFit (K : Type) where
  published : List (Tick K)
  total : Nat
  rows : List (List K)

/-- The pipeline thread, with the windows it has fitted, and a reader. -/
structure SignalThreads (K : Type) where
  mem : HostMemory K
  pipeline : RecordPc K
  /-- `record_signal` has returned and the window comes next. -/
  fitting : Bool
  lastRefit : Nat
  fits : List (ClusterFit K)
  published : List (Tick K)
  reader : ReaderPc K

inductive SignalEvent (K : Type) where
  | tick (t : Tick K)
  | pipeline (n : Nat)
  | reader

namespace ReaderPc

variable [Zero K]

/-- The next step of the reader; a copy that is done is followed by a new call. -/
def step (m : HostMemory K) : ReaderPc K → ReaderPc K
  | .idle => .reading (m .signalWriteIdx) (readSlot (readIdx (m .signalWriteIdx)))
  | .reading _ (.done _) => .idle
  | .reading w (.read c k) => .reading w (k (m c))

/-- The call that loaded `w` has its record. -/
def Returned (w : Nat) : ReaderPc K → Prop
  | .reading w' (.done _) => w' = w
  | _ => False

instance (w : Nat) : ∀ pc : ReaderPc K, Decidable (pc.Returned w)
  | .idle => inferInstanceAs (Decidable False)
  | .reading _ (.done _) => inferInstanceAs (Decidable (_ = _))
  | .reading _ (.read _ _) => inferInstanceAs (Decidable False)

omit [Zero K] in
theorem exists_of_returned {w : Nat} (pc : ReaderPc K) (h : pc.Returned w) :
    ∃ r, pc = .reading w (.done r) := by
  cases pc with
  | idle => exact h.elim
  | reading w' p =>
    cases p with
    | done r =>
      obtain rfl : w' = w := h
      exact ⟨r, rfl⟩
    | read c k => exact h.elim

end ReaderPc

namespace SignalThreads

def init [Zero K] (edgeSrc edgeDst : Nat → Int) : SignalThreads K where
  mem := .init edgeSrc edgeDst
  pipeline := .idle
  fitting := false
  lastRefit := 0
  fits := []
  published := []
  reader := .idle

section
variable [Zero K] [Add K] [Div K] [IntCast K] [LT K] [DecidableLT K]

/-- The window after a published record. -/
def fit (s : SignalThreads K) : SignalThreads K :=
  match buildClusterWindow s.mem s.lastRefit with
  | none => { s with fitting := false }
  | some (total, rows) =>
    { s with
      fitting := false
      lastRefit := total
      fits := s.fits ++ [⟨s.published, total, rows⟩] }

def step (s : SignalThreads K) : SignalEvent K → Option (SignalThreads K)
  | .tick t =>
    match s.pipeline, s.fitting with
    | .idle, false => some { s with pipeline := .runOnce t }
    | _, _ => none
  | .pipeline n =>
    if s.fitting then some s.fit
    else
      (s.pipeline.step s.mem n).map fun (m, pc, ticks) =>
        { s with
          mem := m
          pipeline := pc
          fitting := !ticks.isEmpty
          published := s.published ++ ticks }
  | .reader => some { s with reader := s.reader.step s.mem }

end
end SignalThreads

/-! ## What the slots hold -/

variable [Zero K] [Add K] [Div K] [IntCast K] [LT K] [DecidableLT K]

/-- The `w`-th published record, the default record for `w = 0`. -/
def recordAt (published : List (Tick K)) : Nat → SignalRecord K
  | 0 => .blank
  | j + 1 => (published[j]?.map Tick.record).getD .blank

theorem recordAt_append {published : List (Tick K)} {w : Nat} (hw : w ≤ published.length)
    (ticks : List (Tick K)) : recordAt (published ++ ticks) w = recordAt published w := by
  cases w with
  | zero => rfl
  | succ j =>
    show ((published ++ ticks)[j]?.map Tick.record).getD .blank = _
    rw [List.getElem?_append_left (by omega)]
    rfl

/-- The ring holds the last 1023 records, and behind the first round the slots
ahead of the index are blank. -/
structure History (m : HostMemory K) (published : List (Tick K)) : Prop where
  recent : ∀ j t, published[j]? = some t → published.length ≤ j + 1023 →
    m.slot (j % kSignalHistoryLen) = t.record
  ahead : ∀ i, published.length < i → i < kSignalHistoryLen → m.slot i = .blank

theorem RecordPc.Step.idle_of_published {m m' : HostMemory K} {pc pc' : RecordPc K}
    {ticks : List (Tick K)} (hs : pc.Step m m' pc' ticks) (ht : ticks ≠ []) : pc' = .idle := by
  cases hs with
  | published t => rfl
  | _ => exact absurd rfl ht

namespace History

variable {m m' : HostMemory K} {pc pc' : RecordPc K} {published ticks : List (Tick K)}

theorem init (edgeSrc edgeDst : Nat → Int) :
    History (HostMemory.init edgeSrc edgeDst : HostMemory K) [] where
  recent _ _ ht := nomatch ht
  ahead _ _ _ := rfl

/-- The slot under assignment is the one of the next record. -/
theorem not_storesTo (hp : Published m pc published) {i : Nat}
    (hi : published.length % kSignalHistoryLen ≠ i) : ¬ pc.StoresTo m i := by
  intro hto
  unfold RecordPc.StoresTo at hto
  split at hto
  · rw [hp.idx] at hto
    exact hi hto
  · exact hto

theorem step (hp : Published m pc published) (h : History m published)
    (hs : pc.Step m m' pc' ticks) : History m' (published ++ ticks) := by
  by_cases hpub : ∃ t, pc = .publish t
  · obtain ⟨t, rfl⟩ := hpub
    have hnext := hp.step hs
    have hslot : ∀ i, m'.slot i = m.slot i := fun i => hs.slot hp.progress id
    cases hs
    have hlen : (published ++ [t]).length = published.length + 1 := List.length_append
    refine ⟨fun j u hu hj => ?_, fun i hi hlt => ?_⟩
    · rw [hlen] at hj
      by_cases hlast : j = published.length
      · have hnewest := hnext.newest
        rw [hlen, readIdx_succ, List.getLast?_concat] at hnewest
        subst hlast
        rw [List.getElem?_concat_length] at hu
        rw [hnewest, ← Option.some.inj hu]
        rfl
      · have hjlt := (List.getElem?_eq_some_iff.mp hu).1
        rw [List.getElem?_append_left (by omega)] at hu
        rw [hslot]
        exact h.recent j u hu (by omega)
    · rw [hslot]
      exact h.ahead i (by omega) hlt
  · have hticks : ticks = [] := by
      cases hs with
      | published t => exact absurd ⟨t, rfl⟩ hpub
      | _ => rfl
    subst hticks
    rw [List.append_nil]
    refine ⟨fun j t ht hj => ?_, fun i hi hlt => ?_⟩
    · have hjlt := (List.getElem?_eq_some_iff.mp ht).1
      rw [hs.slot hp.progress (not_storesTo hp ?_)]
      · exact h.recent j t ht hj
      · unfold kSignalHistoryLen
        omega
    · rw [hs.slot hp.progress (not_storesTo hp ?_)]
      · exact h.ahead i hi hlt
      · unfold kSignalHistoryLen at hlt ⊢
        omega

/-- While fewer than 1023 records follow it, the `w`-th record is in its slot. -/
theorem slot_readIdx (h : History m published) {w : Nat} (hw : w ≤ published.length)
    (hlt : published.length < w + 1023) : m.slot (readIdx w) = recordAt published w := by
  cases w with
  | zero => exact h.ahead 1023 (by omega) (by decide)
  | succ j =>
    have hj : published[j]? = some published[j] := List.getElem?_eq_getElem (by omega)
    rw [readIdx_succ, h.recent j _ hj (by omega)]
    show _ = (published[j]?.map Tick.record).getD .blank
    rw [hj]
    rfl

end History

theorem readIdx_ne_of_lt {n w : Nat} (hw : w ≤ n) (hlt : n < w + 1023) :
    n % kSignalHistoryLen ≠ readIdx w := by
  simp only [readIdx, kSignalHistoryLen]
  omega

/-! ## Windows -/

/-- The rows of the last `k_cluster_window` records, oldest first. -/
def windowOf (published : List (Tick K)) : List (List K) :=
  (published.drop (published.length - kClusterWindow)).map fun t => clusterRow t.record

/-- `build_cluster_window_and_fit` returns early, or copies the last records published. -/
theorem History.buildClusterWindow {m : HostMemory K} {published : List (Tick K)}
    (h : History m published) (hidx : m .signalWriteIdx = published.length) (lastRefit : Nat) :
    HoloMarket.buildClusterWindow m lastRefit =
      if published.length < kClusterWindow ∨ published.length - lastRefit < kClusterRefitEvery
      then none else some (published.length, windowOf published) := by
  unfold HoloMarket.buildClusterWindow
  rw [hidx]
  dsimp only
  by_cases hfew : published.length < kClusterWindow
  · rw [if_pos hfew, if_pos (Or.inl hfew)]
  by_cases hsoon : published.length - lastRefit < kClusterRefitEvery
  · rw [if_neg hfew, if_pos hsoon, if_pos (Or.inr hsoon)]
  rw [if_neg hfew, if_neg hsoon, if_neg (not_or.mpr ⟨hfew, hsoon⟩)]
  refine congrArg (fun rows => some (published.length, rows)) ?_
  unfold windowOf
  refine List.ext_getElem ?_ fun i h₁ h₂ => ?_
  · rw [List.length_map, List.length_map, List.length_range, List.length_drop]
    omega
  · rw [List.length_map, List.length_range] at h₁
    have hlt : published.length - kClusterWindow + i < published.length := by omega
    rw [List.getElem_map, List.getElem_map, List.getElem_range, List.getElem_drop,
      h.recent _ _ (List.getElem?_eq_getElem hlt) (by unfold kClusterWindow at h₁ ⊢; omega)]

/-! ## Every interleaving -/

namespace SignalThreads

/-- What a reader past the load of `w` will return. -/
def Reading (s : SignalThreads K) : ReaderPc K → Prop
  | .idle => True
  | .reading w p =>
    w ≤ s.published.length ∧
    (p.Within (fun c => ∃ f, c = .signalHistory (readIdx w) f) fun _ => True) ∧
    (s.published.length < w + 1023 → p.eval s.mem = recordAt s.published w)

/-- Every window was that of the last records published when it was fitted. -/
def FitsOk (s : SignalThreads K) : Prop :=
  ∀ x ∈ s.fits, x.published <+: s.published ∧ kClusterWindow ≤ x.published.length ∧
    x.total = x.published.length ∧ x.rows = windowOf x.published

structure Ok (s : SignalThreads K) : Prop where
  published : Published s.mem s.pipeline s.published
  history : History s.mem s.published
  /-- Behind a publication the thread has left `record_signal`. -/
  fitting : s.fitting = true → s.pipeline = .idle
  reading : s.Reading s.reader
  fits : s.FitsOk

variable {s s' : SignalThreads K}

theorem init_ok (edgeSrc edgeDst : Nat → Int) : Ok (init edgeSrc edgeDst : SignalThreads K) where
  published := .init edgeSrc edgeDst
  history := .init edgeSrc edgeDst
  fitting h := nomatch h
  reading := trivial
  fits _ hx := nomatch hx

theorem Ok.tick {t : Tick K} (h : s.Ok) (hs : s.step (.tick t) = some s') : s'.Ok := by
  unfold SignalThreads.step at hs
  dsimp only at hs
  split at hs
  · next hpc hfit =>
    cases hs
    have hpub := h.published
    rw [hpc] at hpub
    exact ⟨hpub.runOnce t, h.history, fun hf => absurd (hfit.symm.trans hf) (by decide),
      h.reading, h.fits⟩
  · cases hs

theorem Ok.buildClusterWindow (h : s.Ok) : HoloMarket.buildClusterWindow s.mem s.lastRefit =
    if s.published.length < kClusterWindow ∨
      s.published.length - s.lastRefit < kClusterRefitEvery
    then none else some (s.published.length, windowOf s.published) :=
  h.history.buildClusterWindow h.published.idx s.lastRefit

theorem Ok.fit_eq (h : s.Ok) : s.fit =
    if s.published.length < kClusterWindow ∨
      s.published.length - s.lastRefit < kClusterRefitEvery
    then { s with fitting := false }
    else { s with
      fitting := false
      lastRefit := s.published.length
      fits := s.fits ++ [⟨s.published, s.published.length, windowOf s.published⟩] } := by
  unfold SignalThreads.fit
  rw [h.buildClusterWindow]
  by_cases hearly : s.published.length < kClusterWindow ∨
      s.published.length - s.lastRefit < kClusterRefitEvery
  · rw [if_pos hearly, if_pos hearly]
  · rw [if_neg hearly, if_neg hearly]

theorem Ok.fit (h : s.Ok) : s.fit.Ok := by
  rw [h.fit_eq]
  split_ifs with hearly
  · exact ⟨h.published, h.history, fun hf => absurd hf Bool.false_ne_true, h.reading, h.fits⟩
  · refine ⟨h.published, h.history, fun hf => absurd hf Bool.false_ne_true, h.reading,
      fun x hx => ?_⟩
    rcases List.mem_append.mp hx with hx | hx
    · exact h.fits x hx
    · rw [List.mem_singleton.mp hx]
      dsimp only
      exact ⟨List.prefix_refl _, Nat.le_of_not_lt (not_or.mp hearly).1, rfl, rfl⟩

/-- A step of `record_signal` spares the slot of a reader that is not too far
behind. -/
theorem Reading.pipeline {m : HostMemory K} {pc : RecordPc K} {ticks : List (Tick K)}
    (h : s.Reading s.reader) (hp : Published s.mem s.pipeline s.published)
    (hs : s.pipeline.Step s.mem m pc ticks) (f : Bool) :
    Reading { s with mem := m, pipeline := pc, fitting := f, published := s.published ++ ticks }
      s.reader := by
  cases hr : s.reader with
  | idle => trivial
  | reading w p =>
    rw [hr] at h
    obtain ⟨hw, hwithin, heval⟩ := h
    have hlen : (s.published ++ ticks).length = s.published.length + ticks.length :=
      List.length_append
    refine ⟨by rw [hlen]; omega, hwithin, fun hlt => ?_⟩
    have hlt' : s.published.length < w + 1023 := by
      rw [hlen] at hlt
      omega
    have hspared := History.not_storesTo hp (readIdx_ne_of_lt hw hlt')
    rw [recordAt_append hw, ← heval hlt']
    refine hwithin.eval_congr fun c hc => ?_
    obtain ⟨field, rfl⟩ := hc
    exact hs.history hp.progress hspared field

theorem Ok.pipeline {n : Nat} (h : s.Ok) (hs : s.step (.pipeline n) = some s') : s'.Ok := by
  unfold SignalThreads.step at hs
  dsimp only at hs
  by_cases hfit : s.fitting = true
  · rw [if_pos hfit] at hs
    cases hs
    exact h.fit
  · rw [if_neg hfit] at hs
    obtain ⟨⟨m, pc, ticks⟩, hstep, rfl⟩ := Option.map_eq_some_iff.mp hs
    have hsound := RecordPc.step_sound hstep
    refine ⟨h.published.step hsound, h.history.step h.published hsound, fun hf => ?_,
      h.reading.pipeline h.published hsound _, fun x hx => ?_⟩
    · exact hsound.idle_of_published fun hnil => by
        subst hnil
        exact absurd hf Bool.false_ne_true
    · obtain ⟨hsub, hfit⟩ := h.fits x hx
      exact ⟨hsub.trans (List.prefix_append _ _), hfit⟩

theorem Ok.reader (h : s.Ok) (hs : s.step .reader = some s') : s'.Ok := by
  cases hs
  refine ⟨h.published, h.history, h.fitting, ?_, h.fits⟩
  have hreading := h.reading
  cases hr : s.reader with
  | idle =>
    show s.Reading (.reading (s.mem .signalWriteIdx) _)
    rw [h.published.idx]
    refine ⟨Nat.le_refl _, readSlot_within _, fun hlt => ?_⟩
    rw [readSlot_eval]
    exact h.history.slot_readIdx (Nat.le_refl _) hlt
  | reading w p =>
    rw [hr] at hreading
    cases p with
    | done r => trivial
    | read c k =>
      obtain ⟨hw, hwithin, heval⟩ := hreading
      exact ⟨hw, hwithin.2 _, heval⟩

theorem Ok.step {e : SignalEvent K} (h : s.Ok) (hs : s.step e = some s') : s'.Ok := by
  cases e with
  | tick t => exact h.tick hs
  | pipeline n => exact h.pipeline hs
  | reader => exact h.reader hs

end SignalThreads

/-! ## Ticks one after the other -/

namespace RecordPc

omit [Zero K] [Add K] [Div K] [IntCast K] [LT K] [DecidableLT K]

/-- The tick under way. -/
def current : RecordPc K → Option (Tick K)
  | .idle => none
  | .copy t _ | .loadIdx t | .slot t _ | .publish t => some t

/-- The steps up to its publication. -/
def stepsLeft : RecordPc K → Nat
  | .idle => 0
  | .copy _ todo => todo.flatten.length + todo.length + SignalField.all.length + 4
  | .loadIdx _ => SignalField.all.length + 3
  | .slot _ todo => todo.length + 2
  | .publish _ => 1

end RecordPc

/-- `record_signal` can always go on, and comes closer to the publication. -/
theorem RecordPc.step_zero {pc : RecordPc K} {t : Tick K} (h : pc.current = some t)
    (m : HostMemory K) : ∃ m' pc' ticks, pc.step m 0 = some (m', pc', ticks) ∧
      (ticks = [] ∧ pc'.current = some t ∧ pc.stepsLeft = pc'.stepsLeft + 1 ∨
        ticks = [t] ∧ pc' = .idle ∧ pc.stepsLeft = 1) := by
  cases pc with
  | idle => cases h
  | copy t' todo =>
    cases h
    cases todo with
    | nil => exact ⟨_, _, _, rfl, Or.inl ⟨rfl, rfl, by simp [stepsLeft]⟩⟩
    | cons stage todo =>
      cases stage with
      | nil => exact ⟨_, _, _, rfl, Or.inl ⟨rfl, rfl, by simp [stepsLeft]; omega⟩⟩
      | cons a stage => exact ⟨_, _, _, rfl, Or.inl ⟨rfl, rfl, by simp [stepsLeft]; omega⟩⟩
  | loadIdx t' =>
    cases h
    exact ⟨_, _, _, rfl, Or.inl ⟨rfl, rfl, by simp [stepsLeft, Tick.slotStores]⟩⟩
  | slot t' todo =>
    cases h
    cases todo with
    | nil => exact ⟨_, _, _, rfl, Or.inl ⟨rfl, rfl, rfl⟩⟩
    | cons a todo => exact ⟨_, _, _, rfl, Or.inl ⟨rfl, rfl, rfl⟩⟩
  | publish t' =>
    cases h
    exact ⟨_, _, _, rfl, Or.inr ⟨rfl, rfl, rfl⟩⟩

namespace SignalThreads

variable {s : SignalThreads K} {t : Tick K}

theorem run_record (hfit : s.fitting = false) (hcur : s.pipeline.current = some t) :
    ∃ m, Machine.run step s (List.replicate s.pipeline.stepsLeft (.pipeline 0)) =
      some { s with
        mem := m
        pipeline := .idle
        fitting := true
        published := s.published ++ [t] } := by
  generalize hn : s.pipeline.stepsLeft = n
  induction n generalizing s with
  | zero =>
    obtain ⟨_, _, _, _, ⟨_, _, hleft⟩ | ⟨_, _, hleft⟩⟩ := RecordPc.step_zero hcur s.mem <;> omega
  | succ n ih =>
    obtain ⟨m, pc, ticks, hstep, hnext⟩ := RecordPc.step_zero hcur s.mem
    have hone : step s (.pipeline 0) =
        some { s with
          mem := m
          pipeline := pc
          fitting := !ticks.isEmpty
          published := s.published ++ ticks } := by
      unfold step
      dsimp only
      rw [if_neg (by rw [hfit]; decide), hstep]
      rfl
    rw [List.replicate_succ, Machine.run_cons, hone, Option.bind_some]
    rcases hnext with ⟨rfl, hcur', hleft⟩ | ⟨rfl, rfl, hleft⟩
    · obtain ⟨m', hrun⟩ := ih (s := { s with
          mem := m
          pipeline := pc
          fitting := false
          published := s.published ++ [] }) rfl hcur' (by dsimp only; omega)
      refine ⟨m', hrun.trans ?_⟩
      rw [List.append_nil]
    · obtain rfl : n = 0 := by omega
      exact ⟨m, rfl⟩

/-- Ready for the next tick after `k` of them, of which the 128th was fitted. -/
structure After (s : SignalThreads K) (k : Nat) : Prop where
  ok : s.Ok
  pipeline : s.pipeline = .idle
  fitting : s.fitting = false
  length : s.published.length = k
  lastRefit : k < kClusterWindow → s.lastRefit = 0
  fits : k = kClusterWindow → ∃ x ∈ s.fits, x.published = s.published

/-- The events of one tick. -/
def tickEvents (t : Tick K) : List (SignalEvent K) :=
  .tick t :: List.replicate (RecordPc.runOnce t).stepsLeft (.pipeline 0) ++ [.pipeline 0]

theorem After.tick {k : Nat} (h : s.After k) (hk : k < kClusterWindow) (ht : 0 < t.sig.nEdges) :
    ∃ s', Machine.run step s (tickEvents t) = some s' ∧ s'.After (k + 1) := by
  have hbegin : step s (.tick t) = some { s with pipeline := .runOnce t } := by
    unfold step
    rw [h.pipeline, h.fitting]
  have hcur : (RecordPc.runOnce t).current = some t := by
    unfold RecordPc.runOnce
    rw [if_neg (by omega)]
    rfl
  obtain ⟨m, hrecord⟩ := run_record (s := { s with pipeline := .runOnce t }) h.fitting hcur
  have hrun : Machine.run step s (.tick t :: List.replicate (RecordPc.runOnce t).stepsLeft
      (.pipeline 0)) = some { s with
        mem := m
        pipeline := .idle
        fitting := true
        published := s.published ++ [t] } := by
    rw [Machine.run_cons, hbegin, Option.bind_some]
    exact hrecord
  have hok := Machine.run_inv_of_forall (P := fun _ => True) (fun _ _ _ h _ hs => h.step hs) h.ok
    (fun _ _ => trivial) hrun
  have hlen : (s.published ++ [t]).length = k + 1 := by
    rw [List.length_append, h.length, List.length_singleton]
  unfold tickEvents
  rw [Machine.run_concat, hrun]
  refine ⟨_, rfl, ?_⟩
  have hfit := hok.fit
  rw [hok.fit_eq] at hfit ⊢
  dsimp only at hfit ⊢
  rw [hlen, h.lastRefit hk] at hfit ⊢
  by_cases hlast : k + 1 = kClusterWindow
  · rw [if_neg (by rw [hlast]; decide)] at hfit ⊢
    exact ⟨hfit, rfl, rfl, hlen, fun hlt => absurd hlast (Nat.ne_of_lt hlt),
      fun _ => ⟨_, List.mem_append_right _ List.mem_cons_self, rfl⟩⟩
  · have hlt : k + 1 < kClusterWindow := Nat.lt_of_le_of_ne hk hlast
    rw [if_pos (Or.inl hlt)] at hfit ⊢
    exact ⟨hfit, rfl, rfl, hlen, fun _ => rfl, fun heq => absurd heq hlast⟩

theorem After.ticks {k : Nat} (h : s.After k) {ts : List (Tick K)}
    (hts : ∀ t ∈ ts, 0 < t.sig.nEdges) (hlen : k + ts.length ≤ kClusterWindow) :
    ∃ s', Machine.run step s (ts.flatMap tickEvents) = some s' ∧ s'.After (k + ts.length) := by
  induction ts generalizing s k with
  | nil => exact ⟨s, rfl, h⟩
  | cons t ts ih =>
    rw [List.length_cons] at hlen ⊢
    obtain ⟨s₁, hrun₁, hafter₁⟩ := h.tick (by omega) (hts t List.mem_cons_self)
    obtain ⟨s', hrun, hafter⟩ :=
      ih hafter₁ (fun t' ht' => hts t' (List.mem_cons_of_mem t ht')) (by omega)
    refine ⟨s', ?_, by rwa [Nat.add_right_comm, Nat.add_assoc] at hafter⟩
    rw [List.flatMap_cons, Machine.run_append, hrun₁, Option.bind_some]
    exact hrun

theorem after_init (edgeSrc edgeDst : Nat → Int) :
    After (init edgeSrc edgeDst : SignalThreads K) 0 :=
  ⟨init_ok edgeSrc edgeDst, rfl, rfl, rfl, fun _ => rfl, nofun⟩

end SignalThreads

/-- In every interleaving, a call of `last_signal` that loaded `w` and whose last
field is read before the 1023rd further publication returns the `w`-th published
record.  Every window that was fitted is that of the last 128 records published at
the time of the fit, oldest first, and a window is built whenever there are 128 and
10 more than at the last fit. -/
theorem last_signal_not_stale (edgeSrc edgeDst : Nat → Int) {es : List (SignalEvent K)}
    {s : SignalThreads K}
    (hrun : Machine.run SignalThreads.step (SignalThreads.init edgeSrc edgeDst) es = some s) :
    (∀ w r, s.reader = .reading w (.done r) → s.published.length < w + 1023 →
      w ≤ s.published.length ∧ r = recordAt s.published w) ∧
    (∀ x ∈ s.fits, x.published <+: s.published ∧ kClusterWindow ≤ x.published.length ∧
      x.total = x.published.length ∧ x.rows = windowOf x.published) ∧
    buildClusterWindow s.mem s.lastRefit =
      if s.published.length < kClusterWindow ∨
        s.published.length - s.lastRefit < kClusterRefitEvery
      then none else some (s.published.length, windowOf s.published) := by
  have hok : s.Ok := Machine.run_inv_of_forall (P := fun _ => True)
    (fun _ _ _ h _ hs => h.step hs) (SignalThreads.init_ok edgeSrc edgeDst)
    (fun _ _ => trivial) hrun
  refine ⟨fun w r hr hlt => ?_, hok.fits, hok.buildClusterWindow⟩
  have hreading := hok.reading
  rw [hr] at hreading
  exact ⟨hreading.1, hreading.2.2 hlt⟩

def sampleTick (ts : Nat) (flow : ℚ) : Tick ℚ where
  sig := { harmonicFlow := fun _ => flow, curlMagnitude := fun _ => 1, yangMillsAction := 100,
           nActiveLoops := 1, nEdges := 1, signalTsNs := ts }
  edgeSrc := fun _ => 0
  edgeDst := fun _ => 1
  nHarmonicDims := 0
  floer := .blank

/-- The record of one tick is read while the next one is assigned to its own slot. -/
def readDuringTick : List (SignalEvent ℚ) :=
  .tick (sampleTick 1 20) :: List.replicate 29 (.pipeline 0) ++ List.replicate 10 .reader ++
    [.tick (sampleTick 2 30)] ++ List.replicate 20 (.pipeline 0) ++ List.replicate 9 .reader

/-- As many ticks as fill a window. -/
def windowTicks : List (Tick ℚ) := (List.range kClusterWindow).map fun i => sampleTick i 20

theorem last_signal_window :
    (∃ s, Machine.run SignalThreads.step (SignalThreads.init (fun _ => 0) fun _ => 0)
        readDuringTick = some s ∧
      s.published.length = 1 ∧ ∃ r, s.reader = .reading 1 (.done r) ∧
        r = recordAt s.published 1) ∧
    ∃ s, Machine.run SignalThreads.step (SignalThreads.init (fun _ => 0) fun _ => 0)
        (windowTicks.flatMap SignalThreads.tickEvents) = some s ∧
      s.published.length = 128 ∧ ∃ x ∈ s.fits, x.total = 128 ∧ x.rows = windowOf s.published := by
  constructor
  · obtain ⟨s, hs, hone, hread⟩ := Machine.exists_of_elim
      (o := Machine.run SignalThreads.step (SignalThreads.init (fun _ => 0) fun _ => 0)
        readDuringTick)
      (P := fun s => s.published.length = 1 ∧ s.reader.Returned 1) (by decide +kernel)
    obtain ⟨r, hr⟩ := s.reader.exists_of_returned hread
    have hmain := (last_signal_not_stale _ _ hs).1 1 r hr (by rw [hone]; decide)
    exact ⟨s, hs, hone, r, hr, hmain.2⟩
  · have hlen : windowTicks.length = kClusterWindow := by
      rw [windowTicks, List.length_map, List.length_range]
    have hedges : ∀ t ∈ windowTicks, 0 < t.sig.nEdges := by
      intro t ht
      obtain ⟨i, -, rfl⟩ := List.mem_map.mp ht
      exact Int.one_pos
    obtain ⟨s, hs, hafter⟩ := (SignalThreads.after_init (K := ℚ) (fun _ => 0) fun _ => 0).ticks
      hedges (by omega)
    rw [hlen, Nat.zero_add] at hafter
    obtain ⟨x, hx, hpub⟩ := hafter.fits rfl
    obtain ⟨-, -, htotal, hrows⟩ := (last_signal_not_stale _ _ hs).2.1 x hx
    rw [hpub] at htotal hrows
    exact ⟨s, hs, hafter.length, x, hx, htotal.trans hafter.length, hrows⟩

end HoloMarket
