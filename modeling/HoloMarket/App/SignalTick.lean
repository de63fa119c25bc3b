import Mathlib.Algebra.Field.Rat
import Mathlib.Algebra.Order.Ring.Rat
import HoloMarket.App.MainLive
import HoloMarket.Math.SignalRing

/-!
# The tick behind a routed signal

The record of a signal and the arrays it is routed with are published apart.
They belong to the same tick as long as the pipeline thread stores nothing into
the arrays while the main loop has a new record in its hands.
-/

namespace HoloMarket

open SharedCells

variable {K : Type}

/-! ## What keeps a run quiet -/

namespace MainPc

/-- The loop has loaded the index of a new record and is not done with it. -/
def Holds (fresh : Nat → Prop) : MainPc K → Prop
  | .sleep => False
  | .lastSignal writeIdx _ => fresh writeIdx
  | .lastTopology _ _ _ => True
  | .route _ _ => True

instance (fresh : Nat → Prop) [DecidablePred fresh] : ∀ pc : MainPc K, Decidable (pc.Holds fresh)
  | .sleep => inferInstanceAs (Decidable False)
  | .lastSignal writeIdx _ => inferInstanceAs (Decidable (fresh writeIdx))
  | .lastTopology _ _ _ => inferInstanceAs (Decidable True)
  | .route _ _ => inferInstanceAs (Decidable True)

/-- The slot that the poll copies. -/
def slotRead : MainPc K → Option Nat
  | .lastSignal writeIdx _ => some (readIdx writeIdx)
  | _ => none

def AtLoad : MainPc K → Prop
  | .sleep => True
  | _ => False

instance : ∀ pc : MainPc K, Decidable pc.AtLoad
  | .sleep => inferInstanceAs (Decidable True)
  | .lastSignal _ _ => inferInstanceAs (Decidable False)
  | .lastTopology _ _ _ => inferInstanceAs (Decidable False)
  | .route _ _ => inferInstanceAs (Decidable False)

end MainPc

namespace RecordPc

def Copying : RecordPc K → Prop
  | .copy _ _ => True
  | _ => False

instance : ∀ pc : RecordPc K, Decidable pc.Copying
  | .idle => inferInstanceAs (Decidable False)
  | .copy _ _ => inferInstanceAs (Decidable True)
  | .loadIdx _ => inferInstanceAs (Decidable False)
  | .slot _ _ => inferInstanceAs (Decidable False)
  | .publish _ => inferInstanceAs (Decidable False)

instance (m : HostMemory K) (i : Nat) : ∀ pc : RecordPc K, Decidable (pc.StoresTo m i)
  | .idle => inferInstanceAs (Decidable False)
  | .copy _ _ => inferInstanceAs (Decidable False)
  | .loadIdx _ => inferInstanceAs (Decidable False)
  | .slot _ [] => inferInstanceAs (Decidable False)
  | .slot _ (_ :: _) => inferInstanceAs (Decidable (_ = _))
  | .publish _ => inferInstanceAs (Decidable False)

end RecordPc

namespace Live

/-- The record at index `w` passes the two tests of the loop. -/
def Fresh (s : Live K) (w : Nat) : Prop :=
  (s.mem.slot (readIdx w)).timestampNs ≠ s.main.lastSigTs ∧
    (s.mem.slot (readIdx w)).timestampNs ≠ 0

instance (s : Live K) : DecidablePred s.Fresh :=
  fun _ => inferInstanceAs (Decidable (_ ∧ _))

/-- The pipeline thread does not copy while the loop holds a new record, and does
not assign the slot that the loop is reading; the loop does not take a new record
while the arrays are ahead of it. -/
def Quiet (s : Live K) : LiveEvent K → Prop
  | .tick _ => True
  | .pipeline _ => (s.pipeline.Copying → ¬ s.main.pc.Holds s.Fresh) ∧
      ∀ i ∈ s.main.pc.slotRead, ¬ s.pipeline.StoresTo s.mem i
  | .main => s.main.pc.AtLoad → s.pipeline.Dirty → ¬ s.Fresh (s.mem .signalWriteIdx)

instance (s : Live K) : ∀ e, Decidable (s.Quiet e)
  | .tick _ => inferInstanceAs (Decidable True)
  | .pipeline _ => inferInstanceAs (Decidable (_ ∧ _))
  | .main => inferInstanceAs (Decidable (_ → _))

end Live

/-! ## One tick for the record and the arrays -/

variable [Zero K] [Add K] [Div K] [IntCast K] [LT K] [DecidableLT K]

/-- The record is that of the tick `t`, the one `last_signal` loaded the index
of; the size is the number of its edges, and every element read is one that `t`
stored. -/
structure Routing.OfTick (published : List (Tick K)) (r : Routing K) (t : Tick K) : Prop where
  produced : ∃ k, r.writeIdx = k + 1 ∧ published[k]? = some t
  sig : r.sig = t.record
  nEdges : r.nEdges = t.sig.nEdges
  seen : ∀ a ∈ r.seen, a ∈ t.copies.flatten

theorem Routing.OfTick.append {published : List (Tick K)} {r : Routing K} {t : Tick K}
    (h : r.OfTick published t) (ticks : List (Tick K)) : r.OfTick (published ++ ticks) t where
  produced := by
    obtain ⟨k, hk, ht⟩ := h.produced
    have hlt := (List.getElem?_eq_some_iff.mp ht).1
    exact ⟨k, hk, (List.getElem?_append_left hlt).trans ht⟩
  sig := h.sig
  nEdges := h.nEdges
  seen := h.seen

namespace Live

/-- Every call of `route` works on one tick. -/
def SameTick (s : Live K) : Prop := ∀ r ∈ s.main.routings, ∃ t, r.OfTick s.published t

/-- What the loop holds is the newest record, and nothing newer is stored. -/
structure Current (s : Live K) (w : Nat) (sig : SignalRecord K) : Prop where
  clean : ¬ s.pipeline.Dirty
  idx : w = s.published.length
  record : sig = s.mem.slot (readIdx w)
  stamped : sig.timestampNs ≠ 0

variable {s s' : Live K} {w : Nat} {sig : SignalRecord K}

theorem Current.exists_tick (h : s.Current w sig) (hp : Published s.mem s.pipeline s.published) :
    ∃ t, (∃ k, w = k + 1 ∧ s.published[k]? = some t) ∧ sig = t.record ∧
      ∀ a ∈ t.copies.flatten, a.Holds s.mem := by
  have hsig := h.record
  rw [h.idx, hp.newest] at hsig
  cases hlast : s.published.getLast? with
  | none =>
    rw [hlast] at hsig
    exact absurd (congrArg SignalRecord.timestampNs hsig) h.stamped
  | some t =>
    rw [hlast] at hsig
    refine ⟨t, ⟨s.published.length - 1, ?_, ?_⟩, hsig, hp.arrays h.clean t hlast⟩
    · have hne : s.published ≠ [] := fun he => by
        rw [he] at hlast
        cases hlast
      have := List.length_pos_of_ne_nil hne
      rw [h.idx]
      omega
    · rw [← hlast, List.getLast?_eq_getElem?]

/-- The elements that a call has read are those of its tick. -/
theorem Current.ofTick {r : Routing K} (h : s.Current r.writeIdx r.sig)
    (hp : Published s.mem s.pipeline s.published) (hn : r.nEdges = r.sig.nEdges)
    (hseen : ∀ a ∈ r.seen, a.cell.InArrays r.nEdges.toNat ∧ a.Holds s.mem) :
    ∃ t, r.OfTick s.published t ∧ ∀ c, c.InArrays r.nEdges.toNat → s.mem c = t.memory c := by
  obtain ⟨t, hproduced, hsig, harrays⟩ := h.exists_tick hp
  have hnEdges : r.nEdges = t.sig.nEdges := by
    rw [hn, hsig]
    rfl
  have hsize : r.nEdges.toNat = t.size := congrArg Int.toNat hnEdges
  rw [hsize] at hseen ⊢
  have hmem : ∀ c, c.InArrays t.size → s.mem c = t.memory c := fun c hc =>
    harrays ⟨c, t.memory c⟩ (Tick.mem_copies.mpr ⟨hc, rfl⟩)
  refine ⟨t, ⟨hproduced, hsig, hnEdges, fun a ha => ?_⟩, hmem⟩
  obtain ⟨hcell, hvalue⟩ := hseen a ha
  exact Tick.mem_copies.mpr ⟨hcell, (hmem _ hcell).symm.trans hvalue⟩

variable [Neg K] {activeThreshold : K}

variable (activeThreshold) in
/-- What the loop has read so far, by where it stands. -/
def Reading (s : Live K) : MainPc K → Prop
  | .sleep => True
  | .lastSignal w p =>
    (p.Within (fun c => ∃ f, c = .signalHistory (readIdx w) f) fun _ => True) ∧
      p.eval s.mem = s.mem.slot (readIdx w) ∧
      (s.Fresh w → ¬ s.pipeline.Dirty ∧ w = s.published.length)
  | .lastTopology w sig p => s.Current w sig ∧ p.eval s.mem = sig.nEdges
  | .route r p =>
    s.Current r.writeIdx r.sig ∧ r.nEdges = r.sig.nEdges ∧
      (p.Within (HostCell.InArrays r.nEdges.toNat) fun _ => True) ∧
      (∀ a ∈ r.seen, a.cell.InArrays r.nEdges.toNat ∧ a.Holds s.mem) ∧
      p.eval s.mem = (SignalRouter.route activeThreshold r.sig r.sizes).eval s.mem

variable (activeThreshold) in
/-- A finished call of `route` worked on one tick, and on nothing else. -/
def Routed (published : List (Tick K)) (x : Routing K × List (RoutedEdge K)) : Prop :=
  ∃ t, x.1.OfTick published t ∧
    x.2 = (SignalRouter.route activeThreshold t.record x.1.sizes).eval t.memory

variable (activeThreshold) in
structure Ok (s : Live K) : Prop where
  published : Published s.mem s.pipeline s.published
  reading : s.Reading activeThreshold s.main.pc
  routed : ∀ x ∈ s.main.routed, Routed activeThreshold s.published x

omit [Add K] [Div K] [IntCast K] in
/-- A loop that holds a new record found the arrays clean. -/
theorem Reading.clean {pc : MainPc K} (h : s.Reading activeThreshold pc)
    (hold : pc.Holds s.Fresh) : ¬ s.pipeline.Dirty := by
  cases pc with
  | sleep => exact hold.elim
  | lastSignal w p => exact (h.2.2 hold).1
  | lastTopology w sig p => exact h.1.clean
  | route r p => exact h.1.clean

/-! ## The steps of the main loop -/

theorem Ok.main (h : s.Ok activeThreshold) (hq : s.Quiet .main) :
    Ok activeThreshold { s with main := s.main.step activeThreshold s.mem } := by
  obtain ⟨hp, hr, hdone⟩ := h
  cases hpc : s.main.pc with
  | sleep =>
    have hload : s.main.pc.AtLoad := by
      rw [hpc]
      trivial
    simp only [MainLoop.step, hpc]
    exact ⟨hp, ⟨readSlot_within _, readSlot_eval _ _, fun hfresh =>
      ⟨fun hdirty => hq hload hdirty hfresh, hp.idx⟩⟩, hdone⟩
  | lastSignal w p =>
    rw [hpc] at hr
    obtain ⟨hwithin, heval, hfresh⟩ := hr
    cases p with
    | read c k =>
      simp only [MainLoop.step, hpc]
      exact ⟨hp, ⟨hwithin.2 _, heval, hfresh⟩, hdone⟩
    | done sig =>
      rw [Reads.eval_done] at heval
      simp only [MainLoop.step, hpc]
      split_ifs with hnew
      · have hnewest : s.Fresh w := by
          rw [Fresh, ← heval]
          exact hnew
        obtain ⟨hclean, hw⟩ := hfresh hnewest
        refine ⟨hp, ⟨⟨hclean, hw, heval, hnew.2⟩, ?_⟩, hdone⟩
        rw [lastTopology_eval, hp.idx, ← hw, heval]
      · exact ⟨hp, trivial, hdone⟩
  | lastTopology w sig p =>
    rw [hpc] at hr
    obtain ⟨⟨hclean, hw, hrecord, hstamped⟩, heval⟩ := hr
    cases p with
    | read c k =>
      simp only [MainLoop.step, hpc]
      exact ⟨hp, ⟨⟨hclean, hw, hrecord, hstamped⟩, heval⟩, hdone⟩
    | done nEdges =>
      simp only [MainLoop.step, hpc]
      split_ifs with hpos
      · exact ⟨hp, ⟨⟨hclean, hw, hrecord, hstamped⟩, heval, SignalRouter.route_within _ _ _,
          fun a ha => (nomatch ha), rfl⟩, hdone⟩
      · exact ⟨hp, trivial, hdone⟩
  | route r p =>
    rw [hpc] at hr
    obtain ⟨hcurrent, hn, hwithin, hseen, heval⟩ := hr
    cases p with
    | read c k =>
      simp only [MainLoop.step, hpc]
      refine ⟨hp, ⟨⟨hcurrent.clean, hcurrent.idx, hcurrent.record, hcurrent.stamped⟩, hn,
        hwithin.2 _, fun a ha => ?_, heval⟩, hdone⟩
      rcases List.mem_cons.mp ha with rfl | ha
      · exact ⟨hwithin.1, rfl⟩
      · exact hseen a ha
    | done edges =>
      simp only [MainLoop.step, hpc]
      obtain ⟨t, htick, hmem⟩ := hcurrent.ofTick hp hn hseen
      refine ⟨hp, trivial, fun x hx => ?_⟩
      rcases List.mem_append.mp hx with hx | hx
      · exact hdone x hx
      · rw [List.mem_singleton.mp hx]
        refine ⟨t, htick, heval.trans ?_⟩
        rw [← htick.sig]
        exact (SignalRouter.route_within _ _ _).eval_congr hmem

/-! ## The steps of the pipeline thread -/

theorem Ok.tick (h : s.Ok activeThreshold) (hidle : s.pipeline = .idle) (t : Tick K) :
    Ok activeThreshold { s with pipeline := .runOnce t } := by
  obtain ⟨hp, hr, hdone⟩ := h
  have hclean := RecordPc.not_dirty_runOnce t
  rw [hidle] at hp
  refine ⟨hp.runOnce t, ?_, hdone⟩
  change Reading activeThreshold _ s.main.pc
  cases hpc : s.main.pc with
  | sleep => trivial
  | lastSignal w p =>
    rw [hpc] at hr
    exact ⟨hr.1, hr.2.1, fun hfresh => ⟨hclean, (hr.2.2 hfresh).2⟩⟩
  | lastTopology w sig p =>
    rw [hpc] at hr
    exact ⟨⟨hclean, hr.1.idx, hr.1.record, hr.1.stamped⟩, hr.2⟩
  | route r p =>
    rw [hpc] at hr
    exact ⟨⟨hclean, hr.1.idx, hr.1.record, hr.1.stamped⟩, hr.2⟩

/-- No step of the pipeline thread meets a loop that holds a new record. -/
theorem Ok.not_holds (h : s.Ok activeThreshold) {n : Nat} (hq : s.Quiet (.pipeline n))
    {m : HostMemory K} {pc : RecordPc K} {ticks : List (Tick K)}
    (hs : s.pipeline.Step s.mem m pc ticks) : ¬ s.main.pc.Holds s.Fresh := by
  intro hold
  have hclean := h.reading.clean hold
  have hcopying := hq.1
  cases hpipeline : s.pipeline with
  | idle =>
    rw [hpipeline] at hs
    cases hs
  | copy t todo =>
    rw [hpipeline] at hcopying
    exact hcopying trivial hold
  | loadIdx t =>
    rw [hpipeline] at hclean
    exact hclean trivial
  | slot t todo =>
    rw [hpipeline] at hclean
    exact hclean trivial
  | publish t =>
    rw [hpipeline] at hclean
    exact hclean trivial

theorem Ok.pipeline (h : s.Ok activeThreshold) {n : Nat} (hq : s.Quiet (.pipeline n))
    {m : HostMemory K} {pc : RecordPc K} {ticks : List (Tick K)}
    (hs : s.pipeline.Step s.mem m pc ticks) :
    Ok activeThreshold { s with mem := m, pipeline := pc, published := s.published ++ ticks } := by
  have hhold := h.not_holds hq hs
  obtain ⟨hp, hr, hdone⟩ := h
  refine ⟨hp.step hs, ?_, fun x hx => ?_⟩
  · change Reading activeThreshold _ s.main.pc
    cases hpc : s.main.pc with
    | sleep => trivial
    | lastSignal w p =>
      rw [hpc] at hr hhold
      have hslot : ¬ s.pipeline.StoresTo s.mem (readIdx w) := hq.2 _ (by rw [hpc]; rfl)
      have hsame := hs.slot hp.progress hslot
      refine ⟨hr.1, ?_, fun hfresh => absurd ?_ hhold⟩
      · have hcells : ∀ c, (∃ f, c = .signalHistory (readIdx w) f) → m c = s.mem c := by
          rintro c ⟨f, rfl⟩
          exact hs.history hp.progress hslot f
        exact (hr.1.eval_congr hcells).trans (hr.2.1.trans hsame.symm)
      · unfold Fresh at hfresh
        rw [hsame] at hfresh
        exact hfresh
    | lastTopology w sig p =>
      rw [hpc] at hhold
      exact absurd trivial hhold
    | route r p =>
      rw [hpc] at hhold
      exact absurd trivial hhold
  · obtain ⟨t, htick, hedges⟩ := hdone x hx
    exact ⟨t, htick.append ticks, hedges⟩

/-- Every quiet step keeps the two threads together. -/
theorem Ok.step (h : s.Ok activeThreshold) {e : LiveEvent K} (hq : s.Quiet e)
    (hs : s.step activeThreshold e = some s') : s'.Ok activeThreshold := by
  cases e with
  | tick t =>
    cases hidle : s.pipeline with
    | idle =>
      simp only [Live.step, hidle] at hs
      cases hs
      exact h.tick hidle t
    | _ => simp [Live.step, hidle] at hs
  | pipeline n =>
    obtain ⟨⟨m, pc, ticks⟩, hstep, he⟩ := Option.map_eq_some_iff.mp hs
    cases he
    exact h.pipeline hq (RecordPc.step_sound hstep)
  | main =>
    cases hs
    exact h.main hq

theorem Ok.sameTick (h : s.Ok activeThreshold) : s.SameTick := by
  intro r hr
  rcases List.mem_append.mp hr with hr | hr
  · obtain ⟨x, hx, rfl⟩ := List.mem_map.mp hr
    obtain ⟨t, htick, -⟩ := h.routed x hx
    exact ⟨t, htick⟩
  · have hreading := h.reading
    cases hpc : s.main.pc with
    | route r' p =>
      rw [hpc] at hr hreading
      rw [List.mem_singleton.mp hr]
      obtain ⟨hcurrent, hn, -, hseen, -⟩ := hreading
      obtain ⟨t, htick, -⟩ := hcurrent.ofTick h.published hn hseen
      exact ⟨t, htick⟩
    | _ =>
      rw [hpc] at hr
      exact absurd hr List.not_mem_nil

variable (activeThreshold) in
theorem init_ok (edgeSrc edgeDst : Nat → Int) :
    Ok activeThreshold (init edgeSrc edgeDst : Live K) :=
  ⟨.init edgeSrc edgeDst, trivial, fun _ hx => nomatch hx⟩

end Live

/-- In a quiet run every signal is routed with the size, the flow and the
endpoints of the tick that its record comes from, and the edges that are routed
are those the router finds for that tick alone. -/
theorem routed_with_own_tick [Neg K] (activeThreshold : K) (edgeSrc edgeDst : Nat → Int)
    {es : List (LiveEvent K)}
    (hq : Machine.RunOk (Live.step activeThreshold) Live.Quiet (Live.init edgeSrc edgeDst) es)
    {s : Live K}
    (hrun : Machine.run (Live.step activeThreshold) (Live.init edgeSrc edgeDst) es = some s) :
    s.SameTick ∧ ∀ x ∈ s.main.routed, ∃ t, x.1.OfTick s.published t ∧
      x.2 = (SignalRouter.route activeThreshold t.record x.1.sizes).eval t.memory := by
  have hok : s.Ok activeThreshold := Machine.run_inv
    (fun _ _ _ h hq hs => Live.Ok.step h hq hs) (Live.init_ok activeThreshold edgeSrc edgeDst) hq
    hrun
  exact ⟨hok.sameTick, hok.routed⟩

/-- The second tick starts to copy while the loop polls again, and both signals
are routed. -/
theorem routed_with_own_tick_two_signals :
    let tick (ts : Nat) (flow : ℚ) : Tick ℚ :=
      { sig := { harmonicFlow := fun _ => flow, curlMagnitude := fun _ => 1,
                 yangMillsAction := 100, nActiveLoops := 1, nEdges := 1, signalTsNs := ts }
        edgeSrc := fun _ => 0, edgeDst := fun _ => 1, nHarmonicDims := 0, floer := .blank }
    let es : List (LiveEvent ℚ) :=
      .tick (tick 1 20) :: List.replicate 28 (.pipeline 0) ++ List.replicate 53 .main ++
        [.tick (tick 2 30), .pipeline 0] ++ List.replicate 20 .main ++
        List.replicate 27 (.pipeline 0) ++ List.replicate 71 .main
    ∃ s, Machine.run (Live.step 10) (Live.init (fun _ => 0) fun _ => 0) es = some s ∧
      s.main.routed.map (fun x => x.2.map RoutedEdge.harmonicFlow) = [[20], [30]] ∧ s.SameTick := by
  intro tick es
  obtain ⟨s, hs, hrouted⟩ := Machine.exists_of_elim
    (o := Machine.run (Live.step 10) (Live.init (fun _ => 0) fun _ => 0) es)
    (P := fun s => s.main.routed.map (fun x => x.2.map RoutedEdge.harmonicFlow) = [[20], [30]])
    (by decide +kernel)
  exact ⟨s, hs, hrouted, (routed_with_own_tick 10 _ _ (by decide +kernel) hs).1⟩

/-- The flow that an access is about. -/
def HostAccess.flow (a : HostAccess K) : Option (Nat × K) :=
  match a with
  | ⟨.harmonicOut e, v⟩ => some (e, v)
  | _ => none

theorem Tick.flow_of_mem_copies {t : Tick K} {a : HostAccess K} (ha : a ∈ t.copies.flatten)
    {x : Nat × K} (hx : HostAccess.flow a = some x) : t.sig.harmonicFlow x.1 = x.2 := by
  have hvalue := (Tick.mem_copies.mp ha).2
  obtain ⟨cell, value⟩ := a
  cases cell with
  | harmonicOut e =>
    cases hx
    exact hvalue
  | _ => cases hx

/-- The flow of the next tick arrives between the poll and the router: the one
published signal is routed the other way round. -/
theorem routed_with_next_tick :
    let tick (ts : Nat) (flow : ℚ) : Tick ℚ :=
      { sig := { harmonicFlow := fun _ => flow, curlMagnitude := fun _ => 1,
                 yangMillsAction := 100, nActiveLoops := 1, nEdges := 1, signalTsNs := ts }
        edgeSrc := fun _ => 0, edgeDst := fun _ => 1, nHarmonicDims := 0, floer := .blank }
    let es : List (LiveEvent ℚ) :=
      .tick (tick 1 20) :: List.replicate 28 (.pipeline 0) ++ List.replicate 40 .main ++
        [.tick (tick 2 (-20)), .pipeline 0] ++ List.replicate 12 .main
    ∃ s, Machine.run (Live.step 10) (Live.init (fun _ => 0) fun _ => 0) es = some s ∧
      s.main.routed.map (fun x => (x.1.sig.timestampNs, x.2.map RoutedEdge.harmonicFlow)) =
        [(1, [-20])] ∧ ¬ s.SameTick := by
  intro tick es
  obtain ⟨s, hs, hrouted, r, hr, a, ha, hflow⟩ := Machine.exists_of_elim
    (o := Machine.run (Live.step 10) (Live.init (fun _ => 0) fun _ => 0) es)
    (P := fun s => s.main.routed.map (fun x => (x.1.sig.timestampNs,
        x.2.map RoutedEdge.harmonicFlow)) = [(1, [-20])] ∧
      ∃ r ∈ s.main.routings, ∃ a ∈ r.seen, (HostAccess.flow a).elim False fun x =>
        ∀ t ∈ s.published, t.sig.harmonicFlow x.1 ≠ x.2)
    (by decide +kernel)
  obtain ⟨x, hx, hother⟩ := Machine.exists_of_elim hflow
  refine ⟨s, hs, hrouted, fun hsame => ?_⟩
  obtain ⟨t, htick⟩ := hsame r hr
  obtain ⟨k, -, hk⟩ := htick.produced
  exact hother t (List.mem_of_getElem? hk) (Tick.flow_of_mem_copies (htick.seen a ha) hx)

end HoloMarket
