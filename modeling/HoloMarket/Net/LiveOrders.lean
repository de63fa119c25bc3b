import HoloMarket.Lib.RunBounds
import HoloMarket.Net.Inflight
import HoloMarket.Net.Unreleased

/-!
# LiveOrders: the entries of all pairs

The entries of `OMSCore` are the unreleased orders of the pairs.  A pair never
has more than when it was accepted, so the number of entries passes the bound
only with a signal, and what a pair has when a gateway call throws is never
given back.
-/

namespace HoloMarket

variable {K : Type*} [Field K] [LinearOrder K]

namespace World

/-- The number of orders that are not released. -/
def outstanding (w : World K) : Nat := (w.pairs.map fun p => (p.unreleased p.pc).length).sum

/-- Every pair has the entries of its unreleased orders, and there are no
others. -/
structure Accounted (w : World K) : Prop where
  ok : Ok (fun _ => False) w
  holds : ∀ (i : Nat) (p : PairTask K), w.pairs[i]? = some p → p.Holds w.desk
  count : w.desk.liveOrderCount = w.outstanding

theorem init_accounted (maxOpenOrders : Nat) (orderId : Nat → Int) :
    (init maxOpenOrders orderId : World K).Accounted :=
  ⟨init_ok _ maxOpenOrders orderId, fun _ _ hp => (by cases hp), rfl⟩

variable {w w' : World K} {d : Desk K} {e : EngineEvent K}

theorem FreshKeys.stepOk (h : w.FreshKeys e) : StepOk (fun _ => False) w e where
  fresh := h
  positive := by
    cases e with
    | signal leg1 leg2 t => exact False.elim
    | _ => trivial
  ack := by
    cases e with
    | resume i x t => exact False.elim
    | _ => trivial

theorem Accounted.of_sheds (h : w.Accounted) (hok : Ok (fun _ => False) { w with desk := d })
    (hs : Desk.Sheds w.desk d []) : ({ w with desk := d } : World K).Accounted where
  ok := hok
  holds i p hp n hn := by
    have hlt := (h.ok.wired i p hp).lt n (p.unreleased_subset hn)
    exact hs.held n hlt List.not_mem_nil (h.holds i p hp n hn)
  count := by
    have hcount := hs.count
    rw [List.length_nil] at hcount
    exact hcount.trans h.count

theorem Accounted.concat (h : w.Accounted) {p : PairTask K}
    (hok : Ok (fun _ => False) { desk := d, pairs := w.pairs ++ [p] })
    (hs : Desk.Signaled w.desk d p) (h₁ : d.Held w.desk.engine.seq)
    (h₂ : d.Held (w.desk.engine.seq + 1)) (hcount : d.liveOrderCount = w.desk.liveOrderCount + 2) :
    ({ desk := d, pairs := w.pairs ++ [p] } : World K).Accounted := by
  have hlen : (p.unreleased p.pc).length = 2 := by
    rw [hs.pc]
    rfl
  refine ⟨hok, fun i q hq n hn => ?_, ?_⟩
  · rcases getElem?_concat_cases hq with hq | ⟨-, rfl⟩
    · have hlt := (h.ok.wired i q hq).lt n (q.unreleased_subset hn)
      exact (h.holds i q hq n hn).of_cell_eq (hs.frame.cell n hlt List.not_mem_nil)
    · have hmem := q.unreleased_subset hn
      rw [hs.orders] at hmem
      simp only [List.mem_cons, List.not_mem_nil, or_false] at hmem
      rcases hmem with rfl | rfl
      · exact h₁
      · exact h₂
  · show d.liveOrderCount = ((w.pairs ++ [p]).map _).sum
    rw [hcount, h.count, List.map_append, List.sum_append, List.map_singleton,
      List.sum_singleton, hlen]
    rfl

theorem Accounted.set (h : w.Accounted) {i : Nat} {p : PairTask K} {pc : PairPc}
    (hp : w.pairs[i]? = some p)
    (hok : Ok (fun _ => False) { desk := d, pairs := w.pairs.set i { p with pc := pc } })
    (ha : Desk.Accounts w.desk d p pc) :
    ({ desk := d, pairs := w.pairs.set i { p with pc := pc } } : World K).Accounted := by
  have hsame := p.unreleased_setPc pc pc
  refine ⟨hok, fun j q hq n hn => ?_, ?_⟩
  · rw [List.getElem?_set] at hq
    split_ifs at hq with hij hlt
    · cases hq
      rw [hsame] at hn
      exact ha.own n hn
    · have hwired := h.ok.wired j q hq
      have hmem := q.unreleased_subset hn
      have hother : n ∉ p.unreleased p.pc := fun hn' =>
        h.ok.apart j i q p hq hp (Ne.symm hij) hmem (p.unreleased_subset hn')
      exact ha.others n (hwired.lt n hmem) hother (h.holds j q hq n hn)
  · have hsum := Machine.sum_map_set ({ p with pc := pc } : PairTask K)
      (fun q => (q.unreleased q.pc).length) hp
    have hcount := ha.count
    have hold := h.count
    simp only [hsame] at hsum
    unfold outstanding at hold ⊢
    dsimp only at hsum ⊢
    omega

/-- The event is a signal that is admitted. -/
def Accepts (w : World K) : EngineEvent K → Prop
  | .signal leg1 leg2 _ => w.desk.engine.admits leg1 leg2 = true
  | _ => False

instance (w : World K) : ∀ e : EngineEvent K, Decidable (w.Accepts e)
  | .signal leg1 leg2 _ => inferInstanceAs (Decidable (w.desk.engine.admits leg1 leg2 = true))
  | .resume .. | .act .. | .deliver _ | .refuse .. | .sweep .. | .forceHalt | .resetHalt
  | .checkDrawdown .. => inferInstanceAs (Decidable False)

/-- A signal that is admitted leaves room for its two orders. -/
def RoomForTwo (maxOpenOrders : Nat) (w : World K) (e : EngineEvent K) : Prop :=
  w.Accepts e → w.desk.liveOrderCount + 2 ≤ maxOpenOrders

instance (maxOpenOrders : Nat) (w : World K) (e : EngineEvent K) :
    Decidable (w.RoomForTwo maxOpenOrders e) :=
  inferInstanceAs (Decidable (w.Accepts e → w.desk.liveOrderCount + 2 ≤ maxOpenOrders))

/-- Every state that the events lead through is within the bound. -/
def Bounded (maxOpenOrders : Nat) (w : World K) (es : List (EngineEvent K)) : Prop :=
  ∀ fs w', fs <+: es → Machine.run World.step w fs = some w' →
    w'.desk.liveOrderCount ≤ maxOpenOrders

theorem bounded_nil {maxOpenOrders : Nat} :
    w.Bounded maxOpenOrders [] ↔ w.desk.liveOrderCount ≤ maxOpenOrders := by
  constructor
  · exact fun h => h [] w List.nil_prefix rfl
  · intro h fs w' hfs hrun
    rw [List.prefix_nil.mp hfs] at hrun
    cases hrun
    exact h

theorem bounded_cons {maxOpenOrders : Nat} {es : List (EngineEvent K)} :
    w.Bounded maxOpenOrders (e :: es) ↔ w.desk.liveOrderCount ≤ maxOpenOrders ∧
      ∀ w', w.step e = some w' → w'.Bounded maxOpenOrders es := by
  constructor
  · intro h
    refine ⟨h [] w List.nil_prefix rfl, fun w₁ hs fs w' hfs hrun => ?_⟩
    refine h (e :: fs) w' (List.cons_prefix_cons.mpr ⟨rfl, hfs⟩) ?_
    rw [Machine.run_cons, hs]
    exact hrun
  · rintro ⟨hle, hrest⟩ fs w' hfs hrun
    cases fs with
    | nil =>
      cases hrun
      exact hle
    | cons f fs =>
      obtain ⟨rfl, htail⟩ := List.cons_prefix_cons.mp hfs
      obtain ⟨w₁, hs, hrun⟩ := Option.bind_eq_some_iff.mp hrun
      exact hrest w₁ hs fs w' htail hrun

variable [IsStrictOrderedRing K]

/-- What every step keeps.  Only an admitted signal adds entries. -/
theorem Accounted.step (h : w.Accounted) (hf : w.FreshKeys e) (hs : w.step e = some w') :
    w'.Accounted ∧
      (w.Accepts e ∧ w'.desk.liveOrderCount = w.desk.liveOrderCount + 2 ∨
        ¬w.Accepts e ∧ w'.desk.liveOrderCount ≤ w.desk.liveOrderCount) := by
  have hok := h.ok.step hf.stepOk hs
  have hk := hf.keys hs
  have hquiet : ∀ d, w' = { w with desk := d } → Desk.Sheds w.desk d [] →
      w'.Accounted ∧ w'.desk.liveOrderCount ≤ w.desk.liveOrderCount := by
    rintro d rfl hshed
    exact ⟨h.of_sheds hok hshed, hshed.count ▸ Nat.le_add_right _ _⟩
  cases e with
  | signal leg1 leg2 t =>
    rcases step_signal hs with ⟨hadm, rfl⟩ | ⟨hadm, rfl⟩
    · exact ⟨h, Or.inr ⟨hadm, le_rfl⟩⟩
    · rw [Desk.sendLeg_engine, Desk.openPair_seq] at hk
      have hcount := Desk.openPair_liveOrderCount h.ok.desk hk leg1 leg2 t
      obtain ⟨h₁, h₂⟩ := Desk.openPair_held h.ok.desk hk leg1 leg2 t
      refine ⟨h.concat hok (Desk.onSignal_signaled h.ok.desk hk t) (h₁.sendLeg ..)
        (h₂.sendLeg ..) ?_, Or.inl ⟨hadm, ?_⟩⟩
      · rw [Desk.sendLeg_liveOrderCount, hcount]
      · rw [Desk.sendLeg_liveOrderCount, hcount]
  | resume i x t =>
    obtain ⟨p, hp, hs⟩ := Option.bind_eq_some_iff.mp hs
    obtain ⟨⟨d, pc⟩, hr, rfl⟩ := Option.map_eq_some_iff.mp hs
    have ha := Desk.resume_accounts h.ok.desk h.ok.keys (h.ok.wired i p hp) (h.holds i p hp) hr hk
    have hcount := ha.count
    have hlen := ha.length
    refine ⟨h.set hp hok ha, Or.inr ⟨id, ?_⟩⟩
    show d.liveOrderCount ≤ _
    omega
  | act n a tMs =>
    obtain ⟨d, hd, rfl⟩ := Option.map_eq_some_iff.mp hs
    obtain ⟨-, -, -, -, he, -, -⟩ := Desk.act_cell hd
    obtain ⟨hacc, hle⟩ := hquiet d rfl (.of_eq (h.ok.desk.act hd) (congrArg _ he)
      (congrArg _ he) (congrArg _ he))
    exact ⟨hacc, Or.inr ⟨id, hle⟩⟩
  | deliver n =>
    obtain ⟨d, hd, rfl⟩ := Option.map_eq_some_iff.mp hs
    obtain ⟨_, _, _, _, -, -, -, hup⟩ := Desk.deliver_updated h.ok.desk hd
    obtain ⟨hacc, hle⟩ := hquiet d rfl (hup.sheds (h.ok.desk.deliver h.ok.keys hd).2)
    exact ⟨hacc, Or.inr ⟨id, hle⟩⟩
  | refuse n nowNs =>
    obtain ⟨d, hd, rfl⟩ := Option.map_eq_some_iff.mp hs
    obtain ⟨_, -, -, hup⟩ := Desk.refuse_updated hd
    obtain ⟨hacc, hle⟩ := hquiet d rfl (hup.sheds (h.ok.desk.refuse h.ok.keys hd).2)
    exact ⟨hacc, Or.inr ⟨id, hle⟩⟩
  | sweep maxAge steadyNs | forceHalt | resetHalt | checkDrawdown x limit =>
    cases hs
    obtain ⟨hacc, hle⟩ := hquiet _ rfl (.of_eq hok.desk rfl rfl rfl)
    exact ⟨hacc, Or.inr ⟨id, hle⟩⟩

theorem Accounted.run {w₀ : World K} (h : w₀.Accounted) {es : List (EngineEvent K)}
    (hf : Machine.RunOk World.step FreshKeys w₀ es)
    (hrun : Machine.run World.step w₀ es = some w) : w.Accounted :=
  Machine.run_inv (fun _ _ _ h hf hs => (h.step hf hs).1) h hf hrun

/-- A run from within the bound stays there exactly when every signal that it
admits leaves room. -/
theorem Accounted.bounded_iff {maxOpenOrders : Nat} {es : List (EngineEvent K)}
    (h : w.Accounted) (hle : w.desk.liveOrderCount ≤ maxOpenOrders)
    (hf : Machine.RunOk World.step FreshKeys w es) :
    w.Bounded maxOpenOrders es ↔ Machine.RunOk World.step (RoomForTwo maxOpenOrders) w es := by
  induction es generalizing w with
  | nil => exact iff_of_true (bounded_nil.mpr hle) trivial
  | cons e es ih =>
    rw [bounded_cons, and_iff_right hle]
    cases hs : w.step e with
    | none =>
      have hnot : ¬w.Accepts e := by
        cases e with
        | signal leg1 leg2 t => cases hs
        | _ => exact id
      refine iff_of_true (fun w' hw' => by cases hw') ⟨fun hacc => absurd hacc hnot, ?_⟩
      rw [hs]
      trivial
    | some w₁ =>
      obtain ⟨hacc, hcount⟩ := h.step hf.1 hs
      have hroom : w.RoomForTwo maxOpenOrders e ↔ w₁.desk.liveOrderCount ≤ maxOpenOrders := by
        unfold RoomForTwo
        rcases hcount with ⟨hyes, he⟩ | ⟨hno, hle₁⟩
        · rw [he]
          exact ⟨fun hr => hr hyes, fun hr _ => hr⟩
        · exact iff_of_true (fun hyes => absurd hyes hno) (hle₁.trans hle)
      constructor
      · intro hb
        have hb₁ := hb w₁ rfl
        have hle₁ := hb₁ [] w₁ List.nil_prefix rfl
        exact .cons (hroom.mpr hle₁) hs ((ih hacc hle₁ (hf.tail hs)).mp hb₁)
      · rintro hr w' hw'
        cases hw'
        have hle₁ := hroom.mp hr.1
        exact (ih hacc hle₁ (hf.tail hs)).mpr (hr.tail hs)

end World

/-- `live_order_count()` stays within `max_open_orders_` exactly in the runs
where every admitted signal leaves room for its two orders. -/
theorem liveOrderCount_bounded_iff [IsStrictOrderedRing K] (maxOpenOrders : Nat)
    (orderId : Nat → Int) {es : List (EngineEvent K)}
    (hf : Machine.RunOk World.step World.FreshKeys (World.init maxOpenOrders orderId) es) :
    (∀ fs (w : World K), fs <+: es →
      Machine.run World.step (World.init maxOpenOrders orderId) fs = some w →
        w.desk.engine.oms.liveOrderCount ≤ maxOpenOrders) ↔
    Machine.RunOk World.step (World.RoomForTwo maxOpenOrders)
      (World.init maxOpenOrders orderId) es :=
  (World.init_accounted maxOpenOrders orderId).bounded_iff (Nat.zero_le _) hf

/-- Room for two pairs, and the third signal is dropped. -/
theorem liveOrderCount_bounded_two_pairs :
    let leg (symbol : String) (side : Side) : ArbLeg Rat :=
      { symbol := symbol, side := side, qty := 1, price := 100 }
    let es : List (EngineEvent Rat) :=
      [.signal (leg "BTCUSDT" .Buy) (leg "ETHUSDT" .Sell) ⟨0, 0⟩,
        .signal (leg "SOLUSDT" .Buy) (leg "BNBUSDT" .Sell) ⟨1, 1⟩,
        .signal (leg "XRPUSDT" .Buy) (leg "ADAUSDT" .Sell) ⟨2, 2⟩]
    ∀ fs (w : World Rat), fs <+: es →
      Machine.run World.step (World.init 4 Int.ofNat) fs = some w →
        w.desk.engine.oms.liveOrderCount ≤ 4 := by
  intro leg es
  exact (liveOrderCount_bounded_iff 4 Int.ofNat (by decide +kernel)).mpr (by decide +kernel)

/-- One place is left, and a signal takes two. -/
theorem liveOrderCount_exceeds :
    let leg (symbol : String) (side : Side) : ArbLeg Rat :=
      { symbol := symbol, side := side, qty := 1, price := 100 }
    let es : List (EngineEvent Rat) := [.signal (leg "BTCUSDT" .Buy) (leg "ETHUSDT" .Sell) ⟨0, 0⟩]
    ∃ w, Machine.run World.step (World.init 1 Int.ofNat) es = some w ∧
      ¬w.desk.engine.oms.liveOrderCount ≤ 1 := by
  intro leg es
  exact Machine.exists_of_elim (o := Machine.run World.step (World.init 1 Int.ofNat) es)
    (P := fun w => ¬w.desk.engine.oms.liveOrderCount ≤ 1) (by decide +kernel)

/-! ## A gateway call throws -/

namespace PairPc

/-- The gateway calls: two sends, the two cancels and the send of a hedge. -/
def IsGatewayCall : PairPc → Prop
  | .sendingLeg1 | .sendingLeg2 | .cancelingPartner _ | .cancelingResting _
  | .sendingHedge _ _ _ => True
  | _ => False

theorem IsGatewayCall.exists_unreleased {K : Type*} {point : PairPc} (h : point.IsGatewayCall)
    (p : PairTask K) : ∃ n, n ∈ p.unreleased point := by
  cases point with
  | sendingLeg1 | sendingLeg2 | cancelingPartner first | cancelingResting first
  | sendingHedge first hedge chan => exact ⟨_, List.mem_cons_self⟩
  | _ => exact h.elim

end PairPc

/-- Neither an entry nor a waiter of the pair's orders is left, and neither its
key nor its symbols are in flight on its behalf. -/
structure World.LeavesNothing (w : World K) (p : PairTask K) : Prop where
  record : ∀ n ∈ p.orders, (w.desk.cell n).record = none
  waiter : ∀ n ∈ p.orders, (w.desk.cell n).waiter = none
  key : pairKey p.leg1 p.leg2 ∈ w.desk.engine.inflightPairs →
    ∃ q ∈ w.pairs, q.pc.inFlight = true ∧ pairKey q.leg1 q.leg2 = pairKey p.leg1 p.leg2
  symbols : ∀ s ∈ p.symbols, s ∈ w.desk.engine.inflightSymbols →
    ∃ q ∈ w.pairs, q.pc.inFlight = true ∧ s ∈ q.symbols

variable [IsStrictOrderedRing K]

/-- Wherever a gateway call of a pair throws, what the pair had not released by
then is never released, whatever becomes of its orders at the exchange. -/
theorem thrown_pair_leaves_entries (maxOpenOrders : Nat) (orderId : Nat → Int)
    {es : List (EngineEvent K)}
    (hf : Machine.RunOk World.step World.FreshKeys (World.init maxOpenOrders orderId) es)
    {w : World K} (hrun : Machine.run World.step (World.init maxOpenOrders orderId) es = some w)
    {i : Nat} {p : PairTask K} (hp : w.pairs[i]? = some p) {point : PairPc}
    (hcall : point.IsGatewayCall) (hpc : p.pc = .threw point) : ¬w.LeavesNothing p := by
  intro hnothing
  have hacc := (World.init_accounted maxOpenOrders orderId).run hf hrun
  obtain ⟨n, hn⟩ := hcall.exists_unreleased p
  have hmem : n ∈ p.unreleased p.pc := by
    rw [hpc]
    exact hn
  have hheld := (hacc.holds i p hp n hmem).1
  rw [hnothing.record n (p.unreleased_subset hmem)] at hheld
  exact absurd hheld Bool.false_ne_true

/-- The send of the second leg throws. -/
theorem thrown_pair_leaves_entries_leg2 :
    let leg (symbol : String) (side : Side) : ArbLeg Rat :=
      { symbol := symbol, side := side, qty := 1, price := 100 }
    let es : List (EngineEvent Rat) :=
      [.signal (leg "BTCUSDT" .Buy) (leg "ETHUSDT" .Sell) ⟨0, 0⟩, .resume 0 .sent ⟨1, 1⟩,
        .resume 0 .threw ⟨2, 2⟩]
    ∃ w p, Machine.run World.step (World.init 8 Int.ofNat) es = some w ∧
      w.pairs[0]? = some p ∧ p.pc = .threw .sendingLeg2 ∧ ¬w.LeavesNothing p := by
  intro leg es
  have hend : (Machine.run World.step (World.init 8 Int.ofNat) es).elim False fun w =>
      (w.pairs[0]?).elim False fun p => p.pc = .threw .sendingLeg2 := by decide +kernel
  obtain ⟨w, hw, h⟩ := Machine.exists_of_elim hend
  obtain ⟨p, hp, hpc⟩ := Machine.exists_of_elim h
  have hf : Machine.RunOk World.step World.FreshKeys (World.init 8 Int.ofNat) es := by
    decide +kernel
  have hcall : PairPc.IsGatewayCall .sendingLeg2 := trivial
  exact ⟨w, p, hw, hp, hpc, thrown_pair_leaves_entries 8 Int.ofNat hf hw hp hcall hpc⟩

/-- The send of the first leg throws and its order, which had arrived, is
refused: both entries are still there. -/
theorem thrown_leg1_keeps_entries :
    let leg (symbol : String) (side : Side) : ArbLeg Rat :=
      { symbol := symbol, side := side, qty := 1, price := 100 }
    let es : List (EngineEvent Rat) :=
      [.signal (leg "BTCUSDT" .Buy) (leg "ETHUSDT" .Sell) ⟨0, 0⟩, .resume 0 .threw ⟨1, 1⟩,
        .refuse 0 2]
    ∃ w p, Machine.run World.step (World.init 8 Int.ofNat) es = some w ∧
      w.pairs[0]? = some p ∧ p.pc = .threw .sendingLeg1 ∧
      (∀ n ∈ p.orders, (w.desk.exchange n).elim True fun v => v.status.isClosed = true) ∧
      w.desk.liveOrderCount = 2 ∧ ¬w.LeavesNothing p := by
  intro leg es
  have hend : (Machine.run World.step (World.init 8 Int.ofNat) es).elim False fun w =>
      (w.pairs[0]?).elim False fun p => p.pc = .threw .sendingLeg1 ∧
        (∀ n ∈ p.orders, (w.desk.exchange n).elim True fun v => v.status.isClosed = true) ∧
        w.desk.liveOrderCount = 2 ∧ ∃ n ∈ p.orders, (w.desk.cell n).record ≠ none := by
    decide +kernel
  obtain ⟨w, hw, h⟩ := Machine.exists_of_elim hend
  obtain ⟨p, hp, hpc, hclosed, hcount, n, hn, hrecord⟩ := Machine.exists_of_elim h
  exact ⟨w, p, hw, hp, hpc, hclosed, hcount, fun hnothing => hrecord (hnothing.record n hn)⟩

end HoloMarket
