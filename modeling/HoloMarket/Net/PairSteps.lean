import HoloMarket.Net.PairMoves

/-!
# PairSteps: what a pair knows when it goes on

Every way a coroutine of a pair can go on, from its suspension point to the next:
the orders it releases are settled, and the hedge it sends is for what is left of
the leg that did not settle first.
-/

namespace HoloMarket

variable {K : Type*} [Field K] [LinearOrder K]

namespace Desk

variable {d d' : Desk K} {p : PairTask K} {first : LegIx} {v w : VenueOrder K}
  {r : OrderRecord K} {clean : Prop}

/-! ## Settling an order -/

/-- Every branch charges a fill and releases the order, in one order or the
other. -/
def settle (d : Desk K) (n : Nat) (leg : ArbLeg K) (r : OrderRecord K) : Desk K :=
  (d.applyPartial r leg).releaseTerminal n

theorem applyPartial_of_pos (d : Desk K) (leg : ArbLeg K) (h : 0 < r.filledQty) :
    d.applyPartial r leg = d.applyFillPnl r leg := if_pos h

theorem applyPartial_of_not_pos (d : Desk K) (leg : ArbLeg K) (h : ¬0 < r.filledQty) :
    d.applyPartial r leg = d := if_neg h

theorem releaseTerminal_applyPartial (d : Desk K) (n : Nat) (leg : ArbLeg K)
    (r : OrderRecord K) : (d.releaseTerminal n).applyPartial r leg = d.settle n leg r := by
  unfold settle applyPartial
  split_ifs <;> rfl

theorem applyPartial_seq (d : Desk K) (r : OrderRecord K) (leg : ArbLeg K) :
    (d.applyPartial r leg).engine.seq = d.engine.seq := by
  unfold applyPartial
  split_ifs <;> rfl

theorem Ok.settle (hd : d.Ok) (n : Nat) (leg : ArbLeg K) (r : OrderRecord K) :
    (d.settle n leg r).Ok := (quiet_applyPartial hd r leg []).desk.releaseTerminal n

theorem settle_seq (d : Desk K) (n : Nat) (leg : ArbLeg K) (r : OrderRecord K) :
    (d.settle n leg r).engine.seq = d.engine.seq := applyPartial_seq d r leg

theorem frame_settle (hk : KeysDistinct d.engine.seq) {n : Nat} (hn : n < d.engine.seq)
    (leg : ArbLeg K) (r : OrderRecord K) : Frame d (d.settle n leg r) [n] := by
  have hseq := applyPartial_seq d r leg
  exact (frame_applyPartial d r leg [n]).trans
    (frame_releaseTerminal (hseq.symm ▸ hk) (hseq.symm ▸ hn) (List.mem_singleton_self n))

theorem Tracks.settle {n : Nat} {leg : ArbLeg K} (ht : d.Tracks n leg v r)
    (hterm : r.status.isTerminal = true) (leg' : ArbLeg K) :
    (d.settle n leg' r).Settled n leg v := by
  have hcell := (frame_applyPartial d r leg' []).cell
  have hsame : ∀ m, (d.applyPartial r leg').cell m = d.cell m := by
    intro m
    unfold applyPartial
    split_ifs
    · exact cell_applyFillPnl d r leg' m
    · rfl
  have hx : (d.applyPartial r leg').orderId = d.orderId :=
    (frame_applyPartial d r leg' []).orderId
  have ht' : (d.applyPartial r leg').Tracks n leg v r := by
    refine ⟨?_, ?_, ?_, ?_, ?_, ht.sound, ht.knows⟩
    · rw [hsame]
      exact ht.record
    · rw [hsame]
      exact ht.waiter
    · rw [hsame]
      exact ht.order
    · rw [hsame]
      exact ht.chan
    · rw [hx]
      exact ht.isFor
  exact ht'.release hterm

/-- The rest of the pair sees a settled order and nothing else. -/
theorem settle_settled (hk : KeysDistinct d.engine.seq) {n m : Nat} (hn : n < d.engine.seq)
    (hm : m < d.engine.seq) (hne : m ≠ n) {leg leg' : ArbLeg K} (hs : d.Settled m leg' v)
    (r : OrderRecord K) : (d.settle n leg r).Settled m leg' v :=
  (Keeps.of_cell_eq ((frame_settle hk hn leg r).cell m hm (by simpa using hne))
    (frame_settle hk hn leg r).orderId).settled _ v hs

end Desk

/-! ## One resumption -/

/-- What a resumption of `p` makes of the pair.  With `clean`, the book is kept as
well. -/
structure Resumed (clean : Prop) (d d' : Desk K) (p p' : PairTask K) : Prop where
  pair : p'.Ok d'
  books : clean → d.Booked → d'.Booked

theorem Resumed.after {clean : Prop} {d d₁ d' : Desk K} {p p' : PairTask K}
    (h : Resumed clean d₁ d' p p') (hbooks : clean → d.Booked → d₁.Booked) :
    Resumed clean d d' p p' := ⟨h.pair, fun hc hb => h.books hc (hbooks hc hb)⟩

namespace Desk

variable {d d' : Desk K} {p : PairTask K} {first : LegIx} {v w : VenueOrder K}
  {r : OrderRecord K} {clean : Prop}

theorem finished_resumed (hv : d.Settled (p.id first) (p.leg first) v)
    (hw : d.Settled (p.id first.other) (p.leg first.other) w) (hno : ¬PairTask.Hedges v w) :
    Resumed clean d (d.clearInflight p) p { p with pc := .finished first none } := by
  have hkeep := fun n => Keeps.of_cell_eq (cell_clearInflight d p n) rfl
  exact ⟨⟨v, w, (hkeep _).settled _ v hv, (hkeep _).settled _ w hw, hno⟩,
    fun _ hb => hb.clearInflight p⟩

theorem hedgeRemaining_resumed [IsStrictOrderedRing K] (hd : d.Ok)
    (hlt : ∀ x, p.id x < d.engine.seq) (hv : d.Settled (p.id first) (p.leg first) v)
    (hw : d.Settled (p.id first.other) (p.leg first.other) w)
    (hpart : v.status ≠ .Filled → 0 < w.executed) {remaining : K}
    (hrem : remaining = w.qty - w.executed) (t : Clock)
    (hk : KeysDistinct (d.hedgeRemaining p first remaining t).1.engine.seq) :
    Resumed clean d (d.hedgeRemaining p first remaining t).1 p
      { p with pc := (d.hedgeRemaining p first remaining t).2 } := by
  by_cases hle : remaining ≤ ExecutionEngine.qtyEps
  · rw [hedgeRemaining_done t hle]
    exact finished_resumed hv hw fun hh => absurd hh.1 (not_lt.mpr (hrem ▸ hle))
  · have hleg : ({ p.leg first.other with qty := remaining } : ArbLeg K) =
        p.hedgeLeg first w.executed := by
      rw [hrem, hw.isFor.qty]
      rfl
    have hpos : 0 < ({ p.leg first.other with qty := remaining } : ArbLeg K).qty :=
      ExecutionEngine.qtyEps_pos.trans (not_le.mp hle)
    rw [hedgeRemaining_open t hle] at hk ⊢
    rw [openOrder_seq] at hk
    obtain ⟨-, htracked, hframe, -⟩ :=
      hd.openOrder { p.leg first.other with qty := remaining } 0 t hk hpos
    have hkeep : ∀ x, Keeps d (d.openOrder { p.leg first.other with qty := remaining } 0 t)
        (p.id x) := fun x =>
      .of_cell_eq (hframe.cell _ (hlt x) List.not_mem_nil) hframe.orderId
    refine ⟨⟨v, w, (hkeep _).settled _ v hv, (hkeep _).settled _ w hw,
      ⟨hrem ▸ not_le.mp hle, hpart⟩, ?_⟩, fun _ hb => hb.openOrder hd hk hpos 0 t⟩
    show Tracked _ d.engine.seq (p.hedgeLeg first w.executed)
    rw [← hleg]
    exact htracked

section
variable [IsStrictOrderedRing K] (hwired : p.Wired d.engine.seq)
  (hv : d.Settled (p.id first) (p.leg first) v)
  (ht : d.Tracks (p.id first.other) (p.leg first.other) w r)
  (hterm : r.status.isTerminal = true)

include hwired hv ht hterm

/-- The other leg is settled and nothing is left to hedge. -/
theorem settle_finished (hk : KeysDistinct d.engine.seq) (hno : ¬PairTask.Hedges v w) :
    Resumed clean d ((d.settle (p.id first.other) (p.leg first.other) r).clearInflight p) p
      { p with pc := .finished first none } := by
  have hn := hwired.id_lt first.other
  refine (finished_resumed ?_ (ht.settle hterm _) hno).after
    fun _ hb => hb.settle_partial hk hn ht hterm
  exact settle_settled hk hn (hwired.id_lt first) (hwired.id_ne first) hv r

variable (hd : d.Ok) (t : Clock)

include hd

/-- The other leg is settled: what is left of it is hedged. -/
theorem settle_hedge (hpart : v.status ≠ .Filled → 0 < w.executed)
    (hk : KeysDistinct ((d.settle (p.id first.other) (p.leg first.other) r).hedgeRemaining p
      first (r.qty - r.filledQty) t).1.engine.seq) :
    Resumed clean d ((d.settle (p.id first.other) (p.leg first.other) r).hedgeRemaining p first
        (r.qty - r.filledQty) t).1 p
      { p with pc := ((d.settle (p.id first.other) (p.leg first.other) r).hedgeRemaining p first
        (r.qty - r.filledQty) t).2 } := by
  have hseq := settle_seq d (p.id first.other) (p.leg first.other) r
  have hk₀ : KeysDistinct d.engine.seq :=
    hk.mono (hseq ▸ hedgeRemaining_seq_le t _ p first (r.qty - r.filledQty))
  have hn := hwired.id_lt first.other
  have hrem : r.qty - r.filledQty = w.qty - w.executed := by
    rw [ht.knows.qty, ht.knows.filledQty hterm]
  refine (hedgeRemaining_resumed (hd.settle ..) (fun x => hseq ▸ hwired.id_lt x) ?_
    (ht.settle hterm _) hpart hrem t hk).after fun _ hb => hb.settle_partial hk₀ hn ht hterm
  exact settle_settled hk₀ hn (hwired.id_lt first) (hwired.id_ne first) hv r

theorem partnerSettled_resumed (hs : v.status ≠ .Filled)
    (hk : KeysDistinct (d.partnerSettled p first r t).1.engine.seq) :
    Resumed clean d (d.partnerSettled p first r t).1 p
      { p with pc := (d.partnerSettled p first r t).2 } := by
  have hfill := ht.knows.filledQty hterm
  by_cases hpos : 0 < r.filledQty
  · have heq : d.partnerSettled p first r t =
        (d.settle (p.id first.other) (p.leg first.other) r).hedgeRemaining p first
          (r.qty - r.filledQty) t := by
      unfold partnerSettled settle
      dsimp only
      rw [if_pos hpos, applyPartial_of_pos d _ hpos]
      rfl
    rw [heq] at hk ⊢
    exact settle_hedge hwired hv ht hterm hd t (fun _ => hfill ▸ hpos) hk
  · have heq : d.partnerSettled p first r t =
        ((d.settle (p.id first.other) (p.leg first.other) r).clearInflight p,
          .finished first none) := by
      unfold partnerSettled settle
      dsimp only
      rw [if_neg hpos, applyPartial_of_not_pos d _ hpos]
    rw [heq] at hk ⊢
    rw [(clearInflight_seq_oms _ p).1, settle_seq] at hk
    exact settle_finished hwired hv ht hterm hk fun hh => hpos (hfill ▸ hh.2 hs)

/-- What both branches after a filled first leg come to. -/
theorem settle_resting {q : Desk K × PairPc}
    (hq : r.status = .Filled →
      q = ((d.settle (p.id first.other) (p.leg first.other) r).clearInflight p,
        .finished first none))
    (hq' : r.status ≠ .Filled →
      q = (d.settle (p.id first.other) (p.leg first.other) r).hedgeRemaining p first
        (r.qty - r.filledQty) t)
    (hs : v.status = .Filled) (hk : KeysDistinct q.1.engine.seq) :
    Resumed clean d q.1 p { p with pc := q.2 } := by
  by_cases hfilled : r.status = .Filled
  · rw [hq hfilled] at hk ⊢
    rw [(clearInflight_seq_oms _ p).1, settle_seq] at hk
    refine settle_finished hwired hv ht hterm hk fun hh => ?_
    have hex := ht.sound.filled_iff.mp ((ht.knows.filled_iff hterm).mp hfilled)
    have hlt := hh.1
    rw [hex, sub_self] at hlt
    exact absurd hlt (not_lt.mpr ExecutionEngine.qtyEps_pos.le)
  · rw [hq' hfilled] at hk ⊢
    exact settle_hedge hwired hv ht hterm hd t (fun hn => absurd hs hn) hk

theorem restingRaced_resumed (hs : v.status = .Filled)
    (hk : KeysDistinct (d.restingRaced p first r t).1.engine.seq) :
    Resumed clean d (d.restingRaced p first r t).1 p
      { p with pc := (d.restingRaced p first r t).2 } := by
  refine settle_resting hwired hv ht hterm hd t (fun hfilled => ?_) (fun hfilled => ?_) hs hk
  · have hpos := ht.filledQty_pos hterm hfilled
    unfold restingRaced settle
    rw [if_pos hfilled, applyPartial_of_pos d _ hpos]
  · unfold restingRaced
    rw [if_neg hfilled]
    rfl

theorem restingSettled_resumed (hs : v.status = .Filled)
    (hk : KeysDistinct (d.restingSettled p first r t).1.engine.seq) :
    Resumed clean d (d.restingSettled p first r t).1 p
      { p with pc := (d.restingSettled p first r t).2 } := by
  refine settle_resting hwired hv ht hterm hd t (fun hfilled => ?_) (fun hfilled => ?_) hs hk
  · have hpos := ht.filledQty_pos hterm hfilled
    unfold restingSettled settle
    dsimp only
    rw [if_pos hfilled, applyPartial_of_pos d _ hpos]
    rfl
  · unfold restingSettled
    dsimp only
    rw [if_neg hfilled, releaseTerminal_applyPartial]

end

/-! ## The steps of a pair -/

theorem sendLeg2_resumed (hwired : p.Wired d.engine.seq) (hok : p.Ok d)
    (hpc : p.pc = .sendingLeg1) :
    Resumed clean d (d.sendLeg p .leg2) p { p with pc := .sendingLeg2 } := by
  unfold PairTask.Ok at hok
  rw [hpc] at hok
  obtain ⟨ht, hp, hq⟩ := hok
  have hframe := frame_sendOrder d p.id2 p.leg2.symbol p.leg2.side p.leg2.qty
  refine ⟨⟨?_, hp.send hq⟩, fun _ hb => ?_⟩
  · refine (Keeps.of_cell_eq (hframe.cell _ (hwired.id_lt .leg1) ?_) rfl).tracked _ ht
    have hne : p.id1 ≠ p.id2 := hwired.id_ne .leg1
    show p.id1 ∉ [p.id2]
    simpa using hne
  · refine hb.grow le_rfl rfl rfl (fun _ _ => rfl) (fun n hge hlt => ?_) fun n => ?_
    · exact absurd hlt (not_lt.mpr hge)
    · by_cases hn : n = p.id2
      · subst hn
        obtain ⟨price, t, hr⟩ := hp.record
        exact Or.inr ⟨hb.tracked _ (hwired.id_lt .leg2) (by rw [hr]; rfl), hp.order, _,
          Function.update_self .., rfl⟩
      · exact Or.inl (Function.update_of_ne hn ..)

theorem threw_resumed (hok : p.Ok d) :
    Resumed clean d (d.clearInflight p) p { p with pc := .threw p.pc } := by
  refine ⟨?_, fun _ hb => hb.clearInflight p⟩
  show PairTask.Stage _ _ p.pc
  rw [PairTask.stage_setPc]
  exact hok.keeps fun n _ => .of_cell_eq (cell_clearInflight d p n) rfl

theorem racing_tracked (hok : p.Ok d) (hpc : p.pc = .racing) (x : LegIx) :
    d.Tracked (p.id x) (p.leg x) := by
  unfold PairTask.Ok at hok
  rw [hpc] at hok
  cases x with
  | leg1 => exact hok.1
  | leg2 => exact hok.2

/-! ## Receiving and waiting -/

/-- How the pair goes on once the order is settled with the record `r`. -/
def Settles (clean : Prop) (p : PairTask K) (n : Nat) (leg : ArbLeg K) (v : VenueOrder K)
    (r : OrderRecord K) (settled : Desk K → OrderRecord K → Desk K × PairPc) : Prop :=
  ∀ d : Desk K, d.Ok → p.Wired d.engine.seq → p.Ok d → d.Tracks n leg v r →
    r.status.isTerminal = true → KeysDistinct (settled d r).1.engine.seq →
    Resumed clean d (settled d r).1 p { p with pc := (settled d r).2 }

/-- A message on the channel of a tracked order, where `settled` goes on. -/
theorem receiveOn_resumed (hd : d.Ok) (hwired : p.Wired d.engine.seq) (hok : p.Ok d) {n : Nat}
    {leg : ArbLeg K} (ht : d.Tracks n leg v r)
    {settled : Desk K → OrderRecord K → Desk K × PairPc} {pc' : PairPc}
    (h : d.receiveOn p n settled = some (d', pc')) (hk : KeysDistinct d'.engine.seq)
    (hs : Settles clean p n leg v r settled) :
    Resumed clean d d' p { p with pc := pc' } := by
  obtain ⟨⟨m, d₁⟩, htake, h⟩ := Option.map_eq_some_iff.mp h
  have hok₁ : p.Ok d₁ := hok.keeps fun k _ => takeMsg_keeps htake k
  obtain ⟨ht₁, hm⟩ := ht.takeMsg htake
  dsimp only at h
  split_ifs at h with hterm
  · have hmr := hm rfl hterm
    rw [hmr] at h hterm
    have hres := hs d₁ (hd.takeMsg htake) ((takeMsg_seq htake).1.symm ▸ hwired) hok₁ ht₁ hterm
      (by rw [h]; exact hk)
    rw [h] at hres
    exact hres.after fun _ hb => hb.takeMsg htake
  · cases h
    exact ⟨hok₁, fun _ hb => hb.takeMsg htake⟩

/-- The acknowledgement timer expires only for an order that is settled. -/
def AckInTime (d : Desk K) (p : PairTask K) (r : Resumption) : Bool :=
  match p.pc, r with
  | .awaitingPartner first, .timeout _ | .awaitingResting first, .timeout _ =>
    (d.exchange (p.id first.other)).all VenueOrder.Acked
  | _, _ => true

/-- The message that ends the race of the legs tells of a filled order or of one
without a fill. -/
def FirstClean (d : Desk K) (p : PairTask K) (r : Resumption) : Bool :=
  match p.pc, r with
  | .racing, .receive w _ => (d.engine.chans (p.chan w)).head?.all fun m =>
      !m.status.isTerminal || decide (m.status = .Filled ∨ m.filledQty = 0)
  | _, _ => true

/-- `await_authoritative_after_cancel`, entered for a tracked order. -/
theorem awaitAuthoritative_cases {n : Nat} {leg : ArbLeg K} (ht : d.Tracks n leg v r)
    (settled : Desk K → OrderRecord K → Desk K × PairPc) (pc : PairPc) :
    r.status.isTerminal = true ∧ d.awaitAuthoritative n settled pc = settled d r ∨
      d.awaitAuthoritative n settled pc = (d, pc) := by
  have hget : d.engine.oms.get (orderKey n) = some r := ht.record
  unfold awaitAuthoritative settledRecord
  rw [hget]
  by_cases hterm : r.status.isTerminal = true
  · exact Or.inl ⟨hterm, by rw [Option.filter_some, if_pos hterm]⟩
  · exact Or.inr (by rw [Option.filter_some, if_neg hterm])

/-- The timer expires in time: the fallback is the settled record. -/
theorem lastKnown_of_acked {n : Nat} {leg : ArbLeg K} (ht : d.Tracks n leg v r)
    (ha : (d.exchange n).all VenueOrder.Acked = true) {c : Nat} {lost : Bool} {d₁ : Desk K}
    (hl : d.loseMsg c lost = some d₁) :
    d₁.lastKnown n = r ∧ r.status.isTerminal = true := by
  have hord : d.exchange n = some v := ht.order
  rw [hord] at ha
  have hget : d₁.engine.oms.get (orderKey n) = some r := (ht.loseMsg hl).record
  refine ⟨?_, ht.knows.isTerminal ha⟩
  unfold lastKnown
  rw [hget]
  rfl

/-- The cancel is sent: the pair goes on with the settled record, or waits for
it. -/
theorem awaitAuthoritative_resumed (hd : d.Ok) (hwired : p.Wired d.engine.seq) (hok : p.Ok d)
    {n : Nat} {leg : ArbLeg K} (ht : d.Tracks n leg v r)
    {settled : Desk K → OrderRecord K → Desk K × PairPc} {pc pc' : PairPc}
    (h : d.awaitAuthoritative n settled pc = (d', pc'))
    (hstay : ({ p with pc := pc } : PairTask K).Ok d) (hk : KeysDistinct d'.engine.seq)
    (hs : Settles clean p n leg v r settled) :
    Resumed clean d d' p { p with pc := pc' } := by
  rcases awaitAuthoritative_cases ht settled pc with ⟨hterm, heq⟩ | heq
  · rw [heq] at h
    have hres := hs d hd hwired hok ht hterm (by rw [h]; exact hk)
    rw [h] at hres
    exact hres
  · rw [heq] at h
    cases h
    exact ⟨hstay, fun _ hb => hb⟩

/-- The timer expires in time: the pair goes on with the settled record. -/
theorem timeout_resumed (hd : d.Ok) (hwired : p.Wired d.engine.seq) (hok : p.Ok d)
    {n : Nat} {leg : ArbLeg K} (ht : d.Tracks n leg v r)
    (ha : (d.exchange n).all VenueOrder.Acked = true) {c : Nat}
    {lost : Bool} {settled : Desk K → OrderRecord K → Desk K × PairPc} {pc' : PairPc}
    (h : ((d.loseMsg c lost).map fun e => settled e (e.lastKnown n)) = some (d', pc'))
    (hk : KeysDistinct d'.engine.seq) (hs : Settles clean p n leg v r settled) :
    Resumed clean d d' p { p with pc := pc' } := by
  obtain ⟨d₁, hlose, h⟩ := Option.map_eq_some_iff.mp h
  obtain ⟨hlast, hterm⟩ := lastKnown_of_acked ht ha hlose
  rw [hlast] at h
  have hok₁ : p.Ok d₁ := hok.keeps fun k _ => loseMsg_keeps hlose k
  have hres := hs d₁ (hd.loseMsg hlose) ((loseMsg_seq hlose).symm ▸ hwired) hok₁
    (ht.loseMsg hlose) hterm (by rw [h]; exact hk)
  rw [h] at hres
  exact hres.after fun _ hb => hb.loseMsg hlose

/-! ## The first leg, and the hedge -/

variable [IsStrictOrderedRing K]

theorem firstSettled_resumed (hwired : p.Wired d.engine.seq)
    (ht : d.Tracks (p.id first) (p.leg first) v r)
    (ho : d.Tracked (p.id first.other) (p.leg first.other))
    (hterm : r.status.isTerminal = true) (hk : KeysDistinct d.engine.seq) :
    Resumed (r.status = .Filled ∨ r.filledQty = 0) d (d.firstSettled p first r).1 p
      { p with pc := (d.firstSettled p first r).2 } := by
  have hn := hwired.id_lt first
  have hfill := ht.knows.filledQty hterm
  have hiff := ht.knows.filled_iff hterm
  have hother : p.id first.other ∉ [p.id first] := by
    simpa using (hwired.id_ne first).symm
  unfold firstSettled
  by_cases hfilled : r.status = .Filled
  · rw [if_neg (not_not.mpr hfilled)]
    have hpos := ht.filledQty_pos hterm hfilled
    have hsettle : (d.applyFillPnl r (p.leg first)).releaseTerminal (p.id first) =
        d.settle (p.id first) (p.leg first) r := by
      unfold settle
      rw [applyPartial_of_pos d _ hpos]
    rw [hsettle]
    have hframe := frame_settle hk hn (p.leg first) r
    refine ⟨⟨⟨v, ht.settle hterm _, hiff.mp hfilled⟩, ?_⟩,
      fun _ hb => hb.settle_partial hk hn ht hterm⟩
    exact (Keeps.of_cell_eq (hframe.cell _ (hwired.id_lt first.other) hother)
      hframe.orderId).tracked _ ho
  · rw [if_pos hfilled]
    have hframe := frame_releaseTerminal hk hn (List.mem_singleton_self (p.id first))
    refine ⟨⟨⟨v, ?_, fun hv => hfilled (hiff.mpr hv)⟩, ?_⟩, fun hclean hb => ?_⟩
    · exact (Keeps.of_cell_eq (cell_cancelOrder ..) rfl).settled _ v (ht.release hterm)
    · refine (Keeps.of_cell_eq (cell_cancelOrder ..) rfl).tracked _ ?_
      exact (Keeps.of_cell_eq (hframe.cell _ (hwired.id_lt first.other) hother)
        hframe.orderId).tracked _ ho
    · have hz : v.executed = 0 := hfill ▸ hclean.resolve_left hfilled
      exact (hb.settle_empty hk hn ht hterm hz).of_eq rfl rfl rfl rfl rfl

theorem hedgeSettled_resumed (hwired : p.Wired d.engine.seq) {h : Nat}
    (hhedge : p.hedge = some h) (hv : d.Settled (p.id first) (p.leg first) v)
    (hw : d.Settled (p.id first.other) (p.leg first.other) w) (hh : PairTask.Hedges v w)
    {x : VenueOrder K} (ht : d.Tracks h (p.hedgeLeg first w.executed) x r)
    (hterm : r.status.isTerminal = true) (hk : KeysDistinct d.engine.seq) :
    Resumed clean d (d.hedgeSettled p first h r).1 p
      { p with pc := (d.hedgeSettled p first h r).2 } := by
  have hn := hwired.lt h (PairTask.hedge_mem_orders hhedge)
  have hsettled : ∀ y {leg : ArbLeg K} {u : VenueOrder K}, d.Settled (p.id y) leg u →
      (d.settle h (p.leg first.other) r).Settled (p.id y) leg u :=
    fun y _ _ hs => settle_settled hk hn (hwired.id_lt y) (hwired.hedge_ne hhedge y) hs r
  refine ⟨⟨v, w, x, hsettled first hv, hsettled first.other hw, hh, ht.settle hterm _⟩,
    fun _ hb => ?_⟩
  -- the hedge is charged under the symbol and the side of the leg it stands for
  have hbooks := hb.settle_partial hk hn ht hterm
  exact hbooks

/-! ## Every resumption -/

theorem receiveFirst_resumed (hwired : p.Wired d.engine.seq) (hok : p.Ok d)
    (hpc : p.pc = .racing) {x : LegIx} {lost : Bool} {pc' : PairPc}
    (h : d.receiveFirst p x lost = some (d', pc')) (hk : KeysDistinct d.engine.seq) :
    Resumed (d.FirstClean p (.receive x lost) = true) d d' p { p with pc := pc' } := by
  obtain ⟨⟨m, d₁⟩, htake, h⟩ := Option.bind_eq_some_iff.mp h
  rw [hwired.chan] at htake
  have hseq := (takeMsg_seq htake).1
  have hok₁ : p.Ok d₁ := hok.keeps fun k _ => takeMsg_keeps htake k
  obtain ⟨v, r, ht⟩ := racing_tracked hok hpc x
  have hm := (ht.takeMsg htake).2 rfl
  dsimp only at h
  split_ifs at h with hterm
  · obtain ⟨d₂, hlose, h⟩ := Option.map_eq_some_iff.mp h
    rw [hwired.chan] at hlose
    have hmr := hm hterm
    rw [hmr] at h hterm
    have hseq₂ := (loseMsg_seq hlose).trans hseq
    have hok₂ : p.Ok d₂ := hok₁.keeps fun k _ => loseMsg_keeps hlose k
    have ht₂ : d₂.Tracks (p.id x) (p.leg x) v r := (ht.takeMsg htake).1.loseMsg hlose
    have hclean : d.FirstClean p (.receive x lost) = true →
        r.status = .Filled ∨ r.filledQty = 0 := by
      intro hc
      obtain ⟨rest, hchan, -⟩ := cell_takeMsg htake
      unfold FirstClean at hc
      rw [hpc] at hc
      dsimp only at hc
      rw [hwired.chan, show d.engine.chans (p.id x) = m :: rest from hchan, hmr] at hc
      simpa [hterm] using hc
    have hres := firstSettled_resumed (hseq₂.symm ▸ hwired) ht₂
      (racing_tracked hok₂ hpc x.other) hterm (hseq₂.symm ▸ hk)
    rw [h] at hres
    exact ⟨hres.pair, fun hc hb => hres.books (hclean hc) ((hb.takeMsg htake).loseMsg hlose)⟩
  · cases h
    exact ⟨hok₁, fun _ hb => hb.takeMsg htake⟩

section
variable (hd : d.Ok) (hwired : p.Wired d.engine.seq) (hok : p.Ok d) {t : Clock} {pc' : PairPc}

include hd hwired hok

/-- The suspension points after a first leg that was not filled. -/
theorem resume_partner {x : Resumption}
    (hpc : p.pc = .cancelingPartner first ∨ p.pc = .awaitingPartner first)
    (hack : d.AckInTime p x = true) (h : d.resume p x t = some (d', pc'))
    (hk : KeysDistinct d'.engine.seq) : Resumed clean d d' p { p with pc := pc' } := by
  have hstage : ∀ e : Desk K, p.Ok e →
      (∃ v, e.Settled (p.id first) (p.leg first) v ∧ v.status ≠ .Filled) ∧
        e.Tracked (p.id first.other) (p.leg first.other) := by
    intro e he
    unfold PairTask.Ok at he
    rcases hpc with hpc | hpc <;> (rw [hpc] at he; exact he)
  have hhere := hstage d hok
  obtain ⟨w, rec, ht⟩ := hhere.2
  have hdone : Settles clean p (p.id first.other) (p.leg first.other) w rec
      fun e rec => e.partnerSettled p first rec t := by
    intro e he hwe hoke hte hterm hke
    obtain ⟨⟨v, hv, hs⟩, -⟩ := hstage e hoke
    exact partnerSettled_resumed hwe hv hte hterm he t hs hke
  unfold resume at h
  unfold AckInTime at hack
  rcases hpc with hpc | hpc
  · rw [hpc] at h
    cases x with
    | sent =>
      exact awaitAuthoritative_resumed hd hwired hok ht (Option.some.inj h) hhere hk hdone
    | threw =>
      cases h
      rw [← hpc]
      exact threw_resumed hok
    | receive y lost => cases h
    | receiveHedge => cases h
    | timeout lost => cases h
  · rw [hpc] at h hack
    cases x with
    | sent => cases h
    | threw => cases h
    | receive y lost =>
      cases lost with
      | true => cases h
      | false =>
        dsimp only at h
        split_ifs at h with hy
        subst hy
        rw [hwired.chan] at h
        exact receiveOn_resumed hd hwired hok ht h hk hdone
    | receiveHedge => cases h
    | timeout lost =>
      dsimp only at h
      rw [hwired.chan] at h
      exact timeout_resumed hd hwired hok ht hack h hk hdone

theorem resume_resting {x : Resumption}
    (hpc : p.pc = .legTimer first ∨ p.pc = .cancelingResting first ∨
      p.pc = .awaitingResting first)
    (hack : d.AckInTime p x = true) (h : d.resume p x t = some (d', pc'))
    (hk : KeysDistinct d'.engine.seq) : Resumed clean d d' p { p with pc := pc' } := by
  have hstage : ∀ e : Desk K, p.Ok e →
      (∃ v, e.Settled (p.id first) (p.leg first) v ∧ v.status = .Filled) ∧
        e.Tracked (p.id first.other) (p.leg first.other) := by
    intro e he
    unfold PairTask.Ok at he
    rcases hpc with hpc | hpc | hpc <;> (rw [hpc] at he; exact he)
  have hhere := hstage d hok
  obtain ⟨w, rec, ht⟩ := hhere.2
  have hdone : Settles clean p (p.id first.other) (p.leg first.other) w rec
      fun e rec => e.restingSettled p first rec t := by
    intro e he hwe hoke hte hterm hke
    obtain ⟨⟨v, hv, hs⟩, -⟩ := hstage e hoke
    exact restingSettled_resumed hwe hv hte hterm he t hs hke
  have hraced : Settles clean p (p.id first.other) (p.leg first.other) w rec
      fun e rec => e.restingRaced p first rec t := by
    intro e he hwe hoke hte hterm hke
    obtain ⟨⟨v, hv, hs⟩, -⟩ := hstage e hoke
    exact restingRaced_resumed hwe hv hte hterm he t hs hke
  unfold resume at h
  unfold AckInTime at hack
  rcases hpc with hpc | hpc | hpc
  · rw [hpc] at h
    cases x with
    | sent => cases h
    | threw => cases h
    | receive y lost =>
      cases lost with
      | true => cases h
      | false =>
        dsimp only at h
        split_ifs at h with hy
        subst hy
        rw [hwired.chan] at h
        exact receiveOn_resumed hd hwired hok ht h hk hraced
    | receiveHedge => cases h
    | timeout lost =>
      obtain ⟨d₁, hlose, h⟩ := Option.map_eq_some_iff.mp h
      cases h
      have hkeep : ∀ k, Keeps d₁ (d₁.cancelOrder (p.leg first.other).symbol
          (clientId (p.id first.other))) k := fun k => .of_cell_eq (cell_cancelOrder ..) rfl
      have hstay := hstage _ ((hok.keeps fun k _ => loseMsg_keeps hlose k).keeps
        fun k _ => hkeep k)
      exact ⟨hstay, fun _ hb => (hb.loseMsg hlose).of_eq rfl rfl rfl rfl rfl⟩
  · rw [hpc] at h
    cases x with
    | sent =>
      exact awaitAuthoritative_resumed hd hwired hok ht (Option.some.inj h) hhere hk hdone
    | threw =>
      cases h
      rw [← hpc]
      exact threw_resumed hok
    | receive y lost => cases h
    | receiveHedge => cases h
    | timeout lost => cases h
  · rw [hpc] at h hack
    cases x with
    | sent => cases h
    | threw => cases h
    | receive y lost =>
      cases lost with
      | true => cases h
      | false =>
        dsimp only at h
        split_ifs at h with hy
        subst hy
        rw [hwired.chan] at h
        exact receiveOn_resumed hd hwired hok ht h hk hdone
    | receiveHedge => cases h
    | timeout lost =>
      dsimp only at h
      rw [hwired.chan] at h
      exact timeout_resumed hd hwired hok ht hack h hk hdone

theorem resume_hedge {x : Resumption} {n c : Nat}
    (hpc : p.pc = .sendingHedge first n c ∨ p.pc = .watchingHedge first n c)
    (h : d.resume p x t = some (d', pc')) (hk : KeysDistinct d'.engine.seq) :
    Resumed clean d d' p { p with pc := pc' } := by
  have hhedge : p.hedge = some n := by
    rcases hpc with hpc | hpc <;> exact congrArg PairPc.hedge hpc
  have hc : c = n := by
    have hw := hwired.hedge
    rcases hpc with hpc | hpc <;> (rw [hpc] at hw; exact hw)
  have hstage : ∀ e : Desk K, p.Ok e → ∃ v w,
      e.Settled (p.id first) (p.leg first) v ∧
      e.Settled (p.id first.other) (p.leg first.other) w ∧ PairTask.Hedges v w ∧
      e.Tracked n (p.hedgeLeg first w.executed) := by
    intro e he
    unfold PairTask.Ok at he
    rcases hpc with hpc | hpc <;> (rw [hpc] at he; exact he)
  obtain ⟨v, w, hv, hw, hh, u, rec, ht⟩ := hstage d hok
  unfold resume at h
  rcases hpc with hpc | hpc
  · rw [hpc] at h
    cases x with
    | sent =>
      cases h
      have hkeep := fun k => Keeps.of_cell_eq (cell_clearInflight d p k) rfl
      have hstay := hstage _ (hok.keeps fun k _ => hkeep k)
      exact ⟨hstay, fun _ hb => hb.clearInflight p⟩
    | threw =>
      cases h
      rw [← hpc]
      exact threw_resumed hok
    | receive y lost => cases h
    | receiveHedge => cases h
    | timeout lost => cases h
  · rw [hpc] at h
    cases x with
    | sent => cases h
    | threw => cases h
    | receive y lost => cases h
    | receiveHedge =>
      subst hc
      refine receiveOn_resumed hd hwired hok ht h hk ?_
      intro e he hwe hoke hte hterm hke
      obtain ⟨v', w', hv', hw', hh', u', rec', ht'⟩ := hstage e hoke
      -- one order, so one record: what was tracked is what the stage tells of
      have hrec : rec = rec' := Option.some.inj (hte.record.symm.trans ht'.record)
      rw [← hrec] at ht'
      have hseq : (e.hedgeSettled p first c rec).1.engine.seq = e.engine.seq :=
        settle_seq e c (p.leg first.other) rec
      exact hedgeSettled_resumed hwe hhedge hv' hw' hh' ht' hterm (hseq ▸ hke)
    | timeout lost => cases h

omit hd in
theorem resume_race {x : Resumption}
    (hpc : p.pc = .sendingLeg1 ∨ p.pc = .sendingLeg2 ∨ p.pc = .racing)
    (h : d.resume p x t = some (d', pc')) (hk : KeysDistinct d.engine.seq) :
    Resumed (d.FirstClean p x = true) d d' p { p with pc := pc' } := by
  unfold resume at h
  rcases hpc with hpc | hpc | hpc
  · rw [hpc] at h
    cases x with
    | sent =>
      cases h
      exact sendLeg2_resumed hwired hok hpc
    | threw =>
      cases h
      rw [← hpc]
      exact threw_resumed hok
    | receive y lost => cases h
    | receiveHedge => cases h
    | timeout lost => cases h
  · rw [hpc] at h
    cases x with
    | sent =>
      cases h
      have hstage := hok
      unfold PairTask.Ok at hstage
      rw [hpc] at hstage
      exact ⟨hstage, fun _ hb => hb⟩
    | threw =>
      cases h
      rw [← hpc]
      exact threw_resumed hok
    | receive y lost => cases h
    | receiveHedge => cases h
    | timeout lost => cases h
  · rw [hpc] at h
    cases x with
    | receive y lost => exact receiveFirst_resumed hwired hok hpc h hk
    | sent => cases h
    | threw => cases h
    | receiveHedge => cases h
    | timeout lost => cases h

/-- Whatever the suspension point, and however the pair goes on. -/
theorem resume_resumed {x : Resumption} (hack : d.AckInTime p x = true)
    (h : d.resume p x t = some (d', pc')) (hk₀ : KeysDistinct d.engine.seq)
    (hk : KeysDistinct d'.engine.seq) :
    Resumed (d.FirstClean p x = true) d d' p { p with pc := pc' } := by
  cases hpc : p.pc with
  | sendingLeg1 => exact resume_race hwired hok (.inl hpc) h hk₀
  | sendingLeg2 => exact resume_race hwired hok (.inr (.inl hpc)) h hk₀
  | racing => exact resume_race hwired hok (.inr (.inr hpc)) h hk₀
  | cancelingPartner first => exact resume_partner hd hwired hok (.inl hpc) hack h hk
  | awaitingPartner first => exact resume_partner hd hwired hok (.inr hpc) hack h hk
  | legTimer first => exact resume_resting hd hwired hok (.inl hpc) hack h hk
  | cancelingResting first => exact resume_resting hd hwired hok (.inr (.inl hpc)) hack h hk
  | awaitingResting first => exact resume_resting hd hwired hok (.inr (.inr hpc)) hack h hk
  | sendingHedge first n c => exact resume_hedge hd hwired hok (.inl hpc) h hk
  | watchingHedge first n c => exact resume_hedge hd hwired hok (.inr hpc) h hk
  | finished first hedge =>
    unfold resume at h
    rw [hpc] at h
    cases h
  | threw =>
    unfold resume at h
    rw [hpc] at h
    cases h

end

end Desk
end HoloMarket
