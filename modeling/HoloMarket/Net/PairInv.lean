import HoloMarket.Net.DeskBook

/-!
# PairInv: what a pair knows at each suspension point

The legs of a pair are tracked until they are released, and then they are
settled: as long as the acknowledgement timer expires only for orders that are
settled, what the pair computes with are the exchange's own totals.
-/

namespace HoloMarket

variable {K : Type*}

namespace PairPc

def hedge : PairPc → Option Nat
  | .sendingHedge _ h _ | .watchingHedge _ h _ => some h
  | .finished _ h => h
  | .threw point => point.hedge
  | _ => none

/-- A hedge has the channel of its number. -/
def HedgeWired : PairPc → Prop
  | .sendingHedge _ h c | .watchingHedge _ h c => c = h
  | .threw point => point.HedgeWired
  | _ => True

end PairPc

namespace PairTask

def hedge (p : PairTask K) : Option Nat := p.pc.hedge

def orders (p : PairTask K) : List Nat := p.id1 :: p.id2 :: p.hedge.toList

/-- The orders of a pair are its own, and each has its own channel. -/
structure Wired (p : PairTask K) (N : Nat) : Prop where
  chan1 : p.chan1 = p.id1
  chan2 : p.chan2 = p.id2
  hedge : p.pc.HedgeWired
  nodup : p.orders.Nodup
  lt : ∀ n ∈ p.orders, n < N

section
variable {p : PairTask K} {N : Nat}

theorem id_mem_orders (p : PairTask K) (w : LegIx) : p.id w ∈ p.orders := by
  cases w with
  | leg1 => exact List.mem_cons_self
  | leg2 => exact List.mem_cons_of_mem _ List.mem_cons_self

theorem Wired.chan (h : p.Wired N) (w : LegIx) : p.chan w = p.id w := by
  cases w with
  | leg1 => exact h.chan1
  | leg2 => exact h.chan2

theorem Wired.mono {M : Nat} (h : p.Wired N) (hNM : N ≤ M) : p.Wired M :=
  ⟨h.chan1, h.chan2, h.hedge, h.nodup, fun n hn => lt_of_lt_of_le (h.lt n hn) hNM⟩

theorem Wired.id_lt (h : p.Wired N) (w : LegIx) : p.id w < N := h.lt _ (p.id_mem_orders w)

theorem Wired.id_ne (h : p.Wired N) (w : LegIx) : p.id w ≠ p.id w.other := by
  have hne : p.id1 ≠ p.id2 := by
    have hnd := (List.nodup_cons.mp h.nodup).1
    exact fun he => hnd (he ▸ List.mem_cons_self)
  cases w with
  | leg1 => exact hne
  | leg2 => exact hne.symm

theorem Wired.hedge_ne (h : p.Wired N) {n : Nat} (hn : p.hedge = some n) (w : LegIx) :
    p.id w ≠ n := by
  have hnd := h.nodup
  unfold orders at hnd
  rw [hn] at hnd
  simp only [Option.toList_some, List.nodup_cons, List.mem_cons, List.not_mem_nil, or_false,
    not_or] at hnd
  cases w with
  | leg1 => exact hnd.1.2
  | leg2 => exact hnd.2.1

theorem hedge_mem_orders {n : Nat} (hn : p.hedge = some n) : n ∈ p.orders := by
  unfold orders
  rw [hn]
  exact List.mem_cons_of_mem _ (List.mem_cons_of_mem _ (List.mem_singleton_self n))

/-- What is left of the leg that did not settle first. -/
def hedgeLeg [Sub K] (p : PairTask K) (first : LegIx) (executed : K) : ArbLeg K :=
  { p.leg first.other with qty := (p.leg first.other).qty - executed }

end

variable [Field K] [LinearOrder K]

/-- `hedge_remaining` sends an order: `v` settled first, `w` is the other leg. -/
def Hedges (v w : VenueOrder K) : Prop :=
  ExecutionEngine.qtyEps < w.qty - w.executed ∧ (v.status ≠ .Filled → 0 < w.executed)

/-- The stages of a pair's orders at each suspension point.  A pair that threw is
left where it was. -/
def Stage (d : Desk K) (p : PairTask K) : PairPc → Prop
  | .sendingLeg1 =>
    d.Tracked p.id1 p.leg1 ∧ d.Pending p.id2 p.leg2 ∧ 0 < p.leg2.qty
  | .sendingLeg2 | .racing => d.Tracked p.id1 p.leg1 ∧ d.Tracked p.id2 p.leg2
  | .cancelingPartner first | .awaitingPartner first =>
    (∃ v, d.Settled (p.id first) (p.leg first) v ∧ v.status ≠ .Filled) ∧
      d.Tracked (p.id first.other) (p.leg first.other)
  | .legTimer first | .cancelingResting first | .awaitingResting first =>
    (∃ v, d.Settled (p.id first) (p.leg first) v ∧ v.status = .Filled) ∧
      d.Tracked (p.id first.other) (p.leg first.other)
  | .sendingHedge first h _ | .watchingHedge first h _ =>
    ∃ v w, d.Settled (p.id first) (p.leg first) v ∧
      d.Settled (p.id first.other) (p.leg first.other) w ∧ Hedges v w ∧
      d.Tracked h (p.hedgeLeg first w.executed)
  | .finished first none => ∃ v w, d.Settled (p.id first) (p.leg first) v ∧
      d.Settled (p.id first.other) (p.leg first.other) w ∧ ¬Hedges v w
  | .finished first (some h) => ∃ v w x, d.Settled (p.id first) (p.leg first) v ∧
      d.Settled (p.id first.other) (p.leg first.other) w ∧ Hedges v w ∧
      d.Settled h (p.hedgeLeg first w.executed) x
  | .threw point => p.Stage d point

def Ok (d : Desk K) (p : PairTask K) : Prop := p.Stage d p.pc

/-- The stage is about the orders and the legs, not about where the pair is. -/
theorem stage_setPc (d : Desk K) (p : PairTask K) (pc₀ pc : PairPc) :
    ({ p with pc := pc₀ } : PairTask K).Stage d pc = p.Stage d pc := by
  induction pc with
  | threw point ih => exact ih
  | finished first hedge => cases hedge <;> rfl
  | _ => rfl

theorem Stage.keeps {d d' : Desk K} {p : PairTask K} (hid : ∀ x, Desk.Keeps d d' (p.id x))
    {pc : PairPc} (hhedge : ∀ n, pc.hedge = some n → Desk.Keeps d d' n)
    (h : p.Stage d pc) : p.Stage d' pc := by
  have hid1 : Desk.Keeps d d' p.id1 := hid .leg1
  have hid2 : Desk.Keeps d d' p.id2 := hid .leg2
  induction pc with
  | sendingLeg1 => exact ⟨hid1.tracked _ h.1, hid2.pending _ h.2.1, h.2.2⟩
  | sendingLeg2 | racing => exact ⟨hid1.tracked _ h.1, hid2.tracked _ h.2⟩
  | cancelingPartner first | awaitingPartner first | legTimer first | cancelingResting first
  | awaitingResting first =>
    obtain ⟨⟨v, hv, hs⟩, ht⟩ := h
    exact ⟨⟨v, (hid first).settled _ v hv, hs⟩, (hid first.other).tracked _ ht⟩
  | sendingHedge first n chan | watchingHedge first n chan =>
    obtain ⟨v, w, hv, hw, hh, ht⟩ := h
    exact ⟨v, w, (hid first).settled _ v hv, (hid first.other).settled _ w hw, hh,
      (hhedge n rfl).tracked _ ht⟩
  | finished first hedge =>
    cases hedge with
    | none =>
      obtain ⟨v, w, hv, hw, hh⟩ := h
      exact ⟨v, w, (hid first).settled _ v hv, (hid first.other).settled _ w hw, hh⟩
    | some n =>
      obtain ⟨v, w, x, hv, hw, hh, hx⟩ := h
      exact ⟨v, w, x, (hid first).settled _ v hv, (hid first.other).settled _ w hw, hh,
        (hhedge n rfl).settled _ x hx⟩
  | threw point ih => exact ih hhedge h

/-- Changes that leave every order of the pair in its stage. -/
theorem Ok.keeps {d d' : Desk K} {p : PairTask K} (h : p.Ok d)
    (hk : ∀ n ∈ p.orders, Desk.Keeps d d' n) : p.Ok d' :=
  Stage.keeps (fun x => hk _ (p.id_mem_orders x)) (fun n hn => hk n (hedge_mem_orders hn)) h

end PairTask

/-! ## Messages and releases -/

namespace Desk

variable [Field K] [LinearOrder K] {d d' : Desk K} {n : Nat} {leg : ArbLeg K}
  {v : VenueOrder K} {r : OrderRecord K}

/-- Taking messages leaves an order tracked, and one that settles is the
record. -/
theorem Tracks.takeMsg (ht : d.Tracks n leg v r) {c : Nat} {m : OrderRecord K}
    (h : d.takeMsg c = some (m, d')) :
    d'.Tracks n leg v r ∧ (c = n → m.status.isTerminal = true → m = r) := by
  obtain ⟨rest, hchan, hcell⟩ := cell_takeMsg h
  have hx := (frame_takeMsg h (List.mem_singleton_self c)).orderId
  have hsame : (d'.cell n).record = (d.cell n).record ∧ (d'.cell n).waiter = (d.cell n).waiter ∧
      (d'.cell n).order = (d.cell n).order := by
    rw [hcell]
    split_ifs <;> exact ⟨rfl, rfl, rfl⟩
  refine ⟨⟨hsame.1.trans ht.record, hsame.2.1.trans ht.waiter, hsame.2.2.trans ht.order, ?_,
    hx ▸ ht.isFor, ht.sound, ht.knows⟩, ?_⟩
  · intro m' hm' hterm
    refine ht.chan m' ?_ hterm
    rw [hcell] at hm'
    split_ifs at hm' with hn
    · subst hn
      rw [hchan]
      exact List.mem_cons_of_mem _ hm'
    · exact hm'
  · rintro rfl hterm
    refine ht.chan m ?_ hterm
    rw [hchan]
    exact List.mem_cons_self

theorem Tracks.loseMsg (ht : d.Tracks n leg v r) {c : Nat} {lost : Bool}
    (h : d.loseMsg c lost = some d') : d'.Tracks n leg v r := by
  rcases loseMsg_cases h with rfl | ⟨m, hm⟩
  · exact ht
  · exact (ht.takeMsg hm).1

/-- Messages are taken, or lost, without an order leaving its stage. -/
theorem takeMsg_keeps {c : Nat} {m : OrderRecord K} (h : d.takeMsg c = some (m, d')) (n : Nat) :
    Keeps d d' n := by
  obtain ⟨rest, hchan, hcell⟩ := cell_takeMsg h
  have hx := (takeMsg_seq h).2
  have hsame : (d'.cell n).record = (d.cell n).record ∧
      (d'.cell n).order = (d.cell n).order := by
    rw [hcell]
    split_ifs <;> exact ⟨rfl, rfl⟩
  refine ⟨fun leg hp => ?_, fun leg => ?_, fun leg v hs => ?_, fun leg hp => ?_⟩
  · have hne : n ≠ c := by
      rintro rfl
      rw [hp.chan] at hchan
      cases hchan
    exact (Keeps.of_cell_eq (by rw [hcell, if_neg hne]) hx).pending leg hp
  · rintro ⟨v, r, ht⟩
    exact ⟨v, r, (ht.takeMsg h).1⟩
  · exact ⟨hsame.1.trans hs.record, hsame.2.trans hs.order, hx ▸ hs.isFor, hs.sound, hs.acked⟩
  · exact hp.of_order_eq hsame.2 hx

theorem loseMsg_keeps {c : Nat} {lost : Bool} (h : d.loseMsg c lost = some d') (n : Nat) :
    Keeps d d' n := by
  rcases loseMsg_cases h with rfl | ⟨m, hm⟩
  · exact .of_cell_eq rfl rfl
  · exact takeMsg_keeps hm n

theorem Tracks.filledQty_pos (ht : d.Tracks n leg v r) (hterm : r.status.isTerminal = true)
    (hfilled : r.status = .Filled) : 0 < r.filledQty := by
  rw [ht.knows.filledQty hterm,
    ht.sound.filled_iff.mp ((ht.knows.filled_iff hterm).mp hfilled)]
  exact ht.sound.pos

theorem Tracks.release (ht : d.Tracks n leg v r) (hterm : r.status.isTerminal = true) :
    (d.releaseTerminal n).Settled n leg v := by
  have hcell := (cell_releaseTerminal d (fun _ => rfl)).trans (if_pos (rfl : n = n))
  refine ⟨?_, ?_, ht.isFor, ht.sound, ?_⟩
  · rw [hcell]
  · rw [hcell]
    exact ht.order
  · exact VenueOrder.acked_iff.mpr ⟨ht.knows.isClosed hterm, ht.knows.done hterm⟩

theorem Booked.takeMsg (h : d.Booked) {c : Nat} {m : OrderRecord K}
    (ht : d.takeMsg c = some (m, d')) : d'.Booked := by
  unfold Desk.takeMsg at ht
  split at ht
  · cases ht
  · cases ht
    exact h.of_eq rfl rfl rfl rfl rfl

theorem Booked.loseMsg (h : d.Booked) {c : Nat} {lost : Bool}
    (hl : d.loseMsg c lost = some d') : d'.Booked := by
  rcases loseMsg_cases hl with rfl | ⟨r, hr⟩
  · exact h
  · exact h.takeMsg hr

theorem Booked.clearInflight (h : d.Booked) (p : PairTask K) : (d.clearInflight p).Booked :=
  h.of_eq (clearInflight_seq_oms d p).1 rfl (ExecutionEngine.clearInflight_accounts ..)
    (clearInflight_seq_oms d p).2 rfl

end Desk
end HoloMarket
