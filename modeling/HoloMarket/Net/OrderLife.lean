import HoloMarket.Net.OrderCells
import HoloMarket.Net.Reconcile

/-!
# OrderLife: an order between registration and release

What the exchange guarantees of an order, what a record knows of it while its
events are under way, and that neither an action at the exchange nor a delivery
spoils it.  A settled record is exact: no event is pending and none can follow.
-/

namespace HoloMarket

variable {K : Type*}

namespace VenueOrder

/-- The order `n`, sent for this leg. -/
structure IsFor (v : VenueOrder K) (n : Nat) (leg : ArbLeg K) (x : Int) : Prop where
  clientOrderId : v.clientOrderId = clientId n
  symbol : v.symbol = leg.symbol
  side : v.side = leg.side
  qty : v.qty = leg.qty
  orderId : v.orderId = x

theorem isFor_arrive (n : Nat) (leg : ArbLeg K) (x : Int) :
    (arrive (clientId n) leg.symbol leg.side leg.qty x).IsFor n leg x :=
  ⟨rfl, rfl, rfl, rfl, rfl⟩

/-- The order is closed and everything about it has been delivered. -/
def Acked (v : VenueOrder K) : Bool := v.status.isClosed && v.outbox.isEmpty

theorem acked_iff {v : VenueOrder K} :
    v.Acked = true ↔ v.status.isClosed = true ∧ v.outbox = [] := by
  unfold Acked
  rw [Bool.and_eq_true, List.isEmpty_iff]

end VenueOrder

variable [Field K] [LinearOrder K]

theorem VenueOrder.IsFor.act {v v' : VenueOrder K} {n : Nat} {leg : ArbLeg K} {x : Int}
    (h : v.IsFor n leg x) {a : VenueAction K} {tMs : Int} (ha : v.act a tMs = some v') :
    v'.IsFor n leg x := by
  obtain ⟨-, hcid, hsym, hside, hqty, hoid, -⟩ := VenueOrder.act_eq_some ha
  exact ⟨hcid.trans h.clientOrderId, hsym.trans h.symbol, hside.trans h.side,
    hqty.trans h.qty, hoid.trans h.orderId⟩

/-! ## The exchange -/

namespace VenueOrder

/-- What the exchange guarantees of an order of positive quantity. -/
structure Sound (v : VenueOrder K) : Prop where
  pos : 0 < v.qty
  fills : v.FillsPos
  le : v.executed ≤ v.qty
  filled_iff : v.status = .Filled ↔ v.executed = v.qty
  unknown : v.status = .Unknown → v.fills = [] ∧ v.outbox = []

variable {v v' : VenueOrder K}

theorem sound_arrive {cid symbol : String} {side : Side} {qty : K} (hq : 0 < qty) (x : Int) :
    (arrive cid symbol side qty x).Sound where
  pos := hq
  fills _ hf := absurd hf List.not_mem_nil
  le := hq.le
  filled_iff := iff_of_false nofun hq.ne
  unknown _ := ⟨rfl, rfl⟩

theorem Sound.pop (h : v.Sound) : v.pop.Sound where
  pos := h.pos
  fills := h.fills
  le := h.le
  filled_iff := h.filled_iff
  unknown hs := ⟨(h.unknown hs).1, by
    show v.outbox.tail = []
    rw [(h.unknown hs).2]
    rfl⟩

theorem nextStatus_ne_unknown {a : VenueAction K} (h : v.Allows a) :
    v.nextStatus a ≠ .Unknown := by
  intro hs
  cases a with
  | accept => cases hs
  | fill q p c =>
    replace hs : v.statusAfter q = .Unknown := hs
    unfold statusAfter at hs
    split_ifs at hs
  | note =>
    replace hs : v.status = .Unknown := hs
    replace h : v.status.isWorking = true := h
    rw [hs] at h
    cases h
  | finish s =>
    replace hs : s = .Unknown := hs
    rw [hs] at h
    cases h.2.1

/-- Only an execution fills. -/
theorem nextStatus_ne_filled {a : VenueAction K} (h : v.Allows a) (he : a.execution = []) :
    v.nextStatus a ≠ .Filled := by
  intro hs
  cases a with
  | accept => cases hs
  | fill q p c => cases he
  | note =>
    have hopen := h.isClosed_eq_false
    replace hs : v.status = .Filled := hs
    rw [hs] at hopen
    cases hopen
  | finish s => exact h.2.2 hs

theorem Sound.act (h : v.Sound) {a : VenueAction K} {tMs : Int} (ha : v.act a tMs = some v') :
    v'.Sound := by
  have hfills := h.fills.act ha
  have htotals := act_totals ha
  obtain ⟨hallow, rfl⟩ := act_spec ha
  have hopen : v.status ≠ .Filled := by
    intro hs
    have hclosed := hallow.isClosed_eq_false
    rw [hs] at hclosed
    cases hclosed
  have hunknown := nextStatus_ne_unknown hallow
  rcases htotals with ⟨q, p, c, rfl, -, -, hex, -⟩ | ⟨hnil, -, hex, -⟩
  · refine ⟨h.pos, hfills, ?_, ?_, fun hs => absurd hs hunknown⟩
    · rw [hex]
      exact hallow.2.2.2
    · rw [hex]
      show v.statusAfter q = .Filled ↔ v.executed + q = v.qty
      unfold statusAfter
      split_ifs with hq
      · exact iff_of_true rfl hq
      · exact iff_of_false nofun hq
  · refine ⟨h.pos, hfills, ?_, ?_, fun hs => absurd hs hunknown⟩
    · rw [hex]
      exact h.le
    · rw [hex]
      exact iff_of_false (nextStatus_ne_filled hallow hnil)
        fun he => hopen (h.filled_iff.mpr he)

theorem Sound.refuse (h : v.Sound) (hs : v.status = .Unknown) :
    ({ v with status := .Rejected } : VenueOrder K).Sound where
  pos := h.pos
  fills := h.fills
  le := h.le
  filled_iff := by
    have hne : v.executed ≠ v.qty := by
      intro he
      rw [h.filled_iff.mpr he] at hs
      cases hs
    exact iff_of_false nofun hne
  unknown := nofun

end VenueOrder

/-! ## The record -/

/-- What the record `r` knows of the order `v`, given the events under way. -/
structure Knows (v : VenueOrder K) (r : OrderRecord K) : Prop where
  follows : Follows 0 v (v.heard r)
  filled : (v.heard r).status = .Filled ↔ v.status = .Filled
  ident : (v.heard r).filledQty ≠ 0 → (v.heard r).exchangeOrderId = v.orderId
  done : r.status.isTerminal = true → v.outbox = []
  cid : r.clientOrderId = v.clientOrderId
  qty : r.qty = v.qty

section
variable {v v' : VenueOrder K} {r : OrderRecord K}

theorem mapStatus_text_filled (s : VenueStatus) : mapStatus s.text = .Filled ↔ s = .Filled := by
  cases s <;> decide

theorem knows_arrive (n : Nat) (symbol : String) (side : Side) (price qty : K) (x : Int)
    (t : Clock) :
    Knows (VenueOrder.arrive (clientId n) symbol side qty x)
      (OrderRecord.fresh (clientId n) symbol side price qty t) where
  follows := follows_arrive (clientId n) symbol side price qty x t
  filled := iff_of_false nofun nofun
  ident h := absurd rfl h
  done h := nomatch h
  cid := makeClientId_clientId n
  qty := rfl

/-- A delivery moves knowledge from the outbox into the record. -/
theorem heard_pop {o : OrderTradeUpdate K} {rest : List (OrderTradeUpdate K)}
    (ho : v.outbox = o :: rest) (r : OrderRecord K) : v.pop.heard (o.applyTo r) = v.heard r := by
  unfold VenueOrder.heard VenueOrder.pop
  rw [ho]
  rfl

theorem applyTo_qty (o : OrderTradeUpdate K) (r : OrderRecord K) : (o.applyTo r).qty = r.qty := by
  unfold OrderTradeUpdate.applyTo
  cases o.read with
  | none => rfl
  | some q => exact OrderRecord.update_qty ..

theorem applyTo_clientOrderId (o : OrderTradeUpdate K) (r : OrderRecord K) :
    (o.applyTo r).clientOrderId = r.clientOrderId := by
  unfold OrderTradeUpdate.applyTo
  cases o.read with
  | none => rfl
  | some q => exact OrderRecord.update_clientOrderId ..

theorem Knows.deliver (h : Knows v r) (hq : v.QueueOk) {o : OrderTradeUpdate K}
    {rest : List (OrderTradeUpdate K)} (ho : v.outbox = o :: rest) :
    Knows v.pop (o.applyTo r) := by
  have hheard := heard_pop ho r
  refine ⟨?_, ?_, ?_, fun ht => ?_, ?_, ?_⟩
  · rw [hheard]
    exact ⟨h.follows.fills, h.follows.status, h.follows.filledQty, h.follows.cost, h.follows.idle⟩
  · rw [hheard]
    exact h.filled
  · rw [hheard]
    exact h.ident
  · obtain ⟨u, hu⟩ := hq.read o (by rw [ho]; exact List.mem_cons_self)
    have hs : o.settles = true := by
      unfold OrderTradeUpdate.applyTo at ht
      rw [hu] at ht
      unfold OrderTradeUpdate.settles
      rw [hu]
      exact ht
    show v.outbox.tail = []
    rw [ho]
    exact hq.tail_eq_nil ho hs
  · rw [applyTo_clientOrderId]
    exact h.cid
  · rw [applyTo_qty]
    exact h.qty

theorem Knows.heard_eq (h : Knows v r) (ht : r.status.isTerminal = true) : v.heard r = r := by
  unfold VenueOrder.heard
  rw [h.done ht]
  rfl

theorem Knows.isClosed (h : Knows v r) (ht : r.status.isTerminal = true) :
    v.status.isClosed = true := by
  have hs := h.follows.status
  rw [h.heard_eq ht, ht] at hs
  exact hs.symm

theorem Knows.filledQty (h : Knows v r) (ht : r.status.isTerminal = true) :
    r.filledQty = v.executed := by
  have hf := h.follows.filledQty
  rwa [h.heard_eq ht] at hf

theorem Knows.filled_iff (h : Knows v r) (ht : r.status.isTerminal = true) :
    r.status = .Filled ↔ v.status = .Filled := by
  have hf := h.filled
  rwa [h.heard_eq ht] at hf

/-- And once everything has been delivered, the record of a closed order is
settled. -/
theorem Knows.isTerminal (h : Knows v r) (ha : v.Acked = true) : r.status.isTerminal = true := by
  obtain ⟨hc, ho⟩ := VenueOrder.acked_iff.mp ha
  have hs := h.follows.status
  unfold VenueOrder.heard at hs
  rw [ho, hc] at hs
  exact hs

/-- A refused order has executed nothing, and its record says so. -/
theorem Knows.refuse (h : Knows v r) (hv : v.Sound) (hs : v.status = .Unknown) (nowNs : Int) :
    Knows { v with status := .Rejected }
      ((ExecutionEngine.rejectArgs nowNs : UpdateArgs K).applyTo r) := by
  obtain ⟨hfills, hout⟩ := hv.unknown hs
  have hheard (w : VenueOrder K) (hw : w.outbox = []) (r : OrderRecord K) : w.heard r = r := by
    unfold VenueOrder.heard
    rw [hw]
    rfl
  have hf := h.follows
  rw [hheard v hout] at hf
  have hzero : r.filledQty = 0 := by
    rw [hf.filledQty, VenueOrder.executed, hfills]
    rfl
  have hfill : r.applyFill 0 0 = r := r.applyFill_stale hzero.ge 0
  refine ⟨?_, ?_, ?_, fun _ => hout, ?_, ?_⟩
  · rw [hheard _ (show ({ v with status := .Rejected } : VenueOrder K).outbox = [] from hout)]
    refine ⟨hf.fills, rfl, ?_, ?_, fun _ => ?_⟩
    · show (r.applyFill 0 0).filledQty = _
      rw [hfill]
      exact hf.filledQty
    · show (r.applyFill 0 0).cost = _
      rw [hfill]
      exact hf.cost
    · show (r.applyFill 0 0).avgFillPrice = 0
      rw [hfill]
      exact hf.idle hzero
  · rw [hheard _ (show ({ v with status := .Rejected } : VenueOrder K).outbox = [] from hout)]
    exact iff_of_false (OrderStatus.noConfusion ·) (VenueStatus.noConfusion ·)
  · rw [hheard _ (show ({ v with status := .Rejected } : VenueOrder K).outbox = [] from hout)]
    show (r.applyFill 0 0).filledQty ≠ 0 → _
    rw [hfill]
    exact fun hne => absurd hzero hne
  · exact (OrderRecord.update_clientOrderId ..).trans h.cid
  · exact (OrderRecord.update_qty ..).trans h.qty

variable [IsStrictOrderedRing K]

theorem Knows.act (h : Knows v r) {a : VenueAction K} {tMs : Int} (ha : v.act a tMs = some v') :
    Knows v' r := by
  obtain ⟨hopen, hcid, -, -, hqty, hoid, -⟩ := VenueOrder.act_eq_some ha
  have hheard := VenueOrder.heard_act ha r
  refine ⟨?_, ?_, ?_, fun ht => ?_, ?_, ?_⟩
  · rw [hheard]
    exact h.follows.act ha ..
  · rw [hheard, OrderRecord.update_status]
    exact mapStatus_text_filled v'.status
  · rw [hheard, OrderRecord.update_exchangeOrderId]
    exact fun _ => rfl
  · rw [h.isClosed ht] at hopen
    cases hopen
  · rw [hcid]
    exact h.cid
  · rw [hqty]
    exact h.qty

end

end HoloMarket
