import Mathlib.Algebra.Order.BigOperators.Group.List
import Mathlib.Algebra.Order.Field.Rat
import Mathlib.Algebra.Order.Ring.Unbundled.Rat
import Mathlib.Tactic.FieldSimp
import Mathlib.Tactic.Linarith
import Mathlib.Tactic.LinearCombination
import Mathlib.Tactic.Ring
import HoloMarket.Lib.Machine
import HoloMarket.Net.Venue

/-!
# What a reconciliation recovers

A gap in the stream loses a block of an order's events.  The record after the
gap, the reconciliation and all later events is compared with the exchange.
`apply_update` books the whole missed quantity at one price: the average price
of a snapshot, or the price of the next event.
-/

namespace HoloMarket

variable {K : Type*} [Field K]

/-- What an event does to the record of its order. -/
def OrderTradeUpdate.applyTo [LinearOrder K] (o : OrderTradeUpdate K) (r : OrderRecord K) :
    OrderRecord K :=
  match o.read with
  | none => r
  | some (_, u) => u.applyTo r

def OMSCore.deliverAll [LinearOrder K] (oms : OMSCore K) (os : List (OrderTradeUpdate K)) :
    OMSCore K :=
  os.foldl OMSCore.delivered oms

/-- Average price times quantity. -/
def OrderRecord.cost (r : OrderRecord K) : K := r.avgFillPrice * r.filledQty

namespace VenueOrder

/-- The order with its events read. -/
def flush (v : VenueOrder K) : VenueOrder K := { v with outbox := [] }

def stepAt [LinearOrder K] (v : VenueOrder K) (e : VenueAction K × Int) :
    Option (VenueOrder K) :=
  v.act e.1 e.2

/-- From `v` these actions lead to `v'`, and the outbox of `v'` holds their events. -/
def Plays [LinearOrder K] (v : VenueOrder K) (acts : List (VenueAction K × Int))
    (v' : VenueOrder K) : Prop :=
  Machine.run stepAt v.flush acts = some v'

instance [LinearOrder K] (v : VenueOrder K) (acts : List (VenueAction K × Int))
    (v' : VenueOrder K) : Decidable (v.Plays acts v') :=
  inferInstanceAs (Decidable (_ = some v'))

end VenueOrder

section
variable [LinearOrder K]

theorem OMSCore.get_deliverAll {cid : String} {os : List (OrderTradeUpdate K)}
    (hos : ∀ o ∈ os, ∃ u, o.read = some (cid, u)) (oms : OMSCore K) :
    (oms.deliverAll os).get (fnv1a64 cid) =
      (oms.get (fnv1a64 cid)).map fun r => os.foldl (fun r o => o.applyTo r) r := by
  induction os generalizing oms with
  | nil => simp [deliverAll]
  | cons o os ih =>
    obtain ⟨u, hu⟩ := hos o List.mem_cons_self
    have happ : o.applyTo = u.applyTo := by
      funext r
      simp only [OrderTradeUpdate.applyTo, hu]
    show ((oms.delivered o).deliverAll os).get (fnv1a64 cid) = _
    rw [ih (fun o' ho' => hos o' (List.mem_cons_of_mem _ ho')), get_delivered_of_read hu,
      if_pos rfl, Option.map_map]
    simp only [List.foldl_cons, happ]
    rfl

theorem OMSCore.deliverAll_cids (os : List (OrderTradeUpdate K)) (oms : OMSCore K) (k : UInt64)
    (r' : OrderRecord K) (h : (oms.deliverAll os).get k = some r') :
    ∃ r, oms.get k = some r ∧ r.clientOrderId = r'.clientOrderId := by
  induction os generalizing oms with
  | nil => exact ⟨r', h, rfl⟩
  | cons o os ih =>
    obtain ⟨r₁, hr₁, hc₁⟩ := ih (oms.delivered o) h
    obtain ⟨r, hr, hc⟩ := OMSCore.delivered_cids oms o k r₁ hr₁
    exact ⟨r, hr, hc.trans hc₁⟩

/-! ## The fill part of `apply_update` -/

namespace OrderRecord

variable (r : OrderRecord K) {c p : K}

theorem applyFill_stale (hc : c ≤ r.filledQty) (p : K) : r.applyFill c p = r := by
  unfold applyFill
  rw [if_neg fun h => absurd h.1 (not_lt.mpr hc), if_neg (not_lt.mpr hc)]

theorem applyFill_priced (h₀ : 0 ≤ r.filledQty) (hc : r.filledQty < c) (hp : 0 < p) :
    (r.applyFill c p).filledQty = c ∧
      (r.applyFill c p).cost = r.cost + p * (c - r.filledQty) := by
  have hne : c ≠ 0 := (lt_of_le_of_lt h₀ hc).ne'
  unfold applyFill
  rw [if_pos ⟨hc, hp⟩]
  refine ⟨rfl, ?_⟩
  show (r.avgFillPrice * r.filledQty + p * (c - r.filledQty)) / c * c = _
  rw [div_mul_cancel₀ _ hne]
  rfl

theorem applyFill_unpriced (hc : r.filledQty < c) :
    (r.applyFill c 0).filledQty = c ∧ (r.applyFill c 0).avgFillPrice = r.avgFillPrice := by
  unfold applyFill
  rw [if_neg fun h => lt_irrefl 0 h.2, if_pos hc]
  exact ⟨rfl, rfl⟩

end OrderRecord

/-! ## The exchange -/

namespace VenueOrder

/-- Every execution has a positive quantity and a positive price. -/
def FillsPos (v : VenueOrder K) : Prop := ∀ f ∈ v.fills, 0 < f.1 ∧ 0 < f.2

variable {v v' : VenueOrder K}

/-- An action executes a quantity at a price, or changes no total. -/
theorem act_totals {a : VenueAction K} {tMs : Int} (h : v.act a tMs = some v') :
    (∃ q p c, a = .fill q p c ∧ 0 < q ∧ 0 < p ∧ v'.executed = v.executed + q ∧
        v'.notional = v.notional + p * q) ∨
      (a.execution = [] ∧ a.price = none ∧ v'.executed = v.executed ∧
        v'.notional = v.notional) := by
  obtain ⟨hallow, rfl⟩ := act_spec h
  cases a with
  | fill q p c =>
    refine Or.inl ⟨q, p, c, rfl, hallow.2.1, hallow.2.2.1, ?_, ?_⟩
    · simp [executed, emit, VenueAction.execution]
    · simp [notional, emit, VenueAction.execution, mul_comm]
  | accept | note | finish s =>
    refine Or.inr ⟨rfl, rfl, ?_, ?_⟩
    · simp [executed, emit, VenueAction.execution]
    · simp [notional, emit, VenueAction.execution]

theorem FillsPos.act (h : v.FillsPos) {a : VenueAction K} {tMs : Int}
    (ha : v.act a tMs = some v') : v'.FillsPos := by
  obtain ⟨-, -, -, -, -, -, hfills, -⟩ := act_eq_some ha
  intro f hf
  rw [hfills] at hf
  rcases List.mem_append.mp hf with hf | hf
  · exact h f hf
  · rcases act_totals ha with ⟨q, p, c, rfl, hq, hp, -⟩ | ⟨hex, -⟩
    · rw [List.mem_singleton.mp hf]
      exact ⟨hq, hp⟩
    · rw [hex] at hf
      exact absurd hf List.not_mem_nil

/-- The record once it has heard every event in the outbox. -/
def heard (v : VenueOrder K) (r : OrderRecord K) : OrderRecord K :=
  v.outbox.foldl (fun r o => o.applyTo r) r

@[simp] theorem heard_flush (v : VenueOrder K) (r : OrderRecord K) : v.flush.heard r = r := rfl

theorem heard_act {a : VenueAction K} {tMs : Int} (h : v.act a tMs = some v')
    (r : OrderRecord K) :
    v'.heard r = (v.heard r).update (mapStatus v'.status.text) v'.executed (a.price.getD 0)
      v'.orderId (tMs * 1000000) (a.commission.getD 0) := by
  obtain ⟨-, -, -, -, -, -, -, hout⟩ := act_eq_some h
  unfold heard
  rw [hout, List.foldl_append]
  rfl

variable [IsStrictOrderedRing K]

theorem FillsPos.executed_nonneg (h : v.FillsPos) : 0 ≤ v.executed := by
  refine List.sum_nonneg ?_
  intro q hq
  obtain ⟨f, hf, rfl⟩ := List.mem_map.mp hq
  exact (h f hf).1.le

/-- What was executed was executed at a price, and nothing else was. -/
theorem FillsPos.notional_pos_or (h : v.FillsPos) :
    v.executed = 0 ∧ v.notional = 0 ∨ 0 < v.executed ∧ 0 < v.notional := by
  unfold executed notional
  unfold FillsPos at h
  generalize v.fills = fills at h ⊢
  induction fills with
  | nil => exact Or.inl ⟨rfl, rfl⟩
  | cons f fs ih =>
    have hf := h f List.mem_cons_self
    have hfs := ih fun g hg => h g (List.mem_cons_of_mem _ hg)
    have hmul := mul_pos hf.1 hf.2
    simp only [List.map_cons, List.sum_cons]
    right
    rcases hfs with ⟨hq, hn⟩ | ⟨hq, hn⟩
    · rw [hq, hn]
      constructor <;> linarith [hf.1]
    · constructor <;> linarith [hf.1]

theorem executed_le_of_act {a : VenueAction K} {tMs : Int} (h : v.act a tMs = some v') :
    v.executed ≤ v'.executed := by
  rcases act_totals h with ⟨q, p, c, -, hq, -, hex, -⟩ | ⟨-, -, hex, -⟩
  · rw [hex]
    linarith
  · rw [hex]

end VenueOrder

/-! ## A record that keeps up with its order -/

/-- The record `r` has the quantity and the status of `v`; its cost may be off by
`err`. -/
structure Follows (err : K) (v : VenueOrder K) (r : OrderRecord K) : Prop where
  fills : v.FillsPos
  status : r.status.isTerminal = v.status.isClosed
  filledQty : r.filledQty = v.executed
  cost : r.cost = v.notional + err
  idle : r.filledQty = 0 → r.avgFillPrice = 0

/-- The fill state of the record is that of the exchange, the average price
included. -/
def OrderRecord.Matches (r : OrderRecord K) (v : VenueOrder K) : Prop :=
  r.filledQty = v.executed ∧ r.avgFillPrice = v.notional / v.executed

section
variable {v v' : VenueOrder K} {r : OrderRecord K} {err : K}

theorem VenueOrder.Plays.outbox_read {acts : List (VenueAction K × Int)} (hp : v.Plays acts v') :
    v'.clientOrderId = v.clientOrderId ∧
      ∀ o ∈ v'.outbox, ∃ u, o.read = some (v.clientOrderId, u) := by
  refine Machine.run_inv_all (I := fun w => w.clientOrderId = v.clientOrderId ∧
    ∀ o ∈ w.outbox, ∃ u, o.read = some (v.clientOrderId, u)) ?_ (s := v.flush)
    ⟨rfl, nofun⟩ hp
  rintro w e w' ⟨hcid, hread⟩ he
  obtain ⟨-, hcid', -, -, -, -, -, hout⟩ := VenueOrder.act_eq_some he
  refine ⟨hcid'.trans hcid, fun o ho => ?_⟩
  rw [hout] at ho
  rcases List.mem_append.mp ho with ho | ho
  · exact hread o ho
  · rw [List.mem_singleton.mp ho, VenueOrder.report_read, hcid', hcid]
    exact ⟨_, rfl⟩

theorem VenueOrder.acts_of_isClosed (hc : v.status.isClosed = true)
    {acts : List (VenueAction K × Int)} (hp : Machine.run stepAt v acts = some v') :
    acts = [] ∧ v' = v := by
  cases acts with
  | nil =>
    cases hp
    exact ⟨rfl, rfl⟩
  | cons e acts =>
    obtain ⟨w, hw, -⟩ := Option.bind_eq_some_iff.mp hp
    rw [(VenueOrder.act_eq_some hw).1] at hc
    cases hc

/-- What reconciliation reads of a record does not change with its events. -/
theorem VenueOrder.heard_kept (v : VenueOrder K) (r : OrderRecord K) :
    (v.heard r).clientOrderId = r.clientOrderId ∧ (v.heard r).symbol = r.symbol ∧
      (v.heard r).createdMonoNs = r.createdMonoNs := by
  unfold heard
  induction v.outbox generalizing r with
  | nil => exact ⟨rfl, rfl, rfl⟩
  | cons o os ih =>
    obtain ⟨hc, hs, ht⟩ := ih (o.applyTo r)
    rw [List.foldl_cons, hc, hs, ht]
    unfold OrderTradeUpdate.applyTo
    cases o.read with
    | none => exact ⟨rfl, rfl, rfl⟩
    | some q =>
      exact ⟨OrderRecord.update_clientOrderId .., OrderRecord.update_symbol ..,
        OrderRecord.update_createdMonoNs ..⟩

theorem Follows.flush (h : Follows err v r) : Follows err v.flush (v.flush.heard r) :=
  ⟨h.fills, h.status, h.filledQty, h.cost, h.idle⟩

/-- What the first event after the gap makes of the lost executions: the price of
a fill, and otherwise the average so far, stands for theirs. -/
def gapError (seen lost : VenueOrder K) (next : VenueAction K) : K :=
  match next with
  | .fill _ p _ => p * (lost.executed - seen.executed) - (lost.notional - seen.notional)
  | _ =>
    seen.notional / seen.executed * (lost.executed - seen.executed) -
      (lost.notional - seen.notional)

/-- The reconciliation looks the order up and finds it closed. -/
def FoundClosed (t₀ t : Clock) (seen now : VenueOrder K) : Prop :=
  seen.status.isClosed = false ∧ t₀.steadyNs < t.steadyNs ∧ now.status.isClosed = true

instance (t₀ t : Clock) (seen now : VenueOrder K) : Decidable (FoundClosed t₀ t seen now) :=
  inferInstanceAs (Decidable (_ ∧ _ ∧ _))

/-- The gap leaves no trace in the average price. `seen` is the order when the
stream broke, `lost` when the new one began, `now` when the snapshot was taken,
and `next` is the first action the new stream reports. -/
def GapHarmless (t₀ t : Clock) (seen lost now : VenueOrder K) (next : Option (VenueAction K)) :
    Prop :=
  if FoundClosed t₀ t seen now then
    seen.notional * now.executed = now.notional * seen.executed
  else
    match next with
    | none => lost.executed = seen.executed
    | some a => gapError seen lost a = 0

instance (t₀ t : Clock) (seen lost now : VenueOrder K) (next : Option (VenueAction K)) :
    Decidable (GapHarmless t₀ t seen lost now next) :=
  match next with
  | none => inferInstanceAs (Decidable (if FoundClosed t₀ t seen now then
      seen.notional * now.executed = now.notional * seen.executed
    else lost.executed = seen.executed))
  | some a => inferInstanceAs (Decidable (if FoundClosed t₀ t seen now then
      seen.notional * now.executed = now.notional * seen.executed
    else gapError seen lost a = 0))

theorem reconciled_record {cid symbol : String} {now : VenueOrder K}
    (hcid : r.clientOrderId = cid) (hsym : r.symbol = symbol)
    {listed : List (Option String)} {lookup : String → String → Option (OrderBody K)}
    (hlist : fnv1a64 cid ∈ (listed.filterMap id).map fnv1a64 ↔ now.status.isWorking = true)
    (hlook : lookup symbol cid = if now.status = .Unknown then none else some now.body)
    (t : Clock) :
    OMSCore.reconciled listed lookup t r r =
      if now.status.isClosed = true then
        r.update (mapStatus now.status.text) now.executed (now.notional / now.executed)
          now.orderId t.nowNs 0
      else r := by
  unfold OMSCore.reconciled
  rw [hcid, hsym]
  cases hs : now.status with
  | Unknown =>
    rw [hs] at hlist hlook
    rw [if_neg (by rw [hlist]; decide), hlook]
    rfl
  | New | PartiallyFilled =>
    rw [hs] at hlist
    rw [if_pos (hlist.mpr rfl)]
    rfl
  | Filled | Canceled | Expired | Rejected =>
    rw [hs] at hlist hlook
    rw [if_neg (by rw [hlist]; decide), hlook, if_neg nofun, Option.bind_some,
      VenueOrder.body_read, hs]
    rfl

theorem follows_arrive (cid symbol : String) (side : Side) (price qty : K) (orderId : Int)
    (t : Clock) :
    Follows 0 (VenueOrder.arrive cid symbol side qty orderId)
      (OrderRecord.fresh cid symbol side price qty t) where
  fills _ hf := absurd hf List.not_mem_nil
  status := rfl
  filledQty := rfl
  cost := by simp [OrderRecord.cost, OrderRecord.fresh, VenueOrder.notional, VenueOrder.arrive,
    OrderRecord.empty]
  idle _ := rfl

variable [IsStrictOrderedRing K]

/-- Quantity and average are exact as soon as the error is zero. -/
theorem Follows.matches_iff (h : Follows err v r) : r.Matches v ↔ err = 0 := by
  have hcost := h.cost
  unfold OrderRecord.cost at hcost
  rw [h.filledQty] at hcost
  rcases h.fills.notional_pos_or with ⟨hq, hn⟩ | ⟨hq, hn⟩
  · have havg : r.avgFillPrice = 0 := h.idle (h.filledQty.trans hq)
    rw [hq, hn, mul_zero, zero_add] at hcost
    refine iff_of_true ⟨h.filledQty, ?_⟩ hcost.symm
    rw [havg, hq, div_zero]
  · unfold OrderRecord.Matches
    rw [and_iff_right h.filledQty, eq_div_iff hq.ne', hcost]
    exact add_eq_left

/-- An event in step with the record keeps the error. -/
theorem Follows.act (h : Follows err v r) {a : VenueAction K} {tMs : Int}
    (ha : v.act a tMs = some v') (x e : Int) (d : K) :
    Follows err v' (r.update (mapStatus v'.status.text) v'.executed (a.price.getD 0) x e d) := by
  have hcost := h.cost
  have hfill := h.filledQty
  have hnn := h.fills.executed_nonneg
  rcases VenueOrder.act_totals ha with ⟨q, p, c, rfl, hq, hp, hex, hno⟩ | ⟨-, hpr, hex, hno⟩
  · have hlt : r.filledQty < v'.executed := by
      rw [hex, hfill]
      linarith
    obtain ⟨hqty, hc⟩ := r.applyFill_priced (hfill ▸ hnn) hlt hp
    refine ⟨h.fills.act ha, VenueStatus.isTerminal_mapStatus_text _, hqty, ?_, fun h₀ => ?_⟩
    · show (r.applyFill v'.executed p).cost = _
      rw [hc, hcost, hno, hex, hfill]
      ring
    · replace h₀ : (r.applyFill v'.executed p).filledQty = 0 := h₀
      rw [hqty, hex] at h₀
      linarith
  · have hst : r.applyFill v'.executed (a.price.getD 0) = r :=
      r.applyFill_stale (by rw [hex, hfill]) _
    refine ⟨h.fills.act ha, VenueStatus.isTerminal_mapStatus_text _, ?_, ?_, fun h₀ => ?_⟩
    · show (r.applyFill _ _).filledQty = _
      rw [hst, hfill, hex]
    · show (r.applyFill _ _).cost = _
      rw [hst, hcost, hno]
    · replace h₀ : (r.applyFill v'.executed (a.price.getD 0)).filledQty = 0 := h₀
      show (r.applyFill _ _).avgFillPrice = 0
      rw [hst] at h₀ ⊢
      exact h.idle h₀

/-- A record that hears every event keeps its error. -/
theorem Follows.run (h : Follows err v (v.heard r)) {acts : List (VenueAction K × Int)}
    (hp : Machine.run VenueOrder.stepAt v acts = some v') : Follows err v' (v'.heard r) := by
  refine Machine.run_inv_all (I := fun w => Follows err w (w.heard r)) ?_ h hp
  intro w e w' hw he
  rw [VenueOrder.heard_act he]
  exact hw.act he ..

theorem VenueOrder.Plays.executed_le {acts : List (VenueAction K × Int)}
    (hp : v.Plays acts v') :
    v.executed ≤ v'.executed ∧ (v'.executed = v.executed → v'.notional = v.notional) := by
  refine Machine.run_inv_all (I := fun w => v.executed ≤ w.executed ∧
    (w.executed = v.executed → w.notional = v.notional)) ?_ (s := v.flush)
    ⟨le_rfl, fun _ => rfl⟩ hp
  rintro w e w' ⟨hle, heq⟩ he
  rcases VenueOrder.act_totals he with ⟨q, p, c, -, hq, -, hex, -⟩ | ⟨-, -, hex, hno⟩
  · rw [hex]
    exact ⟨by linarith, fun h => by linarith⟩
  · rw [hex, hno]
    exact ⟨hle, heq⟩

/-- Events that report no more than the record has leave its fill state alone. -/
theorem VenueOrder.Plays.heard_stale {acts : List (VenueAction K × Int)} (hp : v.Plays acts v')
    (hle : v'.executed ≤ r.filledQty) :
    (v'.heard r).filledQty = r.filledQty ∧ (v'.heard r).avgFillPrice = r.avgFillPrice := by
  refine Machine.run_inv_all (I := fun w => w.executed ≤ r.filledQty →
    (w.heard r).filledQty = r.filledQty ∧ (w.heard r).avgFillPrice = r.avgFillPrice) ?_
    (s := v.flush) (fun _ => ⟨rfl, rfl⟩) hp hle
  intro w e w' hw he hle'
  obtain ⟨hq, hp⟩ := hw ((VenueOrder.executed_le_of_act he).trans hle')
  rw [VenueOrder.heard_act he, OrderRecord.update_filledQty, OrderRecord.update_avgFillPrice,
    OrderRecord.applyFill_stale _ (hle'.trans hq.ge)]
  exact ⟨hq, hp⟩

/-! ## The two ways over a gap -/

theorem Follows.resume_fill {seen lost : VenueOrder K} (h : Follows 0 seen r)
    (hle : seen.executed ≤ lost.executed) (hfills : v.FillsPos) {q p : K} (hq : 0 < q)
    (hp : 0 < p) (hex : v.executed = lost.executed + q)
    (hno : v.notional = lost.notional + p * q) (c d : K) (x e : Int) :
    Follows (gapError seen lost (.fill q p c)) v
      (r.update (mapStatus v.status.text) v.executed p x e d) := by
  have hnn : 0 ≤ r.filledQty := h.filledQty ▸ h.fills.executed_nonneg
  have hlt : r.filledQty < v.executed := by
    rw [hex, h.filledQty]
    linarith
  obtain ⟨hqty, hc⟩ := r.applyFill_priced hnn hlt hp
  refine ⟨hfills, VenueStatus.isTerminal_mapStatus_text _, hqty, ?_, fun h₀ => ?_⟩
  · show (r.applyFill v.executed p).cost = _
    rw [hc, h.cost, hno, hex, h.filledQty, gapError]
    ring
  · replace h₀ : (r.applyFill v.executed p).filledQty = 0 := h₀
    linarith

theorem Follows.resume_other {seen lost : VenueOrder K} (h : Follows 0 seen r)
    (hle : seen.executed ≤ lost.executed) (hfills : v.FillsPos)
    (hex : v.executed = lost.executed) (hno : v.notional = lost.notional) (d : K) (x e : Int) :
    Follows (seen.notional / seen.executed * (lost.executed - seen.executed) -
        (lost.notional - seen.notional)) v
      (r.update (mapStatus v.status.text) v.executed 0 x e d) := by
  have havg := (h.matches_iff.mpr rfl).2
  have hcost : r.avgFillPrice * r.filledQty = seen.notional := h.cost.trans (add_zero _)
  have hseen : seen.notional / seen.executed * seen.executed = seen.notional := by
    rw [← havg, ← h.filledQty]
    exact hcost
  rcases hle.eq_or_lt with heq | hlt
  · have hst : r.applyFill v.executed 0 = r :=
      r.applyFill_stale (by rw [hex, ← heq, h.filledQty]) 0
    refine ⟨hfills, VenueStatus.isTerminal_mapStatus_text _, ?_, ?_, fun h₀ => ?_⟩
    · show (r.applyFill _ _).filledQty = _
      rw [hst, h.filledQty, heq, hex]
    · show (r.applyFill _ _).cost = _
      rw [hst, h.cost, hno, ← heq]
      ring
    · replace h₀ : (r.applyFill v.executed 0).filledQty = 0 := h₀
      show (r.applyFill _ _).avgFillPrice = 0
      rw [hst] at h₀ ⊢
      exact h.idle h₀
  · obtain ⟨hqty, hav⟩ := r.applyFill_unpriced (c := v.executed)
      (by rw [hex, h.filledQty]; exact hlt)
    refine ⟨hfills, VenueStatus.isTerminal_mapStatus_text _, hqty, ?_, fun h₀ => ?_⟩
    · show (r.applyFill v.executed 0).avgFillPrice * (r.applyFill v.executed 0).filledQty = _
      rw [hqty, hav, havg, hno, hex]
      linear_combination hseen
    · replace h₀ : (r.applyFill v.executed 0).filledQty = 0 := h₀
      rw [hqty, hex] at h₀
      linarith [h.fills.executed_nonneg]

theorem Follows.resume {seen lost : VenueOrder K} (h : Follows 0 seen r)
    (hfills : lost.FillsPos) (hle : seen.executed ≤ lost.executed) {a : VenueAction K}
    {tMs : Int} (ha : lost.flush.act a tMs = some v) :
    Follows (gapError seen lost a) v (v.heard r) := by
  have hv : v.FillsPos := VenueOrder.FillsPos.act (v := lost.flush) hfills ha
  rw [VenueOrder.heard_act ha, VenueOrder.heard_flush]
  rcases VenueOrder.act_totals ha with ⟨q, p, c, rfl, hq, hp, hex, hno⟩ | ⟨-, hpr, hex, hno⟩
  · exact h.resume_fill hle hv hq hp hex hno c ..
  · rw [hpr]
    cases a with
    | fill q p c => cases hpr
    | accept => exact h.resume_other hle hv hex hno ..
    | note => exact h.resume_other hle hv hex hno ..
    | finish s => exact h.resume_other hle hv hex hno ..

/-- A snapshot books the whole difference at the average price of everything. -/
theorem Follows.snapshot {seen now : VenueOrder K} (h : Follows 0 seen r)
    (hfills : now.FillsPos) (hle : seen.executed ≤ now.executed) :
    (r.applyFill now.executed (now.notional / now.executed)).filledQty = now.executed ∧
      ((r.applyFill now.executed (now.notional / now.executed)).avgFillPrice =
          now.notional / now.executed ↔
        seen.notional * now.executed = now.notional * seen.executed) := by
  have havg := (h.matches_iff.mpr rfl).2
  have hcost : r.cost = seen.notional := by rw [h.cost, add_zero]
  have hnn : 0 ≤ r.filledQty := h.filledQty ▸ h.fills.executed_nonneg
  rcases hle.eq_or_lt with heq | hlt
  · rw [r.applyFill_stale (by rw [← heq, h.filledQty]), havg, h.filledQty]
    refine ⟨heq, ?_⟩
    rcases hfills.notional_pos_or with ⟨hq, hn⟩ | ⟨hq, -⟩
    · rw [heq, hq, hn]
      simp
    · rw [div_eq_div_iff (heq ▸ hq.ne') hq.ne']
  · have hpos : 0 < now.executed := lt_of_le_of_lt h.fills.executed_nonneg hlt
    have hnow : 0 < now.notional := by
      rcases hfills.notional_pos_or with ⟨hq, -⟩ | ⟨-, hn⟩
      · exact absurd hq hpos.ne'
      · exact hn
    obtain ⟨hqty, hc⟩ := r.applyFill_priced hnn (h.filledQty ▸ hlt) (div_pos hnow hpos)
    refine ⟨hqty, ?_⟩
    unfold OrderRecord.cost at hc
    rw [hqty] at hc
    rw [eq_div_iff hpos.ne', hc, show r.avgFillPrice * r.filledQty = _ from hcost, h.filledQty]
    field_simp
    constructor
    · intro heq
      linear_combination heq
    · intro heq
      linear_combination heq

/-! ## Every gap -/

theorem matches_after_snapshot {seen lost now last : VenueOrder K} (h : Follows 0 seen r)
    (hfills : now.FillsPos) {B C₁ C₂ : List (VenueAction K × Int)} (hB : seen.Plays B lost)
    (hM : lost.Plays C₁ now) (hE : lost.Plays (C₁ ++ C₂) last)
    (hc : now.status.isClosed = true) (s : OrderStatus) (x e : Int) (d : K) :
    (last.heard (r.update s now.executed (now.notional / now.executed) x e d)).Matches last ↔
      seen.notional * now.executed = now.notional * seen.executed := by
  have hlast : last = now := by
    unfold VenueOrder.Plays at hM hE
    rw [Machine.run_append, hM, Option.bind_some] at hE
    exact (VenueOrder.acts_of_isClosed hc hE).2
  obtain ⟨hqty, hav⟩ := h.snapshot hfills (hB.executed_le.1.trans hM.executed_le.1)
  obtain ⟨hq, hp⟩ := hM.heard_stale
    (r := r.update s now.executed (now.notional / now.executed) x e d) hqty.ge
  rw [hlast]
  unfold OrderRecord.Matches
  rw [hq, hp, OrderRecord.update_filledQty, OrderRecord.update_avgFillPrice,
    and_iff_right hqty, hav]

theorem matches_without_snapshot {seen lost last : VenueOrder K} (h : Follows 0 seen r)
    {B C : List (VenueAction K × Int)} (hB : seen.Plays B lost) (hE : lost.Plays C last) :
    (last.heard r).Matches last ↔
      match C.head?.map Prod.fst with
      | none => lost.executed = seen.executed
      | some a => gapError seen lost a = 0 := by
  obtain ⟨hle, hsame⟩ := hB.executed_le
  cases C with
  | nil =>
    cases hE
    show r.filledQty = lost.executed ∧ r.avgFillPrice = lost.notional / lost.executed ↔
      lost.executed = seen.executed
    obtain ⟨hq, hp⟩ := h.matches_iff.mpr rfl
    rw [hq, hp]
    refine ⟨fun hm => hm.1.symm, fun he => ?_⟩
    rw [hsame he, he]
    exact ⟨rfl, rfl⟩
  | cons e C =>
    have hfills : lost.FillsPos := (h.flush.run hB).fills
    obtain ⟨w, hw, hrest⟩ := Option.bind_eq_some_iff.mp hE
    exact ((h.resume hfills hle hw).run hrest).matches_iff

/-- After a gap, a reconciliation and all later events, quantity and average price
of the record are those of the exchange exactly when the gap is harmless. -/
theorem reconcileOpenOrders_restores_iff {oms : OMSCore K} {cid : String}
    (hk : oms.KeyedAt (fnv1a64 cid)) (hcid : makeClientId cid = cid) (symbol : String)
    (side : Side) (price qty : K) (orderId : Int) (t₀ t : Clock)
    {A B C₁ C₂ : List (VenueAction K × Int)} {seen lost now last : VenueOrder K}
    (hA : (VenueOrder.arrive cid symbol side qty orderId).Plays A seen)
    (hB : seen.Plays B lost) (hM : lost.Plays C₁ now) (hE : lost.Plays (C₁ ++ C₂) last)
    {listed : List (Option String)} {lookup : String → String → Option (OrderBody K)}
    (hlist : fnv1a64 cid ∈ (listed.filterMap id).map fnv1a64 ↔ now.status.isWorking = true)
    (hlook : lookup (makeSymbol symbol) cid =
      if now.status = .Unknown then none else some now.body) :
    (∃ r, (((((oms.registerNewOrder cid symbol side price qty t₀).1.deliverAll
        seen.outbox).reconcileOpenOrders (some listed) lookup t).deliverAll
          last.outbox).get (fnv1a64 cid)) = some r ∧ r.Matches last) ↔
      GapHarmless t₀ t seen lost now ((C₁ ++ C₂).head?.map Prod.fst) := by
  obtain ⟨hcs, hreadA⟩ := hA.outbox_read
  replace hreadA : ∀ o ∈ seen.outbox, ∃ u, o.read = some (cid, u) := hreadA
  obtain ⟨hcl, -⟩ := hB.outbox_read
  obtain ⟨-, hreadE⟩ := hE.outbox_read
  replace hreadE : ∀ o ∈ last.outbox, ∃ u, o.read = some (cid, u) := by
    intro o ho
    obtain ⟨u, hu⟩ := hreadE o ho
    exact ⟨u, by rw [hu, hcl, hcs]; rfl⟩
  -- the record when the stream breaks, and after the reconciliation
  set r₀ := OrderRecord.fresh cid symbol side price qty t₀ with hr₀
  have hseen : Follows 0 seen (seen.heard r₀) :=
    (follows_arrive cid symbol side price qty orderId t₀).flush.run hA
  obtain ⟨hc₁, hs₁, ht₁⟩ := seen.heard_kept r₀
  have hcid₁ : (seen.heard r₀).clientOrderId = cid := hc₁.trans hcid
  have hget₁ : ((oms.registerNewOrder cid symbol side price qty t₀).1.deliverAll
      seen.outbox).get (fnv1a64 cid) = some (seen.heard r₀) := by
    rw [OMSCore.get_deliverAll hreadA, OMSCore.get_registerNewOrder, if_pos rfl, Option.map_some]
    rfl
  have hk₁ := (hk.registerNewOrder hcid symbol side price qty t₀).of_cids
    fun k => OMSCore.deliverAll_cids seen.outbox _ k
  rw [OMSCore.get_deliverAll hreadE, OMSCore.get_reconcileOpenOrders hk₁, hget₁,
    Option.map_some, Option.map_some, reconciled_record hcid₁ hs₁ hlist hlook t]
  have hlive : (seen.heard r₀).status.isLive = true ↔ seen.status.isClosed = false := by
    rw [OrderStatus.isLive_eq_not_isTerminal, hseen.status]
    simp
  have hnow : now.FillsPos := ((hseen.flush.run hB).flush.run hM).fills
  simp only [Option.some.injEq, exists_eq_left', hlive, ht₁]
  unfold GapHarmless
  by_cases hup : FoundClosed t₀ t seen now
  · rw [if_pos hup, if_pos ⟨hup.1, hup.2.1⟩, if_pos hup.2.2]
    exact matches_after_snapshot hseen hnow hB hM hE hup.2.2 ..
  · rw [if_neg hup]
    refine Iff.trans (iff_of_eq ?_) (matches_without_snapshot hseen hB hE)
    congr 1
    show last.heard _ = last.heard _
    congr 1
    split_ifs with h₁ h₂
    · exact absurd ⟨h₁.1, h₁.2, h₂⟩ hup
    · rfl
    · rfl

end

end

/-- A gap that loses every execution of an order costs nothing. -/
theorem reconcileOpenOrders_all_lost :
    let start := VenueOrder.arrive "holo-1" "BTCUSDT" .Buy (2 : Rat) 7
    let seen := (Machine.run VenueOrder.stepAt start.flush [(.accept, 1)]).getD start
    let lost := (Machine.run VenueOrder.stepAt seen.flush
      [(.fill 1 100 0, 2), (.fill 1 110 0, 3)]).getD seen
    ∃ r, ((((OMSCore.init.registerNewOrder "holo-1" "BTCUSDT" .Buy (0 : Rat) 2
        ⟨0, 0⟩).1.deliverAll seen.outbox).reconcileOpenOrders (some [])
          (fun _ _ => some lost.flush.body) ⟨4, 4⟩).deliverAll lost.flush.outbox).get
            (fnv1a64 "holo-1") = some r ∧ r.Matches lost.flush := by
  intro start seen lost
  have hk : (OMSCore.init : OMSCore Rat).KeyedAt (fnv1a64 "holo-1") := by
    intro k r hr
    cases hr
  have hA : start.Plays [(.accept, 1)] seen := by decide +kernel
  have hB : seen.Plays [(.fill 1 100 0, 2), (.fill 1 110 0, 3)] lost := by decide +kernel
  have hM : lost.Plays [] lost.flush := Machine.run_nil _
  have hlist : fnv1a64 "holo-1" ∈ (([] : List (Option String)).filterMap id).map fnv1a64 ↔
      lost.flush.status.isWorking = true := by decide +kernel
  exact (reconcileOpenOrders_restores_iff hk (by decide) "BTCUSDT" .Buy 0 2 7 ⟨0, 0⟩ ⟨4, 4⟩
    hA hB hM hM hlist (by decide +kernel)).mpr (by decide +kernel)

/-- One unit is seen at 100 and one lost at 110.  The order is filled when the
snapshot is taken: the record says 102.5 where the exchange says 105.  Or it is
still open: the lost unit stays lost. -/
theorem reconcileOpenOrders_lost_fill :
    let start (qty : Rat) := VenueOrder.arrive "holo-1" "BTCUSDT" .Buy qty 7
    let after (qty : Rat) (listed : List (Option String)) :=
      (Machine.run VenueOrder.stepAt (start qty).flush
        [(.accept, 1), (.fill 1 100 0, 2)]).bind fun seen =>
      (Machine.run VenueOrder.stepAt seen.flush [(.fill 1 110 0, 3)]).bind fun lost =>
      ((((OMSCore.init.registerNewOrder "holo-1" "BTCUSDT" .Buy (0 : Rat) qty
        ⟨0, 0⟩).1.deliverAll seen.outbox).reconcileOpenOrders (some listed)
          (fun _ _ => some lost.body) ⟨4, 4⟩).get (fnv1a64 "holo-1")).map fun r =>
            (lost.status, (r.filledQty, r.avgFillPrice),
              (lost.executed, lost.notional / lost.executed))
    after 2 [] = some (.Filled, (2, 205 / 2), (2, 105)) ∧
      after 3 [some "holo-1"] = some (.PartiallyFilled, (1, 100), (2, 105)) := by
  decide +kernel

end HoloMarket
