import HoloMarket.Lib.AssocList
import HoloMarket.Net.OmsCore

/-!
# UserDataFeed: the stream of order events and the reconciliation

What `user_data_feed.hpp` writes into `OMSCore`: one `apply_update` for each
well-formed `ORDER_TRADE_UPDATE`, and after a reconnect one for each locally live
order that the exchange no longer lists as open.  A JSON document is the record
of the fields the code reads; a field that is absent or of another type is
`none`, and a number string is the number `svtod` reads.
-/

namespace HoloMarket

/-- The object `"o"` of an `ORDER_TRADE_UPDATE`. -/
structure OrderTradeUpdate (F : Type*) where
  c : Option String
  X : Option String
  z : Option F
  i : Option Int
  L : Option F
  n : Option F
  T : Option Int
deriving DecidableEq, Repr

/-- The answer to an order lookup. -/
structure OrderBody (F : Type*) where
  status : Option String
  executedQty : Option F
  orderId : Option Int
  avgPrice : Option F
deriving DecidableEq, Repr

def mapStatus (s : String) : OrderStatus :=
  if s = "NEW" then .Open
  else if s = "PARTIALLY_FILLED" then .Partial
  else if s = "FILLED" then .Filled
  else if s = "CANCELED" ∨ s = "EXPIRED" then .Canceled
  else if s = "REJECTED" then .Rejected
  else .Open

/-- The arguments of one `apply_update`, its key apart. -/
structure UpdateArgs (F : Type*) where
  newStatus : OrderStatus
  cumulativeFilledQty : F
  lastFillPrice : F
  exchangeOrderId : Int
  eventNs : Int
  commissionDelta : F
deriving DecidableEq, Repr

section
variable {F : Type*} [Zero F]

/-- The client id and the arguments of an event, unless a required field is
missing. -/
def OrderTradeUpdate.read (o : OrderTradeUpdate F) : Option (String × UpdateArgs F) :=
  match o.c, o.X, o.z, o.i with
  | some clientId, some statusStr, some cumFilled, some exchOrderId =>
    some (clientId,
      { newStatus := mapStatus statusStr
        cumulativeFilledQty := cumFilled
        lastFillPrice := o.L.getD 0
        exchangeOrderId := exchOrderId
        eventNs := o.T.getD 0 * 1000000
        commissionDelta := o.n.getD 0 })
  | _, _, _, _ => none

/-- The same for the answer to a lookup, which gives no commission. -/
def OrderBody.read (b : OrderBody F) (nowNs : Int) : Option (UpdateArgs F) :=
  match b.status, b.executedQty, b.orderId with
  | some statusStr, some cumFilled, some exchOrderId =>
    some
      { newStatus := mapStatus statusStr
        cumulativeFilledQty := cumFilled
        lastFillPrice := b.avgPrice.getD 0
        exchangeOrderId := exchOrderId
        eventNs := nowNs
        commissionDelta := 0 }
  | _, _, _ => none

end

variable {F : Type*} [Zero F] [Add F] [Sub F] [Mul F] [Div F] [LT F] [DecidableLT F]

/-- What these arguments make of a record. -/
def UpdateArgs.applyTo (u : UpdateArgs F) (r : OrderRecord F) : OrderRecord F :=
  r.update u.newStatus u.cumulativeFilledQty u.lastFillPrice u.exchangeOrderId u.eventNs
    u.commissionDelta

@[simp] theorem UpdateArgs.applyTo_clientOrderId (u : UpdateArgs F) (r : OrderRecord F) :
    (u.applyTo r).clientOrderId = r.clientOrderId := OrderRecord.update_clientOrderId ..

@[simp] theorem UpdateArgs.applyTo_status (u : UpdateArgs F) (r : OrderRecord F) :
    (u.applyTo r).status = u.newStatus := rfl

namespace OMSCore

/-- `none` when the event is malformed or of an unknown order, otherwise the new
state and the copy handed to the subscriber. -/
def handleOrderTradeUpdate (oms : OMSCore F) (o : OrderTradeUpdate F) :
    Option (OMSCore F × OrderRecord F) :=
  o.read.bind fun (clientId, u) =>
    oms.applyUpdate (fnv1a64 clientId) u.newStatus u.cumulativeFilledQty u.lastFillPrice
      u.exchangeOrderId u.eventNs u.commissionDelta

/-- The state after an event. -/
def delivered (oms : OMSCore F) (o : OrderTradeUpdate F) : OMSCore F :=
  match oms.handleOrderTradeUpdate o with
  | none => oms
  | some (oms', _) => oms'

/-- `reconcile_single_order`, given what the lookup answered; `none` is a failed
call or an unparsable body. -/
def reconcileSingleOrder (oms : OMSCore F) (key : UInt64) (body : Option (OrderBody F))
    (nowNs : Int) : OMSCore F :=
  match body.bind fun b => b.read nowNs with
  | none => oms
  | some u =>
    oms.updated key u.newStatus u.cumulativeFilledQty u.lastFillPrice u.exchangeOrderId
      u.eventNs u.commissionDelta

/-- The body of the loop of `reconcile_open_orders`. -/
def reconcileStep (listed : List (Option String))
    (lookup : String → String → Option (OrderBody F)) (t : Clock) (oms : OMSCore F)
    (r : OrderRecord F) : OMSCore F :=
  let key := fnv1a64 r.clientOrderId
  if key ∈ (listed.filterMap id).map fnv1a64 then oms
  else oms.reconcileSingleOrder key (lookup r.symbol r.clientOrderId) t.nowNs

/-- `reconcile_open_orders`, given the client ids that the open-orders call
listed (`none` when it failed) and the answer to each lookup. -/
def reconcileOpenOrders (oms : OMSCore F) (openOrders : Option (List (Option String)))
    (lookup : String → String → Option (OrderBody F)) (t : Clock) : OMSCore F :=
  match openOrders with
  | none => oms
  | some listed =>
    (oms.getStaleOrders 0 t.steadyNs).foldl (reconcileStep listed lookup t) oms

/-! ## The record of one key -/

theorem get_delivered (oms : OMSCore F) (o : OrderTradeUpdate F) (k : UInt64) :
    (oms.delivered o).get k =
      match o.read with
      | none => oms.get k
      | some (clientId, u) =>
        if k = fnv1a64 clientId then (oms.get k).map u.applyTo else oms.get k := by
  cases ho : o.read with
  | none => simp [delivered, handleOrderTradeUpdate, ho]
  | some q =>
    obtain ⟨clientId, u⟩ := q
    have h := get_updated oms (fnv1a64 clientId) u.newStatus u.cumulativeFilledQty
      u.lastFillPrice u.commissionDelta u.exchangeOrderId u.eventNs k
    simp only [delivered, handleOrderTradeUpdate, ho, Option.bind_some]
    show (oms.updated _ _ _ _ _ _ _).get k = _
    rw [h]
    split_ifs with hk
    · rw [hk]
      rfl
    · rfl

theorem get_delivered_of_read {o : OrderTradeUpdate F} {cid : String} {u : UpdateArgs F}
    (ho : o.read = some (cid, u)) (oms : OMSCore F) (k : UInt64) :
    (oms.delivered o).get k =
      if k = fnv1a64 cid then (oms.get k).map u.applyTo else oms.get k := by
  rw [get_delivered, ho]

theorem get_reconcileSingleOrder (oms : OMSCore F) (key : UInt64) (body : Option (OrderBody F))
    (nowNs : Int) (k : UInt64) :
    (oms.reconcileSingleOrder key body nowNs).get k =
      match body.bind fun b => b.read nowNs with
      | none => oms.get k
      | some u => if k = key then (oms.get k).map u.applyTo else oms.get k := by
  unfold reconcileSingleOrder
  cases body.bind fun b => b.read nowNs with
  | none => rfl
  | some u =>
    have h := get_updated oms key u.newStatus u.cumulativeFilledQty u.lastFillPrice
      u.commissionDelta u.exchangeOrderId u.eventNs k
    show (oms.updated _ _ _ _ _ _ _).get k = _
    rw [h]
    split_ifs with hk
    · rw [hk]
      rfl
    · rfl

theorem delivered_cids (oms : OMSCore F) (o : OrderTradeUpdate F) (k : UInt64)
    (r' : OrderRecord F) (h : (oms.delivered o).get k = some r') :
    ∃ r, oms.get k = some r ∧ r.clientOrderId = r'.clientOrderId := by
  rw [get_delivered] at h
  split at h
  · exact ⟨r', h, rfl⟩
  · split_ifs at h
    · obtain ⟨r, hr, rfl⟩ := Option.map_eq_some_iff.mp h
      exact ⟨r, hr, (UpdateArgs.applyTo_clientOrderId _ r).symm⟩
    · exact ⟨r', h, rfl⟩

theorem reconcileSingleOrder_cids (oms : OMSCore F) (key : UInt64)
    (body : Option (OrderBody F)) (nowNs : Int) (k : UInt64) (r' : OrderRecord F)
    (h : (oms.reconcileSingleOrder key body nowNs).get k = some r') :
    ∃ r, oms.get k = some r ∧ r.clientOrderId = r'.clientOrderId := by
  rw [get_reconcileSingleOrder] at h
  split at h
  · exact ⟨r', h, rfl⟩
  · split_ifs at h
    · obtain ⟨r, hr, rfl⟩ := Option.map_eq_some_iff.mp h
      exact ⟨r, hr, (UpdateArgs.applyTo_clientOrderId _ r).symm⟩
    · exact ⟨r', h, rfl⟩

/-- What the loop does to the record `r` that it looks up. -/
def reconciled (listed : List (Option String))
    (lookup : String → String → Option (OrderBody F)) (t : Clock) (r : OrderRecord F) :
    OrderRecord F → OrderRecord F :=
  if fnv1a64 r.clientOrderId ∈ (listed.filterMap id).map fnv1a64 then id
  else
    match (lookup r.symbol r.clientOrderId).bind fun b => b.read t.nowNs with
    | none => id
    | some u => u.applyTo

theorem get_reconcileStep (listed : List (Option String))
    (lookup : String → String → Option (OrderBody F)) (t : Clock) (oms : OMSCore F)
    (r : OrderRecord F) (key : UInt64) :
    (oms.reconcileStep listed lookup t r).get key =
      if fnv1a64 r.clientOrderId = key then (oms.get key).map (reconciled listed lookup t r)
      else oms.get key := by
  unfold reconcileStep reconciled
  by_cases hopen : fnv1a64 r.clientOrderId ∈ (listed.filterMap id).map fnv1a64
  · simp only [if_pos hopen]
    split_ifs <;> simp
  · simp only [if_neg hopen]
    rw [get_reconcileSingleOrder]
    cases (lookup r.symbol r.clientOrderId).bind fun b => b.read t.nowNs with
    | none => split_ifs <;> simp
    | some u =>
      simp only [eq_comm]

theorem get_foldl_reconcileStep (listed : List (Option String))
    (lookup : String → String → Option (OrderBody F)) (t : Clock) (rs : List (OrderRecord F))
    (oms : OMSCore F) (key : UInt64) :
    (rs.foldl (reconcileStep listed lookup t) oms).get key =
      (rs.filter fun r => fnv1a64 r.clientOrderId = key).foldl
        (fun o r => o.map (reconciled listed lookup t r)) (oms.get key) := by
  induction rs generalizing oms with
  | nil => rfl
  | cons r rs ih =>
    rw [List.foldl_cons, ih, get_reconcileStep]
    by_cases hr : fnv1a64 r.clientOrderId = key
    · simp [hr]
    · simp [hr]

/-- `reconcile_open_orders` rewrites the record of a key at most once: when it is
live, old enough and not listed as open. -/
theorem get_reconcileOpenOrders {oms : OMSCore F} {key : UInt64} (h : oms.KeyedAt key)
    (listed : List (Option String)) (lookup : String → String → Option (OrderBody F))
    (t : Clock) :
    (oms.reconcileOpenOrders (some listed) lookup t).get key =
      (oms.get key).map fun r =>
        if r.status.isLive = true ∧ r.createdMonoNs < t.steadyNs then
          reconciled listed lookup t r r
        else r := by
  show ((oms.getStaleOrders 0 t.steadyNs).foldl (reconcileStep listed lookup t) oms).get key = _
  rw [get_foldl_reconcileStep, getStaleOrders_filter_key h]
  cases oms.get key with
  | none => rfl
  | some r =>
    by_cases hlive : r.status.isLive = true ∧ r.createdMonoNs < t.steadyNs
    · simp [hlive]
    · simp [hlive]

theorem reconcileOpenOrders_cids (oms : OMSCore F)
    (openOrders : Option (List (Option String)))
    (lookup : String → String → Option (OrderBody F)) (t : Clock) (k : UInt64)
    (r' : OrderRecord F) (h : (oms.reconcileOpenOrders openOrders lookup t).get k = some r') :
    ∃ r, oms.get k = some r ∧ r.clientOrderId = r'.clientOrderId := by
  cases openOrders with
  | none => exact ⟨r', h, rfl⟩
  | some listed =>
    have hfold : ∀ (rs : List (OrderRecord F)) (o : OMSCore F),
        (rs.foldl (reconcileStep listed lookup t) o).get k = some r' →
        ∃ r, o.get k = some r ∧ r.clientOrderId = r'.clientOrderId := by
      intro rs
      induction rs with
      | nil => exact fun o ho => ⟨r', ho, rfl⟩
      | cons r rs ih =>
        intro o ho
        obtain ⟨r₁, hr₁, hc₁⟩ := ih _ ho
        unfold reconcileStep at hr₁
        dsimp only at hr₁
        split_ifs at hr₁
        · exact ⟨r₁, hr₁, hc₁⟩
        · obtain ⟨r₂, hr₂, hc₂⟩ := reconcileSingleOrder_cids o _ _ _ k r₁ hr₁
          exact ⟨r₂, hr₂, hc₂.trans hc₁⟩
    exact hfold _ oms h

end OMSCore
end HoloMarket
