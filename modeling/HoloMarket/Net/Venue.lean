import Mathlib.Algebra.BigOperators.Group.List.Basic
import Mathlib.Algebra.Order.Field.Basic
import HoloMarket.Net.UserDataFeed

/-!
# An order at the exchange

The other side of the stream: an order as the exchange keeps it, the things that
can happen to it there, and the events it emits, which wait in an outbox until
they are delivered in order.  This is the environment of the feed and of the
engine, not a translation of code.
-/

namespace HoloMarket

/-- The event settles the order it names. -/
def OrderTradeUpdate.settles {F : Type*} [Zero F] (o : OrderTradeUpdate F) : Bool :=
  match o.read with
  | none => false
  | some (_, u) => u.newStatus.isTerminal

inductive VenueStatus where
  /-- Not accepted, or not arrived. -/
  | Unknown
  | New
  | PartiallyFilled
  | Filled
  | Canceled
  | Expired
  | Rejected
deriving DecidableEq, Repr

namespace VenueStatus

def text : VenueStatus → String
  | .Unknown => ""
  | .New => "NEW"
  | .PartiallyFilled => "PARTIALLY_FILLED"
  | .Filled => "FILLED"
  | .Canceled => "CANCELED"
  | .Expired => "EXPIRED"
  | .Rejected => "REJECTED"

def isClosed : VenueStatus → Bool
  | .Filled | .Canceled | .Expired | .Rejected => true
  | _ => false

def isWorking : VenueStatus → Bool
  | .New | .PartiallyFilled => true
  | _ => false

theorem not_isClosed_of_isWorking {s : VenueStatus} (h : s.isWorking = true) :
    s.isClosed = false := by
  cases s <;> simp [isWorking, isClosed] at h ⊢

/-- Closed at the exchange is terminal in the OMS. -/
@[simp] theorem isTerminal_mapStatus_text (s : VenueStatus) :
    (mapStatus s.text).isTerminal = s.isClosed := by
  cases s <;> decide

end VenueStatus

structure VenueOrder (K : Type*) where
  clientOrderId : String
  symbol : String
  side : Side
  qty : K
  orderId : Int
  status : VenueStatus
  /-- Quantity and price of each execution, the oldest first. -/
  fills : List (K × K)
  outbox : List (OrderTradeUpdate K)
deriving DecidableEq, Repr

/-- What can happen to an order at the exchange. -/
inductive VenueAction (K : Type*) where
  | accept
  | fill (qty price commission : K)
  /-- An event that changes neither status nor quantity. -/
  | note
  | finish (status : VenueStatus)
deriving DecidableEq, Repr

namespace VenueAction

variable {K : Type*}

/-- The execution that an action is, if any. -/
def execution : VenueAction K → List (K × K)
  | .fill q p _ => [(q, p)]
  | _ => []

/-- The last fill price and the commission in the event of an action. -/
def price : VenueAction K → Option K
  | .fill _ p _ => some p
  | _ => none

def commission : VenueAction K → Option K
  | .fill _ _ c => some c
  | _ => none

end VenueAction

namespace VenueOrder

variable {K : Type*}

def arrive (clientOrderId symbol : String) (side : Side) (qty : K) (orderId : Int) :
    VenueOrder K where
  clientOrderId := clientOrderId
  symbol := symbol
  side := side
  qty := qty
  orderId := orderId
  status := .Unknown
  fills := []
  outbox := []

variable [Field K]

def executed (v : VenueOrder K) : K := (v.fills.map fun f => f.1).sum

def notional (v : VenueOrder K) : K := (v.fills.map fun f => f.1 * f.2).sum

/-- The event that reports the current state. -/
def report (v : VenueOrder K) (lastPrice commission : Option K) (tMs : Int) :
    OrderTradeUpdate K where
  c := some v.clientOrderId
  X := some v.status.text
  z := some v.executed
  i := some v.orderId
  L := lastPrice
  n := commission
  T := some tMs

def emit (v : VenueOrder K) (lastPrice commission : Option K) (tMs : Int) : VenueOrder K :=
  { v with outbox := v.outbox ++ [v.report lastPrice commission tMs] }

/-- The answer to a lookup of the order. -/
def body (v : VenueOrder K) : OrderBody K where
  status := some v.status.text
  executedQty := some v.executed
  orderId := some v.orderId
  avgPrice := some (v.notional / v.executed)

theorem report_read (v : VenueOrder K) (p c : Option K) (tMs : Int) :
    (v.report p c tMs).read = some (v.clientOrderId,
      { newStatus := mapStatus v.status.text
        cumulativeFilledQty := v.executed
        lastFillPrice := p.getD 0
        exchangeOrderId := v.orderId
        eventNs := tMs * 1000000
        commissionDelta := c.getD 0 }) := rfl

theorem body_read (v : VenueOrder K) (nowNs : Int) :
    v.body.read nowNs = some
      { newStatus := mapStatus v.status.text
        cumulativeFilledQty := v.executed
        lastFillPrice := v.notional / v.executed
        exchangeOrderId := v.orderId
        eventNs := nowNs
        commissionDelta := 0 } := rfl

/-- The head of the outbox leaves it. -/
def pop (v : VenueOrder K) : VenueOrder K := { v with outbox := v.outbox.tail }

/-- The outbox names this order, and an event that settles it is the last one and
finds it closed. -/
structure QueueOk (v : VenueOrder K) : Prop where
  read : ∀ o ∈ v.outbox, ∃ u, o.read = some (v.clientOrderId, u)
  last : ∀ o ∈ v.outbox.dropLast, o.settles = false
  closed : ∀ o ∈ v.outbox, o.settles = true → v.status.isClosed = true

theorem queueOk_arrive (cid symbol : String) (side : Side) (qty : K) (orderId : Int) :
    (arrive cid symbol side qty orderId).QueueOk where
  read _ ho := absurd ho List.not_mem_nil
  last _ ho := absurd ho List.not_mem_nil
  closed _ ho := absurd ho List.not_mem_nil

@[simp] theorem settles_report (v : VenueOrder K) (p c : Option K) (tMs : Int) :
    (v.report p c tMs).settles = v.status.isClosed :=
  VenueStatus.isTerminal_mapStatus_text v.status

theorem QueueOk.pop {v : VenueOrder K} (h : v.QueueOk) : v.pop.QueueOk where
  read o ho := h.read o (List.mem_of_mem_tail ho)
  last o ho := by
    refine h.last o ?_
    have hcomm : v.outbox.tail.dropLast = v.outbox.dropLast.tail := by
      cases v.outbox with
      | nil => rfl
      | cons o rest => cases rest <;> rfl
    exact List.mem_of_mem_tail (hcomm ▸ ho)
  closed o ho := h.closed o (List.mem_of_mem_tail ho)

/-- The event that settles the order leaves nothing behind it. -/
theorem QueueOk.tail_eq_nil {v : VenueOrder K} (h : v.QueueOk) {o : OrderTradeUpdate K}
    {rest : List (OrderTradeUpdate K)} (ho : v.outbox = o :: rest) (hs : o.settles = true) :
    rest = [] := by
  cases rest with
  | nil => rfl
  | cons o' rest =>
    have hlast := h.last o (by rw [ho]; exact List.mem_cons_self)
    rw [hs] at hlast
    cases hlast

variable [LinearOrder K]

def statusAfter (v : VenueOrder K) (q : K) : VenueStatus :=
  if v.executed + q = v.qty then .Filled else .PartiallyFilled

/-- One action, when the exchange can take it; each emits one event. -/
def act (v : VenueOrder K) (a : VenueAction K) (tMs : Int) : Option (VenueOrder K) :=
  match a with
  | .accept =>
    if v.status = .Unknown then some ({ v with status := .New }.emit none none tMs) else none
  | .fill q p c =>
    if v.status.isWorking = true ∧ 0 < q ∧ 0 < p ∧ v.executed + q ≤ v.qty then
      some ({ v with
        status := v.statusAfter q
        fills := v.fills ++ [(q, p)] }.emit (some p) (some c) tMs)
    else none
  | .note => if v.status.isWorking = true then some (v.emit none none tMs) else none
  | .finish s =>
    if v.status.isClosed = false ∧ s.isClosed = true ∧ s ≠ .Filled then
      some ({ v with status := s }.emit none none tMs)
    else none

/-- When the exchange can take an action. -/
def Allows (v : VenueOrder K) : VenueAction K → Prop
  | .accept => v.status = .Unknown
  | .fill q p _ => v.status.isWorking = true ∧ 0 < q ∧ 0 < p ∧ v.executed + q ≤ v.qty
  | .note => v.status.isWorking = true
  | .finish s => v.status.isClosed = false ∧ s.isClosed = true ∧ s ≠ .Filled

def nextStatus (v : VenueOrder K) : VenueAction K → VenueStatus
  | .accept => .New
  | .fill q _ _ => v.statusAfter q
  | .note => v.status
  | .finish s => s

theorem Allows.isClosed_eq_false {v : VenueOrder K} {a : VenueAction K} (h : v.Allows a) :
    v.status.isClosed = false := by
  cases a with
  | accept =>
    replace h : v.status = .Unknown := h
    rw [h]
    rfl
  | fill q p c => exact VenueStatus.not_isClosed_of_isWorking h.1
  | note => exact VenueStatus.not_isClosed_of_isWorking h
  | finish s => exact h.1

/-- What an action does: it moves the status, appends its execution and emits the
report of the state it leaves. -/
theorem act_spec {v v' : VenueOrder K} {a : VenueAction K} {tMs : Int}
    (h : v.act a tMs = some v') :
    v.Allows a ∧
      v' = { v with status := v.nextStatus a, fills := v.fills ++ a.execution }.emit
        a.price a.commission tMs := by
  cases a with
  | accept =>
    unfold act at h
    dsimp only at h
    split_ifs at h with hs
    cases h
    exact ⟨hs, by simp only [VenueAction.execution, List.append_nil]; rfl⟩
  | fill q p c =>
    unfold act at h
    dsimp only at h
    split_ifs at h with hs
    cases h
    exact ⟨hs, rfl⟩
  | note =>
    unfold act at h
    dsimp only at h
    split_ifs at h with hs
    cases h
    exact ⟨hs, by simp only [VenueAction.execution, List.append_nil]; rfl⟩
  | finish s =>
    unfold act at h
    dsimp only at h
    split_ifs at h with hs
    cases h
    exact ⟨hs, by simp only [VenueAction.execution, List.append_nil]; rfl⟩

theorem act_eq_some {v v' : VenueOrder K} {a : VenueAction K} {tMs : Int}
    (h : v.act a tMs = some v') :
    v.status.isClosed = false ∧ v'.clientOrderId = v.clientOrderId ∧ v'.symbol = v.symbol ∧
      v'.side = v.side ∧ v'.qty = v.qty ∧ v'.orderId = v.orderId ∧
      v'.fills = v.fills ++ a.execution ∧
      v'.outbox = v.outbox ++ [v'.report a.price a.commission tMs] := by
  obtain ⟨hallow, rfl⟩ := act_spec h
  exact ⟨hallow.isClosed_eq_false, rfl, rfl, rfl, rfl, rfl, rfl, rfl⟩

theorem QueueOk.act {v v' : VenueOrder K} {a : VenueAction K} {tMs : Int} (h : v.QueueOk)
    (hv : v.act a tMs = some v') : v'.QueueOk := by
  obtain ⟨hopen, hcid, -, -, -, -, -, hout⟩ := act_eq_some hv
  have hold : ∀ o ∈ v.outbox, o.settles = false := by
    intro o ho
    by_contra hs
    rw [h.closed o ho (by simpa using hs)] at hopen
    cases hopen
  refine ⟨fun o ho => ?_, fun o ho => ?_, fun o ho hs => ?_⟩
  · rw [hout] at ho
    rcases List.mem_append.mp ho with ho | ho
    · rw [hcid]
      exact h.read o ho
    · rw [List.mem_singleton.mp ho, report_read]
      exact ⟨_, rfl⟩
  · rw [hout, List.dropLast_concat] at ho
    exact hold o ho
  · rw [hout] at ho
    rcases List.mem_append.mp ho with ho | ho
    · rw [hold o ho] at hs
      cases hs
    · rw [List.mem_singleton.mp ho, settles_report] at hs
      exact hs

end VenueOrder
end HoloMarket
