import Mathlib.Algebra.Group.Defs
import Mathlib.Algebra.GroupWithZero.Defs
import HoloMarket.Lib.AssocList
import HoloMarket.Lib.SlotIndex

/-!
# OMSCore: the order state machine

The record pool of `oms_core.hpp`.  Records live in a slot vector, an integer
key (the FNV-1a hash of the client order id) is mapped to a slot, and released
slots wait in a free list.  Quantities and prices are taken from any type with
the operations the code uses, so that what is proved of the store holds of
`double` as well as of exact arithmetic.

A byte string is a `String` of ASCII characters.  The locks are not modelled:
each call is atomic.
-/

namespace HoloMarket

inductive OrderStatus where
  | PendingNew
  | Open
  | Partial
  | Filled
  | Canceled
  | Rejected
deriving DecidableEq, Repr

namespace OrderStatus

def isTerminal : OrderStatus → Bool
  | .Filled | .Canceled | .Rejected => true
  | _ => false

def isLive : OrderStatus → Bool
  | .PendingNew | .Open | .Partial => true
  | _ => false

theorem isLive_eq_not_isTerminal (s : OrderStatus) : s.isLive = !s.isTerminal := by
  cases s <;> rfl

end OrderStatus

inductive Side where
  | Buy
  | Sell
deriving DecidableEq, Repr

/-- `+1` for a buy and `-1` for a sell. -/
def Side.signedDir {F : Type*} [One F] [Neg F] : Side → F
  | .Buy => 1
  | .Sell => -1

/-- The two clocks that a call reads: `now_ns()` and `steady_ns()`. -/
structure Clock where
  nowNs : Int
  steadyNs : Int
deriving DecidableEq, Repr

/-- The view of a zero-filled `char` buffer holding at most `n` bytes of `s`.  A `Char` of an
id or a symbol stands for a byte: the engine's own are ASCII. -/
def bufView (n : Nat) (s : String) : String :=
  String.ofList ((s.toList.take n).takeWhile (· != Char.ofNat 0))

/-- `view(make_symbol(sv))`: a `SymbolBuf` keeps fifteen bytes. -/
def makeSymbol (sv : String) : String := bufView 15 sv

/-- `view(make_client_id(sv))`: a `ClientIdBuf` keeps thirty-nine bytes. -/
def makeClientId (sv : String) : String := bufView 39 sv

/-- FNV-1a, 64 bit, over the bytes of `sv`. -/
def fnv1a64 (sv : String) : UInt64 :=
  sv.toList.foldl (fun h c => (h ^^^ c.toNat.toUInt64) * 1099511628211) 1469598103934665603

structure OrderRecord (F : Type*) where
  clientOrderId : String
  symbol : String
  side : Side
  status : OrderStatus
  price : F
  qty : F
  filledQty : F
  avgFillPrice : F
  cumulativeCommission : F
  exchangeOrderId : Int
  createdNs : Int
  updatedNs : Int
  createdMonoNs : Int
deriving DecidableEq, Repr

namespace OrderRecord

variable {F : Type*} [Zero F]

/-- `OrderRecord{}`. -/
def empty : OrderRecord F where
  clientOrderId := ""
  symbol := ""
  side := .Buy
  status := .PendingNew
  price := 0
  qty := 0
  filledQty := 0
  avgFillPrice := 0
  cumulativeCommission := 0
  exchangeOrderId := 0
  createdNs := 0
  updatedNs := 0
  createdMonoNs := 0

def remainingQty [Sub F] (r : OrderRecord F) : F := r.qty - r.filledQty

/-- The record `register_new_order` stores. -/
def fresh (clientOrderId symbol : String) (side : Side) (price qty : F) (t : Clock) :
    OrderRecord F :=
  { empty with
    clientOrderId := makeClientId clientOrderId
    symbol := makeSymbol symbol
    side := side
    status := .PendingNew
    price := price
    qty := qty
    createdNs := t.nowNs
    updatedNs := t.nowNs
    createdMonoNs := t.steadyNs }

variable [Add F] [Sub F] [Mul F] [Div F] [LT F] [DecidableLT F]

/-- The fill part of `apply_update`: a cumulative quantity beyond the recorded
one is booked at the price given for the newest fill, and without a price only
the quantity advances. -/
def applyFill (r : OrderRecord F) (cumulativeFilledQty lastFillPrice : F) : OrderRecord F :=
  if r.filledQty < cumulativeFilledQty ∧ 0 < lastFillPrice then
    let prevNotional := r.avgFillPrice * r.filledQty
    let deltaQty := cumulativeFilledQty - r.filledQty
    { r with
      avgFillPrice := (prevNotional + lastFillPrice * deltaQty) / cumulativeFilledQty
      filledQty := cumulativeFilledQty }
  else if r.filledQty < cumulativeFilledQty then
    { r with filledQty := cumulativeFilledQty }
  else r

/-- What `apply_update` does to the record it finds. -/
def update (r : OrderRecord F) (newStatus : OrderStatus)
    (cumulativeFilledQty lastFillPrice : F) (exchangeOrderId eventNs : Int)
    (commissionDelta : F) : OrderRecord F :=
  let r := r.applyFill cumulativeFilledQty lastFillPrice
  { r with
    cumulativeCommission :=
      if 0 < commissionDelta then r.cumulativeCommission + commissionDelta
      else r.cumulativeCommission
    status := newStatus
    exchangeOrderId := exchangeOrderId
    updatedNs := eventNs }

section
variable (r : OrderRecord F) (s : OrderStatus) (c p d : F) (x e : Int)

@[simp] theorem applyFill_clientOrderId :
    (r.applyFill c p).clientOrderId = r.clientOrderId := by
  unfold applyFill
  split_ifs <;> rfl

@[simp] theorem applyFill_qty : (r.applyFill c p).qty = r.qty := by
  unfold applyFill
  split_ifs <;> rfl

@[simp] theorem applyFill_symbol : (r.applyFill c p).symbol = r.symbol := by
  unfold applyFill
  split_ifs <;> rfl

@[simp] theorem applyFill_createdMonoNs :
    (r.applyFill c p).createdMonoNs = r.createdMonoNs := by
  unfold applyFill
  split_ifs <;> rfl

@[simp] theorem update_status : (r.update s c p x e d).status = s := rfl

@[simp] theorem update_exchangeOrderId : (r.update s c p x e d).exchangeOrderId = x := rfl

@[simp] theorem update_filledQty :
    (r.update s c p x e d).filledQty = (r.applyFill c p).filledQty := rfl

@[simp] theorem update_avgFillPrice :
    (r.update s c p x e d).avgFillPrice = (r.applyFill c p).avgFillPrice := rfl

@[simp] theorem update_clientOrderId :
    (r.update s c p x e d).clientOrderId = r.clientOrderId := applyFill_clientOrderId r c p

@[simp] theorem update_qty : (r.update s c p x e d).qty = r.qty := applyFill_qty r c p

@[simp] theorem update_symbol : (r.update s c p x e d).symbol = r.symbol :=
  applyFill_symbol r c p

@[simp] theorem update_createdMonoNs :
    (r.update s c p x e d).createdMonoNs = r.createdMonoNs := applyFill_createdMonoNs r c p

end

end OrderRecord

/-- The state of `OMSCore`.  The last field is the representation invariant, so
that every value of this type has it; `freeList` has its back at the head. -/
structure OMSCore (F : Type*) where
  slots : List (OrderRecord F)
  index : AList fun _ : UInt64 => Nat
  freeList : List Nat
  wf : SlotIndex.WF index freeList slots.length

namespace OMSCore

variable {F : Type*}

def init : OMSCore F where
  slots := []
  index := ∅
  freeList := []
  wf := SlotIndex.wf_empty

def get (oms : OMSCore F) (key : UInt64) : Option (OrderRecord F) :=
  (oms.index.lookup key).bind fun slot => oms.slots[slot]?

def liveOrderCount (oms : OMSCore F) : Nat := oms.index.entries.length

/-- The records `get_stale_orders` pushes, in the order the index is walked. -/
def getStaleOrders (oms : OMSCore F) (maxAgeNs steadyNs : Int) : List (OrderRecord F) :=
  let cutoff := steadyNs - maxAgeNs
  (oms.index.entries.filterMap fun e => oms.slots[e.2]?).filter fun r =>
    r.status.isLive && decide (r.createdMonoNs < cutoff)

def release (oms : OMSCore F) (key : UInt64) : OMSCore F :=
  match h : oms.index.lookup key with
  | none => oms
  | some slot =>
    { slots := oms.slots
      index := oms.index.erase key
      freeList := slot :: oms.freeList
      wf := oms.wf.erase h }

theorem get_of_lookup {oms : OMSCore F} {key : UInt64} {slot : Nat}
    (h : oms.index.lookup key = some slot) :
    ∃ r, oms.slots[slot]? = some r ∧ oms.get key = some r := by
  have hr := List.getElem?_eq_getElem (oms.wf.lt key slot h)
  exact ⟨_, hr, by rw [get, h, Option.bind_some, hr]⟩

theorem get_isSome (oms : OMSCore F) (key : UInt64) :
    (oms.get key).isSome = (oms.index.lookup key).isSome := by
  cases h : oms.index.lookup key with
  | none => simp [get, h]
  | some slot =>
    obtain ⟨r, -, hr⟩ := get_of_lookup h
    simp [hr]

@[simp] theorem get_init (key : UInt64) : (init : OMSCore F).get key = none := rfl

@[simp] theorem get_release (oms : OMSCore F) (key k : UInt64) :
    (oms.release key).get k = if k = key then none else oms.get k := by
  unfold release
  split
  · next h =>
    by_cases hk : k = key
    · subst hk
      simp [get, h]
    · rw [if_neg hk]
  · next slot h =>
    by_cases hk : k = key
    · subst hk
      simp [get]
    · rw [if_neg hk]
      simp only [get, AList.lookup_erase_ne hk]

/-- Of all records only the one under `key` hashes to `key`. -/
def KeyedAt (oms : OMSCore F) (key : UInt64) : Prop :=
  ∀ k r, oms.get k = some r → (fnv1a64 r.clientOrderId = key ↔ k = key)

theorem KeyedAt.of_cids {oms oms' : OMSCore F} {key : UInt64} (h : oms.KeyedAt key)
    (hc : ∀ k r', oms'.get k = some r' →
      ∃ r, oms.get k = some r ∧ r.clientOrderId = r'.clientOrderId) :
    oms'.KeyedAt key := by
  intro k r' hr'
  obtain ⟨r, hr, hcid⟩ := hc k r' hr'
  rw [← hcid]
  exact h k r hr

/-- The records as `get_stale_orders` collects them, seen from one key. -/
theorem getStaleOrders_filter_key {oms : OMSCore F} {key : UInt64} (h : oms.KeyedAt key)
    (maxAge steady : Int) :
    (oms.getStaleOrders maxAge steady).filter (fun r => fnv1a64 r.clientOrderId = key) =
      ((oms.get key).toList).filter fun r =>
        r.status.isLive && decide (r.createdMonoNs < steady - maxAge) := by
  have hrecords : (oms.index.entries.filterMap fun e => oms.slots[e.2]?).filter
      (fun r => fnv1a64 r.clientOrderId = key) = (oms.get key).toList := by
    refine filterMap_filter_key oms.index.nodupKeys (fun slot => oms.slots[slot]?) ?_
    rintro ⟨k, slot⟩ hmem r hr
    have hl : oms.index.lookup k = some slot :=
      (List.mem_dlookup_iff oms.index.nodupKeys).mpr hmem
    have hg : oms.get k = some r := by
      rw [get, hl]
      exact hr
    simpa using h k r hg
  unfold getStaleOrders
  rw [List.filter_comm, hrecords]

variable [Zero F]

/-- Take a slot from the free list, or grow the slot vector by one. -/
def allocSlotLocked (oms : OMSCore F) : OMSCore F × Nat :=
  match h : oms.freeList with
  | s :: rest =>
    ({ slots := oms.slots
       index := oms.index
       freeList := rest
       wf := (h ▸ oms.wf).pop }, s)
  | [] =>
    ({ slots := oms.slots ++ [OrderRecord.empty]
       index := oms.index
       freeList := []
       wf := by simpa using (h ▸ oms.wf).grow }, oms.slots.length)

theorem allocSlotLocked_unused (oms : OMSCore F) :
    SlotIndex.Unused oms.allocSlotLocked.1.index oms.allocSlotLocked.1.freeList
      oms.allocSlotLocked.1.slots.length oms.allocSlotLocked.2 := by
  unfold allocSlotLocked
  split
  · next s rest h => exact (h ▸ oms.wf).unused_head
  · next h => simpa using (h ▸ oms.wf).unused_top

/-- `slots_[slot] = rec; index_[key] = slot;` for the slot just allocated. -/
def place (oms : OMSCore F) (key : UInt64) (r : OrderRecord F) : OMSCore F where
  slots := oms.allocSlotLocked.1.slots.set oms.allocSlotLocked.2 r
  index := oms.allocSlotLocked.1.index.insert key oms.allocSlotLocked.2
  freeList := oms.allocSlotLocked.1.freeList
  wf := by
    rw [List.length_set]
    exact oms.allocSlotLocked.1.wf.insert oms.allocSlotLocked_unused key

/-- The new state, the key returned to the caller and the copy of the record
that `fire_update` hands to the subscriber. -/
def registerNewOrder (oms : OMSCore F) (clientOrderId symbol : String) (side : Side)
    (price qty : F) (t : Clock) : OMSCore F × UInt64 × OrderRecord F :=
  let r := OrderRecord.fresh clientOrderId symbol side price qty t
  let key := fnv1a64 clientOrderId
  (oms.place key r, key, r)

theorem allocSlotLocked_index (oms : OMSCore F) : oms.allocSlotLocked.1.index = oms.index := by
  unfold allocSlotLocked
  split <;> rfl

theorem allocSlotLocked_slots (oms : OMSCore F) {i : Nat} (hi : i < oms.slots.length) :
    oms.allocSlotLocked.1.slots[i]? = oms.slots[i]? := by
  unfold allocSlotLocked
  split
  · rfl
  · simp [List.getElem?_append_left hi]

/-- Placing a record sets its key and touches no other.  The slot written is
referenced by no key, the old one of this key included. -/
theorem get_place (oms : OMSCore F) (key : UInt64) (r : OrderRecord F) (k : UInt64) :
    (oms.place key r).get k = if k = key then some r else oms.get k := by
  have hu := oms.allocSlotLocked_unused
  by_cases hk : k = key
  · subst hk
    rw [if_pos rfl]
    simp [get, place, hu.lt]
  · rw [if_neg hk]
    simp only [get, place, AList.lookup_insert_ne hk, allocSlotLocked_index]
    cases h : oms.index.lookup k with
    | none => rfl
    | some s =>
      have hs : oms.allocSlotLocked.2 ≠ s := by
        intro e
        refine hu.not_indexed k ?_
        rw [allocSlotLocked_index, h, e]
      simp only [Option.bind_some]
      rw [List.getElem?_set_ne hs, allocSlotLocked_slots oms (oms.wf.lt k s h)]

@[simp] theorem get_registerNewOrder (oms : OMSCore F) (cid sym : String) (side : Side)
    (price qty : F) (t : Clock) (k : UInt64) :
    (oms.registerNewOrder cid sym side price qty t).1.get k =
      if k = fnv1a64 cid then some (OrderRecord.fresh cid sym side price qty t)
      else oms.get k :=
  get_place oms _ _ k

theorem KeyedAt.registerNewOrder {oms : OMSCore F} {cid : String}
    (h : oms.KeyedAt (fnv1a64 cid)) (hcid : makeClientId cid = cid) (sym : String) (side : Side)
    (price qty : F) (t : Clock) :
    (oms.registerNewOrder cid sym side price qty t).1.KeyedAt (fnv1a64 cid) := by
  intro k r hr
  rw [get_registerNewOrder] at hr
  split_ifs at hr with he
  · cases hr
    exact iff_of_true (congrArg fnv1a64 hcid) he
  · exact h k r hr

variable [Add F] [Sub F] [Mul F] [Div F] [LT F] [DecidableLT F]

/-- `none` when the key is unknown (the call returns `false`), otherwise the new
state and the copy handed to the subscriber. -/
def applyUpdate (oms : OMSCore F) (key : UInt64) (newStatus : OrderStatus)
    (cumulativeFilledQty lastFillPrice : F) (exchangeOrderId eventNs : Int)
    (commissionDelta : F) : Option (OMSCore F × OrderRecord F) :=
  (oms.index.lookup key).bind fun slot => (oms.slots[slot]?).map fun r =>
    let r' := r.update newStatus cumulativeFilledQty lastFillPrice exchangeOrderId eventNs
      commissionDelta
    ({ oms with
       slots := oms.slots.set slot r'
       wf := by rw [List.length_set]; exact oms.wf }, r')

theorem applyUpdate_eq_none {oms : OMSCore F} {key : UInt64} {s : OrderStatus} {c p d : F}
    {x e : Int} : oms.applyUpdate key s c p x e d = none ↔ oms.get key = none := by
  unfold applyUpdate get
  cases h : oms.index.lookup key with
  | none => simp
  | some slot => simp

/-- `apply_update` rewrites the record of its key, hands out a copy of it and
touches no other key: no other key references the slot written. -/
theorem applyUpdate_spec {oms oms' : OMSCore F} {key : UInt64} {s : OrderStatus} {c p d : F}
    {x e : Int} {r' : OrderRecord F}
    (h : oms.applyUpdate key s c p x e d = some (oms', r')) :
    ∃ r, oms.get key = some r ∧ r' = r.update s c p x e d ∧
      ∀ k, oms'.get k = if k = key then some r' else oms.get k := by
  obtain ⟨slot, hl, h⟩ := Option.bind_eq_some_iff.mp h
  obtain ⟨r, hr, h⟩ := Option.map_eq_some_iff.mp h
  obtain ⟨rfl, rfl⟩ := Prod.mk.inj h
  refine ⟨r, by rw [get, hl, Option.bind_some, hr], rfl, fun k => ?_⟩
  by_cases hk : k = key
  · subst hk
    have hlt := oms.wf.lt k slot hl
    simp [get, hl, hlt]
  · rw [if_neg hk]
    simp only [get]
    cases hs : oms.index.lookup k with
    | none => rfl
    | some t =>
      have hne : slot ≠ t := by
        rintro rfl
        exact hk (oms.wf.inj k key slot hs hl)
      simp only [Option.bind_some]
      rw [List.getElem?_set_ne hne]

theorem applyUpdate_of_get {oms : OMSCore F} {key : UInt64} {r : OrderRecord F}
    (h : oms.get key = some r) (s : OrderStatus) (c p d : F) (x e : Int) :
    ∃ oms', oms.applyUpdate key s c p x e d = some (oms', r.update s c p x e d) ∧
      ∀ k, oms'.get k = if k = key then some (r.update s c p x e d) else oms.get k := by
  cases hu : oms.applyUpdate key s c p x e d with
  | none =>
    rw [applyUpdate_eq_none.mp hu] at h
    cases h
  | some q =>
    obtain ⟨oms', r'⟩ := q
    obtain ⟨r₀, h₀, rfl, hget⟩ := applyUpdate_spec hu
    rw [h] at h₀
    cases h₀
    exact ⟨oms', rfl, hget⟩

/-- `apply_update` called for its effect: an unknown key changes nothing. -/
def updated (oms : OMSCore F) (key : UInt64) (newStatus : OrderStatus)
    (cumulativeFilledQty lastFillPrice : F) (exchangeOrderId eventNs : Int)
    (commissionDelta : F) : OMSCore F :=
  match oms.applyUpdate key newStatus cumulativeFilledQty lastFillPrice exchangeOrderId eventNs
      commissionDelta with
  | none => oms
  | some (oms', _) => oms'

theorem get_updated (oms : OMSCore F) (key : UInt64) (s : OrderStatus) (c p d : F) (x e : Int)
    (k : UInt64) :
    (oms.updated key s c p x e d).get k =
      if k = key then (oms.get key).map fun r => r.update s c p x e d else oms.get k := by
  unfold updated
  cases hu : oms.applyUpdate key s c p x e d with
  | none =>
    have hnone := applyUpdate_eq_none.mp hu
    show oms.get k = _
    split_ifs with hk
    · rw [hk, hnone, Option.map_none]
    · rfl
  | some q =>
    obtain ⟨oms', r'⟩ := q
    obtain ⟨r, hr, rfl, hget⟩ := applyUpdate_spec hu
    show oms'.get k = _
    rw [hget k, hr, Option.map_some]

end OMSCore
end HoloMarket
