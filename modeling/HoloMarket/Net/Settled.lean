import Mathlib.Algebra.Order.Field.Rat
import Mathlib.Algebra.Order.Ring.Unbundled.Rat
import HoloMarket.Lib.Machine
import HoloMarket.Net.OmsRefinement
import HoloMarket.Net.Venue

/-!
# When a settled order stays settled

One order, from its registration on: its events reach the OMS late and in order,
a reconciliation writes what the exchange says at that moment, and the gateway
may write a reject.  `apply_update` stores whatever status it is given, so a
record settled ahead of the stream is revived by the next event of an earlier
state.
-/

namespace HoloMarket

variable {K : Type*}

/-- A call that has nothing to do with the order of `key`. -/
def OmsCall.avoids (key : UInt64) : OmsCall K → Bool
  | .registerNewOrder cid _ _ _ _ _ =>
    fnv1a64 cid != key && fnv1a64 (makeClientId cid) != key
  | .applyUpdate k _ _ _ _ _ _ => k != key
  | .release k => k != key
  | _ => true

structure TrackedOrder (K : Type*) where
  oms : OMSCore K
  order : VenueOrder K
  /-- Not in the code: the record was settled by a snapshot or a reject. -/
  early : Bool

namespace TrackedOrder

inductive Event (K : Type*) where
  | act (a : VenueAction K) (tMs : Int)
  | deliver
  /-- An event is lost in a gap of the stream. -/
  | lose
  | reconcile (openOrders : Option (List (Option String))) (answered : Bool)
      (others : String → String → Option (OrderBody K)) (t : Clock)
  | reject (nowNs : Int)
  | release
  | foreign (call : OmsCall K)

def key (s : TrackedOrder K) : UInt64 := fnv1a64 s.order.clientOrderId

def record (s : TrackedOrder K) : Option (OrderRecord K) := s.oms.get s.key

def settled (s : TrackedOrder K) : Bool := s.record.any fun r => r.status.isTerminal

variable {s s' : TrackedOrder K}

/-- A step that leaves the record alone leaves it settled. -/
theorem settled_of_record_eq (hr : s'.record = s.record) (hs : s.settled = true) :
    s'.settled = true := by
  unfold settled at hs ⊢
  rw [hr]
  exact hs

section
variable [Field K]

def init (oms : OMSCore K) (clientOrderId symbol : String) (side : Side) (price qty : K)
    (orderId : Int) (t : Clock) : TrackedOrder K where
  oms := (oms.registerNewOrder clientOrderId symbol side price qty t).1
  order := VenueOrder.arrive clientOrderId symbol side qty orderId
  early := false

/-- The answers to the lookups: for this order what the exchange has now, when
it knows the order and answers. -/
def lookup (s : TrackedOrder K) (answered : Bool)
    (others : String → String → Option (OrderBody K)) (symbol cid : String) :
    Option (OrderBody K) :=
  if cid = s.order.clientOrderId then
    if answered = true ∧ s.order.status ≠ .Unknown then some s.order.body else none
  else others symbol cid

/-- A record settled by the stream has seen the last event of its order. -/
structure Inv (s : TrackedOrder K) : Prop where
  keyed : s.oms.KeyedAt s.key
  queue : s.order.QueueOk
  done : s.early = false → s.settled = true →
    s.order.status.isClosed = true ∧ s.order.outbox = []

theorem inv_init {oms : OMSCore K} {cid : String} (hk : oms.KeyedAt (fnv1a64 cid))
    (hcid : makeClientId cid = cid) (symbol : String) (side : Side) (price qty : K)
    (orderId : Int) (t : Clock) : Inv (init oms cid symbol side price qty orderId t) where
  keyed := hk.registerNewOrder hcid symbol side price qty t
  queue := VenueOrder.queueOk_arrive ..
  done _ hs := by
    have hrec : (init oms cid symbol side price qty orderId t).record =
        some (OrderRecord.fresh cid symbol side price qty t) := by
      show (oms.registerNewOrder cid symbol side price qty t).1.get (fnv1a64 cid) = _
      rw [OMSCore.get_registerNewOrder, if_pos rfl]
    unfold settled at hs
    rw [hrec] at hs
    cases hs

theorem Inv.lose (h : Inv s) : Inv { s with order := s.order.pop } := by
  refine ⟨h.keyed, h.queue.pop, fun he hs => ?_⟩
  obtain ⟨hc, hout⟩ := h.done he hs
  refine ⟨hc, ?_⟩
  show s.order.outbox.tail = []
  rw [hout]
  rfl

theorem Inv.release (h : Inv s) :
    Inv { s with oms := s.oms.release s.key, early := false } := by
  refine ⟨h.keyed.of_cids fun k r' hr' => ?_, h.queue, fun _ hs => ?_⟩
  · replace hr' : (s.oms.release s.key).get k = some r' := hr'
    rw [OMSCore.get_release] at hr'
    split_ifs at hr'
    exact ⟨r', hr', rfl⟩
  · have hnone : (s.oms.release s.key).get s.key = none := by
      rw [OMSCore.get_release, if_pos rfl]
    replace hs : ((s.oms.release s.key).get s.key).any (fun r => r.status.isTerminal) = true := hs
    rw [hnone] at hs
    cases hs

variable [LinearOrder K]

def reconcile (s : TrackedOrder K) (openOrders : Option (List (Option String)))
    (answered : Bool) (others : String → String → Option (OrderBody K)) (t : Clock) :
    TrackedOrder K :=
  let s' := { s with oms := s.oms.reconcileOpenOrders openOrders (s.lookup answered others) t }
  { s' with early := s.early || (!s.settled && s'.settled) }

def reject (s : TrackedOrder K) (nowNs : Int) : TrackedOrder K :=
  let s' := { s with oms := s.oms.updated s.key .Rejected 0 0 0 nowNs 0 }
  { s' with early := s.early || s'.settled }

def step (s : TrackedOrder K) : Event K → Option (TrackedOrder K)
  | .act a tMs => (s.order.act a tMs).map fun v => { s with order := v }
  | .deliver => s.order.outbox.head?.map fun o =>
    { s with oms := s.oms.delivered o, order := s.order.pop }
  | .lose => if s.order.outbox = [] then none else some { s with order := s.order.pop }
  | .reconcile openOrders answered others t => some (s.reconcile openOrders answered others t)
  | .reject nowNs => some (s.reject nowNs)
  | .release => some { s with oms := s.oms.release s.key, early := false }
  | .foreign call => if call.avoids s.key then some { s with oms := (s.oms.call call).1 } else none

/-- The step leaves a settled order settled, unless it releases it. -/
def StaysSettled (s : TrackedOrder K) (e : Event K) : Prop :=
  ∀ s', step s e = some s' → e ≠ .release → s.settled = true → s'.settled = true

/-- Once settled ahead of the stream, the order is only told that it is settled. -/
def NotBehind (s : TrackedOrder K) (e : Event K) : Prop :=
  e = .deliver → s.early = true → s.settled = true →
    ∀ o, s.order.outbox.head? = some o → o.settles = true

/-! ## Steps -/

theorem get_call_of_avoids {oms : OMSCore K} {key : UInt64} {call : OmsCall K}
    (h : call.avoids key = true) : (oms.call call).1.get key = oms.get key := by
  cases call with
  | registerNewOrder cid sym side price qty t =>
    have hne : key ≠ fnv1a64 cid := by
      intro he
      simp [OmsCall.avoids, he] at h
    show (oms.registerNewOrder cid sym side price qty t).1.get key = _
    rw [OMSCore.get_registerNewOrder, if_neg hne]
  | applyUpdate k s c p x e d =>
    have hne : key ≠ k := by
      intro he
      simp [OmsCall.avoids, he] at h
    cases hu : oms.applyUpdate k s c p x e d with
    | none => simp [OMSCore.call, hu]
    | some q =>
      obtain ⟨oms', r'⟩ := q
      obtain ⟨r, -, -, hget⟩ := OMSCore.applyUpdate_spec hu
      simp [OMSCore.call, hu, hget, hne]
  | release k =>
    have hne : key ≠ k := by
      intro he
      simp [OmsCall.avoids, he] at h
    show (oms.release k).get key = _
    rw [OMSCore.get_release, if_neg hne]
  | get k => rfl
  | getStaleOrders a b => rfl
  | liveOrderCount => rfl

theorem keyedAt_call_of_avoids {oms : OMSCore K} {key : UInt64} (hk : oms.KeyedAt key)
    {call : OmsCall K} (h : call.avoids key = true) : (oms.call call).1.KeyedAt key := by
  cases call with
  | registerNewOrder cid sym side price qty t =>
    have hne : fnv1a64 cid ≠ key ∧ fnv1a64 (makeClientId cid) ≠ key := by
      simpa [OmsCall.avoids] using h
    intro k r hr
    replace hr : (oms.registerNewOrder cid sym side price qty t).1.get k = some r := hr
    rw [OMSCore.get_registerNewOrder] at hr
    split_ifs at hr with he
    · cases hr
      subst he
      exact iff_of_false hne.2 hne.1
    · exact hk k r hr
  | applyUpdate k s c p x e d =>
    cases hu : oms.applyUpdate k s c p x e d with
    | none => simpa [OMSCore.call, hu] using hk
    | some q =>
      obtain ⟨oms', r'⟩ := q
      obtain ⟨r, hr, rfl, hget⟩ := OMSCore.applyUpdate_spec hu
      have hcall : (oms.call (.applyUpdate k s c p x e d)).1 = oms' := by
        simp [OMSCore.call, hu]
      rw [hcall]
      refine hk.of_cids fun k' r' hr' => ?_
      rw [hget] at hr'
      split_ifs at hr' with he
      · cases hr'
        exact ⟨r, he ▸ hr, (OrderRecord.update_clientOrderId ..).symm⟩
      · exact ⟨r', hr', rfl⟩
  | release k =>
    refine hk.of_cids fun k' r' hr' => ?_
    replace hr' : (oms.release k).get k' = some r' := hr'
    rw [OMSCore.get_release] at hr'
    split_ifs at hr'
    exact ⟨r', hr', rfl⟩
  | get k => exact hk
  | getStaleOrders a b => exact hk
  | liveOrderCount => exact hk

/-- A delivery settles the record when it settles the order. -/
theorem settled_deliver (hq : s.order.QueueOk) {o : OrderTradeUpdate K}
    (ho : s.order.outbox.head? = some o) (hs : s.record.isSome = true) :
    ({ s with oms := s.oms.delivered o, order := s.order.pop } : TrackedOrder K).settled =
      o.settles := by
  obtain ⟨u, hu⟩ := hq.read o (List.mem_of_head? ho)
  obtain ⟨r, hr⟩ := Option.isSome_iff_exists.mp hs
  replace hr : s.oms.get s.key = some r := hr
  show ((s.oms.delivered o).get s.key).any _ = o.settles
  rw [OMSCore.get_delivered_of_read hu, key, if_pos rfl, ← key, hr, OrderTradeUpdate.settles, hu]
  rfl

instance (s : TrackedOrder K) (e : Event K) : Decidable (NotBehind s e) :=
  match e with
  | .deliver =>
    match h : s.order.outbox.head? with
    | none => .isTrue fun _ _ _ o ho => by rw [h] at ho; cases ho
    | some o =>
      decidable_of_iff (s.early = true → s.settled = true → o.settles = true)
        ⟨fun hn _ he hs o' ho => by rw [h] at ho; cases ho; exact hn he hs,
          fun hn he hs => hn rfl he hs o h⟩
  | .act _ _ | .lose | .reconcile _ _ _ _ | .reject _ | .release | .foreign _ => .isTrue nofun

theorem record_deliver_none {o : OrderTradeUpdate K} (hs : s.record = none) :
    (s.oms.delivered o).get s.key = none := by
  cases hg : (s.oms.delivered o).get s.key with
  | none => rfl
  | some r' =>
    obtain ⟨r, hr, -⟩ := OMSCore.delivered_cids s.oms o s.key r' hg
    replace hs : s.oms.get s.key = none := hs
    rw [hs] at hr
    cases hr

theorem record_reconcile (hk : s.oms.KeyedAt s.key) (hs : s.settled = true)
    (openOrders : Option (List (Option String))) (answered : Bool)
    (others : String → String → Option (OrderBody K)) (t : Clock) :
    (s.reconcile openOrders answered others t).record = s.record := by
  cases openOrders with
  | none => rfl
  | some listed =>
    show (s.oms.reconcileOpenOrders (some listed) (s.lookup answered others) t).get s.key =
      s.oms.get s.key
    rw [OMSCore.get_reconcileOpenOrders hk]
    cases hr : s.oms.get s.key with
    | none => rfl
    | some r =>
      have hterm : r.status.isTerminal = true := by
        unfold settled at hs
        replace hr : s.record = some r := hr
        rw [hr] at hs
        exact hs
      have hlive : r.status.isLive = false := by
        rw [OrderStatus.isLive_eq_not_isTerminal, hterm]
        rfl
      rw [Option.map_some, if_neg (by simp [hlive])]

theorem Inv.act (h : Inv s) {a : VenueAction K} {tMs : Int} {v : VenueOrder K}
    (hv : s.order.act a tMs = some v) :
    Inv { s with order := v } ∧ ({ s with order := v } : TrackedOrder K).record = s.record := by
  obtain ⟨hopen, hcid, -⟩ := VenueOrder.act_eq_some hv
  have hkey : ({ s with order := v } : TrackedOrder K).key = s.key := congrArg fnv1a64 hcid
  have hrec : ({ s with order := v } : TrackedOrder K).record = s.record := congrArg s.oms.get hkey
  refine ⟨⟨?_, h.queue.act hv, fun he hs => ?_⟩, hrec⟩
  · rw [hkey]
    exact h.keyed
  · have hclosed := (h.done he (settled_of_record_eq hrec.symm hs)).1
    rw [hopen] at hclosed
    cases hclosed

theorem Inv.deliver (h : Inv s) {o : OrderTradeUpdate K}
    (ho : s.order.outbox.head? = some o) :
    Inv { s with oms := s.oms.delivered o, order := s.order.pop } := by
  refine ⟨h.keyed.of_cids (OMSCore.delivered_cids s.oms o), h.queue.pop, fun he hs => ?_⟩
  have hsome : s.record.isSome = true := by
    by_contra hn
    have hnone : s.record = none := by simpa using hn
    have hset : ((s.oms.delivered o).get s.key).any (fun r => r.status.isTerminal) = true := hs
    rw [record_deliver_none hnone] at hset
    cases hset
  rw [settled_deliver h.queue ho hsome] at hs
  refine ⟨h.queue.closed o (List.mem_of_head? ho) hs, ?_⟩
  show s.order.outbox.tail = []
  cases hq : s.order.outbox with
  | nil => rfl
  | cons o' rest =>
    have heq : o' = o := by simpa [hq] using ho
    exact h.queue.tail_eq_nil hq (heq ▸ hs)

theorem Inv.reconcile (h : Inv s) (openOrders : Option (List (Option String)))
    (answered : Bool) (others : String → String → Option (OrderBody K)) (t : Clock) :
    Inv (s.reconcile openOrders answered others t) := by
  refine ⟨h.keyed.of_cids (OMSCore.reconcileOpenOrders_cids s.oms openOrders _ t), h.queue,
    fun he hs => ?_⟩
  have hboth : s.early = false ∧ s.settled = true := by
    have hs' : (TrackedOrder.mk (s.oms.reconcileOpenOrders openOrders (s.lookup answered others) t)
        s.order s.early).settled = true := hs
    simpa [TrackedOrder.reconcile, hs'] using he
  exact h.done hboth.1 hboth.2

theorem Inv.reject (h : Inv s) (nowNs : Int) : Inv (s.reject nowNs) := by
  refine ⟨h.keyed.of_cids fun k r' hr' => ?_, h.queue, fun he hs => ?_⟩
  · replace hr' : (s.oms.updated s.key .Rejected 0 0 0 nowNs 0).get k = some r' := hr'
    rw [OMSCore.get_updated] at hr'
    split_ifs at hr' with hk
    · obtain ⟨r, hr, rfl⟩ := Option.map_eq_some_iff.mp hr'
      exact ⟨r, hk ▸ hr, (OrderRecord.update_clientOrderId ..).symm⟩
    · exact ⟨r', hr', rfl⟩
  · have hs' : ({ s with oms := s.oms.updated s.key .Rejected 0 0 0 nowNs 0 } :
      TrackedOrder K).settled = true := hs
    simp [TrackedOrder.reject, hs'] at he

theorem Inv.foreign (h : Inv s) {call : OmsCall K} (hc : call.avoids s.key = true) :
    Inv { s with oms := (s.oms.call call).1 } ∧
      ({ s with oms := (s.oms.call call).1 } : TrackedOrder K).record = s.record := by
  have hrec : ({ s with oms := (s.oms.call call).1 } : TrackedOrder K).record = s.record :=
    get_call_of_avoids hc
  refine ⟨⟨keyedAt_call_of_avoids h.keyed hc, h.queue, fun he hs => ?_⟩, hrec⟩
  exact h.done he (settled_of_record_eq hrec.symm hs)

theorem Inv.step (h : Inv s) {e : Event K} (hs : TrackedOrder.step s e = some s') : Inv s' := by
  cases e with
  | act a tMs =>
    obtain ⟨v, hv, rfl⟩ := Option.map_eq_some_iff.mp hs
    exact (h.act hv).1
  | deliver =>
    obtain ⟨o, ho, rfl⟩ := Option.map_eq_some_iff.mp hs
    exact h.deliver ho
  | lose =>
    unfold TrackedOrder.step at hs
    dsimp only at hs
    split_ifs at hs
    cases hs
    exact h.lose
  | reconcile openOrders answered others t =>
    cases hs
    exact h.reconcile openOrders answered others t
  | reject nowNs =>
    cases hs
    exact h.reject nowNs
  | release =>
    cases hs
    exact h.release
  | foreign call =>
    unfold TrackedOrder.step at hs
    dsimp only at hs
    split_ifs at hs with hc
    cases hs
    exact (h.foreign hc).1

/-- At a single step the two conditions agree: of all writes only a delivery can
revive a settled record, and only one settled ahead of the stream. -/
theorem Inv.stays_iff (h : Inv s) (e : Event K) : StaysSettled s e ↔ NotBehind s e := by
  cases e with
  | act a tMs =>
    refine iff_of_true (fun s' hs _ hset => ?_) nofun
    obtain ⟨v, hv, rfl⟩ := Option.map_eq_some_iff.mp hs
    exact settled_of_record_eq (h.act hv).2 hset
  | deliver =>
    constructor
    · intro hstay _ _ hset o ho
      have hsome : s.record.isSome = true := Option.isSome_of_any hset
      have hs := hstay _ (Option.map_eq_some_iff.mpr ⟨o, ho, rfl⟩) nofun hset
      rwa [settled_deliver h.queue ho hsome] at hs
    · intro hnot s' hs _ hset
      obtain ⟨o, ho, rfl⟩ := Option.map_eq_some_iff.mp hs
      have hsome : s.record.isSome = true := Option.isSome_of_any hset
      rw [settled_deliver h.queue ho hsome]
      cases he : s.early with
      | true => exact hnot rfl he hset o ho
      | false =>
        rw [(h.done he hset).2] at ho
        cases ho
  | lose =>
    refine iff_of_true (fun s' hs _ hset => ?_) nofun
    unfold TrackedOrder.step at hs
    dsimp only at hs
    split_ifs at hs
    cases hs
    exact hset
  | reconcile openOrders answered others t =>
    refine iff_of_true (fun s' hs _ hset => ?_) nofun
    cases hs
    exact settled_of_record_eq (record_reconcile h.keyed hset openOrders answered others t) hset
  | reject nowNs =>
    refine iff_of_true (fun s' hs _ hset => ?_) nofun
    cases hs
    obtain ⟨r, hr⟩ := Option.isSome_iff_exists.mp (Option.isSome_of_any hset)
    replace hr : s.oms.get s.key = some r := hr
    show ((s.oms.updated s.key .Rejected 0 0 0 nowNs 0).get s.key).any _ = true
    rw [OMSCore.get_updated, if_pos rfl, hr]
    rfl
  | release => exact iff_of_true (fun s' _ hne _ => absurd rfl hne) nofun
  | foreign call =>
    refine iff_of_true (fun s' hs _ hset => ?_) nofun
    unfold TrackedOrder.step at hs
    dsimp only at hs
    split_ifs at hs with hc
    cases hs
    exact settled_of_record_eq (h.foreign hc).2 hset

/-- In a run from the registration of an order, the order stays settled at every
step exactly when no event that leaves it live reaches a record that a snapshot
or a reject has settled. -/
theorem staysSettled_iff {oms : OMSCore K} {cid : String} (hk : oms.KeyedAt (fnv1a64 cid))
    (hcid : makeClientId cid = cid) (symbol : String) (side : Side) (price qty : K)
    (orderId : Int) (t : Clock) (es : List (Event K)) :
    Machine.RunOk TrackedOrder.step StaysSettled
        (init oms cid symbol side price qty orderId t) es ↔
      Machine.RunOk TrackedOrder.step NotBehind
        (init oms cid symbol side price qty orderId t) es :=
  Machine.runOk_congr (fun _ e h => h.stays_iff e) (fun _ _ _ h _ hs => h.step hs)
    (inv_init hk hcid symbol side price qty orderId t) es

end

/-- A snapshot that runs ahead of the final event alone does no harm. -/
theorem staysSettled_final_event :
    Machine.RunOk TrackedOrder.step StaysSettled
      (init OMSCore.init "holo-1" "BTCUSDT" .Buy 0 (2 : Rat) 7 ⟨0, 0⟩)
      [.act .accept 1, .deliver, .act (.fill 2 100 0) 2,
        .reconcile (some []) true (fun _ _ => none) ⟨3, 3⟩, .deliver, .release] := by
  have hk : (OMSCore.init : OMSCore Rat).KeyedAt (fnv1a64 "holo-1") := by
    intro k r hr
    cases hr
  refine (staysSettled_iff hk (by decide) "BTCUSDT" .Buy 0 2 7 ⟨0, 0⟩ _).mpr ?_
  decide +kernel

/-- The order fills while its first event is still queued; the snapshot settles
it and the queued event revives it. -/
theorem settled_revived :
    let s := init OMSCore.init "holo-1" "BTCUSDT" .Buy 0 (2 : Rat) 7 ⟨0, 0⟩
    let es : List (Event Rat) := [.act .accept 1, .act (.fill 2 100 0) 2,
      .reconcile (some []) true (fun _ _ => none) ⟨3, 3⟩]
    (Machine.run TrackedOrder.step s es).map settled = some true ∧
      ((Machine.run TrackedOrder.step s (es ++ [.deliver])).bind record).map
        OrderRecord.status = some .Open := by
  decide +kernel

end TrackedOrder
end HoloMarket
