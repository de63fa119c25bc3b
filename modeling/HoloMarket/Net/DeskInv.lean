import HoloMarket.Net.OrderLife

/-!
# DeskInv: what the desk keeps about every order

The facts that hold of all orders whatever the coroutines do: keys, waiters and
records name the order they belong to.  Beside them the three stages of an order
on its way through a pair, and that the environment moves an order only within
its stage.
-/

namespace HoloMarket

variable {K : Type*} [Field K]

/-! ## The stages of an order -/

namespace Desk

/-- Registered, and not handed to the gateway yet. -/
structure Pending (d : Desk K) (n : Nat) (leg : ArbLeg K) : Prop where
  record : ∃ price t, (d.cell n).record =
    some (OrderRecord.fresh (clientId n) leg.symbol leg.side price leg.qty t)
  waiter : (d.cell n).waiter = some n
  chan : (d.cell n).chan = []
  order : (d.cell n).order = none

variable [LinearOrder K]

/-- Sent and not released.  A message that settles is the record itself. -/
structure Tracks (d : Desk K) (n : Nat) (leg : ArbLeg K) (v : VenueOrder K)
    (r : OrderRecord K) : Prop where
  record : (d.cell n).record = some r
  waiter : (d.cell n).waiter = some n
  order : (d.cell n).order = some v
  chan : ∀ m ∈ (d.cell n).chan, m.status.isTerminal = true → m = r
  isFor : v.IsFor n leg (d.orderId n)
  sound : v.Sound
  knows : Knows v r

def Tracked (d : Desk K) (n : Nat) (leg : ArbLeg K) : Prop := ∃ v r, d.Tracks n leg v r

/-- Released, with nothing left to happen to it. -/
structure Settled (d : Desk K) (n : Nat) (leg : ArbLeg K) (v : VenueOrder K) : Prop where
  record : (d.cell n).record = none
  order : (d.cell n).order = some v
  isFor : v.IsFor n leg (d.orderId n)
  sound : v.Sound
  acked : v.Acked = true

/-- Sent, whatever the engine knows of it. -/
def Placed (d : Desk K) (n : Nat) (leg : ArbLeg K) : Prop :=
  ∃ v, (d.cell n).order = some v ∧ v.IsFor n leg (d.orderId n) ∧ v.Sound

/-- A change of the desk that leaves an order in its stage. -/
structure Keeps (d d' : Desk K) (n : Nat) : Prop where
  pending : ∀ leg, d.Pending n leg → d'.Pending n leg
  tracked : ∀ leg, d.Tracked n leg → d'.Tracked n leg
  settled : ∀ leg v, d.Settled n leg v → d'.Settled n leg v
  placed : ∀ leg, d.Placed n leg → d'.Placed n leg

theorem Placed.of_order_eq {d d' : Desk K} {n : Nat} {leg : ArbLeg K} (hp : d.Placed n leg)
    (h : (d'.cell n).order = (d.cell n).order) (hx : d'.orderId = d.orderId) :
    d'.Placed n leg := by
  obtain ⟨v, hv, hfor, hs⟩ := hp
  exact ⟨v, h.trans hv, hx ▸ hfor, hs⟩

theorem Tracked.placed {d : Desk K} {n : Nat} {leg : ArbLeg K} (h : d.Tracked n leg) :
    d.Placed n leg := by
  obtain ⟨v, r, ht⟩ := h
  exact ⟨v, ht.order, ht.isFor, ht.sound⟩

theorem Settled.placed {d : Desk K} {n : Nat} {leg : ArbLeg K} {v : VenueOrder K}
    (h : d.Settled n leg v) : d.Placed n leg := ⟨v, h.order, h.isFor, h.sound⟩

theorem Keeps.of_cell_eq {d d' : Desk K} {n : Nat} (h : d'.cell n = d.cell n)
    (hx : d'.orderId = d.orderId) : Keeps d d' n where
  pending leg hp := ⟨h ▸ hp.record, h ▸ hp.waiter, h ▸ hp.chan, h ▸ hp.order⟩
  tracked leg := by
    rintro ⟨v, r, ht⟩
    exact ⟨v, r, h ▸ ht.record, h ▸ ht.waiter, h ▸ ht.order, h ▸ ht.chan, hx ▸ ht.isFor,
      ht.sound, ht.knows⟩
  settled leg v hs := ⟨h ▸ hs.record, h ▸ hs.order, hx ▸ hs.isFor, hs.sound, hs.acked⟩
  placed leg hp := hp.of_order_eq (congrArg Cell.order h) hx

/-! ## The desk -/

/-- Keys, records, waiters and orders name the number they belong to. -/
structure Ok (d : Desk K) : Prop where
  known : ∀ k, (d.engine.oms.get k).isSome = true ∨ (d.engine.waiters.lookup k).isSome = true →
    ∃ n < d.engine.seq, orderKey n = k
  cid : ∀ n < d.engine.seq, ∀ r, (d.cell n).record = some r → r.clientOrderId = clientId n
  waiter : ∀ n < d.engine.seq, ∀ c, (d.cell n).waiter = some c → c = n
  order : ∀ n v, (d.cell n).order = some v →
    n < d.engine.seq ∧ v.clientOrderId = clientId n ∧ v.QueueOk

end Desk

/-! ## An update reaches the engine -/

namespace ExecutionEngine

variable [LinearOrder K] (eng : ExecutionEngine K) (key : UInt64) (u : UpdateArgs K)

@[simp] theorem applyUpdate_seq : (eng.applyUpdate key u).seq = eng.seq := by
  unfold applyUpdate
  split
  · rfl
  · simp

@[simp] theorem applyUpdate_waiters : (eng.applyUpdate key u).waiters = eng.waiters := by
  unfold applyUpdate
  split
  · rfl
  · simp

@[simp] theorem applyUpdate_accounts : (eng.applyUpdate key u).accounts = eng.accounts := by
  unfold applyUpdate
  split
  · rfl
  · exact dispatchUpdate_accounts ..

theorem get_applyUpdate (k : UInt64) :
    (eng.applyUpdate key u).oms.get k =
      if k = key then (eng.oms.get key).map u.applyTo else eng.oms.get k := by
  have hupd := eng.oms.get_updated key u.newStatus u.cumulativeFilledQty u.lastFillPrice
    u.commissionDelta u.exchangeOrderId u.eventNs k
  unfold OMSCore.updated at hupd
  unfold applyUpdate
  cases ho : eng.oms.applyUpdate key u.newStatus u.cumulativeFilledQty u.lastFillPrice
      u.exchangeOrderId u.eventNs u.commissionDelta with
  | none =>
    rw [ho] at hupd
    exact hupd
  | some q =>
    rw [ho] at hupd
    dsimp only
    rw [dispatchUpdate_oms]
    exact hupd

/-- The copy goes to the channel of the waiter, if there is one. -/
theorem applyUpdate_chans {c : Nat}
    (hw : ∀ r, eng.oms.get key = some r →
      ∀ c', eng.waiters.lookup (fnv1a64 r.clientOrderId) = some c' → c' = c) :
    (∀ m ≠ c, (eng.applyUpdate key u).chans m = eng.chans m) ∧
      ((eng.applyUpdate key u).chans c = eng.chans c ∨
        ∃ r, eng.oms.get key = some r ∧
          (eng.applyUpdate key u).chans c = eng.chans c ++ [u.applyTo r]) := by
  unfold applyUpdate
  cases ho : eng.oms.applyUpdate key u.newStatus u.cumulativeFilledQty u.lastFillPrice
      u.exchangeOrderId u.eventNs u.commissionDelta with
  | none => exact ⟨fun _ _ => rfl, Or.inl rfl⟩
  | some q =>
    obtain ⟨oms', r'⟩ := q
    obtain ⟨r, hr, rfl, -⟩ := OMSCore.applyUpdate_spec ho
    dsimp only
    have hcid : (r.update u.newStatus u.cumulativeFilledQty u.lastFillPrice u.exchangeOrderId
        u.eventNs u.commissionDelta).clientOrderId = r.clientOrderId :=
      OrderRecord.update_clientOrderId ..
    cases hl : eng.waiters.lookup (fnv1a64 r.clientOrderId) with
    | none =>
      rw [dispatchUpdate_chans_none _ _ (by rw [hcid]; exact hl)]
      exact ⟨fun _ _ => rfl, Or.inl rfl⟩
    | some c' =>
      cases hw r hr c' hl
      obtain ⟨hc, hne⟩ := dispatchUpdate_chans { eng with oms := oms' } _
        (c := c) (by rw [hcid]; exact hl)
      exact ⟨hne, hc.elim (fun h => Or.inr ⟨r, hr, h⟩) Or.inl⟩

end ExecutionEngine

/-! ## What an update does to the cells -/

namespace Desk

variable [LinearOrder K] {d d' : Desk K} {n : Nat}

/-- The desk `d'` is `d` after the update `u` of the order `n`, which the exchange
now has as `v`. -/
structure Updated (d d' : Desk K) (n : Nat) (u : UpdateArgs K) (v : VenueOrder K) : Prop where
  engine : d'.engine = d.engine.applyUpdate (orderKey n) u
  exchange : d'.exchange = Function.update d.exchange n (some v)
  orderId : d'.orderId = d.orderId

variable {u : UpdateArgs K} {v : VenueOrder K}

theorem Updated.seq (h : d.Updated d' n u v) : d'.engine.seq = d.engine.seq := by
  rw [h.engine]
  exact ExecutionEngine.applyUpdate_seq ..

theorem Updated.chans (h : d.Updated d' n u v) (hd : d.Ok) (hn : n < d.engine.seq) :
    (∀ m ≠ n, (d'.cell m).chan = (d.cell m).chan) ∧
      ((d'.cell n).chan = (d.cell n).chan ∨ ∃ r, (d.cell n).record = some r ∧
        (d'.cell n).chan = (d.cell n).chan ++ [u.applyTo r]) := by
  have hchans := d.engine.applyUpdate_chans (orderKey n) u (c := n) fun r hr c hc => by
    have hcid := hd.cid n hn r hr
    rw [hcid] at hc
    exact hd.waiter n hn c hc
  unfold cell
  dsimp only
  rw [h.engine]
  exact hchans

/-- Only the cell of the order changes: its record takes the update. -/
theorem Updated.cell_ne (h : d.Updated d' n u v) (hd : d.Ok) (hk : KeysDistinct d.engine.seq)
    (hn : n < d.engine.seq) {m : Nat} (hm : m < d.engine.seq) (hmn : m ≠ n) :
    d'.cell m = d.cell m := by
  have hkey : orderKey m ≠ orderKey n := fun he => hmn (hk m hm n hn he)
  have hchan := (h.chans hd hn).1 m hmn
  unfold cell at hchan ⊢
  dsimp only at hchan ⊢
  rw [hchan, h.engine, h.exchange, ExecutionEngine.get_applyUpdate,
    ExecutionEngine.applyUpdate_waiters, if_neg hkey, Function.update_of_ne hmn]

theorem Updated.record (h : d.Updated d' n u v) :
    (d'.cell n).record = (d.cell n).record.map u.applyTo := by
  show d'.engine.oms.get (orderKey n) = _
  rw [h.engine, ExecutionEngine.get_applyUpdate, if_pos rfl]
  rfl

theorem Updated.waiter (h : d.Updated d' n u v) (m : Nat) :
    (d'.cell m).waiter = (d.cell m).waiter := by
  show d'.engine.waiters.lookup (orderKey m) = _
  rw [h.engine, ExecutionEngine.applyUpdate_waiters]
  rfl

theorem Updated.order (h : d.Updated d' n u v) (m : Nat) :
    (d'.cell m).order = if m = n then some v else (d.cell m).order := by
  show d'.exchange m = _
  rw [h.exchange]
  exact Function.update_apply ..

theorem Updated.ok (h : d.Updated d' n u v) (hd : d.Ok) (hk : KeysDistinct d.engine.seq)
    (hn : n < d.engine.seq) (hv : v.clientOrderId = clientId n ∧ v.QueueOk) : d'.Ok where
  known k hkn := by
    rw [h.seq]
    refine hd.known k ?_
    rw [h.engine, ExecutionEngine.applyUpdate_waiters, ExecutionEngine.get_applyUpdate] at hkn
    by_cases he : k = orderKey n
    · rw [if_pos he, Option.isSome_map] at hkn
      rw [he] at hkn ⊢
      exact hkn
    · rw [if_neg he] at hkn
      exact hkn
  cid m hm r hr := by
    rw [h.seq] at hm
    by_cases hmn : m = n
    · subst hmn
      rw [h.record] at hr
      obtain ⟨r₀, hr₀, rfl⟩ := Option.map_eq_some_iff.mp hr
      rw [UpdateArgs.applyTo_clientOrderId]
      exact hd.cid m hm r₀ hr₀
    · rw [h.cell_ne hd hk hn hm hmn] at hr
      exact hd.cid m hm r hr
  waiter m hm c hc := by
    rw [h.seq] at hm
    rw [h.waiter] at hc
    exact hd.waiter m hm c hc
  order m w hw := by
    rw [h.seq]
    rw [h.order] at hw
    split_ifs at hw with hmn
    · cases hw
      rw [hmn]
      exact ⟨hn, hv⟩
    · exact hd.order m w hw

/-! ## The environment -/

theorem deliver_updated (hd : d.Ok) (h : d.deliver n = some d') :
    ∃ v o rest u, (d.cell n).order = some v ∧ v.outbox = o :: rest ∧
      o.read = some (clientId n, u) ∧ d.Updated d' n u v.pop := by
  obtain ⟨v, hv, h⟩ := Option.bind_eq_some_iff.mp h
  obtain ⟨o, ho, rfl⟩ := Option.map_eq_some_iff.mp h
  obtain ⟨-, hcid, hq⟩ := hd.order n v hv
  cases hout : v.outbox with
  | nil =>
    rw [hout] at ho
    cases ho
  | cons o' rest =>
    rw [hout] at ho
    cases ho
    obtain ⟨u, hu⟩ := hq.read o (by rw [hout]; exact List.mem_cons_self)
    rw [hcid] at hu
    refine ⟨v, o, rest, u, hv, hout, hu, ?_, rfl, rfl⟩
    show d.engine.handleOrderTradeUpdate o = _
    unfold ExecutionEngine.handleOrderTradeUpdate
    rw [hu]
    rfl

theorem refuse_updated {nowNs : Int} (h : d.refuse n nowNs = some d') :
    ∃ v, (d.cell n).order = some v ∧ v.status = .Unknown ∧
      d.Updated d' n (ExecutionEngine.rejectArgs nowNs) { v with status := .Rejected } := by
  obtain ⟨v, hv, h⟩ := Option.bind_eq_some_iff.mp h
  split_ifs at h with hs
  cases h
  exact ⟨v, hv, hs, rfl, rfl, rfl⟩

theorem act_cell {a : VenueAction K} {tMs : Int} (h : d.act n a tMs = some d') :
    ∃ v v', (d.cell n).order = some v ∧ v.act a tMs = some v' ∧
      d'.engine = d.engine ∧ d'.orderId = d.orderId ∧
      ∀ m, d'.cell m = if m = n then { d.cell m with order := some v' } else d.cell m := by
  obtain ⟨v, hv, h⟩ := Option.bind_eq_some_iff.mp h
  obtain ⟨v', hv', rfl⟩ := Option.map_eq_some_iff.mp h
  refine ⟨v, v', hv, hv', rfl, rfl, fun m => ?_⟩
  unfold cell
  dsimp only
  by_cases hm : m = n
  · subst hm
    simp
  · simp [hm]

/-- A settled message stays the record, and a new one is the record. -/
theorem Tracks.updated (h : d.Updated d' n u v) (hd : d.Ok) (hn : n < d.engine.seq)
    {leg : ArbLeg K} {v₀ : VenueOrder K} {r : OrderRecord K}
    (ht : d.Tracks n leg v₀ r) (hopen : r.status.isTerminal = false)
    (hfor : v.IsFor n leg (d.orderId n)) (hs : v.Sound) (hkn : Knows v (u.applyTo r)) :
    d'.Tracks n leg v (u.applyTo r) where
  record := by
    rw [h.record, ht.record]
    rfl
  waiter := by
    rw [h.waiter]
    exact ht.waiter
  order := by rw [h.order, if_pos rfl]
  chan m hm hterm := by
    have hold : m ∈ (d.cell n).chan → m = u.applyTo r := by
      intro hmem
      rw [ht.chan m hmem hterm, hopen] at hterm
      cases hterm
    rcases (h.chans hd hn).2 with hc | ⟨r', hr', hc⟩
    · rw [hc] at hm
      exact hold hm
    · rw [hc] at hm
      rw [ht.record] at hr'
      cases hr'
      rcases List.mem_append.mp hm with hm | hm
      · exact hold hm
      · exact List.mem_singleton.mp hm
  isFor := by
    rw [h.orderId]
    exact hfor
  sound := hs
  knows := hkn

theorem deliver_keeps (hd : d.Ok) (hk : KeysDistinct d.engine.seq) (h : d.deliver n = some d')
    {m : Nat} (hm : m < d.engine.seq) : Keeps d d' m := by
  obtain ⟨v, o, rest, u, hv, ho, hu, hupd⟩ := deliver_updated hd h
  obtain ⟨hn, -, hq⟩ := hd.order n v hv
  by_cases hmn : m = n
  swap
  · exact .of_cell_eq (hupd.cell_ne hd hk hn hm hmn) hupd.orderId
  subst hmn
  refine ⟨fun leg hp => ?_, fun leg => ?_, fun leg w hw => ?_, fun leg hp => ?_⟩
  · rw [hp.order] at hv
    cases hv
  · rintro ⟨w, r, ht⟩
    have hw := ht.order
    rw [hv] at hw
    cases hw
    have happ : o.applyTo r = u.applyTo r := by
      unfold OrderTradeUpdate.applyTo
      rw [hu]
    have hopen : r.status.isTerminal = false := by
      by_contra hterm
      rw [ht.knows.done (by simpa using hterm)] at ho
      cases ho
    refine ⟨v.pop, u.applyTo r, ht.updated hupd hd hn hopen ?_ ht.sound.pop ?_⟩
    · exact ⟨ht.isFor.clientOrderId, ht.isFor.symbol, ht.isFor.side, ht.isFor.qty,
        ht.isFor.orderId⟩
    · rw [← happ]
      exact ht.knows.deliver hq ho
  · have hw' := hw.order
    rw [hv] at hw'
    cases hw'
    rw [(VenueOrder.acked_iff.mp hw.acked).2] at ho
    cases ho
  · obtain ⟨w, hw, hfor, hsound⟩ := hp
    cases hv.symm.trans hw
    refine ⟨v.pop, by rw [hupd.order, if_pos rfl], ?_, hsound.pop⟩
    rw [hupd.orderId]
    exact ⟨hfor.clientOrderId, hfor.symbol, hfor.side, hfor.qty, hfor.orderId⟩

theorem refuse_keeps (hd : d.Ok) (hk : KeysDistinct d.engine.seq) {nowNs : Int}
    (h : d.refuse n nowNs = some d') {m : Nat} (hm : m < d.engine.seq) : Keeps d d' m := by
  obtain ⟨v, hv, hs, hupd⟩ := refuse_updated h
  obtain ⟨hn, -, -⟩ := hd.order n v hv
  by_cases hmn : m = n
  swap
  · exact .of_cell_eq (hupd.cell_ne hd hk hn hm hmn) hupd.orderId
  subst hmn
  refine ⟨fun leg hp => ?_, fun leg => ?_, fun leg w hw => ?_, fun leg hp => ?_⟩
  · rw [hp.order] at hv
    cases hv
  · rintro ⟨w, r, ht⟩
    have hw := ht.order
    rw [hv] at hw
    cases hw
    have hopen : r.status.isTerminal = false := by
      by_contra hterm
      have hc := ht.knows.isClosed (by simpa using hterm)
      rw [hs] at hc
      cases hc
    refine ⟨_, _, ht.updated hupd hd hn hopen ?_ (ht.sound.refuse hs)
      (ht.knows.refuse ht.sound hs nowNs)⟩
    exact ⟨ht.isFor.clientOrderId, ht.isFor.symbol, ht.isFor.side, ht.isFor.qty,
      ht.isFor.orderId⟩
  · have hw' := hw.order
    rw [hv] at hw'
    cases hw'
    have hc := (VenueOrder.acked_iff.mp hw.acked).1
    rw [hs] at hc
    cases hc
  · obtain ⟨w, hw, hfor, hsound⟩ := hp
    cases hv.symm.trans hw
    refine ⟨_, by rw [hupd.order, if_pos rfl], ?_, hsound.refuse hs⟩
    rw [hupd.orderId]
    exact ⟨hfor.clientOrderId, hfor.symbol, hfor.side, hfor.qty, hfor.orderId⟩

theorem act_keeps [IsStrictOrderedRing K] {a : VenueAction K} {tMs : Int}
    (h : d.act n a tMs = some d') (m : Nat) : Keeps d d' m := by
  obtain ⟨v, v', hv, ha, -, hx, hcell⟩ := act_cell h
  by_cases hmn : m = n
  swap
  · exact .of_cell_eq (by rw [hcell, if_neg hmn]) hx
  subst hmn
  have hcell' := (hcell m).trans (if_pos rfl)
  refine ⟨fun leg hp => ?_, fun leg => ?_, fun leg w hw => ?_, fun leg hp => ?_⟩
  · rw [hp.order] at hv
    cases hv
  · rintro ⟨w, r, ht⟩
    have hw := ht.order
    rw [hv] at hw
    cases hw
    refine ⟨v', r, ?_, ?_, ?_, ?_, hx ▸ ht.isFor.act ha, ht.sound.act ha, ht.knows.act ha⟩
    · rw [hcell']
      exact ht.record
    · rw [hcell']
      exact ht.waiter
    · rw [hcell']
    · rw [hcell']
      exact ht.chan
  · have hw' := hw.order
    rw [hv] at hw'
    cases hw'
    have hopen := (VenueOrder.act_eq_some ha).1
    rw [(VenueOrder.acked_iff.mp hw.acked).1] at hopen
    cases hopen
  · obtain ⟨w, hw, hfor, hsound⟩ := hp
    cases hv.symm.trans hw
    exact ⟨v', by rw [hcell'], hx ▸ hfor.act ha, hsound.act ha⟩

theorem Ok.act (hd : d.Ok) {a : VenueAction K} {tMs : Int} (h : d.act n a tMs = some d') :
    d'.Ok := by
  obtain ⟨v, v', hv, ha, he, -, hcell⟩ := act_cell h
  have hsame : ∀ m, (d'.cell m).record = (d.cell m).record ∧
      (d'.cell m).waiter = (d.cell m).waiter := by
    intro m
    rw [hcell]
    split_ifs <;> exact ⟨rfl, rfl⟩
  refine ⟨fun k hk => ?_, fun m hm r hr => ?_, fun m hm c hc => ?_, fun m w hw => ?_⟩
  · rw [he] at hk ⊢
    exact hd.known k hk
  · rw [he] at hm
    exact hd.cid m hm r ((hsame m).1 ▸ hr)
  · rw [he] at hm
    exact hd.waiter m hm c ((hsame m).2 ▸ hc)
  · rw [he]
    rw [hcell] at hw
    split_ifs at hw with hmn
    · cases hw
      obtain ⟨hn, hcid, hq⟩ := hd.order n v hv
      rw [hmn]
      exact ⟨hn, (VenueOrder.act_eq_some ha).2.1.trans hcid, hq.act ha⟩
    · exact hd.order m w hw

theorem Ok.deliver (hd : d.Ok) (hk : KeysDistinct d.engine.seq) (h : d.deliver n = some d') :
    d'.engine.seq = d.engine.seq ∧ d'.Ok := by
  obtain ⟨v, o, rest, u, hv, -, -, hupd⟩ := deliver_updated hd h
  obtain ⟨hn, hcid, hq⟩ := hd.order n v hv
  exact ⟨hupd.seq, hupd.ok hd hk hn ⟨hcid, hq.pop⟩⟩

theorem Ok.refuse (hd : d.Ok) (hk : KeysDistinct d.engine.seq) {nowNs : Int}
    (h : d.refuse n nowNs = some d') : d'.engine.seq = d.engine.seq ∧ d'.Ok := by
  obtain ⟨v, hv, -, hupd⟩ := refuse_updated h
  obtain ⟨hn, hcid, hq⟩ := hd.order n v hv
  exact ⟨hupd.seq, hupd.ok hd hk hn ⟨hcid, hq.read, hq.last, fun _ _ _ => rfl⟩⟩

end Desk
end HoloMarket
