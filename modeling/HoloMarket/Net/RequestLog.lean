import HoloMarket.Lib.RunBounds
import HoloMarket.Net.PairRequests
import HoloMarket.Net.WorldInv

/-!
# RequestLog: the requests of a run

The requests that the pairs and the sweeper make along a run, in order, each under the
pair that made it.  No order is sent twice, the exchange knows the orders that were sent,
and the part of the log that belongs to a pair is what its suspension point tells.
-/

namespace HoloMarket

/-- The requests of a run; those of the sweeper have no pair. -/
abbrev RequestLog := List (Option Nat × GatewayRequest)

namespace RequestLog

def orders (log : RequestLog) : List Nat := log.filterMap fun q => q.2.order?

/-- Symbol and client id of the cancels. -/
def cancels (log : RequestLog) : List (String × String) := log.filterMap fun q => q.2.cancel?

/-- The requests of pair `i`. -/
def ofPair (i : Nat) (log : RequestLog) : List GatewayRequest :=
  log.filterMap fun q => if q.1 = some i then some q.2 else none

/-- The requests `rs`, made by pair `i`. -/
def tagged (i : Nat) (rs : List GatewayRequest) : RequestLog := rs.map fun r => (some i, r)

variable (log log' : RequestLog) (i j : Nat) (rs : List GatewayRequest)

@[simp] theorem orders_append : orders (log ++ log') = log.orders ++ log'.orders :=
  List.filterMap_append

@[simp] theorem cancels_append : cancels (log ++ log') = log.cancels ++ log'.cancels :=
  List.filterMap_append

@[simp] theorem ofPair_append : ofPair i (log ++ log') = log.ofPair i ++ log'.ofPair i :=
  List.filterMap_append

@[simp] theorem orders_tagged : (tagged i rs).orders = rs.filterMap GatewayRequest.order? := by
  unfold orders tagged
  rw [List.filterMap_map]
  rfl

@[simp] theorem cancels_tagged : (tagged i rs).cancels = rs.filterMap GatewayRequest.cancel? := by
  unfold cancels tagged
  rw [List.filterMap_map]
  rfl

@[simp] theorem ofPair_tagged_self : (tagged i rs).ofPair i = rs := by
  simp [ofPair, tagged, List.filterMap_map]

theorem ofPair_tagged_ne {i j : Nat} (h : i ≠ j) : (tagged i rs).ofPair j = [] := by
  simp [ofPair, tagged, List.filterMap_map, h]

end RequestLog

open RequestLog

variable {K : Type*} [Field K] [LinearOrder K]

namespace World

/-- What a step asks of the gateway. -/
def requests (w : World K) : EngineEvent K → RequestLog
  | .signal leg1 leg2 _ =>
    if w.desk.engine.admits leg1 leg2 then tagged w.pairs.length [.order w.desk.engine.seq]
    else []
  | .resume i r t =>
    (w.pairs[i]?).elim [] fun p =>
      (w.desk.resume p r t).elim [] fun q => tagged i (p.requests q.2)
  | .sweep maxAge steadyNs =>
    (w.desk.engine.oms.getStaleOrders maxAge steadyNs).map fun rec =>
      (none, .cancel rec.symbol rec.clientOrderId)
  | _ => []

theorem cancels_sweep (w : World K) (maxAge steadyNs : Int) :
    (w.requests (.sweep maxAge steadyNs)).cancels =
      (w.desk.engine.oms.getStaleOrders maxAge steadyNs).map fun rec =>
        (rec.symbol, rec.clientOrderId) := by
  unfold requests RequestLog.cancels
  rw [List.filterMap_map, ← List.filterMap_eq_map]
  rfl

theorem orders_sweep (w : World K) (maxAge steadyNs : Int) :
    (w.requests (.sweep maxAge steadyNs)).orders = [] := by
  simp [requests, RequestLog.orders, List.filterMap_map, GatewayRequest.order?]

theorem ofPair_sweep (w : World K) (maxAge steadyNs : Int) (i : Nat) :
    (w.requests (.sweep maxAge steadyNs)).ofPair i = [] := by
  simp [requests, ofPair, List.filterMap_map]

/-- What the log knows of the world. -/
structure Logged (w : World K) (log : RequestLog) : Prop where
  nodup : log.orders.Nodup
  lt : ∀ n ∈ log.orders, n < w.desk.engine.seq
  sent : ∀ n, (w.desk.exchange n).isSome = true ↔ n ∈ log.orders
  cancels : w.desk.cancels = log.cancels
  pair : ∀ (i : Nat) (p : PairTask K), w.pairs[i]? = some p → p.Requested p.pc (log.ofPair i)
  fresh : ∀ i, w.pairs.length ≤ i → log.ofPair i = []
  unsent : ∀ (i : Nat) (p : PairTask K), w.pairs[i]? = some p → p.pc.leg2Sent = false →
    p.id2 ∉ log.orders
  id2_lt : ∀ (i : Nat) (p : PairTask K), w.pairs[i]? = some p → p.id2 < w.desk.engine.seq
  apart : ∀ (i j : Nat) (p q : PairTask K), w.pairs[i]? = some p → w.pairs[j]? = some q →
    i ≠ j → p.id2 ≠ q.id2

variable {w w' : World K} {log : RequestLog} {d : Desk K}

omit [LinearOrder K] in
theorem init_logged (maxOpenOrders : Nat) (orderId : Nat → Int) :
    Logged (init maxOpenOrders orderId : World K) [] where
  nodup := List.nodup_nil
  lt := nofun
  sent _ := ⟨nofun, nofun⟩
  cancels := rfl
  pair _ _ hp := nomatch hp
  fresh _ _ := rfl
  unsent _ _ hp := nomatch hp
  id2_lt _ _ hp := nomatch hp
  apart _ _ _ _ hp := nomatch hp

omit [Field K] [LinearOrder K] in
/-- A change of the desk under which no order is sent, with the cancels `log'`. -/
theorem Logged.of_desk (h : Logged w log) {log' : RequestLog}
    (hseq : d.engine.seq = w.desk.engine.seq)
    (hsent : ∀ n, (d.exchange n).isSome = (w.desk.exchange n).isSome)
    (hcancels : d.cancels = w.desk.cancels ++ log'.cancels) (horders : log'.orders = [])
    (hpair : ∀ i, log'.ofPair i = []) : Logged { w with desk := d } (log ++ log') := by
  have ho : (log ++ log').orders = log.orders := by
    rw [orders_append, horders, List.append_nil]
  have hp : ∀ i, (log ++ log').ofPair i = log.ofPair i := by
    intro i
    rw [ofPair_append, hpair, List.append_nil]
  constructor
  · rw [ho]
    exact h.nodup
  · intro n hn
    rw [ho] at hn
    show n < d.engine.seq
    rw [hseq]
    exact h.lt n hn
  · intro n
    show (d.exchange n).isSome = true ↔ _
    rw [ho, hsent]
    exact h.sent n
  · show d.cancels = _
    rw [hcancels, h.cancels, cancels_append]
  · intro i p hi
    rw [hp]
    exact h.pair i p hi
  · intro i hi
    rw [hp]
    exact h.fresh i hi
  · intro i p hi hleg2
    rw [ho]
    exact h.unsent i p hi hleg2
  · intro i p hi
    show p.id2 < d.engine.seq
    rw [hseq]
    exact h.id2_lt i p hi
  · exact h.apart

/-- What a pair asks for while it goes on, and what becomes of it: an order it sends is
its second leg or has a new number. -/
structure Asks (d d' : Desk K) (p : PairTask K) (pc : PairPc) (rs : List GatewayRequest) :
    Prop where
  seq : d.engine.seq ≤ d'.engine.seq
  sent : ∀ n, (d'.exchange n).isSome = true ↔
    (d.exchange n).isSome = true ∨ n ∈ rs.filterMap GatewayRequest.order?
  cancels : d.Cancels d' rs
  nodup : (rs.filterMap GatewayRequest.order?).Nodup
  new : ∀ n ∈ rs.filterMap GatewayRequest.order?,
    n = p.id2 ∧ p.pc.leg2Sent = false ∨ d.engine.seq ≤ n ∧ n < d'.engine.seq
  leg2 : pc.leg2Sent = false →
    p.pc.leg2Sent = false ∧ rs.filterMap GatewayRequest.order? = []
  requested : ∀ l, p.Requested p.pc l → p.Requested pc (l ++ rs)

omit [Field K] [LinearOrder K] in
theorem Asks.of_still {p : PairTask K} {pc : PairPc} {rs : List GatewayRequest}
    {d d' : Desk K} (h : d.Still d') (hcancels : d.Cancels d' rs)
    (hnil : rs.filterMap GatewayRequest.order? = []) (hleg2 : pc.leg2Sent = p.pc.leg2Sent)
    (hreq : ∀ l, p.Requested p.pc l → p.Requested pc (l ++ rs)) : Asks d d' p pc rs where
  seq := h.seq.ge
  sent n := by simp [h.exchange, hnil]
  cancels := hcancels
  nodup := by
    rw [hnil]
    exact List.nodup_nil
  new n hn := by simp [hnil] at hn
  leg2 hpc := ⟨hleg2.symm.trans hpc, hnil⟩
  requested := hreq

omit [LinearOrder K] in
theorem asks_of_advances {p : PairTask K} {d' : Desk K} {t : Clock} {pc : PairPc}
    (h : d.Advances d' p t pc) :
    Asks d d' p pc (p.requests pc) := by
  cases h with
  | waits h =>
    have hnil : p.requests p.pc = [] := if_pos rfl
    have htaken := Desk.still_takeMsg h
    refine .of_still htaken.1 ?_ (by rw [hnil]; rfl) rfl fun l hl => ?_
    · unfold Desk.Cancels
      rw [hnil, htaken.2]
      exact (List.append_nil _).symm
    · rw [hnil, List.append_nil]
      exact hl
  | moves h hrank hhedge hleg2 hcancel horders hreq =>
    exact .of_still h hcancel horders hleg2 hreq
  | leg2 hpc hd' =>
    have hrs : p.requests .sendingLeg2 = [.order p.id2] := by
      unfold PairTask.requests
      rw [if_neg (by rw [hpc]; simp)]
    have hleg2 : p.pc.leg2Sent = false := by
      rw [hpc]
      rfl
    rw [hd', hrs]
    refine ⟨le_rfl, fun n => ?_, ?_, List.nodup_singleton _, fun n hn => ?_, nofun,
      fun l hl => ?_⟩
    · show (Function.update d.exchange p.id2 _ n).isSome = true ↔ _ ∨ n ∈ [p.id2]
      rw [List.mem_singleton]
      by_cases hn : n = p.id2
      · rw [hn, Function.update_self]
        simp
      · rw [Function.update_of_ne hn]
        simp [hn]
    · exact (List.append_nil d.cancels).symm
    · exact Or.inl ⟨List.mem_singleton.mp hn, hleg2⟩
    · rw [hpc] at hl
      exact congrArg (· ++ _) hl
  | @hedges d₁ h hc first leg c hrank hhedge hleg2 hd' hreq =>
    have hrs : p.requests (.sendingHedge first d.engine.seq c) = [.order d.engine.seq] := by
      unfold PairTask.requests
      rw [if_neg fun heq => ?_]
      rw [← heq] at hhedge
      cases hhedge
    have hseq : d'.engine.seq = d.engine.seq + 1 := by
      rw [hd', Desk.openOrder_seq, h.seq]
    rw [hrs]
    refine ⟨by omega, fun n => ?_, ?_, List.nodup_singleton _, fun n hn => ?_, nofun, hreq⟩
    · rw [hd', Desk.openOrder_exchange, h.seq, h.exchange]
      show _ ↔ _ ∨ n ∈ [d.engine.seq]
      rw [List.mem_singleton]
      by_cases hn : n = d.engine.seq
      · rw [hn, Function.update_self]
        simp
      · rw [Function.update_of_ne hn]
        simp [hn]
    · unfold Desk.Cancels
      rw [hd', ← hc]
      exact (List.append_nil _).symm
    · replace hn : n ∈ [d.engine.seq] := hn
      rw [List.mem_singleton] at hn
      exact Or.inr (by omega)

omit [Field K] [LinearOrder K] in
theorem requested_set (p : PairTask K) (pc' pc : PairPc) (l : List GatewayRequest) :
    ({ p with pc := pc' } : PairTask K).Requested pc l ↔ p.Requested pc l := by
  induction pc with
  | threw point ih => exact ih
  | finished first hedge => cases hedge <;> exact Iff.rfl
  | _ => exact Iff.rfl

omit [Field K] [LinearOrder K] in
theorem Logged.asks (h : Logged w log) {i : Nat} {p : PairTask K} {pc : PairPc}
    {rs : List GatewayRequest} (hp : w.pairs[i]? = some p) (ha : Asks w.desk d p pc rs) :
    Logged { desk := d, pairs := w.pairs.set i { p with pc := pc } } (log ++ tagged i rs) := by
  have hget : ∀ j q, (w.pairs.set i { p with pc := pc })[j]? = some q →
      j = i ∧ q = { p with pc := pc } ∨ j ≠ i ∧ w.pairs[j]? = some q := by
    intro j q hq
    rw [List.getElem?_set] at hq
    split_ifs at hq with hij
    · exact Or.inl ⟨hij.symm, (Option.some.inj hq).symm⟩
    · exact Or.inr ⟨Ne.symm hij, hq⟩
  -- every number but those of the second legs stays what it was
  have hid2 : ∀ (j : Nat) (q : PairTask K), (w.pairs.set i { p with pc := pc })[j]? = some q →
      ∃ q', w.pairs[j]? = some q' ∧ q.id2 = q'.id2 := by
    intro j q hq
    rcases hget j q hq with ⟨rfl, rfl⟩ | ⟨-, hq⟩
    · exact ⟨p, hp, rfl⟩
    · exact ⟨q, hq, rfl⟩
  have hold : ∀ n ∈ rs.filterMap GatewayRequest.order?, n ∉ log.orders := by
    intro n hn hmem
    rcases ha.new n hn with ⟨rfl, hpc⟩ | ⟨hge, -⟩
    · exact h.unsent i p hp hpc hmem
    · have := h.lt n hmem
      omega
  constructor
  · rw [orders_append, orders_tagged]
    exact h.nodup.append ha.nodup fun n hn hn' => hold n hn' hn
  · intro n hn
    show n < d.engine.seq
    have hseq := ha.seq
    rw [orders_append, orders_tagged, List.mem_append] at hn
    rcases hn with hn | hn
    · have := h.lt n hn
      omega
    · rcases ha.new n hn with ⟨rfl, -⟩ | ⟨-, hlt⟩
      · have := h.id2_lt i p hp
        omega
      · exact hlt
  · intro n
    show (d.exchange n).isSome = true ↔ _
    rw [ha.sent, h.sent, orders_append, orders_tagged, List.mem_append]
  · show d.cancels = _
    rw [ha.cancels, h.cancels, cancels_append, cancels_tagged]
  · intro j q hq
    rw [ofPair_append]
    rcases hget j q hq with ⟨rfl, rfl⟩ | ⟨hne, hq⟩
    · rw [ofPair_tagged_self]
      exact (requested_set p pc pc _).mpr (ha.requested _ (h.pair j p hp))
    · rw [ofPair_tagged_ne _ hne.symm, List.append_nil]
      exact h.pair j q hq
  · intro j hj
    replace hj : (w.pairs.set i { p with pc := pc }).length ≤ j := hj
    rw [List.length_set] at hj
    have hlt := (List.getElem?_eq_some_iff.mp hp).1
    rw [ofPair_append, h.fresh j hj, ofPair_tagged_ne _ (by omega)]
    rfl
  · intro j q hq hpc
    rw [orders_append, orders_tagged, List.mem_append, not_or]
    rcases hget j q hq with ⟨rfl, rfl⟩ | ⟨hne, hq⟩
    · obtain ⟨hleg2, hnil⟩ := ha.leg2 hpc
      rw [hnil]
      exact ⟨h.unsent j p hp hleg2, List.not_mem_nil⟩
    · refine ⟨h.unsent j q hq hpc, fun hmem => ?_⟩
      rcases ha.new _ hmem with ⟨heq, -⟩ | ⟨hge, -⟩
      · exact h.apart j i q p hq hp hne heq
      · have := h.id2_lt j q hq
        omega
  · intro j q hq
    obtain ⟨q', hq', heq⟩ := hid2 j q hq
    show q.id2 < d.engine.seq
    rw [heq]
    exact lt_of_lt_of_le (h.id2_lt j q' hq') ha.seq
  · intro j k q r hq hr hjk
    obtain ⟨q', hq', heq⟩ := hid2 j q hq
    obtain ⟨r', hr', heq'⟩ := hid2 k r hr
    rw [heq, heq']
    exact h.apart j k q' r' hq' hr' hjk

omit [LinearOrder K] in
/-- A signal that is admitted makes a pair that has asked for its first leg. -/
theorem Logged.signal (h : Logged w log) (leg1 leg2 : ArbLeg K) (t : Clock) :
    Logged { desk := (w.desk.openPair leg1 leg2 t).sendLeg (w.desk.signalTask leg1 leg2 t) .leg1
             pairs := w.pairs ++ [w.desk.signalTask leg1 leg2 t] }
      (log ++ tagged w.pairs.length [.order w.desk.engine.seq]) := by
  have hseq : ((w.desk.openPair leg1 leg2 t).sendLeg (w.desk.signalTask leg1 leg2 t)
      .leg1).engine.seq = w.desk.engine.seq + 2 := Desk.openPair_seq w.desk leg1 leg2 t
  have hnew : ∀ n ∈ log.orders, n < w.desk.engine.seq := h.lt
  have horders : (log ++ tagged w.pairs.length [.order w.desk.engine.seq]).orders =
      log.orders ++ [w.desk.engine.seq] := by
    rw [orders_append, orders_tagged]
    rfl
  constructor
  · rw [horders]
    refine h.nodup.append (List.nodup_singleton _) fun n hn hn' => ?_
    have := hnew n hn
    rw [List.mem_singleton] at hn'
    omega
  · intro n hn
    rw [horders, List.mem_append, List.mem_singleton] at hn
    dsimp only
    rw [hseq]
    rcases hn with hn | rfl
    · have := hnew n hn
      omega
    · omega
  · intro n
    show (Function.update (w.desk.openPair leg1 leg2 t).exchange w.desk.engine.seq _ n).isSome =
      true ↔ _
    rw [horders, List.mem_append, List.mem_singleton, Desk.openPair_exchange]
    by_cases hn : n = w.desk.engine.seq
    · rw [hn, Function.update_self]
      simp
    · rw [Function.update_of_ne hn, h.sent]
      simp [hn]
  · rw [cancels_append, cancels_tagged]
    exact h.cancels.trans (List.append_nil _).symm
  · intro j q hq
    rw [ofPair_append]
    rcases getElem?_concat_cases hq with hq | ⟨rfl, rfl⟩
    · have hlt := (List.getElem?_eq_some_iff.mp hq).1
      rw [ofPair_tagged_ne _ (by omega), List.append_nil]
      exact h.pair j q hq
    · rw [h.fresh _ le_rfl, ofPair_tagged_self]
      rfl
  · intro j hj
    replace hj : (w.pairs ++ [w.desk.signalTask leg1 leg2 t]).length ≤ j := hj
    rw [List.length_append, List.length_singleton] at hj
    rw [ofPair_append, h.fresh j (by omega), ofPair_tagged_ne _ (by omega)]
    rfl
  · intro j q hq hpc
    rw [horders, List.mem_append, List.mem_singleton, not_or]
    rcases getElem?_concat_cases hq with hq | ⟨rfl, rfl⟩
    · exact ⟨h.unsent j q hq hpc, (h.id2_lt j q hq).ne⟩
    · refine ⟨fun hmem => ?_, Nat.succ_ne_self _⟩
      have hlt := hnew _ hmem
      exact absurd hlt (Nat.not_lt.mpr (Nat.le_succ _))
  · intro j q hq
    dsimp only
    rw [hseq]
    rcases getElem?_concat_cases hq with hq | ⟨rfl, rfl⟩
    · have := h.id2_lt j q hq
      omega
    · exact Nat.lt_succ_self _
  · intro j k q r hq hr hjk
    rcases getElem?_concat_cases hq with hq | ⟨hj, rfl⟩
    · have := h.id2_lt j q hq
      rcases getElem?_concat_cases hr with hr | ⟨hk, rfl⟩
      · exact h.apart j k q r hq hr hjk
      · show q.id2 ≠ w.desk.engine.seq + 1
        omega
    · rcases getElem?_concat_cases hr with hr | ⟨hk, rfl⟩
      · have := h.id2_lt k r hr
        show w.desk.engine.seq + 1 ≠ r.id2
        omega
      · exact absurd (hj.trans hk.symm) hjk

theorem handleOrderTradeUpdate_seq (eng : ExecutionEngine K) (o : OrderTradeUpdate K) :
    (eng.handleOrderTradeUpdate o).seq = eng.seq := by
  unfold ExecutionEngine.handleOrderTradeUpdate
  split
  · rfl
  · exact ExecutionEngine.applyUpdate_seq ..

omit [Field K] [LinearOrder K] in
theorem isSome_update {f : Nat → Option (VenueOrder K)} {n : Nat} {v v' : VenueOrder K}
    (hv : f n = some v) (m : Nat) :
    (Function.update f n (some v') m).isSome = (f m).isSome := by
  by_cases hm : m = n
  · rw [hm, Function.update_self, hv]
    rfl
  · rw [Function.update_of_ne hm]

/-- What every step keeps. -/
theorem Logged.step (h : Logged w log) {e : EngineEvent K} (hs : w.step e = some w') :
    Logged w' (log ++ w.requests e) := by
  cases e with
  | signal leg1 leg2 t =>
    unfold requests
    dsimp only
    rcases step_signal hs with ⟨hnot, rfl⟩ | ⟨hadm, rfl⟩
    · rw [if_neg hnot, List.append_nil]
      exact h
    · rw [if_pos hadm]
      exact h.signal leg1 leg2 t
  | resume i r t =>
    obtain ⟨p, hp, hs⟩ := Option.bind_eq_some_iff.mp hs
    obtain ⟨⟨d, pc⟩, hr, rfl⟩ := Option.map_eq_some_iff.mp hs
    unfold requests
    dsimp only
    rw [hp, Option.elim_some, hr, Option.elim_some]
    exact h.asks hp (asks_of_advances (Desk.resume_advances hr))
  | act n a tMs =>
    obtain ⟨d, hd, rfl⟩ := Option.map_eq_some_iff.mp hs
    obtain ⟨v, hv, hd⟩ := Option.bind_eq_some_iff.mp hd
    obtain ⟨v', -, rfl⟩ := Option.map_eq_some_iff.mp hd
    refine h.of_desk rfl (fun m => ?_) (List.append_nil _).symm rfl fun _ => rfl
    exact isSome_update hv m
  | deliver n =>
    obtain ⟨d, hd, rfl⟩ := Option.map_eq_some_iff.mp hs
    obtain ⟨v, hv, hd⟩ := Option.bind_eq_some_iff.mp hd
    obtain ⟨o, -, rfl⟩ := Option.map_eq_some_iff.mp hd
    refine h.of_desk (handleOrderTradeUpdate_seq ..) (fun m => ?_)
      (List.append_nil _).symm rfl fun _ => rfl
    exact isSome_update hv m
  | refuse n nowNs =>
    obtain ⟨d, hd, rfl⟩ := Option.map_eq_some_iff.mp hs
    obtain ⟨v, hv, hd⟩ := Option.bind_eq_some_iff.mp hd
    split_ifs at hd
    cases hd
    refine h.of_desk (ExecutionEngine.applyUpdate_seq ..) (fun m => ?_)
      (List.append_nil _).symm rfl fun _ => rfl
    exact isSome_update hv m
  | sweep maxAge steadyNs =>
    cases hs
    refine h.of_desk rfl (fun _ => rfl) ?_ (orders_sweep w maxAge steadyNs)
      (ofPair_sweep w maxAge steadyNs)
    rw [cancels_sweep]
    rfl
  | forceHalt | resetHalt | checkDrawdown x limit =>
    cases hs
    exact h.of_desk rfl (fun _ => rfl) (List.append_nil _).symm rfl fun _ => rfl

/-- The requests of a run. -/
def requestLog (w : World K) (es : List (EngineEvent K)) : RequestLog :=
  Machine.outputs step requests w es

/-- What every run keeps. -/
theorem Logged.run {w₀ : World K} (h : Logged w₀ log) {es : List (EngineEvent K)}
    (hrun : Machine.run World.step w₀ es = some w) :
    Logged w (log ++ w₀.requestLog es) :=
  Machine.run_outputs_of_forall (P := fun _ => True) (fun _ _ _ _ h _ hs => h.step hs) h
    (fun _ _ => trivial) hrun

variable {es : List (EngineEvent K)} {maxOpenOrders : Nat} {orderId : Nat → Int}

/-- Along every run, no order is sent twice; the orders at the exchange are those sent and
the cancels are those of the pairs and of the sweeper; and a pair has sent its two legs in
order, then at most one cancel, of the leg that did not settle first, and at most one
hedge. -/
theorem requests_once
    (hrun : Machine.run World.step (init maxOpenOrders orderId) es = some w) :
    let log := (init maxOpenOrders orderId : World K).requestLog es
    log.orders.Nodup ∧ (∀ n, (w.desk.exchange n).isSome = true ↔ n ∈ log.orders) ∧
      w.desk.cancels = log.cancels ∧
      ∀ (i : Nat) (p : PairTask K), w.pairs[i]? = some p → p.Requested p.pc (log.ofPair i) := by
  have h := (init_logged maxOpenOrders orderId).run hrun
  rw [List.nil_append] at h
  exact ⟨h.nodup, h.sent, h.cancels, h.pair⟩

/-- The second leg is canceled half filled and hedged. -/
def hedgedRun : List (EngineEvent Rat) :=
  let leg1 : ArbLeg Rat := { symbol := "BTCUSDT", side := .Buy, qty := 1, price := 100 }
  let leg2 : ArbLeg Rat := { symbol := "ETHUSDT", side := .Sell, qty := 1, price := 10 }
  [.signal leg1 leg2 ⟨0, 0⟩, .resume 0 .sent ⟨1, 1⟩, .resume 0 .sent ⟨2, 2⟩,
    .act 0 .accept 1, .act 0 (.fill 1 100 0) 2, .deliver 0, .deliver 0,
    .resume 0 (.receive .leg1 false) ⟨3, 3⟩, .resume 0 (.receive .leg1 false) ⟨3, 3⟩,
    .act 1 .accept 3, .act 1 (.fill (1 / 2) 10 0) 4, .deliver 1, .deliver 1,
    .resume 0 (.timeout false) ⟨5, 5⟩, .act 1 (.finish .Canceled) 5, .deliver 1,
    .resume 0 .sent ⟨6, 6⟩]

theorem requests_once_hedged :
    ∃ w, Machine.run World.step (init 8 Int.ofNat) hedgedRun = some w ∧
      (init 8 Int.ofNat).requestLog hedgedRun =
        [(some 0, .order 0), (some 0, .order 1), (some 0, .cancel "ETHUSDT" "holo-1"),
          (some 0, .order 2)] ∧
      ∀ n, (w.desk.exchange n).isSome = true ↔
        n ∈ ((init 8 Int.ofNat).requestLog hedgedRun).orders := by
  obtain ⟨w, hw, -⟩ := Machine.exists_of_elim
    (o := Machine.run World.step (init 8 Int.ofNat) hedgedRun) (P := fun _ => True)
    (by decide +kernel)
  exact ⟨w, hw, by decide +kernel, (requests_once hw).2.1⟩

end World
end HoloMarket
