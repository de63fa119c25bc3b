import HoloMarket.Net.HaltLatch
import HoloMarket.Net.RequestLog

/-!
# HaltedExposure: what a halted engine still sends

A halted engine admits no signal, but its pairs go on: a second leg or a hedge may still
be sent.  How many orders are ahead is a function of the suspension points, and the halt
is not lifted by anything but a reset.
-/

namespace HoloMarket

/-- The orders that a pair may still send. -/
def PairPc.ordersAhead : PairPc → Nat
  | .sendingLeg1 => 2
  | .sendingLeg2 | .racing | .cancelingPartner _ | .awaitingPartner _ | .legTimer _
  | .cancelingResting _ | .awaitingResting _ => 1
  | .sendingHedge _ _ _ | .watchingHedge _ _ _ | .finished _ _ | .threw _ => 0

theorem PairPc.ordersAhead_le {pc pc' : PairPc} (hrank : pc'.rank < pc.rank)
    (hhedge : pc'.hedge = pc.hedge) (hleg2 : pc'.leg2Sent = pc.leg2Sent) :
    pc'.ordersAhead ≤ pc.ordersAhead := by
  cases pc <;> cases pc' <;> simp_all [rank, hedge, leg2Sent, ordersAhead]

variable {K : Type*} [Field K] [LinearOrder K]

namespace ExecutionEngine

variable {eng : ExecutionEngine K}

omit [Field K] [LinearOrder K] in
theorem dispatchUpdate_halted (h : eng.halted = true) (r : OrderRecord K) :
    (eng.dispatchUpdate r).halted = true := by
  rw [(eng.dispatchUpdate_latch r).1]
  cases hs : r.status <;> simp [countRejects, h]

theorem applyUpdate_halted (h : eng.halted = true) (key : UInt64) (u : UpdateArgs K) :
    (eng.applyUpdate key u).halted = true := by
  unfold applyUpdate
  split
  · exact h
  · refine dispatchUpdate_halted ?_ _
    exact h

theorem handleOrderTradeUpdate_halted (h : eng.halted = true) (o : OrderTradeUpdate K) :
    (eng.handleOrderTradeUpdate o).halted = true := by
  unfold handleOrderTradeUpdate
  split
  · exact h
  · exact applyUpdate_halted h _ _

end ExecutionEngine

namespace Desk

variable {d d' : Desk K} {p : PairTask K} {pc : PairPc} {t : Clock}

omit [LinearOrder K] in
theorem openOrder_halted (h : d.engine.halted = true) (leg : ArbLeg K) (price : K) :
    (d.openOrder leg price t).engine.halted = true := by
  have hreg : (d.nextClientId.1.register d.engine.seq leg.symbol leg.side price leg.qty
      t).engine.halted = true := by
    refine ExecutionEngine.dispatchUpdate_halted ?_ _
    exact h
  show (ExecutionEngine.getOrCreateWaiter _ _ _).1.halted = true
  unfold ExecutionEngine.getOrCreateWaiter
  split <;> exact hreg

omit [LinearOrder K] in
/-- The halt outlives a resumption, and an order that is sent was ahead. -/
theorem Advances.halted (h : d.Advances d' p t pc) (hd : d.engine.halted = true) :
    d'.engine.halted = true := by
  cases h with
  | waits h => exact (still_takeMsg h).1.halted.trans hd
  | moves h => exact h.halted.trans hd
  | leg2 hpc hd' =>
    rw [hd']
    exact hd
  | hedges h hc first leg c hrank hhedge hleg2 hd' hreq =>
    rw [hd']
    exact openOrder_halted (h.halted.trans hd) leg 0

omit [LinearOrder K] in
theorem Advances.ordersAhead (h : d.Advances d' p t pc) :
    ((p.requests pc).filterMap GatewayRequest.order?).length + pc.ordersAhead ≤
      p.pc.ordersAhead := by
  cases h with
  | waits h =>
    rw [show p.requests p.pc = [] from if_pos rfl]
    exact (Nat.zero_add _).le
  | moves h hrank hhedge hleg2 hcancel horders hreq =>
    rw [horders]
    have hle := PairPc.ordersAhead_le hrank hhedge hleg2
    simpa using hle
  | leg2 hpc hd' =>
    unfold PairTask.requests
    rw [hpc, if_neg (by simp)]
    exact Nat.le_refl _
  | hedges h hc first leg c hrank hhedge hleg2 hd' hreq =>
    have hne : PairPc.sendingHedge first d.engine.seq c ≠ p.pc := by
      rintro heq
      rw [← heq] at hhedge
      cases hhedge
    unfold PairTask.requests
    rw [if_neg hne]
    show 1 ≤ p.pc.ordersAhead
    cases hpc : p.pc <;> rw [hpc] at hrank <;> simp [PairPc.rank, PairPc.ordersAhead] at hrank ⊢

end Desk

namespace World

/-- A halted world, with the pairs of `w₀`, after the requests `log`. -/
structure Draining (w₀ w : World K) (log : RequestLog) : Prop where
  halted : w.desk.engine.halted = true
  length : w.pairs.length = w₀.pairs.length
  ahead : ∀ (i : Nat) (p₀ p : PairTask K), w₀.pairs[i]? = some p₀ → w.pairs[i]? = some p →
    ((log.ofPair i).filterMap GatewayRequest.order?).length + p.pc.ordersAhead ≤
      p₀.pc.ordersAhead
  total : log.orders.length + (w.pairs.map fun p => p.pc.ordersAhead).sum ≤
    (w₀.pairs.map fun p => p.pc.ordersAhead).sum

variable {w₀ w w' : World K} {log : RequestLog}

omit [Field K] [LinearOrder K] in
theorem draining_refl (h : w.desk.engine.halted = true) : Draining w w [] where
  halted := h
  length := rfl
  ahead i p₀ p hp₀ hp := by
    rw [hp₀] at hp
    cases hp
    exact (Nat.zero_add _).le
  total := (Nat.zero_add _).le

omit [Field K] [LinearOrder K] in
/-- A step that asks for no order and leaves the pairs alone. -/
theorem Draining.of_desk (h : Draining w₀ w log) {d : Desk K} {log' : RequestLog}
    (hd : d.engine.halted = true) (horders : log'.orders = [])
    (hpair : ∀ i, log'.ofPair i = []) : Draining w₀ { w with desk := d } (log ++ log') where
  halted := hd
  length := h.length
  ahead i p₀ p hp₀ hp := by
    rw [RequestLog.ofPair_append, hpair, List.append_nil]
    exact h.ahead i p₀ p hp₀ hp
  total := by
    rw [RequestLog.orders_append, horders, List.append_nil]
    exact h.total

omit [LinearOrder K] in
theorem Draining.resume (h : Draining w₀ w log) {i : Nat} {p : PairTask K} {d : Desk K}
    {pc : PairPc} {t : Clock} (hp : w.pairs[i]? = some p)
    (ha : w.desk.Advances d p t pc) :
    Draining w₀ { desk := d, pairs := w.pairs.set i { p with pc := pc } }
      (log ++ RequestLog.tagged i (p.requests pc)) := by
  have hahead := ha.ordersAhead
  refine ⟨ha.halted h.halted, ?_, fun j p₀ q hp₀ hq => ?_, ?_⟩
  · rw [List.length_set]
    exact h.length
  · dsimp only at hq
    rw [List.getElem?_set] at hq
    rw [RequestLog.ofPair_append, List.filterMap_append, List.length_append]
    split_ifs at hq with hij
    · subst hij
      obtain rfl := Option.some.inj hq
      have hbefore := h.ahead i p₀ p hp₀ hp
      rw [RequestLog.ofPair_tagged_self]
      dsimp only
      omega
    · rw [RequestLog.ofPair_tagged_ne _ hij]
      exact h.ahead j p₀ q hp₀ hq
  · have hsum := Machine.sum_map_set ({ p with pc := pc } : PairTask K)
      (fun p => p.pc.ordersAhead) hp
    have hbefore := h.total
    rw [RequestLog.orders_append, RequestLog.orders_tagged, List.length_append]
    dsimp only at hsum ⊢
    omega

theorem Draining.step (h : Draining w₀ w log) {e : EngineEvent K} (he : e ≠ .resetHalt)
    (hs : w.step e = some w') : Draining w₀ w' (log ++ w.requests e) := by
  have hhalt := h.halted
  cases e with
  | signal leg1 leg2 t =>
    have hnot : ¬w.desk.engine.admits leg1 leg2 = true := by
      unfold ExecutionEngine.admits
      rw [hhalt]
      simp
    unfold requests
    dsimp only
    rcases step_signal hs with ⟨-, rfl⟩ | ⟨hadm, -⟩
    · rw [if_neg hnot, List.append_nil]
      exact h
    · exact absurd hadm hnot
  | resume i r t =>
    obtain ⟨p, hp, hs⟩ := Option.bind_eq_some_iff.mp hs
    obtain ⟨⟨d, pc⟩, hr, rfl⟩ := Option.map_eq_some_iff.mp hs
    unfold requests
    dsimp only
    rw [hp, Option.elim_some, hr, Option.elim_some]
    exact h.resume hp (Desk.resume_advances hr)
  | act n a tMs =>
    obtain ⟨d, hd, rfl⟩ := Option.map_eq_some_iff.mp hs
    obtain ⟨v, -, hd⟩ := Option.bind_eq_some_iff.mp hd
    obtain ⟨v', -, rfl⟩ := Option.map_eq_some_iff.mp hd
    exact h.of_desk hhalt rfl fun _ => rfl
  | deliver n =>
    obtain ⟨d, hd, rfl⟩ := Option.map_eq_some_iff.mp hs
    obtain ⟨v, -, hd⟩ := Option.bind_eq_some_iff.mp hd
    obtain ⟨o, -, rfl⟩ := Option.map_eq_some_iff.mp hd
    exact h.of_desk (ExecutionEngine.handleOrderTradeUpdate_halted hhalt o) rfl fun _ => rfl
  | refuse n nowNs =>
    obtain ⟨d, hd, rfl⟩ := Option.map_eq_some_iff.mp hs
    obtain ⟨v, -, hd⟩ := Option.bind_eq_some_iff.mp hd
    split_ifs at hd
    cases hd
    exact h.of_desk (ExecutionEngine.applyUpdate_halted hhalt _ _) rfl fun _ => rfl
  | sweep maxAge steadyNs =>
    cases hs
    exact h.of_desk hhalt (orders_sweep w maxAge steadyNs) (ofPair_sweep w maxAge steadyNs)
  | forceHalt =>
    cases hs
    exact h.of_desk rfl rfl fun _ => rfl
  | resetHalt => exact absurd rfl he
  | checkDrawdown x limit =>
    cases hs
    refine h.of_desk ?_ rfl fun _ => rfl
    show (w.desk.engine.halted || _) = true
    rw [hhalt, Bool.true_or]

/-- Until it is reset, a halted engine stays halted and opens no pair; each pair sends at
most the orders that were ahead of it, and all of them together no more than their sum. -/
theorem halted_exposure {es : List (EngineEvent K)} (hhalt : w₀.desk.engine.halted = true)
    (hno : ∀ e ∈ es, e ≠ .resetHalt) (hrun : Machine.run World.step w₀ es = some w) :
    Draining w₀ w (w₀.requestLog es) := by
  have hstep : ∀ s e s' l, Draining w₀ s l → e ≠ .resetHalt → World.step s e = some s' →
      Draining w₀ s' (l ++ s.requests e) := fun _ _ _ _ h he hs => h.step he hs
  have h := Machine.run_outputs_of_forall hstep (draining_refl hhalt) hno hrun
  rwa [List.nil_append] at h

/-- Halted while the first leg is being sent, a pair still sends the other leg and a
hedge. -/
theorem halted_exposure_hedged :
    ∃ w₀ w, Machine.run World.step (init 8 Int.ofNat) (hedgedRun.take 1 ++ [.forceHalt]) =
        some w₀ ∧
      (w₀.requestLog (hedgedRun.drop 1)).orders = [1, 2] ∧
      Draining w₀ w (w₀.requestLog (hedgedRun.drop 1)) := by
  obtain ⟨w₀, hw₀, hhalt, horders, hend⟩ := Machine.exists_of_elim
    (o := Machine.run World.step (init 8 Int.ofNat) (hedgedRun.take 1 ++ [.forceHalt]))
    (P := fun w₀ => w₀.desk.engine.halted = true ∧
      (w₀.requestLog (hedgedRun.drop 1)).orders = [1, 2] ∧
        (Machine.run World.step w₀ (hedgedRun.drop 1)).elim False fun _ => True)
    (by decide +kernel)
  obtain ⟨w, hw, -⟩ := Machine.exists_of_elim hend
  exact ⟨w₀, w, hw₀, horders, halted_exposure hhalt (by decide +kernel) hw⟩

end World
end HoloMarket
