import HoloMarket.Net.PairSignal

/-!
# PairRequests: what a pair asks of the gateway

A pair sends its two legs, cancels at most one of them and sends at most one hedge, each
at most once and in this order, however its coroutines are resumed, whatever the channels
lose and whichever call throws.  The requests are read off the suspension points that a
resumption leads to; the orders at the exchange and the cancels are those requests.
-/

namespace HoloMarket

variable {K : Type*}

/-- A request to the gateway: the send of an order, or the cancel of one. -/
inductive GatewayRequest where
  | order (n : Nat)
  | cancel (symbol clientOrderId : String)
deriving DecidableEq, Repr

namespace GatewayRequest

def order? : GatewayRequest → Option Nat
  | .order n => some n
  | .cancel _ _ => none

def cancel? : GatewayRequest → Option (String × String)
  | .order _ => none
  | .cancel symbol clientOrderId => some (symbol, clientOrderId)

end GatewayRequest

namespace PairPc

/-- A bound on the suspension points that are still ahead, messages apart. -/
def rank : PairPc → Nat
  | .sendingLeg1 => 12
  | .sendingLeg2 => 11
  | .racing => 10
  | .cancelingPartner _ | .legTimer _ => 9
  | .awaitingPartner _ | .cancelingResting _ => 8
  | .awaitingResting _ => 7
  | .sendingHedge _ _ _ => 4
  | .watchingHedge _ _ _ => 3
  | .finished _ _ | .threw _ => 0

/-- The second leg has been sent. -/
def leg2Sent : PairPc → Bool
  | .sendingLeg1 => false
  | .threw point => point.leg2Sent
  | _ => true

end PairPc

namespace PairTask

/-- The requests of a pair that goes on to `pc'`. -/
def requests (p : PairTask K) (pc' : PairPc) : List GatewayRequest :=
  if pc' = p.pc then []
  else
    match pc' with
    | .sendingLeg2 => [.order p.id2]
    | .cancelingPartner first | .cancelingResting first =>
      [.cancel (p.leg first.other).symbol (clientId (p.id first.other))]
    | .sendingHedge _ hedge _ => [.order hedge]
    | _ => []

def legRequests (p : PairTask K) : List GatewayRequest := [.order p.id1, .order p.id2]

def cancelRequest (p : PairTask K) (first : LegIx) : GatewayRequest :=
  .cancel (p.leg first.other).symbol (clientId (p.id first.other))

/-- What a pair at a suspension point has asked for: its legs in order, at most one
cancel, of the leg that did not settle first, and the hedge if there is one. -/
def Requested (p : PairTask K) : PairPc → List GatewayRequest → Prop
  | .sendingLeg1, l => l = [.order p.id1]
  | .sendingLeg2, l | .racing, l | .legTimer _, l => l = p.legRequests
  | .cancelingPartner first, l | .awaitingPartner first, l | .cancelingResting first, l
  | .awaitingResting first, l => l = p.legRequests ++ [p.cancelRequest first]
  | .sendingHedge first hedge _, l | .watchingHedge first hedge _, l
  | .finished first (some hedge), l =>
    l = p.legRequests ++ [.order hedge] ∨
      l = p.legRequests ++ [p.cancelRequest first, .order hedge]
  | .finished first none, l => l = p.legRequests ∨ l = p.legRequests ++ [p.cancelRequest first]
  | .threw point, l => p.Requested point l

end PairTask

/-! ## What a resumption asks for -/

namespace Desk

/-- No order is sent and no number taken; messages may be.  The halt latch is untouched. -/
structure Still (d d' : Desk K) : Prop where
  seq : d'.engine.seq = d.engine.seq
  exchange : d'.exchange = d.exchange
  halted : d'.engine.halted = d.engine.halted
  waiters : d'.engine.waiters.entries ⊆ d.engine.waiters.entries
  chans : ∀ c, d'.engine.chans c <:+ d.engine.chans c

/-- The cancels are those of before, and these. -/
def Cancels (d d' : Desk K) (rs : List GatewayRequest) : Prop :=
  d'.cancels = d.cancels ++ rs.filterMap GatewayRequest.cancel?

variable {d d' d₁ : Desk K} {p : PairTask K} {pc' : PairPc}

namespace Still

theorem refl (d : Desk K) : Still d d := ⟨rfl, rfl, rfl, fun _ h => h, fun _ => List.suffix_rfl⟩

theorem trans (h : Still d d₁) (h' : Still d₁ d') : Still d d' :=
  ⟨h'.seq.trans h.seq, h'.exchange.trans h.exchange, h'.halted.trans h.halted,
    fun _ hx => h.waiters (h'.waiters hx), fun c => (h'.chans c).trans (h.chans c)⟩

end Still

theorem takeMsg_eq {c : Nat} {r : OrderRecord K} (h : d.takeMsg c = some (r, d')) :
    ∃ rest, d.engine.chans c = r :: rest ∧
      d' = { d with
        engine := { d.engine with chans := Function.update d.engine.chans c rest } } := by
  unfold takeMsg at h
  split at h
  · cases h
  next rec rest hc =>
    cases h
    exact ⟨rest, hc, rfl⟩

theorem still_takeMsg {c : Nat} {r : OrderRecord K} (h : d.takeMsg c = some (r, d')) :
    Still d d' ∧ d'.cancels = d.cancels := by
  obtain ⟨rest, hc, rfl⟩ := takeMsg_eq h
  refine ⟨⟨rfl, rfl, rfl, fun _ h => h, fun n => ?_⟩, rfl⟩
  show Function.update d.engine.chans c rest n <:+ d.engine.chans n
  by_cases hn : n = c
  · rw [hn, Function.update_self, hc]
    exact List.suffix_cons _ rest
  · rw [Function.update_of_ne hn]

theorem still_loseMsg {c : Nat} {lost : Bool} (h : d.loseMsg c lost = some d') :
    Still d d' ∧ d'.cancels = d.cancels := by
  rcases loseMsg_cases h with rfl | ⟨r, hr⟩
  · exact ⟨.refl d', rfl⟩
  · exact still_takeMsg hr

theorem still_clearInflight (d : Desk K) (p : PairTask K) :
    Still d (d.clearInflight p) ∧ (d.clearInflight p).cancels = d.cancels := by
  unfold clearInflight ExecutionEngine.clearInflight
  dsimp only
  split <;> exact ⟨⟨rfl, rfl, rfl, fun _ h => h, fun _ => List.suffix_rfl⟩, rfl⟩

theorem still_releaseTerminal (d : Desk K) (n : Nat) :
    Still d (d.releaseTerminal n) ∧ (d.releaseTerminal n).cancels = d.cancels := by
  refine ⟨⟨rfl, rfl, rfl, ?_, fun _ => List.suffix_rfl⟩, rfl⟩
  exact (List.kerase_sublist _ _).subset

section
variable [Field K] [LinearOrder K]

theorem still_applyFillPnl (d : Desk K) (r : OrderRecord K) (leg : ArbLeg K) :
    Still d (d.applyFillPnl r leg) ∧ (d.applyFillPnl r leg).cancels = d.cancels :=
  ⟨⟨rfl, rfl, rfl, fun _ h => h, fun _ => List.suffix_rfl⟩, rfl⟩

theorem still_applyPartial (d : Desk K) (r : OrderRecord K) (leg : ArbLeg K) :
    Still d (d.applyPartial r leg) ∧ (d.applyPartial r leg).cancels = d.cancels := by
  unfold applyPartial
  split_ifs
  · exact still_applyFillPnl d r leg
  · exact ⟨.refl d, rfl⟩

/-- The leg that did not settle first is done with: the pair is complete, or it hedges. -/
inductive Settling (d d' : Desk K) (first : LegIx) (t : Clock) : PairPc → Prop
  | done (h : Still d d') (hc : d'.cancels = d.cancels) :
      Settling d d' first t (.finished first none)
  | hedges {d₁ : Desk K} (h : Still d d₁) (hc : d₁.cancels = d.cancels) (leg : ArbLeg K) (c : Nat)
      (hd' : d' = d₁.openOrder leg 0 t) :
      Settling d d' first t (.sendingHedge first d.engine.seq c)

section
variable {first : LegIx} {t : Clock} {rec : OrderRecord K} {remaining : K}

theorem hedgeRemaining_settling (h : Still d d₁) (hc : d₁.cancels = d.cancels) :
    Settling d (d₁.hedgeRemaining p first remaining t).1 first t
      (d₁.hedgeRemaining p first remaining t).2 := by
  by_cases hle : remaining ≤ ExecutionEngine.qtyEps
  · rw [hedgeRemaining_done t hle]
    have hclear := still_clearInflight d₁ p
    exact .done (h.trans hclear.1) (hclear.2.trans hc)
  · rw [hedgeRemaining_open t hle, h.seq]
    exact .hedges h hc _ _ rfl

theorem partnerSettled_settling (h : Still d d₁) (hc : d₁.cancels = d.cancels) :
    Settling d (d₁.partnerSettled p first rec t).1 first t
      (d₁.partnerSettled p first rec t).2 := by
  have hrel := still_releaseTerminal d₁ (p.id first.other)
  unfold partnerSettled
  dsimp only
  split_ifs
  · have hfill := still_applyFillPnl (d₁.releaseTerminal (p.id first.other)) rec
      (p.leg first.other)
    exact hedgeRemaining_settling ((h.trans hrel.1).trans hfill.1)
      (hfill.2.trans (hrel.2.trans hc))
  · have hclear := still_clearInflight (d₁.releaseTerminal (p.id first.other)) p
    exact .done ((h.trans hrel.1).trans hclear.1) (hclear.2.trans (hrel.2.trans hc))

theorem restingRaced_settling (h : Still d d₁) (hc : d₁.cancels = d.cancels) :
    Settling d (d₁.restingRaced p first rec t).1 first t (d₁.restingRaced p first rec t).2 := by
  unfold restingRaced
  split_ifs
  · have hfill := still_applyFillPnl d₁ rec (p.leg first.other)
    have hrel := still_releaseTerminal (d₁.applyFillPnl rec (p.leg first.other))
      (p.id first.other)
    have hclear := still_clearInflight
      ((d₁.applyFillPnl rec (p.leg first.other)).releaseTerminal (p.id first.other)) p
    exact .done (((h.trans hfill.1).trans hrel.1).trans hclear.1)
      (hclear.2.trans (hrel.2.trans (hfill.2.trans hc)))
  · have hfill := still_applyPartial d₁ rec (p.leg first.other)
    have hrel := still_releaseTerminal (d₁.applyPartial rec (p.leg first.other))
      (p.id first.other)
    exact hedgeRemaining_settling ((h.trans hfill.1).trans hrel.1)
      (hrel.2.trans (hfill.2.trans hc))

theorem restingSettled_settling (h : Still d d₁) (hc : d₁.cancels = d.cancels) :
    Settling d (d₁.restingSettled p first rec t).1 first t
      (d₁.restingSettled p first rec t).2 := by
  have hrel := still_releaseTerminal d₁ (p.id first.other)
  unfold restingSettled
  dsimp only
  split_ifs
  · have hfill := still_applyFillPnl (d₁.releaseTerminal (p.id first.other)) rec
      (p.leg first.other)
    have hclear := still_clearInflight
      ((d₁.releaseTerminal (p.id first.other)).applyFillPnl rec (p.leg first.other)) p
    exact .done (((h.trans hrel.1).trans hfill.1).trans hclear.1)
      (hclear.2.trans (hfill.2.trans (hrel.2.trans hc)))
  · have hfill := still_applyPartial (d₁.releaseTerminal (p.id first.other)) rec
      (p.leg first.other)
    exact hedgeRemaining_settling ((h.trans hrel.1).trans hfill.1)
      (hfill.2.trans (hrel.2.trans hc))

end

/-- What a resumption comes to, as far as the gateway and the channels are concerned. -/
inductive Advances (d d' : Desk K) (p : PairTask K) (t : Clock) : PairPc → Prop
  /-- A message that does not settle is passed over. -/
  | waits {c : Nat} {r : OrderRecord K} (h : d.takeMsg c = some (r, d')) :
      Advances d d' p t p.pc
  | moves {pc' : PairPc} (h : Still d d') (hrank : pc'.rank < p.pc.rank)
      (hhedge : pc'.hedge = p.pc.hedge) (hleg2 : pc'.leg2Sent = p.pc.leg2Sent)
      (hcancel : Cancels d d' (p.requests pc'))
      (horders : (p.requests pc').filterMap GatewayRequest.order? = [])
      (hreq : ∀ l, p.Requested p.pc l → p.Requested pc' (l ++ p.requests pc')) :
      Advances d d' p t pc'
  | leg2 (hpc : p.pc = .sendingLeg1) (hd' : d' = d.sendLeg p .leg2) :
      Advances d d' p t .sendingLeg2
  | hedges {d₁ : Desk K} (h : Still d d₁) (hc : d₁.cancels = d.cancels) (first : LegIx)
      (leg : ArbLeg K) (c : Nat) (hrank : 6 < p.pc.rank) (hhedge : p.pc.hedge = none)
      (hleg2 : p.pc.leg2Sent = true) (hd' : d' = d₁.openOrder leg 0 t)
      (hreq : ∀ l, p.Requested p.pc l →
        p.Requested (.sendingHedge first d.engine.seq c) (l ++ [.order d.engine.seq])) :
      Advances d d' p t (.sendingHedge first d.engine.seq c)

section
variable {first : LegIx} {t : Clock} {r : Resumption}

/-- The points at which the leg that did not settle first is waited for. -/
def AwaitsOther (first : LegIx) (pc : PairPc) : Prop :=
  pc = .legTimer first ∨ pc = .cancelingPartner first ∨ pc = .awaitingPartner first ∨
    pc = .cancelingResting first ∨ pc = .awaitingResting first

omit [LinearOrder K] in
theorem Settling.advances (hpc : AwaitsOther first p.pc) (h : Settling d d' first t pc') :
    Advances d d' p t pc' := by
  cases h with
  | done h hc =>
    have hnil : p.requests (.finished first none) = [] := by
      unfold PairTask.requests
      split_ifs <;> rfl
    refine .moves h ?_ ?_ ?_ ?_ (by rw [hnil]; rfl) fun l hl => ?_
    · rcases hpc with hpc | hpc | hpc | hpc | hpc <;> rw [hpc] <;> simp [PairPc.rank]
    · rcases hpc with hpc | hpc | hpc | hpc | hpc <;> rw [hpc] <;> rfl
    · rcases hpc with hpc | hpc | hpc | hpc | hpc <;> rw [hpc] <;> rfl
    · unfold Cancels
      rw [hnil, hc]
      exact (List.append_nil _).symm
    · rw [hnil, List.append_nil]
      rcases hpc with hpc | hpc | hpc | hpc | hpc <;> rw [hpc] at hl
      · exact Or.inl hl
      all_goals exact Or.inr hl
  | hedges h hc leg c hd' =>
    refine .hedges h hc first leg c ?_ ?_ ?_ hd' fun l hl => ?_
    · rcases hpc with hpc | hpc | hpc | hpc | hpc <;> rw [hpc] <;> simp [PairPc.rank]
    · rcases hpc with hpc | hpc | hpc | hpc | hpc <;> rw [hpc] <;> rfl
    · rcases hpc with hpc | hpc | hpc | hpc | hpc <;> rw [hpc] <;> rfl
    · rcases hpc with hpc | hpc | hpc | hpc | hpc <;> rw [hpc] at hl
      · exact Or.inl (congrArg (· ++ _) hl)
      all_goals
        refine Or.inr ((congrArg (· ++ _) hl).trans ?_)
        exact List.append_assoc _ _ _

variable {settled : Desk K → OrderRecord K → Desk K × PairPc} {pc : PairPc} {c n : Nat}

omit [LinearOrder K] in
/-- A message is received where `settled` goes on with one that settles. -/
theorem receiveOn_advances (hpc : AwaitsOther first p.pc)
    (hs : ∀ (d₁ : Desk K) (rec : OrderRecord K), Still d d₁ → d₁.cancels = d.cancels →
      Settling d (settled d₁ rec).1 first t (settled d₁ rec).2)
    (h : d.receiveOn p c settled = some (d', pc')) : Advances d d' p t pc' := by
  obtain ⟨⟨m, d₁⟩, htake, h⟩ := Option.map_eq_some_iff.mp h
  have hstill := still_takeMsg htake
  dsimp only at h
  split_ifs at h
  · have hset := hs d₁ m hstill.1 hstill.2
    rw [h] at hset
    exact hset.advances hpc
  · cases h
    exact .waits htake

variable (settled n) in
omit [LinearOrder K] in
theorem timeout_advances (hpc : AwaitsOther first p.pc) {lost : Bool}
    (hs : ∀ (d₁ : Desk K) (rec : OrderRecord K), Still d d₁ → d₁.cancels = d.cancels →
      Settling d (settled d₁ rec).1 first t (settled d₁ rec).2)
    (h : ((d.loseMsg c lost).map fun d => settled d (d.lastKnown n)) = some (d', pc')) :
    Advances d d' p t pc' := by
  obtain ⟨d₁, hlose, h⟩ := Option.map_eq_some_iff.mp h
  have hstill := still_loseMsg hlose
  have hset := hs d₁ (d₁.lastKnown n) hstill.1 hstill.2
  rw [h] at hset
  exact hset.advances hpc

omit [LinearOrder K] in
theorem moves_of_still (h : Still d d') (hc : d'.cancels = d.cancels)
    (hrank : pc'.rank < p.pc.rank) (hhedge : pc'.hedge = p.pc.hedge)
    (hleg2 : pc'.leg2Sent = p.pc.leg2Sent) (hnil : p.requests pc' = [])
    (hreq : ∀ l, p.Requested p.pc l → p.Requested pc' l) : Advances d d' p t pc' := by
  refine .moves h hrank hhedge hleg2 ?_ (by rw [hnil]; rfl) fun l hl => ?_
  · unfold Cancels
    rw [hnil, hc]
    exact (List.append_nil _).symm
  · rw [hnil, List.append_nil]
    exact hreq l hl

omit [LinearOrder K] in
theorem moves_of_cancel (h : Still d d₁) (hc : d₁.cancels = d.cancels)
    (hd' : d' = d₁.cancelOrder (p.leg first.other).symbol (clientId (p.id first.other)))
    (hpc' : pc' = .cancelingPartner first ∨ pc' = .cancelingResting first)
    (hrank : pc'.rank < p.pc.rank) (hhedge : p.pc.hedge = none)
    (hleg2 : p.pc.leg2Sent = true) (hreq : ∀ l, p.Requested p.pc l → l = p.legRequests) :
    Advances d d' p t pc' := by
  have hne : pc' ≠ p.pc := fun heq => absurd (congrArg PairPc.rank heq) (Nat.ne_of_lt hrank)
  have hrs : p.requests pc' = [p.cancelRequest first] := by
    unfold PairTask.requests
    rw [if_neg hne]
    rcases hpc' with rfl | rfl <;> rfl
  have hstill : Still d d' := by
    rw [hd']
    exact h.trans ⟨rfl, rfl, rfl, fun _ h => h, fun _ => List.suffix_rfl⟩
  refine .moves hstill hrank ?_ ?_ ?_ (by rw [hrs]; rfl) fun l hl => ?_
  · rw [hhedge]
    rcases hpc' with rfl | rfl <;> rfl
  · rw [hleg2]
    rcases hpc' with rfl | rfl <;> rfl
  · unfold Cancels
    rw [hrs, hd']
    exact congrArg (· ++ _) hc
  · rw [hreq l hl, hrs]
    rcases hpc' with rfl | rfl <;> rfl

omit [LinearOrder K] in
theorem awaitAuthoritative_advances (hpc : AwaitsOther first p.pc)
    (hs : ∀ rec : OrderRecord K, Settling d (settled d rec).1 first t (settled d rec).2)
    (hrank : pc.rank < p.pc.rank) (hhedge : pc.hedge = p.pc.hedge)
    (hleg2 : pc.leg2Sent = p.pc.leg2Sent) (hnil : p.requests pc = [])
    (hreq : ∀ l, p.Requested p.pc l → p.Requested pc l)
    (h : d.awaitAuthoritative n settled pc = (d', pc')) : Advances d d' p t pc' := by
  unfold awaitAuthoritative at h
  cases hrec : d.settledRecord n with
  | none =>
    rw [hrec] at h
    cases h
    exact moves_of_still (.refl d) rfl hrank hhedge hleg2 hnil hreq
  | some rec =>
    rw [hrec] at h
    dsimp only at h
    have hset := hs rec
    rw [h] at hset
    exact hset.advances hpc

theorem receiveFirst_advances (hpc : p.pc = .racing) {w : LegIx} {lost : Bool}
    (h : d.receiveFirst p w lost = some (d', pc')) : Advances d d' p t pc' := by
  obtain ⟨⟨m, d₁⟩, htake, h⟩ := Option.bind_eq_some_iff.mp h
  have htaken := still_takeMsg htake
  have hlegs : ∀ l, p.Requested p.pc l → l = p.legRequests := by
    intro l hl
    rw [hpc] at hl
    exact hl
  dsimp only at h
  split_ifs at h with hterm hlost
  · obtain ⟨d₂, hlose, h⟩ := Option.map_eq_some_iff.mp h
    have hlosed := still_loseMsg hlose
    have hstill := htaken.1.trans hlosed.1
    have hcancels := hlosed.2.trans htaken.2
    unfold firstSettled at h
    split_ifs at h
    · cases h
      have hrel := still_releaseTerminal d₂ (p.id w)
      exact moves_of_cancel (hstill.trans hrel.1) (hrel.2.trans hcancels) rfl (Or.inl rfl)
        (by rw [hpc]; simp [PairPc.rank]) (by rw [hpc]; rfl) (by rw [hpc]; rfl) hlegs
    · cases h
      have hfill := still_applyFillPnl d₂ m (p.leg w)
      have hrel := still_releaseTerminal (d₂.applyFillPnl m (p.leg w)) (p.id w)
      refine moves_of_still ((hstill.trans hfill.1).trans hrel.1)
        (hrel.2.trans (hfill.2.trans hcancels)) (by rw [hpc]; simp [PairPc.rank]) (by rw [hpc]; rfl)
        (by rw [hpc]; rfl) ?_ hlegs
      unfold PairTask.requests
      split_ifs <;> rfl
  · cases h
    exact .waits htake

omit [LinearOrder K] in
theorem sendingLeg2_advances (hpc : p.pc = .sendingLeg2) : Advances d d p t .racing := by
  refine moves_of_still (.refl d) rfl (by rw [hpc]; simp [PairPc.rank]) (by rw [hpc]; rfl)
    (by rw [hpc]; rfl) ?_ fun l hl => ?_
  · unfold PairTask.requests
    split_ifs <;> rfl
  · rw [hpc] at hl
    exact hl

theorem cancelingPartner_advances (hpc : p.pc = .cancelingPartner first)
    (h : d.awaitAuthoritative (p.id first.other) (fun d rec => d.partnerSettled p first rec t)
      (.awaitingPartner first) = (d', pc')) : Advances d d' p t pc' := by
  refine awaitAuthoritative_advances (Or.inr (Or.inl hpc))
    (fun rec => partnerSettled_settling (.refl d) rfl) (by rw [hpc]; simp [PairPc.rank])
    (by rw [hpc]; rfl) (by rw [hpc]; rfl) ?_ (fun l hl => ?_) h
  · unfold PairTask.requests
    split_ifs <;> rfl
  · rw [hpc] at hl
    exact hl

omit [LinearOrder K] in
theorem legTimer_advances (hpc : p.pc = .legTimer first) {lost : Bool}
    (h : d.loseMsg c lost = some d₁) :
    Advances d (d₁.cancelOrder (p.leg first.other).symbol (clientId (p.id first.other))) p t
      (.cancelingResting first) := by
  have hstill := still_loseMsg h
  refine moves_of_cancel hstill.1 hstill.2 rfl (Or.inr rfl) (by rw [hpc]; simp [PairPc.rank])
    (by rw [hpc]; rfl) (by rw [hpc]; rfl) fun l hl => ?_
  rw [hpc] at hl
  exact hl

theorem cancelingResting_advances (hpc : p.pc = .cancelingResting first)
    (h : d.awaitAuthoritative (p.id first.other) (fun d rec => d.restingSettled p first rec t)
      (.awaitingResting first) = (d', pc')) : Advances d d' p t pc' := by
  refine awaitAuthoritative_advances (Or.inr (Or.inr (Or.inr (Or.inl hpc))))
    (fun rec => restingSettled_settling (.refl d) rfl) (by rw [hpc]; simp [PairPc.rank])
    (by rw [hpc]; rfl) (by rw [hpc]; rfl) ?_ (fun l hl => ?_) h
  · unfold PairTask.requests
    split_ifs <;> rfl
  · rw [hpc] at hl
    exact hl

omit [LinearOrder K] in
theorem sendingHedge_advances (hpc : p.pc = .sendingHedge first n c) :
    Advances d (d.clearInflight p) p t (.watchingHedge first n c) := by
  have hstill := still_clearInflight d p
  refine moves_of_still hstill.1 hstill.2 (by rw [hpc]; simp [PairPc.rank]) (by rw [hpc]; rfl)
    (by rw [hpc]; rfl) ?_ fun l hl => ?_
  · unfold PairTask.requests
    split_ifs <;> rfl
  · rw [hpc] at hl
    exact hl

theorem watchingHedge_advances (hpc : p.pc = .watchingHedge first n c)
    (h : d.receiveOn p c (fun d rec => d.hedgeSettled p first n rec) = some (d', pc')) :
    Advances d d' p t pc' := by
  obtain ⟨⟨m, d₁⟩, htake, h⟩ := Option.map_eq_some_iff.mp h
  have htaken := still_takeMsg htake
  dsimp only at h
  split_ifs at h
  · cases h
    have hpart := still_applyPartial d₁ m (p.leg first.other)
    have hrel := still_releaseTerminal (d₁.applyPartial m (p.leg first.other)) n
    refine moves_of_still ((htaken.1.trans hpart.1).trans hrel.1)
      (hrel.2.trans (hpart.2.trans htaken.2)) (by rw [hpc]; simp [PairPc.rank])
      (by rw [hpc]; rfl) (by rw [hpc]; rfl) ?_ fun l hl => ?_
    · unfold PairTask.requests
      split_ifs <;> rfl
    · rw [hpc] at hl
      exact hl
  · cases h
    exact .waits htake

omit [LinearOrder K] in
/-- A gateway call throws, and the destructor of the claim runs. -/
theorem threw_advances (hrank : PairPc.rank (.threw p.pc) < p.pc.rank) :
    Advances d (d.clearInflight p) p t (.threw p.pc) := by
  have hstill := still_clearInflight d p
  refine moves_of_still hstill.1 hstill.2 hrank rfl rfl ?_ fun l hl => hl
  unfold PairTask.requests
  split_ifs <;> rfl

/-- Every resumption is an advance. -/
theorem resume_advances (h : d.resume p r t = some (d', pc')) : Advances d d' p t pc' := by
  unfold resume at h
  split at h
  case h_1 hpc =>
    cases h
    exact .leg2 hpc rfl
  case h_2 hpc =>
    cases h
    exact sendingLeg2_advances hpc
  case h_3 w lost hpc => exact receiveFirst_advances hpc h
  case h_4 first hpc => exact cancelingPartner_advances hpc (Option.some.inj h)
  case h_5 first w hpc =>
    split_ifs at h
    exact receiveOn_advances (Or.inr (Or.inr (Or.inl hpc)))
      (fun d₁ rec hstill hc => partnerSettled_settling hstill hc) h
  case h_6 first lost hpc =>
    exact timeout_advances (fun e r => e.partnerSettled p first r t) (p.id first.other)
      (Or.inr (Or.inr (Or.inl hpc)))
      (fun d₁ rec hstill hc => partnerSettled_settling hstill hc) h
  case h_7 first w hpc =>
    split_ifs at h
    exact receiveOn_advances (Or.inl hpc)
      (fun d₁ rec hstill hc => restingRaced_settling hstill hc) h
  case h_8 first lost hpc =>
    obtain ⟨d₁, hlose, h⟩ := Option.map_eq_some_iff.mp h
    cases h
    exact legTimer_advances hpc hlose
  case h_9 first hpc => exact cancelingResting_advances hpc (Option.some.inj h)
  case h_10 first w hpc =>
    split_ifs at h
    exact receiveOn_advances (Or.inr (Or.inr (Or.inr (Or.inr hpc))))
      (fun d₁ rec hstill hc => restingSettled_settling hstill hc) h
  case h_11 first lost hpc =>
    exact timeout_advances (fun e r => e.restingSettled p first r t) (p.id first.other)
      (Or.inr (Or.inr (Or.inr (Or.inr hpc))))
      (fun d₁ rec hstill hc => restingSettled_settling hstill hc) h
  case h_12 first n c hpc =>
    cases h
    exact sendingHedge_advances hpc
  case h_13 first n c hpc => exact watchingHedge_advances hpc h
  case h_19 => cases h
  all_goals
    rename_i hpc
    cases h
    exact threw_advances (by rw [hpc]; simp [PairPc.rank])

end

end

end Desk
end HoloMarket
