import HoloMarket.Net.FillCharges
import HoloMarket.Net.Unreleased

/-!
# PairCalls: what a resumption books, releases and hedges

Each resumption of a pair makes a list of calls: on the position book, of
`release_terminal`, and of `hedge_remaining` where it sends an order.  The lists
are read off the coroutines branch by branch, and the desk afterwards is the desk
before with those calls made, so that a history of the lists is a history of
what the pair has done.
-/

namespace HoloMarket

variable {K : Type*} [Field K] [LinearOrder K]

inductive PairCall (K : Type*) where
  /-- The first race ends with a record in this status. -/
  | settled (first : LegIx) (status : OrderStatus)
  /-- `apply_fill_pnl` calls the book for the record of the order `n`. -/
  | book (n : Nat) (call : PnlCall K)
  | release (n : Nat)
  /-- `hedge_remaining` sends the order `n`. -/
  | hedge (n : Nat) (leg : ArbLeg K)
deriving DecidableEq, Repr

namespace Desk

section
variable (d : Desk K) (p : PairTask K) (first : LegIx) (rec : OrderRecord K)

/-- `apply_fill_pnl(rec, leg)`. -/
def fillCalls (n : Nat) (leg : ArbLeg K) : List (PairCall K) :=
  (d.engine.pnlCalls (rec, leg)).map (.book n)

/-- `if (rec.filled_qty > 0.0) apply_fill_pnl(rec, leg);` -/
def partialCalls (n : Nat) (leg : ArbLeg K) : List (PairCall K) :=
  if 0 < rec.filledQty then d.fillCalls rec n leg else []

def hedgeCalls (remaining : K) : List (PairCall K) :=
  if remaining ≤ ExecutionEngine.qtyEps then []
  else [.hedge d.engine.seq { p.leg first.other with qty := remaining }]

def firstCalls : List (PairCall K) :=
  .settled first rec.status ::
    if rec.status ≠ .Filled then [.release (p.id first)]
    else d.fillCalls rec (p.id first) (p.leg first) ++ [.release (p.id first)]

def partnerCalls : List (PairCall K) :=
  .release (p.id first.other) ::
    if 0 < rec.filledQty then
      d.fillCalls rec (p.id first.other) (p.leg first.other) ++
        d.hedgeCalls p first (rec.qty - rec.filledQty)
    else []

def racedCalls : List (PairCall K) :=
  if rec.status = .Filled then
    d.fillCalls rec (p.id first.other) (p.leg first.other) ++ [.release (p.id first.other)]
  else
    d.partialCalls rec (p.id first.other) (p.leg first.other) ++
      .release (p.id first.other) :: d.hedgeCalls p first (rec.qty - rec.filledQty)

def restingCalls : List (PairCall K) :=
  .release (p.id first.other) ::
    if rec.status = .Filled then d.fillCalls rec (p.id first.other) (p.leg first.other)
    else
      d.partialCalls rec (p.id first.other) (p.leg first.other) ++
        d.hedgeCalls p first (rec.qty - rec.filledQty)

def watchCalls (hedge : Nat) : List (PairCall K) :=
  d.partialCalls rec hedge (p.leg first.other) ++ [.release hedge]

end

/-- The calls that follow the message at the head of a channel, if it settles. -/
def onMessage (d : Desk K) (chan : Nat) (settled : OrderRecord K → List (PairCall K)) :
    List (PairCall K) :=
  (d.engine.chans chan).head?.elim [] fun rec => if rec.status.isTerminal then settled rec else []

/-- The calls of one resumption. -/
def calls (d : Desk K) (p : PairTask K) (r : Resumption) : List (PairCall K) :=
  match p.pc, r with
  | .racing, .receive w _ => d.onMessage (p.chan w) (d.firstCalls p w)
  | .cancelingPartner first, .sent =>
    (d.settledRecord (p.id first.other)).elim [] (d.partnerCalls p first)
  | .awaitingPartner first, .receive w _ => d.onMessage (p.chan w) (d.partnerCalls p first)
  | .awaitingPartner first, .timeout _ =>
    d.partnerCalls p first (d.lastKnown (p.id first.other))
  | .legTimer first, .receive w _ => d.onMessage (p.chan w) (d.racedCalls p first)
  | .cancelingResting first, .sent =>
    (d.settledRecord (p.id first.other)).elim [] (d.restingCalls p first)
  | .awaitingResting first, .receive w _ => d.onMessage (p.chan w) (d.restingCalls p first)
  | .awaitingResting first, .timeout _ =>
    d.restingCalls p first (d.lastKnown (p.id first.other))
  | .watchingHedge first hedge chan, .receiveHedge =>
    d.onMessage chan fun rec => d.watchCalls p first rec hedge
  | _, _ => []

/-! ## Waiting -/

/-- Messages are taken, and nothing that is booked, released or hedged changes. -/
structure Waited (d d' : Desk K) : Prop where
  oms : d'.engine.oms = d.engine.oms
  waiters : d'.engine.waiters = d.engine.waiters
  seq : d'.engine.seq = d.engine.seq
  pnl : d'.engine.pnl = d.engine.pnl
  filled : d'.engine.lastFilled = d.engine.lastFilled
  commission : d'.engine.lastCommission = d.engine.lastCommission
  chans : ∀ c, d'.engine.chans c <:+ d.engine.chans c

variable {d d' d₁ : Desk K} {p : PairTask K}

omit [Field K] [LinearOrder K]

theorem Waited.refl (d : Desk K) : Waited d d :=
  ⟨rfl, rfl, rfl, rfl, rfl, rfl, fun _ => List.suffix_rfl⟩

theorem Waited.trans (h : Waited d d₁) (h' : Waited d₁ d') : Waited d d' :=
  ⟨h'.oms.trans h.oms, h'.waiters.trans h.waiters, h'.seq.trans h.seq, h'.pnl.trans h.pnl,
    h'.filled.trans h.filled, h'.commission.trans h.commission,
    fun c => (h'.chans c).trans (h.chans c)⟩

theorem waited_takeMsg {c : Nat} {r : OrderRecord K} (h : d.takeMsg c = some (r, d')) :
    Waited d d' := by
  unfold takeMsg at h
  cases hc : d.engine.chans c with
  | nil =>
    rw [hc] at h
    cases h
  | cons _ rest =>
    rw [hc] at h
    cases h
    refine ⟨rfl, rfl, rfl, rfl, rfl, rfl, fun n => ?_⟩
    show Function.update d.engine.chans c rest n <:+ d.engine.chans n
    by_cases hn : n = c
    · rw [hn, Function.update_self, hc]
      exact List.suffix_cons _ rest
    · rw [Function.update_of_ne hn]

theorem waited_loseMsg {c : Nat} {lost : Bool} (h : d.loseMsg c lost = some d') : Waited d d' := by
  rcases loseMsg_cases h with rfl | ⟨r, hr⟩
  · exact .refl d'
  · exact waited_takeMsg hr

theorem waited_clearInflight (d : Desk K) (p : PairTask K) : Waited d (d.clearInflight p) := by
  unfold clearInflight ExecutionEngine.clearInflight
  dsimp only
  split <;> exact ⟨rfl, rfl, rfl, rfl, rfl, rfl, fun _ => List.suffix_rfl⟩

theorem waited_cancelOrder (d : Desk K) (symbol cid : String) :
    Waited d (d.cancelOrder symbol cid) :=
  ⟨rfl, rfl, rfl, rfl, rfl, rfl, fun _ => List.suffix_rfl⟩

theorem waited_sendLeg [Field K] (d : Desk K) (p : PairTask K) (w : LegIx) :
    Waited d (d.sendLeg p w) :=
  ⟨rfl, rfl, rfl, rfl, rfl, rfl, fun _ => List.suffix_rfl⟩

theorem head_of_takeMsg {c : Nat} {r : OrderRecord K} (h : d.takeMsg c = some (r, d')) :
    (d.engine.chans c).head? = some r := by
  unfold takeMsg at h
  split at h
  · cases h
  next m rest hc =>
    cases h
    rw [hc]
    rfl

end Desk

/-! ## Where a pair stands -/

/-- A pair in the course of its coroutines, whether or not it is suspended in a
gateway call, and also when that call threw. -/
inductive PairPhase where
  | racing
  | partner (first : LegIx)
  | resting (first : LegIx)
  | hedging (first : LegIx) (hedge : Nat)
  | ended (first : LegIx)
deriving DecidableEq, Repr

def PairPc.phase : PairPc → PairPhase
  | .sendingLeg1 | .sendingLeg2 | .racing => .racing
  | .cancelingPartner first | .awaitingPartner first => .partner first
  | .legTimer first | .cancelingResting first | .awaitingResting first => .resting first
  | .sendingHedge first hedge _ | .watchingHedge first hedge _ => .hedging first hedge
  | .finished first _ => .ended first
  | .threw point => point.phase

namespace PairTask

/-- The orders of a pair that are registered and not released. -/
def openAt (p : PairTask K) : PairPhase → List Nat
  | .racing => [p.id1, p.id2]
  | .partner first | .resting first => [p.id first.other]
  | .hedging _ hedge => [hedge]
  | .ended _ => []

omit [Field K] [LinearOrder K] in
theorem unreleased_eq (p : PairTask K) (pc : PairPc) : p.unreleased pc = p.openAt pc.phase := by
  induction pc with
  | threw point ih => exact ih
  | _ => rfl

end PairTask

namespace Desk

/-- The record that a coroutine goes on with: a settling message of the order's
channel, or what the store holds. -/
inductive Learned (d : Desk K) (n chan : Nat) (rec : OrderRecord K) : Prop where
  | message (h : rec ∈ d.engine.chans chan) (ht : rec.status.isTerminal = true)
  | stored (h : d.engine.oms.get (orderKey n) = some rec)
  | nothing (h : d.engine.oms.get (orderKey n) = none) (he : rec = OrderRecord.empty)

/-- What a resumption comes to: the pair waits on, or a record is settled on.  After a
cancel that record need not be a settled one, when the timer has expired. -/
inductive Goes (d : Desk K) (p : PairTask K) (r : Resumption) (t : Clock) :
    List (PairCall K) → Desk K → PairPc → Prop
  | waits {d' : Desk K} {pc' : PairPc} (hw : Waited d d') (hpc : pc'.phase = p.pc.phase) :
    Goes d p r t [] d' pc'
  | first {d₁ : Desk K} {rec : OrderRecord K} (x : LegIx) (hpc : p.pc.phase = .racing)
      (hw : Waited d d₁) (hm : rec ∈ d.engine.chans (p.chan x))
      (ht : rec.status.isTerminal = true) :
    Goes d p r t (d.firstCalls p x rec) (d₁.firstSettled p x rec).1 (d₁.firstSettled p x rec).2
  | partner {d₁ : Desk K} {rec : OrderRecord K} (x : LegIx) (hpc : p.pc.phase = .partner x)
      (hw : Waited d d₁) (hs : d.Learned (p.id x.other) (p.chan x.other) rec) :
    Goes d p r t (d.partnerCalls p x rec) (d₁.partnerSettled p x rec t).1
      (d₁.partnerSettled p x rec t).2
  | raced {d₁ : Desk K} {rec : OrderRecord K} (x : LegIx) (hpc : p.pc.phase = .resting x)
      (hw : Waited d d₁) (hs : d.Learned (p.id x.other) (p.chan x.other) rec)
      (ht : rec.status.isTerminal = true) :
    Goes d p r t (d.racedCalls p x rec) (d₁.restingRaced p x rec t).1 (d₁.restingRaced p x rec t).2
  | resting {d₁ : Desk K} {rec : OrderRecord K} (x : LegIx) (hpc : p.pc.phase = .resting x)
      (hw : Waited d d₁) (hs : d.Learned (p.id x.other) (p.chan x.other) rec)
      (hlate : rec.status.isTerminal = true ∨ p.pc = .awaitingResting x ∧
        (∃ lost, r = .timeout lost) ∧ rec = d.lastKnown (p.id x.other)) :
    Goes d p r t (d.restingCalls p x rec) (d₁.restingSettled p x rec t).1
      (d₁.restingSettled p x rec t).2
  | hedge {d₁ : Desk K} {rec : OrderRecord K} (x : LegIx) (n c : Nat)
      (hpc : p.pc = .watchingHedge x n c) (hw : Waited d d₁) (hm : rec ∈ d.engine.chans c)
      (ht : rec.status.isTerminal = true) :
    Goes d p r t (d.watchCalls p x rec n) (d₁.hedgeSettled p x n rec).1
      (d₁.hedgeSettled p x n rec).2

section
variable {d d' : Desk K} {p : PairTask K} {r : Resumption} {t : Clock} {pc pc' : PairPc}
  {c n : Nat}
  {settled : Desk K → OrderRecord K → Desk K × PairPc}
  {calls : OrderRecord K → List (PairCall K)}

/-- A message is received where `settled` goes on with one that settles. -/
theorem receiveOn_goes (h : d.receiveOn p c settled = some (d', pc'))
    (hs : ∀ (d₁ : Desk K) (rec : OrderRecord K), Waited d d₁ → rec ∈ d.engine.chans c →
      rec.status.isTerminal = true →
        Goes d p r t (calls rec) (settled d₁ rec).1 (settled d₁ rec).2) :
    Goes d p r t (d.onMessage c calls) d' pc' := by
  obtain ⟨⟨m, d₁⟩, htake, h⟩ := Option.map_eq_some_iff.mp h
  have hhead := head_of_takeMsg htake
  have hwait := waited_takeMsg htake
  unfold onMessage
  rw [hhead, Option.elim_some]
  dsimp only at h
  by_cases hterm : m.status.isTerminal = true
  · rw [if_pos hterm] at h ⊢
    have hgoes := hs d₁ m hwait (List.mem_of_mem_head? hhead) hterm
    rwa [h] at hgoes
  · rw [if_neg hterm] at h ⊢
    cases h
    exact .waits hwait rfl

theorem awaitAuthoritative_goes (h : d.awaitAuthoritative n settled pc = (d', pc'))
    (hpc : pc.phase = p.pc.phase)
    (hs : ∀ rec : OrderRecord K, d.Learned n c rec → rec.status.isTerminal = true →
      Goes d p r t (calls rec) (settled d rec).1 (settled d rec).2) :
    Goes d p r t ((d.settledRecord n).elim [] calls) d' pc' := by
  unfold awaitAuthoritative at h
  cases hrec : d.settledRecord n with
  | none =>
    rw [hrec] at h
    cases h
    exact .waits (.refl d) hpc
  | some rec =>
    rw [hrec] at h
    dsimp only at h
    obtain ⟨hget, hterm⟩ := Option.filter_eq_some_iff.mp hrec
    have hgoes := hs rec (.stored hget) hterm
    rwa [h] at hgoes

theorem receiveFirst_goes (hpc : p.pc = .racing) {w : LegIx} {lost : Bool}
    (h : d.receiveFirst p w lost = some (d', pc')) :
    Goes d p r t (d.onMessage (p.chan w) (d.firstCalls p w)) d' pc' := by
  obtain ⟨⟨m, d₁⟩, htake, h⟩ := Option.bind_eq_some_iff.mp h
  have hhead := head_of_takeMsg htake
  have hwait := waited_takeMsg htake
  unfold onMessage
  rw [hhead, Option.elim_some]
  dsimp only at h
  by_cases hterm : m.status.isTerminal = true
  · rw [if_pos hterm] at h ⊢
    obtain ⟨d₂, hlose, h⟩ := Option.map_eq_some_iff.mp h
    have hgoes : Goes d p r t _ _ _ := .first w (congrArg PairPc.phase hpc)
      (hwait.trans (waited_loseMsg hlose)) (List.mem_of_mem_head? hhead) hterm
    rwa [h] at hgoes
  · rw [if_neg hterm] at h ⊢
    split_ifs at h
    cases h
    exact .waits hwait rfl

omit [LinearOrder K] in
theorem lastKnown_learned (d : Desk K) (n c : Nat) : d.Learned n c (d.lastKnown n) := by
  unfold lastKnown
  cases hget : d.engine.oms.get (orderKey n) with
  | none => exact .nothing hget rfl
  | some rec => exact .stored hget

variable (settled calls) in
theorem timeout_goes {lost : Bool}
    (h : ((d.loseMsg c lost).map fun d => settled d (d.lastKnown n)) = some (d', pc'))
    (hs : ∀ (d₁ : Desk K), Waited d d₁ →
      Goes d p r t (calls (d.lastKnown n)) (settled d₁ (d.lastKnown n)).1
        (settled d₁ (d.lastKnown n)).2) :
    Goes d p r t (calls (d.lastKnown n)) d' pc' := by
  obtain ⟨d₁, hlose, h⟩ := Option.map_eq_some_iff.mp h
  have hwait := waited_loseMsg hlose
  have hlast : d₁.lastKnown n = d.lastKnown n := by
    unfold lastKnown
    rw [hwait.oms]
  have hgoes := hs d₁ hwait
  rw [hlast] at h
  rwa [h] at hgoes

/-- Every resumption makes the calls of `calls`. -/
theorem resume_goes (h : d.resume p r t = some (d', pc')) :
    Goes d p r t (d.calls p r) d' pc' := by
  unfold resume at h
  unfold Desk.calls
  split at h
  case h_1 hpc =>
    cases h
    rw [hpc]
    exact .waits (waited_sendLeg d p .leg2) (congrArg PairPc.phase hpc).symm
  case h_2 hpc =>
    cases h
    rw [hpc]
    exact .waits (.refl d) (congrArg PairPc.phase hpc).symm
  case h_3 w lost hpc =>
    rw [hpc]
    exact receiveFirst_goes hpc h
  case h_4 first hpc =>
    have hphase := congrArg PairPc.phase hpc
    rw [hpc]
    exact awaitAuthoritative_goes (Option.some.inj h) hphase.symm
      fun rec hs _ => .partner first hphase (.refl d) hs
  case h_5 first w hpc =>
    rw [hpc]
    split_ifs at h with hw
    subst hw
    exact receiveOn_goes h fun d₁ rec hwait hm ht =>
      .partner first (congrArg PairPc.phase hpc) hwait (.message hm ht)
  case h_6 first lost hpc =>
    rw [hpc]
    exact timeout_goes (fun e r => e.partnerSettled p first r t) (d.partnerCalls p first) h
      fun d₁ hwait => .partner first (congrArg PairPc.phase hpc) hwait (lastKnown_learned d _ _)
  case h_7 first w hpc =>
    rw [hpc]
    split_ifs at h with hw
    subst hw
    exact receiveOn_goes h fun d₁ rec hwait hm ht =>
      .raced first (congrArg PairPc.phase hpc) hwait (.message hm ht) ht
  case h_8 first lost hpc =>
    obtain ⟨d₁, hlose, h⟩ := Option.map_eq_some_iff.mp h
    cases h
    rw [hpc]
    exact .waits ((waited_loseMsg hlose).trans (waited_cancelOrder ..))
      (congrArg PairPc.phase hpc).symm
  case h_9 first hpc =>
    have hphase := congrArg PairPc.phase hpc
    rw [hpc]
    exact awaitAuthoritative_goes (Option.some.inj h) hphase.symm
      fun rec hs ht => .resting first hphase (.refl d) hs (Or.inl ht)
  case h_10 first w hpc =>
    rw [hpc]
    split_ifs at h with hw
    subst hw
    exact receiveOn_goes h fun d₁ rec hwait hm ht =>
      .resting first (congrArg PairPc.phase hpc) hwait (.message hm ht) (Or.inl ht)
  case h_11 first lost hpc =>
    rw [hpc]
    exact timeout_goes (fun e r => e.restingSettled p first r t) (d.restingCalls p first) h
      fun d₁ hwait => .resting first (congrArg PairPc.phase hpc) hwait (lastKnown_learned d _ _)
        (Or.inr ⟨hpc, ⟨lost, rfl⟩, rfl⟩)
  case h_12 first n c hpc =>
    cases h
    rw [hpc]
    exact .waits (waited_clearInflight d p) (congrArg PairPc.phase hpc).symm
  case h_13 first n c hpc =>
    rw [hpc]
    exact receiveOn_goes h fun d₁ rec hwait hm ht => .hedge first n c hpc hwait hm ht
  case h_19 => cases h
  all_goals
    rename_i hpc
    cases h
    rw [hpc]
    exact .waits (waited_clearInflight d p) (congrArg PairPc.phase hpc).symm

end

end Desk

end HoloMarket
