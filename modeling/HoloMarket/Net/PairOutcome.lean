import Mathlib.Algebra.Order.Field.Rat
import Mathlib.Algebra.Order.Ring.Unbundled.Rat
import HoloMarket.Net.WorldInv

/-!
# PairOutcome: what the legs of a pair have executed

A leg's executions are those of its own order and, for the leg that did not
settle first, those of the hedge.  Whether the two legs end up alike depends on
how the first of them settled.
-/

namespace HoloMarket

variable {K : Type*} [Field K]

/-- The hedge that stands for the leg `x`. -/
def PairPc.hedgeOf (x : LegIx) : PairPc → Option Nat
  | .sendingHedge first h _ | .watchingHedge first h _ =>
    if x = first.other then some h else none
  | .finished first h => if x = first.other then h else none
  | .threw point => point.hedgeOf x
  | _ => none

namespace Desk

/-- What the exchange has executed for the order `n`. -/
def executed (d : Desk K) (n : Nat) : K := (d.exchange n).elim 0 VenueOrder.executed

def legExecuted (d : Desk K) (p : PairTask K) (x : LegIx) : K :=
  d.executed (p.id x) + (p.pc.hedgeOf x).elim 0 d.executed

/-- Both legs are executed completely, or neither at all. -/
def Neutral (d : Desk K) (p : PairTask K) : Prop :=
  (d.legExecuted p .leg1 = 0 ∧ d.legExecuted p .leg2 = 0) ∨
    (d.legExecuted p .leg1 = p.leg1.qty ∧ d.legExecuted p .leg2 = p.leg2.qty)

/-- What the other leg's own order has left to execute. -/
def residual (d : Desk K) (p : PairTask K) (first : LegIx) : K :=
  (p.leg first.other).qty - d.executed (p.id first.other)

/-- The hedge, if one was sent, is executed completely. -/
def HedgeFilled (d : Desk K) (hedge : Option Nat) : Prop :=
  hedge.elim True fun h => (d.exchange h).elim False fun v => v.status = .Filled

section
variable {d : Desk K} {p : PairTask K}

theorem Pending.executed_eq {n : Nat} {leg : ArbLeg K} (h : d.Pending n leg) :
    d.executed n = 0 := by
  have hnone : d.exchange n = none := h.order
  unfold executed
  rw [hnone]
  rfl

/-- Both legs at once, whichever settled first. -/
theorem neutral_iff_legs (first : LegIx) : d.Neutral p ↔
    (d.legExecuted p first = 0 ∧ d.legExecuted p first.other = 0) ∨
      (d.legExecuted p first = (p.leg first).qty ∧
        d.legExecuted p first.other = (p.leg first.other).qty) := by
  cases first with
  | leg1 => exact Iff.rfl
  | leg2 => exact or_congr and_comm and_comm

theorem nothing_iff_legs (first : LegIx) :
    d.executed (p.id .leg1) = 0 ∧ d.executed (p.id .leg2) = 0 ↔
      d.executed (p.id first) = 0 ∧ d.executed (p.id first.other) = 0 := by
  cases first with
  | leg1 => exact Iff.rfl
  | leg2 => exact and_comm

theorem hedgeOf_first (first : LegIx) (hedge : Option Nat) :
    (PairPc.finished first hedge).hedgeOf first = none := by
  cases first <;> rfl

theorem hedgeOf_other (first : LegIx) (hedge : Option Nat) :
    (PairPc.finished first hedge).hedgeOf first.other = hedge := by
  cases first <;> rfl

theorem legExecuted_first {first : LegIx} {hedge : Option Nat}
    (hpc : p.pc = .finished first hedge) :
    d.legExecuted p first = d.executed (p.id first) := by
  unfold legExecuted
  rw [hpc, hedgeOf_first]
  exact add_zero _

theorem legExecuted_other {first : LegIx} {hedge : Option Nat}
    (hpc : p.pc = .finished first hedge) :
    d.legExecuted p first.other =
      d.executed (p.id first.other) + hedge.elim 0 d.executed := by
  unfold legExecuted
  rw [hpc, hedgeOf_other]

end

section
variable [LinearOrder K]

/-- The leg that settled first was filled, and its partner's order is complete or
has left enough to be hedged; or neither order executed anything. -/
def FirstFilled (d : Desk K) (p : PairTask K) (first : LegIx) : Prop :=
  d.executed (p.id first) = (p.leg first).qty ∧
      (d.residual p first = 0 ∨ ExecutionEngine.qtyEps < d.residual p first) ∨
    d.executed (p.id .leg1) = 0 ∧ d.executed (p.id .leg2) = 0

instance (d : Desk K) (p : PairTask K) : Decidable (d.Neutral p) :=
  inferInstanceAs (Decidable (_ ∨ _))

instance (d : Desk K) (p : PairTask K) (first : LegIx) : Decidable (d.FirstFilled p first) :=
  inferInstanceAs (Decidable (_ ∨ _))

instance (d : Desk K) (hedge : Option Nat) : Decidable (d.HedgeFilled hedge) :=
  Machine.decidableElim hedge

variable {d : Desk K} {p : PairTask K} {n : Nat} {leg : ArbLeg K} {v : VenueOrder K}

theorem Settled.executed_eq (h : d.Settled n leg v) : d.executed n = v.executed := by
  have hv : d.exchange n = some v := h.order
  unfold executed
  rw [hv]
  rfl

theorem Settled.filled_iff (h : d.Settled n leg v) :
    v.status = .Filled ↔ v.executed = leg.qty := by
  rw [h.sound.filled_iff, h.isFor.qty]

theorem Placed.executed_le {n : Nat} {leg : ArbLeg K} (h : d.Placed n leg) :
    d.executed n ≤ leg.qty := by
  obtain ⟨v, hv, hfor, hs⟩ := h
  have hv' : d.exchange n = some v := hv
  unfold executed
  rw [hv', ← hfor.qty]
  exact hs.le

/-- A finished pair without a hedge. -/
theorem neutral_iff_unhedged {first : LegIx} (hpc : p.pc = .finished first none)
    (hok : p.Ok d) : d.Neutral p ↔ d.FirstFilled p first := by
  unfold PairTask.Ok at hok
  rw [hpc] at hok
  obtain ⟨v, w, hv, hw, hno⟩ := hok
  rw [neutral_iff_legs first, legExecuted_first hpc, legExecuted_other hpc]
  unfold FirstFilled residual
  rw [nothing_iff_legs first, hv.executed_eq, hw.executed_eq]
  simp only [Option.elim_none, add_zero]
  rw [or_comm]
  refine or_congr_left (and_congr_right fun hfull => ⟨fun h => ?_, fun h => ?_⟩)
  · exact Or.inl (by rw [h, sub_self])
  · rcases h with h | h
    · exact (sub_eq_zero.mp h).symm
    · have hfilled := hv.filled_iff.mpr hfull
      refine absurd ⟨?_, fun hne => absurd hfilled hne⟩ hno
      rwa [hw.isFor.qty]

/-- A finished pair whose hedge is executed completely. -/
theorem neutral_iff_hedged {first : LegIx} {h : Nat} (hpc : p.pc = .finished first (some h))
    (hok : p.Ok d) (hfill : d.HedgeFilled (some h)) : d.Neutral p ↔ d.FirstFilled p first := by
  unfold PairTask.Ok at hok
  rw [hpc] at hok
  obtain ⟨v, w, x, hv, hw, hh, hx⟩ := hok
  have hxf : x.status = .Filled := by
    have hord : d.exchange h = some x := hx.order
    unfold HedgeFilled at hfill
    rw [Option.elim_some, hord] at hfill
    exact hfill
  have hxe : x.executed = (p.leg first.other).qty - w.executed := hx.filled_iff.mp hxf
  have hwpos : 0 < (p.leg first.other).qty := hw.isFor.qty ▸ hw.sound.pos
  have hvpos : 0 < (p.leg first).qty := hv.isFor.qty ▸ hv.sound.pos
  have hres : ExecutionEngine.qtyEps < (p.leg first.other).qty - w.executed := by
    rw [← hw.isFor.qty]
    exact hh.1
  rw [neutral_iff_legs first, legExecuted_first hpc, legExecuted_other hpc]
  unfold FirstFilled residual
  rw [nothing_iff_legs first, hv.executed_eq, hw.executed_eq]
  simp only [Option.elim_some]
  rw [hx.executed_eq, hxe, add_sub_cancel]
  constructor
  · rintro (⟨-, hzero⟩ | ⟨hfull, -⟩)
    · exact absurd hzero hwpos.ne'
    · exact Or.inl ⟨hfull, Or.inr hres⟩
  · rintro (⟨hfull, -⟩ | ⟨hv0, hw0⟩)
    · exact Or.inr ⟨hfull, rfl⟩
    · -- something of the partner was executed before the hedge was sent
      have hne : v.status ≠ .Filled := by
        rw [Ne, hv.filled_iff, hv0]
        exact hvpos.ne
      exact absurd hw0 (hh.2 hne).ne'

end
end Desk

/-! ## Runs -/

section
variable [LinearOrder K] [IsStrictOrderedRing K] {es : List (EngineEvent K)} {w : World K}
  {i : Nat} {p : PairTask K} {maxOpenOrders : Nat} {orderId : Nat → Int}

/-- Once a pair and its hedge have finished, its legs are executed alike exactly
when the leg that settled first was filled, or nothing was executed at all. -/
theorem neutral_iff_firstFilled
    (hok : Machine.RunOk World.step (World.StepOk (· = i)) (World.init maxOpenOrders orderId) es)
    (hrun : Machine.run World.step (World.init maxOpenOrders orderId) es = some w)
    (hp : w.pairs[i]? = some p) {first : LegIx} {hedge : Option Nat}
    (hpc : p.pc = .finished first hedge) (hfill : w.desk.HedgeFilled hedge) :
    w.desk.Neutral p ↔ w.desk.FirstFilled p first := by
  have hinv := (World.init_ok (· = i) maxOpenOrders orderId).run hok hrun
  have hpair := hinv.pairs i p rfl hp
  cases hedge with
  | none => exact Desk.neutral_iff_unhedged hpc hpair
  | some h => exact Desk.neutral_iff_hedged hpc hpair hfill

end

/-- The first leg fills, the other one half until it is canceled: the hedge
completes it. -/
theorem neutral_after_hedge :
    let leg1 : ArbLeg Rat := { symbol := "BTCUSDT", side := .Buy, qty := 1, price := 100 }
    let leg2 : ArbLeg Rat := { symbol := "ETHUSDT", side := .Sell, qty := 1, price := 10 }
    let es : List (EngineEvent Rat) :=
      [.signal leg1 leg2 ⟨0, 0⟩, .resume 0 .sent ⟨1, 1⟩, .resume 0 .sent ⟨2, 2⟩,
        .act 0 .accept 1, .act 0 (.fill 1 100 0) 2, .deliver 0, .deliver 0,
        .resume 0 (.receive .leg1 false) ⟨3, 3⟩, .resume 0 (.receive .leg1 false) ⟨3, 3⟩,
        .act 1 .accept 3, .act 1 (.fill (1 / 2) 10 0) 4, .deliver 1, .deliver 1,
        .resume 0 (.timeout false) ⟨5, 5⟩, .act 1 (.finish .Canceled) 5, .deliver 1,
        .resume 0 .sent ⟨6, 6⟩, .resume 0 .sent ⟨7, 7⟩, .act 2 .accept 7,
        .act 2 (.fill (1 / 2) 10 0) 8, .deliver 2, .deliver 2, .resume 0 .receiveHedge ⟨8, 8⟩,
        .resume 0 .receiveHedge ⟨8, 8⟩]
    ∃ w p, Machine.run World.step (World.init 8 Int.ofNat) es = some w ∧
      w.pairs[0]? = some p ∧ w.desk.Neutral p := by
  intro leg1 leg2 es
  have hend : (Machine.run World.step (World.init 8 Int.ofNat) es).elim False fun w =>
      (w.pairs[0]?).elim False fun p => p.pc = .finished .leg1 (some 2) ∧
        w.desk.HedgeFilled (some 2) ∧ w.desk.FirstFilled p .leg1 := by decide +kernel
  obtain ⟨w, hw, h⟩ := Machine.exists_of_elim hend
  obtain ⟨p, hp, hpc, hfill, hfirst⟩ := Machine.exists_of_elim h
  exact ⟨w, p, hw, hp, (neutral_iff_firstFilled (by decide +kernel) hw hp hpc hfill).mpr hfirst⟩

/-- One leg expires without a fill while the other is half filled: the hedge
completes the other, and nothing stands against it. -/
theorem partner_hedged_alone :
    let leg1 : ArbLeg Rat := { symbol := "BTCUSDT", side := .Buy, qty := 1, price := 100 }
    let leg2 : ArbLeg Rat := { symbol := "ETHUSDT", side := .Sell, qty := 1, price := 10 }
    let es : List (EngineEvent Rat) :=
      [.signal leg1 leg2 ⟨0, 0⟩, .resume 0 .sent ⟨1, 1⟩, .resume 0 .sent ⟨2, 2⟩,
        .act 0 (.finish .Expired) 1, .act 1 .accept 1, .act 1 (.fill (1 / 2) 10 0) 2,
        .deliver 0, .deliver 1, .deliver 1, .resume 0 (.receive .leg1 false) ⟨3, 3⟩,
        .act 1 (.finish .Canceled) 3, .deliver 1, .resume 0 .sent ⟨4, 4⟩,
        .resume 0 .sent ⟨5, 5⟩, .act 2 .accept 5, .act 2 (.fill (1 / 2) 10 0) 6, .deliver 2,
        .deliver 2, .resume 0 .receiveHedge ⟨6, 6⟩, .resume 0 .receiveHedge ⟨6, 6⟩]
    Machine.RunOk World.step (World.StepOk (· = 0)) (World.init 8 Int.ofNat) es ∧
      (Machine.run World.step (World.init 8 Int.ofNat) es).elim False fun w =>
        (w.pairs[0]?).elim False fun p => p.pc = .finished .leg1 (some 2) ∧
          w.desk.HedgeFilled (some 2) ∧ ¬w.desk.Neutral p := by
  decide +kernel

end HoloMarket
