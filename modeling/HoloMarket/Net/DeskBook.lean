import Mathlib.Algebra.BigOperators.Group.Finset.Basic
import Mathlib.Algebra.BigOperators.Intervals
import HoloMarket.Net.DeskSteps

/-!
# DeskBook: the position book against the exchange

What has been charged for an order so far is what the deduplication map holds
under its exchange order id.  As long as the ids differ, the book is the signed
sum of what has been charged, and releasing a settled order brings its charge
from nothing to everything it executed.
-/

namespace HoloMarket

variable {K : Type*} [Field K] [LinearOrder K]

namespace Desk

/-- What the book has been charged for the order `n`. -/
def booked (d : Desk K) (n : Nat) : K := (d.engine.lastFilled.lookup (d.orderId n)).getD 0

/-- The direction of the order `n` when it is an order for `sym`. -/
def direction (d : Desk K) (sym : String) (n : Nat) : K :=
  match d.exchange n with
  | none => 0
  | some v => if v.symbol = sym then v.side.signedDir else 0

structure Booked (d : Desk K) : Prop where
  inj : Function.Injective d.orderId
  /-- An order that is not working has executed nothing, or more than
  `apply_fill_pnl` ignores. -/
  coarse : ∀ n v, d.exchange n = some v → v.status.isWorking = false →
    v.executed = 0 ∨ ExecutionEngine.qtyEps < v.executed
  tracked : ∀ n < d.engine.seq, (d.cell n).record.isSome = true → d.booked n = 0
  settled : ∀ n < d.engine.seq, (d.cell n).record = none →
    ∃ v, d.exchange n = some v ∧ v.Acked = true ∧ d.booked n = v.executed
  unused : ∀ n, d.engine.seq ≤ n → d.booked n = 0
  qty : ∀ sym, (d.engine.pnl.snapshot sym).qty =
    ∑ n ∈ Finset.range d.engine.seq, d.direction sym n * d.booked n

variable {d d' : Desk K}

/-- A change that charges nothing, and executes nothing more for an order that is
settled. -/
theorem Booked.quiet (h : d.Booked) (hseq : d'.engine.seq = d.engine.seq)
    (hx : d'.orderId = d.orderId) (hacc : d'.engine.accounts = d.engine.accounts)
    (hrec : ∀ n < d.engine.seq, (d'.cell n).record.isSome = (d.cell n).record.isSome)
    (hord : ∀ n, d'.exchange n = d.exchange n ∨ ∃ v v', d.exchange n = some v ∧
      d'.exchange n = some v' ∧ v'.symbol = v.symbol ∧ v'.side = v.side ∧
      (v'.status.isWorking = false →
        v'.executed = 0 ∨ ExecutionEngine.qtyEps < v'.executed) ∧
      (v.Acked = true → v'.Acked = true ∧ v'.executed = v.executed)) :
    d'.Booked := by
  obtain ⟨hpnl, hlast⟩ := Prod.mk.inj hacc
  have hbooked : d'.booked = d.booked := by
    funext n
    unfold booked
    rw [hlast, hx]
  have hdir : ∀ sym n, d'.direction sym n = d.direction sym n := by
    intro sym n
    unfold direction
    rcases hord n with he | ⟨v, v', hv, hv', hsym, hside, -⟩
    · rw [he]
    · rw [hv, hv']
      dsimp only
      rw [hsym, hside]
  refine ⟨?_, fun n v' hv' hidle => ?_, fun n hn hs => ?_, fun n hn hs => ?_, fun n hn => ?_,
    fun sym => ?_⟩
  · rw [hx]
    exact h.inj
  · rcases hord n with he | ⟨v, w, hv, hw, -, -, hc, -⟩
    · rw [he] at hv'
      exact h.coarse n v' hv' hidle
    · rw [hw] at hv'
      cases hv'
      exact hc hidle
  · rw [hseq] at hn
    rw [hbooked]
    exact h.tracked n hn (hrec n hn ▸ hs)
  · rw [hseq] at hn
    have hnone : (d.cell n).record = none := by
      have hiff := hrec n hn
      rw [hs] at hiff
      simpa using hiff.symm
    obtain ⟨v, hv, ha, hb⟩ := h.settled n hn hnone
    rw [hbooked]
    rcases hord n with he | ⟨v₀, v', hv₀, hv', -, -, -, hkeep⟩
    · exact ⟨v, he.trans hv, ha, hb⟩
    · rw [hv] at hv₀
      cases hv₀
      obtain ⟨ha', hex⟩ := hkeep ha
      exact ⟨v', hv', ha', hb.trans hex.symm⟩
  · rw [hseq] at hn
    rw [hbooked]
    exact h.unused n hn
  · rw [hpnl, hseq, h.qty sym]
    refine Finset.sum_congr rfl fun n _ => ?_
    rw [hdir, hbooked]

theorem Booked.of_eq (h : d.Booked) (hseq : d'.engine.seq = d.engine.seq)
    (hx : d'.orderId = d.orderId) (hacc : d'.engine.accounts = d.engine.accounts)
    (homs : d'.engine.oms = d.engine.oms) (hord : d'.exchange = d.exchange) : d'.Booked := by
  refine h.quiet hseq hx hacc (fun n _ => ?_) fun n => Or.inl (congrFun hord n)
  unfold cell
  rw [homs]

/-- New orders, and orders that are sent only now, have executed nothing. -/
theorem Booked.grow (h : d.Booked) (hseq : d.engine.seq ≤ d'.engine.seq)
    (hx : d'.orderId = d.orderId) (hacc : d'.engine.accounts = d.engine.accounts)
    (hrec : ∀ n < d.engine.seq, (d'.cell n).record.isSome = (d.cell n).record.isSome)
    (hnew : ∀ n, d.engine.seq ≤ n → n < d'.engine.seq → (d'.cell n).record.isSome = true)
    (hord : ∀ n, d'.exchange n = d.exchange n ∨
      d.booked n = 0 ∧ d.exchange n = none ∧ ∃ v, d'.exchange n = some v ∧ v.executed = 0) :
    d'.Booked := by
  obtain ⟨hpnl, hlast⟩ := Prod.mk.inj hacc
  have hbooked : d'.booked = d.booked := by
    funext n
    unfold booked
    rw [hlast, hx]
  have hterm : ∀ sym n, d'.direction sym n * d.booked n = d.direction sym n * d.booked n := by
    intro sym n
    rcases hord n with he | ⟨hb, -⟩
    · unfold direction
      rw [he]
    · rw [hb, mul_zero, mul_zero]
  refine ⟨?_, fun n v' hv' hidle => ?_, fun n hn hs => ?_, fun n hn hs => ?_, fun n hn => ?_,
    fun sym => ?_⟩
  · rw [hx]
    exact h.inj
  · rcases hord n with he | ⟨-, -, v, hv, hz⟩
    · rw [he] at hv'
      exact h.coarse n v' hv' hidle
    · rw [hv] at hv'
      cases hv'
      exact Or.inl hz
  · rw [hbooked]
    rcases lt_or_ge n d.engine.seq with hlt | hge
    · exact h.tracked n hlt (hrec n hlt ▸ hs)
    · exact h.unused n hge
  · rcases lt_or_ge n d.engine.seq with hlt | hge
    · have hnone : (d.cell n).record = none := by
        have hiff := hrec n hlt
        rw [hs] at hiff
        simpa using hiff.symm
      obtain ⟨v, hv, ha, hb⟩ := h.settled n hlt hnone
      rw [hbooked]
      rcases hord n with he | ⟨-, hnv, -⟩
      · exact ⟨v, he.trans hv, ha, hb⟩
      · rw [hv] at hnv
        cases hnv
    · have hsome := hnew n hge hn
      rw [hs] at hsome
      cases hsome
  · rw [hbooked]
    exact h.unused n (hseq.trans hn)
  · rw [hpnl, h.qty sym, hbooked, ← Finset.sum_range_add_sum_Ico _ hseq]
    have hzero : ∑ n ∈ Finset.Ico d.engine.seq d'.engine.seq,
        d'.direction sym n * d.booked n = 0 := by
      refine Finset.sum_eq_zero fun n hn => ?_
      rw [h.unused n (Finset.mem_Ico.mp hn).1, mul_zero]
    rw [hzero, add_zero]
    exact Finset.sum_congr rfl fun n _ => (hterm sym n).symm

theorem Booked.openOrder (h : d.Booked) (hd : d.Ok) (hk : KeysDistinct (d.engine.seq + 1))
    {leg : ArbLeg K} (hq : 0 < leg.qty) (price : K) (t : Clock) :
    (d.openOrder leg price t).Booked := by
  obtain ⟨-, ⟨v, r, ht⟩, hframe, -⟩ := hd.openOrder leg price t hk hq
  have hseq := openOrder_seq (d := d) leg price t
  refine h.grow hframe.seq hframe.orderId (openOrder_accounts leg price t) (fun n hn => ?_)
    (fun n hge hlt => ?_) fun n => ?_
  · rw [hframe.cell n hn List.not_mem_nil]
  · have hn : n = d.engine.seq := by omega
    rw [hn, ht.record]
    rfl
  · rw [openOrder_exchange]
    by_cases hn : n = d.engine.seq
    · subst hn
      exact Or.inr ⟨h.unused _ le_rfl, (hd.blank le_rfl hk).order, _, Function.update_self ..,
        rfl⟩
    · exact Or.inl (Function.update_of_ne hn ..)

/-! ## A release -/

theorem Booked.release {n : Nat} {v : VenueOrder K} (h : d.Booked)
    (hk : KeysDistinct d.engine.seq) (hn : n < d.engine.seq)
    (hseq : d'.engine.seq = d.engine.seq) (hx : d'.orderId = d.orderId)
    (hord : d'.exchange = d.exchange)
    (hrec : ∀ m, (d'.cell m).record = ((d.releaseTerminal n).cell m).record)
    (hv : d.exchange n = some v) (ha : v.Acked = true)
    (hbooked : ∀ m, d'.booked m = d.booked m + if m = n then v.executed else 0)
    (hsome : (d.cell n).record.isSome = true)
    (hqty : ∀ sym, (d'.engine.pnl.snapshot sym).qty =
      (d.engine.pnl.snapshot sym).qty + d.direction sym n * v.executed) : d'.Booked := by
  have hzero := h.tracked n hn hsome
  refine ⟨?_, fun m w hw hidle => ?_, fun m hm hs => ?_, fun m hm hs => ?_, fun m hm => ?_,
    fun sym => ?_⟩
  · rw [hx]
    exact h.inj
  · rw [hord] at hw
    exact h.coarse m w hw hidle
  · rw [hseq] at hm
    rw [hrec, record_releaseTerminal hk hn hm] at hs
    by_cases hmn : m = n
    · rw [if_pos hmn] at hs
      cases hs
    · rw [if_neg hmn] at hs
      rw [hbooked, if_neg hmn, add_zero]
      exact h.tracked m hm hs
  · rw [hseq] at hm
    rw [hrec, record_releaseTerminal hk hn hm] at hs
    split_ifs at hs with hmn
    · rw [hbooked, if_pos hmn, hmn, hzero, zero_add, hord]
      exact ⟨v, hv, ha, rfl⟩
    · rw [hbooked, if_neg hmn, add_zero, hord]
      exact h.settled m hm hs
  · rw [hseq] at hm
    have hmn : m ≠ n := fun he => absurd (he ▸ hn) (not_lt.mpr hm)
    rw [hbooked, if_neg hmn, add_zero]
    exact h.unused m hm
  · have hdir : ∀ m, d'.direction sym m = d.direction sym m := by
      intro m
      unfold direction
      rw [hord]
    calc (d'.engine.pnl.snapshot sym).qty
        = ∑ m ∈ Finset.range d.engine.seq, d.direction sym m * d.booked m +
            d.direction sym n * v.executed := by rw [hqty, h.qty]
      _ = ∑ m ∈ Finset.range d.engine.seq, (d.direction sym m * d.booked m +
            if m = n then d.direction sym m * v.executed else 0) := by
          rw [Finset.sum_add_distrib, Finset.sum_ite_eq' _ n,
            if_pos (Finset.mem_range.mpr hn)]
      _ = ∑ m ∈ Finset.range d'.engine.seq, d'.direction sym m * d'.booked m := by
          rw [hseq]
          refine Finset.sum_congr rfl fun m _ => ?_
          rw [hdir, hbooked, mul_add, mul_ite, mul_zero]

theorem Booked.settle_empty {n : Nat} {leg : ArbLeg K} {v : VenueOrder K} {r : OrderRecord K}
    (h : d.Booked) (hk : KeysDistinct d.engine.seq)
    (hn : n < d.engine.seq) (ht : d.Tracks n leg v r) (hterm : r.status.isTerminal = true)
    (hz : v.executed = 0) : (d.releaseTerminal n).Booked := by
  have hsome : (d.cell n).record.isSome = true := by rw [ht.record]; rfl
  refine h.release hk hn rfl rfl rfl (fun _ => rfl) ht.order ?_ (fun m => ?_) hsome
    fun sym => ?_
  · exact VenueOrder.acked_iff.mpr ⟨ht.knows.isClosed hterm, ht.knows.done hterm⟩
  · rw [hz, ite_self, add_zero]
    rfl
  · rw [hz, mul_zero, add_zero]
    rfl

variable [IsStrictOrderedRing K]

theorem applyFillPnl_qty (d : Desk K) (r : OrderRecord K) (leg : ArbLeg K)
    (hzero : (d.engine.lastFilled.lookup r.exchangeOrderId).getD 0 = 0)
    (hq : ExecutionEngine.qtyEps < r.filledQty) (hp : 0 < r.avgFillPrice) (sym : String) :
    ((d.applyFillPnl r leg).engine.pnl.snapshot sym).qty =
      (d.engine.pnl.snapshot sym).qty +
        if sym = leg.symbol then leg.side.signedDir * r.filledQty else 0 := by
  have heps : (0 : K) < ExecutionEngine.qtyEps := by
    unfold ExecutionEngine.qtyEps
    positivity
  have hcomm : ∀ (b : PnlBook K) (c : K),
      ((if ExecutionEngine.qtyEps < c then b.applyCommission leg.symbol c else b).snapshot
        sym).qty = (b.snapshot sym).qty := by
    intro b c
    split_ifs
    · exact PnlBook.snapshot_applyCommission_qty ..
    · rfl
  unfold applyFillPnl ExecutionEngine.applyFillPnl
  dsimp only
  rw [hcomm, hzero, sub_zero, if_pos ⟨hq, hp⟩,
    PnlBook.snapshot_applyFill_qty _ _ _ _ (heps.trans hq) hp]

/-- What a settled record with a fill is charged under and for. -/
theorem Tracks.charge {n : Nat} {leg : ArbLeg K} {v : VenueOrder K} {r : OrderRecord K}
    (ht : d.Tracks n leg v r) (hterm : r.status.isTerminal = true) (hne : v.executed ≠ 0) :
    r.exchangeOrderId = d.orderId n ∧ r.filledQty = v.executed ∧ 0 < r.avgFillPrice := by
  have hheard := ht.knows.heard_eq hterm
  have hfill := ht.knows.filledQty hterm
  have hident := ht.knows.ident
  have hcost := ht.knows.follows.cost
  rw [hheard] at hident hcost
  refine ⟨(hident (by rwa [hfill])).trans ht.isFor.orderId, hfill, ?_⟩
  rcases ht.sound.fills.notional_pos_or with ⟨hq, -⟩ | ⟨hq, hno⟩
  · exact absurd hq hne
  · unfold OrderRecord.cost at hcost
    rw [add_zero, hfill] at hcost
    exact pos_of_mul_pos_left (by rw [hcost]; exact hno) hq.le

section
variable {n : Nat} {leg : ArbLeg K} {v : VenueOrder K} {r : OrderRecord K}

theorem Booked.settle_filled (h : d.Booked) (hk : KeysDistinct d.engine.seq)
    (hn : n < d.engine.seq) (ht : d.Tracks n leg v r) (hterm : r.status.isTerminal = true)
    (hne : v.executed ≠ 0) : ((d.applyFillPnl r leg).releaseTerminal n).Booked := by
  obtain ⟨hid, hfill, havg⟩ := ht.charge hterm hne
  have hsome : (d.cell n).record.isSome = true := by rw [ht.record]; rfl
  have hzero : (d.engine.lastFilled.lookup r.exchangeOrderId).getD 0 = 0 := by
    rw [hid]
    exact h.tracked n hn hsome
  have hidle : v.status.isWorking = false := by
    by_contra hw
    have hopen := VenueStatus.not_isClosed_of_isWorking (by simpa using hw)
    rw [ht.knows.isClosed hterm] at hopen
    cases hopen
  have hcoarse : ExecutionEngine.qtyEps < r.filledQty := by
    rw [hfill]
    exact (h.coarse n v ht.order hidle).resolve_left hne
  refine h.release hk hn rfl rfl rfl (fun _ => rfl) ht.order ?_ (fun m => ?_) hsome
    fun sym => ?_
  · exact VenueOrder.acked_iff.mpr ⟨ht.knows.isClosed hterm, ht.knows.done hterm⟩
  · show ((d.engine.lastFilled.insert r.exchangeOrderId r.filledQty).lookup
      (d.orderId m)).getD 0 = _
    split_ifs with hmn
    · rw [hmn, h.tracked n hn hsome, hid, AList.lookup_insert, hfill, zero_add]
      rfl
    · have hne' : d.orderId m ≠ r.exchangeOrderId := by
        rw [hid]
        exact fun he => hmn (h.inj he)
      rw [AList.lookup_insert_ne hne', add_zero]
      rfl
  · show ((d.applyFillPnl r leg).engine.pnl.snapshot sym).qty = _
    rw [applyFillPnl_qty d r leg hzero hcoarse havg, hfill]
    have hv : d.exchange n = some v := ht.order
    unfold direction
    rw [hv]
    dsimp only
    rw [ht.isFor.symbol, ht.isFor.side, ite_mul, zero_mul]
    simp only [eq_comm]

theorem Booked.settle_partial (h : d.Booked) (hk : KeysDistinct d.engine.seq)
    (hn : n < d.engine.seq) (ht : d.Tracks n leg v r) (hterm : r.status.isTerminal = true) :
    ((d.applyPartial r leg).releaseTerminal n).Booked := by
  have hfill := ht.knows.filledQty hterm
  unfold applyPartial
  split_ifs with hpos
  · exact h.settle_filled hk hn ht hterm (by rw [← hfill]; exact hpos.ne')
  · refine h.settle_empty hk hn ht hterm (le_antisymm ?_ ht.sound.fills.executed_nonneg)
    rw [← hfill]
    exact not_lt.mp hpos

end

end Desk
end HoloMarket
