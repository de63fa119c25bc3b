import HoloMarket.Net.FillAccounting
import HoloMarket.Net.OpenOrders

/-!
# HedgeSizing: the hedge of a pair whose first leg was filled

The outcome of the leg that did not settle first may come from its channel, from
the store after the cancel, or from the channel after that, and an earlier race
may have taken the message.  A message is a copy of the record, and a settled
record shows what the order has filled in the end, so every way to the outcome
gives the same charge, the same release and the same hedge.
-/

namespace HoloMarket

variable {K : Type*} [Field K] [LinearOrder K]

namespace OrderRecord

/-- A fill has a price, and it is reported under the exchange order id `x`. -/
def Priced (x : Int) (r : OrderRecord K) : Prop :=
  0 < r.filledQty → 0 < r.avgFillPrice ∧ r.exchangeOrderId = x

/-- A settled record shows what the order has filled in the end, and a filled one
the quantity of the order. -/
structure Final (final : K) (r : OrderRecord K) : Prop where
  settled : r.status.isTerminal = true → r.filledQty = final
  filled : r.status = .Filled → r.filledQty = r.qty

instance (x : Int) (r : OrderRecord K) : Decidable (r.Priced x) :=
  inferInstanceAs (Decidable (_ → _))

instance (final : K) (r : OrderRecord K) : Decidable (r.Final final) :=
  decidable_of_iff ((r.status.isTerminal = true → r.filledQty = final) ∧
    (r.status = .Filled → r.filledQty = r.qty)) ⟨fun h => ⟨h.1, h.2⟩, fun h => ⟨h.1, h.2⟩⟩

omit [LinearOrder K] in
theorem final_fresh (final : K) (cid symbol : String) (side : Side) (price qty : K) (t : Clock) :
    (fresh cid symbol side price qty t).Final final := by
  constructor <;> rintro ⟨⟩

end OrderRecord

/-- The hedge has been sized, whether or not there was anything to hedge. -/
def PairPhase.isSized : PairPhase → Bool
  | .hedging .. | .ended _ => true
  | .racing | .partner _ | .resting _ => false

/-- The leg that was filled, while the cancel of the other one is not acknowledged. -/
def PairPc.awaitsResting : PairPc → Option LegIx
  | .awaitingResting first => some first
  | _ => none

/-! ## The conditions on a step -/

namespace World

/-- A timer of the pair `i` expires. -/
def DeskEvent.timesOut (i : Nat) : DeskEvent K → Bool
  | .engine (.resume j (.timeout _) _) => j == i
  | _ => false

/-- Every record of an order that is registered and not released is priced. -/
def AllPriced (orderId : Nat → Int) (w : World K) : Prop :=
  ∀ n ∈ w.live, ∀ r ∈ w.desk.engine.oms.get (orderKey n), r.Priced (orderId n)

/-- The records of the legs of the pair `i` that are not released are final. -/
def LegsFinal (final : LegIx → K) (i : Nat) (w : World K) : Prop :=
  ∀ p ∈ w.pairs[i]?, ∀ x : LegIx, p.id x ∈ w.live →
    ∀ r ∈ w.desk.engine.oms.get (orderKey (p.id x)), r.Final (final x)

/-- When the acknowledgement timer of the pair `i` expires after the cancel of the
resting leg, the record of that leg is settled. -/
def SettledInTime (i : Nat) (w : World K) (e : DeskEvent K) : Prop :=
  e.timesOut i = true → ∀ p ∈ w.pairs[i]?, ∀ first ∈ p.pc.awaitsResting,
    (w.desk.settledRecord (p.id first.other)).isSome = true

/-- Live client ids do not collide, exchange ids are those of `orderId`, and the legs
of the pair `i` end with the fills `final`. -/
structure SizingOk (orderId : Nat → Int) (final : LegIx → K) (i : Nat) (w : World K)
    (e : DeskEvent K) : Prop where
  keys : w.LiveKeys e
  priced : (w.deskStep e).elim True (AllPriced orderId)
  final : (w.deskStep e).elim True (LegsFinal final i)
  settled : w.SettledInTime i e

instance (orderId : Nat → Int) (w : World K) : Decidable (w.AllPriced orderId) :=
  inferInstanceAs (Decidable (∀ n ∈ w.live, ∀ r ∈ w.desk.engine.oms.get (orderKey n),
    r.Priced (orderId n)))

instance (final : LegIx → K) (i : Nat) (w : World K) : Decidable (w.LegsFinal final i) :=
  decidable_of_iff (∀ p ∈ w.pairs[i]?, ∀ x ∈ [LegIx.leg1, LegIx.leg2], p.id x ∈ w.live →
      ∀ r ∈ w.desk.engine.oms.get (orderKey (p.id x)), r.Final (final x))
    (forall₂_congr fun _ _ => ⟨fun h x => h x (by cases x <;> simp), fun h x _ => h x⟩)

instance (i : Nat) (w : World K) (e : DeskEvent K) : Decidable (w.SettledInTime i e) :=
  inferInstanceAs (Decidable (_ → _))

instance (orderId : Nat → Int) (final : LegIx → K) (i : Nat) (w : World K) (e : DeskEvent K) :
    Decidable (SizingOk orderId final i w e) :=
  decidable_of_iff (w.LiveKeys e ∧ (w.deskStep e).elim True (AllPriced orderId) ∧
      (w.deskStep e).elim True (LegsFinal final i) ∧ w.SettledInTime i e)
    ⟨fun ⟨h₁, h₂, h₃, h₄⟩ => ⟨h₁, h₂, h₃, h₄⟩, fun h => ⟨h.1, h.2, h.3, h.4⟩⟩

/-! ## What has been charged -/

/-- Records and messages of the orders that are left are priced, and nothing has been
charged for an order that is not released. -/
structure Charged (orderId : Nat → Int) (w : World K) : Prop where
  numbered : w.Numbered
  records : ∀ n ∈ w.live, ∀ r, w.desk.engine.oms.get (orderKey n) = some r →
    0 ≤ r.filledQty ∧ r.Priced (orderId n)
  messages : ∀ n ∈ w.live, ∀ m ∈ w.desk.engine.chans n, 0 ≤ m.filledQty ∧ m.Priced (orderId n)
  nonneg : ∀ x, 0 ≤ (w.desk.engine.lastFilled.lookup x).getD 0
  open_ : ∀ n, n ∈ w.live ∨ w.desk.engine.seq ≤ n →
    (w.desk.engine.lastFilled.lookup (orderId n)).getD 0 = 0

variable {w w' : World K} {orderId : Nat → Int} {e : DeskEvent K}

theorem Charged.learned (h : w.Charged orderId) {n : Nat} (hn : n ∈ w.live)
    {rec : OrderRecord K} (hl : w.desk.Learned n n rec) :
    0 ≤ rec.filledQty ∧ rec.Priced (orderId n) := by
  cases hl with
  | message hm => exact h.messages n hn rec hm
  | stored hr => exact h.records n hn rec hr
  | nothing _ he =>
    subst he
    exact ⟨le_rfl, fun hpos => absurd hpos (lt_irrefl 0)⟩

/-- An update leaves a record priced when the record afterwards is. -/
theorem Charged.update (h : w.Charged orderId) (hk : w.LiveKeys e) (hs : w.deskStep e = some w')
    {key : UInt64} {u : UpdateArgs K} (he : w'.desk.engine = w.desk.engine.applyUpdate key u)
    (hp : w'.pairs = w.pairs) (hpriced : w'.AllPriced orderId) : w'.Charged orderId := by
  have hlive := live_congr hp
  have hfilled : w'.desk.engine.lastFilled = w.desk.engine.lastFilled := by
    rw [he]
    exact (Prod.mk.inj (ExecutionEngine.applyUpdate_accounts ..)).2
  have hupd : ∀ n ∈ w.live, ∀ r, w.desk.engine.oms.get (orderKey n) = some r →
      0 ≤ (u.applyTo r).filledQty := fun n hn r hr =>
    (h.records n hn r hr).1.trans (UpdateArgs.filledQty_le_applyTo u r)
  refine ⟨h.numbered.step hk hs, fun n hn r hr => ⟨?_, hpriced n hn r hr⟩, fun n hn m hm => ?_,
    fun x => hfilled ▸ h.nonneg x, fun n hn => ?_⟩
  · rw [hlive] at hn
    rw [he, ExecutionEngine.get_applyUpdate] at hr
    split_ifs at hr with hkey
    · obtain ⟨r₀, hr₀, rfl⟩ := Option.map_eq_some_iff.mp hr
      exact hupd n hn r₀ (hkey ▸ hr₀)
    · exact (h.records n hn r hr).1
  · rw [he] at hm
    rcases h.numbered.listed.updated key u n with hc | ⟨hn', r, hr, hkey, hc⟩
    · rw [hc] at hm
      exact h.messages n (hlive ▸ hn) m hm
    · rw [hc] at hm
      rcases List.mem_append.mp hm with hm | hm
      · exact h.messages n hn' m hm
      · rw [List.mem_singleton.mp hm]
        refine ⟨hupd n hn' r hr, hpriced n hn _ ?_⟩
        rw [he, ExecutionEngine.get_applyUpdate, if_pos hkey, ← hkey, hr]
        rfl
  · rw [hfilled]
    rw [hlive, he, ExecutionEngine.applyUpdate_seq] at hn
    exact h.open_ n hn

/-- Orders that are left keep what they had, and what is charged is charged for an
order that goes. -/
theorem Charged.advance (h : w.Charged orderId) (hinj : Function.Injective orderId)
    (hk : w.LiveKeys e) (hs : w.deskStep e = some w') (ha : Advances w w')
    (hpriced : w'.AllPriced orderId) : w'.Charged orderId := by
  have hzero : (0 : K) ≤ 0 := le_rfl
  refine ⟨h.numbered.step hk hs, fun n hn r hr => ⟨?_, hpriced n hn r hr⟩, fun n hn m hm => ?_,
    fun x => ?_, fun n hn => ?_⟩
  · rcases ha.orders n hn with ⟨hold, hspare⟩ | ⟨-, -, hnew⟩
    · exact (h.records n hold r (hspare.record ▸ hr)).1
    · obtain ⟨leg, price, t, hfresh⟩ := hnew.record
      rw [← Option.some.inj (hfresh.symm.trans hr)]
      exact hzero
  · rcases ha.orders n hn with ⟨hold, hspare⟩ | ⟨-, -, hnew⟩
    · exact h.messages n hold m (hspare.chan.subset hm)
    · rw [hnew.chan] at hm
      cases hm
  · rcases ha.filled x with he | ⟨n, hn, -, rec, hl, -, he⟩
    · rw [he]
      exact h.nonneg x
    · rw [he]
      exact (h.learned hn hl).1
  · have hold : n ∈ w.live ∨ w.desk.engine.seq ≤ n := by
      rcases hn with hn | hn
      · exact (ha.orders n hn).imp (fun h => h.1) (fun h => h.1)
      · exact Or.inr (ha.seq.trans hn)
    rcases ha.filled (orderId n) with he | ⟨m, hm, hgone, rec, hl, hx, he⟩
    · rw [he]
      exact h.open_ n hold
    · rw [he]
      obtain ⟨hnonneg, hprice⟩ := h.learned hm hl
      rcases hnonneg.eq_or_lt with hz | hpos
      · exact hz.symm
      · -- a record with a fill is charged under the id of its own order
        have hmn : n = m := hinj (hx.trans (hprice hpos).2)
        subst hmn
        rcases hn with hn | hn
        · exact absurd hn hgone
        · have hlt := h.numbered.lt n hm
          have hseq := ha.seq
          omega

theorem Charged.step (h : w.Charged orderId) (hinj : Function.Injective orderId)
    (hk : w.LiveKeys e) (hpriced : (w.deskStep e).elim True (AllPriced orderId))
    (hs : w.deskStep e = some w') : w'.Charged orderId := by
  rw [hs] at hpriced
  rcases h.numbered.cases hk hs with ⟨⟨key, u, he⟩, hp⟩ | ha
  · exact h.update hk hs he hp hpriced
  · exact h.advance hinj hk hs ha hpriced

end World

/-! ## What a charge sends to the book -/

/-- What the book receives when a fill of `q` is charged to a leg: nothing for one that
`apply_fill_pnl` ignores. -/
def ArbLeg.receipts (leg : ArbLeg K) (q : K) : List (String × Side × K) :=
  if ExecutionEngine.qtyEps < q then [(leg.symbol, leg.side, q)] else []

/-- What is sent for a leg whose own order has filled `q`. -/
def ArbLeg.hedgesFor (leg : ArbLeg K) (q : K) : List (ArbLeg K) :=
  if leg.qty - q ≤ ExecutionEngine.qtyEps then [] else [{ leg with qty := leg.qty - q }]

namespace Desk

variable {d : Desk K} {rec : OrderRecord K} {leg : ArbLeg K} {x : Int} {n m : Nat}

theorem received_fillCalls_ne (hne : n ≠ m) (rec : OrderRecord K) (leg : ArbLeg K) :
    (d.fillCalls rec n leg).filterMap (PairCall.received m) = [] :=
  filterMap_fillCalls fun c => by
    cases c with
    | applyFill => exact if_neg hne
    | applyCommission => rfl

theorem received_partialCalls_ne (hne : n ≠ m) (rec : OrderRecord K) (leg : ArbLeg K) :
    (d.partialCalls rec n leg).filterMap (PairCall.received m) = [] :=
  filterMap_partialCalls fun c => by
    cases c with
    | applyFill => exact if_neg hne
    | applyCommission => rfl

variable [IsStrictOrderedRing K]

/-- The first charge under an exchange order id is for all of the fill. -/
theorem received_fillCalls (hnonneg : 0 ≤ rec.filledQty) (hprice : rec.Priced x)
    (hopen : (d.engine.lastFilled.lookup x).getD 0 = 0)
    (hmap : ∀ y, 0 ≤ (d.engine.lastFilled.lookup y).getD 0) (n : Nat) (leg : ArbLeg K) :
    (d.fillCalls rec n leg).filterMap (PairCall.received n) = leg.receipts rec.filledQty := by
  have heps : (0 : K) < ExecutionEngine.qtyEps := ExecutionEngine.qtyEps_pos
  have hfill : (ExecutionEngine.qtyEps < rec.filledQty -
      (d.engine.lastFilled.lookup rec.exchangeOrderId).getD 0 ∧ 0 < rec.avgFillPrice) ↔
        ExecutionEngine.qtyEps < rec.filledQty := by
    rcases hnonneg.eq_or_lt with hz | hpos
    · rw [← hz, zero_sub]
      have hneg := neg_nonpos.mpr (hmap rec.exchangeOrderId)
      exact ⟨fun h => absurd (heps.trans h.1) (not_lt.mpr hneg),
        fun h => absurd (heps.trans h) (lt_irrefl 0)⟩
    · obtain ⟨havg, hid⟩ := hprice hpos
      rw [hid, hopen, sub_zero]
      exact and_iff_left havg
  have hcomm : ∀ c : K, (if ExecutionEngine.qtyEps < c then
      [PnlCall.applyCommission leg.symbol c] else []).filterMap
        (PairCall.received n ∘ .book n) = [] := by
    intro c
    split_ifs <;> rfl
  unfold fillCalls ExecutionEngine.pnlCalls LegFill.filledQty LegFill.commission
    LegFill.exchangeOrderId LegFill.symbol ArbLeg.receipts
  dsimp only
  rw [List.filterMap_map, List.filterMap_append, hcomm, List.append_nil]
  by_cases hlt : ExecutionEngine.qtyEps < rec.filledQty
  · have hzero : (d.engine.lastFilled.lookup rec.exchangeOrderId).getD 0 = 0 := by
      rw [(hprice (heps.trans hlt)).2]
      exact hopen
    rw [if_pos (hfill.mpr hlt), if_pos hlt, hzero, sub_zero]
    simp [PairCall.received]
  · rw [if_neg fun h => hlt (hfill.mp h), if_neg hlt]
    rfl

/-! ## The outcome of a leg -/

/-- What a settled record of a leg tells, when nothing has been charged for it: the fill
it ended with, which is that of a filled order where it was filled. -/
structure Outcome (d : Desk K) (x : Int) (leg : ArbLeg K) (final : K) (rec : OrderRecord K) :
    Prop where
  fill : rec.filledQty = final
  nonneg : 0 ≤ rec.filledQty
  priced : rec.Priced x
  qty : rec.qty = leg.qty
  filled : rec.status = .Filled → rec.filledQty = rec.qty
  uncharged : (d.engine.lastFilled.lookup x).getD 0 = 0
  charges : ∀ y, 0 ≤ (d.engine.lastFilled.lookup y).getD 0

section
variable {final : K}

theorem Outcome.received_fillCalls (h : d.Outcome x leg final rec) (n : Nat) :
    (d.fillCalls rec n leg).filterMap (PairCall.received n) = leg.receipts final := by
  rw [Desk.received_fillCalls h.nonneg h.priced h.uncharged h.charges, h.fill]

theorem Outcome.received_partialCalls (h : d.Outcome x leg final rec) (n : Nat) :
    (d.partialCalls rec n leg).filterMap (PairCall.received n) = leg.receipts final := by
  unfold partialCalls
  split_ifs with hpos
  · exact h.received_fillCalls n
  · have hsmall : ¬ExecutionEngine.qtyEps < final := by
      rw [← h.fill]
      exact fun hlt => hpos (ExecutionEngine.qtyEps_pos.trans hlt)
    exact (if_neg hsmall).symm

omit [IsStrictOrderedRing K] in
theorem Outcome.hedged {p : PairTask K} {first : LegIx}
    (h : d.Outcome x (p.leg first.other) final rec) :
    ((d.hedgeCalls p first (rec.qty - rec.filledQty)).filterMap PairCall.hedged).map Prod.snd =
      (p.leg first.other).hedgesFor final := by
  unfold hedgeCalls ArbLeg.hedgesFor
  rw [h.qty, h.fill]
  split_ifs <;> rfl

/-- A filled order leaves nothing to hedge. -/
theorem Outcome.hedgesFor_filled (h : d.Outcome x leg final rec) (hf : rec.status = .Filled) :
    leg.hedgesFor final = [] := by
  have hzero : leg.qty - final = 0 := by
    rw [← h.qty, ← h.fill, h.filled hf, sub_self]
  exact if_pos (hzero.trans_le ExecutionEngine.qtyEps_pos.le)

end

/-! ## The calls of one leg -/

/-- The calls book the leg that did not settle first for its whole fill, release it,
and hedge what it left. -/
structure OtherDone (final : K) (p : PairTask K) (first : LegIx) (cs : List (PairCall K)) :
    Prop where
  received : cs.filterMap (PairCall.received (p.id first.other)) =
    (p.leg first.other).receipts final
  firstLeg : cs.filterMap (PairCall.received (p.id first)) = []
  released : cs.filterMap PairCall.released = [p.id first.other]
  hedged : (cs.filterMap PairCall.hedged).map Prod.snd = (p.leg first.other).hedgesFor final

section
variable {p : PairTask K} {first : LegIx} {final : K}
  (h : d.Outcome x (p.leg first.other) final rec) (hne : p.id first.other ≠ p.id first)

omit [IsStrictOrderedRing K] in
theorem received_hedgeCalls (remaining : K) :
    (d.hedgeCalls p first remaining).filterMap (PairCall.received n) = [] := by
  unfold hedgeCalls
  split_ifs <;> rfl

include h hne

theorem Outcome.racedCalls_done : OtherDone final p first (d.racedCalls p first rec) := by
  unfold racedCalls
  split_ifs with hf
  · constructor
    · rw [List.filterMap_append, h.received_fillCalls]
      exact List.append_nil _
    · rw [List.filterMap_append, received_fillCalls_ne hne]
      rfl
    · rw [List.filterMap_append, filterMap_fillCalls fun _ => rfl]
      rfl
    · rw [List.filterMap_append, filterMap_fillCalls fun _ => rfl, h.hedgesFor_filled hf]
      rfl
  · constructor
    · rw [List.filterMap_append, h.received_partialCalls, List.filterMap_cons, received_hedgeCalls]
      exact List.append_nil _
    · rw [List.filterMap_append, received_partialCalls_ne hne, List.filterMap_cons,
        received_hedgeCalls]
      rfl
    · rw [List.filterMap_append, filterMap_partialCalls fun _ => rfl, List.filterMap_cons,
        released_hedgeCalls]
      rfl
    · rw [List.filterMap_append, filterMap_partialCalls fun _ => rfl, List.filterMap_cons]
      exact h.hedged

theorem Outcome.restingCalls_done : OtherDone final p first (d.restingCalls p first rec) := by
  unfold restingCalls
  split_ifs with hf
  · constructor
    · rw [List.filterMap_cons]
      exact h.received_fillCalls _
    · rw [List.filterMap_cons]
      exact received_fillCalls_ne hne _ _
    · rw [List.filterMap_cons, filterMap_fillCalls fun _ => rfl]
      rfl
    · rw [List.filterMap_cons, filterMap_fillCalls fun _ => rfl, h.hedgesFor_filled hf]
      rfl
  · constructor
    · rw [List.filterMap_cons, List.filterMap_append, received_hedgeCalls, List.append_nil]
      exact h.received_partialCalls _
    · rw [List.filterMap_cons, List.filterMap_append, received_hedgeCalls, List.append_nil]
      exact received_partialCalls_ne hne _ _
    · rw [List.filterMap_cons, List.filterMap_append, filterMap_partialCalls fun _ => rfl,
        released_hedgeCalls]
      rfl
    · rw [List.filterMap_cons, List.filterMap_append, filterMap_partialCalls fun _ => rfl]
      exact h.hedged

end

end Desk

/-! ## The history of a pair -/

namespace PairTask

variable (final : LegIx → K) (p : PairTask K) (first : LegIx) (cs : List (PairCall K))

/-- The first leg is booked and released, and nothing has been done for the other. -/
structure FirstDone : Prop where
  received : cs.filterMap (PairCall.received (p.id first)) =
    (p.leg first).receipts (final first)
  other : cs.filterMap (PairCall.received (p.id first.other)) = []
  released : cs.filterMap PairCall.released = [p.id first]
  hedged : cs.filterMap PairCall.hedged = []

/-- Each leg is booked once for what its order filled in the end, and released once;
what the order that did not settle first left is hedged. -/
structure BothDone : Prop where
  received : ∀ x, cs.filterMap (PairCall.received (p.id x)) = (p.leg x).receipts (final x)
  released : ∀ x, (cs.filterMap PairCall.released).count (p.id x) = 1
  hedged : (cs.filterMap PairCall.hedged).map Prod.snd =
    (p.leg first.other).hedgesFor (final first.other)

/-- Both legs have settled, and `first` was the first. -/
def Closed : Prop :=
  ∃ s, cs.head? = some (.settled first s) ∧ (s = .Filled → p.BothDone final first cs)

def History : PairPhase → Prop
  | .racing => cs = []
  | .partner first => ∃ s, cs.head? = some (.settled first s) ∧ s ≠ .Filled
  | .resting first => cs.head? = some (.settled first .Filled) ∧ p.FirstDone final first cs
  | .hedging first h => (∀ x, p.id x ≠ h) ∧ p.Closed final first cs
  | .ended first => p.Closed final first cs

variable {final p first cs} {d : Desk K} {cs' : List (PairCall K)}

theorem FirstDone.both (h : p.FirstDone final first cs) (hne : p.id first.other ≠ p.id first)
    (h' : Desk.OtherDone (final first.other) p first cs') :
    p.BothDone final first (cs ++ cs') := by
  have hlegs : ∀ x, x = first ∨ x = first.other := by
    intro x
    cases x <;> cases first <;> simp [LegIx.other]
  have hreleased : (cs ++ cs').filterMap PairCall.released = [p.id first, p.id first.other] := by
    rw [List.filterMap_append, h.released, h'.released]
    rfl
  refine ⟨fun x => ?_, fun x => ?_, ?_⟩
  · rw [List.filterMap_append]
    rcases hlegs x with rfl | rfl
    · rw [h.received, h'.firstLeg, List.append_nil]
    · rw [h.other, h'.received]
      rfl
  · rw [hreleased]
    rcases hlegs x with rfl | rfl
    · rw [List.count_cons_self, List.count_cons_of_ne hne]
      rfl
    · rw [List.count_cons_of_ne hne.symm, List.count_cons_self]
      rfl
  · rw [List.filterMap_append, h.hedged]
    exact h'.hedged

theorem Closed.withPc (h : p.Closed final first cs) (pc : PairPc) :
    ({ p with pc := pc } : PairTask K).Closed final first cs := by
  obtain ⟨s, hs, hdone⟩ := h
  refine ⟨s, hs, fun hf => ?_⟩
  obtain ⟨hreceived, hreleased, hhedged⟩ := hdone hf
  exact ⟨hreceived, hreleased, hhedged⟩

/-- The history is about the legs of the pair and not about where it stands. -/
theorem History.withPc {φ : PairPhase} (h : p.History final cs φ) (pc : PairPc) :
    ({ p with pc := pc } : PairTask K).History final cs φ := by
  cases φ with
  | racing | partner => exact h
  | resting first =>
    obtain ⟨hhead, hreceived, hother, hreleased, hhedged⟩ := h
    exact ⟨hhead, hreceived, hother, hreleased, hhedged⟩
  | hedging first n => exact ⟨h.1, h.2.withPc pc⟩
  | ended first => exact Closed.withPc h pc

theorem Closed.append (h : p.Closed final first cs)
    (hr : ∀ x, cs'.filterMap (PairCall.received (p.id x)) = [])
    (hl : ∀ x, p.id x ∉ cs'.filterMap PairCall.released)
    (hh : cs'.filterMap PairCall.hedged = []) : p.Closed final first (cs ++ cs') := by
  obtain ⟨s, hs, hdone⟩ := h
  refine ⟨s, ?_, fun hf => ?_⟩
  · rw [List.head?_append, hs]
    rfl
  · obtain ⟨hreceived, hreleased, hhedged⟩ := hdone hf
    refine ⟨fun x => ?_, fun x => ?_, ?_⟩
    · rw [List.filterMap_append, hr, List.append_nil]
      exact hreceived x
    · rw [List.filterMap_append, List.count_append, List.count_eq_zero_of_not_mem (hl x)]
      exact hreleased x
    · rw [List.filterMap_append, hh, List.append_nil]
      exact hhedged

end PairTask

namespace Desk

variable {d d' : Desk K} {p : PairTask K} {pc' : PairPc} {r : Resumption} {t : Clock}
  {cs cs' : List (PairCall K)} {final : LegIx → K} {ids : LegIx → Int} [IsStrictOrderedRing K]

theorem Outcome.firstCalls_done {rec : OrderRecord K} {first : LegIx}
    (h : d.Outcome (ids first) (p.leg first) (final first) rec)
    (hne : p.id first ≠ p.id first.other) (hf : rec.status = .Filled) :
    p.FirstDone final first (d.firstCalls p first rec) := by
  unfold firstCalls
  rw [if_neg (not_not.mpr hf)]
  constructor
  · rw [List.filterMap_cons, List.filterMap_append, h.received_fillCalls]
    exact List.append_nil _
  · rw [List.filterMap_cons, List.filterMap_append, received_fillCalls_ne hne]
    rfl
  · rw [List.filterMap_cons, List.filterMap_append, filterMap_fillCalls fun _ => rfl]
    rfl
  · rw [List.filterMap_cons, List.filterMap_append, filterMap_fillCalls fun _ => rfl]
    rfl

omit [LinearOrder K] [IsStrictOrderedRing K] in
/-- What the store is asked for after the timer is settled when the record is. -/
theorem isTerminal_lastKnown {n : Nat} (h : (d.settledRecord n).isSome = true) :
    (d.lastKnown n).status.isTerminal = true := by
  obtain ⟨rec, hrec⟩ := Option.isSome_iff_exists.mp h
  obtain ⟨hget, hterm⟩ := Option.filter_eq_some_iff.mp hrec
  unfold lastKnown
  rw [hget]
  exact hterm

/-- Whatever the source of an outcome and whatever has been lost, the history goes on
in the same way. -/
theorem Goes.history (h : Goes d p r t cs' d' pc') (hh : p.History final cs p.pc.phase)
    (hids : p.id1 ≠ p.id2) (hlt : ∀ x, p.id x < d.engine.seq) (hchan : ∀ x, p.chan x = p.id x)
    (hout : ∀ x rec, p.id x ∈ p.openAt p.pc.phase → d.Learned (p.id x) (p.id x) rec →
      rec.status.isTerminal = true → d.Outcome (ids x) (p.leg x) (final x) rec)
    (hack : ∀ first lost, p.pc = .awaitingResting first → r = .timeout lost →
      (d.settledRecord (p.id first.other)).isSome = true) :
    p.History final (cs ++ cs') pc'.phase := by
  have hne : ∀ x : LegIx, p.id x.other ≠ p.id x := by
    intro x
    cases x with
    | leg1 => exact hids.symm
    | leg2 => exact hids
  -- the resting leg closes the pair, whichever branch its outcome comes through
  have hclose : ∀ (x : LegIx) (rec : OrderRecord K) (pc : PairPc), p.pc.phase = .resting x →
      Closes d p x rec cs' pc → OtherDone (final x.other) p x cs' →
        p.History final (cs ++ cs') pc.phase := by
    intro x rec pc hpc hcloses hdone
    rw [hpc] at hh
    obtain ⟨hhead, hfirst⟩ := hh
    have hclosed : p.Closed final x (cs ++ cs') := by
      refine ⟨.Filled, ?_, fun _ => hfirst.both (hne x) hdone⟩
      rw [List.head?_append, hhead]
      rfl
    rcases hcloses.hedged with ⟨-, hphase⟩ | ⟨-, hphase⟩
    · rw [hphase]
      exact hclosed
    · rw [hphase]
      exact ⟨fun y => (hlt y).ne, hclosed⟩
  cases h with
  | waits hw hpc =>
    rw [List.append_nil, hpc]
    exact hh
  | @first d₁ rec x hpc hw hm ht =>
    rw [hpc] at hh
    cases hh
    rw [hchan] at hm
    have hmem : p.id x ∈ p.openAt p.pc.phase := by
      rw [hpc]
      cases x <;> simp [PairTask.openAt, PairTask.id]
    have ho := hout x rec hmem (.message hm ht) ht
    show p.History final (d.firstCalls p x rec) _
    unfold firstSettled
    split_ifs with hf
    · exact ⟨rec.status, rfl, hf⟩
    · have hfilled := not_not.mp hf
      refine ⟨?_, ho.firstCalls_done (hne x).symm hfilled⟩
      rw [← hfilled]
      rfl
  | @partner d₁ rec x hpc hw hl =>
    rw [hpc] at hh
    obtain ⟨s, hs, hnf⟩ := hh
    have hclosed : p.Closed final x (cs ++ d.partnerCalls p x rec) := by
      refine ⟨s, ?_, fun hf => absurd hf hnf⟩
      rw [List.head?_append, hs]
      rfl
    rcases (partnerSettled_closes x rec hw t).hedged with ⟨-, hphase⟩ | ⟨-, hphase⟩
    · rw [hphase]
      exact hclosed
    · rw [hphase]
      exact ⟨fun y => (hlt y).ne, hclosed⟩
  | raced x hpc hw hl ht =>
    rw [hchan] at hl
    have ho := hout x.other _ (by rw [hpc]; exact List.mem_cons_self) hl ht
    exact hclose x _ _ hpc (restingRaced_closes x _ hw t) (ho.racedCalls_done (hne x))
  | @resting d₁ rec x hpc hw hl hlate =>
    rw [hchan] at hl
    have ht : rec.status.isTerminal = true := by
      rcases hlate with ht | ⟨hpc', ⟨lost, hr⟩, he⟩
      · exact ht
      · rw [he]
        exact isTerminal_lastKnown (hack x lost hpc' hr)
    have ho := hout x.other _ (by rw [hpc]; exact List.mem_cons_self) hl ht
    exact hclose x _ _ hpc (restingSettled_closes x _ hw t) (ho.restingCalls_done (hne x))
  | @hedge d₁ rec x n c hpc hw hm ht =>
    rw [hpc] at hh
    obtain ⟨hn, hclosed⟩ := hh
    refine hclosed.append (fun y => ?_) (fun y => ?_) ?_
    · unfold watchCalls
      rw [List.filterMap_append, received_partialCalls_ne (hn y).symm]
      rfl
    · unfold watchCalls
      rw [List.filterMap_append, filterMap_partialCalls fun _ => rfl]
      exact fun hmem => hn y (List.mem_singleton.mp hmem)
    · unfold watchCalls
      rw [List.filterMap_append, filterMap_partialCalls fun _ => rfl]
      rfl

end Desk

/-! ## Runs -/

namespace World

variable {w w' : World K} {orderId : Nat → Int} {final : LegIx → K} {i : Nat} {e : DeskEvent K}

/-- A leg that is not released has its own quantity and the fill `final` in its record
and in every message. -/
structure LegKnown (w : World K) (p : PairTask K) (final : K) (x : LegIx) : Prop where
  records : ∀ r, w.desk.engine.oms.get (orderKey (p.id x)) = some r →
    r.qty = (p.leg x).qty ∧ r.Final final
  messages : ∀ m ∈ w.desk.engine.chans (p.id x), m.qty = (p.leg x).qty ∧ m.Final final

/-- What is known of the pair `i` after the calls `cs`. -/
structure Known (w : World K) (final : LegIx → K) (p : PairTask K) (cs : List (PairCall K)) :
    Prop where
  ids : p.id1 ≠ p.id2
  lt : ∀ x, p.id x < w.desk.engine.seq
  legs : ∀ x, p.id x ∈ w.live → w.LegKnown p (final x) x
  history : p.History final cs p.pc.phase

/-- The invariant of a run in which the pair `i` has made the calls `cs`. -/
structure Sized (orderId : Nat → Int) (final : LegIx → K) (i : Nat) (w : World K)
    (cs : List (PairCall K)) : Prop where
  charged : w.Charged orderId
  none_ : w.pairs[i]? = none → cs = []
  pair : ∀ p, w.pairs[i]? = some p → w.Known final p cs

/-- An update keeps what is known of a leg when its record stays final. -/
theorem LegKnown.update {p : PairTask K} {x : LegIx} {φ : K} (h : w.LegKnown p φ x)
    (hl : w.Listed) {key : UInt64} {u : UpdateArgs K}
    (he : w'.desk.engine = w.desk.engine.applyUpdate key u)
    (hfinal : ∀ r ∈ w'.desk.engine.oms.get (orderKey (p.id x)), r.Final φ) :
    w'.LegKnown p φ x := by
  have hqty : ∀ r, w.desk.engine.oms.get (orderKey (p.id x)) = some r →
      (u.applyTo r).qty = (p.leg x).qty := fun r hr =>
    (OrderRecord.update_qty ..).trans (h.records r hr).1
  refine ⟨fun r hr => ⟨?_, hfinal r hr⟩, fun m hm => ?_⟩
  · rw [he, ExecutionEngine.get_applyUpdate] at hr
    split_ifs at hr with hkey
    · obtain ⟨r₀, hr₀, rfl⟩ := Option.map_eq_some_iff.mp hr
      exact hqty r₀ (hkey ▸ hr₀)
    · exact (h.records r hr).1
  · rw [he] at hm
    rcases hl.updated key u (p.id x) with hc | ⟨-, r, hr, hkey, hc⟩
    · rw [hc] at hm
      exact h.messages m hm
    · rw [hc] at hm
      rcases List.mem_append.mp hm with hm | hm
      · exact h.messages m hm
      · rw [List.mem_singleton.mp hm]
        refine ⟨hqty r hr, hfinal _ ?_⟩
        rw [he, ExecutionEngine.get_applyUpdate, if_pos hkey, ← hkey, hr]
        rfl

omit [Field K] [LinearOrder K] in
theorem LegKnown.spares {p : PairTask K} {x : LegIx} {φ : K} (h : w.LegKnown p φ x)
    (hs : Desk.Spares w.desk w'.desk (p.id x)) : w'.LegKnown p φ x :=
  ⟨fun r hr => h.records r (hs.record ▸ hr), fun m hm => h.messages m (hs.chan.subset hm)⟩

/-- What is known of the legs stays known while the orders advance. -/
theorem Known.legs_advance {p : PairTask K} {cs : List (PairCall K)} (h : w.Known final p cs)
    (ha : Advances w w') {x : LegIx} (hx : p.id x ∈ w'.live) : w'.LegKnown p (final x) x := by
  rcases ha.orders (p.id x) hx with ⟨hold, hspare⟩ | ⟨hge, -⟩
  · exact (h.legs x hold).spares hspare
  · exact absurd (h.lt x) (not_lt.mpr hge)

omit [Field K] [LinearOrder K] in
theorem mem_live {p : PairTask K} (hp : w.pairs[i]? = some p) {n : Nat}
    (hn : n ∈ p.openAt p.pc.phase) : n ∈ w.live :=
  List.mem_flatMap.mpr ⟨p, List.mem_of_getElem? hp, PairTask.unreleased_eq p p.pc ▸ hn⟩

theorem NewPair.known {p : PairTask K} (h : NewPair w w' p) (hnum : w.Numbered)
    (ha : Advances w w') (hp : w'.pairs[i]? = some p) : w'.Known final p [] := by
  obtain ⟨h₁, h₂⟩ := h.ids
  have hge : ∀ x, w.desk.engine.seq ≤ p.id x := by
    intro x
    cases x <;> simp only [PairTask.id] <;> omega
  have hlive : ∀ x, p.id x ∈ w'.live := by
    intro x
    refine mem_live hp ?_
    rw [h.pc]
    cases x <;> simp [PairTask.openAt, PairPc.phase, PairTask.id]
  have hnew : ∀ x, p.id x < w'.desk.engine.seq ∧ w'.desk.New (p.id x) := by
    intro x
    rcases ha.orders (p.id x) (hlive x) with ⟨hold, -⟩ | ⟨-, hnew⟩
    · exact absurd (hnum.lt _ hold) (not_lt.mpr (hge x))
    · exact hnew
  refine ⟨by omega, fun x => (hnew x).1, fun x _ => ⟨fun r hr => ?_, fun m hm => ?_⟩, ?_⟩
  · obtain ⟨price, t, hfresh⟩ := h.record x
    rw [← Option.some.inj (hfresh.symm.trans hr)]
    exact ⟨rfl, OrderRecord.final_fresh ..⟩
  · rw [(hnew x).2.chan] at hm
    cases hm
  · rw [h.pc]
    rfl

theorem Sized.idle {cs : List (PairCall K)} (h : w.Sized orderId final i cs)
    (hc : w'.Charged orderId) (ha : Advances w w')
    (hp : ∀ p, w.pairs[i]? = some p → w'.pairs[i]? = some p) : w'.Sized orderId final i cs := by
  have hback : ∀ p, w'.pairs[i]? = some p → w.pairs[i]? = some p ∨ w.pairs[i]? = none := by
    intro p hp'
    cases hq : w.pairs[i]? with
    | none => exact Or.inr rfl
    | some q => exact Or.inl ((hp q hq).symm.trans hp')
  refine ⟨hc, fun hno => h.none_ ?_, fun p hp' => ?_⟩
  · cases hq : w.pairs[i]? with
    | none => rfl
    | some q =>
      rw [hp q hq] at hno
      cases hno
  · rcases hback p hp' with hold | hno
    · have hk := h.pair p hold
      exact ⟨hk.ids, fun x => (hk.lt x).trans_le ha.seq, fun x hx => hk.legs_advance ha hx,
        hk.history⟩
    · rw [h.none_ hno]
      exact (ha.pairs i p hp' hno).known h.charged.numbered ha hp'

/-- What is learned of a leg is its outcome. -/
theorem Sized.outcome {cs : List (PairCall K)} (h : w.Sized orderId final i cs) {p : PairTask K}
    (hp : w.pairs[i]? = some p) {x : LegIx} {rec : OrderRecord K}
    (hx : p.id x ∈ p.openAt p.pc.phase) (hl : w.desk.Learned (p.id x) (p.id x) rec)
    (ht : rec.status.isTerminal = true) :
    w.desk.Outcome (orderId (p.id x)) (p.leg x) (final x) rec := by
  have hlive := mem_live hp hx
  obtain ⟨hnonneg, hpriced⟩ := h.charged.learned hlive hl
  have hleg := (h.pair p hp).legs x hlive
  obtain ⟨hqty, hfinal⟩ : rec.qty = (p.leg x).qty ∧ rec.Final (final x) := by
    cases hl with
    | message hm => exact hleg.messages rec hm
    | stored hr => exact hleg.records rec hr
    | nothing _ he =>
      subst he
      cases ht
  exact ⟨hfinal.settled ht, hnonneg, hpriced, hqty, hfinal.filled,
    h.charged.open_ _ (Or.inl hlive), h.charged.nonneg⟩

variable [IsStrictOrderedRing K]

theorem Sized.step {cs : List (PairCall K)} (h : w.Sized orderId final i cs)
    (hinj : Function.Injective orderId) (hok : SizingOk orderId final i w e)
    (hs : w.deskStep e = some w') : w'.Sized orderId final i (cs ++ w.pairCalls i e) := by
  have hcharged := h.charged.step hinj hok.keys hok.priced hs
  rcases h.charged.numbered.forms hok.keys hs with ⟨⟨key, u, he⟩, hp, hcalls⟩ |
    ⟨ha, ⟨⟨l, hp⟩, hcalls⟩ | ⟨j, p, r, t, d, pc, rfl, hp, hresume, rfl⟩⟩
  · -- an update: the records of the legs are still final
    have hfinal := hok.final
    rw [hs] at hfinal
    rw [hcalls, List.append_nil]
    refine ⟨hcharged, fun hno => h.none_ (hp ▸ hno), fun p hp' => ?_⟩
    have hk := h.pair p (hp ▸ hp')
    refine ⟨hk.ids, fun x => ?_, fun x hx => ?_, hk.history⟩
    · rw [he, ExecutionEngine.applyUpdate_seq]
      exact hk.lt x
    · exact (hk.legs x (live_congr hp ▸ hx)).update h.charged.numbered.listed he
        (hfinal p hp' x hx)
  · rw [hcalls, List.append_nil]
    refine h.idle hcharged ha fun p hp' => ?_
    rw [hp, List.getElem?_append_left (List.getElem?_eq_some_iff.mp hp').1]
    exact hp'
  · by_cases hij : j = i
    · subst hij
      have hcalls := pairCalls_resume r t hp
      have hk := h.pair p hp
      have hlen := (List.getElem?_eq_some_iff.mp hp).1
      have hhist := (Desk.resume_goes hresume).history hk.history hk.ids hk.lt
        (h.charged.numbered.listed.chan hp) (fun x rec => h.outcome hp) fun first lost hpc hr => by
          subst hr
          refine hok.settled (beq_self_eq_true j) p hp first ?_
          rw [hpc]
          rfl
      rw [hcalls]
      refine ⟨hcharged, fun hno => ?_, fun q hq => ?_⟩
      · rw [List.getElem?_set_self hlen] at hno
        cases hno
      · rw [List.getElem?_set_self hlen] at hq
        cases hq
        refine ⟨hk.ids, fun x => (hk.lt x).trans_le ha.seq, fun x hx => ?_, ?_⟩
        · have hleg := hk.legs_advance ha hx
          exact ⟨hleg.records, hleg.messages⟩
        · exact hhist.withPc pc
    · have hcalls : w.pairCalls i (.engine (.resume j r t)) = [] := if_neg hij
      rw [hcalls, List.append_nil]
      refine h.idle hcharged ha fun q hq => ?_
      rw [List.getElem?_set_ne hij]
      exact hq

omit [IsStrictOrderedRing K] in
theorem init_sized (maxOpenOrders : Nat) :
    (init maxOpenOrders orderId : World K).Sized orderId final i [] where
  charged :=
    { numbered := init_numbered maxOpenOrders orderId
      records := fun _ hn => absurd hn List.not_mem_nil
      messages := fun _ hn => absurd hn List.not_mem_nil
      nonneg := fun _ => le_rfl
      open_ := fun _ _ => rfl }
  none_ _ := rfl
  pair _ hp := absurd hp (by simp [init])

/-- A resumption of the pair `i` leaves the desk with exactly the calls of `pairCalls`
made. -/
def CallsMade (i : Nat) (w : World K) (e : DeskEvent K) : Prop :=
  ∀ x t, e = .engine (.resume i x t) → (w.deskStep e).elim True fun w' =>
    ∃ rec, Desk.Makes t rec (w.pairCalls i e) w.desk w'.desk

omit [IsStrictOrderedRing K] in
theorem callsMade (i : Nat) (w : World K) (e : DeskEvent K) : w.CallsMade i e := by
  rintro x t rfl
  cases hs : w.deskStep (.engine (.resume i x t)) with
  | none => trivial
  | some w' =>
    obtain ⟨p, hp, hs⟩ := Option.bind_eq_some_iff.mp hs
    obtain ⟨⟨d, pc⟩, hresume, rfl⟩ := Option.map_eq_some_iff.mp hs
    rw [pairCalls_resume x t hp]
    exact (Desk.resume_goes hresume).makes

/-- Whatever the races lose and wherever the outcome of the resting leg is learned:
once the hedge of a pair whose first leg was filled has been sized, it is for what the
other leg left, each leg has been booked once for what it filled in the end, and each
is released once.  The calls counted are those that the desk has made. -/
theorem hedge_sized_by_final_fill {maxOpenOrders : Nat} {es : List (DeskEvent K)}
    {p : PairTask K} {first : LegIx} (hinj : Function.Injective orderId)
    (hok : Machine.RunOk deskStep (SizingOk orderId final i) (init maxOpenOrders orderId) es)
    (hrun : Machine.run deskStep (init maxOpenOrders orderId) es = some w)
    (hp : w.pairs[i]? = some p)
    (hfirst : (Machine.outputs deskStep (pairCalls i) (init maxOpenOrders orderId) es).head? =
      some (.settled first .Filled))
    (hsized : p.pc.phase.isSized = true) :
    p.BothDone final first
        (Machine.outputs deskStep (pairCalls i) (init maxOpenOrders orderId) es) ∧
      Machine.RunOk deskStep (CallsMade i) (init maxOpenOrders orderId) es := by
  refine ⟨?_, hok.imp (I := fun _ => True) (fun w e _ _ => callsMade i w e)
    (fun _ _ _ _ _ _ => trivial) trivial⟩
  have hinv := Machine.run_outputs_inv (fun _ _ _ _ h hok hs => Sized.step h hinj hok hs)
    (init_sized maxOpenOrders) hok hrun
  have hhist := (hinv.pair p hp).history
  rw [List.nil_append] at hhist
  have hclosed : ∀ x, p.Closed final x
      (Machine.outputs deskStep (pairCalls i) (init maxOpenOrders orderId) es) →
      p.BothDone final first
        (Machine.outputs deskStep (pairCalls i) (init maxOpenOrders orderId) es) := by
    rintro x ⟨s, hs, hdone⟩
    rw [hs] at hfirst
    cases hfirst
    exact hdone rfl
  cases hphase : p.pc.phase with
  | racing | partner | resting =>
    rw [hphase] at hsized
    cases hsized
  | hedging x n =>
    rw [hphase] at hhist
    exact hclosed x hhist.2
  | ended x =>
    rw [hphase] at hhist
    exact hclosed x hhist

/-- The first leg is filled; the second one, of 2, is canceled after a fill of `q`, and
the message that says so is lost to the timer. -/
def lostCancel (q : Rat) : List (DeskEvent Rat) :=
  let leg (symbol : String) (side : Side) (qty : Rat) : ArbLeg Rat :=
    { symbol := symbol, side := side, qty := qty, price := 100 }
  [.engine (.signal (leg "BTCUSDT" .Buy 1) (leg "ETHUSDT" .Sell 2) ⟨0, 0⟩),
    .engine (.resume 0 .sent ⟨1, 1⟩), .engine (.resume 0 .sent ⟨2, 2⟩),
    .update (orderKey 0) ⟨.Filled, 1, 100, 0, 3, 0⟩,
    .engine (.resume 0 (.receive .leg1 false) ⟨3, 3⟩),
    .engine (.resume 0 (.timeout false) ⟨60, 60⟩), .engine (.resume 0 .sent ⟨61, 61⟩),
    .update (orderKey 1) ⟨.Canceled, q, 100, 1, 62, 0⟩,
    .engine (.resume 0 (.timeout true) ⟨900, 900⟩)]

/-- What the two legs of `lostCancel` fill. -/
def lostCancelFills (q : Rat) : LegIx → Rat
  | .leg1 => 1
  | .leg2 => q

/-- The cancel of a half filled leg is not heard of, and the store is asked. -/
theorem hedge_sized_by_final_fill_lost_cancel :
    ∃ (w : World Rat) (p : PairTask Rat),
      Machine.run deskStep (init 8 Int.ofNat) (lostCancel (1 / 2)) = some w ∧
        w.pairs[0]? = some p ∧
        p.BothDone (lostCancelFills (1 / 2)) .leg1
          (Machine.outputs deskStep (pairCalls 0) (init 8 Int.ofNat) (lostCancel (1 / 2))) := by
  obtain ⟨w, hw, h⟩ := Machine.exists_of_elim
    (o := Machine.run deskStep (init 8 Int.ofNat) (lostCancel (1 / 2)))
    (P := fun w => (w.pairs[0]?).elim False fun p => p.pc.phase.isSized = true)
    (by decide +kernel)
  obtain ⟨p, hp, hsized⟩ := Machine.exists_of_elim h
  exact ⟨w, p, hw, hp, (hedge_sized_by_final_fill (fun _ _ h => Int.ofNat.inj h)
    (by decide +kernel) hw hp (by decide +kernel) hsized).1⟩

/-- A fill of 1/10^13 is subtracted from the hedge and does not reach the book. -/
theorem dust_fill_not_booked :
    let dust : Rat := 1 / 10 ^ 13
    let cs := Machine.outputs deskStep (pairCalls 0) (init 8 Int.ofNat) (lostCancel dust)
    Machine.RunOk deskStep (SizingOk Int.ofNat (lostCancelFills dust) 0) (init 8 Int.ofNat)
        (lostCancel dust) ∧
      cs.head? = some (.settled .leg1 .Filled) ∧
      cs.filterMap PairCall.released = [0, 1] ∧
      (cs.filterMap PairCall.hedged).map (fun h => h.2.qty) = [2 - dust] ∧
      0 < lostCancelFills dust .leg2 ∧ cs.filterMap (PairCall.received 1) = [] := by
  decide +kernel

end World
end HoloMarket
