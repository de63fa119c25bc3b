import HoloMarket.Lib.Increments
import HoloMarket.Net.FillAccounting
import HoloMarket.Net.FillCharges

/-!
# FillSnapshots: one order charged record by record

`apply_fill_pnl` books the quantity by which a record exceeds the one before it,
but at the average price of the whole record.  Charging the records of an order
one by one leaves the book that charging only the last one leaves when no
increment is lost below `1e-12` and the averages are, on balance, not revised.
-/

namespace HoloMarket

variable {K : Type*} [Field K] [LinearOrder K]

/-! ## The records of an order -/

/-- `r'` is the record some updates after `r`, each with a price when it fills. -/
inductive OrderRecord.Later (r : OrderRecord K) : OrderRecord K → Prop
  | refl : Later r r
  | update {r' : OrderRecord K} (h : Later r r') (u : UpdateArgs K)
      (hprice : r'.filledQty < u.cumulativeFilledQty → 0 < u.lastFillPrice) :
      Later r (u.applyTo r')

/-- Records of one order, taken after any updates following `r`. -/
def OrderRecord.Snapshots : OrderRecord K → List (OrderRecord K) → Prop
  | _, [] => True
  | r, r' :: l => r.Later r' ∧ Snapshots r' l

/-- A record that shows a fill shows its price. -/
structure OrderRecord.Sound (r : OrderRecord K) : Prop where
  nonneg : 0 ≤ r.filledQty
  commission : 0 ≤ r.cumulativeCommission
  price : 0 < r.filledQty → 0 < r.avgFillPrice

/-- The exchange order id of the record is `x`, or none has been assigned and
nothing has been filled. -/
def OrderRecord.Under (x : Int) (r : OrderRecord K) : Prop :=
  r.exchangeOrderId = x ∨ r.filledQty = 0 ∧ r.cumulativeCommission = 0

instance (x : Int) (r : OrderRecord K) : Decidable (r.Under x) := by
  unfold OrderRecord.Under
  infer_instance

namespace OrderRecord

variable [IsStrictOrderedRing K] {r r' : OrderRecord K}

theorem commission_le_applyTo (u : UpdateArgs K) (r : OrderRecord K) :
    r.cumulativeCommission ≤ (u.applyTo r).cumulativeCommission := by
  show r.cumulativeCommission ≤ if 0 < u.commissionDelta then
    (r.applyFill u.cumulativeFilledQty u.lastFillPrice).cumulativeCommission + u.commissionDelta
    else (r.applyFill u.cumulativeFilledQty u.lastFillPrice).cumulativeCommission
  have hkeep : (r.applyFill u.cumulativeFilledQty u.lastFillPrice).cumulativeCommission =
      r.cumulativeCommission := by
    unfold applyFill
    split_ifs <;> rfl
  rw [hkeep]
  split_ifs with hpos
  · exact le_add_of_nonneg_right hpos.le
  · exact le_rfl

theorem Sound.applyTo (h : r.Sound) (u : UpdateArgs K)
    (hprice : r.filledQty < u.cumulativeFilledQty → 0 < u.lastFillPrice) :
    (u.applyTo r).Sound := by
  refine ⟨h.nonneg.trans (u.filledQty_le_applyTo r),
    h.commission.trans (commission_le_applyTo u r), ?_⟩
  show 0 < (r.applyFill u.cumulativeFilledQty u.lastFillPrice).filledQty →
    0 < (r.applyFill u.cumulativeFilledQty u.lastFillPrice).avgFillPrice
  unfold applyFill
  split_ifs with hfill hmore
  · intro hpos
    refine div_pos ?_ hpos
    have hnew : 0 < u.lastFillPrice * (u.cumulativeFilledQty - r.filledQty) :=
      mul_pos hfill.2 (sub_pos.mpr hfill.1)
    rcases h.nonneg.eq_or_lt with hzero | hq
    · rw [← hzero, mul_zero, zero_add]
      rw [← hzero] at hnew
      exact hnew
    · exact add_pos (mul_pos (h.price hq) hq) hnew
  · exact absurd ⟨hmore, hprice hmore⟩ hfill
  · exact h.price

/-- Quantity and commission never decrease, and a filled record stays sound. -/
theorem Later.grows (h : r.Later r') (hr : r.Sound) :
    r'.Sound ∧ r.filledQty ≤ r'.filledQty ∧
      r.cumulativeCommission ≤ r'.cumulativeCommission := by
  induction h with
  | refl => exact ⟨hr, le_rfl, le_rfl⟩
  | update h u hprice ih =>
    obtain ⟨hsound, hfilled, hcomm⟩ := ih
    exact ⟨hsound.applyTo u hprice, hfilled.trans (u.filledQty_le_applyTo _),
      hcomm.trans (commission_le_applyTo u _)⟩

omit [IsStrictOrderedRing K] in
theorem Later.trans {r'' : OrderRecord K} (h : r.Later r') (h' : r'.Later r'') : r.Later r'' := by
  induction h' with
  | refl => exact h
  | update _ u hprice ih => exact ih.update u hprice

omit [IsStrictOrderedRing K] in
theorem Snapshots.later {l : List (OrderRecord K)} (h : r.Snapshots l) :
    ∀ r' ∈ l, r.Later r' := by
  induction l generalizing r with
  | nil => exact fun r' hr' => absurd hr' List.not_mem_nil
  | cons r₁ l ih =>
    intro r' hr'
    obtain ⟨hlater, hrest⟩ := h
    rcases List.mem_cons.mp hr' with rfl | hr'
    · exact hlater
    · exact hlater.trans (ih hrest r' hr')

theorem Snapshots.pairwise {l : List (OrderRecord K)} (h : r.Snapshots l) (hr : r.Sound) :
    (r.filledQty :: l.map filledQty).Pairwise (· ≤ ·) ∧
      (r.cumulativeCommission :: l.map cumulativeCommission).Pairwise (· ≤ ·) := by
  induction l generalizing r with
  | nil => exact ⟨List.pairwise_singleton _ _, List.pairwise_singleton _ _⟩
  | cons r₁ l ih =>
    have hall : ∀ r' ∈ r₁ :: l, r'.Sound ∧ r.filledQty ≤ r'.filledQty ∧
        r.cumulativeCommission ≤ r'.cumulativeCommission :=
      fun r' hr' => (h.later r' hr').grows hr
    obtain ⟨hlater, hrest⟩ := h
    obtain ⟨hf, hc⟩ := ih hrest (hlater.grows hr).1
    refine ⟨List.pairwise_cons.mpr ⟨fun q hq => ?_, hf⟩,
      List.pairwise_cons.mpr ⟨fun c hc => ?_, hc⟩⟩
    · obtain ⟨r', hr', rfl⟩ := List.mem_map.mp hq
      exact (hall r' hr').2.1
    · obtain ⟨r', hr', rfl⟩ := List.mem_map.mp hc
      exact (hall r' hr').2.2

omit [IsStrictOrderedRing K] in
theorem sound_fresh (cid symbol : String) (side : Side) (price qty : K) (t : Clock) :
    (fresh cid symbol side price qty t).Sound :=
  ⟨le_rfl, le_rfl, fun h => absurd h (lt_irrefl 0)⟩

end OrderRecord

/-! ## What is booked -/

/-- A position built from `start` by fills on one side: `booked` of quantity at
`cost` in all, and `fees` paid. -/
structure Position.Built (start : Position K) (side : Side) (booked cost fees : K)
    (pos : Position K) : Prop where
  qty_eq : pos.qty = side.signedDir * booked
  cost_eq : pos.avgPrice * pos.qty = side.signedDir * cost
  realized_eq : pos.realizedPnl = start.realizedPnl - fees
  unopened : booked = 0 → cost = 0 ∧ pos.avgPrice = start.avgPrice

namespace Position

variable [IsStrictOrderedRing K] {start pos pos' : Position K} {side : Side}
  {booked cost fees : K}

theorem Built.fill (h : start.Built side booked cost fees pos) (hb : 0 ≤ booked) {q p : K}
    (hq : 0 < q) :
    start.Built side (booked + q) (cost + q * p) fees (pos.fill (side.signedDir * q) p) := by
  have hopen : pos.qty = 0 ∨ (0 < pos.qty ↔ 0 < side.signedDir * q) := by
    rw [h.qty_eq]
    rcases hb.eq_or_lt with hzero | hpos
    · exact Or.inl (by rw [← hzero, mul_zero])
    · cases side with
      | Buy => exact Or.inr (iff_of_true (by simpa [Side.signedDir]) (by simpa [Side.signedDir]))
      | Sell =>
        refine Or.inr (iff_of_false ?_ ?_)
        · simpa [Side.signedDir] using hpos.le
        · simpa [Side.signedDir] using hq.le
  have hreal : (pos.fill (side.signedDir * q) p).realizedPnl = pos.realizedPnl := by
    unfold Position.fill
    rw [if_pos hopen]
  have hd : side.signedDir * q ≠ 0 := mul_ne_zero (PnlBook.signedDir_ne_zero side) hq.ne'
  have hworth := worth_fill_open p 0 hd hopen
  unfold worth at hworth
  rw [hreal] at hworth
  refine ⟨?_, ?_, hreal.trans h.realized_eq, ?_⟩
  · rw [fill_qty, h.qty_eq, mul_add]
  · linear_combination h.cost_eq - hworth
  · intro hzero
    exact absurd hzero (add_pos_of_nonneg_of_pos hb hq).ne'

omit [LinearOrder K] [IsStrictOrderedRing K] in
theorem Built.pay (h : start.Built side booked cost fees pos) (c : K) :
    start.Built side booked cost (fees + c)
      { pos with realizedPnl := pos.realizedPnl - c } where
  qty_eq := h.qty_eq
  cost_eq := h.cost_eq
  realized_eq := by
    show pos.realizedPnl - c = _
    rw [h.realized_eq, sub_sub]
  unopened := h.unopened

/-- What was booked, its cost and the fees determine the position. -/
theorem Built.eq_iff {booked' cost' fees' : K} (h : start.Built side booked cost fees pos)
    (h' : start.Built side booked' cost' fees' pos') :
    pos = pos' ↔ booked = booked' ∧ cost = cost' ∧ fees = fees' := by
  have hdir : (side.signedDir : K) ≠ 0 := PnlBook.signedDir_ne_zero side
  constructor
  · rintro rfl
    have hbooked := mul_left_cancel₀ hdir (h.qty_eq.symm.trans h'.qty_eq)
    have hcost := mul_left_cancel₀ hdir (h.cost_eq.symm.trans h'.cost_eq)
    have hfees := sub_right_injective (h.realized_eq.symm.trans h'.realized_eq)
    exact ⟨hbooked, hcost, hfees⟩
  · rintro ⟨rfl, rfl, rfl⟩
    have hqty : pos.qty = pos'.qty := h.qty_eq.trans h'.qty_eq.symm
    have havg : pos.avgPrice = pos'.avgPrice := by
      by_cases hzero : booked = 0
      · exact (h.unopened hzero).2.trans (h'.unopened hzero).2.symm
      · have hne : pos'.qty ≠ 0 := by
          rw [h'.qty_eq]
          exact mul_ne_zero hdir hzero
        refine mul_right_cancel₀ hne ?_
        calc pos.avgPrice * pos'.qty = pos.avgPrice * pos.qty := by rw [hqty]
          _ = pos'.avgPrice * pos'.qty := h.cost_eq.trans h'.cost_eq.symm
    have hreal : pos.realizedPnl = pos'.realizedPnl := h.realized_eq.trans h'.realized_eq.symm
    obtain ⟨q, a, p⟩ := pos
    obtain ⟨q', a', p'⟩ := pos'
    simp only at hqty havg hreal
    rw [hqty, havg, hreal]

end Position

namespace PnlBook

theorem position_applyFill (b : PnlBook K) (symbol sym : String) (side : Side) {q p : K}
    (hq : 0 < q) (hp : 0 < p) :
    (b.applyFill symbol side q p).position sym =
      if sym = symbol then (b.position symbol).fill (side.signedDir * q) p
      else b.position sym := by
  unfold applyFill
  rw [if_neg (not_or.mpr ⟨not_le.mpr hq, not_le.mpr hp⟩)]
  exact position_insert ..

theorem position_applyCommission (b : PnlBook K) (symbol sym : String) {c : K} (hc : 0 < c) :
    (b.applyCommission symbol c).position sym =
      if sym = symbol then
        { b.position symbol with realizedPnl := (b.position symbol).realizedPnl - c }
      else b.position sym := by
  unfold applyCommission
  rw [if_neg (not_le.mpr hc)]
  exact position_insert ..

open Increments ExecutionEngine

/-- The book is `base` but for the position of the leg, which one order built. -/
structure Carries (base : PnlBook K) (leg : ArbLeg K) (booked cost fees : K)
    (b : PnlBook K) : Prop where
  position : (base.position leg.symbol).Built leg.side booked cost fees (b.position leg.symbol)
  others : ∀ sym, sym ≠ leg.symbol → b.position sym = base.position sym

variable [IsStrictOrderedRing K] {base b : PnlBook K} {leg : ArbLeg K} {booked cost fees : K}

theorem Carries.fill (h : base.Carries leg booked cost fees b) (hb : 0 ≤ booked) {q q' p : K}
    (hp : qtyEps < q' - q → 0 < p) :
    base.Carries leg (booked + taken qtyEps q q') (cost + taken qtyEps q q' * p) fees
      (if qtyEps < q' - q then b.applyFill leg.symbol leg.side (q' - q) p else b) := by
  unfold taken
  split_ifs with hq
  · have hpos : 0 < q' - q := qtyEps_pos.trans hq
    constructor
    · rw [position_applyFill b _ _ _ hpos (hp hq), if_pos rfl]
      exact h.position.fill hb hpos
    · intro sym hsym
      rw [position_applyFill b _ _ _ hpos (hp hq), if_neg hsym]
      exact h.others sym hsym
  · rw [add_zero, zero_mul, add_zero]
    exact h

theorem Carries.pay (h : base.Carries leg booked cost fees b) {c c' : K} :
    base.Carries leg booked cost (fees + taken qtyEps c c')
      (if qtyEps < c' - c then b.applyCommission leg.symbol (c' - c) else b) := by
  unfold taken
  split_ifs with hc
  · have hpos : 0 < c' - c := qtyEps_pos.trans hc
    constructor
    · rw [position_applyCommission b _ _ hpos, if_pos rfl]
      exact h.position.pay _
    · intro sym hsym
      rw [position_applyCommission b _ _ hpos, if_neg hsym]
      exact h.others sym hsym
  · rw [add_zero]
    exact h

/-- Two orders of calls over one base leave one book when they booked the same. -/
theorem Carries.eq_iff {b' : PnlBook K} {booked' cost' fees' : K}
    (h : base.Carries leg booked cost fees b) (h' : base.Carries leg booked' cost' fees' b') :
    (∀ sym, b.snapshot sym = b'.snapshot sym) ↔
      booked = booked' ∧ cost = cost' ∧ fees = fees' := by
  rw [← h.position.eq_iff h'.position]
  constructor
  · exact fun hall => hall leg.symbol
  · intro hleg sym
    by_cases hsym : sym = leg.symbol
    · rw [hsym]
      exact hleg
    · exact (h.others sym hsym).trans (h'.others sym hsym).symm

end PnlBook

namespace ExecutionEngine

open Increments

/-- The records of the order `x` have been charged up to the quantity `q` and the
commission `c`. -/
structure ChargedTo (x : Int) (q c : K) (eng : ExecutionEngine K) : Prop where
  filled : (eng.lastFilled.lookup x).getD 0 = q
  commission : (eng.lastCommission.lookup x).getD 0 = c

/-- `apply_fill_pnl` for every record, in order. -/
def chargeAll (leg : ArbLeg K) (eng : ExecutionEngine K) (records : List (OrderRecord K)) :
    ExecutionEngine K :=
  records.foldl (fun eng r => eng.chargeFill (r, leg)) eng

variable {leg : ArbLeg K} {x : Int} {q c : K} {eng : ExecutionEngine K}

theorem ChargedTo.chargeFill {r : OrderRecord K} (hx : r.exchangeOrderId = x) :
    (eng.chargeFill (r, leg)).ChargedTo x r.filledQty r.cumulativeCommission := by
  constructor
  · show ((eng.lastFilled.insert r.exchangeOrderId r.filledQty).lookup x).getD 0 = _
    rw [hx, AList.lookup_insert]
    rfl
  · show ((eng.lastCommission.insert r.exchangeOrderId r.cumulativeCommission).lookup x).getD 0 = _
    rw [hx, AList.lookup_insert]
    rfl

theorem ChargedTo.chargeFill_pnl (h : eng.ChargedTo x q c) {r : OrderRecord K}
    (hx : r.exchangeOrderId = x) (hprice : qtyEps < r.filledQty - q → 0 < r.avgFillPrice) :
    (eng.chargeFill (r, leg)).pnl =
      let pnl := if qtyEps < r.filledQty - q then
          eng.pnl.applyFill leg.symbol leg.side (r.filledQty - q) r.avgFillPrice
        else eng.pnl
      if qtyEps < r.cumulativeCommission - c then
        pnl.applyCommission leg.symbol (r.cumulativeCommission - c)
      else pnl := by
  have hguard : qtyEps < r.filledQty - q ∧ 0 < r.avgFillPrice ↔ qtyEps < r.filledQty - q :=
    and_iff_left_of_imp hprice
  unfold ExecutionEngine.chargeFill applyFillPnl
  dsimp only
  rw [hx, h.filled, h.commission]
  simp only [hguard]

/-- A charge under another exchange order id is a charge of another order. -/
theorem ChargedTo.chargeFill_of_ne (h : eng.ChargedTo x q c) {r : OrderRecord K}
    (hx : r.exchangeOrderId ≠ x) : (eng.chargeFill (r, leg)).ChargedTo x q c := by
  constructor
  · show ((eng.lastFilled.insert r.exchangeOrderId r.filledQty).lookup x).getD 0 = _
    rw [AList.lookup_insert_ne hx.symm, h.filled]
  · show ((eng.lastCommission.insert r.exchangeOrderId r.cumulativeCommission).lookup x).getD 0 = _
    rw [AList.lookup_insert_ne hx.symm, h.commission]

variable [IsStrictOrderedRing K] {base : PnlBook K} {booked cost fees : K} {r r' : OrderRecord K}

/-- One record books what exceeds the threshold of its increments, at its own
average. -/
theorem carries_chargeFill (h : eng.ChargedTo x r.filledQty r.cumulativeCommission)
    (hcarries : base.Carries leg booked cost fees eng.pnl) (hb : 0 ≤ booked) (hr : r.Sound)
    (hlater : r.Later r') (hx : r'.exchangeOrderId = x) :
    base.Carries leg (booked + taken qtyEps r.filledQty r'.filledQty)
      (cost + taken qtyEps r.filledQty r'.filledQty * r'.avgFillPrice)
      (fees + taken qtyEps r.cumulativeCommission r'.cumulativeCommission)
      (eng.chargeFill (r', leg)).pnl := by
  have hprice : qtyEps < r'.filledQty - r.filledQty → 0 < r'.avgFillPrice := by
    intro hlt
    have hpos : r.filledQty < r'.filledQty := sub_pos.mp (qtyEps_pos.trans hlt)
    exact (hlater.grows hr).1.price (hr.nonneg.trans_lt hpos)
  rw [h.chargeFill_pnl hx hprice]
  exact (hcarries.fill hb hprice).pay

theorem chargeFill_unassigned (h : eng.ChargedTo r.exchangeOrderId 0 0) (hq : r.filledQty = 0)
    (hc : r.cumulativeCommission = 0) : (eng.chargeFill (r, leg)).pnl = eng.pnl := by
  have hnone : ¬ (qtyEps : K) < 0 - 0 := by
    rw [sub_zero]
    exact not_lt.mpr qtyEps_pos.le
  have hprice : qtyEps < r.filledQty - 0 → 0 < r.avgFillPrice := by
    intro hlt
    rw [hq] at hlt
    exact absurd hlt hnone
  rw [h.chargeFill_pnl rfl hprice, hq, hc]
  dsimp only
  rw [if_neg hnone, if_neg hnone]

/-- The engine when the records `left` are still to be charged after `r`. -/
structure Charging (base : PnlBook K) (leg : ArbLeg K) (x : Int) (booked cost fees : K)
    (r : OrderRecord K) (left : List (OrderRecord K)) (eng : ExecutionEngine K) : Prop where
  carries : base.Carries leg booked cost fees eng.pnl
  booked_nonneg : 0 ≤ booked
  charged : eng.ChargedTo x r.filledQty r.cumulativeCommission
  others : ∀ s ∈ left, s.exchangeOrderId ≠ x → eng.ChargedTo s.exchangeOrderId 0 0

variable {left : List (OrderRecord K)}

theorem Charging.step (h : Charging base leg x booked cost fees r (r' :: left) eng)
    (hr : r.Sound) (hlater : r.Later r') (hx : r'.Under x) :
    Charging base leg x (booked + taken qtyEps r.filledQty r'.filledQty)
      (cost + taken qtyEps r.filledQty r'.filledQty * r'.avgFillPrice)
      (fees + taken qtyEps r.cumulativeCommission r'.cumulativeCommission) r' left
      (eng.chargeFill (r', leg)) := by
  have hbooked : 0 ≤ booked + taken qtyEps r.filledQty r'.filledQty :=
    add_nonneg h.booked_nonneg (taken_nonneg qtyEps_pos.le _ _)
  have hleft : ∀ s ∈ left, s.exchangeOrderId ≠ x → eng.ChargedTo s.exchangeOrderId 0 0 :=
    fun s hs => h.others s (List.mem_cons_of_mem r' hs)
  by_cases hid : r'.exchangeOrderId = x
  · refine ⟨carries_chargeFill h.charged h.carries h.booked_nonneg hr hlater hid, hbooked,
      ChargedTo.chargeFill hid, ?_⟩
    intro s hs hsx
    exact (hleft s hs hsx).chargeFill_of_ne fun he => hsx (he.symm.trans hid)
  · -- no id yet, so nothing had been filled before either
    obtain ⟨hq', hc'⟩ := hx.resolve_left hid
    obtain ⟨-, hle, hlec⟩ := hlater.grows hr
    have hq : r.filledQty = 0 := le_antisymm (hle.trans hq'.le) hr.nonneg
    have hc : r.cumulativeCommission = 0 := le_antisymm (hlec.trans hc'.le) hr.commission
    have hzero : taken qtyEps (0 : K) 0 = 0 := by
      unfold taken
      rw [sub_zero, ite_self]
    have hpnl : (eng.chargeFill (r', leg)).pnl = eng.pnl :=
      chargeFill_unassigned (h.others r' List.mem_cons_self hid) hq' hc'
    refine ⟨?_, hbooked, ?_, ?_⟩
    · rw [hpnl, hq, hc, hq', hc', hzero, add_zero, zero_mul, add_zero, add_zero]
      exact h.carries
    · rw [hq'.trans hq.symm, hc'.trans hc.symm]
      exact h.charged.chargeFill_of_ne hid
    · intro s hs hsx
      by_cases hsr : r'.exchangeOrderId = s.exchangeOrderId
      · have hzeroed : (eng.chargeFill (r', leg)).ChargedTo s.exchangeOrderId r'.filledQty
            r'.cumulativeCommission := ChargedTo.chargeFill hsr
        rw [hq', hc'] at hzeroed
        exact hzeroed
      · exact (hleft s hs hsx).chargeFill_of_ne hsr

/-- Charging the records one by one books what exceeds the threshold of each
increment, each at the average of its record. -/
theorem carries_chargeAll (h : Charging base leg x booked cost fees r left eng) (hr : r.Sound)
    (hs : r.Snapshots left) (hx : ∀ s ∈ left, s.Under x) :
    base.Carries leg (booked + kept qtyEps r.filledQty (left.map OrderRecord.filledQty))
      (cost + keptCost qtyEps r.filledQty (left.map fun r => (r.filledQty, r.avgFillPrice)))
      (fees + kept qtyEps r.cumulativeCommission (left.map OrderRecord.cumulativeCommission))
      (chargeAll leg eng left).pnl := by
  induction left generalizing eng booked cost fees r with
  | nil =>
    have hadd : ∀ k : K, k + 0 = k := add_zero
    show base.Carries leg (booked + 0) (cost + 0) (fees + 0) eng.pnl
    rw [hadd, hadd, hadd]
    exact h.carries
  | cons r' left ih =>
    obtain ⟨hlater, hrest⟩ := hs
    have hstep := h.step hr hlater (hx r' List.mem_cons_self)
    have hall := ih hstep (hlater.grows hr).1 hrest fun s hs => hx s (List.mem_cons_of_mem r' hs)
    rw [add_assoc, add_assoc, add_assoc] at hall
    exact hall

end ExecutionEngine

/-! ## One by one and at once -/

open Increments ExecutionEngine

/-- The quantity booked record by record is that of the last record, no increment
being lost, and the averages are not revised on balance; and so for the
commission. -/
def SnapshotsAdd (records : List (OrderRecord K)) (last : OrderRecord K) : Prop :=
  (last.filledQty ≤ qtyEps ∨
      Clear qtyEps 0 ((records ++ [last]).map OrderRecord.filledQty) ∧
        revision 0 0 ((records ++ [last]).map fun r => (r.filledQty, r.avgFillPrice)) = 0) ∧
    (last.cumulativeCommission ≤ qtyEps ∨
      Clear qtyEps 0 ((records ++ [last]).map OrderRecord.cumulativeCommission))

instance (records : List (OrderRecord K)) (last : OrderRecord K) :
    Decidable (SnapshotsAdd records last) := by
  unfold SnapshotsAdd
  infer_instance

theorem chargeAll_agree_iff [IsStrictOrderedRing K] {eng : ExecutionEngine K} {leg : ArbLeg K}
    (hflat : (eng.pnl.snapshot leg.symbol).qty = 0) {r : OrderRecord K} (hr : r.Sound)
    (hq : r.filledQty = 0) (hc : r.cumulativeCommission = 0) {records : List (OrderRecord K)}
    {last : OrderRecord K} (hs : r.Snapshots (records ++ [last]))
    (hx : ∀ r' ∈ records, r'.Under last.exchangeOrderId)
    (hcharged : ∀ r' ∈ records ++ [last], eng.ChargedTo r'.exchangeOrderId 0 0) :
    (∀ sym, (chargeAll leg eng (records ++ [last])).pnl.snapshot sym =
        (chargeAll leg eng [last]).pnl.snapshot sym) ↔ SnapshotsAdd records last := by
  have hmem : last ∈ records ++ [last] := List.mem_append_right _ List.mem_cons_self
  have hcarries : eng.pnl.Carries leg 0 0 0 eng.pnl := by
    refine ⟨⟨?_, ?_, (sub_zero _).symm, fun _ => ⟨rfl, rfl⟩⟩, fun _ _ => rfl⟩
    · rw [mul_zero]
      exact hflat
    · rw [mul_zero]
      exact mul_eq_zero_of_right _ hflat
  have hstart : ∀ left : List (OrderRecord K), left ⊆ records ++ [last] →
      Charging eng.pnl leg last.exchangeOrderId 0 0 0 r left eng := by
    intro left hleft
    refine ⟨hcarries, le_rfl, ?_, fun s hs _ => hcharged s (hleft hs)⟩
    rw [hq, hc]
    exact hcharged last hmem
  have hself : ∀ s ∈ [last], s.Under last.exchangeOrderId :=
    List.forall_mem_singleton.mpr (Or.inl rfl)
  have hlast : r.Snapshots [last] := ⟨hs.later last hmem, trivial⟩
  have hall := carries_chargeAll (hstart _ (List.Subset.refl _)) hr hs
    (List.forall_mem_append.mpr ⟨hx, hself⟩)
  have hone := carries_chargeAll (hstart _ (List.subset_append_right _ _)) hr hlast hself
  have hmap : (records ++ [last]).map OrderRecord.filledQty =
      ((records ++ [last]).map fun r => (r.filledQty, r.avgFillPrice)).map Prod.fst := by
    rw [List.map_map]
    rfl
  obtain ⟨hfilled, hcomm⟩ := hs.pairwise hr
  rw [hq, hmap] at hfilled
  rw [hc, List.map_append, List.map_singleton] at hcomm
  rw [hq, hc] at hall hone
  have hpairs := keptCost_concat_iff qtyEps (records.map fun r => (r.filledQty, r.avgFillPrice))
    (last.filledQty, last.avgFillPrice)
  rw [hall.eq_iff hone, zero_add, zero_add, zero_add, zero_add, zero_add, zero_add, ← and_assoc]
  unfold SnapshotsAdd
  rw [hmap]
  simp only [List.map_append, List.map_singleton] at hfilled hpairs ⊢
  exact and_congr (hpairs hfilled) (kept_concat_iff hcomm)

/-- From a flat position, and with nothing charged before under the order, its
records one by one leave the book that the last one leaves exactly when they add
up.  The exchange order id is stable once assigned. -/
theorem snapshots_iff {K : Type*} [Field K] [LinearOrder K] [IsStrictOrderedRing K]
    (eng : ExecutionEngine K) (leg : ArbLeg K) (cid symbol : String) (side : Side)
    (price qty : K) (t : Clock) {records : List (OrderRecord K)} {last : OrderRecord K}
    (hflat : (eng.pnl.snapshot leg.symbol).qty = 0)
    (hcharged : ∀ r ∈ records ++ [last], eng.ChargedTo r.exchangeOrderId 0 0)
    (hs : (OrderRecord.fresh cid symbol side price qty t).Snapshots (records ++ [last]))
    (hx : ∀ r ∈ records, r.Under last.exchangeOrderId) :
    (∀ sym, (chargeAll leg eng (records ++ [last])).pnl.snapshot sym =
        (chargeAll leg eng [last]).pnl.snapshot sym) ↔ SnapshotsAdd records last :=
  chargeAll_agree_iff hflat (OrderRecord.sound_fresh ..) rfl rfl hs hx hcharged

/-! ## Two fills -/

def buyTwo : ArbLeg ℚ := { symbol := "BTCUSDT", side := .Buy, qty := 2, price := 100 }

def newOrder : OrderRecord ℚ := .fresh "HM0" "BTCUSDT" .Buy 100 2 ⟨0, 0⟩

/-- The exchange has filled `filled` in all, the newest part at `price`. -/
def fillReport (filled price : ℚ) : UpdateArgs ℚ where
  newStatus := if filled < 2 then .Partial else .Filled
  cumulativeFilledQty := filled
  lastFillPrice := price
  exchangeOrderId := 7
  eventNs := 0
  commissionDelta := 1 / 10

def halfFilled : OrderRecord ℚ := (fillReport 1 100).applyTo newOrder

def fullyFilled (price : ℚ) : OrderRecord ℚ := (fillReport 2 price).applyTo halfFilled

theorem snapshots_twoFills {price : ℚ} (h : 0 < price) :
    newOrder.Snapshots ([newOrder, halfFilled] ++ [fullyFilled price]) :=
  ⟨.refl, .update .refl (fillReport 1 100) fun _ => by decide +kernel,
    .update .refl (fillReport 2 price) fun _ => h, trivial⟩

/-- Two fills at one price. -/
theorem snapshots_one_price :
    (chargeAll buyTwo (init 8) ([newOrder, halfFilled] ++ [fullyFilled 100])).pnl.snapshot
        "BTCUSDT" =
      (chargeAll buyTwo (init 8) [fullyFilled 100]).pnl.snapshot "BTCUSDT" :=
  (snapshots_iff (init 8) buyTwo "HM0" "BTCUSDT" .Buy 100 2 ⟨0, 0⟩ rfl (fun _ _ => ⟨rfl, rfl⟩)
    (snapshots_twoFills (by decide +kernel)) (by decide +kernel)).mpr (by decide +kernel) "BTCUSDT"

/-- A fill at 100 and one at 200: the second half is booked at their average. -/
theorem snapshots_two_prices :
    newOrder.Snapshots ([newOrder, halfFilled] ++ [fullyFilled 200]) ∧
      ((chargeAll buyTwo (init 8)
        ([newOrder, halfFilled] ++ [fullyFilled 200])).pnl.snapshot "BTCUSDT").avgPrice = 125 ∧
      ((chargeAll buyTwo (init 8) [fullyFilled 200]).pnl.snapshot "BTCUSDT").avgPrice = 150 :=
  ⟨snapshots_twoFills (by decide +kernel), by decide +kernel, by decide +kernel⟩

end HoloMarket
