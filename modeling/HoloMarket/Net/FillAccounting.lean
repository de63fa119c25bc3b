import HoloMarket.Net.OmsRefinement
import HoloMarket.Net.Reconcile

/-!
# What the record of an order accounts for

An order's events reach `OMSCore` among calls for other orders.  Delivered
completely, once and in order, they leave the record with the exchange's own
quantity, notional and commission.  A repeated event is caught by its
cumulative quantity, which says nothing about its commission.
-/

namespace HoloMarket

/-- The call touches no record under `key`. -/
def OmsCall.Spares {K : Type*} (key : UInt64) : OmsCall K → Prop
  | .registerNewOrder cid .. => fnv1a64 cid ≠ key
  | .applyUpdate k .. => k ≠ key
  | .release k => k ≠ key
  | .get _ | .getStaleOrders .. | .liveOrderCount => True

instance OmsCall.decidableSpares {K : Type*} (key : UInt64) :
    ∀ c : OmsCall K, Decidable (c.Spares key)
  | .registerNewOrder cid .. => inferInstanceAs (Decidable (fnv1a64 cid ≠ key))
  | .applyUpdate k .. => inferInstanceAs (Decidable (k ≠ key))
  | .release k => inferInstanceAs (Decidable (k ≠ key))
  | .get _ | .getStaleOrders .. | .liveOrderCount => inferInstanceAs (Decidable True)

/-- A step of the order under `key`, or a call for another order. -/
inductive Interleaved (α K : Type*) (key : UInt64) where
  | own (a : α)
  | other (c : OmsCall K) (h : c.Spares key)

/-- The order's own steps. -/
def Interleaved.owns {α K : Type*} {key : UInt64} (l : List (Interleaved α K key)) : List α :=
  l.filterMap fun
    | .own a => some a
    | .other .. => none

@[simp] theorem Interleaved.owns_append {α K : Type*} {key : UInt64}
    (l l' : List (Interleaved α K key)) : owns (l ++ l') = owns l ++ owns l' :=
  List.filterMap_append ..

variable {K : Type*} [Field K] [LinearOrder K] {key : UInt64}

theorem OMSCore.get_call_of_spares (oms : OMSCore K) {c : OmsCall K} (h : c.Spares key) :
    (oms.call c).1.get key = oms.get key := by
  cases c with
  | registerNewOrder cid sym side price qty t =>
    have hg := get_registerNewOrder oms cid sym side price qty t key
    rw [if_neg (Ne.symm h)] at hg
    exact hg
  | applyUpdate k s c p x e d =>
    unfold call
    dsimp only
    cases hu : oms.applyUpdate k s c p x e d with
    | none => rfl
    | some q =>
      obtain ⟨r, -, -, hget⟩ := applyUpdate_spec hu
      exact (hget key).trans (if_neg (Ne.symm h))
  | release k => exact (get_release oms k key).trans (if_neg (Ne.symm h))
  | get k => rfl
  | getStaleOrders maxAge steady => rfl
  | liveOrderCount => rfl

/-! ## A complete history -/

/-- An execution: the quantity, its price and the field `n`, absent where
nothing is charged. -/
structure Execution (K : Type*) [Zero K] [LT K] [LE K] where
  qty : K
  price : K
  n : Option K
  qty_pos : 0 < qty
  price_pos : 0 < price
  n_nonneg : ∀ c ∈ n, 0 ≤ c

/-- An event of an order's history.  A status-only event may repeat any last
price; it charges nothing. -/
inductive HistoryEvent (K : Type*) [Zero K] [LT K] [LE K] where
  | fill (e : Execution K) (X : String) (i : Int) (T : Option Int)
  | status (X : String) (L n : Option K) (hn : ∀ c ∈ n, c = 0) (i : Int) (T : Option Int)

namespace HistoryEvent

def quantity : HistoryEvent K → K
  | .fill e .. => e.qty
  | .status .. => 0

def notional : HistoryEvent K → K
  | .fill e .. => e.qty * e.price
  | .status .. => 0

def commission : HistoryEvent K → K
  | .fill e .. => e.n.getD 0
  | .status .. => 0

/-- The `ORDER_TRADE_UPDATE` sent for the event, `z` being executed before it. -/
def payload (cid : String) (z : K) : HistoryEvent K → OrderTradeUpdate K
  | .fill e X i T =>
    { c := some cid, X := some X, z := some (z + e.qty), i := some i, L := some e.price,
      n := e.n, T := T }
  | .status X L n _ i T =>
    { c := some cid, X := some X, z := some z, i := some i, L := L, n := n, T := T }

end HistoryEvent

/-- The store and what the exchange has executed of the order so far. -/
structure OrderFeed (K : Type*) where
  oms : OMSCore K
  z : K

namespace OrderFeed

def next (cid : String) (s : OrderFeed K) :
    Interleaved (HistoryEvent K) K (fnv1a64 cid) → OrderFeed K
  | .own e => ⟨s.oms.delivered (e.payload cid s.z), s.z + e.quantity⟩
  | .other c _ => ⟨(s.oms.call c).1, s.z⟩

theorem get_next_own (cid : String) (s : OrderFeed K) (e : HistoryEvent K) (k : UInt64) :
    (s.next cid (.own e)).oms.get k =
      if k = fnv1a64 cid then (s.oms.get k).map (e.payload cid s.z).applyTo
      else s.oms.get k := by
  cases e with
  | fill e X i T => exact OMSCore.get_delivered_of_read rfl s.oms k
  | status X L n hn i T => exact OMSCore.get_delivered_of_read rfl s.oms k

end OrderFeed

namespace UpdateArgs

theorem applyTo_cumulativeCommission (u : UpdateArgs K) (r : OrderRecord K) :
    (u.applyTo r).cumulativeCommission =
      if 0 < u.commissionDelta then r.cumulativeCommission + u.commissionDelta
      else r.cumulativeCommission := by
  have hfill : (r.applyFill u.cumulativeFilledQty u.lastFillPrice).cumulativeCommission =
      r.cumulativeCommission := by
    unfold OrderRecord.applyFill
    split_ifs <;> rfl
  unfold applyTo OrderRecord.update
  simp only [hfill]

/-- An increment that is not negative is added, although the code tests its sign. -/
theorem applyTo_cumulativeCommission_of_nonneg {u : UpdateArgs K} (hu : 0 ≤ u.commissionDelta)
    (r : OrderRecord K) :
    (u.applyTo r).cumulativeCommission = r.cumulativeCommission + u.commissionDelta := by
  rw [applyTo_cumulativeCommission]
  rcases hu.lt_or_eq with h | h
  · rw [if_pos h]
  · rw [← h, if_neg (lt_irrefl 0), add_zero]

end UpdateArgs

section
variable [IsStrictOrderedRing K]

/-- What an event adds to the record when nothing before it was lost. -/
theorem HistoryEvent.applyTo_payload (e : HistoryEvent K) (cid : String) {z : K} (hz : 0 ≤ z)
    {r : OrderRecord K} (hr : r.filledQty = z) :
    ((e.payload cid z).applyTo r).filledQty = z + e.quantity ∧
      ((e.payload cid z).applyTo r).cost = r.cost + e.notional ∧
      ((e.payload cid z).applyTo r).cumulativeCommission =
        r.cumulativeCommission + e.commission := by
  cases e with
  | fill e X i T =>
    have hlt : r.filledQty < z + e.qty := by
      rw [hr]
      exact lt_add_of_pos_right z e.qty_pos
    obtain ⟨hqty, hcost⟩ := r.applyFill_priced (hz.trans hr.ge) hlt e.price_pos
    have hn : 0 ≤ e.n.getD 0 := by
      cases hc : e.n with
      | none => exact le_rfl
      | some c => exact e.n_nonneg c hc
    refine ⟨hqty, ?_, UpdateArgs.applyTo_cumulativeCommission_of_nonneg hn r⟩
    show (r.applyFill (z + e.qty) e.price).cost = _
    rw [hcost, hr]
    show _ = r.cost + e.qty * e.price
    ring
  | status X L n hn i T =>
    have hstale : r.applyFill z (L.getD 0) = r := r.applyFill_stale hr.ge _
    have hzero : n.getD 0 = 0 := by
      cases hc : n with
      | none => rfl
      | some c => exact hn c hc
    refine ⟨?_, ?_, ?_⟩
    · show (r.applyFill z (L.getD 0)).filledQty = z + 0
      rw [hstale, hr, add_zero]
    · show (r.applyFill z (L.getD 0)).cost = r.cost + 0
      rw [hstale, add_zero]
    · refine (UpdateArgs.applyTo_cumulativeCommission_of_nonneg hzero.ge r).trans ?_
      exact congrArg _ hzero

namespace OrderFeed

/-- The record has the exchange's totals. -/
structure Accounts (s : OrderFeed K) (key : UInt64) (es : List (HistoryEvent K)) : Prop where
  nonneg : 0 ≤ s.z
  z : s.z = (es.map HistoryEvent.quantity).sum
  record : ∃ r, s.oms.get key = some r ∧ r.filledQty = s.z ∧
    r.cost = (es.map HistoryEvent.notional).sum ∧
    r.cumulativeCommission = (es.map HistoryEvent.commission).sum

omit [IsStrictOrderedRing K] in
theorem accounts_register (oms : OMSCore K) (cid symbol : String) (side : Side)
    (price qty : K) (t : Clock) :
    Accounts ⟨(oms.registerNewOrder cid symbol side price qty t).1, 0⟩ (fnv1a64 cid) [] where
  nonneg := le_rfl
  z := rfl
  record := by
    refine ⟨_, (OMSCore.get_registerNewOrder ..).trans (if_pos rfl), rfl, ?_, rfl⟩
    exact zero_mul _

theorem Accounts.own {s : OrderFeed K} {cid : String} {es : List (HistoryEvent K)}
    (h : s.Accounts (fnv1a64 cid) es) (e : HistoryEvent K) :
    (s.next cid (.own e)).Accounts (fnv1a64 cid) (es ++ [e]) := by
  obtain ⟨r, hr, hqty, hcost, hcomm⟩ := h.record
  obtain ⟨hqty', hcost', hcomm'⟩ := e.applyTo_payload cid h.nonneg hqty
  refine ⟨?_, ?_, (e.payload cid s.z).applyTo r, ?_, hqty', ?_, ?_⟩
  · have hq : 0 ≤ e.quantity := by
      cases e with
      | fill e X i T => exact e.qty_pos.le
      | status X L n hn i T => exact le_rfl
    exact add_nonneg h.nonneg hq
  · show s.z + e.quantity = _
    simp [h.z]
  · rw [get_next_own, if_pos rfl, hr, Option.map_some]
  · simp [hcost', hcost]
  · simp [hcomm', hcomm]

omit [IsStrictOrderedRing K] in
theorem Accounts.other {s : OrderFeed K} {cid : String} {es : List (HistoryEvent K)}
    (h : s.Accounts (fnv1a64 cid) es) (c : OmsCall K) (hc : c.Spares (fnv1a64 cid)) :
    (s.next cid (.other c hc)).Accounts (fnv1a64 cid) es where
  nonneg := h.nonneg
  z := h.z
  record := by
    obtain ⟨r, hr, hrest⟩ := h.record
    exact ⟨r, (s.oms.get_call_of_spares hc).trans hr, hrest⟩

theorem Accounts.run {s : OrderFeed K} {cid : String} {es : List (HistoryEvent K)}
    (h : s.Accounts (fnv1a64 cid) es)
    (l : List (Interleaved (HistoryEvent K) K (fnv1a64 cid))) :
    (l.foldl (next cid) s).Accounts (fnv1a64 cid) (es ++ Interleaved.owns l) := by
  induction l generalizing s es with
  | nil => simpa [Interleaved.owns] using h
  | cons i l ih =>
    cases i with
    | own e => simpa [Interleaved.owns] using ih (h.own e)
    | other c hc => simpa [Interleaved.owns] using ih (h.other c hc)

end OrderFeed

/-- Whatever is called for other orders in between, after every prefix of an
order's history its record has the quantity, the notional and the commission of
the executions so far, and the next event changes no other record. -/
theorem gap_free_accounting (oms : OMSCore K) (cid symbol : String) (side : Side)
    (price qty : K) (t : Clock)
    (l : List (Interleaved (HistoryEvent K) K (fnv1a64 cid))) :
    let start : OrderFeed K := ⟨(oms.registerNewOrder cid symbol side price qty t).1, 0⟩
    let es := Interleaved.owns l
    (∃ r, (l.foldl (OrderFeed.next cid) start).oms.get (fnv1a64 cid) = some r ∧
      r.filledQty = (es.map HistoryEvent.quantity).sum ∧
      r.avgFillPrice * r.filledQty = (es.map HistoryEvent.notional).sum ∧
      r.cumulativeCommission = (es.map HistoryEvent.commission).sum) ∧
    ∀ (e : HistoryEvent K) (k : UInt64), k ≠ fnv1a64 cid →
      ((l ++ [Interleaved.own e]).foldl (OrderFeed.next cid) start).oms.get k =
        (l.foldl (OrderFeed.next cid) start).oms.get k := by
  intro start es
  have h := (OrderFeed.accounts_register oms cid symbol side price qty t).run l
  rw [List.nil_append] at h
  obtain ⟨r, hr, hqty, hcost, hcomm⟩ := h.record
  refine ⟨⟨r, hr, hqty.trans h.z, hcost, hcomm⟩, fun e k hk => ?_⟩
  rw [List.foldl_append]
  exact (OrderFeed.get_next_own ..).trans (if_neg hk)

end

/-- Two executions, one of them charged, with a call for another order between. -/
theorem gap_free_accounting_two_fills :
    let e₁ : Execution ℚ := ⟨1, 100, some (1 / 25), by decide, by decide, by decide +kernel⟩
    let e₂ : Execution ℚ := ⟨3, 104, none, by decide, by decide, by decide⟩
    let l : List (Interleaved (HistoryEvent ℚ) ℚ (fnv1a64 "holo-0")) :=
      [.own (.fill e₁ "PARTIALLY_FILLED" 7 none),
        .other (.release (fnv1a64 "holo-1")) (by decide +kernel),
        .own (.fill e₂ "FILLED" 7 (some 9))]
    let start : OrderFeed ℚ :=
      ⟨(OMSCore.init.registerNewOrder "holo-0" "BTCUSDT" .Buy 100 4 ⟨0, 0⟩).1, 0⟩
    ∃ r, (l.foldl (OrderFeed.next "holo-0") start).oms.get (fnv1a64 "holo-0") = some r ∧
      r.filledQty = 4 ∧ r.avgFillPrice * r.filledQty = 412 ∧ r.cumulativeCommission = 1 / 25 := by
  intro e₁ e₂ l start
  obtain ⟨⟨r, hr, hqty, hcost, hcomm⟩, -⟩ :=
    gap_free_accounting (OMSCore.init : OMSCore ℚ) "holo-0" "BTCUSDT" .Buy 100 4 ⟨0, 0⟩ l
  exact ⟨r, hr, hqty.trans (by decide +kernel), hcost.trans (by decide +kernel),
    hcomm.trans (by decide +kernel)⟩

/-! ## A repeated event -/

namespace OMSCore

/-- `apply_update` for the order under `key`, or a call for another order. -/
def next (key : UInt64) (oms : OMSCore K) : Interleaved (UpdateArgs K) K key → OMSCore K
  | .own u =>
    oms.updated key u.newStatus u.cumulativeFilledQty u.lastFillPrice u.exchangeOrderId u.eventNs
      u.commissionDelta
  | .other c _ => (oms.call c).1

theorem get_next_own (oms : OMSCore K) (u : UpdateArgs K) (k : UInt64) :
    (oms.next key (.own u)).get k =
      if k = key then (oms.get key).map u.applyTo else oms.get k :=
  get_updated ..

/-- Only its own updates make the record of a key. -/
theorem get_foldl_next (l : List (Interleaved (UpdateArgs K) K key)) (oms : OMSCore K) :
    (l.foldl (next key) oms).get key =
      (oms.get key).map fun r => (Interleaved.owns l).foldl (fun r u => u.applyTo r) r := by
  induction l generalizing oms with
  | nil => simp [Interleaved.owns]
  | cons i l ih =>
    rw [List.foldl_cons, ih]
    cases i with
    | own u =>
      rw [get_next_own, if_pos rfl, Option.map_map]
      rfl
    | other c hc =>
      show ((oms.call c).1.get key).map _ = _
      rw [get_call_of_spares oms hc]
      rfl

end OMSCore

namespace UpdateArgs

theorem filledQty_le_applyTo (u : UpdateArgs K) (r : OrderRecord K) :
    r.filledQty ≤ (u.applyTo r).filledQty := by
  show r.filledQty ≤ (r.applyFill u.cumulativeFilledQty u.lastFillPrice).filledQty
  unfold OrderRecord.applyFill
  split_ifs with h h
  · exact h.1.le
  · exact h.le
  · exact le_rfl

/-- What an update reports is in the record from then on. -/
theorem cumulativeFilledQty_le_applyTo (u : UpdateArgs K) (r : OrderRecord K) :
    u.cumulativeFilledQty ≤ (u.applyTo r).filledQty := by
  show _ ≤ (r.applyFill u.cumulativeFilledQty u.lastFillPrice).filledQty
  unfold OrderRecord.applyFill
  split_ifs with h h'
  · exact le_rfl
  · exact le_rfl
  · exact not_lt.mp h'

theorem filledQty_le_foldl_applyTo (us : List (UpdateArgs K)) (r : OrderRecord K) :
    r.filledQty ≤ (us.foldl (fun r u => u.applyTo r) r).filledQty := by
  induction us generalizing r with
  | nil => exact le_rfl
  | cons u us ih => exact (u.filledQty_le_applyTo r).trans (ih _)

/-- The same report as `u`, at another time or under another exchange id. -/
def resent (u : UpdateArgs K) (exchangeOrderId eventNs : Int) : UpdateArgs K :=
  { u with exchangeOrderId := exchangeOrderId, eventNs := eventNs }

/-- A report that the record has already taken in adds its commission, and
nothing else. -/
theorem applyTo_resent {u : UpdateArgs K} {r : OrderRecord K}
    (h : u.cumulativeFilledQty ≤ r.filledQty) (x e : Int) :
    ((u.resent x e).applyTo r).filledQty = r.filledQty ∧
      ((u.resent x e).applyTo r).avgFillPrice = r.avgFillPrice := by
  have hfill : r.applyFill u.cumulativeFilledQty u.lastFillPrice = r := r.applyFill_stale h _
  constructor
  · show (r.applyFill u.cumulativeFilledQty u.lastFillPrice).filledQty = _
    rw [hfill]
  · show (r.applyFill u.cumulativeFilledQty u.lastFillPrice).avgFillPrice = _
    rw [hfill]

theorem commission_resent_iff [IsStrictOrderedRing K] (u : UpdateArgs K) (r : OrderRecord K)
    (x e : Int) :
    ((u.resent x e).applyTo r).cumulativeCommission = r.cumulativeCommission ↔
      ¬ 0 < u.commissionDelta := by
  rw [applyTo_cumulativeCommission]
  show (if 0 < u.commissionDelta then r.cumulativeCommission + u.commissionDelta
    else r.cumulativeCommission) = r.cumulativeCommission ↔ _
  split_ifs with h
  · refine iff_of_false (fun he => h.ne' ?_) (not_not_intro h)
    exact add_eq_left.mp he
  · exact iff_of_true rfl h

end UpdateArgs

/-- The three fields of the accounts. -/
def OrderRecord.SameAccounts (r' r : OrderRecord K) : Prop :=
  r'.filledQty = r.filledQty ∧ r'.avgFillPrice = r.avgFillPrice ∧
    r'.cumulativeCommission = r.cumulativeCommission

/-- `apply_update` calls for any orders. -/
def OMSCore.updateAll (oms : OMSCore K) (us : List (UInt64 × UpdateArgs K)) : OMSCore K :=
  us.foldl (fun o p => o.next p.1 (.own p.2)) oms

theorem OMSCore.filledQty_le_updateAll {oms : OMSCore K} {k : UInt64} {r : OrderRecord K}
    (h : oms.get k = some r) (us : List (UInt64 × UpdateArgs K)) :
    ∃ r', (oms.updateAll us).get k = some r' ∧ r.filledQty ≤ r'.filledQty := by
  induction us generalizing oms r with
  | nil => exact ⟨r, h, le_rfl⟩
  | cons p us ih =>
    by_cases hk : k = p.1
    · have hget : (oms.next p.1 (.own p.2)).get k = some (p.2.applyTo r) := by
        rw [get_next_own, if_pos hk, ← hk, h, Option.map_some]
      obtain ⟨r', hr', hle⟩ := ih hget
      exact ⟨r', hr', (p.2.filledQty_le_applyTo r).trans hle⟩
    · exact ih (by rw [get_next_own, if_neg hk, h])

/-- An update of an order that is delivered again at any later time leaves its
accounts as they were exactly if it carries no positive commission; and the
filled quantity of an order never falls along any updates. -/
theorem redelivery_harmless_iff [IsStrictOrderedRing K] (oms : OMSCore K)
    (cid symbol : String) (side : Side) (price qty : K) (t : Clock)
    (l₁ l₂ : List (Interleaved (UpdateArgs K) K (fnv1a64 cid))) (u : UpdateArgs K) (x e : Int) :
    let s := (l₁ ++ Interleaved.own u :: l₂).foldl (OMSCore.next (fnv1a64 cid))
      (oms.registerNewOrder cid symbol side price qty t).1
    (∃ r r', s.get (fnv1a64 cid) = some r ∧
      (s.next (fnv1a64 cid) (.own (u.resent x e))).get (fnv1a64 cid) = some r' ∧
      (r'.SameAccounts r ↔ ¬ 0 < u.commissionDelta)) ∧
    ∀ (us : List (UInt64 × UpdateArgs K)) (k : UInt64) (r : OrderRecord K), s.get k = some r →
      ∃ r', (s.updateAll us).get k = some r' ∧ r.filledQty ≤ r'.filledQty := by
  intro s
  refine ⟨?_, fun us k r hr => OMSCore.filledQty_le_updateAll hr us⟩
  have hget := OMSCore.get_foldl_next (l₁ ++ Interleaved.own u :: l₂)
    (oms.registerNewOrder cid symbol side price qty t).1
  rw [OMSCore.get_registerNewOrder, if_pos rfl, Option.map_some, Interleaved.owns_append,
    List.foldl_append (l := Interleaved.owns l₁)] at hget
  obtain ⟨r, hr⟩ : ∃ r, s.get (fnv1a64 cid) = some r := ⟨_, hget⟩
  -- the update has been taken in, and nothing since has made the record forget it
  have hle : u.cumulativeFilledQty ≤ r.filledQty := by
    obtain rfl := Option.some.inj (hr.symm.trans hget)
    exact (u.cumulativeFilledQty_le_applyTo _).trans
      (UpdateArgs.filledQty_le_foldl_applyTo (Interleaved.owns l₂) _)
  refine ⟨r, (u.resent x e).applyTo r, hr, ?_, ?_⟩
  · rw [OMSCore.get_next_own, if_pos rfl, hr, Option.map_some]
  · obtain ⟨hq, ha⟩ := UpdateArgs.applyTo_resent hle x e
    unfold OrderRecord.SameAccounts
    rw [and_iff_right hq, and_iff_right ha]
    exact u.commission_resent_iff r x e

/-- A fill without a commission, delivered again after the order was canceled. -/
theorem redelivery_harmless_iff_uncharged :
    let u : UpdateArgs ℚ := ⟨.Partial, 1, 100, 7, 0, 0⟩
    let s := [.own u, .own ⟨.Canceled, 1, 0, 7, 1, 0⟩].foldl (OMSCore.next (fnv1a64 "holo-0"))
      (OMSCore.init.registerNewOrder "holo-0" "BTCUSDT" .Buy 100 2 ⟨0, 0⟩).1
    ∃ r r', s.get (fnv1a64 "holo-0") = some r ∧
      (s.next (fnv1a64 "holo-0") (.own (u.resent 7 2))).get (fnv1a64 "holo-0") = some r' ∧
      r'.SameAccounts r := by
  intro u s
  obtain ⟨⟨r, r', hr, hr', hsame⟩, -⟩ := redelivery_harmless_iff (OMSCore.init : OMSCore ℚ)
    "holo-0" "BTCUSDT" .Buy 100 2 ⟨0, 0⟩ [] [.own ⟨.Canceled, 1, 0, 7, 1, 0⟩] u 7 2
  exact ⟨r, r', hr, hr', hsame.mpr (lt_irrefl 0)⟩

/-- A fill of one at 100 with a commission of 1/25, delivered twice. -/
theorem redelivery_charges_twice :
    let oms := ((OMSCore.init : OMSCore ℚ).registerNewOrder "holo-0" "BTCUSDT" .Buy 100 1
      ⟨0, 0⟩).1
    let u : UpdateArgs ℚ := ⟨.Filled, 1, 100, 7, 0, 1 / 25⟩
    let s := oms.next (fnv1a64 "holo-0") (.own u)
    ¬ ∀ r r', s.get (fnv1a64 "holo-0") = some r →
      (s.next (fnv1a64 "holo-0") (.own (u.resent 7 0))).get (fnv1a64 "holo-0") = some r' →
      r'.SameAccounts r := by
  intro oms u s h
  have htwice : (s.get (fnv1a64 "holo-0")).map (·.cumulativeCommission) = some (1 / 25) ∧
      ((s.next (fnv1a64 "holo-0") (.own (u.resent 7 0))).get (fnv1a64 "holo-0")).map
        (·.cumulativeCommission) = some (2 / 25) := by decide +kernel
  obtain ⟨r, hr, hc⟩ := Option.map_eq_some_iff.mp htwice.1
  obtain ⟨r', hr', hc'⟩ := Option.map_eq_some_iff.mp htwice.2
  have hsame := (h r r' hr hr').2.2
  rw [hc, hc'] at hsame
  norm_num at hsame

end HoloMarket
