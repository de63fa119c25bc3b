import HoloMarket.Net.PairCalls

/-!
# CallEffects: the desk after the calls of a resumption

What a pair does to the book, to the stored records, to the map that keeps fills
from being charged twice and to the channels is what the calls of its resumption
say, whichever of its messages are lost on the way.
-/

namespace HoloMarket

variable {K : Type*} [Field K] [LinearOrder K]

/-! ## New orders -/

namespace Desk

section
variable (d : Desk K) (n : Nat) (leg : ArbLeg K) (price : K) (t : Clock)

omit [LinearOrder K]

theorem register_records :
    (d.register n leg.symbol leg.side price leg.qty t).engine.oms.get =
      Function.update d.engine.oms.get (orderKey n)
        (some (OrderRecord.fresh (clientId n) leg.symbol leg.side price leg.qty t)) := by
  funext k
  rw [register_oms, OMSCore.get_registerNewOrder]
  exact (Function.update_apply ..).symm

/-- A registration is reported to the waiter that its key had before. -/
theorem register_chans (c : Nat) :
    (d.register n leg.symbol leg.side price leg.qty t).engine.chans c = d.engine.chans c ∨
      d.engine.waiters.lookup (orderKey n) = some c := by
  have hkey : fnv1a64 (OrderRecord.fresh (clientId n) leg.symbol leg.side price leg.qty
      t).clientOrderId = orderKey n := congrArg fnv1a64 (makeClientId_clientId n)
  cases hw : d.engine.waiters.lookup (orderKey n) with
  | none =>
    exact Or.inl (congrFun
      (ExecutionEngine.dispatchUpdate_chans_none _ _ (by rw [hkey]; exact hw)) c)
  | some c' =>
    by_cases hc : c = c'
    · exact Or.inr (congrArg some hc.symm)
    · exact Or.inl ((ExecutionEngine.dispatchUpdate_chans _ _ (by rw [hkey]; exact hw)).2 c hc)

omit [Field K] in
theorem waiter_chans (c : Nat) : (d.waiter n).1.engine.chans c = d.engine.chans c ∨
    c = n ∧ (d.waiter n).1.engine.chans c = [] := by
  unfold waiter ExecutionEngine.getOrCreateWaiter
  cases d.engine.waiters.lookup (orderKey n) with
  | none =>
    show Function.update d.engine.chans n [] c = _ ∨
      c = n ∧ Function.update d.engine.chans n [] c = []
    by_cases hc : c = n
    · exact Or.inr ⟨hc, by rw [hc, Function.update_self]⟩
    · exact Or.inl (Function.update_of_ne hc ..)
  | some c' => exact Or.inl rfl

theorem openOrder_records : (d.openOrder leg price t).engine.oms.get =
    Function.update d.engine.oms.get (orderKey d.engine.seq)
      (some (OrderRecord.fresh (clientId d.engine.seq) leg.symbol leg.side price leg.qty t)) :=
  (congrArg OMSCore.get (waiter_oms ..)).trans
    (register_records d.nextClientId.1 d.engine.seq leg price t)

theorem openOrder_chans (c : Nat) :
    (d.openOrder leg price t).engine.chans c = d.engine.chans c ∨
      c = d.engine.seq ∧ (d.openOrder leg price t).engine.chans c = [] ∨
      d.engine.waiters.lookup (orderKey d.engine.seq) = some c := by
  have hreg := register_chans d.nextClientId.1 d.engine.seq leg price t c
  rcases waiter_chans (d.nextClientId.1.register d.engine.seq leg.symbol leg.side price leg.qty t)
    d.engine.seq c with hw | hw
  · exact hreg.imp hw.trans Or.inr
  · exact Or.inr (Or.inl hw)

/-- Both legs of a pair are registered, and then each has its waiter. -/
theorem openPair_records (leg1 leg2 : ArbLeg K) : (d.openPair leg1 leg2 t).engine.oms.get =
    Function.update (Function.update d.engine.oms.get (orderKey d.engine.seq)
      (some (OrderRecord.fresh (clientId d.engine.seq) leg1.symbol leg1.side leg1.price
        leg1.qty t))) (orderKey (d.engine.seq + 1))
      (some (OrderRecord.fresh (clientId (d.engine.seq + 1)) leg2.symbol leg2.side leg2.price
        leg2.qty t)) := by
  refine (congrArg OMSCore.get ((waiter_oms ..).trans (waiter_oms ..))).trans ?_
  refine (register_records _ (d.engine.seq + 1) leg2 leg2.price t).trans ?_
  rw [register_records]
  rfl

theorem openPair_chans (leg1 leg2 : ArbLeg K) (c : Nat) :
    (d.openPair leg1 leg2 t).engine.chans c = d.engine.chans c ∨
      (c = d.engine.seq ∨ c = d.engine.seq + 1) ∧
        (d.openPair leg1 leg2 t).engine.chans c = [] ∨
      d.engine.waiters.lookup (orderKey d.engine.seq) = some c ∨
      d.engine.waiters.lookup (orderKey (d.engine.seq + 1)) = some c := by
  set d₁ := (d.claimPair leg1 leg2).register d.engine.seq leg1.symbol leg1.side leg1.price
    leg1.qty t with hd₁
  set d₂ := (d.claimPair leg1 leg2).registerTwo leg1 leg2 d.engine.seq t with hd₂
  have hwaiters : d₁.engine.waiters = d.engine.waiters := register_waiters ..
  have hreg₁ := register_chans (d.claimPair leg1 leg2) d.engine.seq leg1 leg1.price t c
  have hreg₂ : d₂.engine.chans c = d₁.engine.chans c ∨
      d₁.engine.waiters.lookup (orderKey (d.engine.seq + 1)) = some c :=
    register_chans d₁ (d.engine.seq + 1) leg2 leg2.price t c
  rw [hwaiters] at hreg₂
  unfold openPair openTwo
  rw [← hd₂]
  rcases waiter_chans (d₂.waiter d.engine.seq).1 (d.engine.seq + 1) c with hw₂ | ⟨hc, hw₂⟩
  · rcases waiter_chans d₂ d.engine.seq c with hw₁ | ⟨hc, hw₁⟩
    · rcases hreg₂ with he₂ | he₂
      · rcases hreg₁ with he₁ | he₁
        · exact Or.inl (((hw₂.trans hw₁).trans he₂).trans he₁)
        · exact Or.inr (Or.inr (Or.inl he₁))
      · exact Or.inr (Or.inr (Or.inr he₂))
    · exact Or.inr (Or.inl ⟨Or.inl hc, hw₂.trans hw₁⟩)
  · exact Or.inr (Or.inl ⟨Or.inr hc, hw₂⟩)

end

end Desk

/-! ## What the calls do -/

namespace PairCall

def onBook (b : PnlBook K) : PairCall K → PnlBook K
  | .book _ call => call.apply b
  | _ => b

def onRecords (t : Clock) (s : UInt64 → Option (OrderRecord K)) :
    PairCall K → UInt64 → Option (OrderRecord K)
  | .release n => Function.update s (orderKey n) none
  | .hedge n leg => Function.update s (orderKey n)
      (some (OrderRecord.fresh (clientId n) leg.symbol leg.side 0 leg.qty t))
  | _ => s

end PairCall

namespace Desk

/-- The desk `d'` is `d` with the calls made: none is a hedge, and what is booked is
what `rec` reports. -/
structure Books (t : Clock) (rec : OrderRecord K) (cs : List (PairCall K)) (d d' : Desk K) :
    Prop where
  pnl : d'.engine.pnl = cs.foldl PairCall.onBook d.engine.pnl
  records : d'.engine.oms.get = cs.foldl (PairCall.onRecords t) d.engine.oms.get
  filled : ∀ x, d'.engine.lastFilled.lookup x = d.engine.lastFilled.lookup x ∨
    x = rec.exchangeOrderId ∧ d'.engine.lastFilled.lookup x = some rec.filledQty
  seq : d'.engine.seq = d.engine.seq
  waiters : ∀ k, d'.engine.waiters.lookup k = none ∨
    d'.engine.waiters.lookup k = d.engine.waiters.lookup k
  chans : ∀ c, d'.engine.chans c <:+ d.engine.chans c

section
variable {d d' d₁ : Desk K} {t : Clock} {rec : OrderRecord K} {cs cs₁ : List (PairCall K)}

theorem Waited.books (h : Waited d d') (t : Clock) (rec : OrderRecord K) :
    Books t rec [] d d' where
  pnl := h.pnl
  records := congrArg OMSCore.get h.oms
  filled x := Or.inl (by rw [h.filled])
  seq := h.seq
  waiters k := Or.inr (by rw [h.waiters])
  chans := h.chans

theorem Books.trans (h : Books t rec cs d d₁) (h' : Books t rec cs₁ d₁ d') :
    Books t rec (cs ++ cs₁) d d' where
  pnl := by rw [h'.pnl, h.pnl, List.foldl_append]
  records := by rw [h'.records, h.records, List.foldl_append]
  filled x := by
    rcases h'.filled x with he | he
    · rw [he]
      exact h.filled x
    · exact Or.inr he
  seq := h'.seq.trans h.seq
  waiters k := by
    rcases h'.waiters k with he | he
    · exact Or.inl he
    · rw [he]
      exact h.waiters k
  chans c := (h'.chans c).trans (h.chans c)

theorem books_release (d : Desk K) (t : Clock) (rec : OrderRecord K) (n : Nat) :
    Books t rec [.release n] d (d.releaseTerminal n) where
  pnl := rfl
  records := by
    funext k
    show (d.engine.oms.release (orderKey n)).get k =
      Function.update d.engine.oms.get (orderKey n) none k
    rw [OMSCore.get_release, Function.update_apply]
  filled x := Or.inl rfl
  seq := rfl
  waiters k := by
    show (d.engine.waiters.erase (orderKey n)).lookup k = none ∨ _
    by_cases hk : k = orderKey n
    · rw [hk]
      exact Or.inl (AList.lookup_erase _ _)
    · exact Or.inr (AList.lookup_erase_ne hk)
  chans c := List.suffix_rfl

theorem foldl_fillCalls {α : Type*} {f : α → PairCall K → α} {g : α → PnlCall K → α} {n : Nat}
    (hf : ∀ a c, f a (.book n c) = g a c) (d : Desk K) (rec : OrderRecord K) (leg : ArbLeg K)
    (a : α) : (d.fillCalls rec n leg).foldl f a = (d.engine.pnlCalls (rec, leg)).foldl g a := by
  unfold fillCalls
  rw [List.foldl_map]
  exact congrArg (fun h => List.foldl h a _) (funext fun b => funext fun c => hf b c)

theorem books_fill (d : Desk K) (t : Clock) (rec : OrderRecord K) (n : Nat) (leg : ArbLeg K) :
    Books t rec (d.fillCalls rec n leg) d (d.applyFillPnl rec leg) where
  pnl := by
    rw [foldl_fillCalls (g := PnlCall.apply) (fun _ _ => rfl)]
    exact d.engine.chargeFill_pnl (rec, leg)
  records := by
    rw [foldl_fillCalls (g := fun s _ => s) (fun _ _ => rfl), List.foldl_const]
    exact (Function.iterate_id _ ▸ rfl)
  filled x := by
    show (d.engine.lastFilled.insert rec.exchangeOrderId rec.filledQty).lookup x = _ ∨ _
    by_cases hx : x = rec.exchangeOrderId
    · rw [hx]
      exact Or.inr ⟨rfl, AList.lookup_insert _⟩
    · exact Or.inl (AList.lookup_insert_ne hx)
  seq := rfl
  waiters k := Or.inr rfl
  chans c := List.suffix_rfl

theorem fillCalls_congr (hf : d'.engine.lastFilled = d.engine.lastFilled)
    (hc : d'.engine.lastCommission = d.engine.lastCommission) (rec : OrderRecord K) (n : Nat)
    (leg : ArbLeg K) : d'.fillCalls rec n leg = d.fillCalls rec n leg := by
  unfold fillCalls ExecutionEngine.pnlCalls
  rw [hf, hc]

theorem books_applyPartial (d : Desk K) (t : Clock) (rec : OrderRecord K) (n : Nat)
    (leg : ArbLeg K) :
    Books t rec (d.partialCalls rec n leg) d (d.applyPartial rec leg) := by
  unfold partialCalls applyPartial
  split_ifs
  · exact books_fill d t rec n leg
  · exact (Waited.refl d).books t rec

theorem books_release_fill (d : Desk K) (t : Clock) (rec : OrderRecord K) (n : Nat)
    (leg : ArbLeg K) : Books t rec (.release n :: d.fillCalls rec n leg) d
      ((d.releaseTerminal n).applyFillPnl rec leg) :=
  (books_release d t rec n).trans (books_fill (d.releaseTerminal n) t rec n leg)

theorem books_release_applyPartial (d : Desk K) (t : Clock) (rec : OrderRecord K) (n : Nat)
    (leg : ArbLeg K) : Books t rec (.release n :: d.partialCalls rec n leg) d
      ((d.releaseTerminal n).applyPartial rec leg) :=
  (books_release d t rec n).trans (books_applyPartial (d.releaseTerminal n) t rec n leg)

theorem books_fill_release (d : Desk K) (t : Clock) (rec : OrderRecord K) (n : Nat)
    (leg : ArbLeg K) : Books t rec (d.fillCalls rec n leg ++ [.release n]) d
      ((d.applyFillPnl rec leg).releaseTerminal n) :=
  (books_fill d t rec n leg).trans (books_release (d.applyFillPnl rec leg) t rec n)

theorem books_applyPartial_release (d : Desk K) (t : Clock) (rec : OrderRecord K) (n : Nat)
    (leg : ArbLeg K) : Books t rec (d.partialCalls rec n leg ++ [.release n]) d
      ((d.applyPartial rec leg).releaseTerminal n) :=
  (books_applyPartial d t rec n leg).trans (books_release (d.applyPartial rec leg) t rec n)

theorem Books.waited (h : Books t rec cs d d₁) (hw : Waited d₁ d') : Books t rec cs d d' := by
  have hbooks := h.trans (hw.books t rec)
  rwa [List.append_nil] at hbooks

theorem Books.clearInflight (h : Books t rec cs d d') (p : PairTask K) :
    Books t rec cs d (d'.clearInflight p) := h.waited (waited_clearInflight d' p)

theorem Books.settled (h : Books t rec cs d d') (first : LegIx) (s : OrderStatus) :
    Books t rec (.settled first s :: cs) d d' :=
  ⟨h.pnl, h.records, h.filled, h.seq, h.waiters, h.chans⟩

variable {p : PairTask K}

theorem firstSettled_books (d : Desk K) (t : Clock) (p : PairTask K) (first : LegIx)
    (rec : OrderRecord K) :
    Books t rec (d.firstCalls p first rec) d (d.firstSettled p first rec).1 := by
  unfold firstCalls firstSettled
  split_ifs
  · exact ((books_release d t rec (p.id first)).waited (waited_cancelOrder ..)).settled first _
  · exact (books_fill_release d t rec (p.id first) (p.leg first)).settled first _

/-- The desk `d'` is `d` with the calls made. -/
structure Makes (t : Clock) (rec : OrderRecord K) (cs : List (PairCall K)) (d d' : Desk K) :
    Prop where
  pnl : d'.engine.pnl = cs.foldl PairCall.onBook d.engine.pnl
  records : d'.engine.oms.get = cs.foldl (PairCall.onRecords t) d.engine.oms.get
  filled : ∀ x, d'.engine.lastFilled.lookup x = d.engine.lastFilled.lookup x ∨
    x = rec.exchangeOrderId ∧ d'.engine.lastFilled.lookup x = some rec.filledQty
  seq : d.engine.seq ≤ d'.engine.seq
  /-- A hedge is a new order, registered and handed to the gateway with the quantity
  of its leg. -/
  sent : ∀ n leg, PairCall.hedge n leg ∈ cs → n = d.engine.seq ∧ d'.engine.seq = n + 1 ∧
    d'.engine.oms.get (orderKey n) =
      some (OrderRecord.fresh (clientId n) leg.symbol leg.side 0 leg.qty t) ∧
    d'.exchange n = some (VenueOrder.arrive (clientId n) leg.symbol leg.side leg.qty
      (d'.orderId n))
  /-- Messages are taken; the channel of a hedge is new, unless its key was in use. -/
  chans : ∀ c, d'.engine.chans c <:+ d.engine.chans c ∨ ∃ n leg, PairCall.hedge n leg ∈ cs ∧
    (c = n ∧ d'.engine.chans c = [] ∨ d.engine.waiters.lookup (orderKey n) = some c)

theorem Books.makes (h : Books t rec cs d d') (hc : ∀ n leg, PairCall.hedge n leg ∉ cs) :
    Makes t rec cs d d' where
  pnl := h.pnl
  records := h.records
  filled := h.filled
  seq := h.seq.ge
  sent n leg hn := absurd hn (hc n leg)
  chans c := Or.inl (h.chans c)

theorem Books.opened (h : Books t rec cs d d') (hc : ∀ n leg, PairCall.hedge n leg ∉ cs)
    (leg : ArbLeg K) :
    Makes t rec (cs ++ [.hedge d.engine.seq leg]) d (d'.openOrder leg 0 t) := by
  have hacc : _ = d'.engine.accounts := openOrder_accounts leg 0 t
  obtain ⟨hpnl, hfilled⟩ := Prod.mk.inj hacc
  have hseq : _ = d'.engine.seq + 1 := openOrder_seq leg 0 t
  have hmem : PairCall.hedge d.engine.seq leg ∈ cs ++ [.hedge d.engine.seq leg] :=
    List.mem_append_right _ List.mem_cons_self
  refine ⟨?_, ?_, fun x => ?_, ?_, fun n leg' hn => ?_, fun c => ?_⟩
  · rw [List.foldl_append]
    exact hpnl.trans h.pnl
  · rw [List.foldl_append, openOrder_records, h.records, h.seq]
    rfl
  · rw [hfilled]
    exact h.filled x
  · rw [hseq, h.seq]
    exact Nat.le_succ _
  · have hlast := (List.mem_append.mp hn).resolve_left (hc n leg')
    cases List.mem_singleton.mp hlast
    refine ⟨rfl, by rw [hseq, h.seq], ?_, ?_⟩
    · rw [openOrder_records, h.seq, Function.update_self]
    · rw [openOrder_exchange, h.seq, Function.update_self]
      rfl
  · rcases openOrder_chans d' leg 0 t c with he | he | he
    · rw [he]
      exact Or.inl (h.chans c)
    · rw [h.seq] at he
      exact Or.inr ⟨_, _, hmem, Or.inl he⟩
    · rw [h.seq] at he
      rcases h.waiters (orderKey d.engine.seq) with hw | hw
      · rw [he] at hw
        cases hw
      · exact Or.inr ⟨_, _, hmem, Or.inr (hw.symm.trans he)⟩

theorem Books.hedged (h : Books t rec cs d d') (hc : ∀ n leg, PairCall.hedge n leg ∉ cs)
    (p : PairTask K) (first : LegIx) (remaining : K) :
    Makes t rec (cs ++ d.hedgeCalls p first remaining) d
      (d'.hedgeRemaining p first remaining t).1 := by
  unfold hedgeCalls
  by_cases hle : remaining ≤ ExecutionEngine.qtyEps
  · rw [if_pos hle, List.append_nil, hedgeRemaining_done t hle]
    exact (h.clearInflight p).makes hc
  · rw [if_neg hle, hedgeRemaining_open t hle]
    exact h.opened hc { p.leg first.other with qty := remaining }

/-! ## Every resumption -/

theorem hedge_not_mem_fillCalls (n : Nat) (leg : ArbLeg K) (m : Nat) (leg' : ArbLeg K) :
    PairCall.hedge m leg' ∉ d.fillCalls rec n leg := by
  intro hmem
  obtain ⟨c, -, hc⟩ := List.mem_map.mp hmem
  cases hc

theorem hedge_not_mem_partialCalls (n : Nat) (leg : ArbLeg K) (m : Nat) (leg' : ArbLeg K) :
    PairCall.hedge m leg' ∉ d.partialCalls rec n leg := by
  unfold partialCalls
  split_ifs
  · exact hedge_not_mem_fillCalls n leg m leg'
  · exact List.not_mem_nil

theorem Waited.fillCalls (h : Waited d d') (rec : OrderRecord K) (n : Nat) (leg : ArbLeg K) :
    d'.fillCalls rec n leg = d.fillCalls rec n leg :=
  fillCalls_congr h.filled h.commission rec n leg

theorem Waited.partialCalls (h : Waited d d') (rec : OrderRecord K) (n : Nat) (leg : ArbLeg K) :
    d'.partialCalls rec n leg = d.partialCalls rec n leg := by
  unfold Desk.partialCalls
  rw [h.fillCalls]

theorem Waited.hedgeCalls (h : Waited d d') (p : PairTask K) (first : LegIx) (remaining : K) :
    d'.hedgeCalls p first remaining = d.hedgeCalls p first remaining := by
  unfold Desk.hedgeCalls
  rw [h.seq]

theorem Makes.after (h : Waited d d₁) (hm : Makes t rec cs d₁ d') : Makes t rec cs d d' where
  pnl := by rw [hm.pnl, h.pnl]
  records := by rw [hm.records, h.oms]
  filled x := by
    rw [← h.filled]
    exact hm.filled x
  seq := h.seq ▸ hm.seq
  sent n leg hn := h.seq ▸ hm.sent n leg hn
  chans c := by
    rw [← h.waiters]
    exact (hm.chans c).imp_left fun hc => hc.trans (h.chans c)

section
variable (first : LegIx) (h : Waited d d₁)

include h

theorem firstSettled_makes :
    Makes t rec (d.firstCalls p first rec) d (d₁.firstSettled p first rec).1 := by
  have hcalls : d₁.firstCalls p first rec = d.firstCalls p first rec := by
    unfold firstCalls
    rw [h.fillCalls]
  rw [← hcalls]
  refine .after h ((firstSettled_books d₁ t p first rec).makes fun n leg hmem => ?_)
  unfold firstCalls at hmem
  split_ifs at hmem
  · simp at hmem
  · have hfill : PairCall.hedge n leg ∉ d₁.fillCalls rec (p.id first) (p.leg first) :=
      hedge_not_mem_fillCalls _ _ n leg
    simp [hfill] at hmem

theorem partnerSettled_makes :
    Makes t rec (d.partnerCalls p first rec) d (d₁.partnerSettled p first rec t).1 := by
  unfold partnerCalls partnerSettled
  dsimp only
  rw [← h.fillCalls, ← h.hedgeCalls]
  refine .after h ?_
  split_ifs
  · refine (books_release_fill d₁ t rec _ _).hedged (fun n leg hmem => ?_) p first _
    have hfill := (List.mem_cons.mp hmem).resolve_left (by rintro ⟨⟩)
    exact hedge_not_mem_fillCalls _ _ n leg hfill
  · exact ((books_release d₁ t rec _).clearInflight p).makes fun n leg hmem => by simp at hmem

theorem restingRaced_makes :
    Makes t rec (d.racedCalls p first rec) d (d₁.restingRaced p first rec t).1 := by
  unfold racedCalls restingRaced
  rw [← h.fillCalls, ← h.partialCalls, ← h.hedgeCalls]
  refine .after h ?_
  split_ifs
  · refine ((books_fill_release d₁ t rec _ _).clearInflight p).makes fun n leg hmem => ?_
    have hfill := (List.mem_append.mp hmem).resolve_right (by simp)
    exact hedge_not_mem_fillCalls _ _ n leg hfill
  · have hbooks := books_applyPartial_release d₁ t rec (p.id first.other) (p.leg first.other)
    have hmakes := hbooks.hedged (fun n leg hmem => ?_) p first (rec.qty - rec.filledQty)
    · rwa [List.append_assoc] at hmakes
    · have hpart := (List.mem_append.mp hmem).resolve_right (by simp)
      exact hedge_not_mem_partialCalls _ _ n leg hpart

theorem restingSettled_makes :
    Makes t rec (d.restingCalls p first rec) d (d₁.restingSettled p first rec t).1 := by
  unfold restingCalls restingSettled
  dsimp only
  rw [← h.fillCalls, ← h.partialCalls, ← h.hedgeCalls]
  refine .after h ?_
  split_ifs
  · refine ((books_release_fill d₁ t rec _ _).clearInflight p).makes fun n leg hmem => ?_
    have hfill := (List.mem_cons.mp hmem).resolve_left (by rintro ⟨⟩)
    exact hedge_not_mem_fillCalls _ _ n leg hfill
  · refine (books_release_applyPartial d₁ t rec _ _).hedged (fun n leg hmem => ?_) p first _
    have hpart := (List.mem_cons.mp hmem).resolve_left (by rintro ⟨⟩)
    exact hedge_not_mem_partialCalls _ _ n leg hpart

theorem hedgeSettled_makes (n : Nat) :
    Makes t rec (d.watchCalls p first rec n) d (d₁.hedgeSettled p first n rec).1 := by
  unfold watchCalls hedgeSettled
  rw [← h.partialCalls]
  refine .after h ((books_applyPartial_release d₁ t rec n _).makes fun m leg hmem => ?_)
  have hpart := (List.mem_append.mp hmem).resolve_right (by simp)
  exact hedge_not_mem_partialCalls _ _ m leg hpart

end

/-- The desk after a resumption is the desk before it with the calls made that
`calls` lists. -/
theorem Goes.makes {r : Resumption} {pc' : PairPc} (h : Goes d p r t cs d' pc') :
    ∃ rec, Makes t rec cs d d' := by
  cases h with
  | waits hw =>
    exact ⟨OrderRecord.empty, (hw.books t _).makes fun _ _ => List.not_mem_nil⟩
  | first x _ hw => exact ⟨_, firstSettled_makes x hw⟩
  | partner x _ hw => exact ⟨_, partnerSettled_makes x hw⟩
  | raced x _ hw => exact ⟨_, restingRaced_makes x hw⟩
  | resting x _ hw => exact ⟨_, restingSettled_makes x hw⟩
  | hedge x n _ _ hw => exact ⟨_, hedgeSettled_makes x hw n⟩

end

end Desk

/-! ## What is in the calls -/

namespace PairCall

def released : PairCall K → Option Nat
  | .release n => some n
  | _ => none

def hedged : PairCall K → Option (Nat × ArbLeg K)
  | .hedge n leg => some (n, leg)
  | _ => none

/-- What the book receives for the order `n`: symbol, side and quantity. -/
def received (n : Nat) : PairCall K → Option (String × Side × K)
  | .book m (.applyFill symbol side q _) => if m = n then some (symbol, side, q) else none
  | _ => none

variable {cs : List (PairCall K)} {n : Nat} {leg : ArbLeg K}

omit [Field K] [LinearOrder K]

theorem mem_released (h : PairCall.release n ∈ cs) : n ∈ cs.filterMap released :=
  List.mem_filterMap.mpr ⟨_, h, rfl⟩

theorem mem_hedged : PairCall.hedge n leg ∈ cs ↔ (n, leg) ∈ cs.filterMap hedged := by
  rw [List.mem_filterMap]
  constructor
  · exact fun h => ⟨_, h, rfl⟩
  · rintro ⟨c, hc, he⟩
    cases c with
    | hedge m leg' =>
      cases he
      exact hc
    | _ => cases he

end PairCall

namespace Desk

section
variable {d d₁ : Desk K} {p : PairTask K} {first : LegIx} {rec : OrderRecord K} {n : Nat}
  {leg : ArbLeg K}

theorem filterMap_fillCalls {β : Type*} {f : PairCall K → Option β}
    (hf : ∀ c, f (.book n c) = none) : (d.fillCalls rec n leg).filterMap f = [] := by
  refine List.filterMap_eq_nil_iff.mpr fun c hc => ?_
  obtain ⟨call, -, rfl⟩ := List.mem_map.mp hc
  exact hf call

theorem filterMap_partialCalls {β : Type*} {f : PairCall K → Option β}
    (hf : ∀ c, f (.book n c) = none) : (d.partialCalls rec n leg).filterMap f = [] := by
  unfold partialCalls
  split_ifs
  · exact filterMap_fillCalls hf
  · rfl

/-- The order that did not settle first is released, and what a hedge is for is
what it left. -/
structure Closes (d : Desk K) (p : PairTask K) (first : LegIx) (rec : OrderRecord K)
    (cs : List (PairCall K)) (pc' : PairPc) : Prop where
  released : cs.filterMap PairCall.released = [p.id first.other]
  hedged : cs.filterMap PairCall.hedged = [] ∧ pc'.phase = .ended first ∨
    cs.filterMap PairCall.hedged =
        [(d.engine.seq, { p.leg first.other with qty := rec.qty - rec.filledQty })] ∧
      pc'.phase = .hedging first d.engine.seq

theorem released_hedgeCalls (remaining : K) :
    (d.hedgeCalls p first remaining).filterMap PairCall.released = [] := by
  unfold hedgeCalls
  split_ifs <;> rfl

theorem hedgeCalls_closes (h : d₁.engine.seq = d.engine.seq) (t : Clock) (remaining : K) :
    (d.hedgeCalls p first remaining).filterMap PairCall.hedged = [] ∧
        (d₁.hedgeRemaining p first remaining t).2.phase = .ended first ∨
      (d.hedgeCalls p first remaining).filterMap PairCall.hedged =
          [(d.engine.seq, { p.leg first.other with qty := remaining })] ∧
        (d₁.hedgeRemaining p first remaining t).2.phase = .hedging first d.engine.seq := by
  unfold hedgeCalls
  by_cases hle : remaining ≤ ExecutionEngine.qtyEps
  · rw [if_pos hle, hedgeRemaining_done t hle]
    exact Or.inl ⟨rfl, rfl⟩
  · rw [if_neg hle, hedgeRemaining_open t hle, ← h]
    exact Or.inr ⟨rfl, rfl⟩

section
variable (first) (rec) (h : Waited d d₁) (t : Clock)

include h

theorem partnerSettled_closes : Closes d p first rec (d.partnerCalls p first rec)
    (d₁.partnerSettled p first rec t).2 := by
  unfold partnerCalls partnerSettled
  dsimp only
  split_ifs
  · have hseq : ((d₁.releaseTerminal (p.id first.other)).applyFillPnl rec
        (p.leg first.other)).engine.seq = d.engine.seq := h.seq
    refine ⟨?_, ?_⟩
    · rw [List.filterMap_cons, List.filterMap_append, filterMap_fillCalls fun _ => rfl,
        released_hedgeCalls]
      rfl
    · rw [List.filterMap_cons, List.filterMap_append, filterMap_fillCalls fun _ => rfl]
      exact hedgeCalls_closes hseq t _
  · exact ⟨rfl, Or.inl ⟨rfl, rfl⟩⟩

theorem restingRaced_closes : Closes d p first rec (d.racedCalls p first rec)
    (d₁.restingRaced p first rec t).2 := by
  unfold racedCalls restingRaced
  split_ifs
  · refine ⟨?_, Or.inl ⟨?_, rfl⟩⟩ <;>
      rw [List.filterMap_append, filterMap_fillCalls fun _ => rfl] <;> rfl
  · have hseq : ((d₁.applyPartial rec (p.leg first.other)).releaseTerminal
        (p.id first.other)).engine.seq = d.engine.seq :=
      (books_applyPartial d₁ t rec (p.id first.other) (p.leg first.other)).seq.trans h.seq
    refine ⟨?_, ?_⟩
    · rw [List.filterMap_append, List.filterMap_cons, filterMap_partialCalls fun _ => rfl,
        released_hedgeCalls]
      rfl
    · rw [List.filterMap_append, List.filterMap_cons, filterMap_partialCalls fun _ => rfl]
      exact hedgeCalls_closes hseq t _

theorem restingSettled_closes : Closes d p first rec (d.restingCalls p first rec)
    (d₁.restingSettled p first rec t).2 := by
  unfold restingCalls restingSettled
  dsimp only
  split_ifs
  · refine ⟨?_, Or.inl ⟨?_, rfl⟩⟩ <;>
      rw [List.filterMap_cons, filterMap_fillCalls fun _ => rfl] <;> rfl
  · have hseq : ((d₁.releaseTerminal (p.id first.other)).applyPartial rec
        (p.leg first.other)).engine.seq = d.engine.seq :=
      (books_release_applyPartial d₁ t rec (p.id first.other) (p.leg first.other)).seq.trans h.seq
    refine ⟨?_, ?_⟩
    · rw [List.filterMap_cons, List.filterMap_append, filterMap_partialCalls fun _ => rfl,
        released_hedgeCalls]
      rfl
    · rw [List.filterMap_cons, List.filterMap_append, filterMap_partialCalls fun _ => rfl]
      exact hedgeCalls_closes hseq t _

end

/-- The order `n` is settled on `rec` and released; a hedge takes its place, or
none does. -/
structure Retires (d d' : Desk K) (p : PairTask K) (pc' : PairPc) (t : Clock)
    (cs : List (PairCall K)) (n : Nat) (rec : OrderRecord K) : Prop where
  learned : d.Learned n n rec
  makes : Makes t rec cs d d'
  released : cs.filterMap PairCall.released = [n]
  stays : ∃ stay, (p.openAt p.pc.phase).Perm (n :: stay) ∧
    p.openAt pc'.phase = stay ++ (cs.filterMap PairCall.hedged).map Prod.fst

theorem Closes.retires {d' : Desk K} {pc' : PairPc} {t : Clock} {cs : List (PairCall K)}
    (h : Closes d p first rec cs pc') (hm : Makes t rec cs d d')
    (hpc : p.openAt p.pc.phase = [p.id first.other])
    (hl : d.Learned (p.id first.other) (p.id first.other) rec) :
    Retires d d' p pc' t cs (p.id first.other) rec := by
  refine ⟨hl, hm, h.released, [], hpc ▸ .refl _, ?_⟩
  rcases h.hedged with ⟨hnone, hphase⟩ | ⟨hsome, hphase⟩
  · rw [hnone, hphase]
    rfl
  · rw [hsome, hphase]
    rfl

/-- A pair waits on, or an order of it is settled and released. -/
theorem Goes.retires {d' : Desk K} {r : Resumption} {pc' : PairPc} {t : Clock}
    {cs : List (PairCall K)} (h : Goes d p r t cs d' pc') (hchan : ∀ x, p.chan x = p.id x)
    (hwired : p.pc.HedgeWired) :
    cs = [] ∧ Waited d d' ∧ pc'.phase = p.pc.phase ∨
      ∃ n rec, Retires d d' p pc' t cs n rec := by
  cases h with
  | waits hw hpc => exact Or.inl ⟨rfl, hw, hpc⟩
  | @first d₁ rec x hpc hw hm ht =>
    rw [hchan] at hm
    refine Or.inr ⟨p.id x, rec, .message hm ht, firstSettled_makes x hw, ?_, [p.id x.other], ?_, ?_⟩
    · unfold firstCalls
      split_ifs
      · rfl
      · rw [List.filterMap_cons, List.filterMap_append, filterMap_fillCalls fun _ => rfl]
        rfl
    · rw [hpc]
      cases x with
      | leg1 => exact .refl _
      | leg2 => exact .swap ..
    · unfold firstCalls firstSettled
      split_ifs
      · rfl
      · rw [List.filterMap_cons, List.filterMap_append, filterMap_fillCalls fun _ => rfl]
        rfl
  | partner x hpc hw hl =>
    rw [hchan] at hl
    exact Or.inr ⟨_, _, (partnerSettled_closes x _ hw t).retires (partnerSettled_makes x hw)
      (congrArg p.openAt hpc) hl⟩
  | raced x hpc hw hl =>
    rw [hchan] at hl
    exact Or.inr ⟨_, _, (restingRaced_closes x _ hw t).retires (restingRaced_makes x hw)
      (congrArg p.openAt hpc) hl⟩
  | resting x hpc hw hl =>
    rw [hchan] at hl
    exact Or.inr ⟨_, _, (restingSettled_closes x _ hw t).retires (restingSettled_makes x hw)
      (congrArg p.openAt hpc) hl⟩
  | @hedge d₁ rec x n c hpc hw hm ht =>
    rw [hpc] at hwired
    cases hwired
    refine Or.inr ⟨n, rec, .message hm ht, hedgeSettled_makes x hw n, ?_, [], ?_, ?_⟩
    · unfold watchCalls
      rw [List.filterMap_append, filterMap_partialCalls fun _ => rfl]
      rfl
    · rw [hpc]
      exact .refl _
    · unfold watchCalls
      rw [List.filterMap_append, filterMap_partialCalls fun _ => rfl]
      rfl

end

end Desk
end HoloMarket
