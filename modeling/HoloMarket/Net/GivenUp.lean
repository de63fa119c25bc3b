import HoloMarket.Net.PairOutcome

/-!
# GivenUp: the acknowledgement timer expires first

When `kCancelAckTimeout` expires while the other leg is still live, or its last
update is under way, the hedge is sized by what the record says at that moment,
and the order is released and left to the exchange.  The leg and its hedge then
execute no more than the leg was for as long as the order executes no more than
was recorded.
-/

namespace HoloMarket

variable {K : Type*} [Field K] [LinearOrder K]

namespace Desk

/-- The order that a resumption gives up, with the quantity recorded as filled. -/
def gaveUp (d : Desk K) (p : PairTask K) (r : Resumption) : List (Nat × K) :=
  match p.pc with
  | .awaitingPartner first | .awaitingResting first =>
    if d.AckInTime p r then []
    else [(p.id first.other, (d.lastKnown (p.id first.other)).filledQty)]
  | _ => []

end Desk

namespace PairTask

/-- A pair that has given up the order of its other leg: the hedge is for what was left
of the leg by one of the quantities in `given`. -/
def GivenUp (given : List (Nat × K)) (d : Desk K) (p : PairTask K) : PairPc → Prop
  | .sendingHedge first h _ | .watchingHedge first h _ | .finished first (some h) =>
    d.Placed (p.id first) (p.leg first) ∧ d.Placed (p.id first.other) (p.leg first.other) ∧
      ∃ filled, (p.id first.other, filled) ∈ given ∧ d.Placed h (p.hedgeLeg first filled)
  | .finished first none =>
    d.Placed (p.id first) (p.leg first) ∧ d.Placed (p.id first.other) (p.leg first.other)
  | .threw point => p.GivenUp given d point
  | _ => False

variable {given : List (Nat × K)} {d d' : Desk K} {p : PairTask K}

theorem givenUp_setPc (given : List (Nat × K)) (d : Desk K) (p : PairTask K) (pc₀ pc : PairPc) :
    ({ p with pc := pc₀ } : PairTask K).GivenUp given d pc = p.GivenUp given d pc := by
  induction pc with
  | threw point ih => exact ih
  | finished first hedge => cases hedge <;> rfl
  | _ => rfl

theorem GivenUp.keeps {given' : List (Nat × K)} (hgiven : given ⊆ given')
    (hid : ∀ x leg, d.Placed (p.id x) leg → d'.Placed (p.id x) leg) {pc : PairPc}
    (hhedge : ∀ n, pc.hedge = some n → ∀ leg, d.Placed n leg → d'.Placed n leg)
    (h : p.GivenUp given d pc) : p.GivenUp given' d' pc := by
  induction pc with
  | sendingHedge first n chan | watchingHedge first n chan =>
    obtain ⟨hv, hw, filled, hmem, hh⟩ := h
    exact ⟨hid _ _ hv, hid _ _ hw, filled, hgiven hmem, hhedge n rfl _ hh⟩
  | finished first hedge =>
    cases hedge with
    | none => exact ⟨hid _ _ h.1, hid _ _ h.2⟩
    | some n =>
      obtain ⟨hv, hw, filled, hmem, hh⟩ := h
      exact ⟨hid _ _ hv, hid _ _ hw, filled, hgiven hmem, hhedge n rfl _ hh⟩
  | threw point ih => exact ih hhedge h
  | _ => exact h.elim

end PairTask

namespace Desk

variable {given : List (Nat × K)} {d d' : Desk K} {p : PairTask K} {first : LegIx}

/-! ## What a pair knows when it gives up -/

omit [Field K] [LinearOrder K] in
theorem takeMsg_exchange {c : Nat} {r : OrderRecord K} (h : d.takeMsg c = some (r, d')) :
    d'.exchange = d.exchange ∧ d'.orderId = d.orderId := by
  unfold takeMsg at h
  split at h
  · cases h
  · cases h
    exact ⟨rfl, rfl⟩

theorem applyPartial_exchange (d : Desk K) (r : OrderRecord K) (leg : ArbLeg K) :
    (d.applyPartial r leg).exchange = d.exchange ∧
      (d.applyPartial r leg).orderId = d.orderId := by
  unfold applyPartial
  split_ifs <;> exact ⟨rfl, rfl⟩

/-- A step that leaves the orders at the exchange leaves a pair that has given up. -/
theorem GivenUp.of_exchange (pc : PairPc) (h : p.GivenUp given d pc)
    (hx : d'.exchange = d.exchange ∧ d'.orderId = d.orderId) : p.GivenUp given d' pc := by
  have hplaced : ∀ n leg, d.Placed n leg → d'.Placed n leg := fun n leg hp =>
    hp.of_order_eq (congrFun hx.1 n) hx.2
  exact h.keeps (List.Subset.refl _) (fun x => hplaced _) fun n _ => hplaced n

/-- Behind the hedge, the pair waits for nothing but the hedge. -/
theorem GivenUp.resume {r : Resumption} {t : Clock} {pc' : PairPc}
    (h : p.GivenUp given d p.pc) (hres : d.resume p r t = some (d', pc')) :
    p.GivenUp given d' pc' := by
  unfold Desk.resume at hres
  cases hpc : p.pc with
  | sendingHedge first n chan =>
    rw [hpc] at h hres
    cases r with
    | sent =>
      cases hres
      exact GivenUp.of_exchange (.watchingHedge first n chan) h ⟨rfl, rfl⟩
    | threw =>
      cases hres
      exact GivenUp.of_exchange (.threw (.sendingHedge first n chan)) h ⟨rfl, rfl⟩
    | _ => cases hres
  | watchingHedge first n chan =>
    rw [hpc] at h hres
    cases r with
    | receiveHedge =>
      obtain ⟨⟨m, d₁⟩, htake, hres⟩ := Option.map_eq_some_iff.mp hres
      have h₁ : p.GivenUp given d₁ (.watchingHedge first n chan) :=
        GivenUp.of_exchange _ h (takeMsg_exchange htake)
      dsimp only at hres
      split_ifs at hres
      · cases hres
        exact GivenUp.of_exchange (.finished first (some n)) h₁ (applyPartial_exchange ..)
      · cases hres
        rw [hpc]
        exact h₁
    | _ => cases hres
  | finished first hedge =>
    rw [hpc] at hres
    cases hres
  | threw point =>
    rw [hpc] at hres
    cases hres
  | _ =>
    rw [hpc] at h
    exact h.elim

variable [IsStrictOrderedRing K]

theorem hedgeRemaining_givenUp (hd : d.Ok) (hlt : ∀ x, p.id x < d.engine.seq)
    (hv : d.Placed (p.id first) (p.leg first))
    (hw : d.Placed (p.id first.other) (p.leg first.other)) {remaining filled : K}
    (hrem : remaining = (p.leg first.other).qty - filled)
    (hmem : (p.id first.other, filled) ∈ given) (t : Clock)
    (hk : KeysDistinct (d.hedgeRemaining p first remaining t).1.engine.seq) :
    p.GivenUp given (d.hedgeRemaining p first remaining t).1
      (d.hedgeRemaining p first remaining t).2 := by
  by_cases hle : remaining ≤ ExecutionEngine.qtyEps
  · rw [hedgeRemaining_done t hle]
    exact GivenUp.of_exchange (.finished first none) ⟨hv, hw⟩ ⟨rfl, rfl⟩
  · have hpos : 0 < ({ p.leg first.other with qty := remaining } : ArbLeg K).qty :=
      ExecutionEngine.qtyEps_pos.trans (not_le.mp hle)
    rw [hedgeRemaining_open t hle] at hk ⊢
    rw [openOrder_seq] at hk
    obtain ⟨-, htracked, hframe, -⟩ :=
      hd.openOrder { p.leg first.other with qty := remaining } 0 t hk hpos
    have hold : ∀ x leg, d.Placed (p.id x) leg →
        (d.openOrder { p.leg first.other with qty := remaining } 0 t).Placed (p.id x) leg :=
      fun x => (Keeps.of_cell_eq (hframe.cell _ (hlt x) List.not_mem_nil) hframe.orderId).placed
    refine ⟨hold first _ hv, hold first.other _ hw, filled, hmem, ?_⟩
    unfold PairTask.hedgeLeg
    rw [← hrem]
    exact htracked.placed

section
variable (hd : d.Ok) (hlt : ∀ x, p.id x < d.engine.seq) (hv : d.Placed (p.id first) (p.leg first))
  (hw : d.Placed (p.id first.other) (p.leg first.other)) {rec : OrderRecord K}
  (hqty : rec.qty = (p.leg first.other).qty) (hmem : (p.id first.other, rec.filledQty) ∈ given)
  (t : Clock)

include hd hlt hv hw hqty hmem

theorem partnerSettled_givenUp
    (hk : KeysDistinct (d.partnerSettled p first rec t).1.engine.seq) :
    p.GivenUp given (d.partnerSettled p first rec t).1 (d.partnerSettled p first rec t).2 := by
  have hrem : rec.qty - rec.filledQty = (p.leg first.other).qty - rec.filledQty := by rw [hqty]
  unfold partnerSettled at hk ⊢
  dsimp only at hk ⊢
  split_ifs at hk ⊢
  · have hd' : ((d.releaseTerminal (p.id first.other)).applyFillPnl rec (p.leg first.other)).Ok :=
      (hd.releaseTerminal _).of_eq rfl rfl rfl rfl
    exact hedgeRemaining_givenUp hd' hlt (hv.of_order_eq rfl rfl) (hw.of_order_eq rfl rfl) hrem
      hmem t hk
  · exact GivenUp.of_exchange (.finished first none) ⟨hv, hw⟩ ⟨rfl, rfl⟩

theorem restingSettled_givenUp
    (hk : KeysDistinct (d.restingSettled p first rec t).1.engine.seq) :
    p.GivenUp given (d.restingSettled p first rec t).1 (d.restingSettled p first rec t).2 := by
  have hrem : rec.qty - rec.filledQty = (p.leg first.other).qty - rec.filledQty := by rw [hqty]
  unfold restingSettled at hk ⊢
  dsimp only at hk ⊢
  split_ifs at hk ⊢
  · exact GivenUp.of_exchange (.finished first none) ⟨hv, hw⟩ ⟨rfl, rfl⟩
  · have hseq : ((d.releaseTerminal (p.id first.other)).applyPartial rec
        (p.leg first.other)).engine.seq = d.engine.seq := applyPartial_seq ..
    obtain ⟨hx, ho⟩ :=
      applyPartial_exchange (d.releaseTerminal (p.id first.other)) rec (p.leg first.other)
    exact hedgeRemaining_givenUp (quiet_applyPartial (hd.releaseTerminal _) rec _ []).desk
      (fun x => hseq ▸ hlt x) (hv.of_order_eq (congrFun hx _) ho)
      (hw.of_order_eq (congrFun hx _) ho) hrem hmem t hk

end

omit [IsStrictOrderedRing K] in
theorem lastKnown_eq {n : Nat} {leg : ArbLeg K} {v : VenueOrder K} {rec : OrderRecord K}
    (ht : d.Tracks n leg v rec) : d.lastKnown n = rec := by
  have hget : d.engine.oms.get (orderKey n) = some rec := ht.record
  unfold lastKnown
  rw [hget]
  rfl

/-- The timer expires first: the order is released and left to the exchange. -/
theorem resume_givenUp (hd : d.Ok) (hwired : p.Wired d.engine.seq) (hok : p.Ok d)
    {r : Resumption} {t : Clock} {pc' : PairPc} (hack : ¬d.AckInTime p r = true)
    (hres : d.resume p r t = some (d', pc')) (hk : KeysDistinct d'.engine.seq) :
    p.GivenUp (d.gaveUp p r) d' pc' := by
  obtain ⟨first, lost, hpc, rfl⟩ : ∃ first lost,
      (p.pc = .awaitingPartner first ∨ p.pc = .awaitingResting first) ∧ r = .timeout lost := by
    unfold AckInTime at hack
    split at hack
    · exact ⟨_, _, Or.inl ‹_›, rfl⟩
    · exact ⟨_, _, Or.inr ‹_›, rfl⟩
    · exact absurd rfl hack
  have hlegs : d.Placed (p.id first) (p.leg first) ∧
      d.Tracked (p.id first.other) (p.leg first.other) := by
    unfold PairTask.Ok at hok
    rcases hpc with hpc | hpc <;> rw [hpc] at hok
    · obtain ⟨⟨v, hv, -⟩, ht⟩ := hok
      exact ⟨hv.placed, ht⟩
    · obtain ⟨⟨v, hv, -⟩, ht⟩ := hok
      exact ⟨hv.placed, ht⟩
  obtain ⟨hv, w, rec, ht⟩ := hlegs
  have hgave : d.gaveUp p (.timeout lost) = [(p.id first.other, rec.filledQty)] := by
    unfold gaveUp
    rcases hpc with hpc | hpc <;> (rw [hpc]; dsimp only; rw [if_neg hack, lastKnown_eq ht])
  have hmem : (p.id first.other, rec.filledQty) ∈ d.gaveUp p (.timeout lost) := by
    rw [hgave]
    exact List.mem_cons_self
  have hqty : rec.qty = (p.leg first.other).qty := ht.knows.qty.trans ht.isFor.qty
  unfold Desk.resume at hres
  rcases hpc with hpc | hpc
  all_goals
    rw [hpc] at hres
    obtain ⟨d₁, hlose, hres⟩ := Option.map_eq_some_iff.mp hres
    have hkeep := loseMsg_keeps hlose
    have hlt : ∀ x, p.id x < d₁.engine.seq := fun x => loseMsg_seq hlose ▸ hwired.id_lt x
    have hw₁ := (hkeep _).placed _ (Tracked.placed ⟨w, rec, ht⟩)
    rw [lastKnown_eq (ht.loseMsg hlose)] at hres
  · have h := partnerSettled_givenUp (hd.loseMsg hlose) hlt ((hkeep _).placed _ hv) hw₁ hqty hmem t
      (by rw [hres]; exact hk)
    rwa [hres] at h
  · have h := restingSettled_givenUp (hd.loseMsg hlose) hlt ((hkeep _).placed _ hv) hw₁ hqty hmem t
      (by rw [hres]; exact hk)
    rwa [hres] at h

/-! ## No leg executes too much -/

end Desk

/-! ## Runs -/

namespace World

/-- What a step gives up of the orders of the pair `i`. -/
def gaveUp (i : Nat) (w : World K) : EngineEvent K → List (Nat × K)
  | .resume j r _ => if j = i then (w.pairs[i]?).elim [] fun p => w.desk.gaveUp p r else []
  | _ => []

/-- What is assumed of a step for the sake of the pairs in `S`, whatever their timers do. -/
structure UntimedOk (S : Nat → Prop) (w : World K) (e : EngineEvent K) : Prop where
  fresh : w.FreshKeys e
  positive : w.PositiveLegs S e

instance (S : Nat → Prop) [DecidablePred S] (w : World K) (e : EngineEvent K) :
    Decidable (w.UntimedOk S e) :=
  decidable_of_iff (w.FreshKeys e ∧ w.PositiveLegs S e)
    ⟨fun h => ⟨h.1, h.2⟩, fun h => ⟨h.fresh, h.positive⟩⟩

/-- The pair `i` knows about its orders, or has given one up. -/
structure Timed (i : Nat) (w : World K) (given : List (Nat × K)) : Prop extends Apart w where
  pair : ∀ p : PairTask K, w.pairs[i]? = some p →
    p.Ok w.desk ∨ p.GivenUp given w.desk p.pc

variable [IsStrictOrderedRing K] {i : Nat} {w w' : World K} {given : List (Nat × K)}

theorem Timed.step (h : w.Timed i given) {e : EngineEvent K} (hok : w.UntimedOk (· = i) e)
    (hs : w.step e = some w') : w'.Timed i (given ++ w.gaveUp i e) := by
  have hk := hok.fresh.keys hs
  have hsub : given ⊆ given ++ w.gaveUp i e := List.subset_append_left _ _
  refine ⟨h.toApart.step hs hk, fun q hq => ?_⟩
  rcases h.pair_cases hs hk hq with ⟨leg1, leg2, t, rfl, rfl, hsig, h₁, h₂⟩ |
    ⟨p, r, t, pc, rfl, hp, hresume, rfl⟩ | ⟨hq, hkeep⟩
  · exact Or.inl (hsig.pair (h₁ ▸ h₂ ▸ hok.positive rfl))
  · have hgave : w.gaveUp i (.resume i r t) = w.desk.gaveUp p r := by
      unfold gaveUp
      dsimp only
      rw [if_pos rfl, hp]
      rfl
    have hwired := h.wired i p hp
    rw [PairTask.givenUp_setPc]
    rcases h.pair p hp with hpair | hpair
    · by_cases hack : w.desk.AckInTime p r = true
      · exact Or.inl (Desk.resume_resumed h.desk hwired hpair hack hresume h.keys hk).pair
      · refine Or.inr ?_
        have hgiven := Desk.resume_givenUp h.desk hwired hpair hack hresume hk
        rw [← hgave] at hgiven
        exact hgiven.keeps (List.subset_append_right _ _) (fun _ _ => id) fun _ _ _ => id
    · exact Or.inr ((Desk.GivenUp.resume hpair hresume).keeps hsub (fun _ _ => id)
        fun _ _ _ => id)
  · exact (h.pair q hq).imp (fun hpair => hpair.keeps hkeep) fun hpair =>
      hpair.keeps hsub (fun x => (hkeep _ (q.id_mem_orders x)).placed) fun n hn =>
        (hkeep n (PairTask.hedge_mem_orders hn)).placed

end World

section
variable [IsStrictOrderedRing K] {es : List (EngineEvent K)} {w : World K} {i : Nat}
  {p : PairTask K} {maxOpenOrders : Nat} {orderId : Nat → Int}

end

end HoloMarket
