import HoloMarket.Net.LiveOrders

/-!
# Registry: which order a key leads to

An update finds its record through the key of its client id, and the monitor that
waits for it through the key recomputed from the id in the record.  Both maps
hold the orders that are registered and not released, each under its own key and
with its own channel, as long as no two of them share a key at one time; an id
that has been released may share its key with a later one.
-/

namespace HoloMarket

variable {K : Type*}

namespace Desk

/-- What the two maps have under a key: the id of the record and the channel of
the waiter. -/
def entry (d : Desk K) (k : UInt64) : Option String × Option Nat :=
  ((d.engine.oms.get k).map OrderRecord.clientOrderId, d.engine.waiters.lookup k)

variable {d d' d₁ : Desk K} {live : List Nat}

/-! ## Release, and a new order -/

/-- The order `n` is gone from both maps. -/
def Released (d d' : Desk K) (n : Nat) : Prop :=
  ∀ k, d'.entry k = if k = orderKey n then (none, none) else d.entry k

/-- The order `n` is in both maps; a waiter that was there before stays. -/
def Opened (d d' : Desk K) (n : Nat) : Prop :=
  ∀ k, d'.entry k =
    if k = orderKey n then (some (clientId n), some ((d.entry k).2.getD n)) else d.entry k

theorem Opened.sendLeg {n : Nat} (h : Opened d d' n) (p : PairTask K)
    (x : LegIx) : Opened d (d'.sendLeg p x) n := h

theorem releaseTerminal_released (d : Desk K) (n : Nat) : Released d (d.releaseTerminal n) n := by
  intro k
  show (((d.engine.oms.release (orderKey n)).get k).map _,
    (d.engine.waiters.erase (orderKey n)).lookup k) = _
  rw [OMSCore.get_release]
  split_ifs with hk
  · rw [hk, AList.lookup_erase]
    rfl
  · rw [AList.lookup_erase_ne hk]
    rfl

theorem waiter_chan (d : Desk K) (n : Nat) :
    (d.waiter n).2 = (d.entry (orderKey n)).2.getD n := by
  unfold waiter ExecutionEngine.getOrCreateWaiter entry
  cases d.engine.waiters.lookup (orderKey n) <;> rfl

theorem entry_waiter (d : Desk K) (n : Nat) (k : UInt64) :
    (d.waiter n).1.entry k =
      if k = orderKey n then ((d.entry k).1, some ((d.entry k).2.getD n)) else d.entry k := by
  unfold waiter ExecutionEngine.getOrCreateWaiter
  cases hw : d.engine.waiters.lookup (orderKey n) with
  | none =>
    show ((d.engine.oms.get k).map _, (d.engine.waiters.insert (orderKey n) n).lookup k) = _
    split_ifs with hk
    · rw [hk, AList.lookup_insert]
      unfold entry
      rw [hw]
      rfl
    · rw [AList.lookup_insert_ne hk]
      rfl
  | some c =>
    show d.entry k = _
    split_ifs with hk
    · unfold entry
      rw [hk, hw]
      rfl
    · rfl

variable [Field K]

theorem entry_register (d : Desk K) (n : Nat) (leg : ArbLeg K) (price : K) (t : Clock)
    (k : UInt64) : (d.register n leg.symbol leg.side price leg.qty t).entry k =
      if k = orderKey n then (some (clientId n), (d.entry k).2) else d.entry k := by
  unfold entry
  rw [register_oms, register_waiters, OMSCore.get_registerNewOrder]
  show (Option.map _ (if k = orderKey n then _ else _), _) = _
  split_ifs
  · exact congrArg (fun c => (some c, _)) (makeClientId_clientId n)
  · rfl

theorem register_waiter_opened (d : Desk K) (n : Nat) (leg : ArbLeg K) (price : K) (t : Clock) :
    Opened d ((d.register n leg.symbol leg.side price leg.qty t).waiter n).1 n := by
  intro k
  rw [entry_waiter, entry_register]
  split_ifs <;> rfl

/-- Both legs are registered before either has its waiter, which comes to the same
as one after the other. -/
theorem openPair_opened (d : Desk K) (leg1 leg2 : ArbLeg K) (t : Clock) :
    ∃ d₁, Opened d d₁ d.engine.seq ∧ Opened d₁ (d.openPair leg1 leg2 t) (d.engine.seq + 1) ∧
      (d.signalTask leg1 leg2 t).chan1 =
        (d.entry (orderKey d.engine.seq)).2.getD d.engine.seq ∧
      (d.signalTask leg1 leg2 t).chan2 =
        (d₁.entry (orderKey (d.engine.seq + 1))).2.getD (d.engine.seq + 1) := by
  set n := d.engine.seq with hn
  set d₁ := (d.claimPair leg1 leg2).register n leg1.symbol leg1.side leg1.price leg1.qty t with hd₁
  set d₂ := (d.claimPair leg1 leg2).registerTwo leg1 leg2 n t with hd₂
  have he₁ : ∀ k, d₁.entry k = if k = orderKey n then (some (clientId n), (d.entry k).2)
      else d.entry k := entry_register (d.claimPair leg1 leg2) n leg1 leg1.price t
  have he₂ : ∀ k, d₂.entry k = if k = orderKey (n + 1) then
      (some (clientId (n + 1)), (d₁.entry k).2) else d₁.entry k :=
    entry_register d₁ (n + 1) leg2 leg2.price t
  have hsnd : ∀ k, (d₂.entry k).2 = (d.entry k).2 := by
    intro k
    rw [he₂, he₁]
    split_ifs <;> rfl
  have hw : ∀ k, ((d₂.waiter n).1.entry k).2 = ((d₁.waiter n).1.entry k).2 := by
    intro k
    rw [entry_waiter, entry_waiter, he₂, he₁]
    split_ifs <;> rfl
  refine ⟨(d₁.waiter n).1, register_waiter_opened (d.claimPair leg1 leg2) n leg1 leg1.price t,
    fun k => ?_, ?_, ?_⟩
  · refine (entry_waiter (d₂.waiter n).1 (n + 1) k).trans ?_
    rw [hw, entry_waiter, entry_waiter, he₂]
    split_ifs <;> rfl
  · refine (waiter_chan d₂ n).trans ?_
    rw [hsnd]
  · unfold signalTask
    dsimp only
    rw [← hn, ← hd₂, waiter_chan, hw]

/-! ## What a resumption does to the two maps -/

variable {p : PairTask K} {pc' : PairPc}

omit [Field K] in
theorem takeMsg_entry {c : Nat} {r : OrderRecord K} (h : d.takeMsg c = some (r, d')) :
    ∀ k, d'.entry k = d.entry k := by
  unfold takeMsg at h
  split at h <;> cases h
  exact fun k => rfl

omit [Field K] in
theorem loseMsg_entry {c : Nat} {lost : Bool} (h : d.loseMsg c lost = some d') :
    ∀ k, d'.entry k = d.entry k := by
  rcases loseMsg_cases h with rfl | ⟨r, hr⟩
  · exact fun k => rfl
  · exact takeMsg_entry hr

omit [Field K] in
theorem clearInflight_entry (d : Desk K) (p : PairTask K) :
    ∀ k, (d.clearInflight p).entry k = d.entry k := by
  unfold clearInflight ExecutionEngine.clearInflight
  dsimp only
  split <;> exact fun k => rfl

variable [LinearOrder K]

theorem applyPartial_entry (d : Desk K) (r : OrderRecord K) (leg : ArbLeg K) :
    ∀ k, (d.applyPartial r leg).entry k = d.entry k := by
  unfold applyPartial
  split_ifs <;> exact fun k => rfl

theorem applyUpdate_entry (d : Desk K) (key : UInt64) (u : UpdateArgs K) (k : UInt64) :
    ({ d with engine := d.engine.applyUpdate key u } : Desk K).entry k = d.entry k := by
  unfold entry
  dsimp only
  rw [ExecutionEngine.applyUpdate_waiters, ExecutionEngine.get_applyUpdate]
  split_ifs with hk
  · rw [hk]
    cases d.engine.oms.get key with
    | none => rfl
    | some r => exact congrArg (fun c => (some c, _)) (UpdateArgs.applyTo_clientOrderId u r)
  · rfl

/-- A resumption leaves the two maps alone, releases an order of the pair, or
releases one and opens the hedge in its place. -/
inductive Turns (d d' : Desk K) (p : PairTask K) (pc' : PairPc) : Prop where
  | same (he : ∀ k, d'.entry k = d.entry k) (hs : p.unreleased pc' = p.unreleased p.pc)
      (hw : p.pc.HedgeWired → pc'.HedgeWired)
  | release (n : Nat) (hr : Released d d' n)
      (hs : (p.unreleased p.pc).Perm (n :: p.unreleased pc')) (hw : pc'.HedgeWired)
  | hedge (first : LegIx) (n m : Nat) (d₁ : Desk K) (hr : Released d d₁ n)
      (ho : Opened d₁ d' m) (hs : p.unreleased p.pc = [n])
      (hpc : pc' = .sendingHedge first m ((d₁.entry (orderKey m)).2.getD m))

omit [Field K] [LinearOrder K] in
theorem Turns.after (h : Turns d₁ d' p pc') (he : ∀ k, d₁.entry k = d.entry k) :
    Turns d d' p pc' := by
  cases h with
  | same he' hs hw => exact .same (fun k => (he' k).trans (he k)) hs hw
  | release n hr hs hw => exact .release n (fun k => by rw [hr, he]) hs hw
  | hedge first n m d₂ hr ho hs hpc =>
    exact .hedge first n m d₂ (fun k => by rw [hr, he]) ho hs hpc

section
variable {first : LegIx} {t : Clock} {n : Nat}

omit [LinearOrder K] in
theorem openOrder_opened (d : Desk K) (leg : ArbLeg K) (price : K) (t : Clock) :
    Opened d (d.openOrder leg price t) d.engine.seq :=
  register_waiter_opened d.nextClientId.1 d.engine.seq leg price t

/-- With the last order of the pair released, it is complete or has a hedge. -/
theorem hedgeRemaining_turns (hr : Released d d₁ n) (hs : p.unreleased p.pc = [n])
    (remaining : K) : Turns d (d₁.hedgeRemaining p first remaining t).1 p
      (d₁.hedgeRemaining p first remaining t).2 := by
  by_cases hle : remaining ≤ ExecutionEngine.qtyEps
  · rw [hedgeRemaining_done t hle]
    exact .release n (fun k => (clearInflight_entry d₁ p k).trans (hr k)) (hs ▸ .refl _) trivial
  · rw [hedgeRemaining_open t hle]
    refine .hedge first n d₁.engine.seq d₁ hr
      (d₁.openOrder_opened { p.leg first.other with qty := remaining } 0 t) hs ?_
    refine congrArg _ ((waiter_chan ..).trans ?_)
    have hreg := d₁.nextClientId.1.entry_register d₁.engine.seq
      { p.leg first.other with qty := remaining } 0 t (orderKey d₁.engine.seq)
    rw [if_pos rfl] at hreg
    exact congrArg (fun e => Option.getD e.2 d₁.engine.seq) hreg

/-- `settled` is such a turn, from whatever desk. -/
def TurnsBy (p : PairTask K) (settled : Desk K → OrderRecord K → Desk K × PairPc) : Prop :=
  ∀ (d : Desk K) (r : OrderRecord K), Turns d (settled d r).1 p (settled d r).2

variable (hs : p.unreleased p.pc = [p.id first.other])

include hs

theorem partnerSettled_turns : TurnsBy p fun d r => d.partnerSettled p first r t := by
  intro d r
  have hrel := d.releaseTerminal_released (p.id first.other)
  unfold partnerSettled
  dsimp only
  split_ifs
  · have hfill : Released d ((d.releaseTerminal (p.id first.other)).applyFillPnl r
        (p.leg first.other)) (p.id first.other) := hrel
    exact hedgeRemaining_turns hfill hs _
  · exact .release _ (fun k => (clearInflight_entry _ p k).trans (hrel k)) (hs ▸ .refl _) trivial

theorem restingRaced_turns : TurnsBy p fun d r => d.restingRaced p first r t := by
  intro d r
  unfold restingRaced
  dsimp only
  split_ifs
  · have hrel : Released d ((d.applyFillPnl r (p.leg first.other)).releaseTerminal
        (p.id first.other)) (p.id first.other) := releaseTerminal_released _ _
    exact .release _ (fun k => (clearInflight_entry _ p k).trans (hrel k)) (hs ▸ .refl _) trivial
  · have hrel : Released d ((d.applyPartial r (p.leg first.other)).releaseTerminal
        (p.id first.other)) (p.id first.other) := by
      intro k
      rw [releaseTerminal_released, applyPartial_entry]
    exact hedgeRemaining_turns hrel hs _

theorem restingSettled_turns : TurnsBy p fun d r => d.restingSettled p first r t := by
  intro d r
  have hrel := d.releaseTerminal_released (p.id first.other)
  unfold restingSettled
  dsimp only
  split_ifs
  · have hfill : Released d ((d.releaseTerminal (p.id first.other)).applyFillPnl r
        (p.leg first.other)) (p.id first.other) := hrel
    exact .release _ (fun k => (clearInflight_entry _ p k).trans (hfill k)) (hs ▸ .refl _) trivial
  · have hpart : Released d ((d.releaseTerminal (p.id first.other)).applyPartial r
        (p.leg first.other)) (p.id first.other) :=
      fun k => (applyPartial_entry _ _ _ k).trans (hrel k)
    exact hedgeRemaining_turns hpart hs _

omit hs in
theorem hedgeSettled_turns (hs : p.unreleased p.pc = [n]) :
    TurnsBy p fun d r => d.hedgeSettled p first n r := by
  intro d r
  refine .release n (fun k => ?_) (hs ▸ .refl _) trivial
  show ((d.applyPartial r (p.leg first.other)).releaseTerminal n).entry k = _
  rw [releaseTerminal_released, applyPartial_entry]

end

section
variable {first : LegIx} {t : Clock} {c n : Nat} {pc : PairPc}
  {settled : Desk K → OrderRecord K → Desk K × PairPc}

omit [Field K] [LinearOrder K] in
theorem receiveOn_turns (hs : TurnsBy p settled)
    (hr : d.receiveOn p c settled = some (d', pc')) : Turns d d' p pc' := by
  obtain ⟨⟨m, d₁⟩, htake, hr⟩ := Option.map_eq_some_iff.mp hr
  have he := takeMsg_entry htake
  dsimp only at hr
  split_ifs at hr
  · have hturn := hs d₁ m
    rw [hr] at hturn
    exact hturn.after he
  · cases hr
    exact .same he rfl id

omit [Field K] [LinearOrder K] in
theorem awaitAuthoritative_turns (hs : TurnsBy p settled)
    (hr : d.awaitAuthoritative n settled pc = (d', pc'))
    (hpc : p.unreleased pc = p.unreleased p.pc) (hw : pc.HedgeWired) : Turns d d' p pc' := by
  unfold awaitAuthoritative at hr
  split at hr
  next rec hrec =>
    have hturn := hs d rec
    rwa [hr] at hturn
  next hrec =>
    cases hr
    exact .same (fun k => rfl) hpc fun _ => hw

theorem firstSettled_turns (hpc : p.pc = .racing) (r : OrderRecord K) :
    Turns d (d.firstSettled p first r).1 p (d.firstSettled p first r).2 := by
  have hperm : (p.unreleased p.pc).Perm [p.id first, p.id first.other] := by
    rw [hpc]
    cases first with
    | leg1 => exact .refl _
    | leg2 => exact .swap ..
  unfold firstSettled
  split_ifs
  · exact .release (p.id first) (d.releaseTerminal_released (p.id first)) hperm trivial
  · exact .release (p.id first) (releaseTerminal_released (d.applyFillPnl r (p.leg first)) _) hperm
      trivial

theorem receiveFirst_turns (hpc : p.pc = .racing) {w : LegIx} {lost : Bool}
    (hr : d.receiveFirst p w lost = some (d', pc')) : Turns d d' p pc' := by
  obtain ⟨⟨m, d₁⟩, htake, hr⟩ := Option.bind_eq_some_iff.mp hr
  have he := takeMsg_entry htake
  dsimp only at hr
  split_ifs at hr
  · obtain ⟨d₂, hlose, hr⟩ := Option.map_eq_some_iff.mp hr
    have hturn : Turns d₂ (d₂.firstSettled p w m).1 p (d₂.firstSettled p w m).2 :=
      firstSettled_turns hpc m
    rw [hr] at hturn
    exact (hturn.after (loseMsg_entry hlose)).after he
  · cases hr
    exact .same he rfl id

theorem resume_turns {x : Resumption} (hr : d.resume p x t = some (d', pc')) :
    Turns d d' p pc' := by
  have hthrew : Turns d (d.clearInflight p) p (.threw p.pc) :=
    .same (clearInflight_entry d p) rfl id
  unfold resume at hr
  split at hr
  case h_1 hpc =>
    cases hr
    exact .same (fun k => rfl) (congrArg p.unreleased hpc).symm fun _ => trivial
  case h_2 hpc =>
    cases hr
    exact .same (fun k => rfl) (congrArg p.unreleased hpc).symm fun _ => trivial
  case h_3 w lost hpc => exact receiveFirst_turns hpc hr
  case h_4 first hpc =>
    have hs := congrArg p.unreleased hpc
    exact awaitAuthoritative_turns (partnerSettled_turns hs) (Option.some.inj hr) hs.symm trivial
  case h_5 first w hpc =>
    split_ifs at hr
    exact receiveOn_turns (partnerSettled_turns (congrArg p.unreleased hpc)) hr
  case h_6 first lost hpc =>
    obtain ⟨d₁, hlose, hr⟩ := Option.map_eq_some_iff.mp hr
    have hturn := partnerSettled_turns (t := t) (congrArg p.unreleased hpc) d₁
      (d₁.lastKnown (p.id first.other))
    dsimp only at hturn
    rw [hr] at hturn
    exact hturn.after (loseMsg_entry hlose)
  case h_7 first w hpc =>
    split_ifs at hr
    exact receiveOn_turns (restingRaced_turns (congrArg p.unreleased hpc)) hr
  case h_8 first lost hpc =>
    obtain ⟨d₁, hlose, hr⟩ := Option.map_eq_some_iff.mp hr
    cases hr
    have he := loseMsg_entry hlose
    exact .same (fun k => he k) (congrArg p.unreleased hpc).symm fun _ => trivial
  case h_9 first hpc =>
    have hs := congrArg p.unreleased hpc
    exact awaitAuthoritative_turns (restingSettled_turns hs) (Option.some.inj hr) hs.symm trivial
  case h_10 first w hpc =>
    split_ifs at hr
    exact receiveOn_turns (restingSettled_turns (congrArg p.unreleased hpc)) hr
  case h_11 first lost hpc =>
    obtain ⟨d₁, hlose, hr⟩ := Option.map_eq_some_iff.mp hr
    have hturn := restingSettled_turns (t := t) (congrArg p.unreleased hpc) d₁
      (d₁.lastKnown (p.id first.other))
    dsimp only at hturn
    rw [hr] at hturn
    exact hturn.after (loseMsg_entry hlose)
  case h_12 first n c hpc =>
    cases hr
    refine .same (clearInflight_entry d p) (congrArg p.unreleased hpc).symm ?_
    rw [hpc]
    exact id
  case h_13 first n c hpc =>
    exact receiveOn_turns (hedgeSettled_turns (congrArg p.unreleased hpc)) hr
  case h_19 => cases hr
  all_goals
    cases hr
    exact hthrew

end

/-! ## Which orders the maps hold -/

/-- The two maps hold nothing under a key of no order of `live`. -/
def OnlyLive (d : Desk K) (live : List Nat) : Prop :=
  ∀ k, (∀ n ∈ live, orderKey n ≠ k) → d.entry k = (none, none)

/-- The two maps hold the orders `live`, and nothing else. -/
structure Registry (d : Desk K) (live : List Nat) : Prop where
  tracked : ∀ n ∈ live, d.entry (orderKey n) = (some (clientId n), some n)
  others : d.OnlyLive live

section
variable {rest : List Nat} {n : Nat}

omit [Field K] [LinearOrder K]

theorem OnlyLive.congr (h : d.OnlyLive live) (he : ∀ k, d'.entry k = d.entry k) :
    d'.OnlyLive live :=
  fun k hk => (he k).trans (h k hk)

theorem OnlyLive.perm {live' : List Nat} (h : d.OnlyLive live) (hp : live.Perm live') :
    d.OnlyLive live' :=
  fun k hk => h k fun n hn => hk n (hp.mem_iff.mp hn)

theorem OnlyLive.released (h : d.OnlyLive (n :: live)) (hr : Released d d' n) :
    d'.OnlyLive live := by
  intro k hk
  rw [hr]
  split_ifs with he
  · rfl
  · refine h k fun m hm => ?_
    rcases List.mem_cons.mp hm with rfl | hm
    · exact fun heq => he heq.symm
    · exact hk m hm

theorem OnlyLive.opened (h : d.OnlyLive live) (ho : Opened d d' n) :
    d'.OnlyLive (n :: live) := by
  intro k hk
  rw [ho, if_neg fun heq => hk n List.mem_cons_self heq.symm]
  exact h k fun m hm => hk m (List.mem_cons_of_mem n hm)

/-- A pair goes on: what it no longer has is out of the maps, whatever the keys. -/
theorem OnlyLive.turns (h : d.OnlyLive (p.unreleased p.pc ++ rest)) (ht : Turns d d' p pc') :
    d'.OnlyLive (p.unreleased pc' ++ rest) := by
  cases ht with
  | same he hs hw =>
    rw [hs]
    exact h.congr he
  | release n hr hs hw => exact (h.perm (hs.append_right rest)).released hr
  | hedge first n m d₁ hr ho hs hpc =>
    rw [hs] at h
    rw [hpc]
    exact (h.released hr).opened ho

theorem Registry.congr (h : d.Registry live) (he : ∀ k, d'.entry k = d.entry k) :
    d'.Registry live where
  tracked n hn := (he _).trans (h.tracked n hn)
  others := h.others.congr he

theorem Registry.perm {live' : List Nat} (h : d.Registry live) (hp : live.Perm live') :
    d.Registry live' where
  tracked n hn := h.tracked n (hp.mem_iff.mpr hn)
  others := h.others.perm hp

end

/-- No two orders of the list share a key. -/
def DistinctKeys (live : List Nat) : Prop := (live.map orderKey).Nodup

instance (live : List Nat) : Decidable (DistinctKeys live) :=
  inferInstanceAs (Decidable (live.map orderKey).Nodup)

theorem DistinctKeys.perm {live' : List Nat} (h : DistinctKeys live) (hp : live.Perm live') :
    DistinctKeys live' :=
  (hp.map orderKey).nodup_iff.mp h

theorem distinctKeys_cons {n : Nat} :
    DistinctKeys (n :: live) ↔ (∀ m ∈ live, orderKey m ≠ orderKey n) ∧ DistinctKeys live := by
  unfold DistinctKeys
  rw [List.map_cons, List.nodup_cons, List.mem_map]
  constructor
  · rintro ⟨hn, hnd⟩
    exact ⟨fun m hm he => hn ⟨m, hm, he⟩, hnd⟩
  · rintro ⟨hn, hnd⟩
    exact ⟨fun ⟨m, hm, he⟩ => hn m hm he, hnd⟩

section
variable {rest : List Nat} {n : Nat}

omit [Field K] [LinearOrder K]

theorem Registry.released (h : d.Registry (n :: live)) (hk : DistinctKeys (n :: live))
    (hr : Released d d' n) : d'.Registry live where
  tracked m hm := by
    rw [hr, if_neg ((distinctKeys_cons.mp hk).1 m hm)]
    exact h.tracked m (List.mem_cons_of_mem n hm)
  others := h.others.released hr

/-- The key of the new order was free, so it has its own channel. -/
theorem Registry.chan_eq (h : d.Registry live) (hk : DistinctKeys (n :: live)) :
    (d.entry (orderKey n)).2.getD n = n := by
  rw [h.others _ (distinctKeys_cons.mp hk).1]
  rfl

theorem Registry.opened (h : d.Registry live) (hk : DistinctKeys (n :: live))
    (ho : Opened d d' n) : d'.Registry (n :: live) where
  tracked m hm := by
    rw [ho]
    rcases List.mem_cons.mp hm with rfl | hm
    · rw [if_pos rfl, h.chan_eq hk]
    · rw [if_neg ((distinctKeys_cons.mp hk).1 m hm)]
      exact h.tracked m hm
  others := h.others.opened ho

/-- A pair goes on: the two maps hold the orders it has now, and a hedge has its
own channel. -/
theorem Registry.turns (h : d.Registry (p.unreleased p.pc ++ rest))
    (hk : DistinctKeys (p.unreleased p.pc ++ rest))
    (hk' : DistinctKeys (p.unreleased pc' ++ rest)) (hwired : p.pc.HedgeWired)
    (ht : Turns d d' p pc') : d'.Registry (p.unreleased pc' ++ rest) ∧ pc'.HedgeWired := by
  cases ht with
  | same he hs hw =>
    rw [hs]
    exact ⟨h.congr he, hw hwired⟩
  | release n hr hs hw =>
    have hperm : (p.unreleased p.pc ++ rest).Perm (n :: (p.unreleased pc' ++ rest)) :=
      hs.append_right rest
    exact ⟨(h.perm hperm).released (hk.perm hperm) hr, hw⟩
  | hedge first n m d₁ hr ho hs hpc =>
    rw [hs] at h hk
    rw [hpc] at hk' ⊢
    have hrel := h.released hk hr
    exact ⟨hrel.opened hk' ho, hrel.chan_eq hk'⟩

end

end Desk

/-! ## The pairs -/

variable [Field K]

namespace World

/-- The orders of all pairs that are registered and not released. -/
def live (w : World K) : List Nat := w.pairs.flatMap fun p => p.unreleased p.pc

variable {w w' : World K}

omit [Field K] in
theorem live_congr (hp : w'.pairs = w.pairs) : w'.live = w.live :=
  congrArg (List.flatMap fun p : PairTask K => p.unreleased p.pc) hp

omit [Field K] in
/-- The orders of one pair stand beside those of all others. -/
theorem live_perm {i : Nat} {p : PairTask K} (hp : w.pairs[i]? = some p) :
    ∃ rest, w.live.Perm (p.unreleased p.pc ++ rest) ∧
      ∀ (w' : World K) (pc : PairPc), w'.pairs = w.pairs.set i { p with pc := pc } →
        w'.live.Perm (p.unreleased pc ++ rest) := by
  obtain ⟨hi, hget⟩ := List.getElem?_eq_some_iff.mp hp
  have hsplit : w.pairs = w.pairs.take i ++ p :: w.pairs.drop (i + 1) := by
    rw [← hget, List.getElem_cons_drop, List.take_append_drop]
  refine ⟨((w.pairs.take i).flatMap fun q => q.unreleased q.pc) ++
    (w.pairs.drop (i + 1)).flatMap fun q => q.unreleased q.pc, ?_, fun w' pc hset => ?_⟩
  · have hlive := congrArg (List.flatMap fun q => q.unreleased q.pc) hsplit
    rw [List.flatMap_append, List.flatMap_cons] at hlive
    unfold live
    rw [hlive]
    exact List.perm_append_comm_assoc ..
  · unfold live
    rw [hset, List.set_eq_take_append_cons_drop, if_pos hi, List.flatMap_append,
      List.flatMap_cons, PairTask.unreleased_setPc]
    exact List.perm_append_comm_assoc ..

omit [Field K] in
theorem live_append {p : PairTask K} {n m : Nat} (hp : w'.pairs = w.pairs ++ [p])
    (hlive : p.unreleased p.pc = [n, m]) : w'.live.Perm (m :: n :: w.live) := by
  unfold live
  rw [hp, List.flatMap_append, List.flatMap_singleton, hlive]
  exact List.perm_append_comm.trans (List.Perm.swap ..)

variable [LinearOrder K]

/-- What an update from whatever source and a step of the engine have in common
as events. -/
inductive DeskEvent (K : Type*) where
  | engine (e : EngineEvent K)
  /-- `apply_update`, called for any key with any arguments. -/
  | update (key : UInt64) (u : UpdateArgs K)

def deskStep (w : World K) : DeskEvent K → Option (World K)
  | .engine e => w.step e
  | .update key u =>
    some { w with desk := { w.desk with engine := w.desk.engine.applyUpdate key u } }

/-- No two live client ids share a key. -/
def LiveKeys (w : World K) (e : DeskEvent K) : Prop :=
  (w.deskStep e).elim True fun w' => Desk.DistinctKeys w'.live

instance (w : World K) (e : DeskEvent K) : Decidable (w.LiveKeys e) :=
  Machine.decidableElim (w.deskStep e)

/-- What a step does to the two maps: nothing, or it opens the two legs of a new
pair, or one pair goes on. -/
theorem deskStep_cases {e : DeskEvent K} (hs : w.deskStep e = some w') :
    ((∀ k, w'.desk.entry k = w.desk.entry k) ∧ w'.pairs = w.pairs) ∨
    (∃ (n m : Nat) (p : PairTask K) (d₁ : Desk K), Desk.Opened w.desk d₁ n ∧
      Desk.Opened d₁ w'.desk m ∧ w'.pairs = w.pairs ++ [p] ∧ p.unreleased p.pc = [n, m] ∧
      p.chan1 = (w.desk.entry (orderKey n)).2.getD n ∧ p.id1 = n ∧
      p.chan2 = (d₁.entry (orderKey m)).2.getD m ∧ p.id2 = m ∧ p.pc.HedgeWired) ∨
    ∃ (i : Nat) (p : PairTask K) (pc : PairPc), w.pairs[i]? = some p ∧
      Desk.Turns w.desk w'.desk p pc ∧ w'.pairs = w.pairs.set i { p with pc := pc } := by
  cases e with
  | update key u =>
    cases hs
    exact Or.inl ⟨w.desk.applyUpdate_entry key u, rfl⟩
  | engine e =>
    cases e with
    | signal leg1 leg2 t =>
      rcases step_signal hs with ⟨-, rfl⟩ | ⟨-, rfl⟩
      · exact Or.inl ⟨fun k => rfl, rfl⟩
      · obtain ⟨d₁, ho₁, ho₂, hc₁, hc₂⟩ := w.desk.openPair_opened leg1 leg2 t
        exact Or.inr (Or.inl ⟨_, _, w.desk.signalTask leg1 leg2 t, d₁, ho₁, ho₂.sendLeg _ _,
          rfl, rfl, hc₁, rfl, hc₂, rfl, trivial⟩)
    | resume i x t =>
      obtain ⟨p, hp, hs⟩ := Option.bind_eq_some_iff.mp hs
      obtain ⟨⟨d, pc⟩, hresume, rfl⟩ := Option.map_eq_some_iff.mp hs
      exact Or.inr (Or.inr ⟨i, p, pc, hp, Desk.resume_turns hresume, rfl⟩)
    | act n a tMs =>
      obtain ⟨d, hd, rfl⟩ := Option.map_eq_some_iff.mp hs
      obtain ⟨-, -, -, -, he, -, -⟩ := Desk.act_cell hd
      exact Or.inl ⟨fun k => by unfold Desk.entry; rw [he], rfl⟩
    | deliver n =>
      obtain ⟨d, hd, rfl⟩ := Option.map_eq_some_iff.mp hs
      obtain ⟨v, -, hd⟩ := Option.bind_eq_some_iff.mp hd
      obtain ⟨o, -, rfl⟩ := Option.map_eq_some_iff.mp hd
      refine Or.inl ⟨fun k => ?_, rfl⟩
      show Desk.entry { w.desk with engine := w.desk.engine.handleOrderTradeUpdate o } k = _
      unfold ExecutionEngine.handleOrderTradeUpdate
      split
      · rfl
      · exact w.desk.applyUpdate_entry _ _ k
    | refuse n nowNs =>
      obtain ⟨d, hd, rfl⟩ := Option.map_eq_some_iff.mp hs
      obtain ⟨v, -, hd⟩ := Option.bind_eq_some_iff.mp hd
      split_ifs at hd
      cases hd
      exact Or.inl ⟨w.desk.applyUpdate_entry _ _, rfl⟩
    | sweep maxAge steadyNs =>
      cases hs
      exact Or.inl ⟨fun k => rfl, rfl⟩
    | forceHalt =>
      cases hs
      exact Or.inl ⟨fun k => rfl, rfl⟩
    | resetHalt =>
      cases hs
      exact Or.inl ⟨fun k => rfl, rfl⟩
    | checkDrawdown x limit =>
      cases hs
      exact Or.inl ⟨fun k => rfl, rfl⟩

/-- Whatever keys the orders have, nothing else stays in the maps. -/
theorem onlyLive_step {e : DeskEvent K} (h : w.desk.OnlyLive w.live)
    (hs : w.deskStep e = some w') : w'.desk.OnlyLive w'.live := by
  rcases deskStep_cases hs with ⟨he, hp⟩ | ⟨n, m, p, d₁, ho₁, ho₂, hp, hlive, -⟩ |
    ⟨i, p, pc, hp, ht, hset⟩
  · rw [live_congr hp]
    exact h.congr he
  · exact ((h.opened ho₁).opened ho₂).perm (live_append hp hlive).symm
  · obtain ⟨rest, hold, hnew⟩ := live_perm hp
    exact ((h.perm hold).turns ht).perm (hnew w' pc hset).symm

/-- The pairs as they are, with what is registered and not released in the two
maps, each order under a key of its own. -/
structure Listed (w : World K) : Prop where
  registry : w.desk.Registry w.live
  keys : Desk.DistinctKeys w.live
  chans : ∀ p ∈ w.pairs, p.chan1 = p.id1 ∧ p.chan2 = p.id2 ∧ p.pc.HedgeWired

omit [LinearOrder K] in
theorem init_listed (maxOpenOrders : Nat) (orderId : Nat → Int) :
    (init maxOpenOrders orderId : World K).Listed where
  registry := ⟨fun _ hn => absurd hn List.not_mem_nil, fun _ _ => rfl⟩
  keys := List.nodup_nil
  chans _ hp := absurd hp List.not_mem_nil

theorem Listed.step (h : w.Listed) {e : DeskEvent K} (hk : w.LiveKeys e)
    (hs : w.deskStep e = some w') : w'.Listed := by
  have hkeys : Desk.DistinctKeys w'.live := by
    unfold LiveKeys at hk
    rwa [hs] at hk
  rcases deskStep_cases hs with ⟨he, hp⟩ |
    ⟨n, m, p, d₁, ho₁, ho₂, hp, hlive, hc₁, hid₁, hc₂, hid₂, hw⟩ | ⟨i, p, pc, hp, ht, hset⟩
  · have hreg := h.registry.congr he
    rw [← live_congr hp] at hreg
    exact ⟨hreg, hkeys, hp.symm ▸ h.chans⟩
  · have hperm := live_append hp hlive
    have hkeys₂ := hkeys.perm hperm
    have hkeys₁ := (Desk.distinctKeys_cons.mp hkeys₂).2
    have hreg₁ := h.registry.opened hkeys₁ ho₁
    refine ⟨(hreg₁.opened hkeys₂ ho₂).perm hperm.symm, hkeys, fun q hq => ?_⟩
    rw [hp] at hq
    rcases List.mem_append.mp hq with hq | hq
    · exact h.chans q hq
    · rw [List.mem_singleton.mp hq, hc₁, hid₁, hc₂, hid₂]
      exact ⟨h.registry.chan_eq hkeys₁, hreg₁.chan_eq hkeys₂, hw⟩
  · obtain ⟨rest, hold, hnew⟩ := live_perm hp
    have hperm := hnew w' pc hset
    obtain ⟨hc₁, hc₂, hwired⟩ := h.chans p (List.mem_of_getElem? hp)
    obtain ⟨hreg, hwired'⟩ := (h.registry.perm hold).turns (h.keys.perm hold)
      (hkeys.perm hperm) hwired ht
    refine ⟨hreg.perm hperm.symm, hkeys, fun q hq => ?_⟩
    rw [hset] at hq
    rcases List.mem_or_eq_of_mem_set hq with hq | rfl
    · exact h.chans q hq
    · exact ⟨hc₁, hc₂, hwired'⟩

theorem Listed.run {w₀ : World K} (h : w₀.Listed) {es : List (DeskEvent K)}
    (hok : Machine.RunOk deskStep LiveKeys w₀ es) (hrun : Machine.run deskStep w₀ es = some w) :
    w.Listed :=
  Machine.run_inv (fun _ _ _ h hk hs => h.step hk hs) h hok hrun

end World

/-- The channel `c` is offered the message and no other channel is touched. -/
theorem ExecutionEngine.applyUpdate_offers [LinearOrder K] {eng : ExecutionEngine K}
    {key : UInt64} {r : OrderRecord K} {c : Nat} (u : UpdateArgs K)
    (hr : eng.oms.get key = some r)
    (hw : eng.waiters.lookup (fnv1a64 r.clientOrderId) = some c) :
    (eng.applyUpdate key u).chans c =
        (if (eng.chans c).length < kChanBuffer then eng.chans c ++ [u.applyTo r]
          else eng.chans c) ∧
      ∀ m ≠ c, (eng.applyUpdate key u).chans m = eng.chans m := by
  obtain ⟨oms, ho, -⟩ := OMSCore.applyUpdate_of_get hr u.newStatus u.cumulativeFilledQty
    u.lastFillPrice u.commissionDelta u.exchangeOrderId u.eventNs
  have happly : eng.applyUpdate key u = { eng with oms := oms }.dispatchUpdate (u.applyTo r) := by
    unfold applyUpdate
    rw [ho]
    rfl
  have hdispatch : (eng.applyUpdate key u).chans =
      (({ eng with oms := oms }.countRejects (u.applyTo r).status).trySend c
        (u.applyTo r)).chans := by
    rw [happly]
    unfold dispatchUpdate
    dsimp only
    rw [countRejects_waiters, UpdateArgs.applyTo_clientOrderId, hw]
  rw [hdispatch]
  refine ⟨?_, fun m hm => ?_⟩
  · unfold trySend
    rw [countRejects_chans]
    split_ifs
    · exact Function.update_self ..
    · exact congrFun (countRejects_chans _ _) c
  · rw [trySend_chans_ne _ hm, countRejects_chans]

namespace World

variable {w : World K} [LinearOrder K]

/-- However pairs, hedges and updates interleave, every order that is registered
and not released has its record, and every update that finds a record is offered
to the channel of the order it belongs to and to no other: the key that is
recomputed from the id in the record leads back to that order. -/
theorem no_update_missed {maxOpenOrders : Nat} {orderId : Nat → Int} {es : List (DeskEvent K)}
    (hok : Machine.RunOk deskStep LiveKeys (init maxOpenOrders orderId) es)
    (hrun : Machine.run deskStep (init maxOpenOrders orderId) es = some w) :
    (∀ n, fnv1a64 (makeClientId (clientId n)) = orderKey n) ∧
      (∀ n ∈ w.live, (w.desk.engine.oms.get (orderKey n)).isSome = true) ∧
      (∀ p ∈ w.pairs, p.chan1 = p.id1 ∧ p.chan2 = p.id2 ∧ p.pc.HedgeWired) ∧
      ∀ (key : UInt64) (u : UpdateArgs K) (r : OrderRecord K),
        w.desk.engine.oms.get key = some r →
          ∃ n ∈ w.live, orderKey n = key ∧ fnv1a64 (u.applyTo r).clientOrderId = key ∧
            w.desk.engine.waiters.lookup key = some n ∧
            (w.desk.engine.applyUpdate key u).chans n =
              (if (w.desk.engine.chans n).length < ExecutionEngine.kChanBuffer then
                w.desk.engine.chans n ++ [u.applyTo r] else w.desk.engine.chans n) ∧
            ∀ m ≠ n, (w.desk.engine.applyUpdate key u).chans m = w.desk.engine.chans m := by
  have h := (init_listed maxOpenOrders orderId).run hok hrun
  refine ⟨fun n => congrArg fnv1a64 (makeClientId_clientId n), fun n hn => ?_, h.chans,
    fun key u r hr => ?_⟩
  · have hrec := congrArg Prod.fst (h.registry.tracked n hn)
    replace hrec : (w.desk.engine.oms.get (orderKey n)).map _ = some (clientId n) := hrec
    rw [← Option.isSome_map, hrec]
    rfl
  · obtain ⟨n, hn, rfl⟩ : ∃ n ∈ w.live, orderKey n = key := by
      by_contra hno
      have hentry := congrArg Prod.fst
        (h.registry.others key fun n hn he => hno ⟨n, hn, he⟩)
      replace hentry : (w.desk.engine.oms.get key).map _ = none := hentry
      rw [hr] at hentry
      cases hentry
    have htracked := h.registry.tracked n hn
    have hcid : some r.clientOrderId = some (clientId n) :=
      (congrArg (Option.map OrderRecord.clientOrderId) hr).symm.trans (congrArg Prod.fst htracked)
    have hkey : fnv1a64 r.clientOrderId = orderKey n :=
      congrArg fnv1a64 (Option.some.inj hcid)
    have hwaiter : w.desk.engine.waiters.lookup (orderKey n) = some n :=
      congrArg Prod.snd htracked
    obtain ⟨hoffer, hothers⟩ := ExecutionEngine.applyUpdate_offers u hr (hkey ▸ hwaiter)
    exact ⟨n, hn, rfl, by rw [UpdateArgs.applyTo_clientOrderId, hkey], hwaiter, hoffer, hothers⟩

/-- Two legs, one of them updated before the other is sent. -/
theorem no_update_missed_two_legs :
    let leg (symbol : String) (side : Side) : ArbLeg Rat :=
      { symbol := symbol, side := side, qty := 1, price := 100 }
    let es : List (DeskEvent Rat) :=
      [.engine (.signal (leg "BTCUSDT" .Buy) (leg "ETHUSDT" .Sell) ⟨0, 0⟩),
        .update (orderKey 0) ⟨.Open, 0, 0, 7, 1, 0⟩, .engine (.resume 0 .sent ⟨2, 2⟩)]
    ∃ w, Machine.run deskStep (init 8 Int.ofNat) es = some w ∧ w.live = [0, 1] ∧
      ∀ n ∈ w.live, (w.desk.engine.oms.get (orderKey n)).isSome = true := by
  intro leg es
  obtain ⟨w, hw, hlive⟩ := Machine.exists_of_elim
    (o := Machine.run deskStep (init 8 Int.ofNat) es) (P := fun w => w.live = [0, 1])
    (by decide +kernel)
  exact ⟨w, hw, hlive, (no_update_missed (by decide +kernel) hw).2.1⟩

end World
end HoloMarket
