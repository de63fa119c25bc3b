import HoloMarket.Net.DeskInv

/-!
# DeskSteps: what each operation of the desk touches

Frames: the orders outside a small set keep their cells.  And how a new order
comes about: its number is blank, it is registered, it gets a waiter, it is sent.
-/

namespace HoloMarket

variable {K : Type*}

/-! ## Frames -/

namespace Desk

variable {d d' d'' : Desk K} {S : List Nat}

/-- Going from `d` to `d'` touches no order below the counter outside `S`. -/
structure Frame (d d' : Desk K) (S : List Nat) : Prop where
  seq : d.engine.seq ≤ d'.engine.seq
  orderId : d'.orderId = d.orderId
  cell : ∀ m < d.engine.seq, m ∉ S → d'.cell m = d.cell m

theorem Frame.refl (d : Desk K) (S : List Nat) : Frame d d S := ⟨le_rfl, rfl, fun _ _ _ => rfl⟩

theorem Frame.trans (h : Frame d d' S) (h' : Frame d' d'' S) : Frame d d'' S where
  seq := h.seq.trans h'.seq
  orderId := h'.orderId.trans h.orderId
  cell m hm hS := (h'.cell m (lt_of_lt_of_le hm h.seq) hS).trans (h.cell m hm hS)

theorem Frame.mono {S' : List Nat} (h : Frame d d' S) (hS : ∀ n ∈ S, n ∈ S') :
    Frame d d' S' :=
  ⟨h.seq, h.orderId, fun m hm hmS => h.cell m hm fun hmem => hmS (hS m hmem)⟩

theorem Frame.of_cell_eq (hseq : d'.engine.seq = d.engine.seq) (hx : d'.orderId = d.orderId)
    (hc : ∀ m, d'.cell m = d.cell m) : Frame d d' S :=
  ⟨hseq.ge, hx, fun m _ _ => hc m⟩

theorem clearInflight_seq_oms (d : Desk K) (p : PairTask K) :
    (d.clearInflight p).engine.seq = d.engine.seq ∧
      (d.clearInflight p).engine.oms = d.engine.oms := by
  unfold clearInflight ExecutionEngine.clearInflight
  dsimp only
  split <;> exact ⟨rfl, rfl⟩

theorem frame_clearInflight (d : Desk K) (p : PairTask K) (S : List Nat) :
    Frame d (d.clearInflight p) S :=
  .of_cell_eq (clearInflight_seq_oms d p).1 rfl (cell_clearInflight d p)

theorem frame_cancelOrder (d : Desk K) (symbol cid : String) (S : List Nat) :
    Frame d (d.cancelOrder symbol cid) S := .of_cell_eq rfl rfl (cell_cancelOrder d symbol cid)

theorem frame_releaseTerminal (hk : KeysDistinct d.engine.seq) {n : Nat}
    (hn : n < d.engine.seq) (hS : n ∈ S) : Frame d (d.releaseTerminal n) S where
  seq := le_rfl
  orderId := rfl
  cell m hm hmS := by
    have hne : m ≠ n := fun h => hmS (h ▸ hS)
    rw [cell_releaseTerminal d (hk m hm n hn), if_neg hne]

/-- The record of a released order is gone, every other one stays. -/
theorem record_releaseTerminal (hk : KeysDistinct d.engine.seq) {n : Nat}
    (hn : n < d.engine.seq) {m : Nat} (hm : m < d.engine.seq) :
    ((d.releaseTerminal n).cell m).record = if m = n then none else (d.cell m).record := by
  rw [cell_releaseTerminal d (hk m hm n hn)]
  split_ifs <;> rfl

theorem takeMsg_seq {c : Nat} {r : OrderRecord K} (h : d.takeMsg c = some (r, d')) :
    d'.engine.seq = d.engine.seq ∧ d'.orderId = d.orderId := by
  unfold takeMsg at h
  split at h
  · cases h
  · cases h
    exact ⟨rfl, rfl⟩

theorem frame_takeMsg {c : Nat} {r : OrderRecord K} (h : d.takeMsg c = some (r, d'))
    (hS : c ∈ S) : Frame d d' S := by
  obtain ⟨rest, -, hcell⟩ := cell_takeMsg h
  refine ⟨(takeMsg_seq h).1.ge, (takeMsg_seq h).2, fun m _ hmS => ?_⟩
  have hne : m ≠ c := fun h => hmS (h ▸ hS)
  rw [hcell, if_neg hne]

theorem frame_sendOrder (d : Desk K) (n : Nat) (symbol : String) (side : Side) (qty : K) :
    Frame d (d.sendOrder n symbol side qty) [n] where
  seq := le_rfl
  orderId := rfl
  cell m _ hS := by rw [cell_sendOrder, if_neg (List.ne_of_not_mem_cons hS)]

theorem loseMsg_cases {c : Nat} {lost : Bool} (h : d.loseMsg c lost = some d') :
    d' = d ∨ ∃ r, d.takeMsg c = some (r, d') := by
  unfold loseMsg at h
  split_ifs at h
  · obtain ⟨⟨r, d₁⟩, hr, h⟩ := Option.bind_eq_some_iff.mp h
    dsimp only at h
    split_ifs at h
    cases h
    exact Or.inr ⟨r, hr⟩
  · cases h
    exact Or.inl rfl

theorem loseMsg_seq {c : Nat} {lost : Bool} (h : d.loseMsg c lost = some d') :
    d'.engine.seq = d.engine.seq := by
  rcases loseMsg_cases h with rfl | ⟨r, hr⟩
  · rfl
  · exact (takeMsg_seq hr).1

theorem frame_loseMsg {c : Nat} {lost : Bool} (h : d.loseMsg c lost = some d') (hS : c ∈ S) :
    Frame d d' S := by
  rcases loseMsg_cases h with rfl | ⟨r, hr⟩
  · exact .refl d' S
  · exact frame_takeMsg hr hS

section
variable [Field K] [LinearOrder K]

@[simp] theorem cell_applyFillPnl (d : Desk K) (r : OrderRecord K) (leg : ArbLeg K) (m : Nat) :
    (d.applyFillPnl r leg).cell m = d.cell m := rfl

theorem frame_applyFillPnl (d : Desk K) (r : OrderRecord K) (leg : ArbLeg K) (S : List Nat) :
    Frame d (d.applyFillPnl r leg) S := .of_cell_eq rfl rfl fun _ => rfl

theorem frame_applyPartial (d : Desk K) (r : OrderRecord K) (leg : ArbLeg K) (S : List Nat) :
    Frame d (d.applyPartial r leg) S := by
  unfold applyPartial
  split_ifs
  · exact frame_applyFillPnl d r leg S
  · exact .refl d S

end

/-! ## The desk stays in order -/

theorem Ok.of_eq [Field K] (h : d.Ok) (homs : d'.engine.oms = d.engine.oms)
    (hw : d'.engine.waiters = d.engine.waiters) (hx : d'.exchange = d.exchange)
    (hseq : d.engine.seq = d'.engine.seq) : d'.Ok where
  known := by
    rw [homs, hw, ← hseq]
    exact h.known
  cid := by
    unfold cell
    rw [homs, ← hseq]
    exact h.cid
  waiter := by
    unfold cell
    rw [hw, ← hseq]
    exact h.waiter
  order := by
    unfold cell
    rw [hx, ← hseq]
    exact h.order

theorem Ok.takeMsg [Field K] (h : d.Ok) {c : Nat} {r : OrderRecord K}
    (ht : d.takeMsg c = some (r, d')) : d'.Ok := by
  unfold Desk.takeMsg at ht
  split at ht
  · cases ht
  · cases ht
    exact h.of_eq rfl rfl rfl rfl

theorem Ok.loseMsg [Field K] (h : d.Ok) {c : Nat} {lost : Bool}
    (hl : d.loseMsg c lost = some d') : d'.Ok := by
  rcases loseMsg_cases hl with rfl | ⟨r, hr⟩
  · exact h
  · exact h.takeMsg hr

theorem Ok.clearInflight [Field K] (h : d.Ok) (p : PairTask K) : (d.clearInflight p).Ok := by
  unfold Desk.clearInflight ExecutionEngine.clearInflight
  dsimp only
  split <;> exact h.of_eq rfl rfl rfl rfl

theorem Ok.releaseTerminal [Field K] (h : d.Ok) (n : Nat) : (d.releaseTerminal n).Ok where
  known k hk := by
    refine h.known k ?_
    have hk' : ((d.engine.oms.release (orderKey n)).get k).isSome = true ∨
        ((d.engine.waiters.erase (orderKey n)).lookup k).isSome = true := hk
    rw [OMSCore.get_release] at hk'
    by_cases he : k = orderKey n
    · subst he
      simp at hk'
    · rwa [if_neg he, AList.lookup_erase_ne he] at hk'
  cid m hm r hr := by
    have hr' : (d.engine.oms.release (orderKey n)).get (orderKey m) = some r := hr
    rw [OMSCore.get_release] at hr'
    split_ifs at hr'
    exact h.cid m hm r hr'
  waiter m hm c hc := by
    have hc' : (d.engine.waiters.erase (orderKey n)).lookup (orderKey m) = some c := hc
    by_cases he : orderKey m = orderKey n
    · rw [he] at hc'
      simp at hc'
    · rw [AList.lookup_erase_ne he] at hc'
      exact h.waiter m hm c hc'
  order := h.order

/-! ## A new order -/

theorem waiter_engine {n : Nat} (hw : (d.cell n).waiter = none) :
    (d.waiter n).1.engine = { d.engine with
      waiters := d.engine.waiters.insert (orderKey n) n
      chans := Function.update d.engine.chans n [] } := by
  have hl : d.engine.waiters.lookup (orderKey n) = none := hw
  unfold Desk.waiter ExecutionEngine.getOrCreateWaiter
  rw [hl]

section
variable [Field K] {n : Nat} {leg : ArbLeg K}

/-- A number that has not been used. -/
structure Blank (d : Desk K) (n : Nat) : Prop where
  record : (d.cell n).record = none
  waiter : (d.cell n).waiter = none
  order : (d.cell n).order = none

/-- Registered, without a waiter yet. -/
structure Registered (d : Desk K) (n : Nat) (leg : ArbLeg K) : Prop where
  record : ∃ price t, (d.cell n).record =
    some (OrderRecord.fresh (clientId n) leg.symbol leg.side price leg.qty t)
  waiter : (d.cell n).waiter = none
  order : (d.cell n).order = none

theorem Registered.of_cell_eq (h : d.Registered n leg) (hc : d'.cell n = d.cell n) :
    d'.Registered n leg := ⟨hc ▸ h.record, hc ▸ h.waiter, hc ▸ h.order⟩

theorem Pending.of_cell_eq (h : d.Pending n leg) (hc : d'.cell n = d.cell n) :
    d'.Pending n leg := ⟨hc ▸ h.record, hc ▸ h.waiter, hc ▸ h.chan, hc ▸ h.order⟩

theorem Ok.blank (h : d.Ok) (hn : d.engine.seq ≤ n) (hk : KeysDistinct (n + 1)) :
    d.Blank n := by
  have hnew : ¬∃ m < d.engine.seq, orderKey m = orderKey n := by
    rintro ⟨m, hm, he⟩
    have hmn := hk m (by omega) n (by omega) he
    omega
  refine ⟨?_, ?_, ?_⟩
  · cases hr : (d.cell n).record with
    | none => rfl
    | some r =>
      exact absurd (h.known (orderKey n) (Or.inl (Option.isSome_of_eq_some hr))) hnew
  · cases hw : (d.cell n).waiter with
    | none => rfl
    | some c =>
      exact absurd (h.known (orderKey n) (Or.inr (Option.isSome_of_eq_some hw))) hnew
  · cases hv : (d.cell n).order with
    | none => rfl
    | some v =>
      have hlt := (h.order n v hv).1
      omega

/-- The counter after `k` calls of `next_client_id`, whatever pairs are in
flight. -/
theorem Ok.count (h : d.Ok) {engine : ExecutionEngine K} (homs : engine.oms = d.engine.oms)
    (hw : engine.waiters = d.engine.waiters) (hseq : d.engine.seq ≤ engine.seq)
    (hnew : ∀ n, d.engine.seq ≤ n → n < engine.seq → d.Blank n) :
    ({ d with engine := engine } : Desk K).Ok where
  known k hk := by
    replace hk : (engine.oms.get k).isSome = true ∨ (engine.waiters.lookup k).isSome = true := hk
    rw [homs, hw] at hk
    obtain ⟨m, hm, he⟩ := h.known k hk
    exact ⟨m, lt_of_lt_of_le hm hseq, he⟩
  cid m hm r hr := by
    replace hr : engine.oms.get (orderKey m) = some r := hr
    rw [homs] at hr
    rcases lt_or_ge m d.engine.seq with hlt | hge
    · exact h.cid m hlt r hr
    · replace hr : (d.cell m).record = some r := hr
      rw [(hnew m hge hm).record] at hr
      cases hr
  waiter m hm c hc := by
    replace hc : engine.waiters.lookup (orderKey m) = some c := hc
    rw [hw] at hc
    rcases lt_or_ge m d.engine.seq with hlt | hge
    · exact h.waiter m hlt c hc
    · replace hc : (d.cell m).waiter = some c := hc
      rw [(hnew m hge hm).waiter] at hc
      cases hc
  order m v hv := by
    obtain ⟨hm, hrest⟩ := h.order m v hv
    exact ⟨lt_of_lt_of_le hm hseq, hrest⟩

theorem Registered.openWaiter (hr : d.Registered n leg) :
    (d.waiter n).2 = n ∧ (d.waiter n).1.Pending n leg := by
  obtain ⟨hc, hcell⟩ := cell_waiter d (fun _ => rfl) hr.waiter (m := n)
  rw [if_pos rfl] at hcell
  refine ⟨hc, ?_, ?_, ?_, ?_⟩
  · rw [hcell]
    exact hr.record
  · rw [hcell]
  · rw [hcell]
  · rw [hcell]
    exact hr.order

theorem frame_waiter (hk : KeysDistinct d.engine.seq) (hn : n < d.engine.seq)
    (hw : (d.cell n).waiter = none) : Frame d (d.waiter n).1 [n] where
  seq := by rw [waiter_engine hw]
  orderId := rfl
  cell m hm hS := by
    rw [(cell_waiter d (hk m hm n hn) hw).2, if_neg (List.ne_of_not_mem_cons hS)]

theorem Ok.openWaiter (h : d.Ok) (hk : KeysDistinct d.engine.seq) (hn : n < d.engine.seq)
    (hw : (d.cell n).waiter = none) : (d.waiter n).1.Ok := by
  have heng := waiter_engine hw
  refine ⟨fun k hkn => ?_, fun m hm r hr => ?_, fun m hm c hc => ?_, fun m v hv => ?_⟩
  · rw [heng] at hkn ⊢
    by_cases he : k = orderKey n
    · exact ⟨n, hn, he.symm⟩
    · refine h.known k (hkn.imp_right fun hlk => ?_)
      rwa [AList.lookup_insert_ne he] at hlk
  · rw [heng] at hm
    refine h.cid m hm r ?_
    unfold cell at hr ⊢
    rwa [heng] at hr
  · rw [heng] at hm
    rw [(cell_waiter d (hk m hm n hn) hw).2] at hc
    split_ifs at hc with hmn
    · cases hc
      exact hmn.symm
    · exact h.waiter m hm c hc
  · rw [heng]
    exact h.order m v hv

theorem Ok.sendOrder (h : d.Ok) (hn : n < d.engine.seq) (symbol : String) (side : Side)
    (qty : K) : (d.sendOrder n symbol side qty).Ok where
  known := h.known
  cid := h.cid
  waiter := h.waiter
  order m v hv := by
    rw [cell_sendOrder] at hv
    split_ifs at hv with hmn
    · cases hv
      rw [hmn]
      exact ⟨hn, rfl, VenueOrder.queueOk_arrive ..⟩
    · exact h.order m v hv

theorem Pending.send [LinearOrder K] (hp : d.Pending n leg) (hq : 0 < leg.qty) :
    (d.sendOrder n leg.symbol leg.side leg.qty).Tracked n leg := by
  obtain ⟨price, t, hr⟩ := hp.record
  have hcell := (cell_sendOrder d n leg.symbol leg.side leg.qty n).trans (if_pos rfl)
  refine ⟨_, _, ?_, ?_, congrArg Cell.order hcell, ?_, VenueOrder.isFor_arrive n leg (d.orderId n),
    VenueOrder.sound_arrive hq _, knows_arrive n leg.symbol leg.side price leg.qty _ t⟩
  · rw [hcell]
    exact hr
  · rw [hcell]
    exact hp.waiter
  · rw [hcell, hp.chan]
    exact fun m hm => absurd hm List.not_mem_nil

variable (leg) (price : K) (t : Clock)

theorem register_seq (d : Desk K) (n : Nat) :
    (d.register n leg.symbol leg.side price leg.qty t).engine.seq = d.engine.seq :=
  ExecutionEngine.dispatchUpdate_seq ..

theorem frame_register (hk : KeysDistinct d.engine.seq) (hn : n < d.engine.seq)
    (hw : (d.cell n).waiter = none) :
    Frame d (d.register n leg.symbol leg.side price leg.qty t) [n] where
  seq := (register_seq leg price t d n).ge
  orderId := rfl
  cell m hm hS := by
    rw [cell_register d (hk m hm n hn) hw, if_neg (List.ne_of_not_mem_cons hS)]

theorem Blank.register (hb : d.Blank n) :
    (d.register n leg.symbol leg.side price leg.qty t).Registered n leg := by
  have hcell := (cell_register d (fun _ => rfl) hb.waiter leg.symbol leg.side price leg.qty
    t).trans (if_pos (rfl : n = n))
  refine ⟨⟨price, t, ?_⟩, ?_, ?_⟩
  · rw [hcell]
  · rw [hcell]
    exact hb.waiter
  · rw [hcell]
    exact hb.order

theorem Ok.register (h : d.Ok) (hk : KeysDistinct d.engine.seq) (hn : n < d.engine.seq)
    (hw : (d.cell n).waiter = none) :
    (d.register n leg.symbol leg.side price leg.qty t).Ok := by
  refine ⟨fun k hkn => ?_, fun m hm r hr => ?_, fun m hm c hc => ?_, fun m v hv => ?_⟩
  · rw [register_seq]
    rw [register_waiters] at hkn
    by_cases he : k = orderKey n
    · exact ⟨n, hn, he.symm⟩
    · refine h.known k (hkn.imp_left fun hget => ?_)
      rw [register_oms, OMSCore.get_registerNewOrder,
        if_neg (show ¬k = fnv1a64 (clientId n) from he)] at hget
      exact hget
  · rw [register_seq] at hm
    rw [cell_register d (hk m hm n hn) hw] at hr
    split_ifs at hr with hmn
    · rw [← Option.some.inj hr, hmn]
      exact makeClientId_clientId n
    · exact h.cid m hm r hr
  · rw [register_seq] at hm
    refine h.waiter m hm c ?_
    unfold cell at hc ⊢
    rwa [register_waiters] at hc
  · rw [register_seq]
    exact h.order m v hv

end

/-! ## An order from its number to the exchange -/

theorem Ok.nextClientId [Field K] (hd : d.Ok) (hk : KeysDistinct (d.engine.seq + 1)) :
    d.nextClientId.1.Ok ∧ d.nextClientId.1.Blank d.engine.seq := by
  have hblank := hd.blank le_rfl hk
  refine ⟨hd.count rfl rfl (Nat.le_succ _) fun n hge hlt => ?_, hblank.1, hblank.2, hblank.3⟩
  have hn : n = d.engine.seq := Nat.le_antisymm (Nat.lt_succ_iff.mp hlt) hge
  rwa [hn]

section
variable [Field K] (d : Desk K) (leg : ArbLeg K) (price : K) (t : Clock)

/-- `next_client_id`, `register_new_order`, `get_or_create_waiter`, and the send. -/
def openOrder : Desk K :=
  (((d.nextClientId.1.register d.engine.seq leg.symbol leg.side price leg.qty t).waiter
    d.engine.seq).1).sendOrder d.engine.seq leg.symbol leg.side leg.qty

variable {d}

theorem openOrder_accounts : (d.openOrder leg price t).engine.accounts = d.engine.accounts := by
  show (ExecutionEngine.getOrCreateWaiter _ _ _).1.accounts = _
  rw [ExecutionEngine.getOrCreateWaiter_accounts]
  exact ExecutionEngine.dispatchUpdate_accounts ..

theorem openOrder_seq : (d.openOrder leg price t).engine.seq = d.engine.seq + 1 := by
  show (ExecutionEngine.getOrCreateWaiter _ _ _).1.seq = _
  rw [ExecutionEngine.getOrCreateWaiter_seq]
  exact register_seq leg price t d.nextClientId.1 d.engine.seq

theorem openOrder_exchange : (d.openOrder leg price t).exchange =
    Function.update d.exchange d.engine.seq (some (VenueOrder.arrive (clientId d.engine.seq)
      leg.symbol leg.side leg.qty (d.orderId d.engine.seq))) := rfl

variable [LinearOrder K]

/-- The new order is live, and no other order has been touched. -/
theorem Ok.openOrder (hd : d.Ok) (hk : KeysDistinct (d.engine.seq + 1)) (hq : 0 < leg.qty) :
    (d.openOrder leg price t).Ok ∧ (d.openOrder leg price t).Tracked d.engine.seq leg ∧
      Frame d (d.openOrder leg price t) [] ∧
      ((d.nextClientId.1.register d.engine.seq leg.symbol leg.side price leg.qty t).waiter
        d.engine.seq).2 = d.engine.seq := by
  obtain ⟨hd₁, hb⟩ := hd.nextClientId hk
  have hn₁ : d.engine.seq < d.nextClientId.1.engine.seq := Nat.lt_succ_self _
  have hk₁ : KeysDistinct d.nextClientId.1.engine.seq := hk
  set d₂ := d.nextClientId.1.register d.engine.seq leg.symbol leg.side price leg.qty t with hd₂
  have hseq₂ : d₂.engine.seq = d.engine.seq + 1 := register_seq leg price t _ _
  have hok₂ : d₂.Ok := hd₁.register leg price t hk₁ hn₁ hb.waiter
  have hreg : d₂.Registered d.engine.seq leg := hb.register leg price t
  have hn₂ : d.engine.seq < d₂.engine.seq := by omega
  have hk₂ : KeysDistinct d₂.engine.seq := hseq₂ ▸ hk
  obtain ⟨hchan, hpend⟩ := hreg.openWaiter
  have hframe₂ := frame_register leg price t hk₁ hn₁ hb.waiter
  have hframe₃ := frame_waiter hk₂ hn₂ hreg.waiter
  have hframe₄ := frame_sendOrder (d₂.waiter d.engine.seq).1 d.engine.seq leg.symbol leg.side
    leg.qty
  have hok₃ := hok₂.openWaiter hk₂ hn₂ hreg.waiter
  have hseq₃ : (d₂.waiter d.engine.seq).1.engine.seq = d.engine.seq + 1 :=
    openOrder_seq leg price t
  have hframe := (hframe₂.trans hframe₃).trans hframe₄
  refine ⟨hok₃.sendOrder (by omega) leg.symbol leg.side leg.qty, hpend.send hq,
    ⟨?_, rfl, fun m hm _ => ?_⟩, hchan⟩
  · exact (Nat.le_succ _).trans hframe.seq
  · have hne : m ∉ [d.engine.seq] := by
      rw [List.mem_singleton]
      omega
    exact hframe.cell m (Nat.lt_succ_of_lt hm) hne

end

end Desk
end HoloMarket
