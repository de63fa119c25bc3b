import HoloMarket.Net.WorldInv

/-!
# Unreleased: the orders a pair has not released

At each suspension point a pair has orders that it registered and has not
released.  They keep their records and their waiters whatever else happens, and
the records of the desk are those of the pairs: `live_order_count()` is the
number of orders that are not released.  A pair that threw has its orders for
good.
-/

namespace HoloMarket

variable {K : Type*}

/-! ## The number of entries -/

namespace OMSCore

variable {oms : OMSCore K} {key : UInt64}

theorem liveOrderCount_release (h : (oms.get key).isSome = true) :
    (oms.release key).liveOrderCount + 1 = oms.liveOrderCount := by
  rw [get_isSome, AList.lookup_isSome] at h
  have hlookup : ∃ slot, oms.index.lookup key = some slot :=
    Option.isSome_iff_exists.mp (AList.lookup_isSome.mpr h)
  obtain ⟨slot, hslot⟩ := hlookup
  have hindex : (oms.release key).index = oms.index.erase key := by
    unfold release
    split
    · next hnone =>
      rw [hslot] at hnone
      cases hnone
    · rfl
  have hlen : ∀ s : AList fun _ : UInt64 => Nat, s.entries.length = s.keys.length :=
    fun s => (List.length_map _).symm
  unfold liveOrderCount
  rw [hindex, hlen, hlen, AList.keys_erase, List.length_erase_of_mem h]
  exact Nat.sub_add_cancel (List.length_pos_of_mem h)

theorem liveOrderCount_registerNewOrder [Zero K] {cid : String}
    (h : oms.get (fnv1a64 cid) = none) (symbol : String) (side : Side) (price qty : K)
    (t : Clock) :
    (oms.registerNewOrder cid symbol side price qty t).1.liveOrderCount =
      oms.liveOrderCount + 1 := by
  have hnew : fnv1a64 cid ∉ oms.allocSlotLocked.1.index := by
    rw [allocSlotLocked_index, ← AList.lookup_isSome, ← get_isSome, h]
    exact Bool.false_ne_true
  show (oms.allocSlotLocked.1.index.insert _ _).entries.length = _
  rw [AList.entries_insert_of_notMem hnew, List.length_cons, allocSlotLocked_index]
  rfl

end OMSCore

namespace ExecutionEngine

variable [Field K] [LinearOrder K]

theorem applyUpdate_liveOrderCount (eng : ExecutionEngine K) (key : UInt64) (u : UpdateArgs K) :
    (eng.applyUpdate key u).oms.liveOrderCount = eng.oms.liveOrderCount := by
  unfold applyUpdate
  split
  · rfl
  · next oms r h =>
    rw [dispatchUpdate_oms]
    obtain ⟨slot, -, h⟩ := Option.bind_eq_some_iff.mp h
    obtain ⟨r₀, -, h⟩ := Option.map_eq_some_iff.mp h
    cases h
    rfl

end ExecutionEngine

/-! ## Orders that keep their entries -/

namespace PairTask

/-- The orders that are registered and not released at a suspension point. -/
def unreleased (p : PairTask K) : PairPc → List Nat
  | .sendingLeg1 | .sendingLeg2 | .racing => [p.id1, p.id2]
  | .cancelingPartner first | .awaitingPartner first | .legTimer first
  | .cancelingResting first | .awaitingResting first => [p.id first.other]
  | .sendingHedge _ hedge _ | .watchingHedge _ hedge _ => [hedge]
  | .finished _ _ => []
  | .threw point => p.unreleased point

/-- Where the pair is does not matter for what it has at a point. -/
theorem unreleased_setPc (p : PairTask K) (pc₀ pc : PairPc) :
    ({ p with pc := pc₀ } : PairTask K).unreleased pc = p.unreleased pc := by
  induction pc with
  | threw point ih => exact ih
  | _ => rfl

theorem unreleased_subset (p : PairTask K) : p.unreleased p.pc ⊆ p.orders := by
  have h : ∀ pc : PairPc, p.unreleased pc ⊆ p.id1 :: p.id2 :: pc.hedge.toList := by
    intro pc
    induction pc with
    | threw point ih => exact ih
    | cancelingPartner first | awaitingPartner first | legTimer first | cancelingResting first
    | awaitingResting first => cases first <;> simp [unreleased, id, LegIx.other]
    | _ => simp [unreleased, PairPc.hedge]
  exact h p.pc

theorem unreleased_nodup {p : PairTask K} {N : Nat} (h : p.Wired N) (pc : PairPc) :
    (p.unreleased pc).Nodup := by
  have hne : p.id1 ≠ p.id2 := h.id_ne .leg1
  induction pc with
  | threw point ih => exact ih
  | _ => simp [unreleased, hne]

end PairTask

namespace Desk

/-- The order has its record and its waiter. -/
def Held (d : Desk K) (n : Nat) : Prop :=
  (d.cell n).record.isSome = true ∧ (d.cell n).waiter.isSome = true

def liveOrderCount (d : Desk K) : Nat := d.engine.oms.liveOrderCount

variable {d d' d₁ : Desk K}

theorem Held.of_cell_eq {n : Nat} (h : d.Held n) (hc : d'.cell n = d.cell n) : d'.Held n := by
  unfold Held
  rw [hc]
  exact h

end Desk

/-- The pair has the entries of all its unreleased orders. -/
def PairTask.Holds (d : Desk K) (p : PairTask K) : Prop := ∀ n ∈ p.unreleased p.pc, d.Held n

namespace Desk

variable [Field K] {d d' d₁ : Desk K} {S T : List Nat} {p : PairTask K} {pc pc' : PairPc}

/-- On the way from `d` to `d'` the orders `S` are released and nothing else. -/
structure Sheds (d d' : Desk K) (S : List Nat) : Prop where
  seq : d'.engine.seq = d.engine.seq
  desk : d'.Ok
  held : ∀ n < d.engine.seq, n ∉ S → d.Held n → d'.Held n
  count : d'.liveOrderCount + S.length = d.liveOrderCount

theorem Sheds.trans (h : Sheds d d₁ S) (h' : Sheds d₁ d' T) : Sheds d d' (S ++ T) where
  seq := h'.seq.trans h.seq
  desk := h'.desk
  held n hn hST hheld := by
    rw [List.mem_append, not_or] at hST
    exact h'.held n (h.seq.symm ▸ hn) hST.2 (h.held n hn hST.1 hheld)
  count := by
    have hd := h.count
    have hd' := h'.count
    rw [List.length_append]
    omega

/-- A change that leaves the records and the waiters alone. -/
theorem Sheds.of_eq (hd : d'.Ok) (hseq : d'.engine.seq = d.engine.seq)
    (homs : d'.engine.oms = d.engine.oms) (hw : d'.engine.waiters = d.engine.waiters) :
    Sheds d d' [] where
  seq := hseq
  desk := hd
  held n _ _ hheld := by
    unfold Held cell at hheld ⊢
    rwa [homs, hw]
  count := congrArg OMSCore.liveOrderCount homs

theorem Quiet.sheds (h : Quiet d d' S) (homs : d'.engine.oms = d.engine.oms)
    (hw : d'.engine.waiters = d.engine.waiters) : Sheds d d' [] :=
  .of_eq h.desk h.seq homs hw

theorem Sheds.refl (hd : d.Ok) : Sheds d d [] := (Quiet.refl hd []).sheds rfl rfl

theorem takeMsg_sheds (hd : d.Ok) {c : Nat} {m : OrderRecord K} (h : d.takeMsg c = some (m, d')) :
    Sheds d d' [] := by
  have hquiet := Quiet.of_takeMsg hd h (List.mem_singleton_self c)
  unfold takeMsg at h
  split at h
  · cases h
  · cases h
    exact hquiet.sheds rfl rfl

theorem loseMsg_sheds (hd : d.Ok) {c : Nat} {lost : Bool} (h : d.loseMsg c lost = some d') :
    Sheds d d' [] := by
  rcases loseMsg_cases h with rfl | ⟨m, hm⟩
  · exact .refl hd
  · exact takeMsg_sheds hd hm

theorem clearInflight_sheds (hd : d.Ok) (p : PairTask K) : Sheds d (d.clearInflight p) [] := by
  have hquiet := quiet_clearInflight hd p []
  refine hquiet.sheds (clearInflight_seq_oms d p).2 ?_
  unfold clearInflight ExecutionEngine.clearInflight
  dsimp only
  split <;> rfl

theorem releaseTerminal_sheds (hd : d.Ok) (hk : KeysDistinct d.engine.seq) {n : Nat}
    (hn : n < d.engine.seq) (hheld : d.Held n) : Sheds d (d.releaseTerminal n) [n] where
  seq := rfl
  desk := hd.releaseTerminal n
  held m hm hne h := by
    refine h.of_cell_eq ?_
    rw [cell_releaseTerminal d (hk m hm n hn), if_neg (List.ne_of_not_mem_cons hne)]
  count := OMSCore.liveOrderCount_release hheld.1

/-! ## What a resumption releases -/

/-- The pair goes on to `pc'`: it has the entries it has to have, no other order
has lost any, and the number of entries has changed by as much. -/
structure Accounts (d d' : Desk K) (p : PairTask K) (pc' : PairPc) : Prop where
  others : ∀ n < d.engine.seq, n ∉ p.unreleased p.pc → d.Held n → d'.Held n
  own : ∀ n ∈ p.unreleased pc', d'.Held n
  count : d'.liveOrderCount + (p.unreleased p.pc).length =
    d.liveOrderCount + (p.unreleased pc').length
  length : (p.unreleased pc').length ≤ (p.unreleased p.pc).length

theorem Sheds.then (h : Sheds d d₁ []) (h' : Accounts d₁ d' p pc') : Accounts d d' p pc' where
  others n hn hne hheld :=
    h'.others n (h.seq.symm ▸ hn) hne (h.held n hn List.not_mem_nil hheld)
  own := h'.own
  count := by
    have hd := h.count
    have hd' := h'.count
    rw [List.length_nil] at hd
    omega
  length := h'.length

section
variable (hwired : p.Wired d.engine.seq) (hheld : p.Holds d)

include hwired hheld

theorem Sheds.accounts (h : Sheds d d' S)
    (hperm : (S ++ p.unreleased pc').Perm (p.unreleased p.pc)) : Accounts d d' p pc' where
  others n hn hne := h.held n hn fun hS => hne (hperm.mem_iff.mp (List.mem_append_left _ hS))
  own n hn := by
    have hmem := hperm.mem_iff.mp (List.mem_append_right S hn)
    have hnd := hperm.nodup_iff.mpr (PairTask.unreleased_nodup hwired p.pc)
    have hS : n ∉ S := fun hS => (List.nodup_append.mp hnd).2.2 n hS n hn rfl
    exact h.held n (hwired.lt n (p.unreleased_subset hmem)) hS (hheld n hmem)
  count := by
    have hd := h.count
    have hlen := hperm.length_eq
    rw [List.length_append] at hlen
    omega
  length := by
    have hlen := hperm.length_eq
    rw [List.length_append] at hlen
    omega

theorem Sheds.accounts_nil (h : Sheds d d' []) (he : p.unreleased pc' = p.unreleased p.pc) :
    Accounts d d' p pc' := h.accounts hwired hheld (by rw [he, List.nil_append])

end

/-! ## New orders -/

section
variable (d) (n : Nat) (leg : ArbLeg K) (price : K) (t : Clock)

omit [Field K] in
theorem waiter_oms : (d.waiter n).1.engine.oms = d.engine.oms := by
  unfold waiter ExecutionEngine.getOrCreateWaiter
  dsimp only
  split <;> rfl

theorem register_liveOrderCount (hn : (d.cell n).record = none) :
    (d.register n leg.symbol leg.side price leg.qty t).liveOrderCount =
      d.liveOrderCount + 1 := by
  unfold liveOrderCount
  rw [register_oms]
  exact OMSCore.liveOrderCount_registerNewOrder hn ..

end

variable [LinearOrder K]

theorem Tracked.held {n : Nat} {leg : ArbLeg K} (h : d.Tracked n leg) : d.Held n := by
  obtain ⟨v, r, ht⟩ := h
  exact ⟨Option.isSome_of_eq_some ht.record, Option.isSome_of_eq_some ht.waiter⟩

omit [LinearOrder K] in
theorem Pending.held {n : Nat} {leg : ArbLeg K} (h : d.Pending n leg) : d.Held n := by
  obtain ⟨price, t, hr⟩ := h.record
  exact ⟨Option.isSome_of_eq_some hr, Option.isSome_of_eq_some h.waiter⟩

omit [LinearOrder K] in
theorem openOrder_liveOrderCount (hd : d.Ok) (hk : KeysDistinct (d.engine.seq + 1))
    (leg : ArbLeg K) (price : K) (t : Clock) :
    (d.openOrder leg price t).liveOrderCount = d.liveOrderCount + 1 := by
  have hblank := (hd.nextClientId hk).2
  have hcount := register_liveOrderCount d.nextClientId.1 d.engine.seq leg price t hblank.record
  unfold openOrder liveOrderCount
  rw [← show d.nextClientId.1.liveOrderCount = d.engine.oms.liveOrderCount from rfl, ← hcount]
  exact congrArg OMSCore.liveOrderCount (waiter_oms _ _)

omit [Field K] [LinearOrder K] in
@[simp] theorem sendLeg_liveOrderCount (p : PairTask K) (x : LegIx) :
    (d.sendLeg p x).liveOrderCount = d.liveOrderCount := rfl

omit [Field K] [LinearOrder K] in
theorem Held.sendLeg {m : Nat} (h : d.Held m) (p : PairTask K) (x : LegIx) :
    (d.sendLeg p x).Held m := h

omit [LinearOrder K] in
theorem openPair_held (hd : d.Ok) (hk : KeysDistinct (d.engine.seq + 2)) (leg1 leg2 : ArbLeg K)
    (t : Clock) : (d.openPair leg1 leg2 t).Held d.engine.seq ∧
      (d.openPair leg1 leg2 t).Held (d.engine.seq + 1) := by
  obtain ⟨-, hp₁, hp₂, -, -, -⟩ := hd.openPair hk leg1 leg2 t
  exact ⟨hp₁.held, hp₂.held⟩

omit [LinearOrder K] in
theorem openPair_liveOrderCount (hd : d.Ok) (hk : KeysDistinct (d.engine.seq + 2))
    (leg1 leg2 : ArbLeg K) (t : Clock) :
    (d.openPair leg1 leg2 t).liveOrderCount = d.liveOrderCount + 2 := by
  obtain ⟨hok, hb₁, hb₂⟩ := hd.claimPair hk leg1 leg2
  have hseq := claimPair_seq d leg1 leg2
  have hk₁ : KeysDistinct (d.claimPair leg1 leg2).engine.seq := hseq.symm ▸ hk
  have hframe := frame_register leg1 leg1.price t hk₁ (by omega) hb₁.waiter
  have hcell := hframe.cell (d.engine.seq + 1) (by omega) (by simp)
  have hcount₁ := register_liveOrderCount (d.claimPair leg1 leg2) d.engine.seq leg1 leg1.price t
    hb₁.record
  have hcount₂ := register_liveOrderCount ((d.claimPair leg1 leg2).register d.engine.seq
    leg1.symbol leg1.side leg1.price leg1.qty t) (d.engine.seq + 1) leg2 leg2.price t
    (hcell ▸ hb₂.record)
  have hwaiters : (d.openPair leg1 leg2 t).engine.oms =
      ((d.claimPair leg1 leg2).registerTwo leg1 leg2 d.engine.seq t).engine.oms :=
    (waiter_oms _ _).trans (waiter_oms _ _)
  have hclaim : (d.claimPair leg1 leg2).liveOrderCount = d.liveOrderCount := rfl
  rw [hclaim] at hcount₁
  rw [hcount₁] at hcount₂
  exact (congrArg OMSCore.liveOrderCount hwaiters).trans hcount₂

/-! ## An update -/

/-- Every order keeps its entries when one of them is updated. -/
theorem Updated.sheds {n : Nat} {u : UpdateArgs K} {v : VenueOrder K} (h : d.Updated d' n u v)
    (hd : d'.Ok) : Sheds d d' [] where
  seq := h.seq
  desk := hd
  held m _ _ hheld := by
    refine ⟨?_, ?_⟩
    · show (d'.engine.oms.get (orderKey m)).isSome = true
      rw [h.engine, ExecutionEngine.get_applyUpdate]
      split_ifs with he
      · rw [Option.isSome_map, ← he]
        exact hheld.1
      · exact hheld.1
    · rw [h.waiter]
      exact hheld.2
  count := by
    show d'.engine.oms.liveOrderCount = _
    rw [h.engine]
    exact ExecutionEngine.applyUpdate_liveOrderCount ..

/-! ## A leg settles -/

theorem applyPartial_sheds (hd : d.Ok) (r : OrderRecord K) (leg : ArbLeg K) :
    Sheds d (d.applyPartial r leg) [] := by
  have hquiet := quiet_applyPartial hd r leg []
  unfold applyPartial at hquiet ⊢
  split_ifs at hquiet ⊢
  · exact hquiet.sheds rfl rfl
  · exact .refl hd

theorem applyFillPnl_sheds (hd : d.Ok) (r : OrderRecord K) (leg : ArbLeg K) :
    Sheds d (d.applyFillPnl r leg) [] := (quiet_applyFillPnl hd r leg []).sheds rfl rfl

section
variable [IsStrictOrderedRing K] {first : LegIx} (t : Clock)

/-- Once the other leg is released the pair is complete, or a hedge takes its
place. -/
theorem hedgeRemaining_accounts {remaining : K} (hwired : p.Wired d.engine.seq)
    (hheld : p.Holds d) (he : p.unreleased p.pc = [p.id first.other])
    (h : Sheds d d₁ [p.id first.other])
    (hk : KeysDistinct (d₁.hedgeRemaining p first remaining t).1.engine.seq) :
    Accounts d (d₁.hedgeRemaining p first remaining t).1 p
      (d₁.hedgeRemaining p first remaining t).2 := by
  by_cases hle : remaining ≤ ExecutionEngine.qtyEps
  · rw [hedgeRemaining_done t hle]
    refine (h.trans (clearInflight_sheds h.desk p)).accounts hwired hheld ?_
    rw [he]
    exact List.Perm.refl _
  · rw [hedgeRemaining_open t hle] at hk ⊢
    rw [openOrder_seq] at hk
    have hpos : 0 < ({ p.leg first.other with qty := remaining } : ArbLeg K).qty :=
      ExecutionEngine.qtyEps_pos.trans (not_le.mp hle)
    obtain ⟨-, htracked, hframe, -⟩ :=
      h.desk.openOrder { p.leg first.other with qty := remaining } 0 t hk hpos
    have hcount := openOrder_liveOrderCount h.desk hk
      { p.leg first.other with qty := remaining } 0 t
    refine ⟨fun n hn hne hn' => ?_, fun n hn => ?_, ?_, ?_⟩
    · rw [he] at hne
      exact (h.held n hn hne hn').of_cell_eq
        (hframe.cell n (h.seq.symm ▸ hn) List.not_mem_nil)
    · rw [List.mem_singleton.mp hn]
      exact htracked.held
    · have hshed := h.count
      rw [List.length_singleton] at hshed
      rw [he, hcount]
      show d₁.liveOrderCount + 1 + 1 = d.liveOrderCount + 1
      omega
    · rw [he]
      exact le_refl 1

/-- `settled` accounts for the orders of the pair, from whatever desk. -/
def AccountsBy (p : PairTask K) (settled : Desk K → OrderRecord K → Desk K × PairPc) : Prop :=
  ∀ (d : Desk K) (r : OrderRecord K), d.Ok → KeysDistinct d.engine.seq →
    p.Wired d.engine.seq → p.Holds d → KeysDistinct (settled d r).1.engine.seq →
    Accounts d (settled d r).1 p (settled d r).2

variable (he : p.unreleased p.pc = [p.id first.other])

include he

theorem partnerSettled_accounts : AccountsBy p fun d r => d.partnerSettled p first r t := by
  intro d r hd hk₀ hwired hheld hk
  have hmem : p.id first.other ∈ p.unreleased p.pc := he ▸ List.mem_singleton_self _
  have hrel := releaseTerminal_sheds hd hk₀ (hwired.id_lt first.other) (hheld _ hmem)
  unfold partnerSettled at hk ⊢
  dsimp only at hk ⊢
  split_ifs at hk ⊢
  · exact hedgeRemaining_accounts t hwired hheld he
      (hrel.trans (applyFillPnl_sheds hrel.desk ..)) hk
  · refine (hrel.trans (clearInflight_sheds hrel.desk p)).accounts hwired hheld ?_
    rw [he]
    exact List.Perm.refl _

theorem restingRaced_accounts : AccountsBy p fun d r => d.restingRaced p first r t := by
  intro d r hd hk₀ hwired hheld hk
  have hmem : p.id first.other ∈ p.unreleased p.pc := he ▸ List.mem_singleton_self _
  have hlt := hwired.id_lt first.other
  unfold restingRaced at hk ⊢
  dsimp only at hk ⊢
  split_ifs at hk ⊢
  · have hfill := applyFillPnl_sheds hd r (p.leg first.other)
    have hrel := hfill.trans (releaseTerminal_sheds hfill.desk hk₀ hlt
      (hfill.held _ hlt List.not_mem_nil (hheld _ hmem)))
    refine (hrel.trans (clearInflight_sheds hrel.desk p)).accounts hwired hheld ?_
    rw [he]
    exact List.Perm.refl _
  · have hpart := applyPartial_sheds hd r (p.leg first.other)
    exact hedgeRemaining_accounts t hwired hheld he
      (hpart.trans (releaseTerminal_sheds hpart.desk (hpart.seq.symm ▸ hk₀)
        (hpart.seq.symm ▸ hlt) (hpart.held _ hlt List.not_mem_nil (hheld _ hmem)))) hk

theorem restingSettled_accounts : AccountsBy p fun d r => d.restingSettled p first r t := by
  intro d r hd hk₀ hwired hheld hk
  have hmem : p.id first.other ∈ p.unreleased p.pc := he ▸ List.mem_singleton_self _
  have hrel := releaseTerminal_sheds hd hk₀ (hwired.id_lt first.other) (hheld _ hmem)
  unfold restingSettled at hk ⊢
  dsimp only at hk ⊢
  split_ifs at hk ⊢
  · have hfill := hrel.trans (applyFillPnl_sheds hrel.desk r (p.leg first.other))
    refine (hfill.trans (clearInflight_sheds hfill.desk p)).accounts hwired hheld ?_
    rw [he]
    exact List.Perm.refl _
  · exact hedgeRemaining_accounts t hwired hheld he
      (hrel.trans (applyPartial_sheds hrel.desk ..)) hk

end

section
variable {settled : Desk K → OrderRecord K → Desk K × PairPc} {r : OrderRecord K} {c n : Nat}
  {first : LegIx} (hd : d.Ok) (hk₀ : KeysDistinct d.engine.seq) (hwired : p.Wired d.engine.seq)
  (hheld : p.Holds d)

include hd hk₀ hwired hheld

omit [LinearOrder K] hd in
theorem AccountsBy.of_sheds {q : Desk K × PairPc} (hs : AccountsBy p settled)
    (h : Sheds d d₁ []) (hq : settled d₁ r = q) (hk : KeysDistinct q.1.engine.seq) :
    Accounts d q.1 p q.2 := by
  subst hq
  have hheld₁ : p.Holds d₁ := fun n hn =>
    h.held n (hwired.lt n (p.unreleased_subset hn)) List.not_mem_nil (hheld n hn)
  exact h.then (hs d₁ r h.desk (h.seq.symm ▸ hk₀) (h.seq.symm ▸ hwired) hheld₁ hk)

omit [LinearOrder K] in
theorem receiveOn_accounts (hs : AccountsBy p settled)
    (h : d.receiveOn p c settled = some (d', pc')) (hk : KeysDistinct d'.engine.seq) :
    Accounts d d' p pc' := by
  obtain ⟨⟨m, d₁⟩, htake, h⟩ := Option.map_eq_some_iff.mp h
  have hshed := takeMsg_sheds hd htake
  dsimp only at h
  split_ifs at h
  · exact hs.of_sheds hk₀ hwired hheld hshed h hk
  · cases h
    exact hshed.accounts_nil hwired hheld rfl

omit [LinearOrder K] in
theorem awaitAuthoritative_accounts (hs : AccountsBy p settled)
    (h : d.awaitAuthoritative n settled pc = (d', pc'))
    (hpc : p.unreleased pc = p.unreleased p.pc) (hk : KeysDistinct d'.engine.seq) :
    Accounts d d' p pc' := by
  unfold awaitAuthoritative at h
  split at h
  · exact hs.of_sheds hk₀ hwired hheld (.refl hd) h hk
  · cases h
    exact (Sheds.refl hd).accounts_nil hwired hheld hpc

/-- The race is over: the leg that settled first is released. -/
theorem firstSettled_accounts (hpc : p.pc = .racing) :
    Accounts d (d.firstSettled p first r).1 p (d.firstSettled p first r).2 := by
  have he : p.unreleased p.pc = [p.id1, p.id2] := congrArg p.unreleased hpc
  have hmem : p.id first ∈ p.unreleased p.pc := by
    rw [he]
    cases first <;> simp [PairTask.id]
  have hlt := hwired.id_lt first
  have hperm : ([p.id first] ++ [p.id first.other]).Perm (p.unreleased p.pc) := by
    rw [he]
    cases first with
    | leg1 => exact List.Perm.refl _
    | leg2 => exact List.Perm.swap p.id1 p.id2 []
  unfold firstSettled
  split_ifs
  · have hrel := releaseTerminal_sheds hd hk₀ hlt (hheld _ hmem)
    have hcancel := (quiet_cancelOrder hrel.desk (p.leg first.other).symbol
      (clientId (p.id first.other)) []).sheds rfl rfl
    exact (hrel.trans hcancel).accounts hwired hheld hperm
  · have hfill := applyFillPnl_sheds hd r (p.leg first)
    have hrel := releaseTerminal_sheds hfill.desk hk₀ hlt
      (hfill.held _ hlt List.not_mem_nil (hheld _ hmem))
    exact (hfill.trans hrel).accounts hwired hheld hperm

theorem receiveFirst_accounts (hpc : p.pc = .racing) {w : LegIx} {lost : Bool}
    (h : d.receiveFirst p w lost = some (d', pc')) : Accounts d d' p pc' := by
  obtain ⟨⟨m, d₁⟩, htake, h⟩ := Option.bind_eq_some_iff.mp h
  have hshed := takeMsg_sheds hd htake
  dsimp only at h
  split_ifs at h
  · obtain ⟨d₂, hlose, h⟩ := Option.map_eq_some_iff.mp h
    have hshed₂ : Sheds d d₂ [] := hshed.trans (loseMsg_sheds hshed.desk hlose)
    have hheld₂ : p.Holds d₂ := fun n hn =>
      hshed₂.held n (hwired.lt n (p.unreleased_subset hn)) List.not_mem_nil (hheld n hn)
    have hfirst : Accounts d₂ (d₂.firstSettled p w m).1 p (d₂.firstSettled p w m).2 :=
      firstSettled_accounts hshed₂.desk (hshed₂.seq.symm ▸ hk₀) (hshed₂.seq.symm ▸ hwired)
        hheld₂ hpc
    rw [h] at hfirst
    exact hshed₂.then hfirst
  · cases h
    exact hshed.accounts_nil hwired hheld rfl

theorem hedgeSettled_accounts {h : Nat} (he : p.unreleased p.pc = [h]) :
    Accounts d (d.hedgeSettled p first h r).1 p (d.hedgeSettled p first h r).2 := by
  have hmem : h ∈ p.unreleased p.pc := he ▸ List.mem_singleton_self h
  have hlt := hwired.lt h (p.unreleased_subset hmem)
  have hpart := applyPartial_sheds hd r (p.leg first.other)
  have hrel := releaseTerminal_sheds hpart.desk (hpart.seq.symm ▸ hk₀) (hpart.seq.symm ▸ hlt)
    (hpart.held h hlt List.not_mem_nil (hheld h hmem))
  refine (hpart.trans hrel).accounts hwired hheld ?_
  rw [he]
  exact List.Perm.refl _

end

/-! ## Every resumption -/

section
variable [IsStrictOrderedRing K] {t : Clock}

theorem resume_accounts (hd : d.Ok) (hk₀ : KeysDistinct d.engine.seq)
    (hwired : p.Wired d.engine.seq) (hheld : p.Holds d) {x : Resumption}
    (h : d.resume p x t = some (d', pc')) (hk : KeysDistinct d'.engine.seq) :
    Accounts d d' p pc' := by
  have hthrew : Accounts d (d.clearInflight p) p (.threw p.pc) :=
    (clearInflight_sheds hd p).accounts_nil hwired hheld rfl
  unfold resume at h
  split at h
  case h_1 hpc =>
    cases h
    have hsend := (quiet_sendOrder hd (hwired.id_lt .leg2) p.leg2.symbol p.leg2.side p.leg2.qty
      (List.mem_singleton_self _)).sheds rfl rfl
    exact hsend.accounts_nil hwired hheld (congrArg p.unreleased hpc).symm
  case h_2 hpc =>
    cases h
    exact (Sheds.refl hd).accounts_nil hwired hheld (congrArg p.unreleased hpc).symm
  case h_3 w lost hpc => exact receiveFirst_accounts hd hk₀ hwired hheld hpc h
  case h_4 first hpc =>
    have he := congrArg p.unreleased hpc
    exact awaitAuthoritative_accounts hd hk₀ hwired hheld (partnerSettled_accounts t he)
      (Option.some.inj h) he.symm hk
  case h_5 first w hpc =>
    split_ifs at h
    exact receiveOn_accounts hd hk₀ hwired hheld
      (partnerSettled_accounts t (congrArg p.unreleased hpc)) h hk
  case h_6 first lost hpc =>
    obtain ⟨d₁, hlose, h⟩ := Option.map_eq_some_iff.mp h
    exact (partnerSettled_accounts t (congrArg p.unreleased hpc)).of_sheds hk₀ hwired hheld
      (loseMsg_sheds hd hlose) h hk
  case h_7 first w hpc =>
    split_ifs at h
    exact receiveOn_accounts hd hk₀ hwired hheld
      (restingRaced_accounts t (congrArg p.unreleased hpc)) h hk
  case h_8 first lost hpc =>
    obtain ⟨d₁, hlose, h⟩ := Option.map_eq_some_iff.mp h
    cases h
    have hshed := loseMsg_sheds hd hlose
    have hcancel := (quiet_cancelOrder hshed.desk (p.leg first.other).symbol
      (clientId (p.id first.other)) []).sheds rfl rfl
    exact (hshed.trans hcancel).accounts_nil hwired hheld (congrArg p.unreleased hpc).symm
  case h_9 first hpc =>
    have he := congrArg p.unreleased hpc
    exact awaitAuthoritative_accounts hd hk₀ hwired hheld (restingSettled_accounts t he)
      (Option.some.inj h) he.symm hk
  case h_10 first w hpc =>
    split_ifs at h
    exact receiveOn_accounts hd hk₀ hwired hheld
      (restingSettled_accounts t (congrArg p.unreleased hpc)) h hk
  case h_11 first lost hpc =>
    obtain ⟨d₁, hlose, h⟩ := Option.map_eq_some_iff.mp h
    exact (restingSettled_accounts t (congrArg p.unreleased hpc)).of_sheds hk₀ hwired hheld
      (loseMsg_sheds hd hlose) h hk
  case h_12 first n c hpc =>
    cases h
    exact (clearInflight_sheds hd p).accounts_nil hwired hheld (congrArg p.unreleased hpc).symm
  case h_13 first n c hpc =>
    have he : p.unreleased p.pc = [n] := congrArg p.unreleased hpc
    have hs : AccountsBy p fun e r => e.hedgeSettled p first n r :=
      fun e r hde hke hwe hhe _ => hedgeSettled_accounts hde hke hwe hhe he
    exact receiveOn_accounts hd hk₀ hwired hheld hs h hk
  case h_19 => cases h
  all_goals
    cases h
    exact hthrew

end

end Desk
end HoloMarket
