import HoloMarket.Net.PairSteps

/-!
# PairSignal: the first step of a pair

`on_signal` takes two numbers, registers an order under each, opens their
waiters and sends the first leg.  The second leg is registered with nothing sent.
-/

namespace HoloMarket

variable {K : Type*} [Field K]

namespace Desk

variable {d d' : Desk K} {leg1 leg2 : ArbLeg K} {n : Nat}

/-! ## Two orders at once -/

section
variable (d n leg1 leg2) (t : Clock)

def registerTwo : Desk K :=
  (d.register n leg1.symbol leg1.side leg1.price leg1.qty t).register (n + 1) leg2.symbol
    leg2.side leg2.price leg2.qty t

def openTwo : Desk K := ((d.waiter n).1.waiter (n + 1)).1

theorem registerTwo_seq : (d.registerTwo leg1 leg2 n t).engine.seq = d.engine.seq :=
  (register_seq leg2 leg2.price t _ _).trans (register_seq leg1 leg1.price t _ _)

theorem registerTwo_accounts :
    (d.registerTwo leg1 leg2 n t).engine.accounts = d.engine.accounts :=
  (ExecutionEngine.dispatchUpdate_accounts ..).trans
    (ExecutionEngine.dispatchUpdate_accounts ..)

omit [Field K] in
theorem openTwo_seq : (d.openTwo n).engine.seq = d.engine.seq :=
  (ExecutionEngine.getOrCreateWaiter_seq ..).trans (ExecutionEngine.getOrCreateWaiter_seq ..)

omit [Field K] in
theorem openTwo_accounts : (d.openTwo n).engine.accounts = d.engine.accounts :=
  (ExecutionEngine.getOrCreateWaiter_accounts ..).trans
    (ExecutionEngine.getOrCreateWaiter_accounts ..)

end

section
variable (hd : d.Ok) (hk : KeysDistinct d.engine.seq) (hn : n + 1 < d.engine.seq)
  (leg1 leg2 : ArbLeg K)

include hd hk hn

theorem Ok.registerTwo (hb₁ : d.Blank n) (hb₂ : d.Blank (n + 1)) (t : Clock) :
    (d.registerTwo leg1 leg2 n t).Ok ∧ (d.registerTwo leg1 leg2 n t).Registered n leg1 ∧
      (d.registerTwo leg1 leg2 n t).Registered (n + 1) leg2 ∧
      Frame d (d.registerTwo leg1 leg2 n t) [n, n + 1] := by
  have hn₁ : n < d.engine.seq := by omega
  have hseq := register_seq leg1 leg1.price t d n
  have hok₁ := hd.register leg1 leg1.price t hk hn₁ hb₁.waiter
  have hframe₁ := frame_register leg1 leg1.price t hk hn₁ hb₁.waiter
  have hcell := hframe₁.cell (n + 1) hn (by simp)
  have hb₂' : (d.register n leg1.symbol leg1.side leg1.price leg1.qty t).Blank (n + 1) :=
    ⟨hcell ▸ hb₂.record, hcell ▸ hb₂.waiter, hcell ▸ hb₂.order⟩
  have hframe₂ := frame_register leg2 leg2.price t (hseq.symm ▸ hk) (hseq.symm ▸ hn) hb₂'.waiter
  refine ⟨hok₁.register leg2 leg2.price t (hseq.symm ▸ hk) (hseq.symm ▸ hn) hb₂'.waiter, ?_,
    hb₂'.register leg2 leg2.price t, (hframe₁.mono ?_).trans (hframe₂.mono ?_)⟩
  · exact (hb₁.register leg1 leg1.price t).of_cell_eq
      (hframe₂.cell n (hseq.symm ▸ hn₁) (by simp))
  · simp
  · simp

theorem Ok.openTwo (hr₁ : d.Registered n leg1) (hr₂ : d.Registered (n + 1) leg2) :
    (d.openTwo n).Ok ∧ (d.openTwo n).Pending n leg1 ∧ (d.openTwo n).Pending (n + 1) leg2 ∧
      Frame d (d.openTwo n) [n, n + 1] ∧ (d.waiter n).2 = n ∧
      ((d.waiter n).1.waiter (n + 1)).2 = n + 1 := by
  have hn₁ : n < d.engine.seq := by omega
  have hseq : (d.waiter n).1.engine.seq = d.engine.seq :=
    ExecutionEngine.getOrCreateWaiter_seq ..
  obtain ⟨hc₁, hp₁⟩ := hr₁.openWaiter
  have hok₁ := hd.openWaiter hk hn₁ hr₁.waiter
  have hframe₁ := frame_waiter hk hn₁ hr₁.waiter
  have hr₂' := hr₂.of_cell_eq (hframe₁.cell (n + 1) hn (by simp))
  obtain ⟨hc₂, hp₂⟩ := hr₂'.openWaiter
  have hframe₂ := frame_waiter (hseq.symm ▸ hk) (hseq.symm ▸ hn) hr₂'.waiter
  refine ⟨hok₁.openWaiter (hseq.symm ▸ hk) (hseq.symm ▸ hn) hr₂'.waiter, ?_, hp₂,
    (hframe₁.mono ?_).trans (hframe₂.mono ?_), hc₁, hc₂⟩
  · exact hp₁.of_cell_eq (hframe₂.cell n (hseq.symm ▸ hn₁) (by simp))
  · simp
  · simp

end

/-! ## on_signal -/

section
variable (d leg1 leg2) (t : Clock)

/-- The pair is in flight and the two client ids are taken. -/
def claimPair : Desk K :=
  ({ d with engine := d.engine.claimInflight leg1 leg2 } : Desk K).nextClientId.1.nextClientId.1

omit [Field K] in
/-- To send an order leaves the engine as it is. -/
@[simp] theorem sendLeg_engine (p : PairTask K) (x : LegIx) : (d.sendLeg p x).engine = d.engine :=
  rfl

omit [Field K] in
theorem claimPair_seq : (d.claimPair leg1 leg2).engine.seq = d.engine.seq + 2 := rfl

def openPair : Desk K :=
  ((d.claimPair leg1 leg2).registerTwo leg1 leg2 d.engine.seq t).openTwo d.engine.seq

/-- The task that `on_signal` goes on as. -/
def signalTask : PairTask K where
  id1 := d.engine.seq
  id2 := d.engine.seq + 1
  leg1 := leg1
  leg2 := leg2
  chan1 := (((d.claimPair leg1 leg2).registerTwo leg1 leg2 d.engine.seq t).waiter
    d.engine.seq).2
  chan2 := ((((d.claimPair leg1 leg2).registerTwo leg1 leg2 d.engine.seq t).waiter
    d.engine.seq).1.waiter (d.engine.seq + 1)).2
  pc := .sendingLeg1

theorem onSignal_of_admits (h : d.engine.admits leg1 leg2 = true) :
    d.onSignal leg1 leg2 t =
      ((d.openPair leg1 leg2 t).sendLeg (d.signalTask leg1 leg2 t) .leg1,
        some (d.signalTask leg1 leg2 t)) := by
  -- the ids are read off first: past them the two sides are the same calls
  have hid₁ : ({ d with engine := d.engine.claimInflight leg1 leg2 } : Desk K).nextClientId.2 =
      d.engine.seq := rfl
  have hid₂ : ({ d with engine := d.engine.claimInflight leg1 leg2 } :
      Desk K).nextClientId.1.nextClientId.2 = d.engine.seq + 1 := rfl
  unfold onSignal
  rw [if_pos h]
  dsimp only
  rw [hid₁, hid₂]
  rfl

theorem onSignal_of_not_admits (h : ¬d.engine.admits leg1 leg2 = true) :
    d.onSignal leg1 leg2 t = (d, none) := if_neg h

theorem openPair_seq : (d.openPair leg1 leg2 t).engine.seq = d.engine.seq + 2 := by
  unfold openPair
  rw [openTwo_seq, registerTwo_seq, claimPair_seq]

theorem openPair_accounts : (d.openPair leg1 leg2 t).engine.accounts = d.engine.accounts := by
  unfold openPair
  rw [openTwo_accounts, registerTwo_accounts]
  rfl

theorem openPair_exchange : (d.openPair leg1 leg2 t).exchange = d.exchange := by
  unfold openPair openTwo registerTwo waiter register
  rfl

end

section
variable (hd : d.Ok) (hk : KeysDistinct (d.engine.seq + 2)) (leg1 leg2 : ArbLeg K)

include hd hk

theorem Ok.claimPair :
    (d.claimPair leg1 leg2).Ok ∧ (d.claimPair leg1 leg2).Blank d.engine.seq ∧
      (d.claimPair leg1 leg2).Blank (d.engine.seq + 1) := by
  have hblank : ∀ n, d.engine.seq ≤ n → n < d.engine.seq + 2 → d.Blank n :=
    fun n hge hlt => hd.blank hge (hk.mono hlt)
  have h₀ := hblank _ le_rfl (by omega)
  have h₁ := hblank (d.engine.seq + 1) (by omega) (by omega)
  refine ⟨hd.count rfl rfl (Nat.le_add_right _ 2) hblank, ?_, ?_⟩
  · exact ⟨h₀.record, h₀.waiter, h₀.order⟩
  · exact ⟨h₁.record, h₁.waiter, h₁.order⟩

theorem Ok.openPair (t : Clock) :
    (d.openPair leg1 leg2 t).Ok ∧ (d.openPair leg1 leg2 t).Pending d.engine.seq leg1 ∧
      (d.openPair leg1 leg2 t).Pending (d.engine.seq + 1) leg2 ∧
      Frame d (d.openPair leg1 leg2 t) [] ∧
      (d.signalTask leg1 leg2 t).chan1 = d.engine.seq ∧
      (d.signalTask leg1 leg2 t).chan2 = d.engine.seq + 1 := by
  obtain ⟨hok₀, hb₁, hb₂⟩ := hd.claimPair hk leg1 leg2
  have hseq := claimPair_seq d leg1 leg2
  have hk₀ : KeysDistinct (d.claimPair leg1 leg2).engine.seq := hseq.symm ▸ hk
  obtain ⟨hok₁, hr₁, hr₂, hframe₁⟩ :=
    hok₀.registerTwo hk₀ (by omega) leg1 leg2 hb₁ hb₂ t
  have hseq₁ := registerTwo_seq (d.claimPair leg1 leg2) leg1 leg2 d.engine.seq t
  obtain ⟨hok₂, hp₁, hp₂, hframe₂, hc₁, hc₂⟩ :=
    hok₁.openTwo (hseq₁.symm ▸ hk₀) (by omega) leg1 leg2 hr₁ hr₂
  have hframe := hframe₁.trans hframe₂
  unfold Desk.openPair Desk.signalTask
  dsimp only
  refine ⟨hok₂, hp₁, hp₂, ⟨?_, hframe.orderId, fun m hm _ => ?_⟩, hc₁, hc₂⟩
  · exact (Nat.le_add_right _ 2).trans hframe.seq
  · have hm' : m ∉ [d.engine.seq, d.engine.seq + 1] := by
      simp only [List.mem_cons, List.not_mem_nil, or_false]
      omega
    exact hframe.cell m (by omega) hm'

end

variable [LinearOrder K]

/-- What an admitted signal makes of the desk: the pair is new, and no order
before it is touched. -/
structure Signaled (d d' : Desk K) (p : PairTask K) : Prop where
  frame : Frame d d' []
  desk : d'.Ok
  wired : p.Wired d'.engine.seq
  seq : d'.engine.seq = d.engine.seq + 2
  orders : p.orders = [d.engine.seq, d.engine.seq + 1]
  pc : p.pc = .sendingLeg1
  pair : 0 < p.leg1.qty ∧ 0 < p.leg2.qty → p.Ok d'
  books : d.Booked → d'.Booked

/-- The first leg is sent from a desk where both waiters are open. -/
theorem Signaled.send {e : Desk K} {p : PairTask K} (hd : d.Ok)
    (hk : KeysDistinct (d.engine.seq + 2)) (he : e.Ok) (hframe : Frame d e [])
    (hseq : e.engine.seq = d.engine.seq + 2) (hacc : e.engine.accounts = d.engine.accounts)
    (hx : e.exchange = d.exchange)
    (hp₁ : e.Pending p.id1 p.leg1) (hp₂ : e.Pending p.id2 p.leg2)
    (hid₁ : p.id1 = d.engine.seq) (hid₂ : p.id2 = d.engine.seq + 1) (hc₁ : p.chan1 = p.id1)
    (hc₂ : p.chan2 = p.id2) (hpc : p.pc = .sendingLeg1) : Signaled d (e.sendLeg p .leg1) p := by
  have hframe' : Frame e (e.sendLeg p .leg1) [p.id1] := frame_sendOrder ..
  have horders : p.orders = [d.engine.seq, d.engine.seq + 1] := by
    unfold PairTask.orders PairTask.hedge
    rw [hid₁, hid₂, hpc]
    rfl
  have hne : p.id2 ∉ [p.id1] := by
    rw [hid₁, hid₂]
    simp
  have hlt : p.id .leg1 < e.engine.seq := by
    show p.id1 < _
    omega
  have hpending := hp₂.of_cell_eq (hframe'.cell _ (by omega) hne)
  have hold : ∀ m < d.engine.seq, (e.sendLeg p .leg1).cell m = d.cell m := by
    intro m hm
    have hm' : m ∉ [p.id1] := by
      rw [List.mem_singleton]
      omega
    exact (hframe'.cell m (by omega) hm').trans (hframe.cell m hm List.not_mem_nil)
  refine ⟨⟨hframe.seq, hframe.orderId, fun m hm _ => hold m hm⟩,
    he.sendOrder hlt .., ⟨hc₁, hc₂, ?_, ?_, ?_⟩, hseq, horders, hpc, ?_, fun hb => ?_⟩
  · rw [hpc]
    trivial
  · rw [horders]
    simp
  · intro n hn
    rw [horders] at hn
    simp only [List.mem_cons, List.not_mem_nil, or_false] at hn
    show n < e.engine.seq
    omega
  · intro hq
    unfold PairTask.Ok
    rw [hpc]
    exact ⟨hp₁.send hq.1, hpending, hq.2⟩
  · refine hb.grow hframe.seq hframe.orderId hacc
      (fun n hn => congrArg _ (congrArg _ (hold n hn))) (fun n hge hlt => ?_) fun n => ?_
    · obtain ⟨price₁, s₁, hr₁⟩ := hp₁.record
      obtain ⟨price₂, s₂, hr₂⟩ := hp₂.record
      replace hlt : n < e.engine.seq := hlt
      show (e.cell n).record.isSome = true
      have hcases : n = p.id1 ∨ n = p.id2 := by omega
      rcases hcases with rfl | rfl
      · rw [hr₁]
        rfl
      · rw [hr₂]
        rfl
    · by_cases hn : n = p.id1
      · have hblank := hd.blank le_rfl (hk.mono (Nat.le_succ _))
        rw [hn]
        refine Or.inr ⟨?_, ?_, _, Function.update_self .., rfl⟩
        · rw [hid₁]
          exact hb.unused _ le_rfl
        · rw [hid₁]
          exact hblank.order
      · rw [← hx]
        exact Or.inl (Function.update_of_ne hn ..)

theorem onSignal_signaled (hd : d.Ok) (hk : KeysDistinct (d.engine.seq + 2)) (t : Clock) :
    Signaled d ((d.openPair leg1 leg2 t).sendLeg (d.signalTask leg1 leg2 t) .leg1)
      (d.signalTask leg1 leg2 t) := by
  obtain ⟨hok, hp₁, hp₂, hframe, hc₁, hc₂⟩ := hd.openPair hk leg1 leg2 t
  exact .send hd hk hok hframe (openPair_seq d leg1 leg2 t) (openPair_accounts d leg1 leg2 t)
    (openPair_exchange d leg1 leg2 t) hp₁ hp₂ rfl rfl hc₁ hc₂ rfl

end Desk

theorem World.step_signal [LinearOrder K] {w w' : World K} {leg1 leg2 : ArbLeg K} {t : Clock}
    (hs : w.step (.signal leg1 leg2 t) = some w') :
    ¬w.desk.engine.admits leg1 leg2 = true ∧ w' = w ∨
      w.desk.engine.admits leg1 leg2 = true ∧
        w' = { desk := (w.desk.openPair leg1 leg2 t).sendLeg (w.desk.signalTask leg1 leg2 t) .leg1
               pairs := w.pairs ++ [w.desk.signalTask leg1 leg2 t] } := by
  unfold World.step at hs
  dsimp only at hs
  by_cases hadm : w.desk.engine.admits leg1 leg2 = true
  · rw [Desk.onSignal_of_admits w.desk leg1 leg2 t hadm] at hs
    exact Or.inr ⟨hadm, (Option.some.inj hs).symm⟩
  · rw [Desk.onSignal_of_not_admits w.desk leg1 leg2 t hadm] at hs
    refine Or.inl ⟨hadm, ?_⟩
    rw [← Option.some.inj hs]
    simp

end HoloMarket
