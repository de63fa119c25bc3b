import HoloMarket.Net.PairInv

/-!
# PairMoves: what a resumption touches

Whatever has happened to its orders, a pair that goes on touches its own orders
only, and the one order it may add has a number that no pair has.
-/

namespace HoloMarket

variable {K : Type*} [Field K]

namespace Desk

variable {d d' d₁ : Desk K} {S : List Nat} {p p' : PairTask K} {first : LegIx}

/-! ## Changes without a new order -/

structure Quiet (d d' : Desk K) (S : List Nat) : Prop where
  frame : Frame d d' S
  desk : d'.Ok
  seq : d'.engine.seq = d.engine.seq

theorem Quiet.refl (hd : d.Ok) (S : List Nat) : Quiet d d S := ⟨.refl d S, hd, rfl⟩

theorem Quiet.trans (h : Quiet d d₁ S) (h' : Quiet d₁ d' S) : Quiet d d' S :=
  ⟨h.frame.trans h'.frame, h'.desk, h'.seq.trans h.seq⟩

theorem Quiet.of_takeMsg (hd : d.Ok) {c : Nat} {r : OrderRecord K}
    (h : d.takeMsg c = some (r, d')) (hS : c ∈ S) : Quiet d d' S :=
  ⟨frame_takeMsg h hS, hd.takeMsg h, (takeMsg_seq h).1⟩

theorem Quiet.of_loseMsg (hd : d.Ok) {c : Nat} {lost : Bool}
    (h : d.loseMsg c lost = some d') (hS : c ∈ S) : Quiet d d' S :=
  ⟨frame_loseMsg h hS, hd.loseMsg h, loseMsg_seq h⟩

theorem quiet_clearInflight (hd : d.Ok) (p : PairTask K) (S : List Nat) :
    Quiet d (d.clearInflight p) S :=
  ⟨frame_clearInflight d p S, hd.clearInflight p, (clearInflight_seq_oms d p).1⟩

theorem quiet_cancelOrder (hd : d.Ok) (symbol cid : String) (S : List Nat) :
    Quiet d (d.cancelOrder symbol cid) S :=
  ⟨frame_cancelOrder d symbol cid S, hd.of_eq rfl rfl rfl rfl, rfl⟩

theorem quiet_sendOrder (hd : d.Ok) {n : Nat} (hn : n < d.engine.seq) (symbol : String)
    (side : Side) (qty : K) (hS : n ∈ S) : Quiet d (d.sendOrder n symbol side qty) S := by
  refine ⟨(frame_sendOrder d n symbol side qty).mono ?_, hd.sendOrder hn symbol side qty, rfl⟩
  intro m hm
  rwa [List.mem_singleton.mp hm]

theorem quiet_releaseTerminal (hd : d.Ok) (hk : KeysDistinct d.engine.seq) {n : Nat}
    (hn : n < d.engine.seq) (hS : n ∈ S) : Quiet d (d.releaseTerminal n) S :=
  ⟨frame_releaseTerminal hk hn hS, hd.releaseTerminal n, rfl⟩

variable [LinearOrder K]

theorem quiet_applyFillPnl (hd : d.Ok) (r : OrderRecord K) (leg : ArbLeg K) (S : List Nat) :
    Quiet d (d.applyFillPnl r leg) S :=
  ⟨frame_applyFillPnl d r leg S, hd.of_eq rfl rfl rfl rfl, rfl⟩

theorem quiet_applyPartial (hd : d.Ok) (r : OrderRecord K) (leg : ArbLeg K) (S : List Nat) :
    Quiet d (d.applyPartial r leg) S := by
  unfold applyPartial
  split_ifs
  · exact quiet_applyFillPnl hd r leg S
  · exact .refl hd S

end Desk

/-! ## A pair that goes on -/

/-- The orders of `p'` are those of `p` and perhaps a new one, and no others are
touched on the way from `d` to `d'`. -/
structure Moved (d d' : Desk K) (p p' : PairTask K) : Prop where
  frame : Desk.Frame d d' p.orders
  desk : d'.Ok
  orders : d'.engine.seq = d.engine.seq ∧ p'.hedge = p.hedge ∨
    p.hedge = none ∧ p'.hedge = some d.engine.seq ∧ d'.engine.seq = d.engine.seq + 1
  wired : p'.pc.HedgeWired

namespace Desk

variable {d d' d₁ : Desk K} {S : List Nat} {p p' : PairTask K} {first : LegIx}

theorem Quiet.moved (h : Quiet d d' p.orders) (hh : p'.hedge = p.hedge)
    (hw : p'.pc.HedgeWired) : Moved d d' p p' := ⟨h.frame, h.desk, Or.inl ⟨h.seq, hh⟩, hw⟩

theorem Quiet.then (h : Quiet d d₁ p.orders) (h' : Moved d₁ d' p p') : Moved d d' p p' :=
  ⟨h.frame.trans h'.frame, h'.desk, h.seq ▸ h'.orders, h'.wired⟩

theorem Quiet.ended (h : Quiet d d₁ p.orders) (hnone : p.hedge = none) :
    Moved d (d₁.clearInflight p) p { p with pc := .finished first none } :=
  (h.trans (quiet_clearInflight h.desk p p.orders)).moved hnone.symm trivial

/-- `settled` moves the pair, from whatever desk. -/
def Moves (p : PairTask K) (settled : Desk K → OrderRecord K → Desk K × PairPc) : Prop :=
  ∀ (d : Desk K) (r : OrderRecord K), d.Ok → KeysDistinct d.engine.seq →
    p.Wired d.engine.seq → KeysDistinct (settled d r).1.engine.seq →
    Moved d (settled d r).1 p { p with pc := (settled d r).2 }

section
variable {settled : Desk K → OrderRecord K → Desk K × PairPc} {r : OrderRecord K} {c n : Nat}
  {pc pc' : PairPc} (hk₀ : KeysDistinct d.engine.seq) (hwired : p.Wired d.engine.seq)

include hk₀ hwired

theorem Moves.of_quiet {q : Desk K × PairPc} (hs : Moves p settled)
    (h : Quiet d d₁ p.orders) (hq : settled d₁ r = q) (hk : KeysDistinct q.1.engine.seq) :
    Moved d q.1 p { p with pc := q.2 } := by
  subst hq
  exact h.then (hs d₁ r h.desk (h.seq.symm ▸ hk₀) (h.seq.symm ▸ hwired) hk)

variable (hd : d.Ok)

include hd

theorem receiveOn_moved (hc : c ∈ p.orders) (hs : Moves p settled)
    (h : d.receiveOn p c settled = some (d', pc')) (hk : KeysDistinct d'.engine.seq) :
    Moved d d' p { p with pc := pc' } := by
  obtain ⟨⟨m, d₁⟩, htake, h⟩ := Option.map_eq_some_iff.mp h
  have hquiet := Quiet.of_takeMsg hd htake hc
  dsimp only at h
  split_ifs at h
  · exact hs.of_quiet hk₀ hwired hquiet h hk
  · cases h
    exact hquiet.moved rfl hwired.hedge

theorem awaitAuthoritative_moved (hs : Moves p settled)
    (h : d.awaitAuthoritative n settled pc = (d', pc')) (hhedge : pc.hedge = p.hedge)
    (hw : pc.HedgeWired) (hk : KeysDistinct d'.engine.seq) :
    Moved d d' p { p with pc := pc' } := by
  unfold awaitAuthoritative at h
  split at h
  · exact hs.of_quiet hk₀ hwired (.refl hd p.orders) h hk
  · cases h
    exact (Quiet.refl hd p.orders).moved hhedge hw

variable [LinearOrder K]

theorem firstSettled_moved (hnone : p.hedge = none) :
    Moved d (d.firstSettled p first r).1 p { p with pc := (d.firstSettled p first r).2 } := by
  have hn := hwired.id_lt first
  have hmem := p.id_mem_orders first
  unfold firstSettled
  split_ifs
  · have hrel := quiet_releaseTerminal hd hk₀ hn hmem
    exact (hrel.trans (quiet_cancelOrder hrel.desk ..)).moved hnone.symm trivial
  · have hfill := quiet_applyFillPnl hd r (p.leg first) p.orders
    exact (hfill.trans (quiet_releaseTerminal hfill.desk hk₀ hn hmem)).moved
      hnone.symm trivial

theorem receiveFirst_moved (hnone : p.hedge = none) {w : LegIx} {lost : Bool}
    (h : d.receiveFirst p w lost = some (d', pc')) : Moved d d' p { p with pc := pc' } := by
  obtain ⟨⟨m, d₁⟩, htake, h⟩ := Option.bind_eq_some_iff.mp h
  rw [hwired.chan] at htake
  have hquiet := Quiet.of_takeMsg hd htake (p.id_mem_orders w)
  dsimp only at h
  split_ifs at h
  · obtain ⟨d₂, hlose, h⟩ := Option.map_eq_some_iff.mp h
    rw [hwired.chan] at hlose
    have hquiet₂ := hquiet.trans (.of_loseMsg hquiet.desk hlose (p.id_mem_orders w.other))
    have hmoved : Moved d₂ (d₂.firstSettled p w m).1 p
        { p with pc := (d₂.firstSettled p w m).2 } :=
      firstSettled_moved (hquiet₂.seq.symm ▸ hk₀) (hquiet₂.seq.symm ▸ hwired) hquiet₂.desk hnone
    rw [h] at hmoved
    exact hquiet₂.then hmoved
  · cases h
    exact hquiet.moved rfl hwired.hedge

theorem hedgeSettled_moved {h : Nat} (hhedge : p.hedge = some h) :
    Moved d (d.hedgeSettled p first h r).1 p
      { p with pc := (d.hedgeSettled p first h r).2 } := by
  have hmem := PairTask.hedge_mem_orders hhedge
  have hpart := quiet_applyPartial hd r (p.leg first.other) p.orders
  exact (hpart.trans (quiet_releaseTerminal hpart.desk (hpart.seq.symm ▸ hk₀)
    (hpart.seq.symm ▸ hwired.lt h hmem) hmem)).moved hhedge.symm trivial

end

/-! ## The hedge -/

section
variable [LinearOrder K] {remaining : K} (t : Clock)

theorem hedgeRemaining_done (h : remaining ≤ ExecutionEngine.qtyEps) :
    d.hedgeRemaining p first remaining t = (d.clearInflight p, .finished first none) := by
  unfold hedgeRemaining
  dsimp only
  rw [if_pos h]

theorem hedgeRemaining_open (h : ¬remaining ≤ ExecutionEngine.qtyEps) :
    d.hedgeRemaining p first remaining t =
      (d.openOrder { p.leg first.other with qty := remaining } 0 t,
        .sendingHedge first d.engine.seq ((d.nextClientId.1.register d.engine.seq
          (p.leg first.other).symbol (p.leg first.other).side 0 remaining t).waiter
            d.engine.seq).2) := by
  unfold hedgeRemaining
  dsimp only
  rw [if_neg h]
  rfl

theorem hedgeRemaining_seq_le (d : Desk K) (p : PairTask K) (first : LegIx) (remaining : K) :
    d.engine.seq ≤ (d.hedgeRemaining p first remaining t).1.engine.seq := by
  by_cases hle : remaining ≤ ExecutionEngine.qtyEps
  · rw [hedgeRemaining_done t hle]
    exact (clearInflight_seq_oms d p).1.ge
  · rw [hedgeRemaining_open t hle, openOrder_seq]
    exact Nat.le_succ _

variable [IsStrictOrderedRing K]

theorem Quiet.hedged (h : Quiet d d₁ p.orders) (hnone : p.hedge = none)
    (hk : KeysDistinct (d₁.hedgeRemaining p first remaining t).1.engine.seq) :
    Moved d (d₁.hedgeRemaining p first remaining t).1 p
      { p with pc := (d₁.hedgeRemaining p first remaining t).2 } := by
  by_cases hle : remaining ≤ ExecutionEngine.qtyEps
  · rw [hedgeRemaining_done t hle]
    exact h.ended hnone
  · have hpos : 0 < ({ p.leg first.other with qty := remaining } : ArbLeg K).qty :=
      ExecutionEngine.qtyEps_pos.trans (not_le.mp hle)
    rw [hedgeRemaining_open t hle] at hk ⊢
    rw [openOrder_seq] at hk
    obtain ⟨hok, -, hframe, hchan⟩ :=
      h.desk.openOrder { p.leg first.other with qty := remaining } 0 t hk hpos
    exact h.then ⟨hframe.mono fun _ hn => absurd hn List.not_mem_nil, hok,
      Or.inr ⟨hnone, rfl, openOrder_seq ..⟩, hchan⟩

variable (p) (first)

theorem partnerSettled_moves (hnone : p.hedge = none) :
    Moves p fun d r => d.partnerSettled p first r t := by
  intro d r hd hk₀ hwired hk
  have hrel := quiet_releaseTerminal hd hk₀ (hwired.id_lt first.other)
    (p.id_mem_orders first.other)
  unfold partnerSettled at hk ⊢
  dsimp only at hk ⊢
  split_ifs at hk ⊢
  · exact (hrel.trans (quiet_applyFillPnl hrel.desk ..)).hedged t hnone hk
  · exact hrel.ended hnone

theorem restingRaced_moves (hnone : p.hedge = none) :
    Moves p fun d r => d.restingRaced p first r t := by
  intro d r hd hk₀ hwired hk
  have hn := hwired.id_lt first.other
  have hmem := p.id_mem_orders first.other
  unfold restingRaced at hk ⊢
  dsimp only at hk ⊢
  split_ifs at hk ⊢
  · have hfill := quiet_applyFillPnl hd r (p.leg first.other) p.orders
    exact (hfill.trans (quiet_releaseTerminal hfill.desk hk₀ hn hmem)).ended hnone
  · have hpart := quiet_applyPartial hd r (p.leg first.other) p.orders
    exact (hpart.trans (quiet_releaseTerminal hpart.desk (hpart.seq.symm ▸ hk₀)
      (hpart.seq.symm ▸ hn) hmem)).hedged t hnone hk

theorem restingSettled_moves (hnone : p.hedge = none) :
    Moves p fun d r => d.restingSettled p first r t := by
  intro d r hd hk₀ hwired hk
  have hrel := quiet_releaseTerminal hd hk₀ (hwired.id_lt first.other)
    (p.id_mem_orders first.other)
  unfold restingSettled at hk ⊢
  dsimp only at hk ⊢
  split_ifs at hk ⊢
  · exact (hrel.trans (quiet_applyFillPnl hrel.desk ..)).ended hnone
  · exact (hrel.trans (quiet_applyPartial hrel.desk ..)).hedged t hnone hk

end

/-! ## Every resumption -/

section
variable [LinearOrder K] [IsStrictOrderedRing K] {t : Clock} {pc' : PairPc}

theorem resume_moved (hk₀ : KeysDistinct d.engine.seq) (hwired : p.Wired d.engine.seq)
    (hd : d.Ok) {x : Resumption} (h : d.resume p x t = some (d', pc'))
    (hk : KeysDistinct d'.engine.seq) : Moved d d' p { p with pc := pc' } := by
  have hmem := p.id_mem_orders
  have hthrew : Moved d (d.clearInflight p) p { p with pc := .threw p.pc } :=
    (quiet_clearInflight hd p p.orders).moved rfl hwired.hedge
  unfold resume at h
  split at h
  case h_1 hpc =>
    cases h
    have hnone : p.hedge = none := congrArg PairPc.hedge hpc
    exact (quiet_sendOrder hd (hwired.id_lt .leg2) _ _ _ (hmem .leg2)).moved
      hnone.symm trivial
  case h_2 hpc =>
    cases h
    have hnone : p.hedge = none := congrArg PairPc.hedge hpc
    exact (Quiet.refl hd p.orders).moved hnone.symm trivial
  case h_3 w lost hpc => exact receiveFirst_moved hk₀ hwired hd (congrArg PairPc.hedge hpc) h
  case h_4 first hpc =>
    have hnone : p.hedge = none := congrArg PairPc.hedge hpc
    exact awaitAuthoritative_moved hk₀ hwired hd (partnerSettled_moves p first t hnone)
      (Option.some.inj h) hnone.symm trivial hk
  case h_5 first w hpc =>
    split_ifs at h
    rw [hwired.chan] at h
    exact receiveOn_moved hk₀ hwired hd (hmem w)
      (partnerSettled_moves p first t (congrArg PairPc.hedge hpc)) h hk
  case h_6 first lost hpc =>
    obtain ⟨d₁, hlose, h⟩ := Option.map_eq_some_iff.mp h
    rw [hwired.chan] at hlose
    exact (partnerSettled_moves p first t (congrArg PairPc.hedge hpc)).of_quiet hk₀ hwired
      (.of_loseMsg hd hlose (hmem first.other)) h hk
  case h_7 first w hpc =>
    split_ifs at h
    rw [hwired.chan] at h
    exact receiveOn_moved hk₀ hwired hd (hmem w)
      (restingRaced_moves p first t (congrArg PairPc.hedge hpc)) h hk
  case h_8 first lost hpc =>
    obtain ⟨d₁, hlose, h⟩ := Option.map_eq_some_iff.mp h
    cases h
    rw [hwired.chan] at hlose
    have hquiet := Quiet.of_loseMsg hd hlose (hmem first.other)
    have hnone : p.hedge = none := congrArg PairPc.hedge hpc
    exact (hquiet.trans (quiet_cancelOrder hquiet.desk ..)).moved hnone.symm trivial
  case h_9 first hpc =>
    have hnone : p.hedge = none := congrArg PairPc.hedge hpc
    exact awaitAuthoritative_moved hk₀ hwired hd (restingSettled_moves p first t hnone)
      (Option.some.inj h) hnone.symm trivial hk
  case h_10 first w hpc =>
    split_ifs at h
    rw [hwired.chan] at h
    exact receiveOn_moved hk₀ hwired hd (hmem w)
      (restingSettled_moves p first t (congrArg PairPc.hedge hpc)) h hk
  case h_11 first lost hpc =>
    obtain ⟨d₁, hlose, h⟩ := Option.map_eq_some_iff.mp h
    rw [hwired.chan] at hlose
    exact (restingSettled_moves p first t (congrArg PairPc.hedge hpc)).of_quiet hk₀ hwired
      (.of_loseMsg hd hlose (hmem first.other)) h hk
  case h_12 first n c hpc =>
    cases h
    have hhedge : p.hedge = some n := congrArg PairPc.hedge hpc
    have hw : c = n := by
      have hw := hwired.hedge
      rw [hpc] at hw
      exact hw
    exact (quiet_clearInflight hd p p.orders).moved hhedge.symm hw
  case h_13 first n c hpc =>
    have hhedge : p.hedge = some n := congrArg PairPc.hedge hpc
    have hw : c = n := by
      have hw := hwired.hedge
      rw [hpc] at hw
      exact hw
    have hmoves : Moves p fun e r => e.hedgeSettled p first n r :=
      fun e r he hke hwe _ => hedgeSettled_moved hke hwe he hhedge
    exact receiveOn_moved hk₀ hwired hd (hw ▸ PairTask.hedge_mem_orders hhedge) hmoves h hk
  case h_19 => cases h
  all_goals
    cases h
    exact hthrew

end
end Desk

/-! ## Its orders afterwards -/

section
variable {d d' : Desk K} {p : PairTask K} {pc : PairPc}

theorem Moved.orders_eq (h : Moved d d' p { p with pc := pc }) :
    ({ p with pc := pc } : PairTask K).orders = p.orders ∨
      ({ p with pc := pc } : PairTask K).orders = [p.id1, p.id2, d.engine.seq] ∧
        p.orders = [p.id1, p.id2] ∧ d'.engine.seq = d.engine.seq + 1 := by
  unfold PairTask.orders
  rcases h.orders with ⟨-, hedge⟩ | ⟨hnone, hedge, hseq⟩
  · rw [hedge]
    exact Or.inl rfl
  · rw [hedge, hnone]
    exact Or.inr ⟨rfl, rfl, hseq⟩

theorem Moved.mem_orders (h : Moved d d' p { p with pc := pc }) {n : Nat}
    (hn : n ∈ ({ p with pc := pc } : PairTask K).orders) :
    n ∈ p.orders ∨ n = d.engine.seq := by
  rcases h.orders_eq with he | ⟨he, hold, -⟩
  · exact Or.inl (he ▸ hn)
  · rw [hold]
    rw [he] at hn
    simp only [List.mem_cons, List.not_mem_nil, or_false] at hn ⊢
    omega

theorem Moved.wired_after (h : Moved d d' p { p with pc := pc })
    (hw : p.Wired d.engine.seq) : ({ p with pc := pc } : PairTask K).Wired d'.engine.seq := by
  have hseq := h.frame.seq
  refine ⟨hw.chan1, hw.chan2, h.wired, ?_, fun n hn => ?_⟩
  · rcases h.orders_eq with he | ⟨he, -, -⟩
    · rw [he]
      exact hw.nodup
    · have hne : p.id1 ≠ p.id2 := hw.id_ne .leg1
      have hlt1 : p.id1 < d.engine.seq := hw.id_lt .leg1
      have hlt2 : p.id2 < d.engine.seq := hw.id_lt .leg2
      rw [he]
      simp only [List.nodup_cons, List.mem_cons, List.not_mem_nil, or_false, not_or,
        not_false_eq_true, List.nodup_nil, and_true]
      omega
  · rcases h.orders_eq with he | ⟨-, -, hnew⟩
    · rw [he] at hn
      exact lt_of_lt_of_le (hw.lt n hn) hseq
    · rcases h.mem_orders hn with hmem | rfl
      · exact lt_of_lt_of_le (hw.lt n hmem) hseq
      · omega

end
end HoloMarket
