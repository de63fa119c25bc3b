import HoloMarket.Net.PairOutcome

/-!
# Conservation: the position book over whole runs

Every order belongs to a pair, and every pair that has finished has released its
orders settled.  Along a run whose fills all reach a charge, the book of a
quiescent engine is the signed sum of what the exchange executed.
-/

namespace HoloMarket

variable {K : Type*} [Field K] [LinearOrder K]

namespace Desk

variable {d d' : Desk K} {n : Nat} {v v' : VenueOrder K}

/-! ## The book while orders live -/

theorem Booked.updated (h : d.Booked) (hd : d.Ok) (hk : KeysDistinct d.engine.seq)
    {u : UpdateArgs K} (hu : d.Updated d' n u v') (hv : d.exchange n = some v)
    (hsym : v'.symbol = v.symbol) (hside : v'.side = v.side) (hex : v'.executed = v.executed)
    (hidle : v'.status.isWorking = false → v.status.isWorking = false)
    (hacked : v.Acked = true → v'.Acked = true) : d'.Booked := by
  have hn := (hd.order n v hv).1
  have hacc : d'.engine.accounts = d.engine.accounts := by
    rw [hu.engine]
    exact ExecutionEngine.applyUpdate_accounts ..
  refine h.quiet hu.seq hu.orderId hacc (fun m hm => ?_) fun m => ?_
  · by_cases hmn : m = n
    · rw [hmn, hu.record, Option.isSome_map]
    · rw [hu.cell_ne hd hk hn hm hmn]
  · rw [hu.exchange]
    by_cases hmn : m = n
    · subst hmn
      refine Or.inr ⟨v, v', hv, Function.update_self .., hsym, hside, fun hi => ?_, fun ha => ?_⟩
      · rw [hex]
        exact h.coarse m v hv (hidle hi)
      · exact ⟨hacked ha, hex⟩
    · exact Or.inl (Function.update_of_ne hmn ..)

theorem Booked.deliver (h : d.Booked) (hd : d.Ok) (hk : KeysDistinct d.engine.seq)
    (hs : d.deliver n = some d') : d'.Booked := by
  obtain ⟨v, o, rest, u, hv, ho, -, hu⟩ := deliver_updated hd hs
  refine h.updated hd hk hu hv rfl rfl rfl id fun ha => ?_
  rw [(VenueOrder.acked_iff.mp ha).2] at ho
  cases ho

theorem Booked.refuse (h : d.Booked) (hd : d.Ok) (hk : KeysDistinct d.engine.seq) {nowNs : Int}
    (hs : d.refuse n nowNs = some d') : d'.Booked := by
  obtain ⟨v, hv, hunk, hu⟩ := refuse_updated hs
  refine h.updated hd hk hu hv rfl rfl rfl (fun _ => ?_) fun ha => ?_
  · rw [hunk]
    rfl
  · have hc := (VenueOrder.acked_iff.mp ha).1
    rw [hunk] at hc
    cases hc

theorem Booked.act (h : d.Booked) {a : VenueAction K} {tMs : Int}
    (hs : d.act n a tMs = some d')
    (hcoarse : ∀ v v', d.exchange n = some v → v.act a tMs = some v' →
      v'.status.isWorking = false → v'.executed = 0 ∨ ExecutionEngine.qtyEps < v'.executed) :
    d'.Booked := by
  obtain ⟨v, v', hv, ha, he, hx, hcell⟩ := act_cell hs
  refine h.quiet (congrArg ExecutionEngine.seq he) hx (congrArg ExecutionEngine.accounts he)
    (fun m _ => ?_) fun m => ?_
  · rw [hcell]
    split_ifs <;> rfl
  · have hm : d'.exchange m = if m = n then some v' else d.exchange m := by
      have hc := congrArg Cell.order (hcell m)
      split_ifs at hc ⊢ <;> exact hc
    rw [hm]
    obtain ⟨hopen, -, hsym, hside, -⟩ := VenueOrder.act_eq_some ha
    by_cases hmn : m = n
    · rw [if_pos hmn, hmn]
      refine Or.inr ⟨v, v', hv, rfl, hsym, hside, hcoarse v v' hv ha, fun hacked => ?_⟩
      rw [(VenueOrder.acked_iff.mp hacked).1] at hopen
      cases hopen
    · rw [if_neg hmn]
      exact Or.inl rfl

end Desk

/-! ## Gateway calls that return -/

def PairPc.isThrew : PairPc → Bool
  | .threw _ => true
  | _ => false

def PairPc.isOver : PairPc → Bool
  | .finished _ _ | .threw _ => true
  | _ => false

namespace Desk

variable {d d' : Desk K} {p : PairTask K} {first : LegIx} {r : OrderRecord K} {t : Clock}

theorem hedgeRemaining_isThrew (d : Desk K) (p : PairTask K) (first : LegIx) (remaining : K)
    (t : Clock) : (d.hedgeRemaining p first remaining t).2.isThrew = false := by
  unfold hedgeRemaining
  split_ifs <;> rfl

theorem partnerSettled_isThrew : (d.partnerSettled p first r t).2.isThrew = false := by
  unfold partnerSettled
  dsimp only
  split_ifs
  · exact hedgeRemaining_isThrew ..
  · rfl

theorem restingRaced_isThrew : (d.restingRaced p first r t).2.isThrew = false := by
  unfold restingRaced
  split_ifs
  · rfl
  · exact hedgeRemaining_isThrew ..

theorem restingSettled_isThrew : (d.restingSettled p first r t).2.isThrew = false := by
  unfold restingSettled
  dsimp only
  split_ifs
  · rfl
  · exact hedgeRemaining_isThrew ..

variable {settled : Desk K → OrderRecord K → Desk K × PairPc} {pc' : PairPc}

omit [Field K] [LinearOrder K] in
theorem receiveOn_isThrew {c : Nat} (hp : p.pc.isThrew = false)
    (hs : ∀ e r, (settled e r).2.isThrew = false)
    (h : d.receiveOn p c settled = some (d', pc')) : pc'.isThrew = false := by
  obtain ⟨⟨m, d₁⟩, -, h⟩ := Option.map_eq_some_iff.mp h
  dsimp only at h
  split_ifs at h
  · have hpc := hs d₁ m
    rw [h] at hpc
    exact hpc
  · cases h
    exact hp

omit [Field K] [LinearOrder K] in
theorem awaitAuthoritative_isThrew {n : Nat} {pc : PairPc} (hp : pc.isThrew = false)
    (hs : ∀ e r, (settled e r).2.isThrew = false)
    (h : d.awaitAuthoritative n settled pc = (d', pc')) : pc'.isThrew = false := by
  unfold awaitAuthoritative at h
  split at h
  · have hpc := hs d ‹_›
    rw [h] at hpc
    exact hpc
  · cases h
    exact hp

theorem receiveFirst_isThrew {w : LegIx} {lost : Bool} (hp : p.pc.isThrew = false)
    (h : d.receiveFirst p w lost = some (d', pc')) : pc'.isThrew = false := by
  obtain ⟨⟨m, d₁⟩, -, h⟩ := Option.bind_eq_some_iff.mp h
  dsimp only at h
  split_ifs at h
  · obtain ⟨d₂, -, h⟩ := Option.map_eq_some_iff.mp h
    unfold firstSettled at h
    split_ifs at h <;> (cases h; rfl)
  · cases h
    exact hp

theorem resume_isThrew {x : Resumption} (hx : x ≠ .threw) (hp : p.pc.isThrew = false)
    (h : d.resume p x t = some (d', pc')) : pc'.isThrew = false := by
  have hpartner : ∀ first (e : Desk K) r, (e.partnerSettled p first r t).2.isThrew = false :=
    fun _ _ _ => partnerSettled_isThrew
  have hraced : ∀ first (e : Desk K) r, (e.restingRaced p first r t).2.isThrew = false :=
    fun _ _ _ => restingRaced_isThrew
  have hresting : ∀ first (e : Desk K) r, (e.restingSettled p first r t).2.isThrew = false :=
    fun _ _ _ => restingSettled_isThrew
  unfold resume at h
  split at h
  case h_1 | h_2 | h_12 =>
    cases h
    rfl
  case h_3 => exact receiveFirst_isThrew hp h
  case h_4 first _ =>
    exact awaitAuthoritative_isThrew rfl (hpartner first) (Option.some.inj h)
  case h_5 first w _ =>
    split_ifs at h
    exact receiveOn_isThrew hp (hpartner first) h
  case h_6 first lost _ =>
    obtain ⟨d₁, -, h⟩ := Option.map_eq_some_iff.mp h
    have hpc := hpartner first d₁ (d₁.lastKnown (p.id first.other))
    rw [h] at hpc
    exact hpc
  case h_7 first w _ =>
    split_ifs at h
    exact receiveOn_isThrew hp (hraced first) h
  case h_8 =>
    obtain ⟨d₁, -, h⟩ := Option.map_eq_some_iff.mp h
    cases h
    rfl
  case h_9 first _ =>
    exact awaitAuthoritative_isThrew rfl (hresting first) (Option.some.inj h)
  case h_10 first w _ =>
    split_ifs at h
    exact receiveOn_isThrew hp (hresting first) h
  case h_11 first lost _ =>
    obtain ⟨d₁, -, h⟩ := Option.map_eq_some_iff.mp h
    have hpc := hresting first d₁ (d₁.lastKnown (p.id first.other))
    rw [h] at hpc
    exact hpc
  case h_13 => exact receiveOn_isThrew hp (fun _ _ => rfl) h
  case h_19 => cases h
  all_goals exact absurd rfl hx

end Desk

/-! ## Runs that book everything -/

namespace World

/-- The message that ends the race of the legs tells of a filled order, or of one
without a fill. -/
def FirstClean (w : World K) : EngineEvent K → Prop
  | .resume i r _ => (w.pairs[i]?).elim True fun p => w.desk.FirstClean p r = true
  | _ => True

def NoThrow : EngineEvent K → Prop
  | .resume _ r _ => r ≠ .threw
  | _ => True

/-- An order that stops working has executed nothing, or more than
`apply_fill_pnl` ignores. -/
def Coarse (w : World K) : EngineEvent K → Prop
  | .act n a tMs => (w.desk.exchange n).elim True fun v => (v.act a tMs).elim True fun v' =>
      v'.status.isWorking = false → v'.executed = 0 ∨ ExecutionEngine.qtyEps < v'.executed
  | _ => True

structure BookOk (w : World K) (e : EngineEvent K) : Prop where
  step : w.StepOk (fun _ => True) e
  clean : w.FirstClean e
  sent : NoThrow e
  coarse : w.Coarse e

instance (w : World K) : ∀ e : EngineEvent K, Decidable (w.FirstClean e)
  | .resume i r _ => inferInstanceAs (Decidable
      ((w.pairs[i]?).elim True fun p => w.desk.FirstClean p r = true))
  | .signal .. | .act .. | .deliver _ | .refuse .. | .sweep .. | .forceHalt | .resetHalt
  | .checkDrawdown .. => inferInstanceAs (Decidable True)

instance : ∀ e : EngineEvent K, Decidable (NoThrow e)
  | .resume _ r _ => inferInstanceAs (Decidable (r ≠ .threw))
  | .signal .. | .act .. | .deliver _ | .refuse .. | .sweep .. | .forceHalt | .resetHalt
  | .checkDrawdown .. => inferInstanceAs (Decidable True)

instance (w : World K) : ∀ e : EngineEvent K, Decidable (w.Coarse e)
  | .act n a tMs => inferInstanceAs (Decidable
      ((w.desk.exchange n).elim True fun v => (v.act a tMs).elim True fun v' =>
        v'.status.isWorking = false → v'.executed = 0 ∨ ExecutionEngine.qtyEps < v'.executed))
  | .signal .. | .resume .. | .deliver _ | .refuse .. | .sweep .. | .forceHalt | .resetHalt
  | .checkDrawdown .. => inferInstanceAs (Decidable True)

instance (w : World K) (e : EngineEvent K) : Decidable (w.BookOk e) :=
  decidable_of_iff (w.StepOk (fun _ => True) e ∧ w.FirstClean e ∧ NoThrow e ∧ w.Coarse e)
    ⟨fun h => ⟨h.1, h.2.1, h.2.2.1, h.2.2.2⟩, fun h => ⟨h.step, h.clean, h.sent, h.coarse⟩⟩

structure Books (w : World K) : Prop where
  ok : Ok (fun _ => True) w
  booked : w.desk.Booked
  /-- Every order belongs to a pair. -/
  covered : ∀ n < w.desk.engine.seq, ∃ (i : Nat) (p : PairTask K),
    w.pairs[i]? = some p ∧ n ∈ p.orders
  sent : ∀ (i : Nat) (p : PairTask K), w.pairs[i]? = some p → p.pc.isThrew = false

theorem init_books (maxOpenOrders : Nat) {orderId : Nat → Int}
    (hinj : Function.Injective orderId) : Books (init maxOpenOrders orderId : World K) where
  ok := init_ok ..
  booked :=
    { inj := hinj
      coarse := fun n v hv => by cases hv
      tracked := fun n hn => absurd hn (Nat.not_lt_zero n)
      settled := fun n hn => absurd hn (Nat.not_lt_zero n)
      unused := fun n _ => rfl
      qty := fun sym => rfl }
  covered n hn := absurd hn (Nat.not_lt_zero n)
  sent i p hp := by cases hp

variable {w w' : World K} {d : Desk K}

theorem Books.of_desk (h : w.Books) (hok : Ok (fun _ => True) { w with desk := d })
    (hseq : d.engine.seq = w.desk.engine.seq) (hb : d.Booked) : Books { w with desk := d } where
  ok := hok
  booked := hb
  covered n hn := h.covered n (hseq ▸ hn)
  sent := h.sent

theorem Books.concat (h : w.Books) {p : PairTask K} (hs : Desk.Signaled w.desk d p)
    (hok : Ok (fun _ => True) { desk := d, pairs := w.pairs ++ [p] }) :
    Books { desk := d, pairs := w.pairs ++ [p] } := by
  refine ⟨hok, hs.books h.booked, fun n hn => ?_, fun i q hq => ?_⟩
  · rcases lt_or_ge n w.desk.engine.seq with hlt | hge
    · obtain ⟨i, q, hq, hmem⟩ := h.covered n hlt
      refine ⟨i, q, ?_, hmem⟩
      rw [List.getElem?_append_left (List.getElem?_eq_some_iff.mp hq).1]
      exact hq
    · refine ⟨w.pairs.length, p, List.getElem?_concat_length, ?_⟩
      have hseq := hs.seq
      replace hn : n < d.engine.seq := hn
      rw [hs.orders]
      simp only [List.mem_cons, List.not_mem_nil, or_false]
      omega
  · rcases getElem?_concat_cases hq with hq | ⟨-, rfl⟩
    · exact h.sent i q hq
    · rw [hs.pc]
      rfl

theorem Books.set (h : w.Books) {i : Nat} {p : PairTask K} {pc : PairPc}
    (hp : w.pairs[i]? = some p) (hm : Moved w.desk d p { p with pc := pc })
    (hok : Ok (fun _ => True) { desk := d, pairs := w.pairs.set i { p with pc := pc } })
    (hb : d.Booked) (hsent : pc.isThrew = false) :
    Books { desk := d, pairs := w.pairs.set i { p with pc := pc } } := by
  have hi := (List.getElem?_eq_some_iff.mp hp).1
  have hself : (w.pairs.set i { p with pc := pc })[i]? = some { p with pc := pc } :=
    List.getElem?_set_self hi
  refine ⟨hok, hb, fun n hn => ?_, fun j q hq => ?_⟩
  · replace hn : n < d.engine.seq := hn
    rcases lt_or_ge n w.desk.engine.seq with hlt | hge
    · obtain ⟨j, q, hq, hmem⟩ := h.covered n hlt
      by_cases hj : i = j
      · subst hj
        rw [hp] at hq
        cases hq
        refine ⟨i, _, hself, ?_⟩
        rcases hm.orders_eq with he | ⟨he, hold, -⟩
        · rw [he]
          exact hmem
        · rw [hold] at hmem
          rw [he]
          simp only [List.mem_cons, List.not_mem_nil, or_false] at hmem ⊢
          omega
      · refine ⟨j, q, ?_, hmem⟩
        rw [List.getElem?_set_ne hj]
        exact hq
    · -- only a hedge makes the counter grow, and the hedge is the pair's own
      refine ⟨i, _, hself, ?_⟩
      rcases hm.orders with ⟨hseq, -⟩ | ⟨-, hhedge, hseq⟩
      · omega
      · have hnew : n = w.desk.engine.seq := by omega
        rw [hnew]
        exact PairTask.hedge_mem_orders hhedge
  · rw [List.getElem?_set] at hq
    split_ifs at hq with hij
    · cases hq
      exact hsent
    · exact h.sent j q hq

variable [IsStrictOrderedRing K]

theorem Books.step (h : w.Books) {e : EngineEvent K} (he : w.BookOk e)
    (hs : w.step e = some w') : w'.Books := by
  have hok := h.ok.step he.step hs
  have hk := he.step.fresh.keys hs
  cases e with
  | signal leg1 leg2 t =>
    rcases step_signal_cases h.ok.toApart hs hk with rfl | ⟨d, p, hsig, -, -, rfl⟩
    · exact h
    · exact h.concat hsig hok
  | resume i r t =>
    obtain ⟨p, d, pc, hp, hresume, hm, rfl⟩ := step_resume_cases h.ok.toApart hs hk
    have hack := he.step.ack trivial
    have hclean := he.clean
    unfold FirstClean at hclean
    dsimp only at hclean
    rw [hp] at hack hclean
    have hres := Desk.resume_resumed h.ok.desk (h.ok.wired i p hp) (h.ok.pairs i p trivial hp)
      hack hresume h.ok.keys hk
    exact h.set hp hm hok (hres.books hclean h.booked)
      (Desk.resume_isThrew he.sent (h.sent i p hp) hresume)
  | act n a tMs =>
    obtain ⟨d, hd, rfl⟩ := Option.map_eq_some_iff.mp hs
    obtain ⟨-, -, -, -, heng, -, -⟩ := Desk.act_cell hd
    refine h.of_desk hok (congrArg ExecutionEngine.seq heng) (h.booked.act hd ?_)
    intro v v' hv ha
    have hcoarse := he.coarse
    unfold Coarse at hcoarse
    dsimp only at hcoarse
    rw [hv, Option.elim_some, ha] at hcoarse
    exact hcoarse
  | deliver n =>
    obtain ⟨d, hd, rfl⟩ := Option.map_eq_some_iff.mp hs
    exact h.of_desk hok (h.ok.desk.deliver h.ok.keys hd).1
      (h.booked.deliver h.ok.desk h.ok.keys hd)
  | refuse n nowNs =>
    obtain ⟨d, hd, rfl⟩ := Option.map_eq_some_iff.mp hs
    exact h.of_desk hok (h.ok.desk.refuse h.ok.keys hd).1
      (h.booked.refuse h.ok.desk h.ok.keys hd)
  | sweep maxAge steadyNs =>
    cases hs
    exact h.of_desk hok rfl (h.booked.of_eq rfl rfl rfl rfl rfl)
  | forceHalt =>
    cases hs
    exact h.of_desk hok rfl (h.booked.of_eq rfl rfl rfl rfl rfl)
  | resetHalt =>
    cases hs
    exact h.of_desk hok rfl (h.booked.of_eq rfl rfl rfl rfl rfl)
  | checkDrawdown x limit =>
    cases hs
    exact h.of_desk hok rfl (h.booked.of_eq rfl rfl rfl rfl rfl)

/-! ## Quiescence -/

/-- No coroutine is pending, and no order is live or has an event on its way. -/
structure Quiescent (w : World K) : Prop where
  ended : ∀ p ∈ w.pairs, p.pc.isOver = true
  settled : ∀ n < w.desk.engine.seq, (w.desk.exchange n).all VenueOrder.Acked = true

instance (w : World K) : Decidable w.Quiescent :=
  decidable_of_iff ((∀ p ∈ w.pairs, p.pc.isOver = true) ∧
    ∀ n < w.desk.engine.seq, (w.desk.exchange n).all VenueOrder.Acked = true)
    ⟨fun h => ⟨h.1, h.2⟩, fun h => ⟨h.ended, h.settled⟩⟩

/-- What the exchange has executed for `sym`, sells negative. -/
def position (d : Desk K) (sym : String) : K :=
  ∑ n ∈ Finset.range d.engine.seq, d.direction sym n * d.executed n

end World

namespace PairTask

/-- The orders of a finished pair have been released settled. -/
theorem Ok.released {d : Desk K} {p : PairTask K} (h : p.Ok d) (hover : p.pc.isOver = true)
    (hsent : p.pc.isThrew = false) {n : Nat} (hn : n ∈ p.orders) : (d.cell n).record = none := by
  obtain ⟨first, hedge, hpc⟩ : ∃ first hedge, p.pc = .finished first hedge := by
    cases hpc : p.pc with
    | finished first hedge => exact ⟨first, hedge, rfl⟩
    | threw point =>
      rw [hpc] at hsent
      cases hsent
    | _ =>
      rw [hpc] at hover
      cases hover
  have hlegs : ∀ v w, d.Settled (p.id first) (p.leg first) v →
      d.Settled (p.id first.other) (p.leg first.other) w →
        ∀ m, m = p.id1 ∨ m = p.id2 → (d.cell m).record = none := by
    intro v w hv hw m hm
    cases first with
    | leg1 => exact hm.elim (fun he => he ▸ hv.record) (fun he => he ▸ hw.record)
    | leg2 => exact hm.elim (fun he => he ▸ hw.record) (fun he => he ▸ hv.record)
  unfold PairTask.Ok at h
  unfold orders PairTask.hedge at hn
  rw [hpc] at h hn
  cases hedge with
  | none =>
    obtain ⟨v, w, hv, hw, -⟩ := h
    refine hlegs v w hv hw n ?_
    simpa [PairPc.hedge] using hn
  | some k =>
    obtain ⟨v, w, x, hv, hw, -, hx⟩ := h
    simp only [PairPc.hedge, Option.toList_some, List.mem_cons, List.not_mem_nil,
      or_false] at hn
    rcases hn with rfl | rfl | rfl
    · exact hlegs v w hv hw _ (Or.inl rfl)
    · exact hlegs v w hv hw _ (Or.inr rfl)
    · exact hx.record

end PairTask

section
variable [IsStrictOrderedRing K]

/-- In a run whose fills all reach a charge, the book of a quiescent engine is
what the exchange executed: nothing is lost and nothing counted twice. -/
theorem snapshot_qty_eq_position {es : List (EngineEvent K)} {w : World K}
    {maxOpenOrders : Nat} {orderId : Nat → Int} (hinj : Function.Injective orderId)
    (hok : Machine.RunOk World.step World.BookOk (World.init maxOpenOrders orderId) es)
    (hrun : Machine.run World.step (World.init maxOpenOrders orderId) es = some w)
    (hq : w.Quiescent) (sym : String) :
    (w.desk.engine.pnl.snapshot sym).qty = World.position w.desk sym := by
  have h : w.Books := Machine.run_inv (fun _ _ _ h he hs => World.Books.step h he hs)
    (World.init_books maxOpenOrders hinj) hok hrun
  rw [h.booked.qty sym]
  refine Finset.sum_congr rfl fun n hn => ?_
  have hlt := Finset.mem_range.mp hn
  obtain ⟨i, p, hp, hmem⟩ := h.covered n hlt
  have hnone := (h.ok.pairs i p trivial hp).released
    (hq.ended p (List.mem_of_getElem? hp)) (h.sent i p hp) hmem
  obtain ⟨v, hv, -, hb⟩ := h.booked.settled n hlt hnone
  rw [hb]
  unfold Desk.executed
  rw [hv]
  rfl

end

/-- A filled leg, and one that is half filled before its cancel and hedged. -/
theorem snapshot_qty_after_hedge :
    let leg1 : ArbLeg Rat := { symbol := "BTCUSDT", side := .Buy, qty := 1, price := 100 }
    let leg2 : ArbLeg Rat := { symbol := "ETHUSDT", side := .Sell, qty := 1, price := 10 }
    let es : List (EngineEvent Rat) :=
      [.signal leg1 leg2 ⟨0, 0⟩, .resume 0 .sent ⟨1, 1⟩, .resume 0 .sent ⟨2, 2⟩,
        .act 0 .accept 1, .act 0 (.fill 1 100 0) 2, .deliver 0, .deliver 0,
        .resume 0 (.receive .leg1 false) ⟨3, 3⟩, .resume 0 (.receive .leg1 false) ⟨3, 3⟩,
        .act 1 .accept 3, .act 1 (.fill (1 / 2) 10 0) 4, .deliver 1, .deliver 1,
        .resume 0 (.timeout false) ⟨5, 5⟩, .act 1 (.finish .Canceled) 5, .deliver 1,
        .resume 0 .sent ⟨6, 6⟩, .resume 0 .sent ⟨7, 7⟩, .act 2 .accept 7,
        .act 2 (.fill (1 / 2) 10 0) 8, .deliver 2, .deliver 2, .resume 0 .receiveHedge ⟨8, 8⟩,
        .resume 0 .receiveHedge ⟨8, 8⟩]
    ∃ w, Machine.run World.step (World.init 8 Int.ofNat) es = some w ∧
      World.position w.desk "ETHUSDT" = -1 ∧
        (w.desk.engine.pnl.snapshot "ETHUSDT").qty = World.position w.desk "ETHUSDT" := by
  intro leg1 leg2 es
  have hend : (Machine.run World.step (World.init 8 Int.ofNat) es).elim False fun w =>
      w.Quiescent ∧ World.position w.desk "ETHUSDT" = -1 := by decide +kernel
  obtain ⟨w, hw, hq, hpos⟩ := Machine.exists_of_elim hend
  exact ⟨w, hw, hpos, snapshot_qty_eq_position (fun _ _ => Int.ofNat.inj) (by decide +kernel)
    hw hq "ETHUSDT"⟩

/-- The first leg is half filled when it expires: the half is never booked. -/
theorem first_partial_unbooked :
    let leg1 : ArbLeg Rat := { symbol := "BTCUSDT", side := .Buy, qty := 1, price := 100 }
    let leg2 : ArbLeg Rat := { symbol := "ETHUSDT", side := .Sell, qty := 1, price := 10 }
    let es : List (EngineEvent Rat) :=
      [.signal leg1 leg2 ⟨0, 0⟩, .resume 0 .sent ⟨1, 1⟩, .resume 0 .sent ⟨2, 2⟩,
        .act 0 .accept 1, .act 0 (.fill (1 / 2) 100 0) 2, .act 0 (.finish .Expired) 3,
        .deliver 0, .deliver 0, .deliver 0, .resume 0 (.receive .leg1 false) ⟨4, 4⟩,
        .resume 0 (.receive .leg1 false) ⟨4, 4⟩, .resume 0 (.receive .leg1 false) ⟨4, 4⟩,
        .act 1 (.finish .Canceled) 4, .deliver 1, .resume 0 .sent ⟨5, 5⟩]
    (Machine.run World.step (World.init 8 Int.ofNat) es).elim False fun w =>
      w.Quiescent ∧ World.position w.desk "BTCUSDT" = 1 / 2 ∧
        (w.desk.engine.pnl.snapshot "BTCUSDT").qty = 0 := by
  decide +kernel

end HoloMarket
