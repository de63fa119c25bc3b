import HoloMarket.Lib.Leases
import HoloMarket.Net.Inflight

/-!
# Exclusive: one pair at a time on an instrument

The pairs in flight lease their key and their symbols from the two in-flight
sets: a signal that is admitted takes free ones, and a pair that ends gives up
its own.
-/

namespace HoloMarket

variable {K : Type*}

namespace World

variable [Field K]

/-- Every pair in flight has its key and its symbols, and nothing else is in
use. -/
structure Exclusive (w : World K) : Prop where
  symbols : Leased w.desk.engine.inflightSymbols (w.pairs.map PairTask.heldSymbols)
  keys : Leased w.desk.engine.inflightPairs (w.pairs.map PairTask.heldKeys)
  plain : ∀ p ∈ w.pairs, p.Plain

theorem init_exclusive (maxOpenOrders : Nat) (orderId : Nat → Int) :
    (init maxOpenOrders orderId : World K).Exclusive :=
  ⟨Leased.nil, Leased.nil, fun _ hp => absurd hp List.not_mem_nil⟩

/-- The legs of a signal have plain symbols. -/
def PlainSignal : EngineEvent K → Prop
  | .signal leg1 leg2 _ => PlainSymbol leg1.symbol ∧ PlainSymbol leg2.symbol
  | _ => True

instance : ∀ e : EngineEvent K, Decidable (PlainSignal e)
  | .signal leg1 leg2 _ =>
    inferInstanceAs (Decidable (PlainSymbol leg1.symbol ∧ PlainSymbol leg2.symbol))
  | .resume .. | .act .. | .deliver _ | .refuse .. | .sweep .. | .forceHalt | .resetHalt
  | .checkDrawdown .. => inferInstanceAs (Decidable True)

variable [LinearOrder K] {w w' : World K} {d : Desk K} {e : EngineEvent K}

omit [Field K] [LinearOrder K] in
theorem Exclusive.of_inflight (h : w.Exclusive)
    (he : d.engine.inflight = w.desk.engine.inflight) :
    ({ w with desk := d } : World K).Exclusive := by
  obtain ⟨hpairs, hsymbols⟩ := Prod.mk.inj he
  refine ⟨?_, ?_, h.plain⟩
  · show Leased d.engine.inflightSymbols _
    rw [hsymbols]
    exact h.symbols
  · show Leased d.engine.inflightPairs _
    rw [hpairs]
    exact h.keys

omit [Field K] [LinearOrder K] in
/-- A pair whose symbols are free has a key that is free. -/
theorem Exclusive.key_not_mem (h : w.Exclusive) {leg1 leg2 : ArbLeg K}
    (hplain : PlainSymbol leg1.symbol) (hfree : leg1.symbol ∉ w.desk.engine.inflightSymbols) :
    pairKey leg1 leg2 ∉ w.desk.engine.inflightPairs := by
  intro hmem
  obtain ⟨S, hS, hin⟩ := (h.keys.mem _).mp hmem
  obtain ⟨q, hq, rfl⟩ := List.mem_map.mp hS
  unfold PairTask.heldKeys at hin
  split_ifs at hin with hbusy
  · have hsym := (pairKey_inj hplain (h.plain q hq).1 (Finset.mem_singleton.mp hin)).1
    refine hfree ((h.symbols.mem _).mpr ⟨q.heldSymbols, List.mem_map.mpr ⟨q, hq, rfl⟩, ?_⟩)
    unfold PairTask.heldSymbols PairTask.symbols
    rw [if_pos hbusy, hsym]
    exact Finset.mem_insert_self _ _
  · exact absurd hin (Finset.notMem_empty _)

omit [Field K] [LinearOrder K] in
theorem Exclusive.concat (h : w.Exclusive) {p : PairTask K} (hp : w'.pairs = w.pairs ++ [p])
    (hplain : p.Plain)
    (hinflight : w'.desk.engine.inflight = (w.desk.engine.inflightPairs ∪ p.heldKeys,
      w.desk.engine.inflightSymbols ∪ p.heldSymbols))
    (hfree : Disjoint w.desk.engine.inflightSymbols p.heldSymbols)
    (hfreeKeys : Disjoint w.desk.engine.inflightPairs p.heldKeys) : w'.Exclusive := by
  obtain ⟨hkeys, hsymbols⟩ := Prod.mk.inj hinflight
  refine ⟨?_, ?_, fun q hq => ?_⟩
  · rw [hp, hsymbols, List.map_append]
    exact h.symbols.concat hfree
  · rw [hp, hkeys, List.map_append]
    exact h.keys.concat hfreeKeys
  · rw [hp] at hq
    rcases List.mem_append.mp hq with hq | hq
    · exact h.plain q hq
    · rw [List.mem_singleton.mp hq]
      exact hplain

theorem Exclusive.signal (h : w.Exclusive) {leg1 leg2 : ArbLeg K} {t : Clock}
    (hplain : PlainSymbol leg1.symbol ∧ PlainSymbol leg2.symbol)
    (hs : w.step (.signal leg1 leg2 t) = some w') : w'.Exclusive := by
  rcases step_signal hs with ⟨-, rfl⟩ | ⟨hadm, rfl⟩
  · exact h
  · obtain ⟨hfree1, hfree2⟩ : leg1.symbol ∉ w.desk.engine.inflightSymbols ∧
        leg2.symbol ∉ w.desk.engine.inflightSymbols := by
      unfold ExecutionEngine.admits at hadm
      simp only [Bool.and_eq_true, decide_eq_true_eq] at hadm
      exact hadm.2
    have hsymbols : (w.desk.signalTask leg1 leg2 t).heldSymbols = {leg1.symbol, leg2.symbol} :=
      if_pos rfl
    have hkeys : (w.desk.signalTask leg1 leg2 t).heldKeys = {pairKey leg1 leg2} := if_pos rfl
    refine h.concat rfl hplain ?_ ?_ ?_
    · rw [Desk.sendLeg_inflight, Desk.openPair_inflight, hsymbols, hkeys, Finset.union_comm,
        Finset.union_comm w.desk.engine.inflightSymbols, Finset.insert_union,
        Finset.singleton_union, Finset.singleton_union, Finset.insert_comm]
      rfl
    · rw [hsymbols, Finset.disjoint_insert_right, Finset.disjoint_singleton_right]
      exact ⟨hfree1, hfree2⟩
    · rw [hkeys, Finset.disjoint_singleton_right]
      exact h.key_not_mem hplain.1 hfree1

omit [Field K] [LinearOrder K] in
/-- What a pair holds after it went on, in the list of what all hold. -/
theorem map_set_pc {β : Type*} (f : PairTask K → β) {i : Nat} {p q : PairTask K}
    (hp : w.pairs[i]? = some p) (hq : f q = f p) : (w.pairs.set i q).map f = w.pairs.map f := by
  obtain ⟨hlt, hget⟩ := List.getElem?_eq_some_iff.mp hp
  have hlt' : i < (w.pairs.map f).length := by rwa [List.length_map]
  have hsame : f p = (w.pairs.map f)[i] := by rw [List.getElem_map, hget]
  rw [List.map_set, hq, hsame, List.set_getElem_self hlt']

theorem Exclusive.set (h : w.Exclusive) {i : Nat} {p : PairTask K} {pc : PairPc}
    (hp : w.pairs[i]? = some p) {x : Resumption} {t : Clock}
    (hr : w.desk.resume p x t = some (d, pc)) :
    ({ desk := d, pairs := w.pairs.set i { p with pc := pc } } : World K).Exclusive := by
  have hplain := h.plain p (List.mem_of_getElem? hp)
  have hall : ∀ q ∈ w.pairs.set i { p with pc := pc }, q.Plain := by
    intro q hq
    rcases List.mem_or_eq_of_mem_set hq with hq | rfl
    · exact h.plain q hq
    · exact hplain
  have hsame : d.engine.inflight = w.desk.engine.inflight → pc.inFlight = p.pc.inFlight →
      ({ desk := d, pairs := w.pairs.set i { p with pc := pc } } : World K).Exclusive := by
    intro he hpc
    have hold := h.of_inflight he
    have hs : ({ p with pc := pc } : PairTask K).heldSymbols = p.heldSymbols := by
      unfold PairTask.heldSymbols
      rw [hpc]
      rfl
    have hk : ({ p with pc := pc } : PairTask K).heldKeys = p.heldKeys := by
      unfold PairTask.heldKeys
      rw [hpc]
    refine ⟨?_, ?_, hall⟩
    · rw [map_set_pc _ hp hs]
      exact hold.symbols
    · rw [map_set_pc _ hp hk]
      exact hold.keys
  rcases Desk.resume_frees hplain hr with ⟨hbusy, hfrees⟩ | ⟨hdone, hdone', he⟩
  · unfold Desk.Frees at hfrees
    by_cases hpc : pc.inFlight = true
    · rw [if_pos hpc] at hfrees
      exact hsame hfrees (hpc.trans hbusy.symm)
    · rw [if_neg hpc] at hfrees
      obtain ⟨hpairs, hsymbols⟩ := Prod.mk.inj hfrees
      have hheld : (w.pairs.map PairTask.heldSymbols)[i]? = some p.symbols := by
        rw [List.getElem?_map, hp]
        exact congrArg some (if_pos hbusy)
      have hkey : (w.pairs.map PairTask.heldKeys)[i]? = some {pairKey p.leg1 p.leg2} := by
        rw [List.getElem?_map, hp]
        exact congrArg some (if_pos hbusy)
      refine ⟨?_, ?_, hall⟩
      · rw [List.map_set, show ({ p with pc := pc } : PairTask K).heldSymbols = ∅ from if_neg hpc]
        show Leased d.engine.inflightSymbols _
        rw [hsymbols]
        exact h.symbols.set_empty hheld
      · rw [List.map_set, show ({ p with pc := pc } : PairTask K).heldKeys = ∅ from if_neg hpc]
        show Leased d.engine.inflightPairs _
        rw [hpairs]
        exact h.keys.set_empty hkey
  · exact hsame he (hdone'.trans hdone.symm)

theorem Exclusive.step (h : w.Exclusive) (hplain : PlainSignal e)
    (hs : w.step e = some w') : w'.Exclusive := by
  cases e with
  | signal leg1 leg2 t => exact h.signal hplain hs
  | resume i x t =>
    obtain ⟨p, hp, hs⟩ := Option.bind_eq_some_iff.mp hs
    obtain ⟨⟨d, pc⟩, hr, rfl⟩ := Option.map_eq_some_iff.mp hs
    exact h.set hp hr
  | act n a tMs =>
    obtain ⟨d, hd, rfl⟩ := Option.map_eq_some_iff.mp hs
    obtain ⟨v, -, hd⟩ := Option.bind_eq_some_iff.mp hd
    obtain ⟨v', -, rfl⟩ := Option.map_eq_some_iff.mp hd
    exact h.of_inflight rfl
  | deliver n =>
    obtain ⟨d, hd, rfl⟩ := Option.map_eq_some_iff.mp hs
    obtain ⟨v, -, hd⟩ := Option.bind_eq_some_iff.mp hd
    obtain ⟨o, -, rfl⟩ := Option.map_eq_some_iff.mp hd
    exact h.of_inflight (ExecutionEngine.handleOrderTradeUpdate_inflight ..)
  | refuse n nowNs =>
    obtain ⟨d, hd, rfl⟩ := Option.map_eq_some_iff.mp hs
    obtain ⟨v, -, hd⟩ := Option.bind_eq_some_iff.mp hd
    split_ifs at hd
    cases hd
    exact h.of_inflight (ExecutionEngine.applyUpdate_inflight ..)
  | sweep maxAge steadyNs =>
    cases hs
    exact h.of_inflight rfl
  | forceHalt =>
    cases hs
    exact h.of_inflight rfl
  | resetHalt =>
    cases hs
    exact h.of_inflight rfl
  | checkDrawdown x limit =>
    cases hs
    exact h.of_inflight rfl

/-- A step changes a pair only by resuming it. -/
theorem step_pair (hs : w.step e = some w') {i : Nat} {p p' : PairTask K}
    (hp : w.pairs[i]? = some p) (hp' : w'.pairs[i]? = some p') :
    p' = p ∨ ∃ x t pc, w.desk.resume p x t = some (w'.desk, pc) ∧ p' = { p with pc := pc } := by
  have hsame : w'.pairs = w.pairs → p' = p := by
    intro he
    rw [he, hp] at hp'
    exact (Option.some.inj hp').symm
  cases e with
  | signal leg1 leg2 t =>
    rcases step_signal hs with ⟨-, rfl⟩ | ⟨-, rfl⟩
    · exact Or.inl (hsame rfl)
    · rw [List.getElem?_append_left (List.getElem?_eq_some_iff.mp hp).1, hp] at hp'
      exact Or.inl (Option.some.inj hp').symm
  | resume j x t =>
    obtain ⟨q, hq, hs⟩ := Option.bind_eq_some_iff.mp hs
    obtain ⟨⟨d, pc⟩, hr, rfl⟩ := Option.map_eq_some_iff.mp hs
    dsimp only at hp'
    by_cases hij : j = i
    · subst hij
      rw [hp] at hq
      cases hq
      rw [List.getElem?_set_self (List.getElem?_eq_some_iff.mp hp).1] at hp'
      exact Or.inr ⟨x, t, pc, hr, (Option.some.inj hp').symm⟩
    · rw [List.getElem?_set_ne hij, hp] at hp'
      exact Or.inl (Option.some.inj hp').symm
  | act n a tMs =>
    obtain ⟨d, -, rfl⟩ := Option.map_eq_some_iff.mp hs
    exact Or.inl (hsame rfl)
  | deliver n =>
    obtain ⟨d, -, rfl⟩ := Option.map_eq_some_iff.mp hs
    exact Or.inl (hsame rfl)
  | refuse n nowNs =>
    obtain ⟨d, -, rfl⟩ := Option.map_eq_some_iff.mp hs
    exact Or.inl (hsame rfl)
  | sweep maxAge steadyNs | forceHalt | resetHalt | checkDrawdown x limit =>
    cases hs
    exact Or.inl (hsame rfl)

/-- A pair that ends frees its own symbols and no others. -/
theorem Exclusive.ended (h : w.Exclusive) (hs : w.step e = some w') {i : Nat}
    {p p' : PairTask K} (hp : w.pairs[i]? = some p) (hp' : w'.pairs[i]? = some p')
    (hbusy : p.pc.inFlight = true) (hdone : p'.pc.inFlight = false) :
    w'.desk.engine.inflightSymbols = w.desk.engine.inflightSymbols \ p.symbols := by
  rcases step_pair hs hp hp' with rfl | ⟨x, t, pc, hr, rfl⟩
  · exact absurd (hbusy.symm.trans hdone) (by decide)
  · have hplain := h.plain p (List.mem_of_getElem? hp)
    rcases Desk.resume_frees hplain hr with ⟨-, hfrees⟩ | ⟨hnot, -, -⟩
    · unfold Desk.Frees at hfrees
      replace hdone : ¬pc.inFlight = true := Bool.eq_false_iff.mp hdone
      rw [if_neg hdone] at hfrees
      exact (Prod.mk.inj hfrees).2
    · exact absurd (hbusy.symm.trans hnot) (by decide)

end World

/-- After any events, the symbols in flight are those of the pairs in flight, no
two of which share one, and a pair that ends frees its own and no others. -/
theorem inflight_exclusive [Field K] [LinearOrder K] (maxOpenOrders : Nat) (orderId : Nat → Int)
    {es : List (EngineEvent K)} (hplain : ∀ e ∈ es, World.PlainSignal e) {w : World K}
    (hrun : Machine.run World.step (World.init maxOpenOrders orderId) es = some w) :
    (∀ s, s ∈ w.desk.engine.inflightSymbols ↔
      ∃ p ∈ w.pairs, p.pc.inFlight = true ∧ s ∈ p.symbols) ∧
    (∀ (i j : Nat) (p q : PairTask K), w.pairs[i]? = some p → w.pairs[j]? = some q → i ≠ j →
      p.pc.inFlight = true → q.pc.inFlight = true → Disjoint p.symbols q.symbols) ∧
    (∀ (e : EngineEvent K) (w' : World K) (i : Nat) (p p' : PairTask K), w.step e = some w' →
      w.pairs[i]? = some p → w'.pairs[i]? = some p' → p.pc.inFlight = true →
      p'.pc.inFlight = false →
      w'.desk.engine.inflightSymbols = w.desk.engine.inflightSymbols \ p.symbols) := by
  have h : w.Exclusive := Machine.run_inv_of_forall
    (fun _ _ _ h hplain hs => World.Exclusive.step h hplain hs)
    (World.init_exclusive maxOpenOrders orderId) hplain hrun
  refine ⟨fun s => ?_, fun i j p q hp hq hij hbp hbq => ?_, ?_⟩
  · rw [h.symbols.mem s]
    constructor
    · rintro ⟨S, hS, hs⟩
      obtain ⟨p, hp, rfl⟩ := List.mem_map.mp hS
      exact ⟨p, hp, PairTask.mem_heldSymbols.mp hs⟩
    · rintro ⟨p, hp, hs⟩
      exact ⟨p.heldSymbols, List.mem_map.mpr ⟨p, hp, rfl⟩, PairTask.mem_heldSymbols.mpr hs⟩
  · have hheld : ∀ (k : Nat) (r : PairTask K), w.pairs[k]? = some r → r.pc.inFlight = true →
        (w.pairs.map PairTask.heldSymbols)[k]? = some r.symbols := by
      intro k r hr hbr
      rw [List.getElem?_map, hr]
      exact congrArg some (if_pos hbr)
    exact h.symbols.apart i j _ _ (hheld i p hp hbp) (hheld j q hq hbq) hij
  · exact fun e w' i p p' hs hp hp' hbusy hdone => h.ended hs hp hp' hbusy hdone

/-- Of four signals the second and the third share an instrument with the first
and are dropped, and the first pair ends when its send throws. -/
theorem inflight_exclusive_four_signals :
    let leg (symbol : String) (side : Side) : ArbLeg Rat :=
      { symbol := symbol, side := side, qty := 1, price := 100 }
    let es : List (EngineEvent Rat) :=
      [.signal (leg "BTCUSDT" .Buy) (leg "ETHUSDT" .Sell) ⟨0, 0⟩,
        .signal (leg "ETHUSDT" .Buy) (leg "BTCUSDT" .Sell) ⟨1, 1⟩,
        .signal (leg "SOLUSDT" .Buy) (leg "BTCUSDT" .Sell) ⟨2, 2⟩,
        .signal (leg "SOLUSDT" .Buy) (leg "BNBUSDT" .Sell) ⟨3, 3⟩, .resume 0 .threw ⟨4, 4⟩]
    ∃ w, Machine.run World.step (World.init 8 Int.ofNat) es = some w ∧
      w.pairs.map (fun p => p.pc.inFlight) = [false, true] ∧
      ∀ s, s ∈ w.desk.engine.inflightSymbols ↔
        ∃ p ∈ w.pairs, p.pc.inFlight = true ∧ s ∈ p.symbols := by
  intro leg es
  obtain ⟨w, hw, hpairs⟩ := Machine.exists_of_elim
    (o := Machine.run World.step (World.init 8 Int.ofNat) es)
    (P := fun w => w.pairs.map (fun p => p.pc.inFlight) = [false, true]) (by decide +kernel)
  have hplain : ∀ e ∈ es, World.PlainSignal e := by decide
  exact ⟨w, hw, hpairs, (inflight_exclusive 8 Int.ofNat hplain hw).1⟩

end HoloMarket
