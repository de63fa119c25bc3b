import HoloMarket.Net.PairSignal

/-!
# Inflight: the two in-flight sets

What each operation of the desk does to `inflight_pairs_` and
`inflight_symbols_`.  A pair holds its key and its two symbols from the signal
until `monitor_pair` completes or a gateway call throws, and the symbols are
recovered from the key when they are freed.
-/

namespace HoloMarket

variable {K : Type*}

/-- `|` separates the symbols of a pair key and occurs in none of them. -/
def PlainSymbol (symbol : String) : Prop := '|' ∉ symbol.toList

instance (symbol : String) : Decidable (PlainSymbol symbol) :=
  inferInstanceAs (Decidable ('|' ∉ symbol.toList))

/-- The pair is accepted and not complete.  `watch_hedge` runs after the
completion. -/
def PairPc.inFlight : PairPc → Bool
  | .watchingHedge .. | .finished .. | .threw _ => false
  | _ => true

namespace PairTask

def symbols (p : PairTask K) : Finset String := {p.leg1.symbol, p.leg2.symbol}

def Plain (p : PairTask K) : Prop := PlainSymbol p.leg1.symbol ∧ PlainSymbol p.leg2.symbol

/-- The symbols that the pair holds. -/
def heldSymbols (p : PairTask K) : Finset String := if p.pc.inFlight then p.symbols else ∅

/-- The key that the pair holds. -/
def heldKeys (p : PairTask K) : Finset String :=
  if p.pc.inFlight then {pairKey p.leg1 p.leg2} else ∅

theorem mem_heldSymbols {p : PairTask K} {s : String} :
    s ∈ p.heldSymbols ↔ p.pc.inFlight = true ∧ s ∈ p.symbols := by
  unfold heldSymbols
  split_ifs with hbusy
  · simp [hbusy]
  · simp [hbusy]

end PairTask

/-! ## The key of a pair -/

theorem span_pairKey {leg1 : ArbLeg K} (h : PlainSymbol leg1.symbol) (leg2 : ArbLeg K) :
    (pairKey leg1 leg2).toList.span (· != '|') =
      (leg1.symbol.toList, '|' :: leg2.symbol.toList) := by
  have hkey : (pairKey leg1 leg2).toList =
      leg1.symbol.toList ++ '|' :: leg2.symbol.toList := by
    unfold pairKey
    rw [String.toList_append, String.toList_append, List.append_assoc]
    rfl
  have hall : ∀ c ∈ leg1.symbol.toList, (c != '|') = true := by
    intro c hc
    rw [bne_iff_ne]
    rintro rfl
    exact h hc
  rw [hkey, List.span_eq_takeWhile_dropWhile, List.takeWhile_append_of_pos hall,
    List.dropWhile_append_of_pos hall]
  simp

/-- Plain symbols are recovered from the key. -/
theorem pairKey_inj {a b a' b' : ArbLeg K} (h : PlainSymbol a.symbol)
    (h' : PlainSymbol a'.symbol) (he : pairKey a b = pairKey a' b') :
    a.symbol = a'.symbol ∧ b.symbol = b'.symbol := by
  have hspan := span_pairKey h b
  rw [he, span_pairKey h' b', Prod.mk.injEq, List.cons.injEq] at hspan
  exact ⟨(String.toList_inj.mp hspan.1).symm, (String.toList_inj.mp hspan.2.2).symm⟩

/-! ## What the operations do to the sets -/

namespace ExecutionEngine

def inflight (eng : ExecutionEngine K) : Finset String × Finset String :=
  (eng.inflightPairs, eng.inflightSymbols)

variable (eng : ExecutionEngine K)

@[simp] theorem countRejects_inflight (s : OrderStatus) :
    (eng.countRejects s).inflight = eng.inflight := by
  cases s <;> rfl

@[simp] theorem trySend_inflight (c : Nat) (r : OrderRecord K) :
    (eng.trySend c r).inflight = eng.inflight := by
  unfold trySend
  split_ifs <;> rfl

@[simp] theorem dispatchUpdate_inflight (r : OrderRecord K) :
    (eng.dispatchUpdate r).inflight = eng.inflight := by
  unfold dispatchUpdate
  dsimp only
  split <;> simp

@[simp] theorem getOrCreateWaiter_inflight (key : UInt64) (n : Nat) :
    (eng.getOrCreateWaiter key n).1.inflight = eng.inflight := by
  unfold getOrCreateWaiter
  split <;> rfl

theorem clearInflight_inflight {leg1 : ArbLeg K} (h : PlainSymbol leg1.symbol)
    (leg2 : ArbLeg K) :
    (eng.clearInflight (pairKey leg1 leg2)).inflight =
      (eng.inflightPairs \ {pairKey leg1 leg2},
        eng.inflightSymbols \ {leg1.symbol, leg2.symbol}) := by
  have herase : (eng.inflightSymbols.erase leg1.symbol).erase leg2.symbol =
      eng.inflightSymbols \ {leg1.symbol, leg2.symbol} := by
    ext a
    simp only [Finset.mem_erase, Finset.mem_sdiff, Finset.mem_insert, Finset.mem_singleton]
    tauto
  unfold clearInflight
  rw [span_pairKey h]
  simp only [inflight, String.ofList_toList, herase, Finset.sdiff_singleton_eq_erase]

section
variable [Field K] [LinearOrder K]

@[simp] theorem applyUpdate_inflight (key : UInt64) (u : UpdateArgs K) :
    (eng.applyUpdate key u).inflight = eng.inflight := by
  unfold applyUpdate
  split
  · rfl
  · exact dispatchUpdate_inflight ..

@[simp] theorem handleOrderTradeUpdate_inflight (o : OrderTradeUpdate K) :
    (eng.handleOrderTradeUpdate o).inflight = eng.inflight := by
  unfold handleOrderTradeUpdate
  split
  · rfl
  · exact applyUpdate_inflight ..

end
end ExecutionEngine

namespace Desk

section
variable [Field K] (d : Desk K) (leg1 leg2 : ArbLeg K) (t : Clock)

theorem register_inflight (n : Nat) (symbol : String) (side : Side) (price qty : K) :
    (d.register n symbol side price qty t).engine.inflight = d.engine.inflight :=
  ExecutionEngine.dispatchUpdate_inflight ..

omit [Field K] in
theorem waiter_inflight (n : Nat) : (d.waiter n).1.engine.inflight = d.engine.inflight :=
  ExecutionEngine.getOrCreateWaiter_inflight ..

omit [Field K] in
theorem sendLeg_inflight (p : PairTask K) (w : LegIx) :
    (d.sendLeg p w).engine.inflight = d.engine.inflight := rfl

theorem openPair_inflight : (d.openPair leg1 leg2 t).engine.inflight =
    (d.engine.claimInflight leg1 leg2).inflight := by
  unfold openPair openTwo registerTwo
  rw [waiter_inflight, waiter_inflight, register_inflight, register_inflight]
  rfl

end

/-! ## What a resumption does to the sets -/

variable {d d' d₁ : Desk K} {p : PairTask K} {pc pc' : PairPc} {first : LegIx}

/-- The pair goes on to `pc`: it keeps what it holds, or gives it up. -/
def Frees (d d' : Desk K) (p : PairTask K) (pc : PairPc) : Prop :=
  d'.engine.inflight =
    if pc.inFlight then d.engine.inflight
    else (d.engine.inflightPairs \ {pairKey p.leg1 p.leg2}, d.engine.inflightSymbols \ p.symbols)

theorem Frees.of_eq (h : Frees d₁ d' p pc) (he : d₁.engine.inflight = d.engine.inflight) :
    Frees d d' p pc := by
  obtain ⟨hpairs, hsymbols⟩ := Prod.mk.inj he
  unfold Frees at h ⊢
  rwa [he, hpairs, hsymbols] at h

/-- Nothing is freed while the pair is in flight. -/
theorem frees_of_inFlight (he : d'.engine.inflight = d.engine.inflight)
    (hpc : pc.inFlight = true) : Frees d d' p pc := by
  unfold Frees
  rwa [if_pos hpc]

theorem clearInflight_frees (hplain : p.Plain) (hpc : pc.inFlight = false) :
    Frees d (d.clearInflight p) p pc := by
  unfold Frees
  rw [hpc, if_neg Bool.false_ne_true]
  exact d.engine.clearInflight_inflight hplain.1 p.leg2

theorem takeMsg_inflight {c : Nat} {m : OrderRecord K} (h : d.takeMsg c = some (m, d')) :
    d'.engine.inflight = d.engine.inflight := by
  unfold takeMsg at h
  split at h
  · cases h
  · cases h
    rfl

theorem loseMsg_inflight {c : Nat} {lost : Bool} (h : d.loseMsg c lost = some d') :
    d'.engine.inflight = d.engine.inflight := by
  unfold loseMsg at h
  split_ifs at h with hlost
  · obtain ⟨⟨m, d₁⟩, htake, h⟩ := Option.bind_eq_some_iff.mp h
    dsimp only at h
    split_ifs at h
    cases h
    exact takeMsg_inflight htake
  · cases h
    rfl

section
variable [Field K]

variable [LinearOrder K]

theorem applyPartial_inflight (d : Desk K) (r : OrderRecord K) (leg : ArbLeg K) :
    (d.applyPartial r leg).engine.inflight = d.engine.inflight := by
  unfold applyPartial
  split_ifs <;> rfl

theorem hedgeRemaining_frees (hplain : p.Plain) (d : Desk K) (first : LegIx) (remaining : K)
    (t : Clock) : Frees d (d.hedgeRemaining p first remaining t).1 p
      (d.hedgeRemaining p first remaining t).2 := by
  unfold hedgeRemaining
  dsimp only
  split_ifs
  · exact clearInflight_frees hplain rfl
  · refine frees_of_inFlight ?_ rfl
    exact (waiter_inflight ..).trans (register_inflight ..)

/-- `settled` keeps what the pair holds, or gives it up. -/
def FreesBy (p : PairTask K) (settled : Desk K → OrderRecord K → Desk K × PairPc) : Prop :=
  ∀ d r, Frees d (settled d r).1 p (settled d r).2

variable (first) (t : Clock)

theorem partnerSettled_frees (hplain : p.Plain) :
    FreesBy p fun d r => d.partnerSettled p first r t := by
  intro d r
  unfold partnerSettled
  dsimp only
  split_ifs
  · exact (hedgeRemaining_frees hplain ..).of_eq rfl
  · exact (clearInflight_frees hplain rfl).of_eq rfl

theorem restingRaced_frees (hplain : p.Plain) :
    FreesBy p fun d r => d.restingRaced p first r t := by
  intro d r
  unfold restingRaced
  dsimp only
  split_ifs
  · exact (clearInflight_frees hplain rfl).of_eq rfl
  · exact (hedgeRemaining_frees hplain ..).of_eq (applyPartial_inflight ..)

theorem restingSettled_frees (hplain : p.Plain) :
    FreesBy p fun d r => d.restingSettled p first r t := by
  intro d r
  unfold restingSettled
  dsimp only
  split_ifs
  · exact (clearInflight_frees hplain rfl).of_eq rfl
  · exact (hedgeRemaining_frees hplain ..).of_eq (applyPartial_inflight ..)

variable {first} {t} {settled : Desk K → OrderRecord K → Desk K × PairPc}

omit [Field K] [LinearOrder K] in
theorem FreesBy.receiveOn (hs : FreesBy p settled) (hpc : p.pc.inFlight = true) {c : Nat}
    (h : d.receiveOn p c settled = some (d', pc')) : Frees d d' p pc' := by
  obtain ⟨⟨m, d₁⟩, htake, h⟩ := Option.map_eq_some_iff.mp h
  have he := takeMsg_inflight htake
  dsimp only at h
  split_ifs at h
  · have hfrees := (hs d₁ m).of_eq he
    rwa [h] at hfrees
  · cases h
    exact frees_of_inFlight he hpc

omit [Field K] [LinearOrder K] in
theorem FreesBy.awaitAuthoritative (hs : FreesBy p settled) (hpc : pc.inFlight = true) {n : Nat}
    (h : d.awaitAuthoritative n settled pc = (d', pc')) : Frees d d' p pc' := by
  unfold Desk.awaitAuthoritative at h
  cases hm : d.settledRecord n with
  | none =>
    rw [hm] at h
    cases h
    exact frees_of_inFlight rfl hpc
  | some m =>
    rw [hm] at h
    replace h : settled d m = (d', pc') := h
    have hfrees := hs d m
    rwa [h] at hfrees

end

/-! ## Every resumption -/

section
variable [Field K] [LinearOrder K] {t : Clock}

theorem receiveFirst_frees (hpc : p.pc.inFlight = true) {w : LegIx} {lost : Bool}
    (h : d.receiveFirst p w lost = some (d', pc')) : Frees d d' p pc' := by
  obtain ⟨⟨m, d₁⟩, htake, h⟩ := Option.bind_eq_some_iff.mp h
  have he := takeMsg_inflight htake
  dsimp only at h
  split_ifs at h
  · obtain ⟨d₂, hlose, h⟩ := Option.map_eq_some_iff.mp h
    have he₂ := (loseMsg_inflight hlose).trans he
    unfold firstSettled at h
    split_ifs at h
    · cases h
      exact frees_of_inFlight he₂ rfl
    · cases h
      exact frees_of_inFlight he₂ rfl
  · cases h
    exact frees_of_inFlight he hpc

theorem hedgeSettled_inflight {c h : Nat}
    (hr : d.receiveOn p c (fun d r => d.hedgeSettled p first h r) = some (d', pc'))
    (hpc : p.pc.inFlight = false) :
    pc'.inFlight = false ∧ d'.engine.inflight = d.engine.inflight := by
  obtain ⟨⟨m, d₁⟩, htake, hr⟩ := Option.map_eq_some_iff.mp hr
  have he := takeMsg_inflight htake
  dsimp only at hr
  split_ifs at hr
  · cases hr
    exact ⟨rfl, (applyPartial_inflight d₁ m (p.leg first.other)).trans he⟩
  · cases hr
    exact ⟨hpc, he⟩

/-- A pair in flight stays so with all it holds, or ends and gives up exactly
that; a pair that is not in flight frees nothing. -/
theorem resume_frees (hplain : p.Plain) {x : Resumption}
    (h : d.resume p x t = some (d', pc')) :
    p.pc.inFlight = true ∧ Frees d d' p pc' ∨
      p.pc.inFlight = false ∧ pc'.inFlight = false ∧
        d'.engine.inflight = d.engine.inflight := by
  unfold resume at h
  split at h
  case h_1 hpc =>
    cases h
    exact Or.inl ⟨hpc ▸ rfl, frees_of_inFlight rfl rfl⟩
  case h_2 hpc =>
    cases h
    exact Or.inl ⟨hpc ▸ rfl, frees_of_inFlight rfl rfl⟩
  case h_3 w lost hpc => exact Or.inl ⟨hpc ▸ rfl, receiveFirst_frees (hpc ▸ rfl) h⟩
  case h_4 first hpc =>
    exact Or.inl ⟨hpc ▸ rfl, (partnerSettled_frees first t hplain).awaitAuthoritative rfl
      (Option.some.inj h)⟩
  case h_5 first w hpc =>
    split_ifs at h
    exact Or.inl ⟨hpc ▸ rfl, (partnerSettled_frees first t hplain).receiveOn (hpc ▸ rfl) h⟩
  case h_6 first lost hpc =>
    obtain ⟨d₁, hlose, h⟩ := Option.map_eq_some_iff.mp h
    have hfrees := (partnerSettled_frees first t hplain d₁
      (d₁.lastKnown (p.id first.other))).of_eq (loseMsg_inflight hlose)
    simp only [h] at hfrees
    exact Or.inl ⟨hpc ▸ rfl, hfrees⟩
  case h_7 first w hpc =>
    split_ifs at h
    exact Or.inl ⟨hpc ▸ rfl, (restingRaced_frees first t hplain).receiveOn (hpc ▸ rfl) h⟩
  case h_8 first lost hpc =>
    obtain ⟨d₁, hlose, h⟩ := Option.map_eq_some_iff.mp h
    cases h
    have he := loseMsg_inflight hlose
    exact Or.inl ⟨hpc ▸ rfl, frees_of_inFlight he rfl⟩
  case h_9 first hpc =>
    exact Or.inl ⟨hpc ▸ rfl, (restingSettled_frees first t hplain).awaitAuthoritative rfl
      (Option.some.inj h)⟩
  case h_10 first w hpc =>
    split_ifs at h
    exact Or.inl ⟨hpc ▸ rfl, (restingSettled_frees first t hplain).receiveOn (hpc ▸ rfl) h⟩
  case h_11 first lost hpc =>
    obtain ⟨d₁, hlose, h⟩ := Option.map_eq_some_iff.mp h
    have hfrees := (restingSettled_frees first t hplain d₁
      (d₁.lastKnown (p.id first.other))).of_eq (loseMsg_inflight hlose)
    simp only [h] at hfrees
    exact Or.inl ⟨hpc ▸ rfl, hfrees⟩
  case h_12 first n c hpc =>
    cases h
    exact Or.inl ⟨hpc ▸ rfl, clearInflight_frees hplain rfl⟩
  case h_13 first n c hpc =>
    have hdone : p.pc.inFlight = false := hpc ▸ rfl
    exact Or.inr ⟨hdone, hedgeSettled_inflight h hdone⟩
  case h_19 => cases h
  all_goals
    rename_i hpc
    cases h
    exact Or.inl ⟨hpc ▸ rfl, clearInflight_frees hplain rfl⟩

end
end Desk

end HoloMarket
