import HoloMarket.Net.PairSignal

/-!
# WorldInv: many pairs on one desk

Each order belongs to one pair.  A step touches the orders of one pair at most,
so what every pair knows about its own orders is kept by every step of every
other pair, and by everything that happens at the exchange.
-/

namespace HoloMarket

variable {K : Type*} [Field K] [LinearOrder K]

namespace World

/-! ## The conditions on a step -/

/-- No two of the client ids that have been given out share a key. -/
def FreshKeys (w : World K) (e : EngineEvent K) : Prop :=
  (w.step e).elim True fun w' => KeysDistinct w'.desk.engine.seq

/-- The legs of the pairs in `S` are for a positive quantity. -/
def PositiveLegs (S : Nat → Prop) (w : World K) : EngineEvent K → Prop
  | .signal leg1 leg2 _ => S w.pairs.length → 0 < leg1.qty ∧ 0 < leg2.qty
  | _ => True

/-- The cancels of the pairs in `S` are acknowledged before `kCancelAckTimeout`. -/
def AckInTime (S : Nat → Prop) (w : World K) : EngineEvent K → Prop
  | .resume i r _ => S i → (w.pairs[i]?).elim True fun p => w.desk.AckInTime p r = true
  | _ => True

/-- What is assumed of a step for the sake of the pairs in `S`. -/
structure StepOk (S : Nat → Prop) (w : World K) (e : EngineEvent K) : Prop where
  fresh : w.FreshKeys e
  positive : w.PositiveLegs S e
  ack : w.AckInTime S e

instance (w : World K) (e : EngineEvent K) : Decidable (w.FreshKeys e) :=
  Machine.decidableElim (w.step e)

instance (S : Nat → Prop) [DecidablePred S] (w : World K) :
    ∀ e : EngineEvent K, Decidable (w.PositiveLegs S e)
  | .signal leg1 leg2 _ =>
    inferInstanceAs (Decidable (S w.pairs.length → 0 < leg1.qty ∧ 0 < leg2.qty))
  | .resume .. | .act .. | .deliver _ | .refuse .. | .sweep .. | .forceHalt | .resetHalt
  | .checkDrawdown .. => inferInstanceAs (Decidable True)

instance (S : Nat → Prop) [DecidablePred S] (w : World K) :
    ∀ e : EngineEvent K, Decidable (w.AckInTime S e)
  | .resume i r _ => inferInstanceAs (Decidable
      (S i → (w.pairs[i]?).elim True fun p => w.desk.AckInTime p r = true))
  | .signal .. | .act .. | .deliver _ | .refuse .. | .sweep .. | .forceHalt | .resetHalt
  | .checkDrawdown .. => inferInstanceAs (Decidable True)

instance (S : Nat → Prop) [DecidablePred S] (w : World K) (e : EngineEvent K) :
    Decidable (w.StepOk S e) :=
  decidable_of_iff (w.FreshKeys e ∧ w.PositiveLegs S e ∧ w.AckInTime S e)
    ⟨fun h => ⟨h.1, h.2.1, h.2.2⟩, fun h => ⟨h.fresh, h.positive, h.ack⟩⟩

/-! ## The invariant -/

/-- Every pair has its orders to itself. -/
structure Apart (w : World K) : Prop where
  desk : w.desk.Ok
  keys : KeysDistinct w.desk.engine.seq
  wired : ∀ (i : Nat) (p : PairTask K), w.pairs[i]? = some p → p.Wired w.desk.engine.seq
  apart : ∀ (i j : Nat) (p q : PairTask K), w.pairs[i]? = some p → w.pairs[j]? = some q →
    i ≠ j → p.orders.Disjoint q.orders

/-- And the pairs in `S` know about theirs. -/
structure Ok (S : Nat → Prop) (w : World K) : Prop extends Apart w where
  pairs : ∀ (i : Nat) (p : PairTask K), S i → w.pairs[i]? = some p → p.Ok w.desk

omit [LinearOrder K] in
theorem init_apart (maxOpenOrders : Nat) (orderId : Nat → Int) :
    Apart (init maxOpenOrders orderId : World K) where
  desk :=
    { known := fun k hk => by
        rcases hk with hk | hk <;> cases hk
      cid := fun n hn => absurd hn (Nat.not_lt_zero n)
      waiter := fun n hn => absurd hn (Nat.not_lt_zero n)
      order := fun n v hv => by cases hv }
  keys := fun n hn => absurd hn (Nat.not_lt_zero n)
  wired i p hp := by cases hp
  apart i j p q hp := by cases hp

theorem init_ok (S : Nat → Prop) (maxOpenOrders : Nat) (orderId : Nat → Int) :
    Ok S (init maxOpenOrders orderId : World K) :=
  ⟨init_apart maxOpenOrders orderId, fun i p _ hp => by cases hp⟩

variable {S : Nat → Prop} {w w' : World K} {d : Desk K}

omit [LinearOrder K] in
theorem Apart.of_desk (h : Apart w) (hd : d.Ok) (hseq : d.engine.seq = w.desk.engine.seq) :
    Apart { w with desk := d } where
  desk := hd
  keys := hseq.symm ▸ h.keys
  wired i p hp := hseq.symm ▸ h.wired i p hp
  apart := h.apart

/-- The pairs after a signal: the old ones and a new last one. -/
theorem getElem?_concat_cases {α : Type*} {l : List α} {x y : α} {i : Nat}
    (h : (l ++ [x])[i]? = some y) : l[i]? = some y ∨ i = l.length ∧ y = x := by
  rcases lt_or_ge i l.length with hlt | hge
  · rw [List.getElem?_append_left hlt] at h
    exact Or.inl h
  · rw [List.getElem?_append_right hge] at h
    have hlen := (List.getElem?_eq_some_iff.mp h).1
    have hi : i = l.length := by
      rw [List.length_singleton] at hlen
      omega
    rw [hi, Nat.sub_self] at h
    exact Or.inr ⟨hi, (Option.some.inj h).symm⟩

theorem getElem?_set_cases {α : Type*} {l : List α} {x y : α} {i j : Nat}
    (h : (l.set i x)[j]? = some y) : j = i ∧ y = x ∨ j ≠ i ∧ l[j]? = some y := by
  rw [List.getElem?_set] at h
  split_ifs at h with hij hlen
  · exact Or.inl ⟨hij.symm, (Option.some.inj h).symm⟩
  · exact Or.inr ⟨Ne.symm hij, h⟩

theorem Apart.concat (h : Apart w) {p : PairTask K} (hs : Desk.Signaled w.desk d p)
    (hk : KeysDistinct d.engine.seq) : Apart { desk := d, pairs := w.pairs ++ [p] } := by
  have hold : ∀ q : PairTask K, q.Wired w.desk.engine.seq → ∀ n ∈ q.orders, n ∉ p.orders := by
    intro q hq n hn hmem
    have hlt := hq.lt n hn
    rw [hs.orders] at hmem
    simp only [List.mem_cons, List.not_mem_nil, or_false] at hmem
    omega
  refine ⟨hs.desk, hk, fun i q hq => ?_, fun i j q r hq hr hij => ?_⟩
  · rcases getElem?_concat_cases hq with hq | ⟨-, rfl⟩
    · exact (h.wired i q hq).mono hs.frame.seq
    · exact hs.wired
  · rcases getElem?_concat_cases hq with hq | ⟨hi, rfl⟩
    · have hwired := h.wired i q hq
      rcases getElem?_concat_cases hr with hr | ⟨-, rfl⟩
      · exact h.apart i j q r hq hr hij
      · exact hold q hwired
    · rcases getElem?_concat_cases hr with hr | ⟨hj, -⟩
      · exact fun n hn hn' => hold r (h.wired j r hr) n hn' hn
      · exact absurd (hi.trans hj.symm) hij

theorem FreshKeys.keys {e : EngineEvent K} (h : w.FreshKeys e) (hs : w.step e = some w') :
    KeysDistinct w'.desk.engine.seq := by
  unfold FreshKeys at h
  rwa [hs] at h

omit [LinearOrder K] in
theorem Apart.set (h : Apart w) {i : Nat} {p : PairTask K} {pc : PairPc}
    (hp : w.pairs[i]? = some p) (hm : Moved w.desk d p { p with pc := pc })
    (hk : KeysDistinct d.engine.seq) :
    Apart { desk := d, pairs := w.pairs.set i { p with pc := pc } } := by
  refine ⟨hm.desk, hk, fun j q hq => ?_, fun j k q r hq hr' hjk => ?_⟩
  · rcases getElem?_set_cases hq with ⟨rfl, rfl⟩ | ⟨-, hq⟩
    · exact hm.wired_after (h.wired j p hp)
    · exact (h.wired j q hq).mono hm.frame.seq
  · have hother : ∀ k r, k ≠ i → w.pairs[k]? = some r →
        ({ p with pc := pc } : PairTask K).orders.Disjoint r.orders := by
      intro k r hk hr' n hn hn'
      -- a new hedge has a number that no pair has
      rcases hm.mem_orders hn with hn | rfl
      · exact h.apart i k p r hp hr' hk.symm hn hn'
      · exact absurd ((h.wired k r hr').lt _ hn') (lt_irrefl _)
    rcases getElem?_set_cases hq with ⟨hj, rfl⟩ | ⟨hj, hq⟩
    · rcases getElem?_set_cases hr' with ⟨hk', -⟩ | ⟨hk', hr'⟩
      · exact absurd (hj.trans hk'.symm) hjk
      · exact hother k r hk' hr'
    · rcases getElem?_set_cases hr' with ⟨-, rfl⟩ | ⟨hk', hr'⟩
      · exact (hother j q hj hq).symm
      · exact h.apart j k q r hq hr' hjk

theorem step_signal_cases (h : Apart w) {leg1 leg2 : ArbLeg K} {t : Clock}
    (hs : w.step (.signal leg1 leg2 t) = some w') (hk : KeysDistinct w'.desk.engine.seq) :
    w' = w ∨ ∃ d p, Desk.Signaled w.desk d p ∧ p.leg1 = leg1 ∧ p.leg2 = leg2 ∧
      w' = { desk := d, pairs := w.pairs ++ [p] } := by
  rcases step_signal hs with ⟨-, rfl⟩ | ⟨-, rfl⟩
  · exact Or.inl rfl
  · rw [Desk.sendLeg_engine, Desk.openPair_seq] at hk
    exact Or.inr ⟨_, _, Desk.onSignal_signaled h.desk hk t, rfl, rfl, rfl⟩

variable [IsStrictOrderedRing K]

theorem step_resume_cases (h : Apart w) {i : Nat} {r : Resumption} {t : Clock}
    (hs : w.step (.resume i r t) = some w') (hk : KeysDistinct w'.desk.engine.seq) :
    ∃ p d pc, w.pairs[i]? = some p ∧ w.desk.resume p r t = some (d, pc) ∧
      Moved w.desk d p { p with pc := pc } ∧
      w' = { desk := d, pairs := w.pairs.set i { p with pc := pc } } := by
  obtain ⟨p, hp, hs⟩ := Option.bind_eq_some_iff.mp hs
  obtain ⟨⟨d, pc⟩, hresume, rfl⟩ := Option.map_eq_some_iff.mp hs
  exact ⟨p, d, pc, hp, hresume,
    Desk.resume_moved h.keys (h.wired i p hp) h.desk hresume hk, rfl⟩

/-- A step makes a pair, or lets one go on, or leaves every order in its stage. -/
theorem Apart.step_cases (h : Apart w) {e : EngineEvent K} (hs : w.step e = some w')
    (hk : KeysDistinct w'.desk.engine.seq) :
    (∃ leg1 leg2 t p, e = .signal leg1 leg2 t ∧ Desk.Signaled w.desk w'.desk p ∧
      p.leg1 = leg1 ∧ p.leg2 = leg2 ∧ w'.pairs = w.pairs ++ [p]) ∨
    (∃ i p r t pc, e = .resume i r t ∧ w.pairs[i]? = some p ∧
      w.desk.resume p r t = some (w'.desk, pc) ∧ Moved w.desk w'.desk p { p with pc := pc } ∧
      w'.pairs = w.pairs.set i { p with pc := pc }) ∨
    (w'.pairs = w.pairs ∧ w'.desk.Ok ∧ w'.desk.engine.seq = w.desk.engine.seq ∧
      ∀ n < w.desk.engine.seq, Desk.Keeps w.desk w'.desk n) := by
  cases e with
  | signal leg1 leg2 t =>
    rcases step_signal_cases h hs hk with rfl | ⟨d, p, hsig, h₁, h₂, rfl⟩
    · exact Or.inr (Or.inr ⟨rfl, h.desk, rfl, fun _ _ => .of_cell_eq rfl rfl⟩)
    · exact Or.inl ⟨leg1, leg2, t, p, rfl, hsig, h₁, h₂, rfl⟩
  | resume i r t =>
    obtain ⟨p, d, pc, hp, hresume, hm, rfl⟩ := step_resume_cases h hs hk
    exact Or.inr (Or.inl ⟨i, p, r, t, pc, rfl, hp, hresume, hm, rfl⟩)
  | act n a tMs =>
    obtain ⟨d, hd, rfl⟩ := Option.map_eq_some_iff.mp hs
    obtain ⟨-, -, -, -, he, -, -⟩ := Desk.act_cell hd
    exact Or.inr (Or.inr ⟨rfl, h.desk.act hd, congrArg ExecutionEngine.seq he,
      fun m _ => Desk.act_keeps hd m⟩)
  | deliver n =>
    obtain ⟨d, hd, rfl⟩ := Option.map_eq_some_iff.mp hs
    obtain ⟨hseq, hdesk⟩ := h.desk.deliver h.keys hd
    exact Or.inr (Or.inr ⟨rfl, hdesk, hseq, fun m hm => Desk.deliver_keeps h.desk h.keys hd hm⟩)
  | refuse n nowNs =>
    obtain ⟨d, hd, rfl⟩ := Option.map_eq_some_iff.mp hs
    obtain ⟨hseq, hdesk⟩ := h.desk.refuse h.keys hd
    exact Or.inr (Or.inr ⟨rfl, hdesk, hseq, fun m hm => Desk.refuse_keeps h.desk h.keys hd hm⟩)
  | sweep maxAge steadyNs =>
    cases hs
    exact Or.inr (Or.inr ⟨rfl, h.desk.of_eq rfl rfl rfl rfl, rfl, fun _ _ => .of_cell_eq rfl rfl⟩)
  | forceHalt =>
    cases hs
    exact Or.inr (Or.inr ⟨rfl, h.desk.of_eq rfl rfl rfl rfl, rfl, fun _ _ => .of_cell_eq rfl rfl⟩)
  | resetHalt =>
    cases hs
    exact Or.inr (Or.inr ⟨rfl, h.desk.of_eq rfl rfl rfl rfl, rfl, fun _ _ => .of_cell_eq rfl rfl⟩)
  | checkDrawdown x limit =>
    cases hs
    exact Or.inr (Or.inr ⟨rfl, h.desk.of_eq rfl rfl rfl rfl, rfl, fun _ _ => .of_cell_eq rfl rfl⟩)

theorem Apart.step (h : Apart w) {e : EngineEvent K} (hs : w.step e = some w')
    (hk : KeysDistinct w'.desk.engine.seq) : Apart w' := by
  obtain ⟨d', pairs'⟩ := w'
  rcases h.step_cases hs hk with ⟨leg1, leg2, t, p, -, hsig, -, -, hpairs⟩ |
    ⟨i, p, r, t, pc, -, hp, -, hm, hpairs⟩ | ⟨hpairs, hdesk, hseq, -⟩
  · cases hpairs
    exact h.concat hsig hk
  · cases hpairs
    exact h.set hp hm hk
  · cases hpairs
    exact h.of_desk hdesk hseq

/-- What has become of a pair: it is new, it has gone on, or its orders are where they
were. -/
theorem Apart.pair_cases (h : Apart w) {e : EngineEvent K} (hs : w.step e = some w')
    (hk : KeysDistinct w'.desk.engine.seq) {i : Nat} {q : PairTask K}
    (hq : w'.pairs[i]? = some q) :
    (∃ leg1 leg2 t, e = .signal leg1 leg2 t ∧ i = w.pairs.length ∧
      Desk.Signaled w.desk w'.desk q ∧ q.leg1 = leg1 ∧ q.leg2 = leg2) ∨
    (∃ p r t pc, e = .resume i r t ∧ w.pairs[i]? = some p ∧
      w.desk.resume p r t = some (w'.desk, pc) ∧ q = { p with pc := pc }) ∨
    (w.pairs[i]? = some q ∧ ∀ n ∈ q.orders, Desk.Keeps w.desk w'.desk n) := by
  rcases h.step_cases hs hk with ⟨leg1, leg2, t, p, he, hsig, h₁, h₂, hpairs⟩ |
    ⟨j, p, r, t, pc, he, hp, hresume, hm, hpairs⟩ | ⟨hpairs, -, -, hkeep⟩
  · rw [hpairs] at hq
    rcases getElem?_concat_cases hq with hq | ⟨hi, rfl⟩
    · refine Or.inr (Or.inr ⟨hq, fun n hn => ?_⟩)
      exact .of_cell_eq (hsig.frame.cell n ((h.wired i q hq).lt n hn) List.not_mem_nil)
        hsig.frame.orderId
    · exact Or.inl ⟨leg1, leg2, t, he, hi, hsig, h₁, h₂⟩
  · rw [hpairs] at hq
    rcases getElem?_set_cases hq with ⟨rfl, rfl⟩ | ⟨hne, hq⟩
    · exact Or.inr (Or.inl ⟨p, r, t, pc, he, hp, hresume, rfl⟩)
    · refine Or.inr (Or.inr ⟨hq, fun n hn => ?_⟩)
      exact .of_cell_eq (hm.frame.cell n ((h.wired i q hq).lt n hn)
        (h.apart i j q p hq hp hne hn)) hm.frame.orderId
  · rw [hpairs] at hq
    exact Or.inr (Or.inr ⟨hq, fun n hn => hkeep n ((h.wired i q hq).lt n hn)⟩)

/-- What every step keeps. -/
theorem Ok.step (h : Ok S w) {e : EngineEvent K} (hok : StepOk S w e)
    (hs : w.step e = some w') : Ok S w' := by
  have hk := hok.fresh.keys hs
  refine ⟨h.toApart.step hs hk, fun i q hi hq => ?_⟩
  rcases h.pair_cases hs hk hq with ⟨leg1, leg2, t, rfl, rfl, hsig, h₁, h₂⟩ |
    ⟨p, r, t, pc, rfl, hp, hresume, rfl⟩ | ⟨hq, hkeep⟩
  · exact hsig.pair (h₁ ▸ h₂ ▸ hok.positive hi)
  · have hack := hok.ack hi
    rw [hp] at hack
    exact (Desk.resume_resumed h.desk (h.wired i p hp) (h.pairs i p hi hp) hack hresume h.keys
      hk).pair
  · exact (h.pairs i q hi hq).keeps hkeep

/-- What every run keeps. -/
theorem Ok.run {w₀ : World K} (h : Ok S w₀) {es : List (EngineEvent K)}
    (hok : Machine.RunOk World.step (StepOk S) w₀ es)
    (hrun : Machine.run World.step w₀ es = some w) : Ok S w :=
  Machine.run_inv (fun _ _ _ h hok hs => h.step hok hs) h hok hrun

end World
end HoloMarket
