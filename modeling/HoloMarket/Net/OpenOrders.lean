import HoloMarket.Net.CallEffects
import HoloMarket.Net.Registry

/-!
# OpenOrders: what a step leaves of each order

Whatever happens, an order that is registered and not released is updated, or it
keeps its record and at most has messages taken; or it is new.  What is charged
is charged for an order that the same step releases.
-/

namespace HoloMarket

variable {K : Type*} [Field K] [LinearOrder K]

namespace Desk

/-- The order `n` keeps its record; messages of its channel may be taken. -/
structure Spares (d d' : Desk K) (n : Nat) : Prop where
  record : d'.engine.oms.get (orderKey n) = d.engine.oms.get (orderKey n)
  chan : d'.engine.chans n <:+ d.engine.chans n

/-- The order `n` is registered, and there is no message of it. -/
structure New (d : Desk K) (n : Nat) : Prop where
  record : ∃ (leg : ArbLeg K) (price : K) (t : Clock), d.engine.oms.get (orderKey n) =
    some (OrderRecord.fresh (clientId n) leg.symbol leg.side price leg.qty t)
  chan : d.engine.chans n = []

section
variable {d d' : Desk K} {cs : List (PairCall K)} {k : UInt64}

omit [Field K] [LinearOrder K] in
theorem Waited.spares (h : Waited d d') (n : Nat) : Spares d d' n :=
  ⟨by rw [h.oms], h.chans n⟩

omit [LinearOrder K] in
/-- Calls that neither release nor hedge under a key leave its record. -/
theorem foldl_onRecords_of_ne (t : Clock) (s : UInt64 → Option (OrderRecord K))
    (hr : ∀ n, PairCall.release n ∈ cs → k ≠ orderKey n)
    (hh : ∀ n leg, PairCall.hedge n leg ∈ cs → k ≠ orderKey n) :
    cs.foldl (PairCall.onRecords t) s k = s k := by
  induction cs generalizing s with
  | nil => rfl
  | cons c cs ih =>
    have hnext : (PairCall.onRecords t s c) k = s k := by
      cases c with
      | settled | book => rfl
      | release n => exact Function.update_of_ne (hr n List.mem_cons_self) ..
      | hedge n leg => exact Function.update_of_ne (hh n leg List.mem_cons_self) ..
    rw [List.foldl_cons, ih _ (fun n hn => hr n (List.mem_cons_of_mem c hn))
      fun n leg hn => hh n leg (List.mem_cons_of_mem c hn)]
    exact hnext

end

end Desk

theorem Desk.DistinctKeys.ne_of_append {l l' : List Nat} (h : Desk.DistinctKeys (l ++ l'))
    {m n : Nat} (hn : n ∈ l) (hm : m ∈ l') : orderKey m ≠ orderKey n := by
  unfold Desk.DistinctKeys at h
  rw [List.map_append, List.nodup_append] at h
  exact (h.2.2 _ (List.mem_map_of_mem hn) _ (List.mem_map_of_mem hm)).symm

/-! ## A step of the engine -/

namespace World

variable {w w' : World K}

/-- The calls of the pair `i` in a step. -/
def pairCalls (i : Nat) (w : World K) : DeskEvent K → List (PairCall K)
  | .engine (.resume j x _) =>
    if j = i then (w.pairs[i]?).elim [] fun p => w.desk.calls p x else []
  | _ => []

theorem pairCalls_resume {i : Nat} {p : PairTask K} (x : Resumption) (t : Clock)
    (hp : w.pairs[i]? = some p) :
    w.pairCalls i (.engine (.resume i x t)) = w.desk.calls p x := by
  unfold pairCalls
  dsimp only
  rw [if_pos rfl, hp]
  rfl

/-- What a step is: an update, a change of nothing that a pair relies on, a new
pair, or a resumption. -/
theorem deskStep_forms {e : DeskEvent K} (hs : w.deskStep e = some w') :
    ((∃ key u, w'.desk.engine = w.desk.engine.applyUpdate key u) ∧ w'.pairs = w.pairs ∧
      ∀ i, w.pairCalls i e = []) ∨
    (Desk.Waited w.desk w'.desk ∧ w'.pairs = w.pairs ∧ ∀ i, w.pairCalls i e = []) ∨
    (∃ leg1 leg2 t, w' = ⟨(w.desk.openPair leg1 leg2 t).sendLeg
        (w.desk.signalTask leg1 leg2 t) .leg1, w.pairs ++ [w.desk.signalTask leg1 leg2 t]⟩ ∧
      ∀ i, w.pairCalls i e = []) ∨
    ∃ j p x t d pc, e = .engine (.resume j x t) ∧ w.pairs[j]? = some p ∧
      w.desk.resume p x t = some (d, pc) ∧
      w' = { desk := d, pairs := w.pairs.set j { p with pc := pc } } := by
  cases e with
  | update key u =>
    cases hs
    exact Or.inl ⟨⟨key, u, rfl⟩, rfl, fun _ => rfl⟩
  | engine e =>
    cases e with
    | signal leg1 leg2 t =>
      rcases step_signal hs with ⟨-, rfl⟩ | ⟨-, rfl⟩
      · exact Or.inr (Or.inl ⟨.refl _, rfl, fun _ => rfl⟩)
      · exact Or.inr (Or.inr (Or.inl ⟨leg1, leg2, t, rfl, fun _ => rfl⟩))
    | resume j x t =>
      obtain ⟨p, hp, hs⟩ := Option.bind_eq_some_iff.mp hs
      obtain ⟨⟨d, pc⟩, hresume, rfl⟩ := Option.map_eq_some_iff.mp hs
      exact Or.inr (Or.inr (Or.inr ⟨j, p, x, t, d, pc, rfl, hp, hresume, rfl⟩))
    | act n a tMs =>
      obtain ⟨d, hd, rfl⟩ := Option.map_eq_some_iff.mp hs
      obtain ⟨-, -, -, -, he, -, -⟩ := Desk.act_cell hd
      refine Or.inr (Or.inl ⟨?_, rfl, fun _ => rfl⟩)
      exact ⟨by rw [he], by rw [he], by rw [he], by rw [he], by rw [he], by rw [he],
        fun c => by rw [he]⟩
    | deliver n =>
      obtain ⟨d, hd, rfl⟩ := Option.map_eq_some_iff.mp hs
      obtain ⟨v, -, hd⟩ := Option.bind_eq_some_iff.mp hd
      obtain ⟨o, -, rfl⟩ := Option.map_eq_some_iff.mp hd
      cases ho : o.read with
      | none =>
        have heng : w.desk.engine.handleOrderTradeUpdate o = w.desk.engine := by
          unfold ExecutionEngine.handleOrderTradeUpdate
          rw [ho]
        refine Or.inr (Or.inl ⟨?_, rfl, fun _ => rfl⟩)
        exact ⟨congrArg _ heng, congrArg _ heng, congrArg _ heng, congrArg _ heng,
          congrArg _ heng, congrArg _ heng, fun c => by
            show (w.desk.engine.handleOrderTradeUpdate o).chans c <:+ _
            rw [heng]⟩
      | some q =>
        refine Or.inl ⟨⟨fnv1a64 q.1, q.2, ?_⟩, rfl, fun _ => rfl⟩
        show w.desk.engine.handleOrderTradeUpdate o = _
        unfold ExecutionEngine.handleOrderTradeUpdate
        rw [ho]
    | refuse n nowNs =>
      obtain ⟨d, hd, rfl⟩ := Option.map_eq_some_iff.mp hs
      obtain ⟨v, -, hd⟩ := Option.bind_eq_some_iff.mp hd
      split_ifs at hd
      cases hd
      exact Or.inl ⟨⟨_, _, rfl⟩, rfl, fun _ => rfl⟩
    | sweep maxAge steadyNs =>
      cases hs
      exact Or.inr (Or.inl ⟨⟨rfl, rfl, rfl, rfl, rfl, rfl, fun _ => List.suffix_rfl⟩, rfl,
        fun _ => rfl⟩)
    | forceHalt =>
      cases hs
      exact Or.inr (Or.inl ⟨⟨rfl, rfl, rfl, rfl, rfl, rfl, fun _ => List.suffix_rfl⟩, rfl,
        fun _ => rfl⟩)
    | resetHalt =>
      cases hs
      exact Or.inr (Or.inl ⟨⟨rfl, rfl, rfl, rfl, rfl, rfl, fun _ => List.suffix_rfl⟩, rfl,
        fun _ => rfl⟩)
    | checkDrawdown x limit =>
      cases hs
      exact Or.inr (Or.inl ⟨⟨rfl, rfl, rfl, rfl, rfl, rfl, fun _ => List.suffix_rfl⟩, rfl,
        fun _ => rfl⟩)

/-! ## What a step leaves -/

/-- The orders of the two maps have numbers that have been given out; a channel
beyond them is empty. -/
structure Numbered (w : World K) : Prop where
  listed : w.Listed
  lt : ∀ n ∈ w.live, n < w.desk.engine.seq
  future : ∀ n, w.desk.engine.seq ≤ n → w.desk.engine.chans n = []

omit [Field K] [LinearOrder K] in
theorem Listed.waiter (h : w.Listed) {k : UInt64} {c : Nat}
    (hw : w.desk.engine.waiters.lookup k = some c) : c ∈ w.live ∧ orderKey c = k := by
  obtain ⟨n, hn, rfl⟩ : ∃ n ∈ w.live, orderKey n = k := by
    by_contra hno
    have hentry := congrArg Prod.snd (h.registry.others k fun n hn he => hno ⟨n, hn, he⟩)
    replace hentry : w.desk.engine.waiters.lookup k = none := hentry
    rw [hw] at hentry
    cases hentry
  have htracked : w.desk.engine.waiters.lookup (orderKey n) = some n :=
    congrArg Prod.snd (h.registry.tracked n hn)
  rw [hw] at htracked
  cases htracked
  exact ⟨hn, rfl⟩

/-- The legs of the pair are the orders registered last, for their own quantities. -/
structure NewPair (w w' : World K) (p : PairTask K) : Prop where
  pc : p.pc = .sendingLeg1
  ids : p.id1 = w.desk.engine.seq ∧ p.id2 = w.desk.engine.seq + 1
  record : ∀ x, ∃ (price : K) (t : Clock), w'.desk.engine.oms.get (orderKey (p.id x)) =
    some (OrderRecord.fresh (clientId (p.id x)) (p.leg x).symbol (p.leg x).side price
      (p.leg x).qty t)

/-- Every order that is left is as it was, but for messages taken, or it is new; what
is charged is charged for an order that goes. -/
structure Advances (w w' : World K) : Prop where
  seq : w.desk.engine.seq ≤ w'.desk.engine.seq
  pairs : ∀ (i : Nat) (p : PairTask K), w'.pairs[i]? = some p → w.pairs[i]? = none →
    NewPair w w' p
  orders : ∀ n ∈ w'.live, n ∈ w.live ∧ Desk.Spares w.desk w'.desk n ∨
    w.desk.engine.seq ≤ n ∧ n < w'.desk.engine.seq ∧ w'.desk.New n
  future : ∀ n, w'.desk.engine.seq ≤ n → w'.desk.engine.chans n = []
  filled : ∀ x, w'.desk.engine.lastFilled.lookup x = w.desk.engine.lastFilled.lookup x ∨
    ∃ n ∈ w.live, n ∉ w'.live ∧ ∃ rec, w.desk.Learned n n rec ∧ x = rec.exchangeOrderId ∧
      w'.desk.engine.lastFilled.lookup x = some rec.filledQty

omit [LinearOrder K] in
theorem Numbered.waited (h : w.Numbered) (hw : Desk.Waited w.desk w'.desk)
    (hlen : w'.pairs.length = w.pairs.length) (hl : w'.live.Perm w.live) : Advances w w' where
  seq := hw.seq.ge
  pairs i p hp hno := absurd (hlen ▸ (List.getElem?_eq_some_iff.mp hp).1)
    (not_lt.mpr (List.getElem?_eq_none_iff.mp hno))
  orders n hn := Or.inl ⟨hl.mem_iff.mp hn, hw.spares n⟩
  future n hn := List.eq_nil_of_suffix_nil (h.future n (hw.seq ▸ hn) ▸ hw.chans n)
  filled x := Or.inl (by rw [hw.filled])

/-- A new pair: no order before it has the key of either leg. -/
theorem Numbered.opened (h : w.Numbered) {leg1 leg2 : ArbLeg K} {t : Clock}
    (hdesk : w'.desk.engine = (w.desk.openPair leg1 leg2 t).engine)
    (hpairs : w'.pairs = w.pairs ++ [w.desk.signalTask leg1 leg2 t])
    (hk : Desk.DistinctKeys w'.live) : Advances w w' := by
  have hl : w'.live.Perm ((w.desk.engine.seq + 1) :: w.desk.engine.seq :: w.live) :=
    live_append hpairs rfl
  have hrec := w.desk.openPair_records t leg1 leg2
  have hseq := w.desk.openPair_seq leg1 leg2 t
  have hfilled := (Prod.mk.inj (w.desk.openPair_accounts leg1 leg2 t)).2
  have hchans := w.desk.openPair_chans t leg1 leg2
  rw [← hdesk] at hrec hseq hfilled hchans
  obtain ⟨hne₂, hkeys⟩ := Desk.distinctKeys_cons.mp (hk.perm hl)
  obtain ⟨hne₁, -⟩ := Desk.distinctKeys_cons.mp hkeys
  have hfree : ∀ c, ∀ m ∈ [w.desk.engine.seq, w.desk.engine.seq + 1],
      w.desk.engine.waiters.lookup (orderKey m) ≠ some c := by
    intro c m hm hw
    obtain ⟨hc, hkey⟩ := h.listed.waiter hw
    rcases List.mem_pair.mp hm with rfl | rfl
    · exact hne₁ c hc hkey
    · exact hne₂ c (List.mem_cons_of_mem _ hc) hkey
  have hnew : ∀ m ∈ [w.desk.engine.seq, w.desk.engine.seq + 1],
      w'.desk.engine.chans m = [] := by
    intro m hm
    have hge : w.desk.engine.seq ≤ m := by
      simp only [List.mem_cons, List.not_mem_nil, or_false] at hm
      omega
    rcases hchans m with he | ⟨-, he⟩ | he | he
    · rw [he]
      exact h.future m hge
    · exact he
    · exact absurd he (hfree m _ (by simp))
    · exact absurd he (hfree m _ (by simp))
  have hrec₁ := congrFun hrec (orderKey w.desk.engine.seq)
  have hrec₂ := congrFun hrec (orderKey (w.desk.engine.seq + 1))
  rw [Function.update_of_ne (hne₂ _ List.mem_cons_self), Function.update_self] at hrec₁
  rw [Function.update_self] at hrec₂
  refine ⟨by omega, fun i p hp hno => ?_, fun n hn => ?_, fun n hn => ?_,
    fun x => Or.inl (by rw [hfilled])⟩
  · rw [hpairs] at hp
    rcases getElem?_concat_cases hp with hp | ⟨-, rfl⟩
    · rw [hno] at hp
      cases hp
    · refine ⟨rfl, ⟨rfl, rfl⟩, fun x => ?_⟩
      cases x with
      | leg1 => exact ⟨_, _, hrec₁⟩
      | leg2 => exact ⟨_, _, hrec₂⟩
  · rcases List.mem_cons.mp (hl.mem_iff.mp hn) with rfl | hn
    · exact Or.inr ⟨by omega, by omega, ⟨leg2, leg2.price, t, hrec₂⟩, hnew _ (by simp)⟩
    · rcases List.mem_cons.mp hn with rfl | hn
      · exact Or.inr ⟨le_rfl, by omega, ⟨leg1, leg1.price, t, hrec₁⟩, hnew _ (by simp)⟩
      · refine Or.inl ⟨hn, ?_, ?_⟩
        · rw [hrec, Function.update_of_ne (hne₂ n (List.mem_cons_of_mem _ hn)),
            Function.update_of_ne (hne₁ n hn)]
        · have hlt := h.lt n hn
          rcases hchans n with he | ⟨hc, -⟩ | he | he
          · rw [he]
          · omega
          · exact absurd he (hfree n _ (by simp))
          · exact absurd he (hfree n _ (by simp))
  · rcases hchans n with he | ⟨-, he⟩ | he | he
    · rw [he]
      exact h.future n (by omega)
    · exact he
    · exact absurd he (hfree n _ (by simp))
    · exact absurd he (hfree n _ (by simp))

/-- An order of a pair is released, and perhaps a hedge sent. -/
theorem Numbered.retired (h : w.Numbered) {j n : Nat} {p : PairTask K} {pc : PairPc} {t : Clock}
    {cs : List (PairCall K)} {rec : OrderRecord K} (hp : w.pairs[j]? = some p)
    (hr : Desk.Retires w.desk w'.desk p pc t cs n rec)
    (hset : w'.pairs = w.pairs.set j { p with pc := pc }) (hk : Desk.DistinctKeys w'.live) :
    Advances w w' := by
  obtain ⟨rest, hold, hnew⟩ := live_perm hp
  obtain ⟨stay, hstay, hafter⟩ := hr.stays
  -- the orders before and after, with the one that goes and the hedge apart
  have hold' : w.live.Perm (n :: (stay ++ rest)) := by
    refine hold.trans ?_
    rw [PairTask.unreleased_eq]
    exact hstay.append_right rest
  have hnew' : ∀ m ∈ w'.live, m ∈ stay ++ rest ∨ ∃ leg, PairCall.hedge m leg ∈ cs := by
    intro m hm
    have hmem := (hnew w' pc hset).mem_iff.mp hm
    rw [PairTask.unreleased_eq, hafter, List.append_assoc] at hmem
    rcases List.mem_append.mp hmem with hmem | hmem
    · exact Or.inl (List.mem_append_left _ hmem)
    · rcases List.mem_append.mp hmem with hmem | hmem
      · obtain ⟨⟨k, leg⟩, hh, rfl⟩ := List.mem_map.mp hmem
        exact Or.inr ⟨leg, PairCall.mem_hedged.mpr hh⟩
      · exact Or.inl (List.mem_append_right _ hmem)
  have hstays : ∀ m ∈ stay ++ rest, m ∈ w.live := fun m hm =>
    hold'.mem_iff.mpr (List.mem_cons_of_mem n hm)
  have hleft : ∀ m ∈ stay ++ rest, orderKey m ≠ orderKey n :=
    (Desk.distinctKeys_cons.mp (h.listed.keys.perm hold')).1
  have hhedge : ∀ m ∈ stay ++ rest, ∀ k leg, PairCall.hedge k leg ∈ cs →
      orderKey m ≠ orderKey k := by
    intro m hm k leg hh
    have hperm := hnew w' pc hset
    rw [PairTask.unreleased_eq, hafter, List.append_assoc] at hperm
    have hkeys := hk.perm (hperm.trans (List.perm_append_comm_assoc ..))
    have hmap : k ∈ (cs.filterMap PairCall.hedged).map Prod.fst :=
      List.mem_map.mpr ⟨(k, leg), PairCall.mem_hedged.mp hh, rfl⟩
    exact hkeys.ne_of_append hmap hm
  have hlt := h.lt n (hold'.mem_iff.mpr List.mem_cons_self)
  have hgone : n ∉ w'.live := by
    intro hn
    rcases hnew' n hn with hn | ⟨leg, hh⟩
    · exact hleft n hn rfl
    · have hseq := (hr.makes.sent n leg hh).1
      omega
  -- a hedge whose key was in use would have taken the place of an order that stays
  have hchan : ∀ m ∈ stay ++ rest, w'.desk.engine.chans m <:+ w.desk.engine.chans m := by
    intro m hm
    rcases hr.makes.chans m with hc | ⟨k, leg, hh, ⟨rfl, -⟩ | hw⟩
    · exact hc
    · exact absurd rfl (hhedge m hm m leg hh)
    · exact absurd (h.listed.waiter hw).2 (hhedge m hm k leg hh)
  have hchanNew : ∀ m, w.desk.engine.seq ≤ m → w'.desk.engine.chans m = [] := by
    intro m hm
    rcases hr.makes.chans m with hc | ⟨k, leg, hh, ⟨rfl, hc⟩ | hw⟩
    · exact List.eq_nil_of_suffix_nil (h.future m hm ▸ hc)
    · exact hc
    · have hmlt := h.lt m (h.listed.waiter hw).1
      omega
  refine ⟨hr.makes.seq, fun i q hq hno => ?_, fun m hm => ?_,
    fun m hm => hchanNew m (hr.makes.seq.trans hm), fun x => ?_⟩
  · have hlen := (List.getElem?_eq_some_iff.mp hq).1
    rw [hset, List.length_set] at hlen
    exact absurd hlen (not_lt.mpr (List.getElem?_eq_none_iff.mp hno))
  · rcases hnew' m hm with hm | ⟨leg, hh⟩
    · refine Or.inl ⟨hstays m hm, ?_, hchan m hm⟩
      rw [hr.makes.records]
      refine Desk.foldl_onRecords_of_ne t _ (fun k hk => ?_) fun k leg hh => hhedge m hm k leg hh
      have hrel := PairCall.mem_released hk
      rw [hr.released] at hrel
      rw [List.mem_singleton.mp hrel]
      exact hleft m hm
    · obtain ⟨rfl, hseq, hrec, -⟩ := hr.makes.sent m leg hh
      exact Or.inr ⟨le_rfl, by omega, ⟨leg, 0, t, hrec⟩, hchanNew _ le_rfl⟩
  · rcases hr.makes.filled x with he | ⟨hx, he⟩
    · exact Or.inl he
    · exact Or.inr ⟨n, hold'.mem_iff.mpr List.mem_cons_self, hgone, rec, hr.learned, hx, he⟩

omit [Field K] [LinearOrder K] in
theorem Listed.chan (h : w.Listed) {i : Nat} {p : PairTask K} (hp : w.pairs[i]? = some p)
    (x : LegIx) : p.chan x = p.id x := by
  obtain ⟨hc₁, hc₂, -⟩ := h.chans p (List.mem_of_getElem? hp)
  cases x with
  | leg1 => exact hc₁
  | leg2 => exact hc₂

theorem LiveKeys.keys {e : DeskEvent K} (h : w.LiveKeys e) (hs : w.deskStep e = some w') :
    Desk.DistinctKeys w'.live := by
  unfold LiveKeys at h
  rwa [hs] at h

/-- Every step is an update, or it advances the orders: no pair goes on, and there may
be a new one, or one pair is resumed. -/
theorem Numbered.forms (h : w.Numbered) {e : DeskEvent K} (hk : w.LiveKeys e)
    (hs : w.deskStep e = some w') :
    ((∃ key u, w'.desk.engine = w.desk.engine.applyUpdate key u) ∧ w'.pairs = w.pairs ∧
      ∀ i, w.pairCalls i e = []) ∨
    Advances w w' ∧ (((∃ l, w'.pairs = w.pairs ++ l) ∧ ∀ i, w.pairCalls i e = []) ∨
      ∃ j p x t d pc, e = .engine (.resume j x t) ∧ w.pairs[j]? = some p ∧
        w.desk.resume p x t = some (d, pc) ∧
        w' = { desk := d, pairs := w.pairs.set j { p with pc := pc } }) := by
  have hkeys := hk.keys hs
  rcases deskStep_forms hs with hu | ⟨hw, hp, hc⟩ | ⟨leg1, leg2, t, rfl, hc⟩ |
    ⟨j, p, x, t, d, pc, he, hp, hresume, rfl⟩
  · exact Or.inl hu
  · exact Or.inr ⟨h.waited hw (congrArg List.length hp) (live_congr hp ▸ .refl _),
      Or.inl ⟨⟨[], hp.trans (List.append_nil _).symm⟩, hc⟩⟩
  · have hengine :=
      (w.desk.openPair leg1 leg2 t).sendLeg_engine (w.desk.signalTask leg1 leg2 t) .leg1
    exact Or.inr ⟨h.opened hengine rfl hkeys, Or.inl ⟨⟨_, rfl⟩, hc⟩⟩
  · refine Or.inr ⟨?_, Or.inr ⟨j, p, x, t, d, pc, he, hp, hresume, rfl⟩⟩
    have hwired := (h.listed.chans p (List.mem_of_getElem? hp)).2.2
    rcases (Desk.resume_goes hresume).retires (h.listed.chan hp) hwired with
      ⟨-, hw, hphase⟩ | ⟨n, rec, hr⟩
    · refine h.waited hw List.length_set ?_
      obtain ⟨rest, hold, hnew⟩ := live_perm hp
      refine (hnew _ pc rfl).trans ?_
      rw [PairTask.unreleased_eq, hphase, ← PairTask.unreleased_eq]
      exact hold.symm
    · exact h.retired hp hr rfl hkeys

theorem Numbered.cases (h : w.Numbered) {e : DeskEvent K} (hk : w.LiveKeys e)
    (hs : w.deskStep e = some w') :
    (∃ key u, w'.desk.engine = w.desk.engine.applyUpdate key u) ∧ w'.pairs = w.pairs ∨
      Advances w w' :=
  (h.forms hk hs).imp (fun hu => ⟨hu.1, hu.2.1⟩) fun ha => ha.1

/-- An update reaches the channel of its own order and no other. -/
theorem Listed.updated (h : w.Listed) (key : UInt64) (u : UpdateArgs K) (c : Nat) :
    (w.desk.engine.applyUpdate key u).chans c = w.desk.engine.chans c ∨
      c ∈ w.live ∧ ∃ r, w.desk.engine.oms.get (orderKey c) = some r ∧ orderKey c = key ∧
        (w.desk.engine.applyUpdate key u).chans c = w.desk.engine.chans c ++ [u.applyTo r] := by
  by_cases hkey : ∃ n ∈ w.live, orderKey n = key
  · obtain ⟨n, hn, rfl⟩ := hkey
    have htracked := h.registry.tracked n hn
    have hown : ∀ r, w.desk.engine.oms.get (orderKey n) = some r → ∀ c',
        w.desk.engine.waiters.lookup (fnv1a64 r.clientOrderId) = some c' → c' = n := by
      intro r hr c' hc'
      have hcid : some r.clientOrderId = some (clientId n) :=
        (congrArg (Option.map OrderRecord.clientOrderId) hr).symm.trans (congrArg Prod.fst htracked)
      have hw : w.desk.engine.waiters.lookup (orderKey n) = some n := congrArg Prod.snd htracked
      rw [Option.some.inj hcid] at hc'
      exact Option.some.inj (hc'.symm.trans hw)
    obtain ⟨hothers, hc⟩ := ExecutionEngine.applyUpdate_chans w.desk.engine (orderKey n) u hown
    by_cases hcn : c = n
    · subst hcn
      rcases hc with hc | ⟨r, hr, hc⟩
      · exact Or.inl hc
      · exact Or.inr ⟨hn, r, hr, rfl, hc⟩
    · exact Or.inl (hothers c hcn)
  · have hentry := congrArg Prod.fst (h.registry.others key fun n hn he => hkey ⟨n, hn, he⟩)
    replace hentry : (w.desk.engine.oms.get key).map _ = none := hentry
    rw [Option.map_eq_none_iff] at hentry
    have hnone : ∀ r, w.desk.engine.oms.get key = some r → ∀ c',
        w.desk.engine.waiters.lookup (fnv1a64 r.clientOrderId) = some c' → c' = c := by
      intro r hr
      rw [hentry] at hr
      cases hr
    rcases (ExecutionEngine.applyUpdate_chans w.desk.engine key u hnone).2 with hc | ⟨r, hr, -⟩
    · exact Or.inl hc
    · rw [hentry] at hr
      cases hr

omit [LinearOrder K] in
theorem init_numbered (maxOpenOrders : Nat) (orderId : Nat → Int) :
    (init maxOpenOrders orderId : World K).Numbered where
  listed := init_listed maxOpenOrders orderId
  lt _ hn := absurd hn List.not_mem_nil
  future _ _ := rfl

theorem Numbered.step (h : w.Numbered) {e : DeskEvent K} (hk : w.LiveKeys e)
    (hs : w.deskStep e = some w') : w'.Numbered := by
  refine ⟨h.listed.step hk hs, fun n hn => ?_, fun n hn => ?_⟩
  · rcases h.cases hk hs with ⟨⟨key, u, he⟩, hp⟩ | hadv
    · rw [he, ExecutionEngine.applyUpdate_seq]
      exact h.lt n (live_congr hp ▸ hn)
    · rcases hadv.orders n hn with ⟨hold, -⟩ | ⟨-, hlt, -⟩
      · exact (h.lt n hold).trans_le hadv.seq
      · exact hlt
  · rcases h.cases hk hs with ⟨⟨key, u, he⟩, -⟩ | hadv
    · rw [he, ExecutionEngine.applyUpdate_seq] at hn
      rw [he]
      rcases h.listed.updated key u n with hc | ⟨hlive, -⟩
      · rw [hc]
        exact h.future n hn
      · have hlt := h.lt n hlive
        omega
    · exact hadv.future n hn

end World
end HoloMarket
