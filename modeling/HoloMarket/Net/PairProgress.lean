import Mathlib.Algebra.BigOperators.Group.Finset.Basic
import Mathlib.Algebra.Order.BigOperators.Group.Finset
import HoloMarket.Lib.RunBounds
import HoloMarket.Net.CallEffects
import HoloMarket.Net.RequestLog

/-!
# PairProgress: the pairs come to rest

A resumption takes a message out of a channel or leaves a suspension point for a later
one.  The points that are ahead and the messages that wait bound the resumptions of
every run, and a pair that cannot be resumed is over or waits for a message.
-/

namespace HoloMarket

open Finset

variable {K : Type*}

namespace ExecutionEngine

/-- The messages that wait in the channels. -/
def buffered (eng : ExecutionEngine K) : Nat := ∑ c ∈ range eng.seq, (eng.chans c).length

/-- The channels are named by numbers that have been given out. -/
structure Wires (eng : ExecutionEngine K) : Prop where
  waiters : ∀ x ∈ eng.waiters.entries, x.2 < eng.seq
  unused : ∀ c, eng.seq ≤ c → eng.chans c = []

/-- At most `k` messages come in. -/
def Receives (k : Nat) (eng eng' : ExecutionEngine K) : Prop :=
  eng.Wires → eng'.Wires ∧ eng'.buffered ≤ eng.buffered + k

variable {eng eng' eng₁ : ExecutionEngine K} {k l : Nat}

theorem Receives.trans (h : Receives k eng eng₁) (h' : Receives l eng₁ eng') :
    Receives (k + l) eng eng' := by
  intro hw
  obtain ⟨hw₁, hle₁⟩ := h hw
  obtain ⟨hw', hle⟩ := h' hw₁
  exact ⟨hw', by omega⟩

theorem receives_of_suffix (hseq : eng'.seq = eng.seq)
    (hwaiters : eng'.waiters.entries ⊆ eng.waiters.entries)
    (hchans : ∀ c, eng'.chans c <:+ eng.chans c) : Receives 0 eng eng' := by
  intro hw
  refine ⟨⟨fun x hx => ?_, fun c hc => ?_⟩, ?_⟩
  · rw [hseq]
    exact hw.waiters x (hwaiters hx)
  · have hsuffix := hchans c
    rw [hw.unused c (hseq ▸ hc)] at hsuffix
    exact List.suffix_nil.mp hsuffix
  · unfold buffered
    rw [hseq]
    exact sum_le_sum fun c _ => (hchans c).length_le

theorem receives_dispatchUpdate (eng : ExecutionEngine K) (r : OrderRecord K) :
    Receives 1 eng (eng.dispatchUpdate r) := by
  intro hw
  have hseq := eng.dispatchUpdate_seq r
  have hwaiters : ∀ x ∈ (eng.dispatchUpdate r).waiters.entries,
      x.2 < (eng.dispatchUpdate r).seq := by
    rw [eng.dispatchUpdate_waiters, hseq]
    exact hw.waiters
  cases hlook : eng.waiters.lookup (fnv1a64 r.clientOrderId) with
  | none =>
    have hchans := eng.dispatchUpdate_chans_none r hlook
    unfold buffered
    rw [hchans, hseq]
    refine ⟨⟨hwaiters, ?_⟩, Nat.le_succ _⟩
    rw [hchans, hseq]
    exact hw.unused
  | some k =>
    obtain ⟨hk, hother⟩ := eng.dispatchUpdate_chans r hlook
    have hlt : k < eng.seq := hw.waiters ⟨_, k⟩ (AList.mem_lookup_iff.mp hlook)
    refine ⟨⟨hwaiters, fun c hc => ?_⟩, ?_⟩
    · rw [hseq] at hc
      rw [hother c (by omega)]
      exact hw.unused c hc
    · have hone : ∀ c, ((eng.dispatchUpdate r).chans c).length ≤
          (eng.chans c).length + if c = k then 1 else 0 := by
        intro c
        by_cases hc : c = k
        · subst hc
          rcases hk with hk | hk <;> simp [hk]
        · rw [hother c hc, if_neg hc]
          omega
      unfold buffered
      rw [hseq]
      calc ∑ c ∈ range eng.seq, ((eng.dispatchUpdate r).chans c).length
          ≤ ∑ c ∈ range eng.seq, ((eng.chans c).length + if c = k then 1 else 0) :=
            sum_le_sum fun c _ => hone c
        _ = ∑ c ∈ range eng.seq, (eng.chans c).length + 1 := by
            rw [sum_add_distrib, sum_ite_eq', if_pos (mem_range.mpr hlt)]

theorem receives_nextClientId (eng : ExecutionEngine K) :
    Receives 0 eng eng.nextClientId.1 := by
  intro hw
  refine ⟨⟨fun x hx => ?_, fun c hc => ?_⟩, ?_⟩
  · exact Nat.lt_succ_of_lt (hw.waiters x hx)
  · exact hw.unused c (by have : eng.seq + 1 ≤ c := hc; omega)
  · show ∑ c ∈ range (eng.seq + 1), (eng.chans c).length ≤ _
    rw [sum_range_succ, hw.unused eng.seq le_rfl]
    exact Nat.le_refl _

theorem receives_getOrCreateWaiter {n : Nat} (hn : n < eng.seq) (key : UInt64) :
    Receives 0 eng (eng.getOrCreateWaiter key n).1 := by
  unfold getOrCreateWaiter
  cases eng.waiters.lookup key with
  | some c => exact fun hw => ⟨hw, le_rfl⟩
  | none =>
    intro hw
    refine ⟨⟨fun x hx => ?_, fun c hc => ?_⟩, sum_le_sum fun c _ => ?_⟩
    · rw [AList.entries_insert] at hx
      rcases List.mem_cons.mp hx with rfl | hx
      · exact hn
      · exact hw.waiters x ((List.kerase_sublist _ _).subset hx)
    · replace hc : eng.seq ≤ c := hc
      show Function.update eng.chans n [] c = []
      rw [Function.update_of_ne (by omega)]
      exact hw.unused c hc
    · show (Function.update eng.chans n [] c).length ≤ _
      by_cases hcn : c = n
      · rw [hcn, Function.update_self]
        exact Nat.zero_le _
      · rw [Function.update_of_ne hcn]

end ExecutionEngine

namespace Desk

open ExecutionEngine

variable {d d' : Desk K}

theorem Still.receives (h : Still d d') : Receives 0 d.engine d'.engine :=
  receives_of_suffix h.seq h.waiters h.chans

theorem receives_takeMsg {c : Nat} {r : OrderRecord K} (h : d.takeMsg c = some (r, d'))
    (hw : d.engine.Wires) : d'.engine.Wires ∧ d'.engine.buffered + 1 = d.engine.buffered := by
  have hwires := ((still_takeMsg h).1.receives hw).1
  obtain ⟨rest, hc, rfl⟩ := takeMsg_eq h
  refine ⟨hwires, ?_⟩
  have hlt : c < d.engine.seq := by
    by_contra hge
    rw [hw.unused c (by omega)] at hc
    cases hc
  show ∑ m ∈ range d.engine.seq, (Function.update d.engine.chans c rest m).length + 1 =
    ∑ m ∈ range d.engine.seq, (d.engine.chans m).length
  have hmem := mem_range.mpr hlt
  rw [← sum_erase_add _ _ hmem, ← sum_erase_add _ _ hmem, Function.update_self, hc,
    List.length_cons, ← add_assoc]
  refine congrArg (· + rest.length + 1) (sum_congr rfl fun m hm => ?_)
  rw [Function.update_of_ne (ne_of_mem_erase hm)]

section
variable [Field K] (leg : ArbLeg K) (price : K) (t : Clock)

theorem receives_register (d : Desk K) (n : Nat) : Receives 1 d.engine
    (d.register n leg.symbol leg.side price leg.qty t).engine :=
  fun hw => receives_dispatchUpdate _ _ ⟨hw.waiters, hw.unused⟩

theorem receives_openOrder (d : Desk K) :
    Receives 1 d.engine (d.openOrder leg price t).engine := by
  have hnext := receives_nextClientId d.engine
  have hreg := receives_register leg price t d.nextClientId.1 d.engine.seq
  refine (hnext.trans hreg).trans (receives_getOrCreateWaiter ?_ _)
  rw [register_seq leg price t]
  exact Nat.lt_succ_self _

theorem receives_openPair (d : Desk K) (leg1 leg2 : ArbLeg K) :
    Receives 2 d.engine (d.openPair leg1 leg2 t).engine := by
  have hclaim : Receives 0 d.engine (d.claimPair leg1 leg2).engine := by
    have h₁ := receives_nextClientId (d.engine.claimInflight leg1 leg2)
    have h₂ := receives_nextClientId (d.engine.claimInflight leg1 leg2).nextClientId.1
    exact fun hw => (h₁.trans h₂) ⟨hw.waiters, hw.unused⟩
  have hreg : Receives 2 (d.claimPair leg1 leg2).engine
      ((d.claimPair leg1 leg2).registerTwo leg1 leg2 d.engine.seq t).engine :=
    (receives_register leg1 leg1.price t _ _).trans (receives_register leg2 leg2.price t _ _)
  have hseq : ((d.claimPair leg1 leg2).registerTwo leg1 leg2 d.engine.seq t).engine.seq =
      d.engine.seq + 2 := by
    rw [registerTwo_seq, claimPair_seq]
  have hopen : Receives 0 ((d.claimPair leg1 leg2).registerTwo leg1 leg2 d.engine.seq
      t).engine (d.openPair leg1 leg2 t).engine := by
    refine (receives_getOrCreateWaiter (by omega) _).trans (receives_getOrCreateWaiter ?_ _)
    rw [getOrCreateWaiter_seq]
    omega
  exact (hclaim.trans hreg).trans hopen

end

/-- A resumption of a pair uses up one of the points and messages ahead. -/
theorem Advances.progress [Field K] {p : PairTask K} {t : Clock} {pc : PairPc}
    (h : d.Advances d' p t pc) (hw : d.engine.Wires) :
    d'.engine.Wires ∧ pc.rank + d'.engine.buffered + 1 ≤ p.pc.rank + d.engine.buffered := by
  cases h with
  | waits h =>
    obtain ⟨hw', heq⟩ := receives_takeMsg h hw
    exact ⟨hw', by omega⟩
  | moves h hrank hhedge hleg2 hcancel horders hreq =>
    obtain ⟨hw', hle⟩ := h.receives hw
    exact ⟨hw', by omega⟩
  | leg2 hpc hd' =>
    rw [hd', hpc]
    refine ⟨hw, ?_⟩
    show 11 + d.engine.buffered + 1 ≤ 12 + d.engine.buffered
    omega
  | @hedges d₁ h hc first leg c hrank hhedge hleg2 hd' hreq =>
    obtain ⟨hw₁, hle₁⟩ := h.receives hw
    obtain ⟨hw', hle⟩ := receives_openOrder leg 0 t d₁ hw₁
    rw [hd']
    refine ⟨hw', ?_⟩
    show 4 + _ + 1 ≤ _
    omega

end Desk

/-! ## Pairs that cannot go on -/

/-- The pair is over, or the channels it receives from are empty.  A race with a timer
does not block. -/
def PairTask.Blocked (p : PairTask K) (d : Desk K) : Prop :=
  match p.pc with
  | .racing => d.engine.chans p.chan1 = [] ∧ d.engine.chans p.chan2 = []
  | .watchingHedge _ _ c => d.engine.chans c = []
  | .finished _ _ | .threw _ => True
  | _ => False

instance (p : PairTask K) (d : Desk K) : Decidable (p.Blocked d) := by
  unfold PairTask.Blocked
  split <;> infer_instance

namespace Desk

variable {d d' : Desk K} {p : PairTask K}

theorem exists_takeMsg {c : Nat} (h : d.engine.chans c ≠ []) :
    ∃ q, d.takeMsg c = some q := by
  unfold takeMsg
  cases hc : d.engine.chans c with
  | nil => exact absurd hc h
  | cons m rest => exact ⟨_, rfl⟩

variable [Field K] [LinearOrder K]

theorem exists_resume (t : Clock) (h : ¬p.Blocked d) : ∃ r q, d.resume p r t = some q := by
  have hchan : ∀ w, d.engine.chans (p.chan w) ≠ [] → p.pc = .racing →
      ∃ r q, d.resume p r t = some q := by
    intro w hw hpc
    obtain ⟨⟨m, d'⟩, hm⟩ := exists_takeMsg hw
    refine ⟨.receive w false, ?_⟩
    unfold resume receiveFirst
    rw [hpc]
    dsimp only
    rw [hm, Option.bind_some]
    dsimp only
    by_cases hterm : m.status.isTerminal = true
    · rw [if_pos hterm]
      exact ⟨_, rfl⟩
    · rw [if_neg hterm, if_neg (by simp)]
      exact ⟨_, rfl⟩
  unfold PairTask.Blocked at h
  cases hpc : p.pc with
  | sendingLeg1 | sendingLeg2 | cancelingPartner first | cancelingResting first
  | sendingHedge first n c =>
    refine ⟨.sent, ?_⟩
    unfold resume
    rw [hpc]
    exact ⟨_, rfl⟩
  | awaitingPartner first | legTimer first | awaitingResting first =>
    refine ⟨.timeout false, ?_⟩
    unfold resume
    rw [hpc]
    exact ⟨_, rfl⟩
  | racing =>
    rw [hpc] at h
    by_cases h₁ : d.engine.chans p.chan1 = []
    · exact hchan .leg2 (fun h₂ => h ⟨h₁, h₂⟩) hpc
    · exact hchan .leg1 h₁ hpc
  | watchingHedge first n c =>
    rw [hpc] at h
    obtain ⟨⟨m, d'⟩, hm⟩ := exists_takeMsg h
    refine ⟨.receiveHedge, ?_⟩
    unfold resume receiveOn
    rw [hpc]
    dsimp only
    rw [hm]
    exact ⟨_, rfl⟩
  | finished first hedge | threw point =>
    rw [hpc] at h
    exact absurd trivial h

end Desk

/-! ## Runs -/

def EngineEvent.isResume : EngineEvent K → Bool
  | .resume _ _ _ => true
  | _ => false

/-- An update of an order comes in. -/
def EngineEvent.isUpdate : EngineEvent K → Bool
  | .deliver _ | .refuse _ _ => true
  | _ => false

namespace World

open ExecutionEngine

/-- A bound on the resumptions that are possible without a further event. -/
def backlog (w : World K) : Nat :=
  (w.pairs.map fun p => p.pc.rank).sum + w.desk.engine.buffered

variable [Field K] [LinearOrder K] {w w' : World K} {e : EngineEvent K}

omit [Field K] [LinearOrder K] in
theorem backlog_of_pairs {k : Nat} (hpairs : w'.pairs = w.pairs)
    (hr : Receives k w.desk.engine w'.desk.engine) (hw : w.desk.engine.Wires) :
    w'.desk.engine.Wires ∧
      w'.backlog + 14 * w.pairs.length ≤ w.backlog + k + 14 * w'.pairs.length := by
  obtain ⟨hw', hle⟩ := hr hw
  refine ⟨hw', ?_⟩
  unfold backlog
  rw [hpairs]
  omega

theorem receives_applyUpdate (eng : ExecutionEngine K) (key : UInt64) (u : UpdateArgs K) :
    Receives 1 eng (eng.applyUpdate key u) := by
  unfold ExecutionEngine.applyUpdate
  split
  · exact fun hw => ⟨hw, Nat.le_succ _⟩
  · exact fun hw => receives_dispatchUpdate _ _ ⟨hw.waiters, hw.unused⟩

theorem receives_handleOrderTradeUpdate (eng : ExecutionEngine K) (o : OrderTradeUpdate K) :
    Receives 1 eng (eng.handleOrderTradeUpdate o) := by
  unfold ExecutionEngine.handleOrderTradeUpdate
  split
  · exact fun hw => ⟨hw, Nat.le_succ _⟩
  · exact receives_applyUpdate _ _ _

/-- A resumption costs one of the backlog, an update adds one at most, and a pair brings
fourteen: twelve points and two registrations. -/
theorem backlog_step (hw : w.desk.engine.Wires) (hs : w.step e = some w') :
    w'.desk.engine.Wires ∧
      w'.backlog + e.isResume.toNat + 14 * w.pairs.length ≤
        w.backlog + e.isUpdate.toNat + 14 * w'.pairs.length := by
  cases e with
  | signal leg1 leg2 t =>
    rcases step_signal hs with ⟨-, rfl⟩ | ⟨-, rfl⟩
    · exact ⟨hw, le_rfl⟩
    · obtain ⟨hw', hle⟩ := Desk.receives_openPair t w.desk leg1 leg2 hw
      refine ⟨hw', ?_⟩
      unfold backlog
      dsimp only
      rw [List.map_append, List.sum_append, List.length_append, Desk.sendLeg_engine]
      show _ + (12 + 0) + _ + 0 + _ ≤ _ + 0 + 14 * (_ + 1)
      omega
  | resume i r t =>
    obtain ⟨p, hp, hs⟩ := Option.bind_eq_some_iff.mp hs
    obtain ⟨⟨d, pc⟩, hr, rfl⟩ := Option.map_eq_some_iff.mp hs
    obtain ⟨hw', hle⟩ := (Desk.resume_advances hr).progress hw
    have hsum := Machine.sum_map_set ({ p with pc := pc } : PairTask K) (fun p => p.pc.rank) hp
    refine ⟨hw', ?_⟩
    unfold backlog EngineEvent.isResume EngineEvent.isUpdate
    simp only [List.length_set, Bool.toNat_true, Bool.toNat_false] at hsum ⊢
    omega
  | act n a tMs =>
    obtain ⟨d, hd, rfl⟩ := Option.map_eq_some_iff.mp hs
    obtain ⟨v, -, hd⟩ := Option.bind_eq_some_iff.mp hd
    obtain ⟨v', -, rfl⟩ := Option.map_eq_some_iff.mp hd
    exact ⟨hw, le_rfl⟩
  | deliver n =>
    obtain ⟨d, hd, rfl⟩ := Option.map_eq_some_iff.mp hs
    obtain ⟨v, -, hd⟩ := Option.bind_eq_some_iff.mp hd
    obtain ⟨o, -, rfl⟩ := Option.map_eq_some_iff.mp hd
    exact backlog_of_pairs rfl (receives_handleOrderTradeUpdate w.desk.engine o) hw
  | refuse n nowNs =>
    obtain ⟨d, hd, rfl⟩ := Option.map_eq_some_iff.mp hs
    obtain ⟨v, -, hd⟩ := Option.bind_eq_some_iff.mp hd
    split_ifs at hd
    cases hd
    exact backlog_of_pairs rfl (receives_applyUpdate w.desk.engine _ _) hw
  | sweep maxAge steadyNs | forceHalt | resetHalt | checkDrawdown x limit =>
    cases hs
    exact ⟨⟨hw.waiters, hw.unused⟩, le_rfl⟩

/-- The pairs that can go on do, until none can. -/
theorem exists_rest (t : Clock) (w : World K) (hw : w.desk.engine.Wires) :
    ∃ rs w', (∀ e ∈ rs, e.isResume = true) ∧ rs.length ≤ w.backlog ∧
      Machine.run step w rs = some w' ∧ ∀ p ∈ w'.pairs, p.Blocked w'.desk := by
  induction hn : w.backlog using Nat.strong_induction_on generalizing w with
  | _ n ih =>
    by_cases hall : ∀ p ∈ w.pairs, p.Blocked w.desk
    · exact ⟨[], w, fun _ he => (List.not_mem_nil he).elim, Nat.zero_le _, rfl, hall⟩
    · simp only [not_forall] at hall
      obtain ⟨p, hp, hfree⟩ := hall
      obtain ⟨i, hi⟩ := List.mem_iff_getElem?.mp hp
      obtain ⟨r, ⟨d, pc⟩, hr⟩ := Desk.exists_resume t hfree
      have hs : w.step (.resume i r t) =
          some { desk := d, pairs := w.pairs.set i { p with pc := pc } } := by
        unfold step
        dsimp only
        rw [hi, Option.bind_some, hr]
        rfl
      obtain ⟨hw', hle⟩ := backlog_step hw hs
      dsimp only at hle
      rw [List.length_set] at hle
      replace hle : _ + 1 + _ ≤ w.backlog + 0 + _ := hle
      obtain ⟨rs, w', hrs, hlen, hrun, hrest⟩ := ih _ (by omega) _ hw' rfl
      refine ⟨.resume i r t :: rs, w', fun e he => ?_, ?_, ?_, hrest⟩
      · rcases List.mem_cons.mp he with rfl | he
        · rfl
        · exact hrs e he
      · rw [List.length_cons]
        omega
      · rw [Machine.run_cons, hs, Option.bind_some]
        exact hrun

/-- The resumptions of every run are bounded by the pairs it made and the updates that
came in; and from every world that is reached, resumptions alone lead to one where each
pair is over or waits for a message. -/
theorem pairs_come_to_rest {es : List (EngineEvent K)} {maxOpenOrders : Nat}
    {orderId : Nat → Int}
    (hrun : Machine.run World.step (init maxOpenOrders orderId) es = some w) (t : Clock) :
    w.backlog + es.countP EngineEvent.isResume ≤
        14 * w.pairs.length + es.countP EngineEvent.isUpdate ∧
      ∃ rs w', (∀ e ∈ rs, e.isResume = true) ∧ rs.length ≤ w.backlog ∧
        Machine.run World.step w rs = some w' ∧ ∀ p ∈ w'.pairs, p.Blocked w'.desk := by
  have hinit : (init maxOpenOrders orderId : World K).desk.engine.Wires :=
    ⟨fun _ hx => (List.not_mem_nil hx).elim, fun _ _ => rfl⟩
  have hstep : ∀ (s : World K) (e : EngineEvent K) (s' : World K), s.desk.engine.Wires →
      World.step s e = some s' → s'.desk.engine.Wires ∧
        s'.backlog + e.isResume.toNat + 14 * s.pairs.length ≤
          s.backlog + e.isUpdate.toNat + 14 * s'.pairs.length :=
    fun _ _ _ hw hs => backlog_step hw hs
  obtain ⟨hw, hle⟩ := Machine.run_potential (I := fun w : World K => w.desk.engine.Wires)
    hstep hinit hrun
  refine ⟨?_, exists_rest t w hw⟩
  have hzero : (init maxOpenOrders orderId : World K).backlog = 0 := rfl
  have hnone : (init maxOpenOrders orderId : World K).pairs.length = 0 := rfl
  omega

/-- The pair that is left to its hedge: the request returns, and the hedge is waited
for. -/
theorem pairs_come_to_rest_hedged :
    ∃ w, Machine.run World.step (init 8 Int.ofNat) hedgedRun = some w ∧
      w.backlog + 6 ≤ 14 + 5 ∧
      ∃ rs w', (∀ e ∈ rs, e.isResume = true) ∧ rs.length ≤ w.backlog ∧
        Machine.run World.step w rs = some w' ∧ ∀ p ∈ w'.pairs, p.Blocked w'.desk := by
  obtain ⟨w, hw, hpairs⟩ := Machine.exists_of_elim
    (o := Machine.run World.step (init 8 Int.ofNat) hedgedRun)
    (P := fun w => w.pairs.length = 1) (by decide +kernel)
  obtain ⟨hle, hrest⟩ := pairs_come_to_rest hw ⟨7, 7⟩
  rw [hpairs] at hle
  exact ⟨w, hw, hle, hrest⟩

end World
end HoloMarket
