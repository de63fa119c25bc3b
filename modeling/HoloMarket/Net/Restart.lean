import HoloMarket.Net.Registry

/-!
# Restart: two runs of the engine on one account

The counter behind `next_client_id` starts at zero in every process, and orders
outlive the process that sent them.  An event or the answer to a lookup names an
order by its client id alone, so that news of an order of the first run is news
of the order of that number in the second, if there is one.
-/

namespace HoloMarket

variable {K : Type*}

/-- What the exchange says about an order. -/
inductive News (K : Type*) where
  /-- An event; its `"c"` is the client id of the order. -/
  | event (o : OrderTradeUpdate K)
  /-- The answer to a lookup by client id. -/
  | answer (b : OrderBody K) (nowNs : Int)
deriving DecidableEq, Repr

/-- An event of the order of number `n`. -/
def OrderTradeUpdate.of (n : Nat) (o : OrderTradeUpdate K) : OrderTradeUpdate K :=
  { o with c := some (clientId n) }

/-- What `apply_update` is called with, unless the news is malformed. -/
def News.args [Zero K] (n : Nat) : News K → Option (UpdateArgs K)
  | .event o => (o.of n).read.map Prod.snd
  | .answer b nowNs => b.read nowNs

theorem OrderTradeUpdate.read_of [Zero K] (n : Nat) (o : OrderTradeUpdate K) :
    (o.of n).read = ((o.of n).read.map Prod.snd).map fun u => (clientId n, u) := by
  unfold read of
  dsimp only
  split
  next hc _ _ _ => rw [← Option.some.inj hc]; rfl
  next => rfl

variable [Field K] [LinearOrder K]

/-- `reconcile_single_order`, given the answer. -/
def ExecutionEngine.reconcileSingleOrder (eng : ExecutionEngine K) (key : UInt64)
    (b : OrderBody K) (nowNs : Int) : ExecutionEngine K :=
  match b.read nowNs with
  | none => eng
  | some u => eng.applyUpdate key u

/-- What the feed does with news of the order of number `n`. -/
def News.tell (n : Nat) (eng : ExecutionEngine K) : News K → ExecutionEngine K
  | .event o => eng.handleOrderTradeUpdate (o.of n)
  | .answer b nowNs => eng.reconcileSingleOrder (orderKey n) b nowNs

theorem News.tell_eq (n : Nat) (news : News K) (eng : ExecutionEngine K) :
    news.tell n eng = (news.args n).elim eng fun u => eng.applyUpdate (orderKey n) u := by
  cases news with
  | answer b nowNs =>
    show eng.reconcileSingleOrder (orderKey n) b nowNs = (b.read nowNs).elim eng _
    unfold ExecutionEngine.reconcileSingleOrder
    cases b.read nowNs <;> rfl
  | event o =>
    show eng.handleOrderTradeUpdate (o.of n) = ((o.of n).read.map Prod.snd).elim eng _
    unfold ExecutionEngine.handleOrderTradeUpdate
    rw [o.read_of n, Option.map_map]
    cases (o.of n).read <;> rfl

/-- A run of the engine, and the one that follows it. -/
structure Processes (K : Type*) where
  first : World K
  second : Option (World K)

inductive RestartEvent (K : Type*) where
  | first (e : World.DeskEvent K)
  /-- The first process is gone, and the second starts. -/
  | start (maxOpenOrders : Nat) (orderId : Nat → Int)
  | second (e : World.DeskEvent K)
  /-- The second process hears of an order that the first one sent. -/
  | stale (n : Nat) (news : News K)

namespace Processes

def init (maxOpenOrders : Nat) (orderId : Nat → Int) : Processes K where
  first := World.init maxOpenOrders orderId
  second := none

def step (s : Processes K) : RestartEvent K → Option (Processes K)
  | .first e =>
    if s.second.isSome then none
    else (s.first.deskStep e).map fun w => { s with first := w }
  | .start maxOpenOrders orderId =>
    if s.second.isSome then none
    else some { s with second := some (World.init maxOpenOrders orderId) }
  | .second e =>
    s.second.bind fun w => (w.deskStep e).map fun w' => { s with second := some w' }
  | .stale n news =>
    s.second.bind fun w =>
      if (s.first.desk.exchange n).isSome then
        some { s with
          second := some { w with desk := { w.desk with engine := news.tell n w.desk.engine } } }
      else none

/-! ## When the news is harmless -/

/-- The news of a stale order finds no order of the second run, and changes
nothing there. -/
def Harmless (s : Processes K) : RestartEvent K → Prop
  | .stale n news => ∀ w ∈ s.second, ∀ u ∈ news.args n,
    w.desk.engine.oms.applyUpdate (orderKey n) u.newStatus u.cumulativeFilledQty u.lastFillPrice
        u.exchangeOrderId u.eventNs u.commissionDelta = none ∧
      (news.tell n w.desk.engine).oms = w.desk.engine.oms
  | _ => True

/-- No order of the second run that is registered and not released has the key of
the stale order. -/
def Clear (s : Processes K) : RestartEvent K → Prop
  | .stale n news => ∀ w ∈ s.second, ∀ _ ∈ news.args n, ∀ m ∈ w.live, orderKey m ≠ orderKey n
  | _ => True

/-- No two live orders of the second run share a key. -/
def SecondKeys (s : Processes K) : RestartEvent K → Prop
  | .second e => ∀ w ∈ s.second, w.LiveKeys e
  | _ => True

/-- What every run of the second process keeps. -/
def Keeps (I : World K → Prop) (s : Processes K) : Prop := ∀ w ∈ s.second, I w

variable {s s' : Processes K} {I : World K → Prop}

/-- The second run hears of stale orders through `apply_update`. -/
theorem Keeps.step (h : Keeps I s) {e : RestartEvent K}
    (hinit : ∀ maxOpenOrders orderId, I (World.init maxOpenOrders orderId))
    (hsecond : ∀ (w w' : World K) (e' : World.DeskEvent K), s.second = some w → I w →
      e = .second e' → w.deskStep e' = some w' → I w')
    (hupdate : ∀ (w w' : World K) (key : UInt64) (u : UpdateArgs K), I w →
      w.deskStep (.update key u) = some w' → I w')
    (hs : s.step e = some s') : Keeps I s' := by
  unfold Keeps at h ⊢
  cases e with
  | first e' =>
    unfold Processes.step at hs
    split_ifs at hs
    obtain ⟨w, -, rfl⟩ := Option.map_eq_some_iff.mp hs
    exact h
  | start maxOpenOrders orderId =>
    unfold Processes.step at hs
    split_ifs at hs
    cases hs
    intro w hw
    rw [← Option.some.inj hw]
    exact hinit maxOpenOrders orderId
  | second e' =>
    obtain ⟨w, hw, hs⟩ := Option.bind_eq_some_iff.mp hs
    obtain ⟨w', hstep, rfl⟩ := Option.map_eq_some_iff.mp hs
    intro w'' hw'
    rw [← Option.some.inj hw']
    exact hsecond w w' e' hw (h w hw) rfl hstep
  | stale n news =>
    obtain ⟨w, hw, hs⟩ := Option.bind_eq_some_iff.mp hs
    split_ifs at hs
    cases hs
    intro w' hw'
    rw [← Option.some.inj hw', News.tell_eq]
    cases news.args n with
    | none => exact h w hw
    | some u => exact hupdate w _ (orderKey n) u (h w hw) rfl

theorem onlyLive_step {e : RestartEvent K} (h : Keeps (fun w => w.desk.OnlyLive w.live) s)
    (hs : s.step e = some s') : Keeps (fun w => w.desk.OnlyLive w.live) s' :=
  h.step (fun _ _ _ _ => rfl) (fun _ _ _ _ hw _ hstep => World.onlyLive_step hw hstep)
    (fun _ _ _ _ hw hstep => World.onlyLive_step hw hstep) hs

theorem listed_step {e : RestartEvent K} (h : Keeps World.Listed s) (hk : SecondKeys s e)
    (hs : s.step e = some s') : Keeps World.Listed s' := by
  refine h.step World.init_listed (fun w w' e' hw hI he hstep => ?_)
    (fun w w' key u hI hstep => hI.step ?_ hstep) hs
  · subst he
    exact hI.step (hk w hw) hstep
  · unfold World.LiveKeys
    rw [hstep]
    cases hstep
    exact hI.keys

/-- An `apply_update` that finds no order changes nothing. -/
theorem applyUpdate_unknown {eng : ExecutionEngine K} {key : UInt64} (u : UpdateArgs K)
    (h : eng.oms.get key = none) : eng.applyUpdate key u = eng := by
  unfold ExecutionEngine.applyUpdate
  rw [OMSCore.applyUpdate_eq_none.mpr h]

theorem Clear.harmless {e : RestartEvent K} (h : Keeps (fun w => w.desk.OnlyLive w.live) s)
    (hc : Clear s e) : Harmless s e := by
  cases e with
  | stale n news =>
    intro w hw u hu
    have hentry : (w.desk.engine.oms.get (orderKey n)).map _ = none :=
      congrArg Prod.fst (h w hw (orderKey n) (hc w hw u hu))
    have hnone := Option.map_eq_none_iff.mp hentry
    refine ⟨OMSCore.applyUpdate_eq_none.mpr hnone, ?_⟩
    rw [News.tell_eq, hu]
    exact congrArg ExecutionEngine.oms (applyUpdate_unknown u hnone)
  | _ => trivial

theorem Harmless.clear {e : RestartEvent K} (h : Keeps World.Listed s) (hc : Harmless s e) :
    Clear s e := by
  cases e with
  | stale n news =>
    intro w hw u hu m hm hkey
    have hnone := OMSCore.applyUpdate_eq_none.mp (hc w hw u hu).1
    have hentry : (w.desk.engine.oms.get (orderKey m)).map _ = some (clientId m) :=
      congrArg Prod.fst ((h w hw).registry.tracked m hm)
    rw [hkey, hnone] at hentry
    cases hentry
  | _ => trivial

/-- In every pair of runs the second is not touched by news of the first, as long
as it has no live order under the key of the order the news is about; and where
its own live keys are distinct, only then. -/
theorem stale_news_harmless_iff (maxOpenOrders : Nat) (orderId : Nat → Int)
    (es : List (RestartEvent K)) :
    (Machine.RunOk step Clear (init maxOpenOrders orderId) es →
        Machine.RunOk step Harmless (init maxOpenOrders orderId) es) ∧
      (Machine.RunOk step SecondKeys (init maxOpenOrders orderId) es →
        (Machine.RunOk step Harmless (init maxOpenOrders orderId) es ↔
          Machine.RunOk step Clear (init maxOpenOrders orderId) es)) := by
  have hnone : ∀ I : World K → Prop, Keeps I (init maxOpenOrders orderId) :=
    fun I w hw => absurd hw (Option.not_mem_none w)
  have hclear : Machine.RunOk step Clear (init maxOpenOrders orderId) es →
      Machine.RunOk step Harmless (init maxOpenOrders orderId) es :=
    Machine.RunOk.imp (fun s e h hc => hc.harmless h) (fun s e s' h _ hs => onlyLive_step h hs)
      (hnone _)
  refine ⟨hclear, fun hkeys => ⟨fun hh => ?_, hclear⟩⟩
  exact (hkeys.and hh).imp (fun s e h hk => hk.2.clear h)
    (fun s e s' h hk hs => listed_step h hk.1 hs) (hnone _)

/-- The second run has no record under the key of the stale order. -/
def Unrecorded (s : Processes K) : RestartEvent K → Prop
  | .stale n news => s.second.elim True fun w =>
    (news.args n).elim True fun _ => (w.desk.engine.oms.get (orderKey n)).isNone
  | _ => True

instance (s : Processes K) : ∀ e : RestartEvent K, Decidable (Unrecorded s e)
  | .stale _ _ => Machine.decidableElim _
  | .first _ | .start _ _ | .second _ => inferInstanceAs (Decidable True)

theorem Harmless.unrecorded {e : RestartEvent K} (h : Harmless s e) : Unrecorded s e := by
  cases e with
  | stale n news =>
    unfold Unrecorded
    cases hw : s.second with
    | none => trivial
    | some w =>
      show (news.args n).elim True _
      cases hu : news.args n with
      | none => trivial
      | some u =>
        have hnone := OMSCore.applyUpdate_eq_none.mp (h w hw u hu).1
        exact Option.isNone_iff_eq_none.mpr hnone
  | _ => trivial

/-- Both runs call their first order `holo-0`.  The exchange fills the one that
the first run left behind, and the second run takes its own leg for filled. -/
theorem stale_fill_taken_for_fresh :
    let leg (symbol : String) (side : Side) : ArbLeg Rat :=
      { symbol := symbol, side := side, qty := 1, price := 100 }
    let signal : World.DeskEvent Rat :=
      .engine (.signal (leg "BTCUSDT" .Buy) (leg "ETHUSDT" .Sell) ⟨0, 0⟩)
    let fill : OrderTradeUpdate Rat :=
      ⟨some (clientId 0), some "FILLED", some 1, some 7, some 100, some 0, some 5⟩
    ¬ Machine.RunOk step Harmless (init 8 Int.ofNat)
      [.first signal, .start 8 Int.ofNat, .second signal, .stale 0 (.event fill)] := by
  intro leg signal fill h
  have hun : Machine.RunOk step Unrecorded (init 8 Int.ofNat)
      [.first signal, .start 8 Int.ofNat, .second signal, .stale 0 (.event fill)] :=
    h.imp (I := fun _ => True) (fun _ _ _ hh => hh.unrecorded) (fun _ _ _ _ _ _ => trivial) trivial
  exact absurd hun (by decide +kernel)

end Processes
end HoloMarket
