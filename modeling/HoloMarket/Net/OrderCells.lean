import Mathlib.Data.List.TakeWhile
import HoloMarket.Net.PairMonitor

/-!
# OrderCells: the engine seen from one order

What the engine and the exchange hold under the number of one order: its record,
its waiter, its channel and the order itself.  Each operation of the desk is
described by what it does to the cell of the order it names and by what it
leaves alone, as long as the ids in use have different keys.
-/

namespace HoloMarket

variable {K : Type*}

structure Cell (K : Type*) where
  record : Option (OrderRecord K)
  waiter : Option Nat
  chan : List (OrderRecord K)
  order : Option (VenueOrder K)

/-- The first `N` ids have different keys. -/
def KeysDistinct (N : Nat) : Prop :=
  ∀ m < N, ∀ n < N, orderKey m = orderKey n → m = n

instance (N : Nat) : Decidable (KeysDistinct N) :=
  inferInstanceAs (Decidable (∀ m < N, ∀ n < N, orderKey m = orderKey n → m = n))

theorem KeysDistinct.mono {M N : Nat} (h : KeysDistinct N) (hMN : M ≤ N) : KeysDistinct M :=
  fun m hm n hn => h m (lt_of_lt_of_le hm hMN) n (lt_of_lt_of_le hn hMN)

theorem makeClientId_clientId (n : Nat) : makeClientId (clientId n) = clientId n := by
  have hl : (clientId n).toList = "holo-".toList ++ Nat.toDigits 10 (n % 2 ^ 64) := by
    rw [clientId, String.toList_append]
    exact congrArg _ String.toList_ofList
  have hlen : (clientId n).toList.length ≤ 39 := by
    have hd : (Nat.toDigits 10 (n % 2 ^ 64)).length ≤ 20 := by
      rw [Nat.length_toDigits_le_iff (by decide) (by decide)]
      omega
    have hp : "holo-".toList.length = 5 := by decide
    rw [hl, List.length_append, hp]
    omega
  have hne : ∀ c ∈ (clientId n).toList, (c != Char.ofNat 0) = true := by
    intro c hc
    rw [hl] at hc
    have hprefix : ∀ c ∈ "holo-".toList, (c != Char.ofNat 0) = true := by simp
    rcases List.mem_append.mp hc with hc | hc
    · exact hprefix c hc
    · have hdig := Nat.isDigit_of_mem_toDigits (by decide) (by decide) hc
      rw [bne_iff_ne]
      intro h0
      rw [h0] at hdig
      exact absurd hdig (by decide)
  unfold makeClientId bufView
  rw [List.take_of_length_le hlen, List.takeWhile_eq_self_iff.mpr hne, String.ofList_toList]

/-! ## The engine object -/

namespace ExecutionEngine

/-- The book and the map that keeps fills from being charged twice. -/
def accounts (eng : ExecutionEngine K) : PnlBook K × AList fun _ : Int => K :=
  (eng.pnl, eng.lastFilled)

variable (eng : ExecutionEngine K)

@[simp] theorem countRejects_accounts (s : OrderStatus) :
    (eng.countRejects s).accounts = eng.accounts := by
  cases s <;> rfl

@[simp] theorem trySend_accounts (c : Nat) (r : OrderRecord K) :
    (eng.trySend c r).accounts = eng.accounts := by
  unfold trySend
  split_ifs <;> rfl

@[simp] theorem clearInflight_accounts (key : String) :
    (eng.clearInflight key).accounts = eng.accounts := by
  unfold clearInflight
  dsimp only
  split <;> rfl

@[simp] theorem getOrCreateWaiter_accounts (key : UInt64) (n : Nat) :
    (eng.getOrCreateWaiter key n).1.accounts = eng.accounts := by
  unfold getOrCreateWaiter
  split <;> rfl

@[simp] theorem getOrCreateWaiter_seq (key : UInt64) (n : Nat) :
    (eng.getOrCreateWaiter key n).1.seq = eng.seq := by
  unfold getOrCreateWaiter
  split <;> rfl

@[simp] theorem countRejects_oms (s : OrderStatus) : (eng.countRejects s).oms = eng.oms := by
  cases s <;> rfl

@[simp] theorem countRejects_waiters (s : OrderStatus) :
    (eng.countRejects s).waiters = eng.waiters := by
  cases s <;> rfl

@[simp] theorem countRejects_chans (s : OrderStatus) :
    (eng.countRejects s).chans = eng.chans := by
  cases s <;> rfl

@[simp] theorem countRejects_seq (s : OrderStatus) : (eng.countRejects s).seq = eng.seq := by
  cases s <;> rfl

@[simp] theorem trySend_oms (c : Nat) (r : OrderRecord K) : (eng.trySend c r).oms = eng.oms := by
  unfold trySend
  split_ifs <;> rfl

@[simp] theorem trySend_waiters (c : Nat) (r : OrderRecord K) :
    (eng.trySend c r).waiters = eng.waiters := by
  unfold trySend
  split_ifs <;> rfl

@[simp] theorem trySend_seq (c : Nat) (r : OrderRecord K) : (eng.trySend c r).seq = eng.seq := by
  unfold trySend
  split_ifs <;> rfl

theorem trySend_chans_ne {c m : Nat} (hm : m ≠ c) (r : OrderRecord K) :
    (eng.trySend c r).chans m = eng.chans m := by
  unfold trySend
  split_ifs
  · exact Function.update_of_ne hm _ _
  · rfl

/-- The message is appended or dropped. -/
theorem trySend_chans (c : Nat) (r : OrderRecord K) :
    (eng.trySend c r).chans c = eng.chans c ++ [r] ∨ (eng.trySend c r).chans c = eng.chans c := by
  unfold trySend
  split_ifs
  · exact Or.inl (Function.update_self ..)
  · exact Or.inr rfl

variable (r : OrderRecord K)

@[simp] theorem dispatchUpdate_accounts : (eng.dispatchUpdate r).accounts = eng.accounts := by
  unfold dispatchUpdate
  dsimp only
  split <;> simp

@[simp] theorem dispatchUpdate_oms : (eng.dispatchUpdate r).oms = eng.oms := by
  unfold dispatchUpdate
  dsimp only
  split <;> simp

@[simp] theorem dispatchUpdate_waiters : (eng.dispatchUpdate r).waiters = eng.waiters := by
  unfold dispatchUpdate
  dsimp only
  split <;> simp

@[simp] theorem dispatchUpdate_seq : (eng.dispatchUpdate r).seq = eng.seq := by
  unfold dispatchUpdate
  dsimp only
  split <;> simp

theorem dispatchUpdate_chans_none
    (h : eng.waiters.lookup (fnv1a64 r.clientOrderId) = none) :
    (eng.dispatchUpdate r).chans = eng.chans := by
  unfold dispatchUpdate
  dsimp only
  rw [countRejects_waiters, h]
  exact countRejects_chans eng r.status

/-- The update goes to the channel of its order and to no other. -/
theorem dispatchUpdate_chans {c : Nat}
    (h : eng.waiters.lookup (fnv1a64 r.clientOrderId) = some c) :
    ((eng.dispatchUpdate r).chans c = eng.chans c ++ [r] ∨
        (eng.dispatchUpdate r).chans c = eng.chans c) ∧
      ∀ m ≠ c, (eng.dispatchUpdate r).chans m = eng.chans m := by
  unfold dispatchUpdate
  dsimp only
  rw [countRejects_waiters, h]
  refine ⟨?_, fun m hm => ?_⟩
  · have hsend := (eng.countRejects r.status).trySend_chans c r
    rwa [countRejects_chans] at hsend
  · rw [trySend_chans_ne _ hm, countRejects_chans]

end ExecutionEngine

namespace Desk

/-- What is held under the number `n`. -/
def cell (d : Desk K) (n : Nat) : Cell K where
  record := d.engine.oms.get (orderKey n)
  waiter := d.engine.waiters.lookup (orderKey n)
  chan := d.engine.chans n
  order := d.exchange n

variable (d : Desk K)

@[simp] theorem cell_cancelOrder (symbol cid : String) (m : Nat) :
    (d.cancelOrder symbol cid).cell m = d.cell m := rfl

@[simp] theorem cell_sweep (a s : Int) (m : Nat) : (d.sweep a s).cell m = d.cell m := rfl

@[simp] theorem cell_clearInflight (p : PairTask K) (m : Nat) :
    (d.clearInflight p).cell m = d.cell m := by
  unfold clearInflight ExecutionEngine.clearInflight
  dsimp only
  split <;> rfl

theorem cell_releaseTerminal {m n : Nat} (hk : orderKey m = orderKey n → m = n) :
    (d.releaseTerminal n).cell m =
      if m = n then { d.cell m with record := none, waiter := none } else d.cell m := by
  unfold cell releaseTerminal ExecutionEngine.releaseTerminal
  dsimp only
  rw [OMSCore.get_release]
  by_cases hmn : m = n
  · subst hmn
    simp
  · have hkey : orderKey m ≠ orderKey n := fun h => hmn (hk h)
    simp [hmn, hkey, AList.lookup_erase_ne hkey]

theorem cell_takeMsg {d d' : Desk K} {c : Nat} {r : OrderRecord K}
    (h : d.takeMsg c = some (r, d')) :
    ∃ rest, (d.cell c).chan = r :: rest ∧
      ∀ m, d'.cell m = if m = c then { d.cell m with chan := rest } else d.cell m := by
  unfold takeMsg at h
  cases hc : d.engine.chans c with
  | nil =>
    rw [hc] at h
    cases h
  | cons r' rest =>
    rw [hc] at h
    cases h
    refine ⟨rest, hc, fun m => ?_⟩
    unfold cell
    dsimp only
    by_cases hm : m = c
    · subst hm
      simp
    · simp [hm]

theorem cell_sendOrder (n : Nat) (symbol : String) (side : Side) (qty : K) (m : Nat) :
    (d.sendOrder n symbol side qty).cell m =
      if m = n then
        { d.cell m with
          order := some (VenueOrder.arrive (clientId n) symbol side qty (d.orderId n)) }
      else d.cell m := by
  unfold cell sendOrder
  dsimp only
  by_cases hm : m = n
  · subst hm
    simp
  · simp [hm]

section
variable [Field K]

theorem register_oms (n : Nat) (symbol : String) (side : Side) (price qty : K) (t : Clock) :
    (d.register n symbol side price qty t).engine.oms =
      (d.engine.oms.registerNewOrder (clientId n) symbol side price qty t).1 :=
  ExecutionEngine.dispatchUpdate_oms ..

theorem register_waiters (n : Nat) (symbol : String) (side : Side) (price qty : K) (t : Clock) :
    (d.register n symbol side price qty t).engine.waiters = d.engine.waiters :=
  ExecutionEngine.dispatchUpdate_waiters ..

theorem cell_register {m n : Nat} (hk : orderKey m = orderKey n → m = n)
    (hn : (d.cell n).waiter = none) (symbol : String) (side : Side) (price qty : K) (t : Clock) :
    (d.register n symbol side price qty t).cell m =
      if m = n then
        { d.cell m with
          record := some (OrderRecord.fresh (clientId n) symbol side price qty t) }
      else d.cell m := by
  have hcid : (OrderRecord.fresh (clientId n) symbol side price qty t).clientOrderId =
      clientId n := makeClientId_clientId n
  unfold cell register ExecutionEngine.registerNewOrder
  dsimp only
  have hrec : ((d.engine.oms.registerNewOrder (clientId n) symbol side price qty t).2.2) =
      OrderRecord.fresh (clientId n) symbol side price qty t := rfl
  rw [ExecutionEngine.dispatchUpdate_oms, ExecutionEngine.dispatchUpdate_waiters,
    ExecutionEngine.dispatchUpdate_chans_none _ _ (by rw [hrec, hcid]; exact hn),
    OMSCore.get_registerNewOrder]
  by_cases hmn : m = n
  · subst hmn
    simp [orderKey]
  · have hkey : orderKey m ≠ fnv1a64 (clientId n) := fun h => hmn (hk h)
    simp [hmn, hkey]

end

/-- A new id gets a channel of its own. -/
theorem cell_waiter [Field K] {m n : Nat} (hk : orderKey m = orderKey n → m = n)
    (hn : (d.cell n).waiter = none) :
    (d.waiter n).2 = n ∧ (d.waiter n).1.cell m =
      if m = n then { d.cell m with waiter := some n, chan := [] } else d.cell m := by
  have hl : d.engine.waiters.lookup (orderKey n) = none := hn
  unfold waiter ExecutionEngine.getOrCreateWaiter cell
  rw [hl]
  refine ⟨rfl, ?_⟩
  dsimp only
  by_cases hmn : m = n
  · subst hmn
    simp
  · have hkey : orderKey m ≠ orderKey n := fun h => hmn (hk h)
    simp [hmn, AList.lookup_insert_ne hkey]

end Desk
end HoloMarket
