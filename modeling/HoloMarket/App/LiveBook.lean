import Mathlib.Algebra.Ring.Rat
import HoloMarket.Core.LobBook
import HoloMarket.Core.RingQueue
import HoloMarket.Net.BinanceFeed

/-!
# LiveBook: from the feed through the ring into the book

The worker of `BinanceFeedHandler` offers the levels of each depth message to the ring,
and the drain loop of `main_live.cpp` applies what it pops to the book.  The two threads
interleave at every access of the ring.
-/

namespace HoloMarket

open Feed

variable {K : Type*}

/-- The two threads with the ring and the book.  `arrived` are the updates of all
messages so far. -/
structure LiveBook (K : Type*) where
  arrived : List (LobUpdate K)
  todo : List (LobUpdate K)
  queue : RingQueue (LobUpdate K)
  msgsDropped : Nat
  hand : Option (LobUpdate K)
  lob : LobSoA K

/-- A step of the worker (a message, the start of a `try_push`, an access of it) or of
the drain loop (the start of a `try_pop`, an access of it, the application of what it
returned). -/
inductive BookEvent where
  | message (frame : Except JsonError JsonValue) (ts : UInt64)
  | offer
  | push
  | callPop
  | pop
  | apply

namespace LiveBook

/-- The updates of the message in hand that no `try_push` has decided on. -/
def pending (s : LiveBook K) : List (LobUpdate K) :=
  (s.queue.producer.map Prod.fst).toList ++ s.todo

def start [NatCast K] (ring : SpscRing (LobUpdate K)) (n d : Nat) : LiveBook K :=
  ⟨[], [], RingQueue.start ring, 0, none, LobSoA.init n d⟩

/-- `msgs_dropped` after a step of `try_push`. -/
def afterDrop (dropped : Nat) : PushPc ⊕ Bool → Nat
  | .inr false => dropped + 1
  | _ => dropped

/-- An access of `try_push`. -/
def push (s : LiveBook K) : Option (LiveBook K) :=
  s.queue.producer.bind fun (item, pc) =>
    s.queue.stepPush.map fun q =>
      { s with
        queue := q
        msgsDropped := afterDrop s.msgsDropped (s.queue.ring.pushStep item pc).2 }

/-- An access of `try_pop`. -/
def pop (s : LiveBook K) : Option (LiveBook K) :=
  s.queue.consumer.bind fun pc =>
    s.queue.stepPop.map fun q =>
      { s with queue := q, hand := (RingQueue.out? (s.queue.ring.popStep pc).2).head? }

variable [NatCast K] [Add K] [Mul K] [OfScientific K]

def step (s : LiveBook K) : BookEvent → Option (LiveBook K)
  | .message frame ts =>
    if s.pending = [] then
      some { s with arrived := s.arrived ++ offered frame ts, todo := offered frame ts }
    else none
  | .offer =>
    match s.todo with
    | [] => none
    | u :: us => (s.queue.step (.callPush u)).map fun q => { s with queue := q, todo := us }
  | .push => s.push
  | .callPop =>
    if s.hand.isNone then (s.queue.step .callPop).map fun q => { s with queue := q } else none
  | .pop => s.pop
  | .apply => s.hand.map fun u => { s with hand := none, lob := s.lob.apply u }

/-- Nothing is under way in either thread, and the ring is empty. -/
structure Quiet (s : LiveBook K) : Prop where
  pending : s.pending = []
  hand : s.hand = none
  empty : s.queue.held = 0

/-! ## The invariant -/

/-- The calls of `try_push` so far, with what each returned. -/
structure Sent (s : LiveBook K) (calls : List (LobUpdate K × Bool)) : Prop where
  arrived : s.arrived = calls.map Prod.fst ++ s.pending
  pushed : s.queue.pushed = (calls.filter Prod.snd).map Prod.fst
  dropped : s.msgsDropped = calls.countP fun c => !c.2

structure Inv (n d : Nat) (s : LiveBook K) : Prop where
  queue : s.queue.Inv
  sent : ∃ calls, s.Sent calls
  applied : ∃ done, s.queue.popped = done ++ s.hand.toList ∧
    s.lob = done.foldl LobSoA.apply (LobSoA.init n d)
  hand : s.queue.consumer.isSome → s.hand = none

namespace Inv

variable {n d : Nat} {s s' : LiveBook K}

omit [Add K] [Mul K] [OfScientific K] in
theorem start (n d : Nat) {ring : SpscRing (LobUpdate K)} (h : ring.Ok [] 0) :
    Inv n d (LiveBook.start ring n d) where
  queue := RingQueue.inv_start h
  sent := ⟨[], rfl, rfl, rfl⟩
  applied := ⟨[], rfl, rfl⟩
  hand _ := rfl

omit [Add K] [Mul K] [OfScientific K] in
/-- A push that ends is one more call, and one that does not end leaves the calls. -/
theorem push (h : Inv n d s) (hs : s.push = some s') : Inv n d s' := by
  unfold LiveBook.push at hs
  obtain ⟨⟨item, pc⟩, hp, hs⟩ := Option.bind_eq_some_iff.mp hs
  obtain ⟨q, hq, rfl⟩ := Option.map_eq_some_iff.mp hs
  obtain ⟨item', pc', ring, r, hp', hr, rfl⟩ := RingQueue.stepPush_spec hq
  cases hp.symm.trans hp'
  refine ⟨h.queue.stepPush hq, ?_, h.applied, h.hand⟩
  obtain ⟨calls, harrived, hpushed, hdropped⟩ := h.sent
  have hpending : s.pending = item :: s.todo := by
    unfold pending
    rw [hp]
    rfl
  rw [hpending] at harrived
  rw [hr]
  match r with
  | .inl pc₁ =>
    exact ⟨calls, harrived, hpushed, hdropped⟩
  | .inr true =>
    refine ⟨calls ++ [(item, true)], ?_, ?_, ?_⟩
    · rw [harrived, List.map_append, List.append_assoc]
      rfl
    · show s.queue.pushed ++ [item] = _
      rw [hpushed, List.filter_append, List.map_append]
      rfl
    · rw [List.countP_append, ← hdropped]
      rfl
  | .inr false =>
    refine ⟨calls ++ [(item, false)], ?_, ?_, ?_⟩
    · rw [harrived, List.map_append, List.append_assoc]
      rfl
    · show s.queue.pushed = _
      rw [hpushed, List.filter_append, List.map_append]
      exact (List.append_nil _).symm
    · rw [List.countP_append, ← hdropped]
      rfl

omit [Add K] [Mul K] [OfScientific K] in
/-- What a pop returns goes into the hand of the drain loop. -/
theorem pop (h : Inv n d s) (hs : s.pop = some s') : Inv n d s' := by
  unfold LiveBook.pop at hs
  obtain ⟨pc, hp, hs⟩ := Option.bind_eq_some_iff.mp hs
  obtain ⟨q, hq, rfl⟩ := Option.map_eq_some_iff.mp hs
  obtain ⟨pc', ring, r, hp', hr, rfl⟩ := RingQueue.stepPop_spec hq
  cases hp.symm.trans hp'
  obtain ⟨done, hdone, hlob⟩ := h.applied
  have hempty : s.hand = none := h.hand (by rw [hp]; rfl)
  obtain ⟨calls, harrived, hpushed, hdropped⟩ := h.sent
  rw [hempty] at hdone
  rw [hr]
  refine ⟨h.queue.stepPop hq, ⟨calls, harrived, hpushed, hdropped⟩, ⟨done, ?_, hlob⟩, ?_⟩
  · show s.queue.popped ++ RingQueue.out? r = done ++ (RingQueue.out? r).head?.toList
    rw [hdone]
    match r with
    | .inl pc₁ => exact congrArg (· ++ []) (List.append_nil _)
    | .inr none => exact congrArg (· ++ []) (List.append_nil _)
    | .inr (some u) => exact congrArg (· ++ [u]) (List.append_nil _)
  · intro hconsumer
    match r, hconsumer with
    | .inl pc₁, _ => rfl

theorem step (h : Inv n d s) {e : BookEvent} (hs : s.step e = some s') : Inv n d s' := by
  cases e with
  | message frame ts =>
    simp only [LiveBook.step] at hs
    split_ifs at hs with hidle
    cases hs
    obtain ⟨calls, harrived, hpushed, hdropped⟩ := h.sent
    obtain ⟨hproducer, -⟩ := List.append_eq_nil_iff.mp hidle
    rw [hidle, List.append_nil] at harrived
    refine ⟨h.queue, ⟨calls, ?_, hpushed, hdropped⟩, h.applied, h.hand⟩
    show s.arrived ++ _ = _ ++ ((s.queue.producer.map Prod.fst).toList ++ _)
    rw [hproducer, harrived]
    rfl
  | offer =>
    simp only [LiveBook.step] at hs
    split at hs
    · exact nomatch hs
    · next u us htodo =>
      obtain ⟨q, hq, rfl⟩ := Option.map_eq_some_iff.mp hs
      have hqueue := h.queue.step hq
      unfold RingQueue.step at hq
      dsimp only at hq
      split at hq
      · next hnone =>
        cases hq
        obtain ⟨calls, harrived, hpushed, hdropped⟩ := h.sent
        refine ⟨hqueue, ⟨calls, ?_, hpushed, hdropped⟩, h.applied, h.hand⟩
        unfold pending at harrived
        rw [hnone, htodo] at harrived
        exact harrived
      · exact nomatch hq
  | push => exact h.push hs
  | callPop =>
    simp only [LiveBook.step] at hs
    split_ifs at hs with hnone
    obtain ⟨q, hq, rfl⟩ := Option.map_eq_some_iff.mp hs
    have hqueue := h.queue.step hq
    unfold RingQueue.step at hq
    dsimp only at hq
    split at hq
    · cases hq
      obtain ⟨calls, harrived, hpushed, hdropped⟩ := h.sent
      exact ⟨hqueue, ⟨calls, harrived, hpushed, hdropped⟩, h.applied,
        fun _ => Option.isNone_iff_eq_none.mp hnone⟩
    · exact nomatch hq
  | pop => exact h.pop hs
  | apply =>
    obtain ⟨u, hu, rfl⟩ := Option.map_eq_some_iff.mp hs
    obtain ⟨done, hdone, hlob⟩ := h.applied
    obtain ⟨calls, harrived, hpushed, hdropped⟩ := h.sent
    refine ⟨h.queue, ⟨calls, harrived, hpushed, hdropped⟩, ⟨done ++ [u], ?_, ?_⟩, fun _ => rfl⟩
    · rw [hdone, hu]
      exact (List.append_nil _).symm
    · rw [hlob, List.foldl_append]
      rfl

end Inv

/-- Every cell of the book holds the last of the updates addressed to it, or what the
constructor left there. -/
def Shows (n d : Nat) (updates : List (LobUpdate K)) (lob : LobSoA K) : Prop :=
  ∀ slot : Slot, slot.instrument < n → slot.level < d →
    lob.price slot = some (heldAt (fun w => w.1.slot) (fun w => w.1.price)
      ((LobSoA.init n d).numbered updates) (fun _ => ((100 : Nat) : K)) slot) ∧
    lob.quantity slot = some (heldAt (fun w => w.1.slot) (fun w => w.1.quantity)
      ((LobSoA.init n d).numbered updates) (fun _ => ((0 : Nat) : K)) slot)

omit [Add K] [Mul K] [OfScientific K] in
theorem shows_foldl (n d : Nat) (updates : List (LobUpdate K)) :
    Shows n d updates (updates.foldl LobSoA.apply (LobSoA.init n d)) := by
  have hw : (LobSoA.init n d : LobSoA K).Sized := LobSoA.sized_init n d
  intro slot hi hl
  constructor
  · rw [hw.foldl_view rfl LobSoA.price LobUpdate.slot (fun w => some w.1.price)
      (fun hw h => hw.price_apply h) (fun _ => rfl)]
    exact heldAt_map some (LobSoA.price_init hi hl) _
  · rw [hw.foldl_view rfl LobSoA.quantity LobUpdate.slot (fun w => some w.1.quantity)
      (fun hw h => hw.quantity_apply h) (fun _ => rfl)]
    exact heldAt_map some (LobSoA.quantity_init hi hl) _

omit [NatCast K] [Add K] [Mul K] [OfScientific K] in
/-- Every update that arrived was taken, dropped and counted, or is pending. -/
theorem Sent.account {s : LiveBook K} {calls : List (LobUpdate K × Bool)} (h : s.Sent calls) :
    s.queue.pushed.Sublist s.arrived ∧
      s.queue.pushed.length + s.msgsDropped + s.pending.length = s.arrived.length := by
  constructor
  · rw [h.pushed, h.arrived]
    exact (List.filter_sublist.map Prod.fst).trans (List.sublist_append_left _ _)
  · have hsplit := List.length_eq_countP_add_countP (p := fun c : LobUpdate K × Bool => c.2)
      (l := calls)
    simp only [Bool.not_eq_true, Bool.decide_eq_false] at hsplit
    rw [h.pushed, h.dropped, h.arrived, List.length_map, ← List.countP_eq_length_filter,
      List.length_append, List.length_map, hsplit]

/-- In every interleaving of the two threads, whatever messages arrive: what arrived are the
updates offered to the ring, each taken or dropped and counted, and then those pending; the
book is the fold of a prefix of what the ring took; and when nothing is under way and nothing was
dropped, every cell of the book shows the last update that arrived for it. -/
theorem liveBook_replica (m n d : Nat) (slots : Nat → LobUpdate K) {es : List BookEvent}
    {s : LiveBook K}
    (hrun : Machine.run step (start (DynamicSpscRingBuffer.init (2 ^ (m + 1)) slots) n d) es =
      some s) :
    ((∃ calls, s.Sent calls) ∧ s.queue.pushed.Sublist s.arrived ∧
        s.queue.pushed.length + s.msgsDropped + s.pending.length = s.arrived.length) ∧
      (∃ done, done <+: s.queue.pushed ∧ s.queue.popped = done ++ s.hand.toList ∧
        s.lob = done.foldl LobSoA.apply (LobSoA.init n d) ∧ Shows n d done s.lob) ∧
      (s.Quiet → s.msgsDropped = 0 → Shows n d s.arrived s.lob) := by
  have h : Inv n d s := Machine.run_inv_all (fun _ _ _ hI hs => hI.step hs)
    (Inv.start n d (SpscRing.init_ok m slots)) hrun
  obtain ⟨calls, hcalls⟩ := h.sent
  obtain ⟨hsub, hcount⟩ := hcalls.account
  obtain ⟨done, hdone, hlob⟩ := h.applied
  have hprefix : done <+: s.queue.pushed :=
    (List.prefix_append done s.hand.toList).trans (hdone ▸ h.queue.order)
  refine ⟨⟨⟨calls, hcalls⟩, hsub, hcount⟩,
    ⟨done, hprefix, hdone, hlob, hlob ▸ shows_foldl n d done⟩, ?_⟩
  intro hquiet hzero
  have hheld := hquiet.empty
  rw [hquiet.hand, Option.toList_none, List.append_nil] at hdone
  unfold RingQueue.held at hheld
  rw [hdone] at hheld
  have hpushed : s.queue.pushed = s.arrived := by
    refine hsub.eq_of_length ?_
    rw [hquiet.pending, List.length_nil] at hcount
    omega
  have hall : done = s.arrived := by
    rw [← hpushed]
    refine hprefix.eq_of_length ?_
    have hle := hprefix.length_le
    omega
  rw [← hall, hlob]
  exact shows_foldl n d done

/-- A depth message with one level on each side. -/
def depthFrame : JsonValue :=
  .object [("stream", .string (bytes "btcusdt@depth5@100ms")),
    ("data", .object [("b", .array [.array [.string (bytes "100.5"), .string (bytes "1")]]),
      ("a", .array [.array [.string (bytes "101"), .string (bytes "2")]])])]

/-- The ask is pushed while the bid is popped. -/
def depthRun : List BookEvent :=
  [.message (.ok depthFrame) 7, .offer, .push, .push, .push, .push, .callPop, .pop, .offer, .push,
    .pop, .push, .pop, .push, .pop, .apply, .callPop, .push, .pop, .pop, .pop, .pop, .apply]

theorem liveBook_replica_message :
    ∃ s : LiveBook ℚ, s.arrived.length = 2 ∧ s.lob.bestBid 0 = 100.5 ∧
      Shows 4 1 s.arrived s.lob := by
  obtain ⟨s, hrun, hs⟩ := Machine.exists_of_elim
    (o := Machine.run step (start (DynamicSpscRingBuffer.init (2 ^ (1 + 1))
      fun _ => (⟨0, 0, 0, 0, 0, .bid⟩ : LobUpdate ℚ)) 4 1) depthRun)
    (P := fun s => (s.pending = [] ∧ s.hand = none ∧ s.queue.held = 0 ∧ s.msgsDropped = 0) ∧
      s.arrived.length = 2 ∧ s.lob.bestBid 0 = 100.5) (by decide +kernel)
  obtain ⟨⟨hpending, hhand, hempty, hzero⟩, hlen, hbid⟩ := hs
  exact ⟨s, hlen, hbid, (liveBook_replica 1 4 1 _ hrun).2.2 ⟨hpending, hhand, hempty⟩ hzero⟩

end LiveBook
end HoloMarket
