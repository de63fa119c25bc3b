import HoloMarket.Core.LockfreeRingBuffer
import HoloMarket.Lib.Machine

/-!
# The ring buffers are bounded queues

One producer calling `try_push` and one consumer calling `try_pop`, their steps
interleaved in any way, with the elements pushed and popped so far.  Both classes
of `lockfree_ring_buffer.hpp` have the same two bodies over the same fields.
-/

namespace HoloMarket

variable {T : Type*}

/-- `SpscRingBuffer<T, Capacity>`, as constructed. -/
def SpscRingBuffer.init (k_capacity : Nat) (slots : Nat → T) : SpscRing T :=
  SpscRing.init k_capacity slots

/-- `DynamicSpscRingBuffer<T>`, as constructed with slots of the arena. -/
def DynamicSpscRingBuffer.init (capacity : Nat) (slots : Nat → T) : SpscRing T :=
  SpscRing.init capacity slots

inductive RingClass where
  | SpscRingBuffer
  | DynamicSpscRingBuffer
deriving DecidableEq, Repr

def RingClass.init : RingClass → Nat → (Nat → T) → SpscRing T
  | .SpscRingBuffer => HoloMarket.SpscRingBuffer.init
  | .DynamicSpscRingBuffer => HoloMarket.DynamicSpscRingBuffer.init

/-- The ring, the call each side is in, and what went in and came out, oldest
first. -/
structure RingQueue (T : Type*) where
  ring : SpscRing T
  producer : Option (T × PushPc)
  consumer : Option (PopPc T)
  pushed : List T
  popped : List T

inductive RingEvent (T : Type*) where
  | callPush (item : T)
  | stepPush
  | callPop
  | stepPop

namespace RingQueue

def start (ring : SpscRing T) : RingQueue T := ⟨ring, none, none, [], []⟩

def held (q : RingQueue T) : Nat := q.pushed.length - q.popped.length

/-- The call that a step of `try_push` leaves the producer in. -/
def pushing (item : T) : PushPc ⊕ Bool → Option (T × PushPc)
  | .inl pc => some (item, pc)
  | .inr _ => none

def popping : PopPc T ⊕ Option T → Option (PopPc T)
  | .inl pc => some pc
  | .inr _ => none

/-- The element that a step of `try_pop` returns. -/
def out? : PopPc T ⊕ Option T → List T
  | .inr (some out) => [out]
  | _ => []

/-- A step of the call that the producer is in. -/
def stepPush (q : RingQueue T) : Option (RingQueue T) :=
  q.producer.map fun (item, pc) =>
    let (ring, r) := q.ring.pushStep item pc
    { q with
      ring := ring
      producer := pushing item r
      pushed := SpscRing.afterPush q.pushed item r }

/-- A step of the call that the consumer is in. -/
def stepPop (q : RingQueue T) : Option (RingQueue T) :=
  q.consumer.map fun pc =>
    let (ring, r) := q.ring.popStep pc
    { q with ring := ring, consumer := popping r, popped := q.popped ++ out? r }

def step (q : RingQueue T) : RingEvent T → Option (RingQueue T)
  | .callPush item =>
    match q.producer with
    | none => some { q with producer := some (item, .loadHead) }
    | some _ => none
  | .stepPush => q.stepPush
  | .callPop =>
    match q.consumer with
    | none => some { q with consumer := some .loadTail }
    | some _ => none
  | .stepPop => q.stepPop

/-- The invariant: the ring holds what was pushed and not popped, each side knows
what it needs, and what came out is what went in first. -/
structure Inv (q : RingQueue T) : Prop where
  ring : q.ring.Ok q.pushed q.popped.length
  producer : ∀ item pc, q.producer = some (item, pc) →
    pc.Ok q.ring item q.pushed q.popped.length
  consumer : ∀ pc, q.consumer = some pc → pc.Ok q.ring q.pushed q.popped.length
  order : q.popped <+: q.pushed

theorem stepPush_spec {q q' : RingQueue T} (h : q.stepPush = some q') :
    ∃ item pc ring r, q.producer = some (item, pc) ∧ q.ring.pushStep item pc = (ring, r) ∧
      q' = { q with ring := ring, producer := pushing item r,
                    pushed := SpscRing.afterPush q.pushed item r } := by
  obtain ⟨⟨item, pc⟩, hp, rfl⟩ := Option.map_eq_some_iff.mp h
  exact ⟨item, pc, _, _, hp, rfl, rfl⟩

theorem stepPop_spec {q q' : RingQueue T} (h : q.stepPop = some q') :
    ∃ pc ring r, q.consumer = some pc ∧ q.ring.popStep pc = (ring, r) ∧
      q' = { q with ring := ring, consumer := popping r, popped := q.popped ++ out? r } := by
  obtain ⟨pc, hp, rfl⟩ := Option.map_eq_some_iff.mp h
  exact ⟨pc, _, _, hp, rfl, rfl⟩

theorem length_popped (popped : List T) (r : PopPc T ⊕ Option T) :
    (popped ++ out? r).length = SpscRing.afterPop popped.length r := by
  rw [List.length_append]
  match r with
  | .inl pc => rfl
  | .inr none => rfl
  | .inr (some out) => rfl

theorem inv_start {ring : SpscRing T} (h : ring.Ok [] 0) : (start ring).Inv where
  ring := h
  producer _ _ hp := nomatch hp
  consumer _ hp := nomatch hp
  order := List.prefix_rfl

namespace Inv

variable {q q' : RingQueue T}

theorem stepPush (h : q.Inv) (hs : q.stepPush = some q') : q'.Inv := by
  obtain ⟨item, pc, ring, r, hp, hr, rfl⟩ := stepPush_spec hs
  obtain ⟨hring, hnext, hother⟩ := h.ring.pushStep (h.producer item pc hp) hr
  refine ⟨hring, ?_, fun qc hqc => hother qc (h.consumer qc hqc), h.order.trans ?_⟩
  · intro item' pc' he
    match r, he with
    | .inl pc₁, he =>
      cases he
      exact hnext pc' rfl
  · show q.pushed <+: SpscRing.afterPush q.pushed item r
    match r with
    | .inl pc₁ => exact List.prefix_rfl
    | .inr true => exact List.prefix_append _ _
    | .inr false => exact List.prefix_rfl

theorem stepPop (h : q.Inv) (hs : q.stepPop = some q') : q'.Inv := by
  obtain ⟨pc, ring, r, hp, hr, rfl⟩ := stepPop_spec hs
  obtain ⟨hring, hnext, hout, hother⟩ := h.ring.popStep (h.consumer pc hp) hr
  have hlen := length_popped q.popped r
  refine ⟨?_, fun item qc hqc => ?_, fun pc' he => ?_, ?_⟩
  · rw [hlen]
    exact hring
  · rw [hlen]
    exact hother item qc (h.producer item qc hqc)
  · match r, he with
    | .inl pc₁, he =>
      cases he
      rw [hlen]
      exact hnext pc' rfl
  · show q.popped ++ out? r <+: q.pushed
    match r with
    | .inl pc₁ =>
      show q.popped ++ [] <+: q.pushed
      rw [List.append_nil]
      exact h.order
    | .inr none =>
      show q.popped ++ [] <+: q.pushed
      rw [List.append_nil]
      exact h.order
    | .inr (some out) =>
      -- the element returned is the first of those not yet popped
      obtain ⟨rest, hrest⟩ := h.order
      have hget := hout out rfl
      rw [← hrest, List.getElem?_append_right (Nat.le_refl _), Nat.sub_self] at hget
      obtain ⟨tl, rfl⟩ := List.head?_eq_some_iff.mp (List.head?_eq_getElem?.trans hget)
      exact ⟨tl, by rw [← hrest]; simp [out?]⟩

theorem step (h : q.Inv) {e : RingEvent T} (hs : q.step e = some q') : q'.Inv := by
  cases e with
  | callPush item =>
    unfold RingQueue.step at hs
    dsimp only at hs
    split at hs <;> cases hs
    refine ⟨h.ring, fun item' pc he => ?_, h.consumer, h.order⟩
    cases he
    trivial
  | stepPush => exact h.stepPush hs
  | callPop =>
    unfold RingQueue.step at hs
    dsimp only at hs
    split at hs <;> cases hs
    refine ⟨h.ring, h.producer, fun pc he => ?_, h.order⟩
    cases he
    trivial
  | stepPop => exact h.stepPop hs

theorem held_lt (h : q.Inv) : q.held < q.ring.capacity := by
  have hle := h.ring.le
  have hroom := h.ring.room
  unfold held
  omega

/-- The slot being read is not the one being written: there is an element to
read, and it is not where the next one goes. -/
theorem slots_ne (h : q.Inv) {item : T} {head tail : Nat}
    (hp : q.producer = some (item, .writeSlot head)) (hc : q.consumer = some (.readSlot tail)) :
    head ≠ tail := by
  obtain ⟨rfl, -⟩ := h.producer _ _ hp
  obtain ⟨rfl, hlt⟩ := h.consumer _ hc
  intro heq
  have hall := h.ring.tail_eq_head_iff.mp heq.symm
  omega

end Inv
end RingQueue

/-- The producer finds no room only in a ring that holds all but one slot. -/
theorem SpscRing.Ok.full_of_next_eq {ring : SpscRing T} {pushed : List T} {popped : Nat}
    (hok : ring.Ok pushed popped) (h : ring.next ring.head = ring.tail) :
    pushed.length + 1 = popped + ring.capacity := by
  have hroom := hok.room
  have hle := hok.le
  rw [hok.head, hok.next_mod, hok.tail] at h
  by_contra hne
  have hlen := (mod_eq_mod_iff (by omega) (by omega)).mp h
  omega

namespace RingQueue

/-- A call of `try_push` fails where it reads `tail`, and on a full ring. -/
theorem Inv.push_fails {q : RingQueue T} (h : q.Inv) {item : T} {pc : PushPc}
    (hp : q.producer = some (item, pc)) (hr : (q.ring.pushStep item pc).2 = .inr false) :
    (∃ head, pc = .loadTail head) ∧ q.held = q.ring.capacity - 1 := by
  have hpc := h.producer item pc hp
  cases pc with
  | loadHead => cases hr
  | loadTail head =>
    obtain rfl : head = q.ring.head := hpc
    refine ⟨⟨_, rfl⟩, ?_⟩
    simp only [SpscRing.pushStep] at hr
    split at hr
    · next hfull =>
      have hlen := h.ring.full_of_next_eq hfull
      unfold held
      omega
    · cases hr
  | writeSlot head => cases hr
  | storeHead head => cases hr

/-- A call of `try_pop` fails where it reads `head`, and on an empty ring. -/
theorem Inv.pop_fails {q : RingQueue T} (h : q.Inv) {pc : PopPc T}
    (hp : q.consumer = some pc) (hr : (q.ring.popStep pc).2 = .inr none) :
    (∃ tail, pc = .loadHead tail) ∧ q.held = 0 := by
  have hpc := h.consumer pc hp
  cases pc with
  | loadTail => cases hr
  | loadHead tail =>
    obtain rfl : tail = q.ring.tail := hpc
    refine ⟨⟨_, rfl⟩, ?_⟩
    simp only [SpscRing.popStep] at hr
    split at hr
    · next hempty =>
      have hlen := h.ring.tail_eq_head_iff.mp hempty
      unfold held
      omega
    · cases hr
  | readSlot tail => cases hr
  | storeTail tail out => cases hr

theorem step_capacity {q q' : RingQueue T} {e : RingEvent T} (h : q.step e = some q') :
    q'.ring.capacity = q.ring.capacity := by
  cases e with
  | callPush item =>
    unfold step at h
    dsimp only at h
    split at h <;> cases h
    rfl
  | stepPush =>
    obtain ⟨item, pc, ring, r, -, hr, rfl⟩ := stepPush_spec h
    cases pc <;> cases hr <;> rfl
  | callPop =>
    unfold step at h
    dsimp only at h
    split at h <;> cases h
    rfl
  | stepPop =>
    obtain ⟨pc, ring, r, -, hr, rfl⟩ := stepPop_spec h
    cases pc <;> cases hr <;> rfl

theorem init_ok (cls : RingClass) (m : Nat) (slots : Nat → T) :
    (cls.init (2 ^ (m + 1)) slots).Ok [] 0 := by
  cases cls with
  | SpscRingBuffer => exact SpscRing.init_ok m slots
  | DynamicSpscRingBuffer => exact SpscRing.init_ok m slots

/-- Either ring buffer is a bounded queue in every interleaving: what comes out is
what went in first, one slot stays free, no slot is read while it is written, a
push fails only if the queue is full when it reads `tail` and a pop only if it is
empty when it reads `head`. -/
theorem ring_is_bounded_fifo (cls : RingClass) (m : Nat) (slots : Nat → T)
    {es : List (RingEvent T)} {q : RingQueue T}
    (hrun : Machine.run step (start (cls.init (2 ^ (m + 1)) slots)) es = some q) :
    q.popped <+: q.pushed ∧ q.held ≤ 2 ^ (m + 1) - 1 ∧
      (∀ item head tail, q.producer = some (item, .writeSlot head) →
        q.consumer = some (.readSlot tail) → head ≠ tail) ∧
      (∀ item pc, q.producer = some (item, pc) → (q.ring.pushStep item pc).2 = .inr false →
        (∃ head, pc = .loadTail head) ∧ q.held = 2 ^ (m + 1) - 1) ∧
      ∀ pc, q.consumer = some pc → (q.ring.popStep pc).2 = .inr none →
        (∃ tail, pc = .loadHead tail) ∧ q.held = 0 := by
  have hcap₀ : (cls.init (2 ^ (m + 1)) slots).capacity = 2 ^ (m + 1) := by
    cases cls <;> rfl
  obtain ⟨h, hcap⟩ : q.Inv ∧ q.ring.capacity = 2 ^ (m + 1) :=
    Machine.run_inv_all (I := fun q => q.Inv ∧ q.ring.capacity = 2 ^ (m + 1))
      (fun _ _ _ hI hs => ⟨hI.1.step hs, (step_capacity hs).trans hI.2⟩)
      ⟨inv_start (init_ok cls m slots), hcap₀⟩ hrun
  have hheld := h.held_lt
  rw [hcap] at hheld
  refine ⟨h.order, by omega, fun _ _ _ hp hc => h.slots_ne hp hc, fun item pc hp hr => ?_,
    fun pc hp hr => h.pop_fails hp hr⟩
  rw [← hcap]
  exact h.push_fails hp hr

/-- A ring of two slots: while the second push finds no room, the consumer takes
out the first element. -/
def fullThenPopped : List (RingEvent Nat) :=
  [.callPush 7, .stepPush, .stepPush, .stepPush, .stepPush, .callPush 8, .stepPush, .callPop,
    .stepPop, .stepPop, .stepPush, .stepPop, .stepPop]

theorem ring_is_bounded_fifo_full_then_popped :
    ∃ q, Machine.run step (start (RingClass.DynamicSpscRingBuffer.init (2 ^ (0 + 1)) fun _ => 0))
        fullThenPopped = some q ∧
      q.popped = [7] ∧ q.producer.isNone ∧ q.popped <+: q.pushed ∧ q.held ≤ 2 ^ (0 + 1) - 1 := by
  obtain ⟨q, hrun, hq⟩ := Machine.exists_of_elim
    (o := Machine.run step (start (RingClass.DynamicSpscRingBuffer.init (2 ^ (0 + 1)) fun _ => 0))
      fullThenPopped)
    (P := fun q => q.popped = [7] ∧ q.producer.isNone = true) (by decide)
  have h := ring_is_bounded_fifo .DynamicSpscRingBuffer 0 (fun _ => 0) hrun
  exact ⟨q, hrun, hq.1, hq.2, h.1, h.2.1⟩

end RingQueue
end HoloMarket
