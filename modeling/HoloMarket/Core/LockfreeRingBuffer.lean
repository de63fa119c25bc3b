import Mathlib.Data.Nat.Bitwise
import Mathlib.Logic.Function.Basic

/-!
# The lock-free ring buffer

`lockfree_ring_buffer.hpp`: one producer, one consumer, and a step for every
atomic load, atomic store and slot copy.  The ring holds the elements that were
pushed and not yet popped; what each side knows between its steps survives every
step of the other.
-/

namespace HoloMarket

variable {T : Type*}

/-- `DynamicSpscRingBuffer`.  A slot that was never written holds whatever the
arena held. -/
structure SpscRing (T : Type*) where
  capacity : Nat
  slots : Nat → T
  head : Nat
  tail : Nat

/-- Where a call of `try_push` stands. -/
inductive PushPc where
  | loadHead
  | loadTail (head : Nat)
  | writeSlot (head : Nat)
  | storeHead (head : Nat)
deriving DecidableEq, Repr

/-- Where a call of `try_pop` stands. -/
inductive PopPc (T : Type*) where
  | loadTail
  | loadHead (tail : Nat)
  | readSlot (tail : Nat)
  | storeTail (tail : Nat) (out : T)
deriving DecidableEq, Repr

namespace SpscRing

/-- The ring after construction. -/
def init (capacity : Nat) (slots : Nat → T) : SpscRing T :=
  ⟨capacity, slots, 0, 0⟩

/-- `(index + 1U) & mask_`. -/
def next (ring : SpscRing T) (index : Nat) : Nat :=
  (index + 1) &&& (ring.capacity - 1)

/-- One step of `try_push`: where the call stands next, or what it returned. -/
def pushStep (ring : SpscRing T) (item : T) : PushPc → SpscRing T × (PushPc ⊕ Bool)
  | .loadHead => (ring, .inl (.loadTail ring.head))
  | .loadTail head =>
    (ring, if ring.next head = ring.tail then .inr false else .inl (.writeSlot head))
  | .writeSlot head =>
    ({ ring with slots := Function.update ring.slots head item }, .inl (.storeHead head))
  | .storeHead head => ({ ring with head := ring.next head }, .inr true)

/-- One step of `try_pop`: where the call stands next, or what it returned. -/
def popStep (ring : SpscRing T) : PopPc T → SpscRing T × (PopPc T ⊕ Option T)
  | .loadTail => (ring, .inl (.loadHead ring.tail))
  | .loadHead tail =>
    (ring, if tail = ring.head then .inr none else .inl (.readSlot tail))
  | .readSlot tail => (ring, .inl (.storeTail tail (ring.slots tail)))
  | .storeTail tail out => ({ ring with tail := ring.next tail }, .inr (some out))

/-- The ring after `pushed` went in and the first `popped` of them came out. -/
structure Ok (ring : SpscRing T) (pushed : List T) (popped : Nat) : Prop where
  pow : ∃ m, ring.capacity = 2 ^ (m + 1)
  head : ring.head = pushed.length % ring.capacity
  tail : ring.tail = popped % ring.capacity
  le : popped ≤ pushed.length
  room : pushed.length < popped + ring.capacity
  slot : ∀ i x, popped ≤ i → pushed[i]? = some x → ring.slots (i % ring.capacity) = x

end SpscRing

/-- What the producer knows inside `try_push item`. -/
def PushPc.Ok (ring : SpscRing T) (item : T) (pushed : List T) (popped : Nat) : PushPc → Prop
  | .loadHead => True
  | .loadTail head => head = ring.head
  | .writeSlot head => head = ring.head ∧ pushed.length + 1 < popped + ring.capacity
  | .storeHead head =>
    head = ring.head ∧ pushed.length + 1 < popped + ring.capacity ∧ ring.slots head = item

/-- What the consumer knows inside `try_pop`. -/
def PopPc.Ok (ring : SpscRing T) (pushed : List T) (popped : Nat) : PopPc T → Prop
  | .loadTail => True
  | .loadHead tail => tail = ring.tail
  | .readSlot tail => tail = ring.tail ∧ popped < pushed.length
  | .storeTail tail out => tail = ring.tail ∧ pushed[popped]? = some out

/-! ## Indices -/

theorem mod_eq_mod_iff {a b c : Nat} (hle : a ≤ b) (hlt : b < a + c) :
    b % c = a % c ↔ b = a := by
  constructor
  · intro h
    have hzero := Nat.sub_mod_eq_zero_of_mod_eq h
    rw [Nat.mod_eq_of_lt (by omega)] at hzero
    omega
  · rintro rfl
    rfl

namespace SpscRing

variable {ring : SpscRing T} {pushed : List T} {popped : Nat}

theorem init_ok (m : Nat) (slots : Nat → T) : (init (2 ^ (m + 1)) slots).Ok [] 0 where
  pow := ⟨m, rfl⟩
  head := rfl
  tail := rfl
  le := Nat.le_refl 0
  room := by
    show 0 < 0 + 2 ^ (m + 1)
    have hpow := Nat.two_pow_pos (m + 1)
    omega
  slot := fun i x _ hx => nomatch hx

namespace Ok

theorem next_mod (hok : ring.Ok pushed popped) (i : Nat) :
    ring.next (i % ring.capacity) = (i + 1) % ring.capacity := by
  obtain ⟨m, hm⟩ := hok.pow
  rw [next, hm, Nat.and_two_pow_sub_one_eq_mod, Nat.mod_add_mod]

/-- The consumer sees the two indices equal exactly when nothing is left. -/
theorem tail_eq_head_iff (hok : ring.Ok pushed popped) :
    ring.tail = ring.head ↔ popped = pushed.length := by
  rw [hok.tail, hok.head, eq_comm, mod_eq_mod_iff hok.le hok.room, eq_comm]

/-- The producer finds room unless the ring holds all but one of its slots. -/
theorem room_of_next_ne (hok : ring.Ok pushed popped) (h : ring.next ring.head ≠ ring.tail) :
    pushed.length + 1 < popped + ring.capacity := by
  have hroom := hok.room
  by_contra hfull
  have hlen : pushed.length + 1 = popped + ring.capacity := by omega
  refine h ?_
  rw [hok.head, hok.next_mod, hok.tail, hlen, Nat.add_mod_right]

/-- The slot the producer writes holds none of the elements in the ring. -/
theorem mod_ne_head (hok : ring.Ok pushed popped) {i : Nat} (hi : popped ≤ i)
    (hlt : i < pushed.length) : i % ring.capacity ≠ ring.head := by
  have hroom := hok.room
  intro heq
  rw [hok.head, eq_comm, mod_eq_mod_iff (Nat.le_of_lt hlt) (by omega)] at heq
  omega

/-! ## Steps of the producer -/

theorem writeSlot (hok : ring.Ok pushed popped) (item : T) :
    ({ ring with slots := Function.update ring.slots ring.head item } : SpscRing T).Ok
      pushed popped where
  pow := hok.pow
  head := hok.head
  tail := hok.tail
  le := hok.le
  room := hok.room
  slot i x hi hx := by
    have hlt : i < pushed.length := (List.getElem?_eq_some_iff.mp hx).1
    show Function.update ring.slots ring.head item (i % ring.capacity) = x
    rw [Function.update_of_ne (hok.mod_ne_head hi hlt)]
    exact hok.slot i x hi hx

theorem storeHead (hok : ring.Ok pushed popped) {item : T}
    (hroom : pushed.length + 1 < popped + ring.capacity) (hitem : ring.slots ring.head = item) :
    ({ ring with head := ring.next ring.head } : SpscRing T).Ok (pushed ++ [item]) popped where
  pow := hok.pow
  head := by
    show ring.next ring.head = (pushed ++ [item]).length % ring.capacity
    rw [hok.head, hok.next_mod, List.length_append, List.length_singleton]
  tail := hok.tail
  le := by
    have hle := hok.le
    rw [List.length_append]
    omega
  room := by
    show (pushed ++ [item]).length < popped + ring.capacity
    rw [List.length_append, List.length_singleton]
    exact hroom
  slot i x hi hx := by
    show ring.slots (i % ring.capacity) = x
    rcases Nat.lt_or_ge i pushed.length with hlt | hge
    · rw [List.getElem?_append_left hlt] at hx
      exact hok.slot i x hi hx
    · have hlen := (List.getElem?_eq_some_iff.mp hx).1
      rw [List.length_append, List.length_singleton] at hlen
      obtain rfl : i = pushed.length := by omega
      rw [List.getElem?_concat_length] at hx
      rw [← hok.head, hitem]
      exact Option.some.inj hx

/-! ## Steps of the consumer -/

theorem storeTail (hok : ring.Ok pushed popped) (hlt : popped < pushed.length) :
    ({ ring with tail := ring.next ring.tail } : SpscRing T).Ok pushed (popped + 1) where
  pow := hok.pow
  head := hok.head
  tail := by
    show ring.next ring.tail = (popped + 1) % ring.capacity
    rw [hok.tail, hok.next_mod]
  le := hlt
  room := by
    have hroom := hok.room
    show pushed.length < popped + 1 + ring.capacity
    omega
  slot i x hi hx := hok.slot i x (by omega) hx

end Ok

/-! ## The two sides -/

/-- The elements pushed once a step of `try_push` has answered. -/
def afterPush (pushed : List T) (item : T) : PushPc ⊕ Bool → List T
  | .inr true => pushed ++ [item]
  | _ => pushed

/-- The number of elements popped once a step of `try_pop` has answered. -/
def afterPop (popped : Nat) : PopPc T ⊕ Option T → Nat
  | .inr (some _) => popped + 1
  | _ => popped

end SpscRing

variable {ring ring' : SpscRing T} {pushed : List T} {popped : Nat} {item : T}

/-- What the consumer knows survives the steps of the producer. -/
theorem PopPc.Ok.mono {pc : PopPc T} (hpc : pc.Ok ring pushed popped)
    (htail : ring'.tail = ring.tail) (more : List T) : pc.Ok ring' (pushed ++ more) popped := by
  cases pc with
  | loadTail => trivial
  | loadHead tail => exact Eq.trans hpc htail.symm
  | readSlot tail =>
    refine ⟨hpc.1.trans htail.symm, ?_⟩
    have hlt := hpc.2
    rw [List.length_append]
    omega
  | storeTail tail out =>
    refine ⟨hpc.1.trans htail.symm, ?_⟩
    rw [List.getElem?_append_left (List.getElem?_eq_some_iff.mp hpc.2).1]
    exact hpc.2

/-- What the producer knows survives the steps of the consumer. -/
theorem PushPc.Ok.mono {pc : PushPc} (hpc : pc.Ok ring item pushed popped)
    (hcap : ring'.capacity = ring.capacity) (hhead : ring'.head = ring.head)
    (hslots : ring'.slots = ring.slots) {later : Nat} (hle : popped ≤ later) :
    pc.Ok ring' item pushed later := by
  cases pc with
  | loadHead => trivial
  | loadTail head => exact Eq.trans hpc hhead.symm
  | writeSlot head =>
    have hroom := hpc.2
    exact ⟨hpc.1.trans hhead.symm, by omega⟩
  | storeHead head =>
    have hroom := hpc.2.1
    exact ⟨hpc.1.trans hhead.symm, by omega, by rw [hslots]; exact hpc.2.2⟩

namespace SpscRing

/-- A step of `try_push` keeps the ring and what either side knows. -/
theorem Ok.pushStep (hok : ring.Ok pushed popped) {pc : PushPc}
    (hpc : pc.Ok ring item pushed popped) {r : PushPc ⊕ Bool}
    (hstep : ring.pushStep item pc = (ring', r)) :
    ring'.Ok (afterPush pushed item r) popped ∧
      (∀ pc', r = .inl pc' → pc'.Ok ring' item pushed popped) ∧
      ∀ qc : PopPc T, qc.Ok ring pushed popped →
        qc.Ok ring' (afterPush pushed item r) popped := by
  cases pc with
  | loadHead =>
    cases hstep
    refine ⟨hok, ?_, fun qc hqc => hqc⟩
    rintro pc' ⟨⟩
    rfl
  | loadTail head =>
    obtain rfl : head = ring.head := hpc
    simp only [SpscRing.pushStep] at hstep
    split at hstep
    · cases hstep
      exact ⟨hok, (fun _ h => nomatch h), fun qc hqc => hqc⟩
    · next hne =>
      cases hstep
      refine ⟨hok, ?_, fun qc hqc => hqc⟩
      rintro pc' ⟨⟩
      exact ⟨rfl, hok.room_of_next_ne hne⟩
  | writeSlot head =>
    obtain ⟨rfl, hroom⟩ := hpc
    cases hstep
    refine ⟨hok.writeSlot item, ?_, fun qc hqc => ?_⟩
    · rintro pc' ⟨⟩
      exact ⟨rfl, hroom, Function.update_self _ _ _⟩
    · show qc.Ok _ pushed popped
      rw [← List.append_nil pushed]
      exact hqc.mono rfl []
  | storeHead head =>
    obtain ⟨rfl, hroom, hitem⟩ := hpc
    cases hstep
    exact ⟨hok.storeHead hroom hitem, (fun _ h => nomatch h), fun qc hqc => hqc.mono rfl [item]⟩

/-- A step of `try_pop` keeps the ring and what either side knows, and returns
the next element. -/
theorem Ok.popStep (hok : ring.Ok pushed popped) {pc : PopPc T}
    (hpc : pc.Ok ring pushed popped) {r : PopPc T ⊕ Option T}
    (hstep : ring.popStep pc = (ring', r)) :
    ring'.Ok pushed (afterPop popped r) ∧
      (∀ pc', r = .inl pc' → pc'.Ok ring' pushed popped) ∧
      (∀ out, r = .inr (some out) → pushed[popped]? = some out) ∧
      ∀ (item : T) (qc : PushPc), qc.Ok ring item pushed popped →
        qc.Ok ring' item pushed (afterPop popped r) := by
  cases pc with
  | loadTail =>
    cases hstep
    refine ⟨hok, ?_, (fun _ h => nomatch h), fun item qc hqc => hqc⟩
    rintro pc' ⟨⟩
    rfl
  | loadHead tail =>
    obtain rfl : tail = ring.tail := hpc
    simp only [SpscRing.popStep] at hstep
    split at hstep
    · cases hstep
      exact ⟨hok, (fun _ h => nomatch h), (fun _ h => nomatch h), fun item qc hqc => hqc⟩
    · next hne =>
      cases hstep
      refine ⟨hok, ?_, (fun _ h => nomatch h), fun item qc hqc => hqc⟩
      rintro pc' ⟨⟩
      have hpopped : popped ≠ pushed.length := fun h => hne (hok.tail_eq_head_iff.mpr h)
      have hle := hok.le
      exact ⟨rfl, by omega⟩
  | readSlot tail =>
    obtain ⟨rfl, hlt⟩ := hpc
    cases hstep
    refine ⟨hok, ?_, (fun _ h => nomatch h), fun item qc hqc => hqc⟩
    rintro pc' ⟨⟩
    refine ⟨rfl, ?_⟩
    have hget := List.getElem?_eq_getElem hlt
    rw [hok.tail, hok.slot popped _ (Nat.le_refl _) hget]
    exact hget
  | storeTail tail out =>
    obtain ⟨rfl, hget⟩ := hpc
    cases hstep
    refine ⟨hok.storeTail (List.getElem?_eq_some_iff.mp hget).1, (fun _ h => nomatch h), ?_,
      fun item qc hqc => hqc.mono rfl rfl rfl (Nat.le_succ popped)⟩
    rintro out' ⟨⟩
    exact hget

end SpscRing
end HoloMarket
