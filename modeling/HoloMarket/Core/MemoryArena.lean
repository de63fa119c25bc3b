import HoloMarket.Lib.Machine
import Mathlib.Data.UInt

/-!
# The memory arena

`memory_arena.hpp`: the bump allocator that the order book and the ring buffers
live in.  `std::size_t` is `UInt64`, so that the rounding, the product and the sum
of the bounds test wrap as they do in the code.  A pointer is an offset from
`base_`, which is aligned to a page.
-/

namespace HoloMarket

def kCacheLine : UInt64 := 64

def kPageSize : UInt64 := 4096

def kArenaAlign : UInt64 := kPageSize

def alignUp (value alignment : UInt64) : UInt64 :=
  (value + alignment - 1) &&& ~~~(alignment - 1)

/-- `sizeof(T)` and `alignof(T)` of an element type. -/
structure ElementType where
  size : UInt64
  align : UInt64
  align_pow : ∃ k < 64, align.toNat = 2 ^ k

/-- The alignment `alloc` gives: the type's own, at most a cache line. -/
def ElementType.alignment (T : ElementType) : UInt64 :=
  if T.align < kCacheLine then T.align else kCacheLine

structure MemoryArena where
  capacity : UInt64
  cursor : UInt64
deriving DecidableEq

namespace MemoryArena

def new (capacityBytes : UInt64) : MemoryArena :=
  ⟨alignUp capacityBytes kArenaAlign, 0⟩

/-- The pointer, when it is not null, and the arena afterwards. -/
def alloc (a : MemoryArena) (T : ElementType) (count : UInt64) : Option UInt64 × MemoryArena :=
  let alignedCursor := alignUp a.cursor T.alignment
  let required := T.size * count
  if alignedCursor + required > a.capacity then
    (none, a)
  else
    (some alignedCursor, { a with cursor := alignedCursor + required })

/-- The span's data and length; an empty span is `none`. -/
def allocSpan (a : MemoryArena) (T : ElementType) (count : UInt64) :
    Option (UInt64 × UInt64) × MemoryArena :=
  match a.alloc T count with
  | (none, a') => (none, a')
  | (some ptr, a') => (some (ptr, count), a')

def emplace (a : MemoryArena) (T : ElementType) : Option UInt64 × MemoryArena :=
  a.alloc T 1

def reset (a : MemoryArena) : MemoryArena :=
  { a with cursor := 0 }

end MemoryArena

/-- A call of one of the arena's methods. -/
inductive ArenaCall where
  | alloc (T : ElementType) (count : UInt64)
  | allocSpan (T : ElementType) (count : UInt64)
  | emplace (T : ElementType)
  | reset

/-- The elements a call asks room for. -/
def ArenaCall.request : ArenaCall → Option (ElementType × UInt64)
  | .alloc T count => some (T, count)
  | .allocSpan T count => some (T, count)
  | .emplace T => some (T, 1)
  | .reset => none

/-- What a caller was given: `count` elements from `ptr` on. -/
structure Block where
  ptr : UInt64
  elem : ElementType
  count : UInt64

/-- The offset behind the last byte of the block, as a mathematical number. -/
def Block.stop (b : Block) : Nat :=
  b.ptr.toNat + b.elem.size.toNat * b.count.toNat

/-- The byte at offset `i` belongs to the block. -/
def Block.Covers (b : Block) (i : Nat) : Prop :=
  b.ptr.toNat ≤ i ∧ i < b.stop

/-- The block a call returns and the arena afterwards. -/
def MemoryArena.call (a : MemoryArena) : ArenaCall → Option Block × MemoryArena
  | .alloc T count => ((a.alloc T count).1.map fun ptr => ⟨ptr, T, count⟩, (a.alloc T count).2)
  | .allocSpan T count =>
    ((a.allocSpan T count).1.map fun span => ⟨span.1, T, span.2⟩, (a.allocSpan T count).2)
  | .emplace T => ((a.emplace T).1.map fun ptr => ⟨ptr, T, 1⟩, (a.emplace T).2)
  | .reset => (none, a.reset)

/-- The arena with the blocks given out since the last reset. -/
structure ArenaRun where
  arena : MemoryArena
  blocks : List Block

namespace ArenaRun

def start (capacityBytes : UInt64) : ArenaRun :=
  ⟨MemoryArena.new capacityBytes, []⟩

def step (s : ArenaRun) (c : ArenaCall) : Option ArenaRun :=
  some
    { arena := (s.arena.call c).2
      blocks := if c.request = none then [] else (s.arena.call c).1.toList ++ s.blocks }

/-- A block of `count` elements of type `T`, as it may be given out in `s`. -/
structure Granted (s : ArenaRun) (T : ElementType) (count : UInt64) (b : Block) : Prop where
  elem : b.elem = T
  count : b.count = count
  inside : b.stop ≤ s.arena.capacity.toNat
  aligned : b.ptr.toNat % min T.align.toNat 64 = 0
  apart : ∀ e ∈ s.blocks, ∀ i, ¬ (b.Covers i ∧ e.Covers i)

/-- A request is answered by a block of its size that overlaps no other, or by null
with the cursor where it was. -/
def Sound (s : ArenaRun) (c : ArenaCall) : Prop :=
  ∀ T count, c.request = some (T, count) →
    (∀ b ∈ (s.arena.call c).1, s.Granted T count b) ∧
      ((s.arena.call c).1 = none → (s.arena.call c).2.cursor = s.arena.cursor)

/-- Where a request would end if sums and products did not wrap. -/
def trueEnd (s : ArenaRun) (T : ElementType) (count : UInt64) : Nat :=
  (alignUp s.arena.cursor T.alignment).toNat + T.size.toNat * count.toNat

/-- A request that does not fit does not wrap back into the arena either. -/
def NoWrapInside (s : ArenaRun) (c : ArenaCall) : Prop :=
  ∀ T count, c.request = some (T, count) →
    s.trueEnd T count ≤ s.arena.capacity.toNat ∨
      s.arena.capacity.toNat < s.trueEnd T count % 2 ^ 64

end ArenaRun

/-! ## Rounding up -/

theorem and_complement_mask {x k : Nat} (hx : x < 2 ^ 64) (hk : k < 64) :
    x &&& (2 ^ 64 - 1 - (2 ^ k - 1)) = x / 2 ^ k * 2 ^ k := by
  have hlt : 2 ^ k - 1 < 2 ^ 64 := by
    have := Nat.pow_lt_pow_right (show 1 < 2 by omega) hk
    omega
  have he : 2 ^ 64 - 1 - (2 ^ k - 1) = 2 ^ 64 - ((2 ^ k - 1) + 1) := by omega
  rw [← Nat.shiftRight_eq_div_pow, ← Nat.shiftLeft_eq]
  apply Nat.eq_of_testBit_eq
  intro i
  rw [Nat.testBit_and, he, Nat.testBit_two_pow_sub_succ hlt, Nat.testBit_two_pow_sub_one,
    Nat.testBit_shiftLeft, Nat.testBit_shiftRight]
  by_cases hi : k ≤ i
  · rw [Nat.add_sub_cancel' hi]
    by_cases h64 : i < 64
    · simp [hi, h64]
    · have hbit : x.testBit i = false :=
        Nat.testBit_lt_two_pow (hx.trans_le (Nat.pow_le_pow_right (by omega) (by omega)))
      simp [hbit]
  · simp [hi]
    omega

section AlignUp

variable {v a : UInt64} {k : Nat}

theorem toNat_alignUp (hk : k < 64) (ha : a.toNat = 2 ^ k) :
    (alignUp v a).toNat = (v + a - 1).toNat / 2 ^ k * 2 ^ k := by
  have hone : (1 : UInt64) ≤ a := by
    rw [UInt64.le_iff_toNat_le, ha]
    exact Nat.two_pow_pos k
  have hmask : (a - 1).toNat = 2 ^ k - 1 := by
    rw [UInt64.toNat_sub_of_le _ _ hone, ha]
    rfl
  unfold alignUp
  rw [UInt64.toNat_and, UInt64.toNat_not, hmask]
  exact and_complement_mask (v + a - 1).toNat_lt hk

theorem dvd_alignUp (hk : k < 64) (ha : a.toNat = 2 ^ k) : 2 ^ k ∣ (alignUp v a).toNat := by
  rw [toNat_alignUp hk ha]
  exact Dvd.intro_left _ rfl

/-- Short of the wrap the rounding is upward, and never past a multiple of the
alignment. -/
theorem alignUp_bounds (hk : k < 64) (ha : a.toNat = 2 ^ k) (hv : v.toNat + 2 ^ k < 2 ^ 64)
    {top : Nat} (htop : 2 ^ k ∣ top) (hle : v.toNat ≤ top) :
    v.toNat ≤ (alignUp v a).toNat ∧ (alignUp v a).toNat ≤ top := by
  have hpos : 0 < 2 ^ k := Nat.two_pow_pos k
  have hsum : (v + a - 1).toNat = v.toNat + (2 ^ k - 1) := by
    have hva : (v + a).toNat = v.toNat + 2 ^ k := by
      rw [UInt64.toNat_add, ha]
      exact Nat.mod_eq_of_lt hv
    have hone : (1 : UInt64) ≤ v + a := by
      rw [UInt64.le_iff_toNat_le, hva]
      show 1 ≤ _
      omega
    rw [UInt64.toNat_sub_of_le _ _ hone, hva]
    show v.toNat + 2 ^ k - 1 = _
    omega
  rw [toNat_alignUp hk ha, hsum]
  constructor
  · have hdiv := Nat.div_add_mod (v.toNat + (2 ^ k - 1)) (2 ^ k)
    have hmod := Nat.mod_lt (v.toNat + (2 ^ k - 1)) hpos
    rw [Nat.mul_comm] at hdiv
    omega
  · obtain ⟨m, rfl⟩ := htop
    rw [Nat.mul_comm]
    refine Nat.mul_le_mul_left _ (Nat.le_of_lt_succ ?_)
    rw [Nat.div_lt_iff_lt_mul hpos, Nat.succ_mul, Nat.mul_comm m]
    omega

end AlignUp

namespace ElementType

variable (T : ElementType)

theorem toNat_alignment : T.alignment.toNat = min T.align.toNat 64 := by
  unfold alignment
  split_ifs with h
  · have hlt : T.align.toNat < 64 := UInt64.lt_iff_toNat_lt.mp h
    omega
  · have hle : 64 ≤ T.align.toNat := not_lt.mp fun hlt => h (UInt64.lt_iff_toNat_lt.mpr hlt)
    rw [min_eq_right hle]
    rfl

theorem alignment_pow : ∃ k ≤ 6, T.alignment.toNat = 2 ^ k := by
  obtain ⟨k, -, hk⟩ := T.align_pow
  rw [toNat_alignment, hk]
  by_cases h : k ≤ 6
  · refine ⟨k, h, min_eq_left ?_⟩
    exact Nat.pow_le_pow_right (by omega) h
  · refine ⟨6, le_rfl, min_eq_right ?_⟩
    exact Nat.pow_le_pow_right (show 0 < 2 by omega) (show 6 ≤ k by omega)

end ElementType

/-! ## One call -/

namespace ArenaRun

/-- The capacity is a number of pages, and nothing lies behind the cursor. -/
structure Inv (s : ArenaRun) : Prop where
  pages : 4096 ∣ s.arena.capacity.toNat
  cursor_le : s.arena.cursor.toNat ≤ s.arena.capacity.toNat
  stop_le : ∀ b ∈ s.blocks, b.stop ≤ s.arena.cursor.toNat

variable {s s' : ArenaRun} {c : ArenaCall} {T : ElementType} {count : UInt64}

theorem inv_start (capacityBytes : UInt64) : (start capacityBytes).Inv where
  pages := dvd_alignUp (k := 12) (by omega) rfl
  cursor_le := Nat.zero_le _
  stop_le b hb := absurd hb List.not_mem_nil

theorem Inv.aligned (h : s.Inv) (T : ElementType) :
    s.arena.cursor.toNat ≤ (alignUp s.arena.cursor T.alignment).toNat ∧
      (alignUp s.arena.cursor T.alignment).toNat ≤ s.arena.capacity.toNat := by
  obtain ⟨k, hk, hT⟩ := T.alignment_pow
  have hpow : 2 ^ k ∣ 4096 := pow_dvd_pow 2 (show k ≤ 12 by omega)
  have hle : 2 ^ k ≤ 2 ^ 6 := Nat.pow_le_pow_right (by omega) hk
  have hcap := s.arena.capacity.toNat_lt
  have hpages := h.pages
  have hcursor := h.cursor_le
  -- the last page of the address space is out of reach, so rounding up cannot wrap
  exact alignUp_bounds (by omega) hT (by omega) (hpow.trans hpages) hcursor

/-- `alloc` compares the true end modulo `2 ^ 64` with the capacity. -/
theorem alloc_eq (s : ArenaRun) (T : ElementType) (count : UInt64) :
    (s.trueEnd T count % 2 ^ 64 ≤ s.arena.capacity.toNat ∧ s.arena.alloc T count =
        (some (alignUp s.arena.cursor T.alignment),
          { s.arena with
            cursor := alignUp s.arena.cursor T.alignment + T.size * count })) ∨
      (s.arena.capacity.toNat < s.trueEnd T count % 2 ^ 64 ∧
        s.arena.alloc T count = (none, s.arena)) := by
  have hend : (alignUp s.arena.cursor T.alignment + T.size * count).toNat =
      s.trueEnd T count % 2 ^ 64 := by
    rw [UInt64.toNat_add, UInt64.toNat_mul]
    exact Nat.add_mod_mod ..
  rw [← hend]
  by_cases hfit : alignUp s.arena.cursor T.alignment + T.size * count > s.arena.capacity
  · exact .inr ⟨UInt64.lt_iff_toNat_lt.mp hfit, if_pos hfit⟩
  · exact .inl ⟨not_lt.mp fun h => hfit (UInt64.lt_iff_toNat_lt.mpr h), if_neg hfit⟩

theorem call_of_request (a : MemoryArena) (hc : c.request = some (T, count)) :
    a.call c = ((a.alloc T count).1.map fun ptr => ⟨ptr, T, count⟩, (a.alloc T count).2) := by
  cases c with
  | alloc T' count' =>
    cases hc
    rfl
  | allocSpan T' count' =>
    cases hc
    show ((a.allocSpan T count).1.map _, (a.allocSpan T count).2) = _
    unfold MemoryArena.allocSpan
    rcases a.alloc T count with ⟨_ | ptr, a'⟩ <;> rfl
  | emplace T' =>
    cases hc
    rfl
  | reset => cases hc

/-- The answer to a request: the block up to its true end, or null. -/
theorem call_cases (s : ArenaRun) (hc : c.request = some (T, count)) :
    (s.trueEnd T count % 2 ^ 64 ≤ s.arena.capacity.toNat ∧ s.arena.call c =
        (some ⟨alignUp s.arena.cursor T.alignment, T, count⟩,
          { s.arena with
            cursor := alignUp s.arena.cursor T.alignment + T.size * count })) ∨
      (s.arena.capacity.toNat < s.trueEnd T count % 2 ^ 64 ∧
        s.arena.call c = (none, s.arena)) := by
  rw [call_of_request s.arena hc]
  rcases alloc_eq s T count with ⟨hfit, ha⟩ | ⟨hfit, ha⟩ <;> rw [ha]
  · exact .inl ⟨hfit, rfl⟩
  · exact .inr ⟨hfit, rfl⟩

/-- A block that ends inside the arena is what was asked for. -/
theorem Inv.granted (h : s.Inv) (hin : s.trueEnd T count ≤ s.arena.capacity.toNat) :
    s.Granted T count ⟨alignUp s.arena.cursor T.alignment, T, count⟩ where
  elem := rfl
  count := rfl
  inside := hin
  aligned := by
    obtain ⟨k, hk, hT⟩ := T.alignment_pow
    rw [← T.toNat_alignment, hT]
    exact Nat.mod_eq_zero_of_dvd (dvd_alignUp (by omega) hT)
  apart e he i hi := by
    have hstop := h.stop_le e he
    have hcursor := (h.aligned T).1
    exact absurd hi.2.2 (not_lt.mpr ((hstop.trans hcursor).trans hi.1.1))

theorem Inv.sound_iff (h : s.Inv) (c : ArenaCall) : s.Sound c ↔ s.NoWrapInside c := by
  constructor
  · intro hs T count hc
    rcases call_cases s hc with ⟨-, hcall⟩ | ⟨hfit, -⟩
    · have hb := (hs T count hc).1
      rw [hcall] at hb
      exact .inl (hb _ rfl).inside
    · exact .inr hfit
  · intro hn T count hc
    rcases call_cases s hc with ⟨hfit, hcall⟩ | ⟨-, hcall⟩ <;> rw [hcall]
    · have hin := (hn T count hc).resolve_right (by omega)
      refine ⟨fun b hb => ?_, fun hnone => absurd hnone (Option.some_ne_none _)⟩
      cases hb
      exact h.granted hin
    · exact ⟨fun b hb => absurd hb (Option.not_mem_none b), fun _ => rfl⟩

theorem Inv.step (h : s.Inv) (hs : s.Sound c) (hstep : s.step c = some s') : s'.Inv := by
  cases hstep
  cases hc : c.request with
  | none =>
    have hreset : s.arena.call c = (none, s.arena.reset) := by
      cases c <;> first | rfl | cases hc
    refine ⟨?_, ?_, fun b hb => ?_⟩
    · show _ ∣ (s.arena.call c).2.capacity.toNat
      rw [hreset]
      exact h.pages
    · show (s.arena.call c).2.cursor.toNat ≤ (s.arena.call c).2.capacity.toNat
      rw [hreset]
      exact Nat.zero_le _
    · exact absurd hb List.not_mem_nil
  | some r =>
    obtain ⟨T, count⟩ := r
    rcases call_cases s hc with ⟨hfit, hcall⟩ | ⟨-, hcall⟩
    · have hin := ((h.sound_iff c).mp hs T count hc).resolve_right (by omega)
      have hend : (alignUp s.arena.cursor T.alignment + T.size * count).toNat =
          s.trueEnd T count := by
        rw [UInt64.toNat_add, UInt64.toNat_mul, Nat.add_mod_mod]
        exact Nat.mod_eq_of_lt (hin.trans_lt s.arena.capacity.toNat_lt)
      simp only [hcall]
      refine ⟨h.pages, hend.trans_le hin, fun b hb => ?_⟩
      show b.stop ≤ (alignUp s.arena.cursor T.alignment + T.size * count).toNat
      rw [hend]
      rcases List.mem_cons.mp hb with rfl | hb
      · exact le_rfl
      · exact (h.stop_le b hb).trans ((h.aligned T).1.trans (Nat.le_add_right _ _))
    · simp only [hcall]
      exact h

end ArenaRun

/-! ## Runs -/

/-- In every run from a fresh arena, every request is answered soundly exactly when no
request whose true end lies outside the arena wraps back into it. -/
theorem arena_sound_iff (capacityBytes : UInt64) (calls : List ArenaCall) :
    Machine.RunOk ArenaRun.step ArenaRun.Sound (ArenaRun.start capacityBytes) calls ↔
      Machine.RunOk ArenaRun.step ArenaRun.NoWrapInside (ArenaRun.start capacityBytes) calls :=
  Machine.runOk_congr (fun _ c h => h.sound_iff c) (fun _ _ _ h hs hstep => h.step hs hstep)
    (ArenaRun.inv_start capacityBytes) calls

def doubleType : ElementType := ⟨8, 8, 3, by omega, rfl⟩

/-- `alloc<double>(2^61)` on an arena of one page: the product wraps to 0, and the
span handed out is far longer than the arena. -/
theorem huge_span_granted :
    ¬ Machine.RunOk ArenaRun.step ArenaRun.Sound (ArenaRun.start 4096)
      [.alloc doubleType (2 ^ 61)] := by
  intro h
  have hwrap := ((ArenaRun.inv_start 4096).sound_iff _).mp h.1 doubleType (2 ^ 61) rfl
  exact absurd hwrap (by decide +kernel)

end HoloMarket
