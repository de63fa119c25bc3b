import Mathlib.Algebra.BigOperators.Group.Finset.Basic
import Mathlib.Algebra.BigOperators.Intervals
import Mathlib.Algebra.BigOperators.Ring.Finset
import Mathlib.Algebra.Order.BigOperators.Group.Finset
import Mathlib.Data.Nat.Size
import Mathlib.Logic.Function.Basic
import HoloMarket.Lib.Machine

/-!
# BlockReduce: sums over the threads of a grid

Every block of threads folds the values of its threads in shared memory, in rounds
that a barrier separates, and its first thread adds the result to a global sum.  The
threads interleave in any way, one access at a time.
-/

namespace HoloMarket
namespace BlockReduce

open Finset Function

variable {K : Type*}

/-- Where a thread stands: before the store of its value, at a barrier, at the two
loads and the store of a round, before its atomic addition, or returned.  A round
carries its stride, and the barrier that of the round behind it. -/
inductive Pc (K : Type*) where
  | store
  | wait (stride : Nat)
  | loadHi (stride : Nat)
  | loadLo (stride : Nat) (hi : K)
  | put (stride : Nat) (hi lo : K)
  | add
  | ret

namespace Pc

def isRet : Pc K → Bool
  | .ret => true
  | _ => false

def waitsFor (d : Nat) : Pc K → Bool
  | .wait d' => d == d'
  | _ => false

theorem waitsFor_iff {d : Nat} {pc : Pc K} : pc.waitsFor d = true ↔ pc = .wait d := by
  cases pc with
  | wait d' =>
    simp only [waitsFor, beq_iff_eq, Pc.wait.injEq]
    exact eq_comm
  | _ => simp [waitsFor]

end Pc

structure Block (K : Type*) where
  smem : Nat → K
  pc : Nat → Pc K

/-- The loop head of thread `t` once the barrier before the stride `d` has opened. -/
def afterBarrier (d t : Nat) : Pc K :=
  if d = 0 then (if t = 0 then .add else .ret)
  else if t < d then .loadHi d else .wait (d / 2)

namespace Block

/-- The next access of thread `t`, and what it adds to the global sum. -/
def access [Add K] (dim : Nat) (val : Nat → K) (t : Nat) (s : Block K) :
    Option (Block K × Option K) :=
  match s.pc t with
  | .store => some (⟨update s.smem t (val t), update s.pc t (.wait (dim / 2))⟩, none)
  | .wait _ => none
  | .loadHi d => some ({ s with pc := update s.pc t (.loadLo d (s.smem (t + d))) }, none)
  | .loadLo d hi => some ({ s with pc := update s.pc t (.put d hi (s.smem t)) }, none)
  | .put d hi lo => some (⟨update s.smem t (lo + hi), update s.pc t (.wait (d / 2))⟩, none)
  | .add => some ({ s with pc := update s.pc t .ret }, some (s.smem 0))
  | .ret => none

/-- The barrier opens when every thread of the block stands at it. -/
def release (dim : Nat) (s : Block K) : Option (Block K) :=
  match s.pc 0 with
  | .wait d =>
    if ∀ t < dim, (s.pc t).waitsFor d = true then some { s with pc := afterBarrier d } else none
  | _ => none

end Block

structure Grid (K : Type*) where
  total : K
  block : Nat → Block K

inductive Event where
  | thread (b t : Nat)
  | release (b : Nat)

section
variable [Add K] (dim nBlocks : Nat) (val : Nat → Nat → K) (out : K → K)

def step (s : Grid K) : Event → Option (Grid K)
  | .thread b t =>
    if b < nBlocks ∧ t < dim then
      ((s.block b).access dim (val b) t).map fun p =>
        ⟨p.2.elim s.total fun x => s.total + out x, update s.block b p.1⟩
    else none
  | .release b =>
    if b < nBlocks then
      ((s.block b).release dim).map fun p => { s with block := update s.block b p }
    else none

/-- Before the launch, with anything in shared memory. -/
def init [Zero K] (smem : Nat → Nat → K) : Grid K :=
  ⟨0, fun b => ⟨smem b, fun _ => .store⟩⟩

/-- Every thread has returned. -/
def Returned (s : Grid K) : Prop := ∀ b < nBlocks, ∀ t < dim, (s.block b).pc t = .ret

end

/-! ## The phases of one block -/

variable [AddCommMonoid K]

/-- Shared memory behind the round of stride `d` on `m`. -/
def folded (d : Nat) (m : Nat → K) (t : Nat) : K := if t < d then m t + m (t + d) else m t

/-- Where thread `t` may stand in the round of stride `d` on `m`. -/
def InRound (d : Nat) (m : Nat → K) (s : Block K) (t : Nat) : Prop :=
  (t < d ∧ s.smem t = m t ∧ (s.pc t = .loadHi d ∨ s.pc t = .loadLo d (m (t + d)) ∨
      s.pc t = .put d (m (t + d)) (m t))) ∨
    (s.pc t = .wait (d / 2) ∧ s.smem t = folded d m t)

inductive Phase (dim : Nat) (val : Nat → K) (s : Block K) : Prop where
  | storing (h : ∀ t < dim, s.pc t = .store ∨ (s.pc t = .wait (dim / 2) ∧ s.smem t = val t))
  | round (j : Nat) (m : Nat → K) (hle : 2 * 2 ^ j ≤ dim)
      (hsum : ∑ t ∈ range (2 * 2 ^ j), m t = ∑ t ∈ range dim, val t)
      (h : ∀ t < dim, InRound (2 ^ j) m s t)
  | finished (hsum : s.smem 0 = ∑ t ∈ range dim, val t) (h0 : s.pc 0 = .add ∨ s.pc 0 = .ret)
      (h : ∀ t, 0 < t → t < dim → s.pc t = .ret)

theorem sum_folded (d : Nat) (m : Nat → K) :
    ∑ t ∈ range d, folded d m t = ∑ t ∈ range (2 * d), m t := by
  rw [two_mul, sum_range_add, ← sum_add_distrib]
  refine sum_congr rfl fun t ht => ?_
  rw [folded, if_pos (mem_range.mp ht), Nat.add_comm]

variable {dim : Nat} {val : Nat → K} {s : Block K}

namespace InRound

variable {d : Nat} {m : Nat → K} {t : Nat}

theorem not_ret (h : InRound d m s t) : (s.pc t).isRet = false := by
  rcases h with ⟨-, -, hpc | hpc | hpc⟩ | ⟨hpc, -⟩ <;> rw [hpc] <;> rfl

theorem smem_high (h : InRound d m s t) (ht : d ≤ t) : s.smem t = m t := by
  rcases h with ⟨hlt, -, -⟩ | ⟨-, hmem⟩
  · omega
  · rw [hmem, folded, if_neg (by omega)]

theorem congr {s' : Block K} (h : InRound d m s t) (hmem : s'.smem t = s.smem t)
    (hpc : s'.pc t = s.pc t) : InRound d m s' t := by
  unfold InRound
  rw [hmem, hpc]
  exact h

/-- A thread of a round reads and writes what no other thread of the round writes. -/
theorem access {p : Block K × Option K} (hle : 2 * d ≤ dim) (h : ∀ u < dim, InRound d m s u)
    (ht : t < dim) (hp : s.access dim val t = some p) :
    p.2 = none ∧ ∀ u < dim, InRound d m p.1 u := by
  unfold Block.access at hp
  rcases h t ht with ⟨hlt, hmem, hpc | hpc | hpc⟩ | ⟨hpc, -⟩
  · rw [hpc] at hp
    cases hp
    have hhigh : s.smem (t + d) = m (t + d) := (h (t + d) (by omega)).smem_high (by omega)
    refine ⟨rfl, fun u hu => ?_⟩
    by_cases hut : u = t
    · subst hut
      refine Or.inl ⟨hlt, hmem, Or.inr (Or.inl ?_)⟩
      show update s.pc u _ u = _
      rw [update_self, hhigh]
    · exact (h u hu).congr rfl (update_of_ne hut _ _)
  · rw [hpc] at hp
    cases hp
    refine ⟨rfl, fun u hu => ?_⟩
    by_cases hut : u = t
    · subst hut
      refine Or.inl ⟨hlt, hmem, Or.inr (Or.inr ?_)⟩
      show update s.pc u _ u = _
      rw [update_self, hmem]
    · exact (h u hu).congr rfl (update_of_ne hut _ _)
  · rw [hpc] at hp
    cases hp
    refine ⟨rfl, fun u hu => ?_⟩
    by_cases hut : u = t
    · subst hut
      refine Or.inr ⟨update_self .., ?_⟩
      show update s.smem u _ u = _
      rw [update_self, folded, if_pos hlt]
    · exact (h u hu).congr (update_of_ne hut _ _) (update_of_ne hut _ _)
  · rw [hpc] at hp
    exact nomatch hp

end InRound

theorem Phase.access {t : Nat} {p : Block K × Option K} (h : Phase dim val s) (ht : t < dim)
    (hp : s.access dim val t = some p) :
    Phase dim val p.1 ∧
      ((p.2 = none ∧ (p.1.pc 0).isRet = (s.pc 0).isRet) ∨
        (p.2 = some (∑ t ∈ range dim, val t) ∧ (s.pc 0).isRet = false ∧
          (p.1.pc 0).isRet = true)) := by
  have hdim : 0 < dim := by omega
  cases h with
  | storing h =>
    have hnot : ∀ s' : Block K, (∀ t < dim, s'.pc t = .store ∨
        (s'.pc t = .wait (dim / 2) ∧ s'.smem t = val t)) → (s'.pc 0).isRet = false := by
      intro s' h'
      rcases h' 0 hdim with hpc | ⟨hpc, -⟩ <;> rw [hpc] <;> rfl
    unfold Block.access at hp
    rcases h t ht with hpc | ⟨hpc, -⟩
    · rw [hpc] at hp
      cases hp
      have hnext : ∀ u < dim, update s.pc t (.wait (dim / 2)) u = .store ∨
          (update s.pc t (.wait (dim / 2)) u = .wait (dim / 2) ∧
            update s.smem t (val t) u = val u) := by
        intro u hu
        by_cases hut : u = t
        · subst hut
          exact Or.inr ⟨update_self .., update_self ..⟩
        · rw [update_of_ne hut, update_of_ne hut]
          exact h u hu
      refine ⟨.storing hnext, Or.inl ⟨rfl, ?_⟩⟩
      rw [hnot s h]
      exact hnot ⟨_, _⟩ hnext
    · rw [hpc] at hp
      exact nomatch hp
  | round j m hle hsum h =>
    obtain ⟨hnone, hnext⟩ := InRound.access hle h ht hp
    refine ⟨.round j m hle hsum hnext, Or.inl ⟨hnone, ?_⟩⟩
    rw [(h 0 hdim).not_ret, (hnext 0 hdim).not_ret]
  | finished hsum h0 h =>
    unfold Block.access at hp
    by_cases ht0 : t = 0
    · subst ht0
      rcases h0 with hpc | hpc
      · rw [hpc] at hp
        cases hp
        refine ⟨.finished hsum (Or.inr (update_self 0 (.ret : Pc K) s.pc)) fun u hu hlt => ?_,
          Or.inr ⟨congrArg some hsum, ?_, ?_⟩⟩
        · show update s.pc 0 _ u = _
          rw [update_of_ne (by omega), h u hu hlt]
        · rw [hpc]
          rfl
        · show (update s.pc 0 _ 0).isRet = true
          rw [update_self]
          rfl
      · rw [hpc] at hp
        exact nomatch hp
    · rw [h t (by omega) ht] at hp
      exact nomatch hp

omit [AddCommMonoid K] in
theorem release_eq_some {s' : Block K} (hs : s.release dim = some s') :
    ∃ d, s.pc 0 = .wait d ∧ (∀ t < dim, s.pc t = .wait d) ∧
      s' = { s with pc := afterBarrier d } := by
  unfold Block.release at hs
  split at hs
  · rename_i d hd
    split_ifs at hs with hall
    cases hs
    exact ⟨d, hd, fun t ht => Pc.waitsFor_iff.mp (hall t ht), rfl⟩
  · exact nomatch hs

/-- Behind the barrier of the stride `2 ^ j / 2` half as many values are left. -/
theorem Phase.of_half {j : Nat} (hle : 2 ^ j ≤ dim)
    (hsum : ∑ t ∈ range (2 ^ j), s.smem t = ∑ t ∈ range dim, val t) :
    Phase dim val { s with pc := afterBarrier (2 ^ j / 2) } := by
  cases j with
  | zero =>
    rw [pow_zero, sum_range_one] at hsum
    exact .finished hsum (Or.inl rfl) fun t ht _ => if_neg (by omega)
  | succ j =>
    have hhalf : 2 ^ (j + 1) / 2 = 2 ^ j := by omega
    have htwice : 2 ^ (j + 1) = 2 * 2 ^ j := by omega
    rw [htwice] at hle hsum
    rw [hhalf]
    have hpos := Nat.two_pow_pos j
    refine .round j s.smem hle hsum fun t ht => ?_
    show InRound _ _ ⟨s.smem, afterBarrier (2 ^ j)⟩ t
    by_cases hlt : t < 2 ^ j
    · refine Or.inl ⟨hlt, rfl, Or.inl ?_⟩
      show afterBarrier (2 ^ j) t = _
      rw [afterBarrier, if_neg hpos.ne', if_pos hlt]
    · refine Or.inr ⟨?_, ?_⟩
      · show afterBarrier (2 ^ j) t = _
        rw [afterBarrier, if_neg hpos.ne', if_neg hlt]
      · rw [folded, if_neg hlt]

/-- Behind a barrier the next round starts, or the first thread makes its addition. -/
theorem Phase.release {k : Nat} (hk : dim = 2 ^ k) {s' : Block K} (h : Phase dim val s)
    (hs : s.release dim = some s') :
    Phase dim val s' ∧ (s.pc 0).isRet = false ∧ (s'.pc 0).isRet = false := by
  have hdim : 0 < dim := hk ▸ Nat.two_pow_pos k
  obtain ⟨d, h0, hall, rfl⟩ := release_eq_some hs
  have hret : (s.pc 0).isRet = false ∧ (afterBarrier d 0 : Pc K).isRet = false := by
    refine ⟨by rw [h0]; rfl, ?_⟩
    rw [afterBarrier, if_pos rfl]
    split_ifs <;> rfl
  refine ⟨?_, hret⟩
  cases h with
  | storing h =>
    have hmem : ∀ t < dim, d = dim / 2 ∧ s.smem t = val t := by
      intro t ht
      rcases h t ht with hpc | ⟨hpc, hmem⟩
      · exact nomatch hpc.symm.trans (hall t ht)
      · exact ⟨Pc.wait.inj ((hall t ht).symm.trans hpc), hmem⟩
    rw [(hmem 0 hdim).1, hk]
    refine .of_half (le_of_eq rfl) ?_
    exact sum_congr rfl fun t ht => (hmem t (by rw [hk]; exact mem_range.mp ht)).2
  | round j m hle hsum h =>
    have hmem : ∀ t < dim, d = 2 ^ j / 2 ∧ s.smem t = folded (2 ^ j) m t := by
      intro t ht
      rcases h t ht with ⟨-, -, hpc | hpc | hpc⟩ | ⟨hpc, hmem⟩
      · exact nomatch hpc.symm.trans (hall t ht)
      · exact nomatch hpc.symm.trans (hall t ht)
      · exact nomatch hpc.symm.trans (hall t ht)
      · exact ⟨Pc.wait.inj ((hall t ht).symm.trans hpc), hmem⟩
    rw [(hmem 0 hdim).1]
    refine .of_half (by omega) ?_
    rw [← hsum, ← sum_folded]
    exact sum_congr rfl fun t ht => (hmem t (by have := mem_range.mp ht; omega)).2
  | finished hsum h0' h =>
    rcases h0' with hpc | hpc
    · exact nomatch hpc.symm.trans h0
    · exact nomatch hpc.symm.trans h0

/-! ## Progress -/

/-- A block that has not returned can make an access or open its barrier. -/
theorem Phase.progress (h : Phase dim val s) {t : Nat} (ht : t < dim) (hret : s.pc t ≠ .ret) :
    (∃ u < dim, (s.access dim val u).isSome = true) ∨ (s.release dim).isSome = true := by
  have hopen : ∀ d, (∀ u < dim, s.pc u = .wait d) → (s.release dim).isSome = true := by
    intro d hd
    unfold Block.release
    rw [hd 0 (by omega)]
    dsimp only
    rw [if_pos fun u hu => Pc.waitsFor_iff.mpr (hd u hu)]
    rfl
  have haccess : ∀ u < dim, (∀ d, s.pc u ≠ .wait d) → s.pc u ≠ .ret →
      ∃ u < dim, (s.access dim val u).isSome = true := by
    intro u hu hwait hnot
    refine ⟨u, hu, ?_⟩
    unfold Block.access
    cases hpc : s.pc u with
    | wait d => exact absurd hpc (hwait d)
    | ret => exact absurd hpc hnot
    | _ => rfl
  by_cases hall : ∃ d, ∀ u < dim, s.pc u = .wait d
  · obtain ⟨d, hd⟩ := hall
    exact Or.inr (hopen d hd)
  · refine Or.inl ?_
    push Not at hall
    cases h with
    | storing h =>
      obtain ⟨u, hu, hne⟩ := hall (dim / 2)
      have hpc := (h u hu).resolve_right fun hw => hne hw.1
      refine haccess u hu (fun d hd => ?_) fun hr => ?_
      · exact nomatch hpc.symm.trans hd
      · exact nomatch hpc.symm.trans hr
    | round j m hle hsum h =>
      obtain ⟨u, hu, hne⟩ := hall (2 ^ j / 2)
      refine haccess u hu (fun d hd => ?_) fun hr => ?_
      · rcases h u hu with ⟨-, -, hpc | hpc | hpc⟩ | ⟨hpc, -⟩
        · exact nomatch hpc.symm.trans hd
        · exact nomatch hpc.symm.trans hd
        · exact nomatch hpc.symm.trans hd
        · exact hne hpc
      · have hnot := (h u hu).not_ret
        rw [hr] at hnot
        exact nomatch hnot
    | finished hsum h0 h =>
      have ht0 : t = 0 := by
        by_contra hne
        exact hret (h t (by omega) ht)
      subst ht0
      have hpc := h0.resolve_right hret
      refine haccess 0 ht (fun d hd => ?_) hret
      exact nomatch hpc.symm.trans hd

/-! ## Termination -/

/-- A bound on the steps that are left for a thread. -/
def rank (dim : Nat) : Pc K → Nat
  | .store => 4 * (dim / 2).size + 4
  | .wait d => 4 * d.size + 3
  | .loadHi d => 4 * d.size + 2
  | .loadLo d _ => 4 * d.size + 1
  | .put d _ _ => 4 * d.size
  | .add => 1
  | .ret => 0

def weight (dim : Nat) (s : Block K) : Nat := ∑ t ∈ range dim, rank dim (s.pc t)

theorem size_half {d : Nat} (hd : 0 < d) : (d / 2).size + 1 = d.size := by
  have hne : Nat.bit d.bodd d.div2 ≠ 0 := by
    rw [Nat.bit_bodd_div2]
    omega
  have hsize := Nat.size_bit hne
  rw [Nat.bit_bodd_div2, Nat.div2_val] at hsize
  exact hsize.symm

omit [AddCommMonoid K] in
theorem weight_update {t : Nat} {pc' : Pc K} {smem : Nat → K} (ht : t < dim)
    (hlt : rank dim pc' < rank dim (s.pc t)) :
    weight dim ⟨smem, update s.pc t pc'⟩ < weight dim s := by
  refine sum_lt_sum (fun u _ => ?_) ⟨t, mem_range.mpr ht, ?_⟩
  · show rank dim (update s.pc t pc' u) ≤ _
    by_cases hut : u = t
    · subst hut
      rw [update_self]
      exact hlt.le
    · rw [update_of_ne hut]
  · show rank dim (update s.pc t pc' t) < _
    rw [update_self]
    exact hlt

theorem Phase.weight_access {t : Nat} {p : Block K × Option K} (h : Phase dim val s)
    (ht : t < dim) (hp : s.access dim val t = some p) : weight dim p.1 < weight dim s := by
  have hput : ∀ d hi lo, s.pc t = .put d hi lo → 0 < d := by
    intro d hi lo hpc
    cases h with
    | storing h =>
      rcases h t ht with hpc' | ⟨hpc', -⟩
      · exact nomatch hpc'.symm.trans hpc
      · exact nomatch hpc'.symm.trans hpc
    | round j m hle hsum h =>
      rcases h t ht with ⟨-, -, hpc' | hpc' | hpc'⟩ | ⟨hpc', -⟩
      · exact nomatch hpc'.symm.trans hpc
      · exact nomatch hpc'.symm.trans hpc
      · cases hpc'.symm.trans hpc
        exact Nat.two_pow_pos j
      · exact nomatch hpc'.symm.trans hpc
    | finished hsum h0 h =>
      by_cases ht0 : t = 0
      · subst ht0
        rcases h0 with hpc' | hpc'
        · exact nomatch hpc'.symm.trans hpc
        · exact nomatch hpc'.symm.trans hpc
      · exact nomatch (h t (by omega) ht).symm.trans hpc
  unfold Block.access at hp
  cases hpc : s.pc t with
  | store =>
    rw [hpc] at hp
    cases hp
    refine weight_update ht ?_
    rw [hpc]
    simp only [rank]
    omega
  | wait d =>
    rw [hpc] at hp
    exact nomatch hp
  | loadHi d =>
    rw [hpc] at hp
    cases hp
    refine weight_update ht ?_
    rw [hpc]
    simp only [rank]
    omega
  | loadLo d hi =>
    rw [hpc] at hp
    cases hp
    refine weight_update ht ?_
    rw [hpc]
    simp only [rank]
    omega
  | put d hi lo =>
    rw [hpc] at hp
    cases hp
    refine weight_update ht ?_
    have hhalf := size_half (hput d hi lo hpc)
    rw [hpc]
    simp only [rank]
    omega
  | add =>
    rw [hpc] at hp
    cases hp
    refine weight_update ht ?_
    rw [hpc]
    simp only [rank]
    omega
  | ret =>
    rw [hpc] at hp
    exact nomatch hp

omit [AddCommMonoid K] in
theorem weight_release {s' : Block K} (hdim : 0 < dim) (hs : s.release dim = some s') :
    weight dim s' < weight dim s := by
  obtain ⟨d, -, hall, rfl⟩ := release_eq_some hs
  have hlt : ∀ t < dim, rank dim (afterBarrier d t : Pc K) < rank dim (s.pc t) := by
    intro t ht
    rw [hall t ht, afterBarrier]
    split_ifs with hd h0 hlt
    · simp only [rank]
      omega
    · simp only [rank]
      omega
    · simp only [rank]
      omega
    · have hhalf := size_half (Nat.pos_of_ne_zero hd)
      simp only [rank]
      omega
  exact sum_lt_sum (fun t ht => (hlt t (mem_range.mp ht)).le)
    ⟨0, mem_range.mpr hdim, hlt 0 hdim⟩

/-! ## The grid -/

section Grid

variable {nBlocks : Nat} {val : Nat → Nat → K} {out : K → K}

/-- What a block whose sum is `x` has added to the global sum. -/
def paid (x : K) (s : Block K) : K := bif (s.pc 0).isRet then x else 0

structure GridInv (dim nBlocks : Nat) (val : Nat → Nat → K) (out : K → K) (s : Grid K) :
    Prop where
  phase : ∀ b < nBlocks, Phase dim (val b) (s.block b)
  total : s.total = ∑ b ∈ range nBlocks, paid (out (∑ t ∈ range dim, val b t)) (s.block b)

def gridWeight (dim nBlocks : Nat) (s : Grid K) : Nat :=
  ∑ b ∈ range nBlocks, weight dim (s.block b)

theorem gridInv_init (dim nBlocks : Nat) (val : Nat → Nat → K) (out : K → K)
    (smem : Nat → Nat → K) : GridInv dim nBlocks val out (init smem) where
  phase _ _ := .storing fun _ _ => Or.inl rfl
  total := (sum_eq_zero fun _ _ => rfl).symm

omit [AddCommMonoid K] in
theorem gridWeight_update {s : Grid K} {b : Nat} {s' : Block K} {total : K} (hb : b < nBlocks)
    (hlt : weight dim s' < weight dim (s.block b)) :
    gridWeight dim nBlocks ⟨total, update s.block b s'⟩ < gridWeight dim nBlocks s := by
  refine sum_lt_sum (fun u _ => ?_) ⟨b, mem_range.mpr hb, ?_⟩
  · show weight dim (update s.block b s' u) ≤ _
    by_cases hub : u = b
    · subst hub
      rw [update_self]
      exact hlt.le
    · rw [update_of_ne hub]
  · show weight dim (update s.block b s' b) < _
    rw [update_self]
    exact hlt

theorem GridInv.setBlock {s : Grid K} (h : GridInv dim nBlocks val out s) {b : Nat}
    {s' : Block K} {o : Option K} (hb : b < nBlocks) (hphase : Phase dim (val b) s')
    (ho : (o = none ∧ (s'.pc 0).isRet = ((s.block b).pc 0).isRet) ∨
      (o = some (∑ t ∈ range dim, val b t) ∧ ((s.block b).pc 0).isRet = false ∧
        (s'.pc 0).isRet = true)) :
    GridInv dim nBlocks val out
      ⟨o.elim s.total fun x => s.total + out x, update s.block b s'⟩ where
  phase u hu := by
    show Phase dim (val u) (update s.block b s' u)
    by_cases hub : u = b
    · subst hub
      rwa [update_self]
    · rw [update_of_ne hub]
      exact h.phase u hu
  total := by
    have hother : ∀ u, u ≠ b → update s.block b s' u = s.block u :=
      fun u hub => update_of_ne hub _ _
    rcases ho with ⟨rfl, hret⟩ | ⟨rfl, hold, hnew⟩
    · refine h.total.trans (sum_congr rfl fun u _ => ?_)
      show _ = paid _ (update s.block b s' u)
      by_cases hub : u = b
      · subst hub
        rw [update_self, paid, paid, hret]
      · rw [hother u hub]
    · have hmem := mem_range.mpr hb
      have hzero : ∀ x, paid x (s.block b) = 0 := by
        intro x
        rw [paid, hold]
        rfl
      have hself : ∀ x, paid x (update s.block b s' b) = x := by
        intro x
        rw [update_self, paid, hnew]
        rfl
      show s.total + out _ = ∑ u ∈ range nBlocks, paid _ (update s.block b s' u)
      rw [h.total, ← add_sum_erase _ _ hmem, ← add_sum_erase _ _ hmem, hzero, hself, zero_add,
        add_comm]
      congr 1
      exact sum_congr rfl fun u hu => by rw [hother u (ne_of_mem_erase hu)]

theorem GridInv.step {k : Nat} (hk : dim = 2 ^ k) {s s' : Grid K} {e : Event}
    (h : GridInv dim nBlocks val out s) (hs : step dim nBlocks val out s e = some s') :
    GridInv dim nBlocks val out s' ∧ gridWeight dim nBlocks s' < gridWeight dim nBlocks s := by
  cases e with
  | thread b t =>
    simp only [BlockReduce.step] at hs
    split_ifs at hs with hlt
    obtain ⟨hb, ht⟩ := hlt
    obtain ⟨p, hp, rfl⟩ := Option.map_eq_some_iff.mp hs
    obtain ⟨hphase, ho⟩ := (h.phase b hb).access ht hp
    exact ⟨h.setBlock hb hphase ho, gridWeight_update hb ((h.phase b hb).weight_access ht hp)⟩
  | release b =>
    simp only [BlockReduce.step] at hs
    split_ifs at hs with hb
    obtain ⟨p, hp, rfl⟩ := Option.map_eq_some_iff.mp hs
    obtain ⟨hphase, hold, hnew⟩ := (h.phase b hb).release hk hp
    have hdim : 0 < dim := hk ▸ Nat.two_pow_pos k
    exact ⟨h.setBlock (o := none) hb hphase (Or.inl ⟨rfl, hnew.trans hold.symm⟩),
      gridWeight_update hb (weight_release hdim hp)⟩

/-- No barrier holds the grid up. -/
theorem GridInv.progress {s : Grid K} (h : GridInv dim nBlocks val out s)
    (hnot : ¬ Returned dim nBlocks s) :
    ∃ e, (BlockReduce.step dim nBlocks val out s e).isSome = true := by
  unfold Returned at hnot
  push Not at hnot
  obtain ⟨b, hb, t, ht, hret⟩ := hnot
  rcases (h.phase b hb).progress ht hret with ⟨u, hu, hsome⟩ | hsome
  · refine ⟨.thread b u, ?_⟩
    simp only [BlockReduce.step]
    rw [if_pos ⟨hb, hu⟩, Option.isSome_map]
    exact hsome
  · refine ⟨.release b, ?_⟩
    simp only [BlockReduce.step]
    rw [if_pos hb, Option.isSome_map]
    exact hsome

/-- Every run can be carried on to the end. -/
theorem GridInv.exists_returned {k : Nat} (hk : dim = 2 ^ k) {s : Grid K}
    (h : GridInv dim nBlocks val out s) :
    ∃ es s', Machine.run (BlockReduce.step dim nBlocks val out) s es = some s' ∧
      Returned dim nBlocks s' := by
  induction hw : gridWeight dim nBlocks s using Nat.strong_induction_on generalizing s with
  | _ w ih =>
    by_cases hret : Returned dim nBlocks s
    · exact ⟨[], s, rfl, hret⟩
    · obtain ⟨e, he⟩ := h.progress hret
      obtain ⟨s₁, h₁⟩ := Option.isSome_iff_exists.mp he
      obtain ⟨hnext, hlt⟩ := h.step hk h₁
      obtain ⟨es, s', hrun, hend⟩ := ih _ (hw ▸ hlt) hnext rfl
      refine ⟨e :: es, s', ?_, hend⟩
      rw [Machine.run_cons, h₁]
      exact hrun

theorem GridInv.run {k : Nat} (hk : dim = 2 ^ k) {s s' : Grid K} {es : List Event}
    (h : GridInv dim nBlocks val out s)
    (hrun : Machine.run (BlockReduce.step dim nBlocks val out) s es = some s') :
    GridInv dim nBlocks val out s' ∧
      es.length + gridWeight dim nBlocks s' ≤ gridWeight dim nBlocks s := by
  induction es generalizing s with
  | nil =>
    cases hrun
    exact ⟨h, by simp⟩
  | cons e es ih =>
    obtain ⟨s₁, h₁, hrest⟩ := Option.bind_eq_some_iff.mp hrun
    obtain ⟨hnext, hlt⟩ := h.step hk h₁
    obtain ⟨hend, hle⟩ := ih hnext hrest
    refine ⟨hend, ?_⟩
    rw [List.length_cons]
    omega

/-- From the launch on, in any interleaving, the steps are bounded, no barrier holds the
grid up, and when every thread has returned the global sum is that of all blocks. -/
theorem run_total {k : Nat} (hk : dim = 2 ^ k) {smem : Nat → Nat → K} {es : List Event}
    {s : Grid K} (hrun : Machine.run (BlockReduce.step dim nBlocks val out) (init smem) es =
      some s) :
    es.length ≤ nBlocks * (dim * (4 * (dim / 2).size + 4)) ∧
      (¬ Returned dim nBlocks s →
        ∃ e, (BlockReduce.step dim nBlocks val out s e).isSome = true) ∧
      (Returned dim nBlocks s →
        s.total = ∑ b ∈ range nBlocks, out (∑ t ∈ range dim, val b t)) := by
  have hdim : 0 < dim := hk ▸ Nat.two_pow_pos k
  obtain ⟨h, hle⟩ := (gridInv_init dim nBlocks val out smem).run hk hrun
  have hstart : gridWeight dim nBlocks (init smem) =
      nBlocks * (dim * (4 * (dim / 2).size + 4)) := by
    unfold gridWeight weight
    simp only [init, rank, sum_const, card_range, nsmul_eq_mul, Nat.cast_id]
  refine ⟨by omega, h.progress, fun hret => ?_⟩
  rw [h.total]
  refine sum_congr rfl fun b hb => ?_
  rw [paid, hret b (mem_range.mp hb) 0 hdim]
  rfl

end Grid

end BlockReduce
end HoloMarket
