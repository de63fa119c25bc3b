import Mathlib.Algebra.CharP.Two
import Mathlib.Algebra.Field.ZMod
import HoloMarket.Lib.DeviceBuffer
import HoloMarket.Lib.RowSpace
import HoloMarket.Math.FloerHomology

/-!
# FloerElimination: what `gaussian_rank_z2` computes

The function works in place, in a row-major buffer.  Its loops over rows and columns are
those of the elimination on rows, which keeps the row space of the low-order bits and
leaves them reduced, so that the pivots it counted are the rank.
-/

namespace HoloMarket

/-! ## The loops in place -/

/-- The variables of `gaussian_rank_z2`, with the matrix at its row-major addresses. -/
structure Z2Buffer where
  mat : Nat → BitVec 32
  rank : Nat
  pivotRow : Nat

namespace Z2Buffer

/-- One round of the loop that exchanges two rows. -/
def swapEntry (cols pivotRow pivot : Nat) (mat : Nat → BitVec 32) (c : Nat) : Nat → BitVec 32 :=
  let t := mat (pivotRow * cols + c)
  let mat := Function.update mat (pivotRow * cols + c) (mat (pivot * cols + c))
  Function.update mat (pivot * cols + c) t

/-- One round of the loop that adds the pivot row to the row `r`. -/
def addEntry (cols pivotRow r : Nat) (mat : Nat → BitVec 32) (c : Nat) : Nat → BitVec 32 :=
  Function.update mat (r * cols + c) (mat (r * cols + c) ^^^ mat (pivotRow * cols + c))

/-- One round of the loop over the rows. -/
def clearRow (cols pivotRow col : Nat) (mat : Nat → BitVec 32) (r : Nat) : Nat → BitVec 32 :=
  if r ≠ pivotRow ∧ mat (r * cols + col) &&& 1 ≠ 0 then
    (List.range cols).foldl (addEntry cols pivotRow r) mat
  else mat

/-- One round of the loop over the columns. -/
def eliminateColumn (rows cols : Nat) (s : Z2Buffer) (col : Nat) : Z2Buffer :=
  if s.pivotRow < rows then
    match (List.range' s.pivotRow (rows - s.pivotRow)).find?
      fun r => decide (s.mat (r * cols + col) &&& 1 ≠ 0) with
    | none => s
    | some pivot =>
      let swapped := (List.range cols).foldl (swapEntry cols s.pivotRow pivot) s.mat
      { mat := (List.range rows).foldl (clearRow cols s.pivotRow col) swapped
        rank := s.rank + 1
        pivotRow := s.pivotRow + 1 }
  else s

/-- `gaussian_rank_z2`: the buffer it leaves and the number it returns. -/
def eliminated (mat : Nat → BitVec 32) (rows cols : Nat) : Z2Buffer :=
  (List.range cols).foldl (eliminateColumn rows cols) ⟨mat, 0, 0⟩

/-! ## The loops on rows -/

/-- The buffer holds the matrix. -/
def Holds (rows cols : Nat) (buf : Nat → BitVec 32) (mat : Nat → Nat → BitVec 32) : Prop :=
  ∀ r < rows, ∀ c < cols, buf (r * cols + c) = mat r c

theorem holds_self (rows cols : Nat) (buf : Nat → BitVec 32) :
    Holds rows cols buf fun r c => buf (r * cols + c) :=
  fun _ _ _ _ => rfl

variable {rows cols : Nat} {buf : Nat → BitVec 32} {mat : Nat → Nat → BitVec 32}

/-- An entry of a row-major buffer after a store to another. -/
theorem update_entry {r c r' c' : Nat} (hc : c < cols) (hc' : c' < cols)
    (buf : Nat → BitVec 32) (x : BitVec 32) :
    Function.update buf (r' * cols + c') x (r * cols + c) =
      if r = r' ∧ c = c' then x else buf (r * cols + c) := by
  by_cases h : r = r' ∧ c = c'
  · rw [if_pos h, h.1, h.2, Function.update_self]
  · rw [if_neg h, Function.update_of_ne]
    exact fun heq => h (Buffer.rowMajor_inj hc hc' heq)

/-- The row that the row `r` is exchanged with. -/
def swapped (p q r : Nat) : Nat := if r = p then q else if r = q then p else r

theorem swapEntry_apply {p q k r c : Nat} (hk : k < cols) (hc : c < cols)
    (buf : Nat → BitVec 32) :
    swapEntry cols p q buf k (r * cols + c) =
      if c = k then buf (swapped p q r * cols + c) else buf (r * cols + c) := by
  unfold swapEntry swapped
  rw [update_entry hc hk, update_entry hc hk]
  by_cases hck : c = k
  · subst hck
    by_cases hrp : r = p
    · by_cases hrq : r = q
      · simp [← hrp, ← hrq]
      · simp [hrp, hrp ▸ hrq]
    · by_cases hrq : r = q
      · simp [hrq, hrq ▸ hrp]
      · simp [hrp, hrq]
  · rw [if_neg fun h => hck h.2, if_neg fun h => hck h.2, if_neg hck]

theorem foldl_swapEntry {p q k r c : Nat} (hk : k ≤ cols) (hc : c < cols)
    (buf : Nat → BitVec 32) :
    (List.range k).foldl (swapEntry cols p q) buf (r * cols + c) =
      if c < k then buf (swapped p q r * cols + c) else buf (r * cols + c) := by
  induction k generalizing r with
  | zero => exact (if_neg (Nat.not_lt_zero c)).symm
  | succ k ih =>
    rw [List.range_succ, List.foldl_concat, swapEntry_apply hk hc, ih (Nat.le_of_succ_le hk),
      ih (Nat.le_of_succ_le hk)]
    rcases Nat.lt_trichotomy c k with hck | rfl | hck
    · rw [if_neg (by omega), if_pos hck, if_pos (by omega)]
    · rw [if_pos rfl, if_neg (Nat.lt_irrefl c), if_pos (Nat.lt_succ_self c)]
    · rw [if_neg (by omega), if_neg (by omega), if_neg (by omega)]

theorem addEntry_apply {p r k r' c : Nat} (hk : k < cols) (hc : c < cols)
    (buf : Nat → BitVec 32) :
    addEntry cols p r buf k (r' * cols + c) =
      if r' = r ∧ c = k then buf (r * cols + c) ^^^ buf (p * cols + c)
      else buf (r' * cols + c) := by
  unfold addEntry
  rw [update_entry hc hk]
  by_cases h : r' = r ∧ c = k
  · rw [if_pos h, if_pos h, h.2]
  · rw [if_neg h, if_neg h]

/-- The columns below `k` of the row `r` have the pivot row added. -/
theorem foldl_addEntry {p r k r' c : Nat} (hk : k ≤ cols) (hc : c < cols)
    (buf : Nat → BitVec 32) :
    (List.range k).foldl (addEntry cols p r) buf (r' * cols + c) =
      if r' = r ∧ c < k then buf (r * cols + c) ^^^ buf (p * cols + c)
      else buf (r' * cols + c) := by
  induction k generalizing r' with
  | zero => exact (if_neg fun h => Nat.not_lt_zero c h.2).symm
  | succ k ih =>
    have hk' : k ≤ cols := Nat.le_of_succ_le hk
    rw [List.range_succ, List.foldl_concat, addEntry_apply hk hc]
    by_cases hck : c = k
    · have hrest : ∀ r', (List.range k).foldl (addEntry cols p r) buf (r' * cols + c) =
          buf (r' * cols + c) := by
        intro r'
        rw [ih hk', if_neg fun h => Nat.ne_of_lt h.2 hck]
      rw [hrest, hrest, hrest]
      exact if_congr (and_congr_right' (by omega)) rfl rfl
    · rw [if_neg fun h => hck h.2, ih hk']
      exact if_congr (and_congr_right' (by omega)) rfl rfl

theorem clearRow_apply {p col k r c : Nat} (hc : c < cols) (buf : Nat → BitVec 32) :
    clearRow cols p col buf k (r * cols + c) =
      if r = k ∧ k ≠ p ∧ buf (k * cols + col) &&& 1 ≠ 0 then
        buf (k * cols + c) ^^^ buf (p * cols + c)
      else buf (r * cols + c) := by
  unfold clearRow
  by_cases h : k ≠ p ∧ buf (k * cols + col) &&& 1 ≠ 0
  · rw [if_pos h, foldl_addEntry (Nat.le_refl cols) hc]
    exact if_congr (and_congr_right' (iff_of_true hc h)) rfl rfl
  · rw [if_neg h, if_neg fun hr => h hr.2]

/-- The rows below `k` are cleared.  The row of a round and the pivot row are then as
they were before the loop. -/
theorem foldl_clearRow {p col k r c : Nat} (hcol : col < cols) (hc : c < cols)
    (buf : Nat → BitVec 32) :
    (List.range k).foldl (clearRow cols p col) buf (r * cols + c) =
      if r < k ∧ r ≠ p ∧ buf (r * cols + col) &&& 1 ≠ 0 then
        buf (r * cols + c) ^^^ buf (p * cols + c)
      else buf (r * cols + c) := by
  induction k generalizing r c with
  | zero => exact (if_neg fun h => Nat.not_lt_zero r h.1).symm
  | succ k ih =>
    have hrest : ∀ r c, c < cols → ¬ (r < k ∧ r ≠ p) →
        (List.range k).foldl (clearRow cols p col) buf (r * cols + c) = buf (r * cols + c) := by
      intro r c hc hr
      rw [ih hc, if_neg fun h => hr ⟨h.1, h.2.1⟩]
    have hround : ∀ c < cols,
        (List.range k).foldl (clearRow cols p col) buf (k * cols + c) = buf (k * cols + c) :=
      fun c hc => hrest k c hc fun h => Nat.lt_irrefl k h.1
    rw [List.range_succ, List.foldl_concat, clearRow_apply hc, hround c hc, hround col hcol,
      hrest p c hc fun h => h.2 rfl]
    by_cases hr : r = k
    · subst hr
      rw [hround c hc]
      exact if_congr (and_congr_left' (by omega)) rfl rfl
    · rw [if_neg fun h => hr h.1, ih hc]
      exact if_congr (and_congr_left' (by omega)) rfl rfl

/-- A buffer and the elimination on rows at the same point of the loop. -/
structure Simulates (rows cols : Nat) (s : Z2Buffer) (e : Elimination) : Prop where
  holds : Holds rows cols s.mat e.mat
  rank : s.rank = e.rank
  pivotRow : s.pivotRow = e.pivotRow

theorem Holds.swapRows (h : Holds rows cols buf mat) {p q : Nat} (hp : p < rows) (hq : q < rows) :
    Holds rows cols ((List.range cols).foldl (swapEntry cols p q) buf) (swapRows mat p q) := by
  intro r hr c hc
  have hrow : swapped p q r < rows := by
    unfold swapped
    split_ifs <;> assumption
  rw [foldl_swapEntry (Nat.le_refl cols) hc, if_pos hc, h _ hrow c hc]
  unfold swapped HoloMarket.swapRows
  split_ifs <;> rfl

theorem Holds.clearColumn (h : Holds rows cols buf mat) {p col : Nat} (hp : p < rows)
    (hcol : col < cols) :
    Holds rows cols ((List.range rows).foldl (clearRow cols p col) buf)
      (clearColumn mat rows p col) := by
  intro r hr c hc
  rw [foldl_clearRow hcol hc, h r hr col hcol, h r hr c hc, h p hp c hc]
  unfold HoloMarket.clearColumn oddAt
  exact if_congr (and_congr_right' (and_congr_right' decide_eq_true_iff.symm)) rfl rfl

theorem Simulates.eliminateColumn {s : Z2Buffer} {e : Elimination}
    (h : Simulates rows cols s e) {col : Nat} (hcol : col < cols) :
    Simulates rows cols (eliminateColumn rows cols s col)
      (HoloMarket.eliminateColumn rows e col) := by
  obtain ⟨buf, rank, pivotRow⟩ := s
  obtain ⟨mat, rank', pivotRow'⟩ := e
  obtain ⟨hholds, hrank, hpivotRow⟩ := h
  dsimp only at hholds hrank hpivotRow
  subst hrank hpivotRow
  unfold Z2Buffer.eliminateColumn HoloMarket.eliminateColumn
  dsimp only
  by_cases hlt : pivotRow < rows
  · have hmem : ∀ r ∈ List.range' pivotRow (rows - pivotRow), r < rows := by
      intro r hr
      rw [List.mem_range'_1] at hr
      omega
    have hfind : (List.range' pivotRow (rows - pivotRow)).find?
          (fun r => decide (buf (r * cols + col) &&& 1 ≠ 0)) =
        (List.range' pivotRow (rows - pivotRow)).find? fun r => oddAt mat r col :=
      List.find?_congr fun r hr => by rw [hholds r (hmem r hr) col hcol]; rfl
    rw [if_pos hlt, if_pos hlt, hfind]
    cases hpivot : (List.range' pivotRow (rows - pivotRow)).find? fun r => oddAt mat r col with
    | none => exact ⟨hholds, rfl, rfl⟩
    | some pivot =>
      have hq : pivot < rows := hmem pivot (List.mem_of_find?_eq_some hpivot)
      exact ⟨(hholds.swapRows hlt hq).clearColumn hlt hcol, rfl, rfl⟩
  · rw [if_neg hlt, if_neg hlt]
    exact ⟨hholds, rfl, rfl⟩

theorem simulates_foldl (buf : Nat → BitVec 32) {k : Nat} (hk : k ≤ cols) :
    Simulates rows cols ((List.range k).foldl (eliminateColumn rows cols) ⟨buf, 0, 0⟩)
      ((List.range k).foldl (HoloMarket.eliminateColumn rows)
        ⟨fun r c => buf (r * cols + c), 0, 0⟩) := by
  induction k with
  | zero => exact ⟨holds_self rows cols buf, rfl, rfl⟩
  | succ k ih =>
    rw [List.range_succ, List.foldl_concat, List.foldl_concat]
    exact (ih (Nat.le_of_succ_le hk)).eliminateColumn hk

/-- The function in place is the elimination on rows. -/
theorem simulates_eliminated (buf : Nat → BitVec 32) (rows cols : Nat) :
    Simulates rows cols (eliminated buf rows cols)
      (HoloMarket.eliminated (fun r c => buf (r * cols + c)) rows cols) :=
  simulates_foldl buf (Nat.le_refl cols)

end Z2Buffer

/-! ## The low-order bits -/

/-- The low-order bit of an entry. -/
def lowBit (x : BitVec 32) : ZMod 2 := if x.getLsbD 0 then 1 else 0

theorem and_one_ne_zero_iff (x : BitVec 32) : x &&& 1 ≠ 0 ↔ x.getLsbD 0 = true := by
  have hbit : x &&& 1 = BitVec.setWidth 32 (BitVec.ofBool (x.getLsbD 0)) :=
    BitVec.and_one_eq_setWidth_ofBool_getLsbD
  rw [hbit]
  cases x.getLsbD 0 <;> decide

theorem lowBit_xor (x y : BitVec 32) : lowBit (x ^^^ y) = lowBit x + lowBit y := by
  unfold lowBit
  rw [BitVec.getLsbD_xor]
  cases x.getLsbD 0 <;> cases y.getLsbD 0 <;> decide

/-- The matrix of low-order bits. -/
def lowBits (mat : Nat → Nat → BitVec 32) (rows cols : Nat) :
    Matrix (Fin rows) (Fin cols) (ZMod 2) :=
  fun r c => lowBit (mat r c)

section
variable {rows cols : Nat} {mat : Nat → Nat → BitVec 32}

theorem oddAt_eq_true_iff (r : Fin rows) (c : Fin cols) :
    oddAt mat r c = true ↔ lowBits mat rows cols r c = 1 := by
  unfold oddAt lowBits lowBit
  rw [decide_eq_true_iff, and_one_ne_zero_iff]
  cases (mat r c).getLsbD 0 <;> decide

theorem oddAt_eq_false_iff (r : Fin rows) (c : Fin cols) :
    oddAt mat r c = false ↔ lowBits mat rows cols r c = 0 := by
  rw [← Bool.not_eq_true, oddAt_eq_true_iff]
  generalize lowBits mat rows cols r c = x
  revert x
  decide

theorem lowBits_swapRows (p q : Fin rows) :
    lowBits (swapRows mat p q) rows cols = RowSpace.swapRows p q (lowBits mat rows cols) := by
  ext r c
  show lowBit (swapRows mat p q r c) = lowBit (mat (Equiv.swap p q r) c)
  unfold swapRows
  rw [Equiv.swap_apply_def]
  simp only [Fin.ext_iff]
  split_ifs <;> rfl

/-- Adding the pivot row where a row is odd takes it away as often as it is there. -/
theorem lowBits_clearColumn (p : Fin rows) (col : Fin cols) :
    lowBits (clearColumn mat rows p col) rows cols =
      RowSpace.clearColumn p col (lowBits mat rows cols) := by
  ext r c
  unfold RowSpace.clearColumn
  by_cases hr : r = p
  · subst hr
    rw [if_pos rfl]
    exact congrArg lowBit (if_neg fun h => h.2.1 rfl)
  · rw [if_neg hr, Pi.sub_apply, Pi.smul_apply, smul_eq_mul, CharTwo.sub_eq_add]
    show lowBit (clearColumn mat rows p col r c) = _
    unfold clearColumn
    by_cases hodd : oddAt mat r col = true
    · rw [if_pos ⟨r.isLt, fun h => hr (Fin.ext h), hodd⟩, lowBit_xor,
        (oddAt_eq_true_iff r col).mp hodd, one_mul]
      rfl
    · rw [if_neg fun h => hodd h.2.2,
        (oddAt_eq_false_iff r col).mp (Bool.not_eq_true _ ▸ hodd), zero_mul, add_zero]
      rfl

/-! ## The loop over the columns -/

/-- The low-order bits span what they did, and the columns passed are reduced. -/
structure Elimination.Ok (mat : Nat → Nat → BitVec 32) (rows cols : Nat) (e : Elimination)
    (col : Nat) : Prop where
  rank : e.rank = e.pivotRow
  rowSpace : RowSpace.rowSpace (lowBits e.mat rows cols) =
    RowSpace.rowSpace (lowBits mat rows cols)
  reduced : RowSpace.Reduced (lowBits e.mat rows cols) e.pivotRow col

theorem Elimination.Ok.eliminateColumn {e : Elimination} (col : Fin cols)
    (h : Elimination.Ok mat rows cols e col) :
    Elimination.Ok mat rows cols (eliminateColumn rows e col) (col + 1) := by
  unfold HoloMarket.eliminateColumn
  by_cases hlt : e.pivotRow < rows
  · rw [if_pos hlt]
    cases hfind : (List.range' e.pivotRow (rows - e.pivotRow)).find?
        fun r => oddAt e.mat r col with
    | none =>
      refine ⟨h.rank, h.rowSpace, h.reduced.skip fun r hr => ?_⟩
      have hmem : (r : Nat) ∈ List.range' e.pivotRow (rows - e.pivotRow) := by
        rw [List.mem_range'_1]
        omega
      exact (oddAt_eq_false_iff r col).mp (Bool.not_eq_true _ ▸ List.find?_eq_none.mp hfind r hmem)
    | some pivot =>
      have hmem := List.mem_of_find?_eq_some hfind
      rw [List.mem_range'_1] at hmem
      let p : Fin rows := ⟨e.pivotRow, hlt⟩
      let q : Fin rows := ⟨pivot, by omega⟩
      have hone : lowBits e.mat rows cols q col = 1 :=
        (oddAt_eq_true_iff q col).mp (List.find?_some (p := fun r => oddAt e.mat r col) hfind)
      have hbits : lowBits (clearColumn (swapRows e.mat p q) rows p col) rows cols =
          RowSpace.clearColumn p col (RowSpace.swapRows p q (lowBits e.mat rows cols)) := by
        rw [lowBits_clearColumn, lowBits_swapRows]
      refine ⟨congrArg (· + 1) h.rank, ?_, ?_⟩
      · show RowSpace.rowSpace (lowBits (clearColumn (swapRows e.mat p q) rows p col) rows cols) = _
        rw [hbits, RowSpace.rowSpace_clearColumn, RowSpace.rowSpace_swapRows, h.rowSpace]
      · show RowSpace.Reduced (lowBits (clearColumn (swapRows e.mat p q) rows p col) rows cols) _ _
        rw [hbits]
        exact h.reduced.pivoted (p := p) hmem.1 hone
  · -- every row has its pivot, and the column is not looked at
    rw [if_neg hlt]
    exact ⟨h.rank, h.rowSpace, h.reduced.skip fun r hr => absurd (r.isLt.trans_le' hr) hlt⟩

theorem ok_foldl (mat : Nat → Nat → BitVec 32) (rows : Nat) {k : Nat} (hk : k ≤ cols) :
    Elimination.Ok mat rows cols ((List.range k).foldl (eliminateColumn rows) ⟨mat, 0, 0⟩) k := by
  induction k with
  | zero => exact ⟨rfl, rfl, RowSpace.reduced_start _⟩
  | succ k ih =>
    rw [List.range_succ, List.foldl_concat]
    exact Elimination.Ok.eliminateColumn ⟨k, hk⟩ (ih (Nat.le_of_succ_le hk))

theorem ok_eliminated (mat : Nat → Nat → BitVec 32) (rows cols : Nat) :
    Elimination.Ok mat rows cols (eliminated mat rows cols) cols :=
  ok_foldl mat rows (Nat.le_refl cols)

/-- The elimination on rows counts the rank. -/
theorem gaussianRankZ2_eq_rank (mat : Nat → Nat → BitVec 32) (rows cols : Nat) :
    gaussianRankZ2 mat rows cols = (lowBits mat rows cols).rank := by
  have hok := ok_eliminated mat rows cols
  rw [gaussianRankZ2, hok.rank, ← hok.reduced.rank_eq (Or.inr (Nat.le_refl cols)),
    ← RowSpace.finrank_rowSpace, hok.rowSpace, RowSpace.finrank_rowSpace]

end

/-- The row space, over two elements, of the low-order bits of a row-major buffer. -/
def bitRowSpace (buf : Nat → BitVec 32) (rows cols : Nat) :
    Submodule (ZMod 2) (Fin cols → ZMod 2) :=
  RowSpace.rowSpace (lowBits (fun r c => buf (r * cols + c)) rows cols)

theorem lowBits_congr {rows cols : Nat} {buf : Nat → BitVec 32} {mat : Nat → Nat → BitVec 32}
    (h : Z2Buffer.Holds rows cols buf mat) :
    lowBits (fun r c => buf (r * cols + c)) rows cols = lowBits mat rows cols := by
  ext r c
  exact congrArg lowBit (h r r.isLt c c.isLt)

/-- `gaussian_rank_z2` returns the dimension of the row space of the low-order bits over
two elements, and the matrix it leaves has the same row space. -/
theorem gaussianRankZ2_rowSpace (buf : Nat → BitVec 32) (rows cols : Nat) :
    (Z2Buffer.eliminated buf rows cols).rank =
        Module.finrank (ZMod 2) (bitRowSpace buf rows cols) ∧
      bitRowSpace (Z2Buffer.eliminated buf rows cols).mat rows cols =
        bitRowSpace buf rows cols := by
  have hsim := Z2Buffer.simulates_eliminated buf rows cols
  have hok := ok_eliminated (fun r c => buf (r * cols + c)) rows cols
  constructor
  · calc (Z2Buffer.eliminated buf rows cols).rank
        = gaussianRankZ2 (fun r c => buf (r * cols + c)) rows cols := hsim.rank
      _ = (lowBits (fun r c => buf (r * cols + c)) rows cols).rank :=
          gaussianRankZ2_eq_rank _ rows cols
      _ = Module.finrank (ZMod 2) (bitRowSpace buf rows cols) :=
          (RowSpace.finrank_rowSpace _).symm
  · calc bitRowSpace (Z2Buffer.eliminated buf rows cols).mat rows cols
        = RowSpace.rowSpace (lowBits
            (eliminated (fun r c => buf (r * cols + c)) rows cols).mat rows cols) :=
          congrArg RowSpace.rowSpace (lowBits_congr hsim.holds)
      _ = bitRowSpace buf rows cols := hok.rowSpace

example : (Z2Buffer.eliminated (fun a => [2, 1, 3, 5, 4, 7].getD a 0) 3 2).rank = 2 := by decide

end HoloMarket
