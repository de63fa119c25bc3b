import Mathlib.Algebra.Field.ZMod
import Mathlib.LinearAlgebra.Matrix.Rank
import HoloMarket.Math.FloerBoundary

/-!
# The ranks of the Floer record

`compute_floer_homology` reads the boundary matrix with the lower point as the
row, while the kernel sets cells with the upper point as the row.  Every block it
eliminates is zero, so the ranks it returns are the numbers of critical points.
The matrix itself is a boundary operator when the number of saddles is even.
-/

namespace HoloMarket

/-! ## Blocks of zeros -/

theorem eliminated_of_even {mat : Nat → Nat → BitVec 32} (h : ∀ r c, oddAt mat r c = false)
    (rows cols : Nat) : eliminated mat rows cols = ⟨mat, 0, 0⟩ := by
  unfold eliminated
  induction cols with
  | zero => rfl
  | succ cols ih =>
    rw [List.range_succ, List.foldl_concat, ih]
    have hnone : (List.range' 0 (rows - 0)).find? (fun r => oddAt mat r cols) = none :=
      List.find?_eq_none.mpr fun r _ => by simp [h r cols]
    unfold eliminateColumn
    simp only [hnone, ite_self]

section
variable {K : Type*} [Field K] [LinearOrder K]
variable {sqrtf : K → K} {curlMagnitude curlCoexact : Nat → K} {criticals : List (CriticalPoint K)}
variable {slots : List (InstantonPath K)}

omit [Field K] [LinearOrder K] in
theorem mem_gradeIndices {grade : MorseIndex} {i : Nat} :
    i ∈ gradeIndices criticals grade ↔ gradeAt criticals i = some grade := by
  unfold gradeIndices
  rw [List.mem_filter, List.mem_range, decide_eq_true_iff]
  exact ⟨fun h => h.2, fun h => ⟨lt_length_of_gradeAt h, h⟩⟩

/-- With the lower grade as the rows every entry of the block is zero. -/
theorem InstantonSlots.subBlock_eq_zero
    (h : InstantonSlots sqrtf curlMagnitude curlCoexact criticals slots)
    {rowGrade colGrade : MorseIndex} (hlt : rowGrade.toNat < colGrade.toNat) (ri ci : Nat) :
    subBlock criticals (kernelBuildFloerBoundary criticals slots) rowGrade colGrade ri ci = 0 := by
  classical
  unfold subBlock
  cases hi : (gradeIndices criticals rowGrade)[ri]? with
  | none => rfl
  | some i =>
    cases hj : (gradeIndices criticals colGrade)[ci]? with
    | none => rfl
    | some j =>
      have hgi := mem_gradeIndices.mp (List.mem_of_getElem? hi)
      have hgj := mem_gradeIndices.mp (List.mem_of_getElem? hj)
      have hnot : ¬ Steps criticals j i := by
        rintro ⟨gj, gi, hj', hi', he⟩
        rw [hgi] at hi'
        rw [hgj] at hj'
        cases hi'
        cases hj'
        omega
      simp only
      rw [h.boundary_apply (lt_length_of_gradeAt hgj), if_neg hnot]

theorem InstantonSlots.blockRank_eq_zero
    (h : InstantonSlots sqrtf curlMagnitude curlCoexact criticals slots)
    {rowGrade colGrade : MorseIndex} (hlt : rowGrade.toNat < colGrade.toNat) :
    blockRank criticals (kernelBuildFloerBoundary criticals slots) rowGrade colGrade = 0 := by
  have heven : ∀ r c, oddAt (subBlock criticals (kernelBuildFloerBoundary criticals slots)
      rowGrade colGrade) r c = false := by
    intro r c
    unfold oddAt
    rw [h.subBlock_eq_zero hlt]
    rfl
  unfold blockRank gaussianRankZ2
  rw [eliminated_of_even heven, ite_self]

/-! ## The record -/

theorem clampRank_natCast (n : Nat) : clampRank n = n := by
  unfold clampRank
  omega

theorem computeFloerHomology_ranks (criticals : List (CriticalPoint K))
    (instantons : List (InstantonPath K)) (boundary : Nat → BitVec 32) :
    let record := computeFloerHomology criticals instantons boundary
    record.rankHF0 = clampRank (nGrade criticals .minimum - rankD1 criticals boundary) ∧
      record.rankHF1 = clampRank (nGrade criticals .saddle - rankD1 criticals boundary -
        rankD2 criticals boundary) ∧
      record.rankHF2 = clampRank (nGrade criticals .maximum - rankD2 criticals boundary) ∧
      record.eulerCharacteristic = record.rankHF0 - record.rankHF1 + record.rankHF2 := by
  unfold computeFloerHomology
  by_cases hempty : criticals.length = 0
  · rw [if_pos hempty, List.eq_nil_of_length_eq_zero hempty]
    exact ⟨rfl, rfl, rfl, rfl⟩
  · rw [if_neg hempty]
    exact ⟨rfl, rfl, rfl, rfl⟩

theorem InstantonSlots.rankD_eq_zero
    (h : InstantonSlots sqrtf curlMagnitude curlCoexact criticals slots) :
    rankD1 criticals (kernelBuildFloerBoundary criticals slots) = 0 ∧
      rankD2 criticals (kernelBuildFloerBoundary criticals slots) = 0 :=
  ⟨h.blockRank_eq_zero (by decide), h.blockRank_eq_zero (by decide)⟩

/-- The returned ranks are the numbers of critical points. -/
theorem InstantonSlots.ranks
    (h : InstantonSlots sqrtf curlMagnitude curlCoexact criticals slots) :
    let record := computeFloerHomology criticals slots (kernelBuildFloerBoundary criticals slots)
    record.rankHF0 = nGrade criticals .minimum ∧ record.rankHF1 = nGrade criticals .saddle ∧
      record.rankHF2 = nGrade criticals .maximum := by
  obtain ⟨hd1, hd2⟩ := h.rankD_eq_zero
  obtain ⟨h0, h1, h2, -⟩ := computeFloerHomology_ranks criticals slots
    (kernelBuildFloerBoundary criticals slots)
  rw [hd1, Nat.cast_zero, sub_zero, clampRank_natCast] at h0
  rw [hd1, hd2, Nat.cast_zero, sub_zero, sub_zero, clampRank_natCast] at h1
  rw [hd2, Nat.cast_zero, sub_zero, clampRank_natCast] at h2
  exact ⟨h0, h1, h2⟩

end

/-! ## The matrices of instantons -/

theorem matrix_rank_eq_zero_iff {F m n : Type*} [Field F] [Finite m] [Fintype n]
    (A : Matrix m n F) : A.rank = 0 ↔ A = 0 := by
  constructor
  · intro h
    have hbot : LinearMap.range A.mulVecLin = ⊥ := Submodule.finrank_eq_zero.mp h
    have hzero := LinearMap.range_eq_bot.mp hbot
    classical
    ext i j
    have hcol := congrFun (LinearMap.congr_fun hzero (Pi.single j 1)) i
    simpa using hcol
  · rintro rfl
    exact Matrix.rank_zero

section
variable {K : Type*}

/-- The critical points of one grade. -/
abbrev OfGrade (criticals : List (CriticalPoint K)) (grade : MorseIndex) : Type :=
  { i : Fin criticals.length // gradeAt criticals i = some grade }

/-- An instanton between two critical points, in either direction. -/
def InstantonPath.Joins (inst : InstantonPath K) (a b : Nat) : Prop :=
  inst.Goes a b ∨ inst.Goes b a

instance InstantonPath.decidableJoins (inst : InstantonPath K) (a b : Nat) :
    Decidable (inst.Joins a b) :=
  inferInstanceAs (Decidable (_ ∨ _))

/-- The matrix of parities of the number of instantons joining two points. -/
def joinMatrix (criticals : List (CriticalPoint K)) (instantons : List (InstantonPath K))
    (a b : MorseIndex) : Matrix (OfGrade criticals a) (OfGrade criticals b) (ZMod 2) :=
  fun i j => (instantons.countP fun inst => decide (inst.Joins i.1 j.1) : Nat)

/-- The ranks of the record are those of the matrices of instantons. -/
structure RanksOfInstantons (criticals : List (CriticalPoint K))
    (instantons : List (InstantonPath K)) (record : FloerRecord K) : Prop where
  hf0 : record.rankHF0 = nGrade criticals .minimum -
    (joinMatrix criticals instantons .minimum .saddle).rank
  hf1 : record.rankHF1 = max 0 (nGrade criticals .saddle -
    (joinMatrix criticals instantons .minimum .saddle).rank -
    (joinMatrix criticals instantons .saddle .maximum).rank)
  hf2 : record.rankHF2 = nGrade criticals .maximum -
    (joinMatrix criticals instantons .saddle .maximum).rank

end

section
variable {K : Type*} [Field K] [LinearOrder K]
variable {sqrtf : K → K} {curlMagnitude curlCoexact : Nat → K} {criticals : List (CriticalPoint K)}
variable {slots : List (InstantonPath K)}

theorem InstantonSlots.joinMatrix_apply
    (h : InstantonSlots sqrtf curlMagnitude curlCoexact criticals slots) {a b : MorseIndex}
    (hlt : a.toNat < b.toNat) (i : OfGrade criticals a) (j : OfGrade criticals b) :
    joinMatrix criticals slots a b i j = 1 := by
  have hbelow : Below criticals i.1 j.1 := ⟨a, b, i.2, j.2, hlt⟩
  have hback : ¬ Below criticals j.1 i.1 := by
    rintro ⟨gj, gi, hj, hi, hlt'⟩
    rw [i.2] at hi
    rw [j.2] at hj
    cases hi
    cases hj
    omega
  have hforth : ∀ inst ∈ slots,
      decide (inst.Joins i.1 j.1) = true ↔ decide (inst.Goes i.1 j.1) = true := by
    intro inst hi
    rw [decide_eq_true_iff, decide_eq_true_iff]
    exact ⟨fun hj => hj.resolve_right (h.not_goes hback hi), Or.inl⟩
  unfold joinMatrix
  rw [List.countP_congr hforth, h.countP_goes hbelow, Nat.cast_one]

theorem InstantonSlots.joinMatrix_rank_eq_zero_iff
    (h : InstantonSlots sqrtf curlMagnitude curlCoexact criticals slots) {a b : MorseIndex}
    (hlt : a.toNat < b.toNat) :
    (joinMatrix criticals slots a b).rank = 0 ↔
      nGrade criticals a = 0 ∨ nGrade criticals b = 0 := by
  rw [matrix_rank_eq_zero_iff]
  constructor
  · intro hzero
    by_contra hpos
    obtain ⟨i, hi⟩ := exists_gradeAt_iff.mpr (Nat.pos_of_ne_zero fun h0 => hpos (Or.inl h0))
    obtain ⟨j, hj⟩ := exists_gradeAt_iff.mpr (Nat.pos_of_ne_zero fun h0 => hpos (Or.inr h0))
    have hone := h.joinMatrix_apply hlt ⟨⟨i, lt_length_of_gradeAt hi⟩, hi⟩
      ⟨⟨j, lt_length_of_gradeAt hj⟩, hj⟩
    rw [hzero, Matrix.zero_apply] at hone
    exact absurd hone (by decide)
  · intro hnone
    ext i j
    rcases hnone with h0 | h0
    · exact absurd (exists_gradeAt_iff.mp ⟨i.1, i.2⟩) (by omega)
    · exact absurd (exists_gradeAt_iff.mp ⟨j.1, j.2⟩) (by omega)

/-- The record has the ranks of the instantons exactly when both matrices of
instantons are empty. -/
theorem InstantonSlots.ranksOfInstantons_iff
    (h : InstantonSlots sqrtf curlMagnitude curlCoexact criticals slots) :
    RanksOfInstantons criticals slots (computeFloerHomology criticals slots
        (kernelBuildFloerBoundary criticals slots)) ↔
      nGrade criticals .saddle = 0 ∨
        (nGrade criticals .minimum = 0 ∧ nGrade criticals .maximum = 0) := by
  obtain ⟨hr0, hr1, hr2⟩ := h.ranks
  have h1 := h.joinMatrix_rank_eq_zero_iff (a := .minimum) (b := .saddle) (by decide)
  have h2 := h.joinMatrix_rank_eq_zero_iff (a := .saddle) (b := .maximum) (by decide)
  constructor
  · intro hranks
    have hf0 := hranks.hf0
    have hf2 := hranks.hf2
    rw [hr0] at hf0
    rw [hr2] at hf2
    have hz1 := h1.mp (by omega)
    have hz2 := h2.mp (by omega)
    omega
  · intro hnone
    have hz1 := h1.mpr (by omega)
    have hz2 := h2.mpr (by omega)
    refine ⟨?_, ?_, ?_⟩
    · rw [hr0, hz1]
      omega
    · rw [hr1, hz1, hz2]
      omega
    · rw [hr2, hz2]
      omega

end

/-! ## The square of the boundary matrix -/

/-- `d_boundary_matrix` over the integers modulo 2. -/
def boundaryMatrix {K : Type*} (criticals : List (CriticalPoint K)) (boundary : Nat → BitVec 32) :
    Matrix (Fin criticals.length) (Fin criticals.length) (ZMod 2) :=
  fun d s => (boundary (d * criticals.length + s)).toNat

def boundarySquare {K : Type*} (criticals : List (CriticalPoint K)) (boundary : Nat → BitVec 32) :
    Matrix (Fin criticals.length) (Fin criticals.length) (ZMod 2) :=
  boundaryMatrix criticals boundary * boundaryMatrix criticals boundary

/-- The matrix is a boundary operator, no rank is clamped and the Euler
characteristic is the alternating number of critical points. -/
structure HomologyDefined {K : Type*} (criticals : List (CriticalPoint K))
    (boundary : Nat → BitVec 32) (record : FloerRecord K) : Prop where
  square : boundarySquare criticals boundary = 0
  hf0 : record.rankHF0 = nGrade criticals .minimum - rankD1 criticals boundary
  hf1 : record.rankHF1 = nGrade criticals .saddle - rankD1 criticals boundary -
    rankD2 criticals boundary
  hf2 : record.rankHF2 = nGrade criticals .maximum - rankD2 criticals boundary
  euler : record.eulerCharacteristic =
    nGrade criticals .minimum - nGrade criticals .saddle + nGrade criticals .maximum

section
variable {K : Type*} [Field K] [LinearOrder K]
variable {sqrtf : K → K} {curlMagnitude curlCoexact : Nat → K} {criticals : List (CriticalPoint K)}
variable {slots : List (InstantonPath K)}

theorem InstantonSlots.boundaryMatrix_apply
    (h : InstantonSlots sqrtf curlMagnitude curlCoexact criticals slots)
    (d s : Fin criticals.length) [Decidable (Steps criticals s d)] :
    boundaryMatrix criticals (kernelBuildFloerBoundary criticals slots) d s =
      if Steps criticals s d then 1 else 0 := by
  unfold boundaryMatrix
  rw [h.boundary_apply s.2]
  split_ifs <;> rfl

omit [Field K] [LinearOrder K] in
/-- Two steps lead from a minimum through a saddle to a maximum. -/
theorem steps_steps_iff {i j k : Nat} :
    (Steps criticals j k ∧ Steps criticals i j) ↔
      (gradeAt criticals i = some .minimum ∧ gradeAt criticals k = some .maximum) ∧
        gradeAt criticals j = some .saddle := by
  rw [steps_iff, steps_iff]
  constructor
  · rintro ⟨⟨hj, hk⟩ | ⟨hj, hk⟩, ⟨hi, hj'⟩ | ⟨hi, hj'⟩⟩
    all_goals simp_all
  · rintro ⟨⟨hi, hk⟩, hj⟩
    exact ⟨Or.inr ⟨hj, hk⟩, Or.inl ⟨hi, hj⟩⟩

/-- The entry from a minimum to a maximum counts the saddles. -/
theorem InstantonSlots.square_apply
    (h : InstantonSlots sqrtf curlMagnitude curlCoexact criticals slots)
    (k i : Fin criticals.length) :
    boundarySquare criticals (kernelBuildFloerBoundary criticals slots) k i =
      if gradeAt criticals i = some .minimum ∧ gradeAt criticals k = some .maximum then
        (nGrade criticals .saddle : ZMod 2) else 0 := by
  classical
  have hterm : ∀ j : Fin criticals.length,
      boundaryMatrix criticals (kernelBuildFloerBoundary criticals slots) k j *
        boundaryMatrix criticals (kernelBuildFloerBoundary criticals slots) j i =
      if gradeAt criticals i = some .minimum ∧ gradeAt criticals k = some .maximum then
        (if gradeAt criticals j = some .saddle then 1 else 0) else 0 := by
    intro j
    rw [h.boundaryMatrix_apply k j, h.boundaryMatrix_apply j i, ite_zero_mul_ite_zero, one_mul,
      ← ite_and]
    exact if_congr steps_steps_iff rfl rfl
  unfold boundarySquare
  rw [Matrix.mul_apply, Finset.sum_congr rfl fun j _ => hterm j]
  split_ifs with hends
  · rw [Fin.sum_univ_eq_sum_range
      fun j => if gradeAt criticals j = some .saddle then (1 : ZMod 2) else 0]
    exact sum_gradeAt (ZMod 2) criticals .saddle
  · exact Finset.sum_const_zero

theorem InstantonSlots.square_eq_zero_iff
    (h : InstantonSlots sqrtf curlMagnitude curlCoexact criticals slots) :
    boundarySquare criticals (kernelBuildFloerBoundary criticals slots) = 0 ↔
      Even (nGrade criticals .saddle) ∨ nGrade criticals .minimum = 0 ∨
        nGrade criticals .maximum = 0 := by
  constructor
  · intro hzero
    by_contra hnot
    obtain ⟨i, hi⟩ := exists_gradeAt_iff.mpr
      (Nat.pos_of_ne_zero fun h0 => hnot (Or.inr (Or.inl h0)))
    obtain ⟨k, hk⟩ := exists_gradeAt_iff.mpr
      (Nat.pos_of_ne_zero fun h0 => hnot (Or.inr (Or.inr h0)))
    have hentry := h.square_apply ⟨k, lt_length_of_gradeAt hk⟩ ⟨i, lt_length_of_gradeAt hi⟩
    rw [if_pos ⟨hi, hk⟩] at hentry
    refine hnot (Or.inl (ZMod.natCast_eq_zero_iff_even.mp ?_))
    rw [← hentry]
    exact congrFun (congrFun hzero _) _
  · intro hnone
    ext k i
    rw [h.square_apply k i, Matrix.zero_apply]
    split_ifs with hends
    · have hmin := exists_gradeAt_iff.mp ⟨i.1, hends.1⟩
      have hmax := exists_gradeAt_iff.mp ⟨k.1, hends.2⟩
      rcases hnone with heven | h0 | h0
      · exact ZMod.natCast_eq_zero_iff_even.mpr heven
      · omega
      · omega
    · rfl

theorem InstantonSlots.homologyDefined_iff
    (h : InstantonSlots sqrtf curlMagnitude curlCoexact criticals slots) :
    HomologyDefined criticals (kernelBuildFloerBoundary criticals slots)
        (computeFloerHomology criticals slots (kernelBuildFloerBoundary criticals slots)) ↔
      Even (nGrade criticals .saddle) ∨ nGrade criticals .minimum = 0 ∨
        nGrade criticals .maximum = 0 := by
  rw [← h.square_eq_zero_iff]
  constructor
  · exact fun hdef => hdef.square
  · intro hsquare
    obtain ⟨hr0, hr1, hr2⟩ := h.ranks
    obtain ⟨hd1, hd2⟩ := h.rankD_eq_zero
    have heuler := (computeFloerHomology_ranks criticals slots
      (kernelBuildFloerBoundary criticals slots)).2.2.2
    rw [hr0, hr1, hr2] at heuler
    refine ⟨hsquare, ?_, ?_, ?_, heuler⟩
    · rw [hr0, hd1]
      omega
    · rw [hr1, hd1, hd2]
      omega
    · rw [hr2, hd2]
      omega

end

/-! ## The pass -/

/-- The ranks of the record are those of the instantons that were found exactly
when no saddle has a minimum or a maximum beside it. -/
theorem floerRanks_iff {K : Type*} [Field K] [LinearOrder K] {sqrtf : K → K}
    {curlMagnitude curlCoexact : Nat → K} {criticals : List (CriticalPoint K)}
    (hn : criticals.length ≤ kFloerMaxCriticals) {slots : List (InstantonPath K)}
    (hslots : InstantonSlots sqrtf curlMagnitude curlCoexact criticals slots) :
    let instantons := slots.take kFloerMaxInstantons
    RanksOfInstantons criticals instantons (computeFloerHomology criticals instantons
        (kernelBuildFloerBoundary criticals instantons)) ↔
      nGrade criticals .saddle = 0 ∨
        (nGrade criticals .minimum = 0 ∧ nGrade criticals .maximum = 0) := by
  rw [hslots.take hn]
  exact hslots.ranksOfInstantons_iff

/-- Two minima: nothing to join, and both survive. -/
theorem floerRanks_two_minima :
    let criticals : List (CriticalPoint ℚ) :=
      [⟨0, 495 / 10000000, 1 / 10, .minimum, true⟩, ⟨1, 495 / 10000000, 1 / 10, .minimum, true⟩]
    ∃ instantons, RanksOfInstantons criticals instantons (computeFloerHomology criticals instantons
      (kernelBuildFloerBoundary criticals instantons)) := by
  intro criticals
  have hslots := instantonSlots_flatMap (fun _ => 505 / 10000000) (fun _ => 1 / 10)
    (fun _ => 1 / 10) criticals
  exact ⟨_, (floerRanks_iff (by decide) hslots).mpr (Or.inl (by decide))⟩

/-- One minimum and one saddle are joined once, and the record still counts
both. -/
theorem floerRanks_minimum_saddle :
    let criticals : List (CriticalPoint ℚ) :=
      [⟨0, 495 / 10000000, 1 / 10, .minimum, true⟩, ⟨1, 495 / 10000000, 1 / 10, .saddle, true⟩]
    ∃ slots, InstantonSlots (fun _ => 505 / 10000000) (fun _ => 1 / 10) (fun _ => 1 / 10)
        criticals slots ∧
      let instantons := slots.take kFloerMaxInstantons
      ¬ RanksOfInstantons criticals instantons (computeFloerHomology criticals instantons
        (kernelBuildFloerBoundary criticals instantons)) := by
  intro criticals
  have hslots := instantonSlots_flatMap (fun _ => 505 / 10000000) (fun _ => 1 / 10)
    (fun _ => 1 / 10) criticals
  refine ⟨_, hslots, ?_⟩
  rw [hslots.take (by decide)]
  exact mt hslots.ranksOfInstantons_iff.mp (by decide)

/-- The boundary matrix squares to zero, and the ranks are well defined, exactly
when the saddles between the minima and the maxima are even in number. -/
theorem floerHomology_defined_iff {K : Type*} [Field K] [LinearOrder K] {sqrtf : K → K}
    {curlMagnitude curlCoexact : Nat → K} {criticals : List (CriticalPoint K)}
    (hn : criticals.length ≤ kFloerMaxCriticals) {slots : List (InstantonPath K)}
    (hslots : InstantonSlots sqrtf curlMagnitude curlCoexact criticals slots) :
    let instantons := slots.take kFloerMaxInstantons
    let boundary := kernelBuildFloerBoundary criticals instantons
    HomologyDefined criticals boundary (computeFloerHomology criticals instantons boundary) ↔
      Even (nGrade criticals .saddle) ∨ nGrade criticals .minimum = 0 ∨
        nGrade criticals .maximum = 0 := by
  rw [hslots.take hn]
  exact hslots.homologyDefined_iff

/-- Two saddles between a minimum and a maximum. -/
theorem floerHomology_defined_two_saddles :
    let criticals : List (CriticalPoint ℚ) :=
      [⟨0, 495 / 10000000, 1 / 10, .saddle, true⟩, ⟨1, 495 / 10000000, 1 / 10, .maximum, true⟩,
        ⟨2, 495 / 10000000, 1 / 10, .minimum, true⟩, ⟨3, 495 / 10000000, 1 / 10, .saddle, true⟩]
    ∃ instantons, HomologyDefined criticals (kernelBuildFloerBoundary criticals instantons)
      (computeFloerHomology criticals instantons
        (kernelBuildFloerBoundary criticals instantons)) := by
  intro criticals
  have hslots := instantonSlots_flatMap (fun _ => 505 / 10000000) (fun _ => 1 / 10)
    (fun _ => 1 / 10) criticals
  exact ⟨_, (floerHomology_defined_iff (by decide) hslots).mpr (Or.inl (by decide))⟩

/-- One point of each index: the entry from the minimum to the maximum is one. -/
theorem floerHomology_not_defined :
    let criticals : List (CriticalPoint ℚ) :=
      [⟨0, 495 / 10000000, 1 / 10, .minimum, true⟩, ⟨1, 495 / 10000000, 1 / 10, .saddle, true⟩,
        ⟨2, 495 / 10000000, 1 / 10, .maximum, true⟩]
    ∃ slots, InstantonSlots (fun _ => 505 / 10000000) (fun _ => 1 / 10) (fun _ => 1 / 10)
        criticals slots ∧
      let instantons := slots.take kFloerMaxInstantons
      let boundary := kernelBuildFloerBoundary criticals instantons
      ¬ HomologyDefined criticals boundary
        (computeFloerHomology criticals instantons boundary) := by
  intro criticals
  have hslots := instantonSlots_flatMap (fun _ => 505 / 10000000) (fun _ => 1 / 10)
    (fun _ => 1 / 10) criticals
  refine ⟨_, hslots, ?_⟩
  rw [hslots.take (by decide)]
  exact mt hslots.homologyDefined_iff.mp (by decide)

end HoloMarket
