import Mathlib.Analysis.Real.Sqrt
import Mathlib.Analysis.SpecialFunctions.Log.Basic
import HoloMarket.Math.CompleteLaplacian

/-!
# The normalised Laplacian

The values of `kernel_build_complete_laplacian` and `kernel_normalize_laplacian`,
in exact arithmetic.  The threads of the second kernel read the diagonals of the
other rows in place, so a row that runs later reads the `1` that an earlier one
left there.
-/

namespace HoloMarket

/-- The functions of the device library.  `none` is minus infinity, the logarithm
of zero. -/
structure DeviceMath (K : Type*) [Field K] [LinearOrder K] where
  expf : Option K → K
  logf : K → Option K
  rsqrtf : K → K
  rsqrtf_pos : ∀ x, 0 < x → 0 < rsqrtf x
  rsqrtf_sq : ∀ x, 0 < x → rsqrtf x * rsqrtf x * x = 1

noncomputable def DeviceMath.real : DeviceMath ℝ where
  expf x := x.elim 0 Real.exp
  logf x := if x = 0 then none else some (Real.log x)
  rsqrtf x := (Real.sqrt x)⁻¹
  rsqrtf_pos := fun _ hx => inv_pos.mpr (Real.sqrt_pos.mpr hx)
  rsqrtf_sq := by
    intro x hx
    rw [← mul_inv, Real.mul_self_sqrt hx.le, inv_mul_cancel₀ hx.ne']

variable {K : Type*} [Field K]

/-! ## The matrix of the first kernel -/

/-- The sum that the loop of row `i` accumulates. -/
def degreeOf (weight : Nat → Nat → K) (n i : Nat) : K :=
  (otherColumns n i).foldl (fun degree j => degree + weight i j) 0

def valueStores (weight : Nat → Nat → K) (n i : Nat) : List (Nat × K) :=
  Buffer.rowStores (i * n) ((otherColumns n i).map fun j => -weight i j) ++
    [(i * n + (otherColumns n i).length, degreeOf weight n i)]

/-- `d_values` after the threads `threads`, over what it held before. -/
def completeValues (weight : Nat → Nat → K) (n : Nat) (threads : List Nat) (values : Nat → K) :
    Nat → K :=
  Buffer.launch values threads (valueStores weight n)

/-! ## Its rows -/

def SparseLaplacian.entries (laplacian : SparseLaplacian) (v : Nat) : List Nat :=
  List.range' (laplacian.rowPtr.getD v 0)
    (laplacian.rowPtr.getD (v + 1) 0 - laplacian.rowPtr.getD v 0)

/-- The scan for the diagonal of row `v`. -/
def findDiagonal (laplacian : SparseLaplacian) (values : Nat → K) (v : Nat) : K :=
  ((laplacian.entries v).find? fun k => laplacian.colIdx.getD k 0 == v).elim 0 values

/-- The diagonal of row `v`, the last entry of the row. -/
def diagonalAt (n : Nat) (values : Nat → K) (v : Nat) : K := values (v * n + (n - 1))

section
variable {n : Nat} {threads : List Nat} {rowPtr colIdx : Nat → Nat} {weight : Nat → Nat → K}

theorem entries_completePattern (hperm : threads.Perm (List.range n)) {v : Nat} (hv : v < n) :
    (completePattern n threads rowPtr colIdx).entries v = List.range' (v * n) n := by
  have hn : 0 < n := by omega
  unfold SparseLaplacian.entries
  rw [rowPtr_completePattern hperm hv.le hn, rowPtr_completePattern hperm hv hn, rowMajor_width]

theorem colIdx_getD (hperm : threads.Perm (List.range n)) {v idx j : Nat} (hv : v < n)
    (hj : (completeRow n v)[idx]? = some j) :
    (completePattern n threads rowPtr colIdx).colIdx.getD (v * n + idx) 0 = j := by
  rw [List.getD_eq_getElem?_getD, colIdx_completePattern hperm hv hj, Option.getD_some]

theorem completeRow_eq_self_iff {v idx j : Nat} (hv : v < n)
    (hj : (completeRow n v)[idx]? = some j) : j = v ↔ idx = n - 1 := by
  have hlen := length_otherColumns hv
  have hlt : idx < n := lt_of_completeRow hv hj
  unfold completeRow at hj
  by_cases hidx : idx < (otherColumns n v).length
  · rw [List.getElem?_append_left hidx] at hj
    have hne := (mem_otherColumns.mp (List.mem_of_getElem? hj)).2
    constructor
    · exact fun h => absurd h hne
    · intro h
      omega
  · have hlast : idx = (otherColumns n v).length := by omega
    rw [hlast, List.getElem?_concat_length] at hj
    constructor
    · intro _
      omega
    · intro _
      exact (Option.some.inj hj).symm

theorem findDiagonal_completePattern (hperm : threads.Perm (List.range n)) {v : Nat}
    (hv : v < n) (values : Nat → K) :
    findDiagonal (completePattern n threads rowPtr colIdx) values v = diagonalAt n values v := by
  have hfind : (List.range' (v * n) n).find? (fun k =>
      (completePattern n threads rowPtr colIdx).colIdx.getD k 0 == v) =
        some (v * n + (n - 1)) := by
    refine List.find?_range'_eq_some.mpr ⟨?_, ?_, ?_⟩
    · obtain ⟨j, hj⟩ := exists_completeRow hv (show n - 1 < n by omega)
      rw [colIdx_getD hperm hv hj, (completeRow_eq_self_iff hv hj).mpr rfl]
      exact beq_self_eq_true v
    · exact List.mem_range'_1.mpr (by omega)
    · intro k hk hlt
      obtain ⟨idx, rfl⟩ := Nat.exists_eq_add_of_le hk
      obtain ⟨j, hj⟩ := exists_completeRow hv (show idx < n by omega)
      rw [colIdx_getD hperm hv hj, Bool.not_eq_true', beq_eq_false_iff_ne]
      intro h
      have hlast := (completeRow_eq_self_iff hv hj).mp h
      omega
  unfold findDiagonal diagonalAt
  rw [entries_completePattern hperm hv, hfind]
  rfl

theorem not_mem_row {v v' idx : Nat} (hidx : idx < n) (hne : v ≠ v') :
    v * n + idx ∉ List.range' (v' * n) n := by
  intro h
  obtain ⟨hle, hlt⟩ := List.mem_range'_1.mp h
  obtain ⟨idx', hidx'⟩ := Nat.exists_eq_add_of_le hle
  exact hne (Buffer.rowMajor_inj hidx (by omega) hidx').1

variable (weight n) in
theorem valueStores_eq (i : Nat) :
    valueStores weight n i = Buffer.rowStores (i * n) ((completeRow n i).map fun j =>
      if j = i then degreeOf weight n i else -weight i j) := by
  have hother : (otherColumns n i).map (fun j => if j = i then degreeOf weight n i
      else -weight i j) = (otherColumns n i).map fun j => -weight i j :=
    List.map_congr_left fun j hj => if_neg (mem_otherColumns.mp hj).2
  unfold valueStores completeRow
  rw [List.map_append, hother, List.map_singleton, if_pos rfl, Buffer.rowStores_concat,
    List.length_map]

/-- The values of a row, whatever the order of the threads. -/
theorem completeValues_apply (hperm : threads.Perm (List.range n)) {i idx j : Nat} (hi : i < n)
    (hj : (completeRow n i)[idx]? = some j) (values : Nat → K) :
    completeValues weight n threads values (i * n + idx) =
      if j = i then degreeOf weight n i else -weight i j := by
  have hmem : ∀ t, t ∈ threads ↔ t < n := fun t => hperm.mem_iff.trans List.mem_range
  unfold completeValues
  rw [funext (valueStores_eq n weight)]
  refine Buffer.launch_rows (hperm.nodup_iff.mpr List.nodup_range) ((hmem i).mpr hi)
    (fun t ht => ?_) ?_ values
  · rw [List.length_map]
    exact length_completeRow ((hmem t).mp ht)
  · rw [List.getElem?_map, hj]
    rfl

theorem diagonalAt_completeValues (hperm : threads.Perm (List.range n)) {i : Nat} (hi : i < n)
    (values : Nat → K) :
    diagonalAt n (completeValues weight n threads values) i = degreeOf weight n i := by
  obtain ⟨j, hj⟩ := exists_completeRow hi (show n - 1 < n by omega)
  unfold diagonalAt
  rw [completeValues_apply hperm hi hj, if_pos ((completeRow_eq_self_iff hi hj).mpr rfl)]

end

variable [LinearOrder K] (M : DeviceMath K)

/-! ## The weights -/

def midPrice (bid ask : Nat → K) (i depth : Nat) : K :=
  (bid (i * depth) + ask (i * depth)) * (1 / (2 : Nat))

/-- The weight of the edge from `i` to `j`. -/
def edgeWeight (bid ask : Nat → K) (depth : Nat) (sigma : K) (i j : Nat) : K :=
  let mi := midPrice bid ask i depth
  let mj := midPrice bid ask j depth
  M.expf ((M.logf (mi / (mj + 1 / (10 ^ 8 : Nat)))).map fun l =>
    -|l| / (sigma + 1 / (10 ^ 8 : Nat)))

/-! ## The normalisation -/

/-- The guarded reciprocal square root. -/
def DeviceMath.inv (d : K) : K := if 1 / (10 ^ 10 : Nat) < d then M.rsqrtf d else 1

def normalizeEntry (laplacian : SparseLaplacian) (i : Nat) (invI : K) (values : Nat → K)
    (k : Nat) : Nat → K :=
  let j := laplacian.colIdx.getD k 0
  if j = i then Function.update values k 1
  else
    let invJ := M.inv (findDiagonal laplacian values j)
    Function.update values k (values k * (invI * invJ))

/-- The thread of row `i`, run as one block. -/
def normalizeRow (laplacian : SparseLaplacian) (values : Nat → K) (i : Nat) : Nat → K :=
  let invI := M.inv (findDiagonal laplacian values i)
  (laplacian.entries i).foldl (normalizeEntry M laplacian i invI) values

def kernelNormalizeLaplacian (laplacian : SparseLaplacian) (threads : List Nat)
    (values : Nat → K) : Nat → K :=
  threads.foldl (normalizeRow M laplacian) values

/-- What the normalisation is for: ones on the diagonal and every other entry
scaled by both degrees. -/
def Normalized (n : Nat) (values normalized : Nat → K) : Prop :=
  ∀ i < n, ∀ idx j, (completeRow n i)[idx]? = some j →
    normalized (i * n + idx) =
      if j = i then 1
      else values (i * n + idx) *
        (M.inv (diagonalAt n values i) * M.inv (diagonalAt n values j))

/-! ## One row -/

section
variable {n : Nat} {threads : List Nat} {rowPtr colIdx : Nat → Nat}

/-- The loop of a thread: each round stores to its own address and reads the
diagonals of other rows only. -/
theorem normalizeRow_eq (hperm : threads.Perm (List.range n)) {i : Nat} (hi : i < n)
    (values : Nat → K) (a : Nat) :
    normalizeRow M (completePattern n threads rowPtr colIdx) values i a =
      if a ∈ List.range' (i * n) n then
        if (completePattern n threads rowPtr colIdx).colIdx.getD a 0 = i then 1
        else values a * (M.inv (diagonalAt n values i) *
          M.inv (diagonalAt n values ((completePattern n threads rowPtr colIdx).colIdx.getD a 0)))
      else values a := by
  unfold normalizeRow
  rw [entries_completePattern hperm hi, findDiagonal_completePattern hperm hi]
  refine Buffer.foldl_update_apply (g := fun a =>
    if (completePattern n threads rowPtr colIdx).colIdx.getD a 0 = i then 1
    else values a * (M.inv (diagonalAt n values i) *
      M.inv (diagonalAt n values ((completePattern n threads rowPtr colIdx).colIdx.getD a 0))))
    List.nodup_range' ?_ a
  intro b k hk hb
  obtain ⟨hle, hlt⟩ := List.mem_range'_1.mp hk
  obtain ⟨idx, rfl⟩ := Nat.exists_eq_add_of_le hle
  obtain ⟨j, hj⟩ := exists_completeRow hi (show idx < n by omega)
  have hjn : j < n := (mem_completeRow hi).mp (List.mem_of_getElem? hj)
  unfold normalizeEntry
  dsimp only
  rw [colIdx_getD hperm hi hj]
  split_ifs with hji
  · rfl
  · have hdiag : diagonalAt n b j = diagonalAt n values j :=
      hb _ (Or.inl (not_mem_row (by omega) hji))
    rw [findDiagonal_completePattern hperm hjn, hdiag, hb _ (Or.inr rfl)]

theorem normalizeRow_of_ne (hperm : threads.Perm (List.range n)) {i v idx : Nat} (hi : i < n)
    (hidx : idx < n) (hne : v ≠ i) (values : Nat → K) :
    normalizeRow M (completePattern n threads rowPtr colIdx) values i (v * n + idx) =
      values (v * n + idx) := by
  rw [normalizeRow_eq M hperm hi, if_neg (not_mem_row hidx hne)]

/-- A thread scales its own row by the diagonals that it finds. -/
theorem normalizeRow_apply (hperm : threads.Perm (List.range n)) {i idx j : Nat} (hi : i < n)
    (hj : (completeRow n i)[idx]? = some j) (values : Nat → K) :
    normalizeRow M (completePattern n threads rowPtr colIdx) values i (i * n + idx) =
      if j = i then 1
      else values (i * n + idx) *
        (M.inv (diagonalAt n values i) * M.inv (diagonalAt n values j)) := by
  have hidx : idx < n := lt_of_completeRow hi hj
  have hmem : i * n + idx ∈ List.range' (i * n) n := List.mem_range'_1.mpr (by omega)
  rw [normalizeRow_eq M hperm hi, if_pos hmem, colIdx_getD hperm hi hj]

theorem diagonalAt_normalizeRow_self (hperm : threads.Perm (List.range n)) {i : Nat}
    (hi : i < n) (values : Nat → K) :
    diagonalAt n (normalizeRow M (completePattern n threads rowPtr colIdx) values i) i = 1 := by
  obtain ⟨j, hj⟩ := exists_completeRow hi (show n - 1 < n by omega)
  unfold diagonalAt
  rw [normalizeRow_apply M hperm hi hj, if_pos ((completeRow_eq_self_iff hi hj).mpr rfl)]

/-! ## A run of the threads -/

theorem kernelNormalizeLaplacian_append (laplacian : SparseLaplacian) (before after : List Nat)
    (values : Nat → K) :
    kernelNormalizeLaplacian M laplacian (before ++ after) values =
      kernelNormalizeLaplacian M laplacian after
        (kernelNormalizeLaplacian M laplacian before values) := List.foldl_append

theorem kernelNormalizeLaplacian_of_not_mem (hperm : threads.Perm (List.range n))
    {order : List Nat} (horder : ∀ i ∈ order, i < n) {v idx : Nat} (hidx : idx < n)
    (hv : v ∉ order) (values : Nat → K) :
    kernelNormalizeLaplacian M (completePattern n threads rowPtr colIdx) order values
      (v * n + idx) = values (v * n + idx) := by
  induction order generalizing values with
  | nil => rfl
  | cons i order ih =>
    have hne : v ≠ i := List.ne_of_not_mem_cons hv
    have hv' : v ∉ order := List.not_mem_of_not_mem_cons hv
    refine (ih (fun i' hi' => horder i' (List.mem_cons_of_mem i hi')) hv' _).trans ?_
    exact normalizeRow_of_ne M hperm (horder i List.mem_cons_self) hidx hne values

theorem diagonalAt_kernelNormalizeLaplacian (hperm : threads.Perm (List.range n))
    {order : List Nat} (hnd : order.Nodup) (horder : ∀ i ∈ order, i < n) {v : Nat} (hv : v < n)
    (values : Nat → K) :
    diagonalAt n (kernelNormalizeLaplacian M (completePattern n threads rowPtr colIdx) order
      values) v = if v ∈ order then 1 else diagonalAt n values v := by
  have hlast : n - 1 < n := by omega
  split_ifs with hmem
  · obtain ⟨before, after, rfl⟩ := List.append_of_mem hmem
    obtain ⟨-, hafter, -⟩ := List.nodup_append.mp hnd
    have hrest : ∀ b : Nat → K, kernelNormalizeLaplacian M
        (completePattern n threads rowPtr colIdx) after b (v * n + (n - 1)) =
          b (v * n + (n - 1)) :=
      kernelNormalizeLaplacian_of_not_mem M hperm (fun i hi => horder i (by simp [hi])) hlast
        (List.nodup_cons.mp hafter).1
    rw [kernelNormalizeLaplacian_append]
    exact (hrest _).trans (diagonalAt_normalizeRow_self M hperm hv _)
  · exact kernelNormalizeLaplacian_of_not_mem M hperm horder hlast hmem values

/-- The row of a thread after the whole run: it reads the diagonal of a row that
ran before as one. -/
theorem kernelNormalizeLaplacian_apply (hperm : threads.Perm (List.range n)) {i idx j : Nat}
    {before after : List Nat} (horder : (before ++ i :: after).Perm (List.range n))
    (hj : (completeRow n i)[idx]? = some j) (values : Nat → K) :
    kernelNormalizeLaplacian M (completePattern n threads rowPtr colIdx)
        (before ++ i :: after) values (i * n + idx) =
      if j = i then 1
      else values (i * n + idx) * (M.inv (diagonalAt n values i) *
        M.inv (if j ∈ before then 1 else diagonalAt n values j)) := by
  have hlt : ∀ v ∈ before ++ i :: after, v < n :=
    fun v hv => List.mem_range.mp (horder.mem_iff.mp hv)
  have hi : i < n := hlt i (by simp)
  have hjn : j < n := (mem_completeRow hi).mp (List.mem_of_getElem? hj)
  have hidx : idx < n := lt_of_completeRow hi hj
  obtain ⟨hnd, hafter, hdis⟩ := List.nodup_append.mp (horder.nodup_iff.mpr List.nodup_range)
  have hbefore : ∀ v ∈ before, v < n := fun v hv => hlt v (by simp [hv])
  have hnot : i ∉ before := fun h => hdis i h i List.mem_cons_self rfl
  have hrest : ∀ b : Nat → K, kernelNormalizeLaplacian M
      (completePattern n threads rowPtr colIdx) after b (i * n + idx) = b (i * n + idx) :=
    kernelNormalizeLaplacian_of_not_mem M hperm (fun v hv => hlt v (by simp [hv])) hidx
      (List.nodup_cons.mp hafter).1
  rw [kernelNormalizeLaplacian_append]
  refine (hrest _).trans ?_
  rw [normalizeRow_apply M hperm hi hj,
    diagonalAt_kernelNormalizeLaplacian M hperm hnd hbefore hi,
    diagonalAt_kernelNormalizeLaplacian M hperm hnd hbefore hjn, if_neg hnot,
    kernelNormalizeLaplacian_of_not_mem M hperm hbefore hidx hnot]

end

/-! ## Orders that normalise -/

theorem pairwise_of_before {α : Type*} {R : α → α → Prop} {l : List α}
    (h : ∀ before x after, l = before ++ x :: after → ∀ y ∈ before, R y x) : l.Pairwise R := by
  induction l using List.reverseRecOn with
  | nil => exact List.Pairwise.nil
  | append_singleton l x ih =>
    refine List.pairwise_append.mpr
      ⟨ih fun before y after hl => ?_, List.pairwise_singleton R x, ?_⟩
    · refine h before y (after ++ [x]) ?_
      rw [hl, List.append_assoc, List.cons_append]
    · intro y hy z hz
      rw [List.mem_singleton.mp hz]
      exact h l x [] rfl y hy

section
variable [IsStrictOrderedRing K]

omit M in
theorem guard_pos : (0 : K) < 1 / (10 ^ 10 : Nat) :=
  one_div_pos.mpr (Nat.cast_pos.mpr (Nat.pow_pos (by decide)))

theorem DeviceMath.inv_pos (d : K) : 0 < M.inv d := by
  unfold DeviceMath.inv
  split_ifs with hd
  · exact M.rsqrtf_pos d (guard_pos.trans hd)
  · exact one_pos

theorem DeviceMath.inv_eq_one_iff {d : K} : M.inv d = 1 ↔ d = 1 ∨ d ≤ 1 / (10 ^ 10 : Nat) := by
  unfold DeviceMath.inv
  split_ifs with hd
  · have hpos : 0 < d := guard_pos.trans hd
    have hsq := M.rsqrtf_sq d hpos
    constructor
    · intro h
      rw [h, one_mul, one_mul] at hsq
      exact Or.inl hsq
    · intro h
      have hone : d = 1 := h.resolve_right hd.not_ge
      rw [hone, mul_one] at hsq
      exact hone ▸ (mul_self_eq_one_iff.mp hsq).resolve_right fun hneg =>
        absurd (M.rsqrtf_pos 1 one_pos)
          (by rw [hneg]; exact not_lt.mpr (neg_nonpos.mpr zero_le_one))
  · exact iff_of_true rfl (Or.inr (not_lt.mp hd))

theorem DeviceMath.inv_one : M.inv 1 = 1 := M.inv_eq_one_iff.mpr (Or.inl rfl)

end

/-! ## Which orders normalise -/

section
variable [IsStrictOrderedRing K] {n : Nat} {threads order : List Nat} {weight : Nat → Nat → K}

/-- An entry of a row is scaled as it should be when the row of its column runs
later, or when reading the `1` that it left makes no difference. -/
theorem scaled_iff {w dᵢ dⱼ : K} :
    -w * (M.inv dᵢ * M.inv 1) = -w * (M.inv dᵢ * M.inv dⱼ) ↔
      w = 0 ∨ dⱼ = 1 ∨ dⱼ ≤ 1 / (10 ^ 10 : Nat) := by
  rw [← M.inv_eq_one_iff, M.inv_one, mul_eq_mul_left_iff, mul_right_inj' (M.inv_pos dᵢ).ne',
    neg_eq_zero, or_comm, eq_comm (a := 1)]

theorem normalized_iff_pairwise {rowPtr colIdx : Nat → Nat}
    (hperm : threads.Perm (List.range n)) (horder : order.Perm (List.range n))
    (values : Nat → K) :
    Normalized M n (completeValues weight n threads values)
        (kernelNormalizeLaplacian M (completePattern n threads rowPtr colIdx) order
          (completeValues weight n threads values)) ↔
      order.Pairwise fun j i => weight i j = 0 ∨ degreeOf weight n j = 1 ∨
        degreeOf weight n j ≤ 1 / (10 ^ 10 : Nat) := by
  have hlt : ∀ v ∈ order, v < n := fun v hv => List.mem_range.mp (horder.mem_iff.mp hv)
  have hnd : order.Nodup := horder.nodup_iff.mpr List.nodup_range
  constructor
  · intro h
    refine pairwise_of_before fun before i after hsplit j hjb => ?_
    have hi : i < n := hlt i (by simp [hsplit])
    have hjn : j < n := hlt j (by simp [hsplit, hjb])
    obtain ⟨idx, hj⟩ := List.getElem?_of_mem ((mem_completeRow hi).mpr hjn)
    have hji : j ≠ i := by
      rintro rfl
      rw [hsplit] at hnd
      exact (List.nodup_append.mp hnd).2.2 j hjb j List.mem_cons_self rfl
    have hij := h i hi idx j hj
    rw [hsplit] at horder hij
    rw [kernelNormalizeLaplacian_apply M hperm horder hj, if_neg hji, if_neg hji, if_pos hjb,
      completeValues_apply hperm hi hj, if_neg hji] at hij
    have hdeg := (scaled_iff M).mp hij
    rwa [diagonalAt_completeValues hperm hjn] at hdeg
  · intro h i hi idx j hj
    have hjn : j < n := (mem_completeRow hi).mp (List.mem_of_getElem? hj)
    obtain ⟨before, after, hsplit⟩ :=
      List.append_of_mem (horder.mem_iff.mpr (List.mem_range.mpr hi))
    rw [hsplit] at horder h ⊢
    rw [kernelNormalizeLaplacian_apply M hperm horder hj]
    by_cases hji : j = i
    · rw [if_pos hji, if_pos hji]
    · rw [if_neg hji, if_neg hji]
      by_cases hjb : j ∈ before
      · have hR := (List.pairwise_append.mp h).2.2 j hjb i List.mem_cons_self
        rw [if_pos hjb, completeValues_apply hperm hi hj, if_neg hji]
        refine (scaled_iff M).mpr ?_
        rwa [diagonalAt_completeValues hperm hjn]
      · rw [if_neg hjb]

end

/-- The matrix that `kernel_build_complete_laplacian` writes is normalised
exactly when no row that runs later has a weight to a row that runs earlier and
whose degree is scaled at all. -/
theorem normalizedLaplacian_iff {K : Type*} [Field K] [LinearOrder K] [IsStrictOrderedRing K]
    (M : DeviceMath K) {n : Nat} {threads order : List Nat}
    (hperm : threads.Perm (List.range n)) (horder : order.Perm (List.range n))
    (bid ask : Nat → K) (depth : Nat) (sigma : K) (rowPtr colIdx : Nat → Nat)
    (values : Nat → K) :
    let weight := edgeWeight M bid ask depth sigma
    let laplacian := completePattern n threads rowPtr colIdx
    let written := completeValues weight n threads values
    Normalized M n written (kernelNormalizeLaplacian M laplacian order written) ↔
      order.Pairwise fun j i => weight i j = 0 ∨ degreeOf weight n j = 1 ∨
        degreeOf weight n j ≤ 1 / (10 ^ 10 : Nat) :=
  normalized_iff_pairwise M hperm horder values

/-! ## Quotes at the guard -/

/-- The first instrument is quoted at one and the guard of the division, the
others at one, so the first row has the weight one to every other. -/
noncomputable def guardQuotes (k : Nat) : ℝ := if k = 0 then 1 + 1 / (10 ^ 8 : Nat) else 1

theorem midPrice_guardQuotes (i : Nat) :
    midPrice guardQuotes guardQuotes i 1 = guardQuotes i := by
  unfold midPrice
  rw [Nat.mul_one, Nat.cast_ofNat]
  ring

theorem edgeWeight_guardQuotes_zero {j : Nat} (hj : j ≠ 0) (sigma : ℝ) :
    edgeWeight DeviceMath.real guardQuotes guardQuotes 1 sigma 0 j = 1 := by
  have hratio : midPrice guardQuotes guardQuotes 0 1 /
      (midPrice guardQuotes guardQuotes j 1 + 1 / (10 ^ 8 : Nat)) = (1 : ℝ) := by
    rw [midPrice_guardQuotes, midPrice_guardQuotes]
    unfold guardQuotes
    rw [if_pos rfl, if_neg hj]
    exact div_self (by positivity)
  unfold edgeWeight
  dsimp only
  rw [hratio]
  show ((if (1 : ℝ) = 0 then none else some (Real.log 1)).map _).elim 0 Real.exp = 1
  rw [if_neg one_ne_zero, Real.log_one]
  simp

theorem edgeWeight_guardQuotes_pos (i j : Nat) (sigma : ℝ) :
    0 < edgeWeight DeviceMath.real guardQuotes guardQuotes 1 sigma i j := by
  have hpos : ∀ k, 0 < guardQuotes k := by
    intro k
    unfold guardQuotes
    split_ifs <;> positivity
  have hratio : guardQuotes i / (guardQuotes j + 1 / (10 ^ 8 : Nat)) ≠ 0 :=
    (div_pos (hpos i) (add_pos (hpos j) (by positivity))).ne'
  unfold edgeWeight
  rw [midPrice_guardQuotes, midPrice_guardQuotes]
  show 0 < ((if _ = (0 : ℝ) then none else some (Real.log _)).map _).elim 0 Real.exp
  rw [if_neg hratio]
  exact Real.exp_pos _

/-- Two rows, the first of degree one and run first. -/
theorem normalizedLaplacian_two :
    let written := completeValues (edgeWeight DeviceMath.real guardQuotes guardQuotes 1 1000) 2
      [0, 1] fun _ => 0
    Normalized DeviceMath.real 2 written (kernelNormalizeLaplacian DeviceMath.real
      (completePattern 2 [0, 1] (fun _ => 0) fun _ => 0) [0, 1] written) := by
  refine (normalizedLaplacian_iff DeviceMath.real (List.Perm.refl _) (List.Perm.refl _)
    guardQuotes guardQuotes 1 1000 _ _ _).mpr ?_
  have hdeg : degreeOf (edgeWeight DeviceMath.real guardQuotes guardQuotes 1 1000) 2 0 = 1 := by
    show 0 + edgeWeight DeviceMath.real guardQuotes guardQuotes 1 1000 0 1 = 1
    rw [edgeWeight_guardQuotes_zero one_ne_zero, zero_add]
  refine List.pairwise_pair.mpr ?_
  exact Or.inr (Or.inl hdeg)

/-- Three rows run in ascending order: the rows of the second and third
instrument read a `1` where the degree of the first was two. -/
theorem not_normalized_three :
    let written := completeValues (edgeWeight DeviceMath.real guardQuotes guardQuotes 1 1000) 3
      [0, 1, 2] fun _ => 0
    ¬ Normalized DeviceMath.real 3 written (kernelNormalizeLaplacian DeviceMath.real
      (completePattern 3 [0, 1, 2] (fun _ => 0) fun _ => 0) [0, 1, 2] written) := by
  intro written h
  have hpair := (normalized_iff_pairwise DeviceMath.real (List.Perm.refl _) (List.Perm.refl _)
    _).mp h
  have hdeg : degreeOf (edgeWeight DeviceMath.real guardQuotes guardQuotes 1 1000) 3 0 = 2 := by
    show 0 + edgeWeight DeviceMath.real guardQuotes guardQuotes 1 1000 0 1 +
      edgeWeight DeviceMath.real guardQuotes guardQuotes 1 1000 0 2 = 2
    rw [edgeWeight_guardQuotes_zero one_ne_zero, edgeWeight_guardQuotes_zero two_ne_zero,
      zero_add, one_add_one_eq_two]
  rcases (List.pairwise_cons.mp hpair).1 1 List.mem_cons_self with hw | hd | hd
  · exact (edgeWeight_guardQuotes_pos 1 0 1000).ne' hw
  · rw [hdeg] at hd
    norm_num at hd
  · rw [hdeg] at hd
    norm_num at hd

end HoloMarket
