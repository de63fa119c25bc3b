import HoloMarket.Math.TriangleSearch

/-!
# The complete Laplacian

The pattern that `kernel_build_complete_laplacian` of `lobpcg_solver.cu` writes:
each thread writes one row with all columns, the diagonal last.  The order of the
threads does not matter, since no two of them write to one address.
-/

namespace HoloMarket

/-- The columns that the loop of row `i` visits. -/
def otherColumns (n i : Nat) : List Nat := (List.range n).filter fun j => j ≠ i

/-- The columns of row `i` in the order they are written, the diagonal last. -/
def completeRow (n i : Nat) : List Nat := otherColumns n i ++ [i]

def rowPtrStores (n i : Nat) : List (Nat × Nat) :=
  (i, i * n) :: if i = n - 1 then [(n, n * n)] else []

def colIdxStores (n i : Nat) : List (Nat × Nat) :=
  Buffer.rowStores (i * n) (otherColumns n i) ++ [(i * n + (otherColumns n i).length, i)]

/-- The pattern written by the threads `threads` over what the arrays held before. -/
def completePattern (n : Nat) (threads : List Nat) (rowPtr colIdx : Nat → Nat) :
    SparseLaplacian where
  nRows := n
  rowPtr := (List.range (n + 1)).map (Buffer.launch rowPtr threads (rowPtrStores n))
  colIdx := (List.range (n * n)).map (Buffer.launch colIdx threads (colIdxStores n))

variable {n : Nat} {threads : List Nat} {rowPtr colIdx : Nat → Nat}

theorem mem_otherColumns {i j : Nat} : j ∈ otherColumns n i ↔ j < n ∧ j ≠ i := by
  simp [otherColumns]

theorem pairwise_otherColumns (i : Nat) : (otherColumns n i).Pairwise (· < ·) :=
  List.pairwise_lt_range.filter _

theorem length_otherColumns {i : Nat} (hi : i < n) : (otherColumns n i).length + 1 = n := by
  have hcount := List.length_eq_length_filter_add (l := List.range n) (fun j => decide (j ≠ i))
  have hself : (List.range n).filter (fun j => !decide (j ≠ i)) = [i] := by
    have hc : (List.range n).filter (fun j => !decide (j ≠ i)) = (List.range n).filter (· == i) :=
      List.filter_congr fun j _ => by by_cases h : j = i <;> simp [h]
    rw [hc, List.filter_beq, List.nodup_range.count, if_pos (List.mem_range.mpr hi)]
    rfl
  rw [hself, List.length_range] at hcount
  exact hcount.symm

theorem length_completeRow {i : Nat} (hi : i < n) : (completeRow n i).length = n := by
  unfold completeRow
  rw [List.length_append, List.length_singleton]
  exact length_otherColumns hi

theorem mem_completeRow {i j : Nat} (hi : i < n) : j ∈ completeRow n i ↔ j < n := by
  unfold completeRow
  rw [List.mem_append, List.mem_singleton, mem_otherColumns]
  constructor
  · intro h
    rcases h with h | h
    · exact h.1
    · omega
  · intro h
    by_cases hij : j = i
    · exact Or.inr hij
    · exact Or.inl ⟨h, hij⟩

theorem lt_of_completeRow {v idx j : Nat} (hv : v < n)
    (hj : (completeRow n v)[idx]? = some j) : idx < n := by
  rw [← length_completeRow hv]
  exact (List.getElem?_eq_some_iff.mp hj).1

theorem exists_completeRow {v idx : Nat} (hv : v < n) (hidx : idx < n) :
    ∃ j, (completeRow n v)[idx]? = some j := by
  rw [← length_completeRow hv] at hidx
  exact ⟨_, List.getElem?_eq_getElem hidx⟩

theorem colIdxStores_eq (n i : Nat) :
    colIdxStores n i = Buffer.rowStores (i * n) (completeRow n i) :=
  (Buffer.rowStores_concat ..).symm

theorem rowPtr_apply (hperm : threads.Perm (List.range n)) {v : Nat} (hv : v ≤ n) (hn : 0 < n) :
    Buffer.launch rowPtr threads (rowPtrStores n) v = v * n := by
  have hnd : threads.Nodup := hperm.nodup_iff.mpr List.nodup_range
  have hmem : ∀ t, t ∈ threads ↔ t < n := fun t => hperm.mem_iff.trans List.mem_range
  by_cases hlast : v = n
  · rw [Buffer.launch_apply hnd ((hmem (n - 1)).mpr (by omega))]
    · unfold rowPtrStores
      rw [if_pos rfl, hlast]
      simp
    · intro t ht hne s hs heq
      have htn := (hmem t).mp ht
      unfold rowPtrStores at hs
      rw [if_neg hne, List.mem_singleton] at hs
      rw [hs] at heq
      simp only at heq
      omega
  · rw [Buffer.launch_apply hnd ((hmem v).mpr (by omega))]
    · unfold rowPtrStores
      rw [Buffer.storeAll_cons, Buffer.storeAll_of_not_mem, Function.update_self]
      intro w hw
      split_ifs at hw
      · rw [List.mem_singleton.mp hw]
        exact fun h => hlast h.symm
      · exact absurd hw List.not_mem_nil
    · intro t ht hne s hs heq
      unfold rowPtrStores at hs
      rcases List.mem_cons.mp hs with rfl | hs
      · exact hne heq
      · split_ifs at hs
        · rw [List.mem_singleton.mp hs] at heq
          exact hlast heq.symm
        · exact List.not_mem_nil hs

theorem rowPtr_completePattern (hperm : threads.Perm (List.range n)) {v : Nat} (hv : v ≤ n)
    (hn : 0 < n) : (completePattern n threads rowPtr colIdx).rowPtr.getD v 0 = v * n := by
  show ((List.range (n + 1)).map _).getD v 0 = _
  rw [List.getD_eq_getElem?_getD, List.getElem?_map,
    List.getElem?_range (Nat.lt_succ_of_le hv)]
  exact rowPtr_apply hperm hv hn

theorem rowMajor_width (v n : Nat) : (v + 1) * n - v * n = n := by
  rw [Nat.succ_mul]
  omega

theorem rowMajor_lt {v idx : Nat} (hv : v < n) (hidx : idx < n) : v * n + idx < n * n :=
  calc v * n + idx < v * n + n := by omega
    _ = (v + 1) * n := (Nat.succ_mul v n).symm
    _ ≤ n * n := Nat.mul_le_mul_right n hv

theorem colIdx_completePattern (hperm : threads.Perm (List.range n)) {v idx j : Nat}
    (hv : v < n) (hj : (completeRow n v)[idx]? = some j) :
    (completePattern n threads rowPtr colIdx).colIdx[v * n + idx]? = some j := by
  have hnd : threads.Nodup := hperm.nodup_iff.mpr List.nodup_range
  have hmem : ∀ t, t ∈ threads ↔ t < n := fun t => hperm.mem_iff.trans List.mem_range
  have hidx : idx < n := lt_of_completeRow hv hj
  show ((List.range (n * n)).map (Buffer.launch colIdx threads (colIdxStores n)))[v * n + idx]? = _
  rw [List.getElem?_map, List.getElem?_range (rowMajor_lt hv hidx), Option.map_some,
    Option.some_inj]
  simp only [funext (colIdxStores_eq n)]
  exact Buffer.launch_rows hnd ((hmem v).mpr hv)
    (fun t ht => length_completeRow ((hmem t).mp ht)) hj colIdx

/-- The rows of the pattern, whatever the order of the threads. -/
theorem row_completePattern (hperm : threads.Perm (List.range n)) {v : Nat} (hv : v < n) :
    (completePattern n threads rowPtr colIdx).row v = completeRow n v := by
  have hn : 0 < n := by omega
  unfold SparseLaplacian.row
  rw [rowPtr_completePattern hperm hv.le hn, rowPtr_completePattern hperm hv hn]
  dsimp only
  rw [rowMajor_width]
  apply List.ext_getElem?
  intro idx
  by_cases hidx : idx < n
  · obtain ⟨j, hj⟩ := exists_completeRow hv hidx
    rw [List.getElem?_take_of_lt hidx, List.getElem?_drop, hj]
    exact colIdx_completePattern hperm hv hj
  · rw [List.getElem?_eq_none, List.getElem?_eq_none]
    · rw [length_completeRow hv]
      omega
    · exact (List.length_take_le _ _).trans (by omega)

theorem csrForm_completePattern (hperm : threads.Perm (List.range n)) :
    (completePattern n threads rowPtr colIdx).CsrForm where
  row := by
    intro v hv
    refine ⟨otherColumns n v, row_completePattern hperm hv, pairwise_otherColumns v, ?_⟩
    intro u hu
    obtain ⟨hlt, hne⟩ := mem_otherColumns.mp hu
    exact ⟨hne, hlt⟩
  symm := by
    intro v (hv : v < n) u hu
    rw [row_completePattern hperm hv, mem_completeRow hv] at hu
    rw [row_completePattern hperm hu, mem_completeRow hu]
    exact hv

end HoloMarket
