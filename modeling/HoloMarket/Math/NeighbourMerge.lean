import Mathlib.Tactic.Ring
import HoloMarket.Math.CompleteLaplacian

/-!
# The neighbour merge on the complete Laplacian

The loop of `kernel_find_triangles` with its two pointers into `col_idx`.  It
halts with the triangles that the list form of the search appends, and on the
pattern of the complete graph these are one for each further node.
-/

namespace HoloMarket

/-! ## The loop -/

/-- The pointers of the loop and what the thread has appended. -/
structure MergeState where
  pi : Nat
  pj : Nat
  found : List Triangle
deriving DecidableEq, Repr

section
variable (edges : List (Nat × Nat)) (colIdx : List Nat) (e i j : Nat)

/-- The body of the loop. -/
def mergeStep (s : MergeState) : MergeState :=
  let ni := colIdx.getD s.pi 0
  let nj := colIdx.getD s.pj 0
  if ni = nj ∧ ni ≠ i ∧ ni ≠ j then
    ⟨s.pi + 1, s.pj + 1, s.found ++ (triangleAt edges e i j ni).toList⟩
  else if ni < nj then { s with pi := s.pi + 1 }
  else { s with pj := s.pj + 1 }

/-- The loop, `none` when the fuel runs out before it ends. -/
def mergeLoop (endI endJ : Nat) : Nat → MergeState → Option MergeState
  | 0, _ => none
  | fuel + 1, s =>
    if s.pi < endI ∧ s.pj < endJ then
      mergeLoop endI endJ fuel (mergeStep edges colIdx e i j s)
    else some s

end

/-- The loop of the thread of edge `e` between `i` and `j`. -/
def mergeThread (laplacian : SparseLaplacian) (edges : List (Nat × Nat)) (e i j fuel : Nat) :
    Option MergeState :=
  mergeLoop edges laplacian.colIdx e i j (laplacian.rowPtr.getD (i + 1) 0)
    (laplacian.rowPtr.getD (j + 1) 0) fuel
    ⟨laplacian.rowPtr.getD i 0, laplacian.rowPtr.getD j 0, []⟩

/-- What lies in `colIdx` from the pointer `p` to the end `stop` of its row. -/
def rowFrom (colIdx : List Nat) (p stop : Nat) : List Nat := (colIdx.drop p).take (stop - p)

theorem rowFrom_of_le {colIdx : List Nat} {p stop : Nat} (h : stop ≤ p) :
    rowFrom colIdx p stop = [] := by
  unfold rowFrom
  rw [Nat.sub_eq_zero_of_le h, List.take_zero]

theorem rowFrom_of_lt {colIdx : List Nat} {p stop : Nat} (h : p < stop)
    (hlen : stop ≤ colIdx.length) :
    rowFrom colIdx p stop = colIdx.getD p 0 :: rowFrom colIdx (p + 1) stop := by
  have hp : p < colIdx.length := by omega
  unfold rowFrom
  rw [List.drop_eq_getElem_cons hp, show stop - p = stop - (p + 1) + 1 by omega,
    List.take_succ_cons, List.getD_eq_getElem?_getD, List.getElem?_eq_getElem hp,
    Option.getD_some]

theorem commonNodes_cons (i j ni nj : Nat) (rowI rowJ : List Nat) :
    commonNodes i j (ni :: rowI) (nj :: rowJ) =
      if ni = nj ∧ ni ≠ i ∧ ni ≠ j then ni :: commonNodes i j rowI rowJ
      else if ni < nj then commonNodes i j rowI (nj :: rowJ)
      else commonNodes i j (ni :: rowI) rowJ := rfl

theorem commonNodes_nil_right (i j : Nat) (rowI : List Nat) : commonNodes i j rowI [] = [] := by
  cases rowI with
  | nil => rfl
  | cons ni rowI => rfl

/-- Every round moves a pointer, so the loop ends, and it appends what the search
over the rest of the two rows finds. -/
theorem mergeLoop_eq {edges : List (Nat × Nat)} {colIdx : List Nat} {e i j endI endJ : Nat}
    (hI : endI ≤ colIdx.length) (hJ : endJ ≤ colIdx.length) (fuel : Nat) (s : MergeState)
    (hfuel : (endI - s.pi) + (endJ - s.pj) < fuel) :
    ∃ s', mergeLoop edges colIdx e i j endI endJ fuel s = some s' ∧
      s'.found = s.found ++ (commonNodes i j (rowFrom colIdx s.pi endI)
        (rowFrom colIdx s.pj endJ)).filterMap (triangleAt edges e i j) := by
  induction fuel generalizing s with
  | zero => omega
  | succ fuel ih =>
    unfold mergeLoop
    by_cases hrun : s.pi < endI ∧ s.pj < endJ
    · obtain ⟨hi, hj⟩ := hrun
      rw [if_pos ⟨hi, hj⟩, rowFrom_of_lt hi hI, rowFrom_of_lt hj hJ, commonNodes_cons]
      unfold mergeStep
      dsimp only
      split_ifs with heq hlt
      · obtain ⟨s', hs', hfound⟩ := ih ⟨s.pi + 1, s.pj + 1, _⟩ (by dsimp only; omega)
        refine ⟨s', hs', hfound.trans ?_⟩
        rw [List.filterMap_cons, List.append_assoc]
        cases triangleAt edges e i j (colIdx.getD s.pi 0) with
        | none => rfl
        | some t => rfl
      · obtain ⟨s', hs', hfound⟩ := ih { s with pi := s.pi + 1 } (by dsimp only; omega)
        refine ⟨s', hs', hfound.trans ?_⟩
        rw [← rowFrom_of_lt hj hJ]
      · obtain ⟨s', hs', hfound⟩ := ih { s with pj := s.pj + 1 } (by dsimp only; omega)
        refine ⟨s', hs', hfound.trans ?_⟩
        rw [← rowFrom_of_lt hi hI]
    · rw [if_neg hrun]
      refine ⟨s, rfl, ?_⟩
      have hnil : commonNodes i j (rowFrom colIdx s.pi endI) (rowFrom colIdx s.pj endJ) = [] := by
        by_cases hi : s.pi < endI
        · rw [rowFrom_of_le (p := s.pj) (by omega)]
          exact commonNodes_nil_right ..
        · rw [rowFrom_of_le (p := s.pi) (by omega)]
          rfl
      rw [hnil, List.filterMap_nil, List.append_nil]

/-- The loop of a thread ends with what `kernelFindTriangles` says it appends. -/
theorem mergeThread_eq {laplacian : SparseLaplacian} {edges : List (Nat × Nat)}
    {e i j fuel : Nat} (he : edges[e]? = some (i, j))
    (hi : laplacian.rowPtr.getD (i + 1) 0 ≤ laplacian.colIdx.length)
    (hj : laplacian.rowPtr.getD (j + 1) 0 ≤ laplacian.colIdx.length)
    (hfuel : (laplacian.rowPtr.getD (i + 1) 0 - laplacian.rowPtr.getD i 0) +
      (laplacian.rowPtr.getD (j + 1) 0 - laplacian.rowPtr.getD j 0) < fuel) :
    ∃ s, mergeThread laplacian edges e i j fuel = some s ∧
      s.found = kernelFindTriangles laplacian edges e := by
  unfold mergeThread kernelFindTriangles
  rw [he]
  exact mergeLoop_eq hi hj fuel _ hfuel

/-! ## The complete graph -/

variable {n : Nat} {threads : List Nat} {rowPtr colIdx : Nat → Nat}

theorem mem_row_completePattern (hperm : threads.Perm (List.range n)) {u v : Nat} (hv : v < n) :
    u ∈ (completePattern n threads rowPtr colIdx).row v ↔ u < n := by
  rw [row_completePattern hperm hv]
  exact mem_completeRow hv

theorem edgeList_completePattern (hperm : threads.Perm (List.range n)) {v : Nat} (hv : v < n) :
    kernelBuildEdgeListFromCsr (completePattern n threads rowPtr colIdx) v =
      ((List.range n).filter fun u => decide (v < u)).map fun u => (v, u) := by
  have hrow : v < (completePattern n threads rowPtr colIdx).nRows := hv
  unfold kernelBuildEdgeListFromCsr
  rw [if_pos hrow, row_completePattern hperm hv]
  unfold completeRow otherColumns
  rw [List.filter_append, List.filter_filter, List.filter_singleton, decide_eq_false (lt_irrefl v),
    cond_false, List.append_nil]
  congr 1
  refine List.filter_congr fun u _ => ?_
  by_cases h : v < u
  · simp [h, h.ne']
  · simp [h]

theorem length_above (n v : Nat) :
    ((List.range n).filter fun u => decide (v < u)).length = n - 1 - v := by
  induction n with
  | zero => rw [List.range_zero, List.filter_nil, List.length_nil]; omega
  | succ n ih =>
    rw [List.range_succ, List.filter_append, List.length_append, ih, List.filter_singleton]
    by_cases h : v < n
    · rw [decide_eq_true h]
      simp only [cond_true, List.length_singleton]
      omega
    · rw [decide_eq_false h]
      simp only [cond_false, List.length_nil]
      omega

theorem sum_below (n : Nat) :
    ((List.range n).map fun v => n - 1 - v).sum = n * (n - 1) / 2 := by
  have htwice : 2 * ((List.range n).map fun v => n - 1 - v).sum = n * (n - 1) := by
    induction n with
    | zero => rfl
    | succ n ih =>
      have hshift : (List.range n).map ((fun v => n + 1 - 1 - v) ∘ Nat.succ) =
          (List.range n).map fun v => n - 1 - v :=
        List.map_congr_left fun v _ => by simp only [Function.comp_apply]; omega
      rw [List.range_succ_eq_map, List.map_cons, List.sum_cons, List.map_map, hshift,
        Nat.mul_add, ih]
      cases n with
      | zero => rfl
      | succ n =>
        simp only [Nat.add_sub_cancel, Nat.sub_zero]
        ring
  omega

theorem length_edgeSlots (hperm : threads.Perm (List.range n)) {slots : List (Nat × Nat)}
    (h : EdgeSlots (completePattern n threads rowPtr colIdx) slots) :
    slots.length = n * (n - 1) / 2 := by
  rw [(SlotOrder.perm h (edgeSlots_flatMap _)).length_eq, List.length_flatMap, ← sum_below]
  congr 1
  refine List.map_congr_left fun v hv => ?_
  rw [edgeList_completePattern hperm (List.mem_range.mp hv), List.length_map]
  exact length_above n v

theorem count_edgeSlots (hperm : threads.Perm (List.range n)) {slots : List (Nat × Nat)}
    (h : EdgeSlots (completePattern n threads rowPtr colIdx) slots) {a b : Nat} (hab : a < b)
    (hb : b < n) : slots.count (a, b) = 1 := by
  rw [SlotOrder.count_eq h, edgeList_completePattern hperm (hab.trans hb)]
  refine List.count_eq_one_of_mem ?_ ?_
  · refine (List.nodup_range.filter _).map fun u u' heq => ?_
    exact (Prod.mk.inj heq).2
  · refine List.mem_map.mpr ⟨b, ?_, rfl⟩
    simp [hb, hab]

section
variable {edges : List (Nat × Nat)}

/-- The three edges of the column are those between `i`, `j` and `k`, the
discovering edge `e` first. -/
def Triangle.Records (t : Triangle) (edges : List (Nat × Nat)) (e i j k : Nat) : Prop :=
  t.e = e ∧ edges[e]? = some (i, j) ∧ (∃ p, edges[t.eIk]? = some p ∧ joins p i k) ∧
    ∃ q, edges[t.eJk]? = some q ∧ joins q j k

theorem Triangle.Found.records {t : Triangle} {i j : Nat} (h : t.Found edges i j) :
    t.Records edges t.e i j t.kNode := ⟨rfl, h.edge, h.ik, h.jk⟩

theorem Triangle.Found.eq_kNode {t : Triangle} {e i j i' j' k : Nat} (h : t.Found edges i j)
    (hr : t.Records edges e i' j' k) : i' = i ∧ j' = j ∧ k = t.kNode := by
  obtain ⟨rfl, he, ⟨p, hp, hpk⟩, -⟩ := hr
  obtain ⟨rfl, rfl⟩ := Prod.mk.inj (Option.some.inj (he.symm.trans h.edge))
  obtain ⟨p', hp', hpk'⟩ := h.ik
  cases hp.symm.trans hp'
  have hne := h.ne_i
  refine ⟨rfl, rfl, ?_⟩
  rcases hpk with ⟨h₁, h₂⟩ | ⟨h₁, h₂⟩ <;> rcases hpk' with ⟨h₃, h₄⟩ | ⟨h₃, h₄⟩ <;> omega

/-- All pairs, in the orientation of the edge kernel. -/
def AllPairs (n : Nat) (edges : List (Nat × Nat)) : Prop :=
  ∀ a b, a < b → b < n → (a, b) ∈ edges

theorem AllPairs.exists_joins (h : AllPairs n edges) {a b : Nat} (ha : a < n) (hb : b < n)
    (hne : a ≠ b) : ∃ f ∈ edges, joins f a b := by
  rcases Nat.lt_or_gt_of_ne hne with hab | hba
  · exact ⟨(a, b), h a b hab hb, Or.inl ⟨rfl, rfl⟩⟩
  · exact ⟨(b, a), h b a hba ha, Or.inr ⟨rfl, rfl⟩⟩

theorem kNode_completePattern (hperm : threads.Perm (List.range n)) (hall : AllPairs n edges)
    (hE : EdgesBelow n edges) {e i j : Nat} (he : edges[e]? = some (i, j)) :
    (kernelFindTriangles (completePattern n threads rowPtr colIdx) edges e).map Triangle.kNode =
      commonNodes i j ((completePattern n threads rowPtr colIdx).row i)
        ((completePattern n threads rowPtr colIdx).row j) := by
  obtain ⟨hij, hj⟩ := hE _ (List.mem_of_getElem? he)
  have hi : i < n := hij.trans hj
  have hL : (completePattern n threads rowPtr colIdx).GraphCsr :=
    (csrForm_completePattern hperm).graph
  unfold kernelFindTriangles
  rw [he]
  simp only [List.map_filterMap]
  conv_rhs => rw [← List.filterMap_some (l := commonNodes ..)]
  refine List.filterMap_congr fun k hk => ?_
  obtain ⟨hki, -, hnei, hnej⟩ := (hL.mem_commonNodes_iff hi hj).mp hk
  have hkn := (mem_row_completePattern hperm hi).mp hki
  obtain ⟨f, hf, hfk⟩ := hall.exists_joins hi hkn hnei.symm
  obtain ⟨g, hg, hgk⟩ := hall.exists_joins hj hkn hnej.symm
  obtain ⟨eIk, hIk⟩ := exists_findEdge hf hfk
  obtain ⟨eJk, hJk⟩ := exists_findEdge hg hgk
  unfold triangleAt
  rw [hIk, hJk]
  rfl

theorem length_kernelFindTriangles (hperm : threads.Perm (List.range n))
    (hall : AllPairs n edges) (hE : EdgesBelow n edges) {e : Nat} (he : e < edges.length) :
    (kernelFindTriangles (completePattern n threads rowPtr colIdx) edges e).length = n - 2 := by
  obtain ⟨⟨i, j⟩, hij⟩ : ∃ f, edges[e]? = some f := ⟨_, List.getElem?_eq_getElem he⟩
  obtain ⟨hlt, hj⟩ := hE _ (List.mem_of_getElem? hij)
  have hi : i < n := hlt.trans hj
  have hL : (completePattern n threads rowPtr colIdx).GraphCsr :=
    (csrForm_completePattern hperm).graph
  have hothers : (commonNodes i j ((completePattern n threads rowPtr colIdx).row i)
      ((completePattern n threads rowPtr colIdx).row j)).Perm
        (((List.range n).erase i).erase j) := by
    have hnd : ((List.range n).erase i).Nodup := List.nodup_range.erase i
    refine (List.perm_ext_iff_of_nodup (hL.nodup_commonNodes hi j _) (hnd.erase j)).mpr ?_
    intro k
    rw [hL.mem_commonNodes_iff hi hj, mem_row_completePattern hperm hi,
      mem_row_completePattern hperm hj, hnd.mem_erase_iff, List.nodup_range.mem_erase_iff,
      List.mem_range]
    constructor
    · rintro ⟨hk, -, hki, hkj⟩
      exact ⟨hkj, hki, hk⟩
    · rintro ⟨hkj, hki, hk⟩
      exact ⟨hk, hk, hki, hkj⟩
  have hmemj : j ∈ (List.range n).erase i :=
    List.nodup_range.mem_erase_iff.mpr ⟨hlt.ne', List.mem_range.mpr hj⟩
  rw [← List.length_map (f := Triangle.kNode), kNode_completePattern hperm hall hE hij,
    hothers.length_eq, List.length_erase_of_mem hmemj,
    List.length_erase_of_mem (List.mem_range.mpr hi), List.length_range]
  omega

/-- As many triples as there are edges with a further node. -/
theorem length_triangleSlots (hperm : threads.Perm (List.range n)) (hall : AllPairs n edges)
    (hE : EdgesBelow n edges) {slots : List Triangle}
    (h : TriangleSlots (completePattern n threads rowPtr colIdx) edges slots) :
    slots.length = edges.length * (n - 2) := by
  have hsame : ∀ e ∈ List.range edges.length,
      (kernelFindTriangles (completePattern n threads rowPtr colIdx) edges e).length = n - 2 :=
    fun e he => length_kernelFindTriangles hperm hall hE (List.mem_range.mp he)
  rw [(SlotOrder.perm h (triangleSlots_flatMap _ _)).length_eq, List.length_flatMap,
    List.map_congr_left hsame, List.map_const', List.length_range, List.sum_replicate_nat]

/-! ## The columns of one edge -/

theorem found_of_mem_slots {laplacian : SparseLaplacian} {slots : List Triangle}
    (h : TriangleSlots laplacian edges slots) {t : Triangle} (ht : t ∈ slots) :
    ∃ i j, t.Found edges i j :=
  (mem_kernelFindTriangles ((SlotOrder.mem_iff h t).mp ht)).2

theorem Triangle.Found.kNode_lt {t : Triangle} {i j : Nat} (h : t.Found edges i j)
    (hE : EdgesBelow n edges) : t.kNode < n := by
  obtain ⟨p, hp, hpk⟩ := h.ik
  obtain ⟨hlt, hbnd⟩ := hE _ (List.mem_of_getElem? hp)
  rcases hpk with ⟨h₁, h₂⟩ | ⟨h₁, h₂⟩ <;> omega

/-- Two columns of the same three edges come from one thread and one third node. -/
theorem records_unique {laplacian : SparseLaplacian} {slots : List Triangle}
    (h : TriangleSlots laplacian edges slots) {t t' : Triangle} (ht : t ∈ slots)
    (ht' : t' ∈ slots) {e i j k : Nat} (hr : t.Records edges e i j k)
    (hr' : t'.Records edges e i j k) : t = t' := by
  obtain ⟨i₁, j₁, hf⟩ := found_of_mem_slots h ht
  obtain ⟨i₂, j₂, hf'⟩ := found_of_mem_slots h ht'
  have hk : t.kNode = t'.kNode := (hf.eq_kNode hr).2.2.symm.trans (hf'.eq_kNode hr').2.2
  have he : t'.e = t.e := hr'.1.trans hr.1.symm
  have hthread : t' ∈ kernelFindTriangles laplacian edges t.e :=
    he ▸ (SlotOrder.mem_iff h t').mp ht'
  exact eq_of_mem_kernelFindTriangles ((SlotOrder.mem_iff h t).mp ht) hthread hk

theorem exists_records (hperm : threads.Perm (List.range n)) (hall : AllPairs n edges)
    (hE : EdgesBelow n edges) {slots : List Triangle}
    (h : TriangleSlots (completePattern n threads rowPtr colIdx) edges slots) {e i j k : Nat}
    (he : edges[e]? = some (i, j)) (hk : k < n) (hki : k ≠ i) (hkj : k ≠ j) :
    ∃ t ∈ slots, t.Records edges e i j k := by
  have hL : (completePattern n threads rowPtr colIdx).GraphCsr :=
    (csrForm_completePattern hperm).graph
  obtain ⟨hij, hj⟩ := hE _ (List.mem_of_getElem? he)
  have hi : i < n := hij.trans hj
  obtain ⟨f, hf, hfk⟩ := hall.exists_joins hi hk hki.symm
  obtain ⟨g, hg, hgk⟩ := hall.exists_joins hj hk hkj.symm
  obtain ⟨t, ht, hte, htk⟩ := hL.exists_triangle_of_common hE he
    ((mem_row_completePattern hperm hi).mpr hk) ((mem_row_completePattern hperm hj).mpr hk)
    hki hkj hf hfk hg hgk
  have hmem : t ∈ slots := (SlotOrder.mem_iff h t).mpr (hte ▸ ht)
  obtain ⟨i', j', hfnd⟩ := found_of_mem_slots h hmem
  obtain ⟨rfl, rfl⟩ := Prod.mk.inj (Option.some.inj ((hte ▸ he).symm.trans hfnd.edge))
  exact ⟨t, hmem, hte ▸ htk ▸ hfnd.records⟩

/-- The two rows hold `2 * n` entries, one of which every round passes. -/
theorem mergeThread_completePattern (hperm : threads.Perm (List.range n))
    (hE : EdgesBelow n edges) {e i j fuel : Nat} (he : edges[e]? = some (i, j))
    (hfuel : 2 * n < fuel) :
    ∃ s, mergeThread (completePattern n threads rowPtr colIdx) edges e i j fuel = some s ∧
      s.found = kernelFindTriangles (completePattern n threads rowPtr colIdx) edges e := by
  obtain ⟨hij, hj⟩ := hE _ (List.mem_of_getElem? he)
  have hi : i < n := hij.trans hj
  have hn : 0 < n := by omega
  have hlen : (completePattern n threads rowPtr colIdx).colIdx.length = n * n := by
    show ((List.range (n * n)).map _).length = _
    rw [List.length_map, List.length_range]
  have hptr : ∀ v ≤ n, (completePattern n threads rowPtr colIdx).rowPtr.getD v 0 = v * n :=
    fun v hv => rowPtr_completePattern hperm hv hn
  refine mergeThread_eq he ?_ ?_ ?_
  · rw [hptr _ hi, hlen]
    exact Nat.mul_le_mul_right n hi
  · rw [hptr _ hj, hlen]
    exact Nat.mul_le_mul_right n hj
  · rw [hptr _ hi, hptr _ hj, hptr _ hi.le, hptr _ hj.le, rowMajor_width, rowMajor_width]
    omega

end

/-! ## Every pair and every triple once -/

/-- The edges are the pairs, each once, and the columns are the edges with a
further node, each once. -/
structure MergeComplete (n : Nat) (edges : List (Nat × Nat)) (stored : List Triangle) : Prop where
  pair_once : ∀ a b, a < b → b < n → edges.count (a, b) = 1
  oriented : ∀ f ∈ edges, f.1 < f.2 ∧ f.2 < n
  recorded_once : ∀ e i j k, edges[e]? = some (i, j) → k < n → k ≠ i → k ≠ j →
    ∃! s : Nat, ∃ t : Triangle, stored[s]? = some t ∧ t.Records edges e i j k
  recorded_only : ∀ t ∈ stored, ∃ i j k, k < n ∧ k ≠ i ∧ k ≠ j ∧ t.Records edges t.e i j k

/-- On the pattern of the complete graph, in any order of the threads of any of
the kernels, the edge kernel lists every pair once, and the loop of every edge
ends and records every further node once and nothing else. -/
theorem neighbourMerge_complete {n maxEdges maxTriangles : Nat} {threads : List Nat}
    (hperm : threads.Perm (List.range n)) (rowPtr colIdx : Nat → Nat)
    (hmaxE : n * (n - 1) / 2 ≤ maxEdges) (hmaxT : n * (n - 1) / 2 * (n - 2) ≤ maxTriangles)
    {edgeSlots : List (Nat × Nat)}
    (hes : EdgeSlots (completePattern n threads rowPtr colIdx) edgeSlots)
    {slots : List Triangle}
    (hts : TriangleSlots (completePattern n threads rowPtr colIdx)
      (edgeSlots.take maxEdges) slots) :
    MergeComplete n (edgeSlots.take maxEdges) (slots.take maxTriangles) ∧
      ∀ e i j, (edgeSlots.take maxEdges)[e]? = some (i, j) → ∀ fuel > 2 * n,
        ∃ s, mergeThread (completePattern n threads rowPtr colIdx) (edgeSlots.take maxEdges)
            e i j fuel = some s ∧
          s.found = kernelFindTriangles (completePattern n threads rowPtr colIdx)
            (edgeSlots.take maxEdges) e := by
  have hL : (completePattern n threads rowPtr colIdx).GraphCsr :=
    (csrForm_completePattern hperm).graph
  have hlen := length_edgeSlots hperm hes
  have htake : edgeSlots.take maxEdges = edgeSlots := List.take_of_length_le (by omega)
  rw [htake] at hts ⊢
  have hE : EdgesBelow n edgeSlots := htake ▸ hL.edgesBelow hes maxEdges
  have honce : ∀ a b, a < b → b < n → edgeSlots.count (a, b) = 1 :=
    fun a b hab hb => count_edgeSlots hperm hes hab hb
  have hall : AllPairs n edgeSlots :=
    fun a b hab hb => List.count_pos_iff.mp (by rw [honce a b hab hb]; exact Nat.one_pos)
  have htakeT : slots.take maxTriangles = slots := by
    refine List.take_of_length_le ?_
    rw [length_triangleSlots hperm hall hE hts, hlen]
    exact hmaxT
  rw [htakeT]
  have hnodup : slots.Nodup := SlotOrder.nodup hts (hL.nodup_kernelFindTriangles hE)
  refine ⟨⟨honce, hE, ?_, ?_⟩, ?_⟩
  · intro e i j k he hk hki hkj
    obtain ⟨t, ht, hrec⟩ := exists_records hperm hall hE hts he hk hki hkj
    obtain ⟨s, hs⟩ := List.getElem?_of_mem ht
    refine ⟨s, ⟨t, hs, hrec⟩, ?_⟩
    rintro s' ⟨t', hs', hrec'⟩
    have htt : t = t' := records_unique hts ht (List.mem_of_getElem? hs') hrec hrec'
    exact (List.getElem?_inj (List.getElem?_eq_some_iff.mp hs').1 hnodup).mp
      (hs'.trans (htt ▸ hs.symm))
  · intro t ht
    obtain ⟨i, j, hf⟩ := found_of_mem_slots hts ht
    exact ⟨i, j, t.kNode, hf.kNode_lt hE, hf.ne_i, hf.ne_j, hf.records⟩
  · intro e i j he fuel hfuel
    exact mergeThread_completePattern hperm hE he hfuel

/-- Three nodes whose threads ran in the order 2, 0, 1. -/
theorem neighbourMerge_complete_three :
    MergeComplete 3 ([(0, 1), (0, 2), (1, 2)].take kMaxEdges)
      ([⟨0, 1, 2, 2⟩, ⟨1, 0, 2, 1⟩, ⟨2, 0, 1, 0⟩].take kMaxTriangles) := by
  have hpattern : completePattern 3 [2, 0, 1] (fun _ => 0) (fun _ => 0) =
      ⟨3, [0, 3, 6, 9], [1, 2, 0, 0, 2, 1, 0, 1, 2]⟩ := by decide
  have hes : EdgeSlots (completePattern 3 [2, 0, 1] (fun _ => 0) fun _ => 0)
      [(0, 1), (0, 2), (1, 2)] := by
    rw [hpattern]
    exact edgeSlots_flatMap _
  have hts : TriangleSlots (completePattern 3 [2, 0, 1] (fun _ => 0) fun _ => 0)
      ([(0, 1), (0, 2), (1, 2)].take kMaxEdges)
      [⟨0, 1, 2, 2⟩, ⟨1, 0, 2, 1⟩, ⟨2, 0, 1, 0⟩] := by
    rw [hpattern]
    exact triangleSlots_flatMap _ _
  exact (neighbourMerge_complete (by decide) _ _ (by decide) (by decide) hes hts).1

end HoloMarket
