import HoloMarket.Math.HodgeKernel

/-!
# The triangle search

What the threads of the edge kernel and of the triangle kernel append.  On a
graph whose rows ascend but for the diagonal, the two pointers meet every common
neighbour of the two ends of an edge, each once.
-/

namespace HoloMarket

/-! ## The two pointers -/

/-- `k` occurs in the list and everything before it is smaller. -/
def Reaches (k : Nat) : List Nat → Prop
  | [] => False
  | x :: xs => x = k ∨ (x < k ∧ Reaches k xs)

theorem reaches_of_mem_sorted {k : Nat} {cols rest : List Nat} (hs : cols.Pairwise (· < ·))
    (hk : k ∈ cols) : Reaches k (cols ++ rest) := by
  induction cols with
  | nil => simp at hk
  | cons x xs ih =>
    obtain ⟨hx, hs'⟩ := List.pairwise_cons.mp hs
    rcases List.mem_cons.mp hk with rfl | hk
    · exact Or.inl rfl
    · exact Or.inr ⟨hx k hk, ih hs' hk⟩

theorem commonStep_sublist {i j ni : Nat} {rowI : List Nat} {next : List Nat → List Nat}
    (hnext : ∀ rowJ, (next rowJ).Sublist rowI) (rowJ : List Nat) :
    (commonStep i j ni next rowJ).Sublist (ni :: rowI) := by
  induction rowJ with
  | nil => exact List.nil_sublist _
  | cons nj rowJ ih =>
    unfold commonStep
    split_ifs
    · exact (hnext rowJ).cons_cons ni
    · exact (hnext _).cons ni
    · exact ih

/-- The meeting nodes are met in the order of the first row. -/
theorem commonNodes_sublist (i j : Nat) (rowI rowJ : List Nat) :
    (commonNodes i j rowI rowJ).Sublist rowI := by
  induction rowI generalizing rowJ with
  | nil => exact List.nil_sublist _
  | cons ni rowI ih => exact commonStep_sublist ih rowJ

theorem mem_right_of_mem_commonNodes {i j k : Nat} {rowI rowJ : List Nat}
    (hk : k ∈ commonNodes i j rowI rowJ) : k ∈ rowJ := by
  induction rowI generalizing rowJ with
  | nil => simp [commonNodes] at hk
  | cons ni rowI ih =>
    induction rowJ with
    | nil => simp [commonNodes, commonStep] at hk
    | cons nj rowJ ihJ =>
      unfold commonNodes commonStep at hk
      split_ifs at hk with heq hlt
      · rcases List.mem_cons.mp hk with rfl | hk
        · exact heq.1 ▸ List.mem_cons_self
        · exact List.mem_cons_of_mem nj (ih hk)
      · exact ih hk
      · exact List.mem_cons_of_mem nj (ihJ hk)

theorem ne_of_mem_commonNodes {i j k : Nat} {rowI rowJ : List Nat}
    (hk : k ∈ commonNodes i j rowI rowJ) : k ≠ i ∧ k ≠ j := by
  induction rowI generalizing rowJ with
  | nil => simp [commonNodes] at hk
  | cons ni rowI ih =>
    induction rowJ with
    | nil => simp [commonNodes, commonStep] at hk
    | cons nj rowJ ihJ =>
      unfold commonNodes commonStep at hk
      split_ifs at hk with heq hlt
      · rcases List.mem_cons.mp hk with rfl | hk
        · exact ⟨heq.2.1, heq.2.2⟩
        · exact ih hk
      · exact ih hk
      · exact ihJ hk

theorem mem_commonNodes {i j k : Nat} {rowI rowJ : List Nat} (hI : Reaches k rowI)
    (hJ : Reaches k rowJ) (hi : k ≠ i) (hj : k ≠ j) : k ∈ commonNodes i j rowI rowJ := by
  induction rowI generalizing rowJ with
  | nil => exact absurd hI (by simp [Reaches])
  | cons ni rowI ih =>
    induction rowJ with
    | nil => exact absurd hJ (by simp [Reaches])
    | cons nj rowJ ihJ =>
      have hni : ni = k ∨ (ni < k ∧ Reaches k rowI) := hI
      have hnj : nj = k ∨ (nj < k ∧ Reaches k rowJ) := hJ
      unfold commonNodes commonStep
      split_ifs with heq hlt
      · by_cases hk : ni = k
        · exact hk ▸ List.mem_cons_self
        · have hk' : nj ≠ k := heq.1 ▸ hk
          exact List.mem_cons_of_mem _ (ih (hni.resolve_left hk).2 (hnj.resolve_left hk').2)
      · have hk : ni ≠ k := by omega
        exact ih (hni.resolve_left hk).2 hJ
      · have hk : nj ≠ k := by
          intro hk
          have hik : ni = k := by omega
          exact heq ⟨by omega, by omega, by omega⟩
        exact ihJ (hnj.resolve_left hk).2

/-! ## The scan for an edge -/

theorem findEdge_concat (edges : List (Nat × Nat)) (f : Nat × Nat) (a b : Nat) :
    findEdge (edges ++ [f]) a b =
      if joins f a b then some edges.length else findEdge edges a b := by
  unfold findEdge
  rw [List.zipIdx_append, List.foldl_append]
  simp

theorem findEdge_eq_some {edges : List (Nat × Nat)} {a b e : Nat}
    (h : findEdge edges a b = some e) : ∃ f, edges[e]? = some f ∧ joins f a b := by
  induction edges using List.reverseRecOn with
  | nil => simp [findEdge] at h
  | append_singleton edges f ih =>
    rw [findEdge_concat] at h
    split_ifs at h with hf
    · cases h
      exact ⟨f, by simp, hf⟩
    · obtain ⟨f', hf', hj⟩ := ih h
      have hlt : e < edges.length := (List.getElem?_eq_some_iff.mp hf').1
      exact ⟨f', by rw [List.getElem?_append_left hlt, hf'], hj⟩

theorem exists_findEdge {edges : List (Nat × Nat)} {f : Nat × Nat} {a b : Nat} (hf : f ∈ edges)
    (hj : joins f a b) : ∃ e, findEdge edges a b = some e := by
  induction edges using List.reverseRecOn with
  | nil => simp at hf
  | append_singleton edges f' ih =>
    rw [findEdge_concat]
    by_cases hf' : joins f' a b
    · exact ⟨_, if_pos hf'⟩
    · rw [if_neg hf']
      refine ih ?_
      rcases List.mem_append.mp hf with h | h
      · exact h
      · rw [List.mem_singleton.mp h] at hj
        exact absurd hj hf'

/-! ## What a thread appends -/

/-- What is known of a triangle when it is appended. -/
structure Triangle.Found (edges : List (Nat × Nat)) (t : Triangle) (i j : Nat) : Prop where
  edge : edges[t.e]? = some (i, j)
  ik : ∃ p, edges[t.eIk]? = some p ∧ joins p i t.kNode
  jk : ∃ p, edges[t.eJk]? = some p ∧ joins p j t.kNode
  ne_i : t.kNode ≠ i
  ne_j : t.kNode ≠ j

theorem triangleAt_eq_some {edges : List (Nat × Nat)} {e i j k : Nat} {t : Triangle} :
    triangleAt edges e i j k = some t ↔
      findEdge edges i k = some t.eIk ∧ findEdge edges j k = some t.eJk ∧
        t.e = e ∧ t.kNode = k := by
  unfold triangleAt
  cases findEdge edges i k with
  | none => simp
  | some eIk =>
    cases findEdge edges j k with
    | none => simp
    | some eJk =>
      obtain ⟨te, tik, tjk, tk⟩ := t
      simp only [Option.some.injEq, Triangle.mk.injEq]
      constructor
      · rintro ⟨rfl, rfl, rfl, rfl⟩
        exact ⟨rfl, rfl, rfl, rfl⟩
      · rintro ⟨rfl, rfl, rfl, rfl⟩
        exact ⟨rfl, rfl, rfl, rfl⟩

theorem mem_kernelFindTriangles {laplacian : SparseLaplacian} {edges : List (Nat × Nat)}
    {e : Nat} {t : Triangle} (h : t ∈ kernelFindTriangles laplacian edges e) :
    t.e = e ∧ ∃ i j, t.Found edges i j := by
  unfold kernelFindTriangles at h
  cases he : edges[e]? with
  | none => simp [he] at h
  | some f =>
    obtain ⟨i, j⟩ := f
    simp only [he] at h
    obtain ⟨k, hk, ht⟩ := List.mem_filterMap.mp h
    obtain ⟨hik, hjk, rfl, rfl⟩ := triangleAt_eq_some.mp ht
    obtain ⟨hi, hj⟩ := ne_of_mem_commonNodes hk
    exact ⟨rfl, i, j, he, findEdge_eq_some hik, findEdge_eq_some hjk, hi, hj⟩

/-- A thread appends at most one triangle for a third node. -/
theorem eq_of_mem_kernelFindTriangles {laplacian : SparseLaplacian} {edges : List (Nat × Nat)}
    {e : Nat} {t t' : Triangle} (h : t ∈ kernelFindTriangles laplacian edges e)
    (h' : t' ∈ kernelFindTriangles laplacian edges e) (hk : t.kNode = t'.kNode) : t = t' := by
  unfold kernelFindTriangles at h h'
  cases he : edges[e]? with
  | none => simp [he] at h
  | some f =>
    obtain ⟨i, j⟩ := f
    simp only [he] at h h'
    obtain ⟨k, -, ht⟩ := List.mem_filterMap.mp h
    obtain ⟨k', -, ht'⟩ := List.mem_filterMap.mp h'
    have hkk : k = k' := by
      rw [← (triangleAt_eq_some.mp ht).2.2.2, ← (triangleAt_eq_some.mp ht').2.2.2, hk]
    subst hkk
    exact Option.some.inj (ht.symm.trans ht')

/-- Edges as the edge kernel appends them. -/
def EdgesBelow (n : Nat) (edges : List (Nat × Nat)) : Prop :=
  ∀ f ∈ edges, f.1 < f.2 ∧ f.2 < n

theorem eq_of_joins_lt {f : Nat × Nat} {a b : Nat} (hf : f.1 < f.2) (hj : joins f a b)
    (hab : a < b) : f = (a, b) := by
  rcases hj with ⟨h₁, h₂⟩ | ⟨h₁, h₂⟩
  · exact Prod.ext h₁ h₂
  · omega

theorem joins_symm {f : Nat × Nat} {a b : Nat} (hj : joins f a b) : joins f b a := hj.symm

variable {laplacian : SparseLaplacian} {edges : List (Nat × Nat)}

theorem mem_kernelBuildEdgeListFromCsr {f : Nat × Nat} {v : Nat}
    (hf : f ∈ kernelBuildEdgeListFromCsr laplacian v) :
    f.1 = v ∧ v < laplacian.nRows ∧ v < f.2 ∧ f.2 ∈ laplacian.row v := by
  unfold kernelBuildEdgeListFromCsr at hf
  split_ifs at hf with hv
  · obtain ⟨u, hu, rfl⟩ := List.mem_map.mp hf
    obtain ⟨hmem, hlt⟩ := List.mem_filter.mp hu
    exact ⟨rfl, hv, by simpa using hlt, hmem⟩
  · simp at hf

/-- An edge that obtained a slot is an entry above the diagonal. -/
theorem EdgeSlots.mem {slots : List (Nat × Nat)} (h : EdgeSlots laplacian slots)
    {f : Nat × Nat} (hf : f ∈ slots) :
    f.1 < laplacian.nRows ∧ f.1 < f.2 ∧ f.2 ∈ laplacian.row f.1 := by
  have hm := mem_kernelBuildEdgeListFromCsr ((SlotOrder.mem_iff h f).mp hf)
  exact hm.2

theorem kernelFindTriangles_of_length_le {e : Nat} (h : edges.length ≤ e) :
    kernelFindTriangles laplacian edges e = [] := by
  unfold kernelFindTriangles
  rw [List.getElem?_eq_none h]

theorem kernelFindTriangles_of_not_mem (e : Nat) (he : e ∉ List.range edges.length) :
    kernelFindTriangles laplacian edges e = [] :=
  kernelFindTriangles_of_length_le (Nat.not_lt.mp fun h => he (List.mem_range.mpr h))

theorem edgeSlots_flatMap (laplacian : SparseLaplacian) :
    EdgeSlots laplacian
      ((List.range laplacian.nRows).flatMap (kernelBuildEdgeListFromCsr laplacian)) := by
  refine SlotOrder.flatMap List.nodup_range (fun v f hf => ?_) fun v hv => ?_
  · exact (mem_kernelBuildEdgeListFromCsr hf).1
  · unfold kernelBuildEdgeListFromCsr
    rw [if_neg fun h => hv (List.mem_range.mpr h)]

theorem triangleSlots_flatMap (laplacian : SparseLaplacian) (edges : List (Nat × Nat)) :
    TriangleSlots laplacian edges
      ((List.range edges.length).flatMap (kernelFindTriangles laplacian edges)) := by
  refine SlotOrder.flatMap List.nodup_range (fun e t ht => ?_) kernelFindTriangles_of_not_mem
  exact (mem_kernelFindTriangles ht).1

/-! ## Graphs in CSR form -/

/-- A symmetric pattern whose rows ascend, the diagonal in its place, last or
absent. -/
structure SparseLaplacian.GraphCsr (laplacian : SparseLaplacian) : Prop where
  row : ∀ v < laplacian.nRows, ∃ cols rest, laplacian.row v = cols ++ rest ∧
    cols.Pairwise (· < ·) ∧ ∀ u ∈ rest, u = v
  nodup : ∀ v < laplacian.nRows, (laplacian.row v).Nodup
  bound : ∀ v < laplacian.nRows, ∀ u ∈ laplacian.row v, u < laplacian.nRows
  symm : ∀ v < laplacian.nRows, ∀ u ∈ laplacian.row v, v ∈ laplacian.row u

/-- The form `kernel_build_complete_laplacian` writes: the columns of a row
ascend, the diagonal comes last, and the pattern is symmetric. -/
structure SparseLaplacian.CsrForm (laplacian : SparseLaplacian) : Prop where
  row : ∀ v < laplacian.nRows, ∃ cols, laplacian.row v = cols ++ [v] ∧
    cols.Pairwise (· < ·) ∧ ∀ u ∈ cols, u ≠ v ∧ u < laplacian.nRows
  symm : ∀ v < laplacian.nRows, ∀ u ∈ laplacian.row v, v ∈ laplacian.row u

theorem SparseLaplacian.CsrForm.graph (hL : laplacian.CsrForm) : laplacian.GraphCsr where
  row := by
    intro v hv
    obtain ⟨cols, hrow, hsorted, -⟩ := hL.row v hv
    exact ⟨cols, [v], hrow, hsorted, fun u hu => List.mem_singleton.mp hu⟩
  nodup := by
    intro v hv
    obtain ⟨cols, hrow, hsorted, hcols⟩ := hL.row v hv
    rw [hrow]
    refine List.nodup_append.mpr ⟨hsorted.imp fun h => h.ne, List.nodup_singleton v, ?_⟩
    intro a ha b hb
    rw [List.mem_singleton.mp hb]
    exact (hcols a ha).1
  bound := by
    intro v hv u hu
    obtain ⟨cols, hrow, -, hcols⟩ := hL.row v hv
    rw [hrow, List.mem_append, List.mem_singleton] at hu
    rcases hu with hu | rfl
    · exact (hcols u hu).2
    · exact hv
  symm := hL.symm

namespace SparseLaplacian.GraphCsr

variable (hL : laplacian.GraphCsr)
include hL

theorem reaches {u v : Nat} (hv : v < laplacian.nRows) (hu : u ∈ laplacian.row v)
    (hne : u ≠ v) : Reaches u (laplacian.row v) := by
  obtain ⟨cols, rest, hrow, hsorted, hrest⟩ := hL.row v hv
  rw [hrow, List.mem_append] at hu
  rw [hrow]
  exact reaches_of_mem_sorted hsorted (hu.resolve_right fun h => hne (hrest u h))

theorem mem_commonNodes_iff {i j k : Nat} (hi : i < laplacian.nRows) (hj : j < laplacian.nRows) :
    k ∈ commonNodes i j (laplacian.row i) (laplacian.row j) ↔
      k ∈ laplacian.row i ∧ k ∈ laplacian.row j ∧ k ≠ i ∧ k ≠ j := by
  constructor
  · intro hk
    obtain ⟨hki, hkj⟩ := ne_of_mem_commonNodes hk
    exact ⟨(commonNodes_sublist ..).mem hk, mem_right_of_mem_commonNodes hk, hki, hkj⟩
  · rintro ⟨hri, hrj, hki, hkj⟩
    exact mem_commonNodes (hL.reaches hi hri hki) (hL.reaches hj hrj hkj) hki hkj

theorem nodup_commonNodes {i : Nat} (hi : i < laplacian.nRows) (j : Nat) (rowJ : List Nat) :
    (commonNodes i j (laplacian.row i) rowJ).Nodup :=
  (hL.nodup i hi).sublist (commonNodes_sublist i j _ _)

theorem edgesBelow {slots : List (Nat × Nat)} (h : EdgeSlots laplacian slots) (m : Nat) :
    EdgesBelow laplacian.nRows (slots.take m) := by
  intro f hf
  obtain ⟨h₁, h₂, h₃⟩ := h.mem (List.mem_of_mem_take hf)
  exact ⟨h₂, hL.bound _ h₁ _ h₃⟩

/-- The edge to the third node determines the third node. -/
theorem nodup_eIk (hE : EdgesBelow laplacian.nRows edges) (e : Nat) :
    ((kernelFindTriangles laplacian edges e).map Triangle.eIk).Nodup := by
  unfold kernelFindTriangles
  cases he : edges[e]? with
  | none => exact List.nodup_nil
  | some f =>
    obtain ⟨i, j⟩ := f
    obtain ⟨hij, hjn⟩ := hE _ (List.mem_of_getElem? he)
    have hi : i < laplacian.nRows := hij.trans hjn
    refine List.pairwise_map.mpr (List.Pairwise.filterMap _ ?_ (hL.nodup_commonNodes hi j _))
    intro k k' hkk t ht t' ht' heq
    obtain ⟨p, hp, hpj⟩ := findEdge_eq_some (triangleAt_eq_some.mp ht).1
    obtain ⟨p', hp', hpj'⟩ := findEdge_eq_some (triangleAt_eq_some.mp ht').1
    rw [heq, hp'] at hp
    cases hp
    rcases hpj with ⟨h₁, h₂⟩ | ⟨h₁, h₂⟩ <;> rcases hpj' with ⟨h₃, h₄⟩ | ⟨h₃, h₄⟩ <;> omega

theorem nodup_kernelFindTriangles (hE : EdgesBelow laplacian.nRows edges) (e : Nat) :
    (kernelFindTriangles laplacian edges e).Nodup :=
  (hL.nodup_eIk hE e).of_map _

/-- A thread appends at most one triangle for each edge of the list. -/
theorem length_kernelFindTriangles_le (hE : EdgesBelow laplacian.nRows edges) (e : Nat) :
    (kernelFindTriangles laplacian edges e).length ≤ edges.length := by
  have hsub : (kernelFindTriangles laplacian edges e).map Triangle.eIk ⊆
      List.range edges.length := by
    intro x hx
    obtain ⟨t, ht, rfl⟩ := List.mem_map.mp hx
    obtain ⟨-, i, j, hf⟩ := mem_kernelFindTriangles ht
    obtain ⟨p, hp, -⟩ := hf.ik
    exact List.mem_range.mpr (List.getElem?_eq_some_iff.mp hp).1
  have hle := ((hL.nodup_eIk hE e).subperm hsub).length_le
  simpa using hle

/-- An edge discovers every common neighbour of its ends to which the list has
both edges. -/
theorem exists_triangle_of_common (hE : EdgesBelow laplacian.nRows edges) {e i j k : Nat}
    {f g : Nat × Nat} (he : edges[e]? = some (i, j)) (hki : k ∈ laplacian.row i)
    (hkj : k ∈ laplacian.row j) (hi : k ≠ i) (hj : k ≠ j) (hf : f ∈ edges)
    (hfk : joins f i k) (hg : g ∈ edges) (hgk : joins g j k) :
    ∃ t ∈ kernelFindTriangles laplacian edges e, t.e = e ∧ t.kNode = k := by
  obtain ⟨hij, hjn⟩ := hE _ (List.mem_of_getElem? he)
  obtain ⟨eIk, hik⟩ := exists_findEdge hf hfk
  obtain ⟨eJk, hjk⟩ := exists_findEdge hg hgk
  have hmem := (hL.mem_commonNodes_iff (hij.trans hjn) hjn).mpr ⟨hki, hkj, hi, hj⟩
  refine ⟨⟨e, eIk, eJk, k⟩, ?_, rfl, rfl⟩
  unfold kernelFindTriangles
  rw [he]
  exact List.mem_filterMap.mpr ⟨k, hmem, triangleAt_eq_some.mpr ⟨hik, hjk, rfl, rfl⟩⟩

/-- Any discovered triangle gets a slot when its thread runs first. -/
theorem exists_slots (hE : EdgesBelow laplacian.nRows edges) (hlen : edges.length ≤ kMaxEdges)
    {e : Nat} {t : Triangle} (ht : t ∈ kernelFindTriangles laplacian edges e) :
    ∃ slots, TriangleSlots laplacian edges slots ∧ t ∈ slots.take kMaxTriangles := by
  obtain ⟨rest, hrest⟩ := SlotOrder.exists_first (List.nodup_range (n := edges.length))
    (fun i x hx => (mem_kernelFindTriangles hx).1) kernelFindTriangles_of_not_mem e
  refine ⟨_, hrest, ?_⟩
  have hle := hL.length_kernelFindTriangles_le hE e
  have hcap : (kernelFindTriangles laplacian edges e).length ≤ kMaxTriangles := by
    unfold kMaxTriangles
    unfold kMaxEdges at hlen
    omega
  rw [List.take_append, List.take_of_length_le hcap]
  exact List.mem_append_left _ ht

end SparseLaplacian.GraphCsr
end HoloMarket
