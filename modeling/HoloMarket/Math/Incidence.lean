import Mathlib.Algebra.BigOperators.Ring.Finset
import Mathlib.Algebra.CharZero.Defs
import Mathlib.Data.Int.Cast.Lemmas
import Mathlib.Tactic.IntervalCases
import HoloMarket.Math.TriangleSearch

/-!
# The boundary of a triangle

A column of `B2` is a boundary exactly when the triangle was discovered from the
edge between its two highest nodes, since the three signs do not depend on which
edge discovered it.  Every triangle is discovered from each of its edges, so over
all slot orders only triangle-free graphs come out right.
-/

namespace HoloMarket

/-! ## Entries of the matrices -/

section
variable {K : Type*} [Ring K]

/-- The column of `B1` that belongs to the edge `f`. -/
def incidence (f : Nat × Nat) (v : Nat) : K :=
  if v = f.2 then 1 else if v = f.1 then -1 else 0

theorem incidence_dst (i j : Nat) : (incidence (i, j) j : K) = 1 := if_pos rfl

theorem incidence_src {i j : Nat} (h : i < j) : (incidence (i, j) i : K) = -1 := by
  unfold incidence
  rw [if_neg h.ne, if_pos rfl]

theorem incidence_of_ne {f : Nat × Nat} {v : Nat} (h₁ : v ≠ f.1) (h₂ : v ≠ f.2) :
    (incidence f v : K) = 0 := by
  unfold incidence
  rw [if_neg h₂, if_neg h₁]

theorem kernelBuildSignedIncidence_apply {edges : List (Nat × Nat)} {e : Nat} {f : Nat × Nat}
    (hf : edges[e]? = some f) (v : Nat) :
    (kernelBuildSignedIncidence edges : Nat → K) (v * edges.length + e) = incidence f v := by
  have hlt : e < edges.length := (List.getElem?_eq_some_iff.mp hf).1
  have haddr : ∀ r, v * edges.length + e = r * edges.length + e ↔ v = r := by
    intro r
    constructor
    · intro h
      exact (Buffer.rowMajor_inj hlt hlt h).1
    · rintro rfl
      rfl
  unfold kernelBuildSignedIncidence
  rw [Buffer.launch_column hlt]
  · simp only [hf, Buffer.storeAll_cons, Buffer.storeAll_nil, Function.update_apply, haddr,
      incidence]
  · intro t ht s hs
    rw [List.getElem?_eq_getElem ht] at hs
    rcases List.mem_pair.mp hs with rfl | rfl
    · exact ⟨_, rfl⟩
    · exact ⟨_, rfl⟩

theorem kernelBuildTriangleIncidence_apply {nEdges : Nat} {triangles : List Triangle}
    {t e : Nat} {tri : Triangle} (ht : triangles[t]? = some tri) (h₀ : tri.e < nEdges)
    (h₁ : tri.eIk < nEdges) (h₂ : tri.eJk < nEdges) :
    (kernelBuildTriangleIncidence nEdges triangles : Nat → K) (e * triangles.length + t) =
      if e = tri.eJk then -1 else if e = tri.eIk then 1 else if e = tri.e then 1 else 0 := by
  have hlt : t < triangles.length := (List.getElem?_eq_some_iff.mp ht).1
  have haddr : ∀ r, e * triangles.length + t = r * triangles.length + t ↔ e = r := by
    intro r
    constructor
    · intro h
      exact (Buffer.rowMajor_inj hlt hlt h).1
    · rintro rfl
      rfl
  unfold kernelBuildTriangleIncidence
  rw [Buffer.launch_column hlt]
  · simp only [ht, h₀, h₁, h₂, if_true, List.cons_append, List.nil_append,
      Buffer.storeAll_cons, Buffer.storeAll_nil, Function.update_apply, haddr]
  · intro u hu s hs
    rw [List.getElem?_eq_getElem hu] at hs
    simp only [List.mem_append] at hs
    rcases hs with (hs | hs) | hs <;> split_ifs at hs
    · exact ⟨_, by rw [List.mem_singleton.mp hs]⟩
    · simp at hs
    · exact ⟨_, by rw [List.mem_singleton.mp hs]⟩
    · simp at hs
    · exact ⟨_, by rw [List.mem_singleton.mp hs]⟩
    · simp at hs

/-- Every column of `B2` has boundary zero: `B1 * B2[., t] = 0`. -/
def HodgeWorkspace.BoundaryOfBoundary (ws : HodgeWorkspace K) : Prop :=
  ∀ t < ws.nTriangles, ∀ v < ws.nNodes,
    ∑ e ∈ Finset.range ws.nEdges, ws.b1 (v * ws.nEdges + e) * ws.b2 (e * ws.nTriangles + t) = 0

/-- The three entries of a column of `B2`, multiplied by `B1`. -/
theorem sum_b1_mul_b2 {edges : List (Nat × Nat)} {triangles : List Triangle} {t : Nat}
    {tri : Triangle} {f p q : Nat × Nat} (ht : triangles[t]? = some tri)
    (hf : edges[tri.e]? = some f) (hp : edges[tri.eIk]? = some p)
    (hq : edges[tri.eJk]? = some q) (h01 : tri.e ≠ tri.eIk) (h02 : tri.e ≠ tri.eJk)
    (h12 : tri.eIk ≠ tri.eJk) (v : Nat) :
    (∑ e ∈ Finset.range edges.length,
        (kernelBuildSignedIncidence edges : Nat → K) (v * edges.length + e) *
          kernelBuildTriangleIncidence edges.length triangles (e * triangles.length + t)) =
      incidence f v + incidence p v - incidence q v := by
  have l₀ := (List.getElem?_eq_some_iff.mp hf).1
  have l₁ := (List.getElem?_eq_some_iff.mp hp).1
  have l₂ := (List.getElem?_eq_some_iff.mp hq).1
  let b1 (e : Nat) : K := kernelBuildSignedIncidence edges (v * edges.length + e)
  have hterm : ∀ e, b1 e *
        kernelBuildTriangleIncidence edges.length triangles (e * triangles.length + t) =
      (if e = tri.e then b1 e else 0) + (if e = tri.eIk then b1 e else 0) -
        (if e = tri.eJk then b1 e else 0) := by
    intro e
    rw [kernelBuildTriangleIncidence_apply ht l₀ l₁ l₂]
    by_cases e₂ : e = tri.eJk
    · have e₁ : e ≠ tri.eIk := fun h => h12 (h.symm.trans e₂)
      have e₀ : e ≠ tri.e := fun h => h02 (h.symm.trans e₂)
      simp [if_pos e₂, if_neg e₁, if_neg e₀]
    · by_cases e₁ : e = tri.eIk
      · have e₀ : e ≠ tri.e := fun h => h01 (h.symm.trans e₁)
        simp [if_neg e₂, if_pos e₁, if_neg e₀]
      · by_cases e₀ : e = tri.e
        · simp [if_neg e₂, if_neg e₁, if_pos e₀]
        · simp [if_neg e₂, if_neg e₁, if_neg e₀]
  have hat : ∀ {x : Nat} {g : Nat × Nat}, edges[x]? = some g →
      ∑ e ∈ Finset.range edges.length, (if e = x then b1 e else 0) = incidence g v := by
    intro x g hg
    have hx := (List.getElem?_eq_some_iff.mp hg).1
    rw [Finset.sum_ite_eq' (Finset.range edges.length) x b1, if_pos (Finset.mem_range.mpr hx)]
    exact kernelBuildSignedIncidence_apply hg v
  calc ∑ e ∈ Finset.range edges.length, b1 e *
        kernelBuildTriangleIncidence edges.length triangles (e * triangles.length + t)
      = ∑ e ∈ Finset.range edges.length, ((if e = tri.e then b1 e else 0) +
          (if e = tri.eIk then b1 e else 0) - (if e = tri.eJk then b1 e else 0)) :=
        Finset.sum_congr rfl fun e _ => hterm e
    _ = incidence f v + incidence p v - incidence q v := by
        rw [Finset.sum_sub_distrib, Finset.sum_add_distrib, hat hf, hat hp, hat hq]

/-! ## Which columns are boundaries -/

/-- With the third node lowest the boundary vanishes.  Otherwise the source of
the discovering edge is left with `-2`. -/
theorem incidence_sum_eq_zero_iff [CharZero K] {n i j k : Nat} {p q : Nat × Nat} (hij : i < j)
    (hjn : j < n) (hp : p.1 < p.2) (hq : q.1 < q.2) (hpj : joins p i k) (hqj : joins q j k)
    (hki : k ≠ i) (hkj : k ≠ j) :
    (∀ v < n, (incidence (i, j) v + incidence p v - incidence q v : K) = 0) ↔ k < i := by
  constructor
  · intro h
    by_contra hle
    have hik : i < k := by omega
    have hpe : p = (i, k) := eq_of_joins_lt hp hpj hik
    have hqi : (incidence q i : K) = 0 := by
      rcases hqj with ⟨h₁, h₂⟩ | ⟨h₁, h₂⟩
      · exact incidence_of_ne (by omega) (by omega)
      · exact incidence_of_ne (by omega) (by omega)
    have hv := h i (by omega)
    rw [hqi, hpe, incidence_src hij, incidence_src hik, sub_zero, ← neg_add, neg_eq_zero,
      one_add_one_eq_two] at hv
    exact absurd hv (OfNat.ofNat_ne_zero 2)
  · intro hk v _
    have hkj' : k < j := by omega
    have hpe : p = (k, i) := eq_of_joins_lt hp (joins_symm hpj) hk
    have hqe : q = (k, j) := eq_of_joins_lt hq (joins_symm hqj) hkj'
    rw [hpe, hqe]
    by_cases hvj : v = j
    · have hzero : (incidence (k, i) v : K) = 0 := incidence_of_ne (by omega) (by omega)
      rw [hzero, hvj, incidence_dst, incidence_dst, add_zero, sub_self]
    · by_cases hvi : v = i
      · have hzero : (incidence (k, j) v : K) = 0 := incidence_of_ne (by omega) (by omega)
        rw [hzero, hvi, incidence_src hij, incidence_dst, sub_zero, neg_add_cancel]
      · have hzero : (incidence (i, j) v : K) = 0 := incidence_of_ne hvi hvj
        by_cases hvk : v = k
        · rw [hzero, hvk, incidence_src hk, incidence_src hkj', zero_add, sub_self]
        · have hzp : (incidence (k, i) v : K) = 0 := incidence_of_ne hvk hvi
          have hzq : (incidence (k, j) v : K) = 0 := incidence_of_ne hvk hvj
          rw [hzero, hzp, hzq, add_zero, sub_zero]

/-- A stored triangle gives a boundary exactly when its third node is below the
discovering edge. -/
theorem boundaryOfBoundary_build_iff [CharZero K] {n : Nat} {edges : List (Nat × Nat)}
    {triangles : List Triangle} (hE : EdgesBelow n edges)
    (hT : ∀ t ∈ triangles, ∃ i j, t.Found edges i j) :
    (HodgeWorkspace.build K n edges triangles).BoundaryOfBoundary ↔
      ∀ t ∈ triangles, ∀ i j, edges[t.e]? = some (i, j) → t.kNode < i := by
  have hcol : ∀ (s : Nat) (t : Triangle) (i j : Nat), triangles[s]? = some t →
      t.Found edges i j →
      ((∀ v < n, ∑ e ∈ Finset.range edges.length,
          (kernelBuildSignedIncidence edges : Nat → K) (v * edges.length + e) *
            kernelBuildTriangleIncidence edges.length triangles (e * triangles.length + s) = 0) ↔
        t.kNode < i) := by
    intro s t i j hs ht
    obtain ⟨p, hp, hpj⟩ := ht.ik
    obtain ⟨q, hq, hqj⟩ := ht.jk
    obtain ⟨hij, hjn⟩ := hE _ (List.mem_of_getElem? ht.edge)
    have hp' := (hE _ (List.mem_of_getElem? hp)).1
    have hq' := (hE _ (List.mem_of_getElem? hq)).1
    have hi := ht.ne_i
    have hj := ht.ne_j
    -- the three edges have different node pairs, so they are three edges
    have hne : ∀ {x y : Nat} {f g : Nat × Nat}, edges[x]? = some f → edges[y]? = some g →
        f ≠ g → x ≠ y := by
      rintro x y f g hf hg hfg rfl
      exact hfg (Option.some.inj (hf.symm.trans hg))
    have h01 : t.e ≠ t.eIk := by
      refine hne ht.edge hp ?_
      rintro rfl
      rcases hpj with ⟨h₁, h₂⟩ | ⟨h₁, h₂⟩ <;> simp_all
    have h02 : t.e ≠ t.eJk := by
      refine hne ht.edge hq ?_
      rintro rfl
      rcases hqj with ⟨h₁, h₂⟩ | ⟨h₁, h₂⟩ <;> simp_all
    have h12 : t.eIk ≠ t.eJk := by
      refine hne hp hq ?_
      rintro rfl
      rcases hpj with ⟨h₁, h₂⟩ | ⟨h₁, h₂⟩ <;> rcases hqj with ⟨h₃, h₄⟩ | ⟨h₃, h₄⟩ <;>
        simp only at hij <;> omega
    rw [← incidence_sum_eq_zero_iff (K := K) hij hjn hp' hq' hpj hqj hi hj]
    refine forall_congr' fun v => forall_congr' fun _ => ?_
    rw [sum_b1_mul_b2 hs ht.edge hp hq h01 h02 h12]
  constructor
  · intro h t ht i j he
    obtain ⟨s, hs, hst⟩ := List.getElem_of_mem ht
    have hs' : triangles[s]? = some t := List.getElem?_eq_some_iff.mpr ⟨hs, hst⟩
    obtain ⟨i', j', hf⟩ := hT t ht
    obtain ⟨rfl, rfl⟩ := Prod.mk.inj (Option.some.inj (he.symm.trans hf.edge))
    exact (hcol s t i j hs' hf).mp (h s hs)
  · intro h s hs
    have hs' := List.getElem?_eq_getElem hs
    have hmem := List.mem_of_getElem? hs'
    obtain ⟨i, j, hf⟩ := hT _ hmem
    exact (hcol s _ i j hs' hf).mpr (h _ hmem i j hf.edge)

end

/-! ## Over a whole graph -/

/-- No three nodes are pairwise joined by edges of the list. -/
def TriangleFree (edges : List (Nat × Nat)) : Prop :=
  ∀ a b c, (a, b) ∈ edges → (b, c) ∈ edges → (a, c) ∉ edges

/-- For one order of the slots, `B1 * B2` vanishes exactly when every stored
triangle was discovered from the edge opposite to its lowest node.  It vanishes
for every order of the slots exactly when the stored edges hold no triangle. -/
theorem boundaryOfBoundary_iff {K : Type*} [Ring K] [CharZero K] {laplacian : SparseLaplacian}
    (hL : laplacian.CsrForm) {edgeSlots : List (Nat × Nat)}
    (hes : EdgeSlots laplacian edgeSlots) :
    (∀ slots, TriangleSlots laplacian (edgeSlots.take kMaxEdges) slots →
      ((buildIncidenceMatrices K laplacian edgeSlots slots).BoundaryOfBoundary ↔
        ∀ t ∈ slots.take kMaxTriangles, ∀ i j,
          (edgeSlots.take kMaxEdges)[t.e]? = some (i, j) → t.kNode < i)) ∧
    ((∀ slots, TriangleSlots laplacian (edgeSlots.take kMaxEdges) slots →
        (buildIncidenceMatrices K laplacian edgeSlots slots).BoundaryOfBoundary) ↔
      TriangleFree (edgeSlots.take kMaxEdges)) := by
  have hE := hL.graph.edgesBelow hes kMaxEdges
  have hfound : ∀ slots, TriangleSlots laplacian (edgeSlots.take kMaxEdges) slots →
      ∀ t ∈ slots.take kMaxTriangles, ∃ i j, t.Found (edgeSlots.take kMaxEdges) i j :=
    fun slots h t ht =>
      (mem_kernelFindTriangles ((SlotOrder.mem_iff h t).mp (List.mem_of_mem_take ht))).2
  have hone : ∀ slots, TriangleSlots laplacian (edgeSlots.take kMaxEdges) slots →
      ((buildIncidenceMatrices K laplacian edgeSlots slots).BoundaryOfBoundary ↔
        ∀ t ∈ slots.take kMaxTriangles, ∀ i j,
          (edgeSlots.take kMaxEdges)[t.e]? = some (i, j) → t.kNode < i) :=
    fun slots h => boundaryOfBoundary_build_iff hE (hfound slots h)
  refine ⟨hone, ?_⟩
  constructor
  · intro h a b c hab hbc hac
    have hlen : (edgeSlots.take kMaxEdges).length ≤ kMaxEdges := List.length_take_le _ _
    obtain ⟨ha, hltab, hrab⟩ := hes.mem (List.mem_of_mem_take hab)
    obtain ⟨hb, hltbc, hrbc⟩ := hes.mem (List.mem_of_mem_take hbc)
    obtain ⟨-, hltac, hrac⟩ := hes.mem (List.mem_of_mem_take hac)
    obtain ⟨e, he⟩ := List.getElem?_of_mem hab
    obtain ⟨t, ht, hte, hk⟩ := hL.graph.exists_triangle_of_common hE he hrac hrbc hltac.ne'
      hltbc.ne' hac (Or.inl ⟨rfl, rfl⟩) hbc (Or.inl ⟨rfl, rfl⟩)
    obtain ⟨slots, hslots, hstored⟩ := hL.graph.exists_slots hE hlen ht
    have hlow := (hone slots hslots).mp (h slots hslots) t hstored a b (hte ▸ he)
    simp only at hltac
    omega
  · intro hfree slots hslots
    refine (hone slots hslots).mpr fun t ht i j he => ?_
    obtain ⟨i', j', hf⟩ := hfound slots hslots t ht
    obtain ⟨rfl, rfl⟩ := Prod.mk.inj (Option.some.inj (he.symm.trans hf.edge))
    obtain ⟨p, hp, hpj⟩ := hf.ik
    obtain ⟨q, hq, hqj⟩ := hf.jk
    have hij := (hE _ (List.mem_of_getElem? hf.edge)).1
    have hp' := List.mem_of_getElem? hp
    have hq' := List.mem_of_getElem? hq
    have hne_i := hf.ne_i
    have hne_j := hf.ne_j
    by_contra hle
    have hik : i < t.kNode := by omega
    rw [eq_of_joins_lt (hE _ hp').1 hpj hik] at hp'
    rcases Nat.lt_or_gt_of_ne hne_j with hkj | hjk
    · rw [eq_of_joins_lt (hE _ hq').1 (joins_symm hqj) hkj] at hq'
      exact hfree i t.kNode j hp' hq' (List.mem_of_getElem? hf.edge)
    · rw [eq_of_joins_lt (hE _ hq').1 hqj hjk] at hq'
      exact hfree i j t.kNode (List.mem_of_getElem? hf.edge) hq' hp'

/-- On the path 0 - 1 - 2 every slot order gives a boundary operator. -/
theorem boundaryOfBoundary_path :
    let laplacian : SparseLaplacian := ⟨3, [0, 2, 5, 7], [1, 0, 0, 2, 1, 1, 2]⟩
    ∀ slots, TriangleSlots laplacian [(0, 1), (1, 2)] slots →
      (buildIncidenceMatrices Int laplacian [(0, 1), (1, 2)] slots).BoundaryOfBoundary := by
  intro laplacian
  have hL : laplacian.CsrForm := by
    refine ⟨fun v hv => ?_, by decide⟩
    have hv3 : v < 3 := hv
    interval_cases v
    · exact ⟨[1], by decide, by decide, by decide⟩
    · exact ⟨[0, 2], by decide, by decide, by decide⟩
    · exact ⟨[1], by decide, by decide, by decide⟩
  have hes : EdgeSlots laplacian [(0, 1), (1, 2)] := edgeSlots_flatMap laplacian
  refine (boundaryOfBoundary_iff (K := Int) hL hes).2.mpr ?_
  intro a b c hab hbc hac
  have hab' : (a, b) ∈ [(0, 1), (1, 2)] := hab
  have hbc' : (b, c) ∈ [(0, 1), (1, 2)] := hbc
  have hac' : (a, c) ∈ [(0, 1), (1, 2)] := hac
  simp at hab' hbc' hac'
  omega

/-- On the complete graph of three nodes the first column of `B2` is no
boundary: node 0 is left with `-2`. -/
theorem boundaryOfBoundary_complete_three :
    let laplacian : SparseLaplacian := ⟨3, [0, 3, 6, 9], [1, 2, 0, 0, 2, 1, 0, 1, 2]⟩
    let edgeSlots := [(0, 1), (0, 2), (1, 2)]
    ∃ slots, laplacian.CsrForm ∧ EdgeSlots laplacian edgeSlots ∧
      TriangleSlots laplacian (edgeSlots.take kMaxEdges) slots ∧
      ¬ (buildIncidenceMatrices Int laplacian edgeSlots slots).BoundaryOfBoundary := by
  intro laplacian edgeSlots
  refine ⟨[⟨0, 1, 2, 2⟩, ⟨1, 0, 2, 1⟩, ⟨2, 0, 1, 0⟩], ⟨fun v hv => ?_, by decide⟩, ?_, ?_, ?_⟩
  · have hv3 : v < 3 := hv
    interval_cases v
    · exact ⟨[1, 2], by decide, by decide, by decide⟩
    · exact ⟨[0, 2], by decide, by decide, by decide⟩
    · exact ⟨[0, 1], by decide, by decide, by decide⟩
  · exact edgeSlots_flatMap laplacian
  · exact triangleSlots_flatMap laplacian edgeSlots
  · intro h
    exact absurd (h 0 (by decide) 0 (by decide)) (by decide)

end HoloMarket
