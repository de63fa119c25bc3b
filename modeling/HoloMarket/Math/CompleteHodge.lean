import Mathlib.Algebra.Order.Field.Basic
import HoloMarket.Lib.CompleteComplex
import HoloMarket.Math.CliqueColumns
import HoloMarket.Math.HarmonicProjection
import HoloMarket.Math.NeighbourMerge

/-!
# The Hodge decomposition of the complete graph

On the complete graph the columns of `B2` hold the boundary of every triple of
nodes, in any order of the threads, so no flow is harmonic: every eigenvalue of
`L1` is at least the number of nodes and `d_gamma` is zero.
-/

namespace HoloMarket

open CompleteComplex

/-! ## Edges as pairs -/

/-- The edges are the pairs below `n`, each once. -/
structure ListsAllPairs (n : Nat) (edges : List (Nat × Nat)) : Prop where
  below : EdgesBelow n edges
  all : AllPairs n edges
  nodup : edges.Nodup

/-- The value that a flow has on a pair. -/
def onPair {K : Type*} (edges : List (Nat × Nat)) (x : Nat → K) (a b : Nat) : K :=
  x (edges.idxOf (a, b))

section
variable {K : Type*} {n : Nat} {edges : List (Nat × Nat)}

theorem AllPairs.getElem?_idxOf (h : AllPairs n edges) {a b : Nat} (hab : a < b) (hb : b < n) :
    edges[edges.idxOf (a, b)]? = some (a, b) :=
  List.getElem?_eq_some_iff.mpr
    ⟨List.idxOf_lt_length_iff.mpr (h a b hab hb), List.getElem_idxOf _⟩

theorem ListsAllPairs.idxOf_eq (h : ListsAllPairs n edges) {e a b : Nat}
    (he : edges[e]? = some (a, b)) : edges.idxOf (a, b) = e := by
  obtain ⟨hlt, hval⟩ := List.getElem?_eq_some_iff.mp he
  rw [← hval]
  exact h.nodup.idxOf_getElem e hlt

/-- The edge between two nodes, in either orientation, is the one of their pair. -/
theorem ListsAllPairs.idxOf_joins (h : ListsAllPairs n edges) {e a b : Nat} {p : Nat × Nat}
    (he : edges[e]? = some p) (hj : joins p a b) (hab : a < b) : e = edges.idxOf (a, b) := by
  have hlt := (h.below p (List.mem_of_getElem? he)).1
  rw [eq_of_joins_lt hlt hj hab] at he
  exact (h.idxOf_eq he).symm

theorem ListsAllPairs.sum_edges [AddCommMonoid K] (h : ListsAllPairs n edges) (g : Nat → K) :
    ∑ e ∈ Finset.range edges.length, g e = pairSum n fun a b => g (edges.idxOf (a, b)) := by
  unfold pairSum
  rw [Finset.sum_sigma']
  symm
  refine Finset.sum_bij (fun p _ => edges.idxOf (p.2, p.1)) ?_ ?_ ?_ fun p _ => rfl
  · rintro ⟨b, a⟩ hp
    obtain ⟨hb, ha⟩ := Finset.mem_sigma.mp hp
    exact Finset.mem_range.mpr (List.idxOf_lt_length_iff.mpr
      (h.all a b (Finset.mem_range.mp ha) (Finset.mem_range.mp hb)))
  · rintro ⟨b, a⟩ hp ⟨b', a'⟩ hp' heq
    obtain ⟨hb, ha⟩ := Finset.mem_sigma.mp hp
    obtain ⟨hb', ha'⟩ := Finset.mem_sigma.mp hp'
    have he := h.all.getElem?_idxOf (Finset.mem_range.mp ha) (Finset.mem_range.mp hb)
    have he' := h.all.getElem?_idxOf (Finset.mem_range.mp ha') (Finset.mem_range.mp hb')
    dsimp only at heq he he'
    rw [heq, he'] at he
    cases he
    rfl
  · intro e he
    have hlt := Finset.mem_range.mp he
    obtain ⟨hab, hb⟩ := h.below _ (List.getElem_mem hlt)
    refine ⟨⟨(edges[e]).2, (edges[e]).1⟩, ?_, h.nodup.idxOf_getElem e hlt⟩
    exact Finset.mem_sigma.mpr ⟨Finset.mem_range.mpr hb, Finset.mem_range.mpr hab⟩

theorem ListsAllPairs.divergence_eq [CommRing K] (h : ListsAllPairs n edges) (x : Nat → K)
    (v : Nat) : divergence edges x v = inflow n (onPair edges x) v := by
  unfold divergence inflow
  rw [h.sum_edges]
  refine pairSum_congr fun a b hab hb => ?_
  rw [h.all.getElem?_idxOf hab hb]
  rfl

/-! ## Columns as triples -/

variable {triangles : List Triangle}

theorem Triangle.Found.ne (hE : EdgesBelow n edges) {t : Triangle} {i j : Nat}
    (h : t.Found edges i j) : t.e ≠ t.eIk ∧ t.e ≠ t.eJk ∧ t.eIk ≠ t.eJk := by
  obtain ⟨p, hp, hpj⟩ := h.ik
  obtain ⟨q, hq, hqj⟩ := h.jk
  have hi := h.ne_i
  have hj := h.ne_j
  have hij := (hE _ (List.mem_of_getElem? h.edge)).1
  have hne : ∀ {x y : Nat} {f g : Nat × Nat}, edges[x]? = some f → edges[y]? = some g →
      f ≠ g → x ≠ y := by
    rintro x y f g hf hg hfg rfl
    exact hfg (Option.some.inj (hf.symm.trans hg))
  refine ⟨hne h.edge hp ?_, hne h.edge hq ?_, hne hp hq ?_⟩
  · rintro rfl
    rcases hpj with ⟨h₁, h₂⟩ | ⟨h₁, h₂⟩ <;> simp only at h₁ h₂ <;> omega
  · rintro rfl
    rcases hqj with ⟨h₁, h₂⟩ | ⟨h₁, h₂⟩ <;> simp only at h₁ h₂ <;> omega
  · rintro rfl
    rcases hpj with ⟨h₁, h₂⟩ | ⟨h₁, h₂⟩ <;> rcases hqj with ⟨h₃, h₄⟩ | ⟨h₃, h₄⟩ <;>
      simp only at hij <;> omega

/-- The flow against one column of `B2`. -/
theorem curl_b2 [CommRing K] (hE : EdgesBelow n edges) {s : Nat} {t : Triangle} {i j : Nat}
    (hs : triangles[s]? = some t) (h : t.Found edges i j) (x : Nat → K) :
    EdgeFlow.curl (Finset.range edges.length) (b2Entry edges.length triangles) x s =
      x t.e + x t.eIk - x t.eJk := by
  obtain ⟨h01, h02, h12⟩ := h.ne hE
  obtain ⟨p, hp, -⟩ := h.ik
  obtain ⟨q, hq, -⟩ := h.jk
  have l₀ := (List.getElem?_eq_some_iff.mp h.edge).1
  have l₁ := (List.getElem?_eq_some_iff.mp hp).1
  have l₂ := (List.getElem?_eq_some_iff.mp hq).1
  have hterm : ∀ e, b2Entry edges.length triangles e s * x e =
      (if e = t.e then x e else 0) + (if e = t.eIk then x e else 0) -
        (if e = t.eJk then x e else 0) := by
    intro e
    unfold b2Entry
    rw [kernelBuildTriangleIncidence_apply hs l₀ l₁ l₂]
    by_cases e₂ : e = t.eJk
    · rw [if_pos e₂, if_neg (by omega), if_neg (by omega), if_pos e₂]
      ring
    · by_cases e₁ : e = t.eIk
      · rw [if_neg e₂, if_pos e₁, if_neg (by omega), if_pos e₁, if_neg e₂]
        ring
      · rw [if_neg e₂, if_neg e₁, if_neg e₁, if_neg e₂]
        split_ifs <;> ring
  unfold EdgeFlow.curl
  simp only [hterm, Finset.sum_sub_distrib, Finset.sum_add_distrib]
  rw [Finset.sum_ite_eq', Finset.sum_ite_eq', Finset.sum_ite_eq',
    if_pos (Finset.mem_range.mpr l₀), if_pos (Finset.mem_range.mpr l₁),
    if_pos (Finset.mem_range.mpr l₂)]

/-- Every triple has a column with the edge of its two highest nodes in front. -/
def HasTriples (n : Nat) (edges : List (Nat × Nat)) (triangles : List Triangle) : Prop :=
  ∀ a b c, a < b → b < c → c < n →
    ∃ (s : Nat) (t : Triangle), triangles[s]? = some t ∧
      t.Records edges (edges.idxOf (b, c)) b c a

/-- Such a column reads the curl of the triple. -/
theorem ListsAllPairs.curl_records [CommRing K] (h : ListsAllPairs n edges)
    (hT : ∀ t ∈ triangles, ∃ i j, t.Found edges i j) {s : Nat} {t : Triangle}
    (hs : triangles[s]? = some t) {a b c : Nat} (hab : a < b) (hbc : b < c)
    (hr : t.Records edges (edges.idxOf (b, c)) b c a) (x : Nat → K) :
    EdgeFlow.curl (Finset.range edges.length) (b2Entry edges.length triangles) x s =
      CompleteComplex.curl (onPair edges x) a b c := by
  obtain ⟨i, j, hf⟩ := hT t (List.mem_of_getElem? hs)
  obtain ⟨he, -, ⟨p, hp, hpj⟩, q, hq, hqj⟩ := hr
  rw [curl_b2 h.below hs hf, he, h.idxOf_joins hp (joins_symm hpj) hab,
    h.idxOf_joins hq (joins_symm hqj) (hab.trans hbc)]
  show onPair edges x b c + onPair edges x a b - onPair edges x a c = _
  unfold CompleteComplex.curl
  ring

/-- Every triple has a column of its own. -/
theorem tripleSum_curl_le [CommRing K] [LinearOrder K] [IsStrictOrderedRing K]
    (h : ListsAllPairs n edges) (hT : ∀ t ∈ triangles, ∃ i j, t.Found edges i j)
    (htri : HasTriples n edges triangles) (x : Nat → K) :
    tripleSum n (fun a b c => CompleteComplex.curl (onPair edges x) a b c ^ 2) ≤
      ∑ s ∈ Finset.range triangles.length,
        EdgeFlow.curl (Finset.range edges.length) (b2Entry edges.length triangles) x s ^ 2 := by
  have hcolumn : ∀ a b c, ∃ s : Nat, a < b → b < c → c < n →
      ∃ t : Triangle, triangles[s]? = some t ∧
        t.Records edges (edges.idxOf (b, c)) b c a := by
    intro a b c
    by_cases hlt : a < b ∧ b < c ∧ c < n
    · obtain ⟨s, hs⟩ := htri a b c hlt.1 hlt.2.1 hlt.2.2
      exact ⟨s, fun _ _ _ => hs⟩
    · exact ⟨0, fun hab hbc hc => absurd ⟨hab, hbc, hc⟩ hlt⟩
  choose column hcol using hcolumn
  let triples : Finset (Σ _ : Nat, Σ _ : Nat, Nat) :=
    (Finset.range n).sigma fun c => (Finset.range c).sigma fun b => Finset.range b
  have hmem : ∀ p ∈ triples, p.2.2 < p.2.1 ∧ p.2.1 < p.1 ∧ p.1 < n := by
    intro p hp
    obtain ⟨hc, hp⟩ := Finset.mem_sigma.mp hp
    obtain ⟨hb, ha⟩ := Finset.mem_sigma.mp hp
    exact ⟨Finset.mem_range.mp ha, Finset.mem_range.mp hb, Finset.mem_range.mp hc⟩
  have hinj : Set.InjOn (fun p : Σ _ : Nat, Σ _ : Nat, Nat => column p.2.2 p.2.1 p.1)
      (triples : Set _) := by
    rintro ⟨c, b, a⟩ hp ⟨c', b', a'⟩ hp' heq
    obtain ⟨hab, hbc, hc⟩ := hmem _ hp
    obtain ⟨hab', hbc', hc'⟩ := hmem _ hp'
    obtain ⟨t, hs, hr⟩ := hcol a b c hab hbc hc
    obtain ⟨t', hs', hr'⟩ := hcol a' b' c' hab' hbc' hc'
    dsimp only at heq
    rw [heq, hs'] at hs
    cases hs
    obtain ⟨i, j, hf⟩ := hT t (List.mem_of_getElem? hs')
    have he : edges.idxOf (b, c) = edges.idxOf (b', c') := hr.1.symm.trans hr'.1
    obtain ⟨rfl, rfl, rfl⟩ := hf.eq_kNode hr
    obtain ⟨rfl, rfl, rfl⟩ := hf.eq_kNode hr'
    rfl
  unfold tripleSum pairSum
  simp only [Finset.sum_sigma']
  calc ∑ p ∈ triples, CompleteComplex.curl (onPair edges x) p.2.2 p.2.1 p.1 ^ 2
      = ∑ p ∈ triples, EdgeFlow.curl (Finset.range edges.length)
          (b2Entry edges.length triangles) x (column p.2.2 p.2.1 p.1) ^ 2 := by
        refine Finset.sum_congr rfl fun p hp => ?_
        obtain ⟨hab, hbc, hc⟩ := hmem p hp
        obtain ⟨t, hs, hr⟩ := hcol _ _ _ hab hbc hc
        rw [h.curl_records hT hs hab hbc hr]
    _ = ∑ s ∈ triples.image fun p => column p.2.2 p.2.1 p.1,
          EdgeFlow.curl (Finset.range edges.length) (b2Entry edges.length triangles) x s ^ 2 :=
        (Finset.sum_image (f := fun s => EdgeFlow.curl (Finset.range edges.length)
          (b2Entry edges.length triangles) x s ^ 2) hinj).symm
    _ ≤ _ := by
        refine Finset.sum_le_sum_of_subset_of_nonneg ?_ fun s _ _ => sq_nonneg _
        intro s hs
        obtain ⟨p, hp, rfl⟩ := Finset.mem_image.mp hs
        obtain ⟨hab, hbc, hc⟩ := hmem p hp
        obtain ⟨t, hs, -⟩ := hcol _ _ _ hab hbc hc
        exact Finset.mem_range.mpr (List.getElem?_eq_some_iff.mp hs).1

/-! ## The eigenvalues -/

variable [Field K] [LinearOrder K] [IsStrictOrderedRing K]

/-- The quadratic form of `L1` is at least `n` times the square of the length. -/
theorem mul_sum_sq_le_laplacian (h : ListsAllPairs n edges)
    (hT : ∀ t ∈ triangles, ∃ i j, t.Found edges i j) (htri : HasTriples n edges triangles)
    (x : Nat → K) :
    n * ∑ e ∈ Finset.range edges.length, x e ^ 2 ≤
      ∑ e ∈ Finset.range edges.length, x e * ∑ f ∈ Finset.range edges.length,
        (HodgeWorkspace.build K n edges triangles).l1 e f * x f := by
  have hform : (∑ e ∈ Finset.range edges.length, x e * ∑ f ∈ Finset.range edges.length,
      (HodgeWorkspace.build K n edges triangles).l1 e f * x f) =
        (∑ v ∈ Finset.range n, inflow n (onPair edges x) v ^ 2) +
          ∑ s ∈ Finset.range triangles.length,
            EdgeFlow.curl (Finset.range edges.length) (b2Entry edges.length triangles) x s ^ 2 := by
    refine (EdgeFlow.sum_mul_laplacian (A := b1Entry edges)
      (B := b2Entry edges.length triangles) x).trans ?_
    congr 1
    refine Finset.sum_congr rfl fun v _ => ?_
    rw [div_b1, h.divergence_eq]
  have hcomplete := sum_inflow_sq_add_curl_sq n (onPair edges x)
  have hsq : ∑ e ∈ Finset.range edges.length, x e ^ 2 =
      pairSum n fun a b => onPair edges x a b ^ 2 := h.sum_edges fun e => x e ^ 2
  have hle := tripleSum_curl_le h hT htri x
  rw [hform, hsq, ← hcomplete]
  linarith

/-- An eigenvector of `L1`, of any length but zero. -/
structure HodgeWorkspace.IsMode (ws : HodgeWorkspace K) (lam : K) (x : Nat → K) : Prop where
  eigen : ∀ e < ws.nEdges, ∑ f ∈ Finset.range ws.nEdges, ws.l1 e f * x f = lam * x e
  ne_zero : ∃ e < ws.nEdges, x e ≠ 0

theorem le_eigenvalue (h : ListsAllPairs n edges)
    (hT : ∀ t ∈ triangles, ∃ i j, t.Found edges i j) (htri : HasTriples n edges triangles)
    {x : Nat → K} {lam : K} (hx : (HodgeWorkspace.build K n edges triangles).IsMode lam x) :
    n ≤ lam := by
  have hle := mul_sum_sq_le_laplacian h hT htri x
  have hform : (∑ e ∈ Finset.range edges.length, x e * ∑ f ∈ Finset.range edges.length,
      (HodgeWorkspace.build K n edges triangles).l1 e f * x f) =
        lam * ∑ e ∈ Finset.range edges.length, x e ^ 2 := by
    rw [Finset.mul_sum]
    refine Finset.sum_congr rfl fun e he => ?_
    have heq : ∑ f ∈ Finset.range edges.length,
        (HodgeWorkspace.build K n edges triangles).l1 e f * x f = lam * x e :=
      hx.eigen e (Finset.mem_range.mp he)
    rw [heq]
    ring
  obtain ⟨e, he, hne⟩ := hx.ne_zero
  have hpos : 0 < ∑ e ∈ Finset.range edges.length, x e ^ 2 :=
    Finset.sum_pos' (fun e _ => sq_nonneg _) ⟨e, Finset.mem_range.mpr he, sq_pos_of_ne_zero hne⟩
  rw [hform] at hle
  exact le_of_mul_le_mul_right hle hpos

end

/-! ## The pipeline's graph -/

section
variable {n : Nat} {threads : List Nat} {rowPtr colIdx : Nat → Nat}

theorem listsAllPairs_edgeSlots (hperm : threads.Perm (List.range n))
    {edgeSlots : List (Nat × Nat)}
    (hes : EdgeSlots (completePattern n threads rowPtr colIdx) edgeSlots) :
    ListsAllPairs n edgeSlots := by
  have hL : (completePattern n threads rowPtr colIdx).GraphCsr :=
    (csrForm_completePattern hperm).graph
  refine ⟨?_, fun a b hab hb => ?_, hL.nodup_edgeSlots hes⟩
  · rw [← List.take_length (l := edgeSlots)]
    exact hL.edgesBelow hes _
  · refine List.count_pos_iff.mp ?_
    rw [count_edgeSlots hperm hes hab hb]
    exact Nat.one_pos

/-- The bound on the triangles is one on the edges as well. -/
theorem pairs_le_kMaxEdges (hmax : n * (n - 1) / 2 * (n - 2) ≤ kMaxTriangles) :
    n * (n - 1) / 2 ≤ kMaxEdges := by
  unfold kMaxTriangles at hmax
  unfold kMaxEdges
  by_cases hn : n < 4
  · interval_cases n <;> omega
  · have hle : n * (n - 1) / 2 * 2 ≤ n * (n - 1) / 2 * (n - 2) :=
      Nat.mul_le_mul_left _ (by omega)
    omega

end

/-- The three launches over the pattern of the complete graph: the threads of each ran in
some order, and no array overflows. -/
structure CompleteLaunch (n : Nat) (laplacian : SparseLaplacian) (edgeSlots : List (Nat × Nat))
    (slots : List Triangle) : Prop where
  pattern : ∃ threads rowPtr colIdx, threads.Perm (List.range n) ∧
    laplacian = completePattern n threads rowPtr colIdx
  fits : n * (n - 1) / 2 * (n - 2) ≤ kMaxTriangles
  edges : EdgeSlots laplacian edgeSlots
  triangles : TriangleSlots laplacian (edgeSlots.take kMaxEdges) slots

namespace CompleteLaunch

variable {n : Nat} {laplacian : SparseLaplacian} {edgeSlots : List (Nat × Nat)}
variable {slots : List Triangle} (h : CompleteLaunch n laplacian edgeSlots slots)
include h

theorem listsAllPairs : ListsAllPairs n edgeSlots := by
  obtain ⟨threads, rowPtr, colIdx, hperm, rfl⟩ := h.pattern
  exact listsAllPairs_edgeSlots hperm h.edges

theorem take_edgeSlots : edgeSlots.take kMaxEdges = edgeSlots := by
  obtain ⟨threads, rowPtr, colIdx, hperm, rfl⟩ := h.pattern
  refine List.take_of_length_le ?_
  rw [length_edgeSlots hperm h.edges]
  exact pairs_le_kMaxEdges h.fits

theorem found : ∀ t ∈ slots, ∃ i j, t.Found edgeSlots i j := by
  intro t ht
  have htri := h.triangles
  rw [h.take_edgeSlots] at htri
  exact found_of_mem_slots htri ht

theorem hasTriples : HasTriples n edgeSlots slots := by
  have hpairs := h.listsAllPairs
  have htri := h.triangles
  rw [h.take_edgeSlots] at htri
  obtain ⟨threads, rowPtr, colIdx, hperm, rfl⟩ := h.pattern
  intro a b c hab hbc hc
  obtain ⟨t, ht, hr⟩ := exists_records hperm hpairs.all hpairs.below htri
    (hpairs.all.getElem?_idxOf hbc hc) (hab.trans (hbc.trans hc)) hab.ne (hab.trans hbc).ne
  obtain ⟨s, hs⟩ := List.getElem?_of_mem ht
  exact ⟨s, t, hs, hr⟩

theorem buildIncidenceMatrices_eq (K : Type*) [Ring K] :
    buildIncidenceMatrices K laplacian edgeSlots slots = .build K n edgeSlots slots := by
  have hpairs := h.listsAllPairs
  have htri := h.triangles
  have htake := h.take_edgeSlots
  rw [htake] at htri
  obtain ⟨threads, rowPtr, colIdx, hperm, rfl⟩ := h.pattern
  have htakeT : slots.take kMaxTriangles = slots := by
    refine List.take_of_length_le ?_
    rw [length_triangleSlots hperm hpairs.all hpairs.below htri, length_edgeSlots hperm h.edges]
    exact h.fits
  unfold buildIncidenceMatrices
  rw [htake, htakeT]
  rfl

end CompleteLaunch

section
variable {K : Type*} [Field K] [LinearOrder K] [IsStrictOrderedRing K]

omit [IsStrictOrderedRing K] in
theorem HodgeWorkspace.gamma_eq_zero (ws : HodgeWorkspace K) (vectors : Nat → K)
    {values : Nat → K} (h : ∀ k < ws.nEdges, kHarmonicThreshold K ≤ values k) (omega : Nat → K)
    (e : Nat) : ws.gamma vectors values omega e = 0 := by
  unfold HodgeWorkspace.gamma kernelHarmonicProjection
  refine Finset.sum_eq_zero fun k hk => ?_
  have hle := (h k (Finset.mem_range.mp hk)).trans (le_abs_self _)
  exact if_neg hle.not_gt

theorem kHarmonicThreshold_le_one : kHarmonicThreshold K ≤ 1 := by
  unfold kHarmonicThreshold
  rw [div_le_one (Nat.cast_pos.mpr (by decide))]
  exact Nat.one_le_cast.mpr (by decide)

theorem CompleteLaunch.le_values {n : Nat} {laplacian : SparseLaplacian}
    {edgeSlots : List (Nat × Nat)} {slots : List Triangle}
    (h : CompleteLaunch n laplacian edgeSlots slots) {vectors values : Nat → K}
    (hmodes : ∀ k < edgeSlots.length, (HodgeWorkspace.build K n edgeSlots slots).IsMode (values k)
      fun e => vectors (k * edgeSlots.length + e)) :
    ∀ k < edgeSlots.length, n ≤ values k ∧ kHarmonicThreshold K ≤ values k := by
  intro k hk
  have hlarge := le_eigenvalue h.listsAllPairs h.found h.hasTriples (hmodes k hk)
  have hlt := h.listsAllPairs.below _ (List.getElem_mem hk)
  have hn : 1 ≤ n := by omega
  exact ⟨hlarge, kHarmonicThreshold_le_one.trans ((Nat.one_le_cast.mpr hn).trans hlarge)⟩

/-- On the complete graph, in any order of the threads of any of the kernels, every
eigenvalue of `L1` is at least the number of nodes.  So no dimension is counted as
harmonic, and the projection leaves zero in `d_gamma` for every flow. -/
theorem completeHodge_noHarmonic {n : Nat} {laplacian : SparseLaplacian}
    {edgeSlots : List (Nat × Nat)} {slots : List Triangle}
    (h : CompleteLaunch n laplacian edgeSlots slots) {ws : HodgeWorkspace K}
    (hws : ws = buildIncidenceMatrices K laplacian edgeSlots slots) {vectors values : Nat → K}
    (hmodes : ∀ k < ws.nEdges, ws.IsMode (values k) fun e => vectors (k * ws.nEdges + e)) :
    (∀ k < ws.nEdges, n ≤ values k) ∧ countHarmonicDims values ws.nEdges = 0 ∧
      ∀ omega e, ws.gamma vectors values omega e = 0 := by
  rw [h.buildIncidenceMatrices_eq] at hws
  subst hws
  have hlarge := h.le_values hmodes
  refine ⟨fun k hk => (hlarge k hk).1, ?_,
    HodgeWorkspace.gamma_eq_zero _ _ fun k hk => (hlarge k hk).2⟩
  rw [countHarmonicDims_eq, Fintype.card_eq_zero_iff]
  refine ⟨fun k => ?_⟩
  exact absurd k.property ((hlarge k.val k.val.isLt).2.trans (le_abs_self _)).not_gt

end

/-! ## Three nodes -/

section Three

/-- The pattern that the threads of the rows 2, 0 and 1 write in this order. -/
def three : SparseLaplacian := completePattern 3 [2, 0, 1] (fun _ => 0) fun _ => 0

def threeEdges : List (Nat × Nat) := [(0, 1), (0, 2), (1, 2)]

def threeTriangles : List Triangle := [⟨0, 1, 2, 2⟩, ⟨1, 0, 2, 1⟩, ⟨2, 0, 1, 0⟩]

theorem three_eq : three = ⟨3, [0, 3, 6, 9], [1, 2, 0, 0, 2, 1, 0, 1, 2]⟩ := by decide

theorem completeLaunch_three : CompleteLaunch 3 three threeEdges threeTriangles where
  pattern := ⟨[2, 0, 1], fun _ => 0, fun _ => 0, by decide, rfl⟩
  fits := by decide
  edges := by
    rw [three_eq]
    exact edgeSlots_flatMap _
  triangles := by
    rw [three_eq]
    exact triangleSlots_flatMap _ _

def threeWorkspace : HodgeWorkspace ℚ := buildIncidenceMatrices ℚ three threeEdges threeTriangles

def threeVectors (a : Nat) : ℚ := [1, 1, -1, 1, -1, 0, 1, 0, 1].getD a 0

def threeValues (k : Nat) : ℚ := [9, 3, 3].getD k 0

theorem isMode_three : ∀ k < threeWorkspace.nEdges, threeWorkspace.IsMode (threeValues k)
    fun e => threeVectors (k * threeWorkspace.nEdges + e) := by
  have hmodes : ∀ k < 3, (∀ e < 3, ∑ f ∈ Finset.range 3,
      threeWorkspace.l1 e f * threeVectors (k * 3 + f) =
        threeValues k * threeVectors (k * 3 + e)) ∧
      ∃ e < 3, threeVectors (k * 3 + e) ≠ 0 := by decide +kernel
  exact fun k hk => ⟨(hmodes k hk).1, (hmodes k hk).2⟩

theorem completeHodge_noHarmonic_three :
    countHarmonicDims threeValues threeWorkspace.nEdges = 0 ∧
      threeWorkspace.gamma threeVectors threeValues (fun _ => 1) 0 = 0 :=
  have h := completeHodge_noHarmonic completeLaunch_three rfl isMode_three
  ⟨h.2.1, h.2.2 _ _⟩

end Three
end HoloMarket
