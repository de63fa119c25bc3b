import Mathlib.Data.Finset.Prod
import Mathlib.Tactic.IntervalCases
import HoloMarket.Math.TriangleSearch

/-!
# The columns of a clique

`kernel_build_edge_list_from_csr` appends a pair from its lower node only, while
`kernel_find_triangles` appends a clique from each of its three edges.  So the
columns are in bijection with the 3-cliques, over all slot orders, exactly on the
graphs without any.
-/

namespace HoloMarket

/-- The edges of the graph, the lower node first. -/
def SparseLaplacian.pairs (laplacian : SparseLaplacian) : Finset (Nat × Nat) :=
  (Finset.range laplacian.nRows ×ˢ Finset.range laplacian.nRows).filter fun f =>
    f.1 < f.2 ∧ f.2 ∈ laplacian.row f.1

/-- The sets of three mutually adjacent nodes, in ascending order. -/
def SparseLaplacian.cliques (laplacian : SparseLaplacian) : Finset (Nat × Nat × Nat) :=
  (Finset.range laplacian.nRows ×ˢ Finset.range laplacian.nRows ×ˢ
    Finset.range laplacian.nRows).filter fun c =>
      (c.1, c.2.1) ∈ laplacian.pairs ∧ (c.1, c.2.2) ∈ laplacian.pairs ∧
        (c.2.1, c.2.2) ∈ laplacian.pairs

/-- The three edges of the column are the three pairs of the clique. -/
def Triangle.MadeOf (t : Triangle) (edges : List (Nat × Nat)) (c : Nat × Nat × Nat) : Prop :=
  [edges[t.e]?, edges[t.eIk]?, edges[t.eJk]?].Perm
    [some (c.1, c.2.1), some (c.1, c.2.2), some (c.2.1, c.2.2)]

/-- The columns are in bijection with the 3-cliques. -/
structure EachTriangleOnce {K : Type*} [Ring K] (laplacian : SparseLaplacian)
    (ws : HodgeWorkspace K) : Prop where
  column : ∀ t ∈ ws.triangles, ∃ c ∈ laplacian.cliques, t.MadeOf ws.edges c
  once : ∀ c ∈ laplacian.cliques,
    ∃! s : Nat, ∃ t : Triangle, ws.triangles[s]? = some t ∧ t.MadeOf ws.edges c
  count : ws.nTriangles = laplacian.cliques.card

variable {laplacian : SparseLaplacian} {edges : List (Nat × Nat)}

theorem mem_pairs {a b : Nat} (hL : laplacian.GraphCsr) :
    (a, b) ∈ laplacian.pairs ↔ a < laplacian.nRows ∧ a < b ∧ b ∈ laplacian.row a := by
  unfold SparseLaplacian.pairs
  rw [Finset.mem_filter, Finset.mem_product, Finset.mem_range, Finset.mem_range]
  constructor
  · rintro ⟨⟨ha, -⟩, hab, hrow⟩
    exact ⟨ha, hab, hrow⟩
  · rintro ⟨ha, hab, hrow⟩
    exact ⟨⟨ha, hL.bound a ha b hrow⟩, hab, hrow⟩

theorem mem_cliques {a b c : Nat} : (a, b, c) ∈ laplacian.cliques ↔
    (a, b) ∈ laplacian.pairs ∧ (a, c) ∈ laplacian.pairs ∧ (b, c) ∈ laplacian.pairs := by
  unfold SparseLaplacian.cliques
  rw [Finset.mem_filter]
  constructor
  · exact fun h => h.2
  · intro h
    refine ⟨?_, h⟩
    obtain ⟨hab, -, hbc⟩ := h
    unfold SparseLaplacian.pairs at hab hbc
    have h₁ := Finset.mem_product.mp (Finset.mem_filter.mp hab).1
    have h₂ := Finset.mem_product.mp (Finset.mem_filter.mp hbc).1
    exact Finset.mem_product.mpr ⟨h₁.1, Finset.mem_product.mpr ⟨h₁.2, h₂.2⟩⟩

namespace SparseLaplacian.GraphCsr

variable (hL : laplacian.GraphCsr)
include hL

theorem mem_edgeSlots {slots : List (Nat × Nat)} (h : EdgeSlots laplacian slots)
    {f : Nat × Nat} : f ∈ slots ↔ f ∈ laplacian.pairs := by
  obtain ⟨a, b⟩ := f
  rw [mem_pairs hL]
  constructor
  · exact fun hf => h.mem hf
  · rintro ⟨ha, hab, hrow⟩
    refine (SlotOrder.mem_iff h _).mpr ?_
    unfold kernelBuildEdgeListFromCsr
    rw [if_pos ha]
    exact List.mem_map.mpr ⟨b, List.mem_filter.mpr ⟨hrow, by simpa using hab⟩, rfl⟩

theorem nodup_edgeSlots {slots : List (Nat × Nat)} (h : EdgeSlots laplacian slots) :
    slots.Nodup := by
  refine SlotOrder.nodup h fun v => ?_
  unfold kernelBuildEdgeListFromCsr
  split_ifs with hv
  · exact ((hL.nodup v hv).filter _).map fun u u' heq => (Prod.mk.inj heq).2
  · exact List.nodup_nil

theorem length_edgeSlots {slots : List (Nat × Nat)} (h : EdgeSlots laplacian slots) :
    slots.length = laplacian.pairs.card := by
  rw [← List.toFinset_card_of_nodup (hL.nodup_edgeSlots h)]
  congr 1
  ext f
  rw [List.mem_toFinset]
  exact hL.mem_edgeSlots h

end SparseLaplacian.GraphCsr

/-! ## Each edge of a clique discovers it -/

/-- The edges are those of the graph, and no others. -/
def ListsPairs (laplacian : SparseLaplacian) (edges : List (Nat × Nat)) : Prop :=
  ∀ f, f ∈ edges ↔ f ∈ laplacian.pairs

theorem exists_clique (hL : laplacian.GraphCsr) (hp : ListsPairs laplacian edges)
    {t : Triangle} {i j : Nat} (h : t.Found edges i j) : laplacian.cliques.Nonempty := by
  obtain ⟨p, hpe, hpk⟩ := h.ik
  obtain ⟨q, hqe, hqk⟩ := h.jk
  have hf := (hp _).mp (List.mem_of_getElem? h.edge)
  have hpm := (hp _).mp (List.mem_of_getElem? hpe)
  have hqm := (hp _).mp (List.mem_of_getElem? hqe)
  have hij := ((mem_pairs hL).mp hf).2.1
  have hplt := ((mem_pairs hL).mp hpm).2.1
  have hqlt := ((mem_pairs hL).mp hqm).2.1
  have hi := h.ne_i
  have hj := h.ne_j
  rcases Nat.lt_or_gt_of_ne hi with hki | hik
  · rw [eq_of_joins_lt hplt (joins_symm hpk) hki] at hpm
    rw [eq_of_joins_lt hqlt (joins_symm hqk) (hki.trans hij)] at hqm
    exact ⟨(t.kNode, i, j), mem_cliques.mpr ⟨hpm, hqm, hf⟩⟩
  · rw [eq_of_joins_lt hplt hpk hik] at hpm
    rcases Nat.lt_or_gt_of_ne hj with hkj | hjk
    · rw [eq_of_joins_lt hqlt (joins_symm hqk) hkj] at hqm
      exact ⟨(i, t.kNode, j), mem_cliques.mpr ⟨hpm, hf, hqm⟩⟩
    · rw [eq_of_joins_lt hqlt hqk hjk] at hqm
      exact ⟨(i, j, t.kNode), mem_cliques.mpr ⟨hf, hpm, hqm⟩⟩

/-- The edge of the two lower nodes and the edge of the two higher nodes both
append a column for the clique. -/
theorem exists_two_columns (hL : laplacian.GraphCsr) (hp : ListsPairs laplacian edges)
    {c : Nat × Nat × Nat} (hc : c ∈ laplacian.cliques) :
    ∃ t₁ t₂ : Triangle, t₁.e ≠ t₂.e ∧
      t₁ ∈ kernelFindTriangles laplacian edges t₁.e ∧ t₁.MadeOf edges c ∧
      t₂ ∈ kernelFindTriangles laplacian edges t₂.e ∧ t₂.MadeOf edges c := by
  obtain ⟨a, b, c⟩ := c
  obtain ⟨hab, hac, hbc⟩ := mem_cliques.mp hc
  obtain ⟨ha, hltab, hrab⟩ := (mem_pairs hL).mp hab
  obtain ⟨-, hltac, hrac⟩ := (mem_pairs hL).mp hac
  obtain ⟨hb, hltbc, hrbc⟩ := (mem_pairs hL).mp hbc
  have hE : EdgesBelow laplacian.nRows edges := by
    intro f hf
    obtain ⟨h₁, h₂, h₃⟩ := (mem_pairs hL).mp ((hp f).mp hf)
    exact ⟨h₂, hL.bound _ h₁ _ h₃⟩
  have hlt : ∀ {x : Nat} {f : Nat × Nat}, edges[x]? = some f → f.1 < f.2 :=
    fun hx => (hE _ (List.mem_of_getElem? hx)).1
  obtain ⟨e₁, he₁⟩ := List.getElem?_of_mem ((hp _).mpr hab)
  obtain ⟨e₂, he₂⟩ := List.getElem?_of_mem ((hp _).mpr hbc)
  obtain ⟨t₁, ht₁, hte₁, hk₁⟩ := hL.exists_triangle_of_common hE he₁ hrac hrbc hltac.ne'
    hltbc.ne' ((hp _).mpr hac) (Or.inl ⟨rfl, rfl⟩) ((hp _).mpr hbc) (Or.inl ⟨rfl, rfl⟩)
  obtain ⟨t₂, ht₂, hte₂, hk₂⟩ := hL.exists_triangle_of_common hE he₂ (hL.symm a ha b hrab)
    (hL.symm a ha c hrac) hltab.ne hltac.ne ((hp _).mpr hab) (Or.inr ⟨rfl, rfl⟩)
    ((hp _).mpr hac) (Or.inr ⟨rfl, rfl⟩)
  refine ⟨t₁, t₂, ?_, hte₁ ▸ ht₁, ?_, hte₂ ▸ ht₂, ?_⟩
  · rw [hte₁, hte₂]
    rintro rfl
    cases he₁.symm.trans he₂
    exact lt_irrefl _ hltab
  · obtain ⟨-, i, j, hf⟩ := mem_kernelFindTriangles ht₁
    obtain ⟨rfl, rfl⟩ := Prod.mk.inj (Option.some.inj ((hte₁ ▸ he₁).symm.trans hf.edge))
    obtain ⟨p, hpe, hpk⟩ := hf.ik
    obtain ⟨q, hqe, hqk⟩ := hf.jk
    unfold Triangle.MadeOf
    rw [hf.edge, hpe, hqe, eq_of_joins_lt (hlt hpe) (hk₁ ▸ hpk) hltac,
      eq_of_joins_lt (hlt hqe) (hk₁ ▸ hqk) hltbc]
  · obtain ⟨-, i, j, hf⟩ := mem_kernelFindTriangles ht₂
    obtain ⟨rfl, rfl⟩ := Prod.mk.inj (Option.some.inj ((hte₂ ▸ he₂).symm.trans hf.edge))
    obtain ⟨p, hpe, hpk⟩ := hf.ik
    obtain ⟨q, hqe, hqk⟩ := hf.jk
    unfold Triangle.MadeOf
    rw [hf.edge, hpe, hqe, eq_of_joins_lt (hlt hpe) (joins_symm (hk₂ ▸ hpk)) hltab,
      eq_of_joins_lt (hlt hqe) (joins_symm (hk₂ ▸ hqk)) hltac]
    show ([some (b, c)] ++ [some (a, b), some (a, c)]).Perm _
    exact List.perm_append_comm

/-! ## Graphs without cliques -/

section
variable {K : Type*} [Ring K] {edgeSlots : List (Nat × Nat)} {slots : List Triangle}

/-- The edges of two threads that discovered one clique have two columns. -/
theorem EachTriangleOnce.not_two {ws : HodgeWorkspace K} (h : EachTriangleOnce laplacian ws)
    {c : Nat × Nat × Nat} (hc : c ∈ laplacian.cliques) {t₁ t₂ : Triangle}
    (ht₁ : t₁ ∈ ws.triangles) (hm₁ : t₁.MadeOf ws.edges c) (ht₂ : t₂ ∈ ws.triangles)
    (hm₂ : t₂.MadeOf ws.edges c) : t₁ = t₂ := by
  obtain ⟨s₁, hs₁⟩ := List.getElem?_of_mem ht₁
  obtain ⟨s₂, hs₂⟩ := List.getElem?_of_mem ht₂
  have hs : s₁ = s₂ := (h.once c hc).unique ⟨t₁, hs₁, hm₁⟩ ⟨t₂, hs₂, hm₂⟩
  subst hs
  exact Option.some.inj (hs₁.symm.trans hs₂)

theorem buildIncidenceMatrices_edges (hL : laplacian.GraphCsr)
    (hmax : laplacian.pairs.card ≤ kMaxEdges) (hes : EdgeSlots laplacian edgeSlots) :
    edgeSlots.take kMaxEdges = edgeSlots :=
  List.take_of_length_le (hL.length_edgeSlots hes ▸ hmax)

theorem EachTriangleOnce.of_empty (hL : laplacian.GraphCsr) (hes : EdgeSlots laplacian edgeSlots)
    (hmax : laplacian.pairs.card ≤ kMaxEdges)
    (hts : TriangleSlots laplacian (edgeSlots.take kMaxEdges) slots)
    (hnone : laplacian.cliques = ∅) :
    EachTriangleOnce laplacian (buildIncidenceMatrices K laplacian edgeSlots slots) := by
  rw [buildIncidenceMatrices_edges hL hmax hes] at hts
  have hslots : slots = [] := by
    refine List.eq_nil_iff_forall_not_mem.mpr fun t ht => ?_
    obtain ⟨-, i, j, hf⟩ := mem_kernelFindTriangles ((SlotOrder.mem_iff hts t).mp ht)
    exact (exists_clique hL (fun f => hL.mem_edgeSlots hes) hf).ne_empty hnone
  subst hslots
  constructor
  · intro t ht
    exact absurd ht List.not_mem_nil
  · intro c hc
    rw [hnone] at hc
    exact absurd hc (Finset.notMem_empty c)
  · rw [hnone]
    rfl

/-- Below the bound of the triangle array every order of the slots stores two
columns of one clique, or drops columns and counts to the bound. -/
theorem EachTriangleOnce.eq_empty (hL : laplacian.GraphCsr) (hes : EdgeSlots laplacian edgeSlots)
    (hmax : laplacian.pairs.card ≤ kMaxEdges)
    (hts : TriangleSlots laplacian (edgeSlots.take kMaxEdges) slots)
    (hbelow : laplacian.cliques.card < kMaxTriangles)
    (h : EachTriangleOnce laplacian (buildIncidenceMatrices K laplacian edgeSlots slots)) :
    laplacian.cliques = ∅ := by
  have htake := buildIncidenceMatrices_edges hL hmax hes
  by_contra hne
  obtain ⟨c, hc⟩ := Finset.nonempty_iff_ne_empty.mpr hne
  obtain ⟨t₁, t₂, hte, ht₁, hm₁, ht₂, hm₂⟩ :=
    exists_two_columns hL (fun f => hL.mem_edgeSlots hes) hc
  have hmem : ∀ t ∈ kernelFindTriangles laplacian edgeSlots t.e, t ∈ slots := by
    intro t ht
    rw [← htake] at ht
    exact (SlotOrder.mem_iff hts t).mpr ht
  by_cases hfit : slots.length ≤ kMaxTriangles
  · have hall : (buildIncidenceMatrices K laplacian edgeSlots slots).triangles = slots :=
      List.take_of_length_le hfit
    have hedges : (buildIncidenceMatrices K laplacian edgeSlots slots).edges = edgeSlots := htake
    refine hte (congrArg Triangle.e (h.not_two hc ?_ ?_ ?_ ?_))
    · rw [hall]
      exact hmem t₁ ht₁
    · rw [hedges]
      exact hm₁
    · rw [hall]
      exact hmem t₂ ht₂
    · rw [hedges]
      exact hm₂
  · have hcount := h.count
    have hlen : (buildIncidenceMatrices K laplacian edgeSlots slots).nTriangles =
        kMaxTriangles := by
      show (slots.take kMaxTriangles).length = kMaxTriangles
      rw [List.length_take]
      omega
    omega

/-- Some order of the slots stores both columns of a clique. -/
theorem exists_slots_two (hL : laplacian.GraphCsr) (hes : EdgeSlots laplacian edgeSlots)
    {t₁ t₂ : Triangle} (hte : t₁.e ≠ t₂.e)
    (ht₁ : t₁ ∈ kernelFindTriangles laplacian (edgeSlots.take kMaxEdges) t₁.e)
    (ht₂ : t₂ ∈ kernelFindTriangles laplacian (edgeSlots.take kMaxEdges) t₂.e) :
    ∃ slots, TriangleSlots laplacian (edgeSlots.take kMaxEdges) slots ∧
      t₁ ∈ slots.take kMaxTriangles ∧ t₂ ∈ slots.take kMaxTriangles := by
  have hE := hL.edgesBelow hes kMaxEdges
  have hlen : (edgeSlots.take kMaxEdges).length ≤ kMaxEdges := List.length_take_le _ _
  obtain ⟨rest, hrest⟩ := SlotOrder.exists_first_two
    (List.nodup_range (n := (edgeSlots.take kMaxEdges).length))
    (fun i x hx => (mem_kernelFindTriangles hx).1) kernelFindTriangles_of_not_mem hte
  have hle₁ := hL.length_kernelFindTriangles_le hE t₁.e
  have hle₂ := hL.length_kernelFindTriangles_le hE t₂.e
  have hcap : kMaxTriangles = kMaxEdges + kMaxEdges := rfl
  refine ⟨_, hrest, ?_, ?_⟩
  · rw [List.take_append, List.take_of_length_le (by omega)]
    exact List.mem_append_left _ ht₁
  · rw [List.take_append, List.take_append, List.take_of_length_le (i := kMaxTriangles - _)
      (by omega)]
    exact List.mem_append_right _ (List.mem_append_left _ ht₂)

/-- For one order of the slots and fewer cliques than the array can hold, and for
all orders together, the columns are the cliques exactly when there are none. -/
theorem eachTriangleOnce_iff {K : Type*} [Ring K] {laplacian : SparseLaplacian}
    (hL : laplacian.GraphCsr) (hmaxE : laplacian.pairs.card ≤ kMaxEdges) :
    (∀ edgeSlots slots, EdgeSlots laplacian edgeSlots →
      TriangleSlots laplacian (edgeSlots.take kMaxEdges) slots →
      laplacian.cliques.card < kMaxTriangles →
      (EachTriangleOnce laplacian (buildIncidenceMatrices K laplacian edgeSlots slots) ↔
        laplacian.cliques = ∅)) ∧
    ((∀ edgeSlots slots, EdgeSlots laplacian edgeSlots →
        TriangleSlots laplacian (edgeSlots.take kMaxEdges) slots →
        EachTriangleOnce laplacian (buildIncidenceMatrices K laplacian edgeSlots slots)) ↔
      laplacian.cliques = ∅) := by
  constructor
  · intro edgeSlots slots hes hts hbelow
    constructor
    · exact EachTriangleOnce.eq_empty hL hes hmaxE hts hbelow
    · exact EachTriangleOnce.of_empty hL hes hmaxE hts
  constructor
  · intro h
    by_contra hne
    obtain ⟨c, hc⟩ := Finset.nonempty_iff_ne_empty.mpr hne
    have hes := edgeSlots_flatMap laplacian
    have htake := buildIncidenceMatrices_edges hL hmaxE hes
    obtain ⟨t₁, t₂, hte, ht₁, hm₁, ht₂, hm₂⟩ :=
      exists_two_columns hL (fun f => hL.mem_edgeSlots hes) hc
    rw [← htake] at ht₁ hm₁ ht₂ hm₂
    obtain ⟨slots, hts, hs₁, hs₂⟩ := exists_slots_two hL hes hte ht₁ ht₂
    exact hte (congrArg Triangle.e ((h _ slots hes hts).not_two hc hs₁ hm₁ hs₂ hm₂))
  · intro hnone edgeSlots slots hes hts
    exact EachTriangleOnce.of_empty hL hes hmaxE hts hnone

/-- On the path 0 - 1 - 2, with the diagonal in its place. -/
theorem eachTriangleOnce_path :
    let laplacian : SparseLaplacian := ⟨3, [0, 2, 5, 7], [0, 1, 0, 1, 2, 1, 2]⟩
    ∀ edgeSlots slots, EdgeSlots laplacian edgeSlots →
      TriangleSlots laplacian (edgeSlots.take kMaxEdges) slots →
      EachTriangleOnce laplacian (buildIncidenceMatrices Int laplacian edgeSlots slots) := by
  intro laplacian
  have hL : laplacian.GraphCsr := by
    refine ⟨fun v hv => ⟨laplacian.row v, [], (List.append_nil _).symm, ?_, by simp⟩, by decide,
      by decide, by decide⟩
    have hv3 : v < 3 := hv
    interval_cases v <;> decide
  exact (eachTriangleOnce_iff (K := Int) hL (by decide)).2.mpr (by decide)

/-- On the complete graph of three nodes, with one 3-clique, there are three
columns. -/
theorem eachTriangleOnce_complete_three :
    let laplacian : SparseLaplacian := ⟨3, [0, 3, 6, 9], [1, 2, 0, 0, 2, 1, 0, 1, 2]⟩
    let edgeSlots := [(0, 1), (0, 2), (1, 2)]
    ∃ slots, laplacian.GraphCsr ∧ laplacian.pairs.card ≤ kMaxEdges ∧
      laplacian.cliques.card ≤ kMaxTriangles ∧ EdgeSlots laplacian edgeSlots ∧
      TriangleSlots laplacian (edgeSlots.take kMaxEdges) slots ∧
      ¬ EachTriangleOnce laplacian (buildIncidenceMatrices Int laplacian edgeSlots slots) := by
  intro laplacian edgeSlots
  refine ⟨[⟨0, 1, 2, 2⟩, ⟨1, 0, 2, 1⟩, ⟨2, 0, 1, 0⟩], ?_, by decide, by decide, ?_, ?_, ?_⟩
  · refine SparseLaplacian.CsrForm.graph ⟨fun v hv => ?_, by decide⟩
    have hv3 : v < 3 := hv
    interval_cases v
    · exact ⟨[1, 2], by decide, by decide, by decide⟩
    · exact ⟨[0, 2], by decide, by decide, by decide⟩
    · exact ⟨[0, 1], by decide, by decide, by decide⟩
  · exact edgeSlots_flatMap laplacian
  · exact triangleSlots_flatMap laplacian edgeSlots
  · intro h
    exact absurd h.count (by decide)

end
end HoloMarket
