import Mathlib.Algebra.BigOperators.Group.Finset.Basic
import Mathlib.Algebra.Ring.Defs
import HoloMarket.Lib.DeviceBuffer
import HoloMarket.Lib.SlotOrder

/-!
# The Hodge kernels

`hodge_kernel.cu` in exact arithmetic: the edge list and the triangle list read
off a CSR matrix, the signed incidence matrices `B1` and `B2`, the Hodge
Laplacian and the exact and co-exact components of a flow.  A device buffer is a
function from addresses to values, and the order in which threads obtain slots
from an atomic counter is a parameter.
-/

namespace HoloMarket

def kMaxEdges : Nat := 4096

def kMaxTriangles : Nat := 8192

/-- The sparsity pattern; the kernels here do not read the values. -/
structure SparseLaplacian where
  nRows : Nat
  rowPtr : List Nat
  colIdx : List Nat
deriving DecidableEq, Repr

/-- The columns at `colIdx[rowPtr[v] .. rowPtr[v + 1])`. -/
def SparseLaplacian.row (laplacian : SparseLaplacian) (v : Nat) : List Nat :=
  let start := laplacian.rowPtr.getD v 0
  let stop := laplacian.rowPtr.getD (v + 1) 0
  (laplacian.colIdx.drop start).take (stop - start)

/-! ## Edges and triangles -/

/-- What thread `v` of `kernel_build_edge_list_from_csr` appends. -/
def kernelBuildEdgeListFromCsr (laplacian : SparseLaplacian) (v : Nat) : List (Nat × Nat) :=
  if v < laplacian.nRows then
    ((laplacian.row v).filter fun u => decide (v < u)).map fun u => (v, u)
  else []

/-- Row `ni :: rest` against the other row, where `next` continues with `rest`. -/
def commonStep (i j ni : Nat) (next : List Nat → List Nat) : List Nat → List Nat
  | [] => []
  | nj :: rowJ =>
    if ni = nj ∧ ni ≠ i ∧ ni ≠ j then ni :: next rowJ
    else if ni < nj then next (nj :: rowJ)
    else commonStep i j ni next rowJ

/-- The nodes `k_node` that the two-pointer loop meets in the rows of `i` and `j`. -/
def commonNodes (i j : Nat) : List Nat → List Nat → List Nat
  | [] => fun _ => []
  | ni :: rowI => commonStep i j ni (commonNodes i j rowI)

/-- `f` joins `a` and `b`, in either orientation. -/
def joins (f : Nat × Nat) (a b : Nat) : Prop :=
  (f.1 = a ∧ f.2 = b) ∨ (f.1 = b ∧ f.2 = a)

instance (f : Nat × Nat) (a b : Nat) : Decidable (joins f a b) :=
  inferInstanceAs (Decidable (_ ∨ _))

/-- The inner loop over `f`: the last edge that joins the two nodes. -/
def findEdge (edges : List (Nat × Nat)) (a b : Nat) : Option Nat :=
  edges.zipIdx.foldl (fun found f => if joins f.1 a b then some f.2 else found) none

/-- A triangle as it is appended: the discovering edge, the two others and the
local `k_node`. -/
structure Triangle where
  e : Nat
  eIk : Nat
  eJk : Nat
  kNode : Nat
deriving DecidableEq, Repr

/-- The triangle of edge `e` between `i` and `j` with the node `kNode`, when both
other edges are in the list. -/
def triangleAt (edges : List (Nat × Nat)) (e i j kNode : Nat) : Option Triangle :=
  match findEdge edges i kNode, findEdge edges j kNode with
  | some eIk, some eJk => some ⟨e, eIk, eJk, kNode⟩
  | _, _ => none

/-- What thread `e` of `kernel_find_triangles` appends. -/
def kernelFindTriangles (laplacian : SparseLaplacian) (edges : List (Nat × Nat)) (e : Nat) :
    List Triangle :=
  match edges[e]? with
  | none => []
  | some (i, j) =>
    (commonNodes i j (laplacian.row i) (laplacian.row j)).filterMap (triangleAt edges e i j)

/-! ## Incidence matrices -/

variable {K : Type*} [Ring K]

/-- `B1`, row-major with a row for each node: thread `e` stores `-1` in the row
of its source and then `+1` in the row of its destination. -/
def kernelBuildSignedIncidence (edges : List (Nat × Nat)) : Nat → K :=
  Buffer.launch (fun _ => 0) (List.range edges.length) fun e =>
    match edges[e]? with
    | none => []
    | some (src, dst) => [(src * edges.length + e, -1), (dst * edges.length + e, 1)]

/-- `B2`, row-major with a row for each edge: thread `t` stores `+1`, `+1`, `-1`
in the rows of its three edges. -/
def kernelBuildTriangleIncidence (nEdges : Nat) (triangles : List Triangle) : Nat → K :=
  Buffer.launch (fun _ => 0) (List.range triangles.length) fun t =>
    match triangles[t]? with
    | none => []
    | some tri =>
      (if tri.e < nEdges then [(tri.e * triangles.length + t, 1)] else []) ++
      (if tri.eIk < nEdges then [(tri.eIk * triangles.length + t, 1)] else []) ++
      (if tri.eJk < nEdges then [(tri.eJk * triangles.length + t, -1)] else [])

/-- `L1 = B1ᵀ B1 + B2 B2ᵀ`. -/
def kernelHodge1Laplacian (b1 b2 : Nat → K) (nEdges nNodes nTriangles row col : Nat) : K :=
  (∑ v ∈ Finset.range nNodes, b1 (v * nEdges + row) * b1 (v * nEdges + col)) +
    ∑ tri ∈ Finset.range nTriangles, b2 (row * nTriangles + tri) * b2 (col * nTriangles + tri)

/-- The fields of the workspace that `build_incidence_matrices` fills. -/
structure HodgeWorkspace (K : Type*) where
  nNodes : Nat
  edges : List (Nat × Nat)
  triangles : List Triangle
  b1 : Nat → K
  b2 : Nat → K
  l1 : Nat → Nat → K

def HodgeWorkspace.nEdges (ws : HodgeWorkspace K) : Nat := ws.edges.length

def HodgeWorkspace.nTriangles (ws : HodgeWorkspace K) : Nat := ws.triangles.length

/-- The matrices of the edges and triangles that obtained a slot. -/
def HodgeWorkspace.build (K : Type*) [Ring K] (nNodes : Nat) (edges : List (Nat × Nat))
    (triangles : List Triangle) : HodgeWorkspace K where
  nNodes := nNodes
  edges := edges
  triangles := triangles
  b1 := kernelBuildSignedIncidence edges
  b2 := kernelBuildTriangleIncidence edges.length triangles
  l1 := kernelHodge1Laplacian (kernelBuildSignedIncidence edges)
    (kernelBuildTriangleIncidence edges.length triangles) edges.length nNodes triangles.length

/-- `build_incidence_matrices`, given the order in which the edges and then the
triangles obtain their slots.  Those past the array bounds are dropped. -/
def buildIncidenceMatrices (K : Type*) [Ring K] (laplacian : SparseLaplacian)
    (edgeSlots : List (Nat × Nat)) (triangleSlots : List Triangle) : HodgeWorkspace K :=
  .build K laplacian.nRows (edgeSlots.take kMaxEdges) (triangleSlots.take kMaxTriangles)

/-- The edge slots that the threads of the edge kernel can fill. -/
def EdgeSlots (laplacian : SparseLaplacian) (slots : List (Nat × Nat)) : Prop :=
  SlotOrder Prod.fst (kernelBuildEdgeListFromCsr laplacian) slots

/-- The triangle slots that the threads of the triangle kernel can fill. -/
def TriangleSlots (laplacian : SparseLaplacian) (edges : List (Nat × Nat))
    (slots : List Triangle) : Prop :=
  SlotOrder Triangle.e (kernelFindTriangles laplacian edges) slots

/-! ## Components of a flow -/

def kernelExactComponent (b1 : Nat → K) (omega gamma : Nat → K) (nEdges nNodes e : Nat) : K :=
  ∑ v ∈ Finset.range nNodes, b1 (v * nEdges + e) *
    ∑ f ∈ Finset.range nEdges, b1 (v * nEdges + f) * (omega f - gamma f)

def kernelCoexactComponent (omega gamma exact : Nat → K) (e : Nat) : K :=
  omega e - gamma e - exact e

/-- `d_coexact` after `compute_hodge_decomposition`, where `gamma` is what the
harmonic projection left in `d_gamma`. -/
def computeHodgeDecomposition (ws : HodgeWorkspace K) (omega gamma : Nat → K) : Nat → K :=
  kernelCoexactComponent omega gamma
    (kernelExactComponent ws.b1 omega gamma ws.nEdges ws.nNodes)

end HoloMarket
