import HoloMarket.Lib.PseudoInverse
import HoloMarket.Lib.SparseMatrix
import Mathlib.Algebra.Order.Field.Rat
import Mathlib.Logic.Function.Basic

/-!
# The research decomposition

`_build_incidence_matrices` and `_hodge_decomposition` of `gauge_theory_alpha.py`, in
exact arithmetic.  Edges may be repeated, reversed or loops; an entry of the edge
map is the last edge on its pair of nodes, with its orientation.
-/

namespace HoloMarket
namespace GaugeTheory

open Matrix PseudoInverse SparseMatrix

inductive IncidenceError where
  /-- `csr_matrix` refuses a coordinate out of its shape. -/
  | coordinate
  | value (message : String)
deriving DecidableEq

variable {K : Type}

/-- `csr_matrix((data, (row, col)), shape)` as a dense matrix. -/
def csrMatrix [AddMonoid K] (m n : Nat) (es : List (Entry K)) :
    Except IncidenceError (Matrix (Fin m) (Fin n) K) :=
  if ∀ e ∈ es, e.InShape m n then .ok (dense m n es) else .error .coordinate

def b1Row [One K] [Neg K] (i : Nat) (edge : Int × Int) : List (Entry K) :=
  [⟨i, edge.1, -1⟩, ⟨i, edge.2, 1⟩]

/-- `edge_map`: later edges overwrite earlier ones, in both directions. -/
def edgeMap (edges : List (Int × Int)) : Int × Int → Option Int :=
  edges.zipIdx.foldl (fun m e =>
    Function.update (Function.update m (e.1.1, e.1.2) (some e.2)) (e.1.2, e.1.1)
      (some (-e.2 - 1))) fun _ => none

def missingEdge (a b : Int) : String :=
  s!"face references edge ({a}, {b}) that is not present in `edges` (in either orientation) — " ++
    "inconsistent topology input"

def edgeLookup (m : Int × Int → Option Int) (a b : Int) : Except IncidenceError Int :=
  match m (a, b) with
  | none => .error (.value (missingEdge a b))
  | some e => .ok e

def sign [One K] [Neg K] (e : Int) : K := if 0 ≤ e then 1 else -1

def edgeIndex (e : Int) : Int := if 0 ≤ e then e else -e - 1

def lookupFace (m : Int × Int → Option Int) (face : Int × Int × Int) :
    Except IncidenceError (Int × Int × Int) := do
  let e1 ← edgeLookup m face.1 face.2.1
  let e2 ← edgeLookup m face.2.1 face.2.2
  let e3 ← edgeLookup m face.2.2 face.1
  return (e1, e2, e3)

def b2Row [One K] [Neg K] (i : Nat) (e : Int × Int × Int) : List (Entry K) :=
  [⟨i, edgeIndex e.1, sign e.1⟩, ⟨i, edgeIndex e.2.1, sign e.2.1⟩,
    ⟨i, edgeIndex e.2.2, sign e.2.2⟩]

def buildIncidenceMatrices (K : Type) [Ring K] (n : Nat) (edges : List (Int × Int))
    (faces : List (Int × Int × Int)) : Except IncidenceError
      (Matrix (Fin edges.length) (Fin n) K × Matrix (Fin faces.length) (Fin edges.length) K) := do
  let b1 ← csrMatrix edges.length n (rowsFrom b1Row 0 edges)
  let looked ← faces.mapM (lookupFace (edgeMap edges))
  let b2 ← csrMatrix faces.length edges.length (rowsFrom b2Row 0 looked)
  return (b1, b2)

structure Flows (m : Nat) (K : Type) where
  gradientFlow : Fin m → K
  harmonicFlow : Fin m → K
  curlFlow : Fin m → K

def hodgeDecomposition [CommRing K] {m n f : Nat}
    (pinv : ∀ {k : Nat}, Matrix (Fin k) (Fin k) K → Matrix (Fin k) (Fin k) K)
    (b1 : Matrix (Fin m) (Fin n) K) (b2 : Matrix (Fin f) (Fin m) K) (flow : Fin m → K) :
    Flows m K :=
  let delta0 := b1ᵀ * b1
  let alphaPotential := (pinv delta0 * b1ᵀ) *ᵥ flow
  let gradientFlow := b1 *ᵥ alphaPotential
  let betaPotential := (pinv (b2 * b2ᵀ) * b2) *ᵥ flow
  let curlFlow := b2ᵀ *ᵥ betaPotential
  { gradientFlow := gradientFlow
    harmonicFlow := flow - gradientFlow - curlFlow
    curlFlow := curlFlow }

/-! ## The edge map -/

/-- The signed index stands for an edge from `a` to `b`. -/
def Oriented (edges : List (Int × Int)) (a b e : Int) : Prop :=
  ∃ i : Nat, (e = i ∧ edges[i]? = some (a, b)) ∨ (e = -i - 1 ∧ edges[i]? = some (b, a))

theorem oriented_of_edgeMap {edges : List (Int × Int)} {a b e : Int}
    (h : edgeMap edges (a, b) = some e) : Oriented edges a b e := by
  have hall : ∀ p e, edgeMap edges p = some e → Oriented edges p.1 p.2 e := by
    unfold edgeMap
    refine List.foldlRecOn (motive := fun m : Int × Int → Option Int =>
      ∀ p e, m p = some e → Oriented edges p.1 p.2 e) _ _ (fun p e h => nomatch h) ?_
    intro m ih entry hentry p e he
    have hedge := List.mem_zipIdx_iff_getElem?.mp hentry
    rw [Function.update_apply, Function.update_apply] at he
    split_ifs at he with hback hfront
    · subst hback
      exact ⟨entry.2, Or.inr ⟨(Option.some.inj he).symm, hedge⟩⟩
    · subst hfront
      exact ⟨entry.2, Or.inl ⟨(Option.some.inj he).symm, hedge⟩⟩
    · exact ih p e he
  exact hall (a, b) e h

/-! ## The boundary of a face -/

section Boundary

variable [Ring K] {edges : List (Int × Int)}

theorem row_of_mem_b1Row (i : Nat) (edge : Int × Int) :
    ∀ e ∈ (b1Row i edge : List (Entry K)), e.row = i := by
  simp [b1Row]

theorem row_of_mem_b2Row (i : Nat) (e : Int × Int × Int) :
    ∀ t ∈ (b2Row i e : List (Entry K)), t.row = i := by
  simp [b2Row]

/-- The row of an edge is the difference of its ends, also where they are one node. -/
theorem cell_b1 {i : Nat} {u v : Int} (h : edges[i]? = some (u, v)) (k : Int) :
    (cell (rowsFrom b1Row 0 edges) i k : K) =
      (if v = k then 1 else 0) - (if u = k then 1 else 0) := by
  have hrow := rowSum_rowsFrom (K := K) (s := 0) row_of_mem_b1Row h
    fun e => if e.col = k then e.value else 0
  rw [Nat.zero_add] at hrow
  unfold cell
  rw [hrow]
  simp only [b1Row, List.map_cons, List.map_nil, List.sum_cons, List.sum_nil, add_zero]
  split_ifs <;> simp

/-- A signed edge of the map is the difference of the nodes it was looked up by. -/
theorem Oriented.sign_mul {a b e : Int} (h : Oriented edges a b e) (k : Int) :
    (sign e * cell (rowsFrom b1Row 0 edges) (edgeIndex e) k : K) =
      (if b = k then 1 else 0) - (if a = k then 1 else 0) := by
  obtain ⟨i, ⟨rfl, hi⟩ | ⟨rfl, hi⟩⟩ := h
  · have hnonneg : (0 : Int) ≤ i := by omega
    rw [sign, if_pos hnonneg, edgeIndex, if_pos hnonneg, one_mul, cell_b1 hi]
  · have hneg : ¬ (0 : Int) ≤ -i - 1 := by omega
    have hindex : -(-(i : Int) - 1) - 1 = i := by omega
    rw [sign, if_neg hneg, edgeIndex, if_neg hneg, hindex, neg_one_mul, cell_b1 hi, neg_sub]

theorem oriented_of_edgeLookup {a b e : Int}
    (h : edgeLookup (edgeMap edges) a b = .ok e) : Oriented edges a b e := by
  unfold edgeLookup at h
  cases hmap : edgeMap edges (a, b) with
  | none =>
    rw [hmap] at h
    exact nomatch h
  | some e' =>
    rw [hmap] at h
    cases h
    exact oriented_of_edgeMap hmap

theorem exists_of_bind_eq_ok {α β ε : Type} {x : Except ε α} {f : α → Except ε β} {b : β}
    (h : (x >>= f) = .ok b) : ∃ a, x = .ok a ∧ f a = .ok b := by
  cases x with
  | error e => exact nomatch h
  | ok a => exact ⟨a, rfl, h⟩

theorem oriented_of_lookupFace {face e : Int × Int × Int}
    (h : lookupFace (edgeMap edges) face = .ok e) :
    Oriented edges face.1 face.2.1 e.1 ∧ Oriented edges face.2.1 face.2.2 e.2.1 ∧
      Oriented edges face.2.2 face.1 e.2.2 := by
  unfold lookupFace at h
  obtain ⟨e1, h1, h⟩ := exists_of_bind_eq_ok h
  obtain ⟨e2, h2, h⟩ := exists_of_bind_eq_ok h
  obtain ⟨e3, h3, h⟩ := exists_of_bind_eq_ok h
  cases h
  exact ⟨oriented_of_edgeLookup h1, oriented_of_edgeLookup h2, oriented_of_edgeLookup h3⟩

theorem forall₂_of_mapM {α β ε : Type} {f : α → Except ε β} {xs : List α} {ys : List β}
    (h : xs.mapM f = .ok ys) : List.Forall₂ (fun x y => f x = .ok y) xs ys := by
  induction xs generalizing ys with
  | nil =>
    cases h
    exact List.Forall₂.nil
  | cons x xs ih =>
    rw [List.mapM_cons] at h
    obtain ⟨y, hx, h⟩ := exists_of_bind_eq_ok h
    obtain ⟨zs, hxs, h⟩ := exists_of_bind_eq_ok h
    cases h
    exact List.Forall₂.cons hx (ih hxs)

theorem face_sum {face e : Int × Int × Int} (h : lookupFace (edgeMap edges) face = .ok e)
    (i : Nat) (k : Int) :
    ((b2Row i e).map fun t =>
      t.value * (cell (rowsFrom b1Row 0 edges) t.col k : K)).sum = 0 := by
  obtain ⟨h1, h2, h3⟩ := oriented_of_lookupFace h
  simp only [b2Row, List.map_cons, List.map_nil, List.sum_cons, List.sum_nil, add_zero]
  rw [h1.sign_mul, h2.sign_mul, h3.sign_mul]
  have hcancel : ∀ a b c : K, b - a + (c - b + (a - c)) = 0 := by
    intro a b c
    rw [add_comm (c - b), sub_add_sub_cancel, sub_add_sub_cancel, sub_self]
  exact hcancel _ _ _

theorem csrMatrix_eq_ok {m n : Nat} {es : List (Entry K)} {b : Matrix (Fin m) (Fin n) K} :
    csrMatrix m n es = .ok b ↔ (∀ e ∈ es, e.InShape m n) ∧ dense m n es = b := by
  unfold csrMatrix
  split_ifs with h
  · rw [and_iff_right h, Except.ok.injEq]
  · exact iff_of_false (fun hnot => nomatch hnot) fun hes => h hes.1

theorem b2_mul_b1 {n : Nat} {faces : List (Int × Int × Int)}
    {b1 : Matrix (Fin edges.length) (Fin n) K}
    {b2 : Matrix (Fin faces.length) (Fin edges.length) K}
    (h : buildIncidenceMatrices K n edges faces = .ok (b1, b2)) : b2 * b1 = 0 := by
  unfold buildIncidenceMatrices at h
  obtain ⟨b1', h1, h⟩ := exists_of_bind_eq_ok h
  obtain ⟨looked, hlooked, h⟩ := exists_of_bind_eq_ok h
  obtain ⟨b2', h2, h⟩ := exists_of_bind_eq_ok h
  cases h
  obtain ⟨-, rfl⟩ := csrMatrix_eq_ok.mp h1
  obtain ⟨hshape, rfl⟩ := csrMatrix_eq_ok.mp h2
  funext f k
  have hfaces := forall₂_of_mapM hlooked
  rw [dense_mul_apply hshape (g := fun e => cell (rowsFrom b1Row 0 edges) e k.val)
    fun j => rfl]
  have hf : f.val < looked.length := hfaces.length_eq ▸ f.isLt
  have hrow := rowSum_rowsFrom (K := K) (s := 0) row_of_mem_b2Row
    (List.getElem?_eq_getElem hf)
    fun e => e.value * cell (rowsFrom b1Row 0 edges) e.col k.val
  rw [Nat.zero_add] at hrow
  rw [hrow]
  exact face_sum (hfaces.get f.isLt hf) _ _

end Boundary

/-! ## The decomposition -/

variable [Field K] [LinearOrder K] [IsStrictOrderedRing K]

/-- For every complex that is accepted, the boundary of a boundary vanishes; and where
`pinv` is a pseudo-inverse of the two matrices it is called on, every flow is split
into its gradient, curl and harmonic part. -/
theorem hodgeDecomposition_isHodge {n : Nat} {edges : List (Int × Int)}
    {faces : List (Int × Int × Int)} {b1 : Matrix (Fin edges.length) (Fin n) K}
    {b2 : Matrix (Fin faces.length) (Fin edges.length) K}
    (h : buildIncidenceMatrices K n edges faces = .ok (b1, b2)) :
    b2 * b1 = 0 ∧
      ∀ pinv : ∀ {k : Nat}, Matrix (Fin k) (Fin k) K → Matrix (Fin k) (Fin k) K,
        IsMoorePenrose (b1ᵀ * b1) (pinv (b1ᵀ * b1)) →
        IsMoorePenrose (b2 * b2ᵀ) (pinv (b2 * b2ᵀ)) → ∀ flow,
          IsHodge b1 b2 flow (hodgeDecomposition pinv b1 b2 flow).gradientFlow
            (hodgeDecomposition pinv b1 b2 flow).curlFlow
            (hodgeDecomposition pinv b1 b2 flow).harmonicFlow := by
  refine ⟨b2_mul_b1 h, fun pinv h0 h2 flow => ?_⟩
  have hsplit := isHodge_of_isMoorePenrose (b2_mul_b1 h) h0 h2 flow
  unfold hodgeDecomposition
  simp only [← mulVec_mulVec]
  exact hsplit

def triangleEdges : List (Int × Int) := [(0, 1), (1, 2), (2, 0)]

def triangleB1 : Matrix (Fin triangleEdges.length) (Fin 3) ℚ :=
  dense triangleEdges.length 3 (rowsFrom b1Row 0 triangleEdges)

def triangleB2 : Matrix (Fin 1) (Fin triangleEdges.length) ℚ :=
  dense 1 triangleEdges.length (rowsFrom b2Row 0 [(0, 1, 2)])

/-- On a triangle the pseudo-inverses are a ninth of the matrices. -/
def triangleParts : Flows triangleEdges.length ℚ :=
  hodgeDecomposition (fun A => ((9 : Nat) : ℚ)⁻¹ • A) triangleB1 triangleB2
    fun e => if e.val = 0 then 1 else 0

theorem hodgeDecomposition_triangle :
    triangleB2 * triangleB1 = 0 ∧
      IsHodge triangleB1 triangleB2 (fun e => if e.val = 0 then 1 else 0)
        triangleParts.gradientFlow triangleParts.curlFlow triangleParts.harmonicFlow := by
  have hbuild : buildIncidenceMatrices ℚ 3 triangleEdges [(0, 1, 2)] =
      .ok (triangleB1, triangleB2) := by rfl
  obtain ⟨hzero, hsplit⟩ := hodgeDecomposition_isHodge hbuild
  refine ⟨hzero, hsplit (fun A => ((9 : Nat) : ℚ)⁻¹ • A) ?_ ?_ _⟩
  · exact ⟨by decide +kernel, by decide +kernel, by decide +kernel, by decide +kernel⟩
  · exact ⟨by decide +kernel, by decide +kernel, by decide +kernel, by decide +kernel⟩

end GaugeTheory
end HoloMarket
