import HoloMarket.Lib.RowMajor
import HoloMarket.Lib.Truncation
import Mathlib.Algebra.BigOperators.Group.List.Basic
import Mathlib.Algebra.Order.Field.Rat

/-!
# The tensor-train sweep

`_tt_svd_sweep` of `tensor_compression.py` in exact arithmetic.  An array is its
extents and a function of its indices; a reshape goes through the row-major buffer
and fails where the sizes differ.  `np.linalg.svd` is a parameter.
-/

namespace HoloMarket
namespace TensorTrain

open Finset RowMajor Truncation

variable {K : Type}

structure Mat (K : Type) where
  rows : Nat
  cols : Nat
  get : Nat → Nat → K

namespace Mat

/-- A buffer read as a matrix. -/
def ofFlat (rows cols : Nat) (data : Nat → K) : Mat K :=
  ⟨rows, cols, fun i j => data (i * cols + j)⟩

/-- The row-major buffer. -/
def flat (m : Mat K) (x : Nat) : K := m.get (x / m.cols) (x % m.cols)

def size (m : Mat K) : Nat := m.rows * m.cols

def reshape (m : Mat K) (rows cols : Nat) : Option (Mat K) :=
  if rows * cols = m.size then some (ofFlat rows cols m.flat) else none

/-- `m[:, :rank]`. -/
def takeCols (m : Mat K) (rank : Nat) : Mat K := { m with cols := min rank m.cols }

/-- `m[:rank, :]`. -/
def takeRows (m : Mat K) (rank : Nat) : Mat K := { m with rows := min rank m.rows }

def diag [Zero K] (s : List K) : Mat K :=
  ⟨s.length, s.length, fun i j => if i = j then s.getD i 0 else 0⟩

/-- `a @ b`, where the inner extents agree. -/
def mul [AddCommMonoid K] [Mul K] (a b : Mat K) : Option (Mat K) :=
  if a.cols = b.rows then
    some ⟨a.rows, b.cols, fun i j => ∑ x ∈ range a.cols, a.get i x * b.get x j⟩
  else none

end Mat

/-- A core, of shape `(left, site, right)`. -/
structure Core (K : Type) where
  left : Nat
  site : Nat
  right : Nat
  get : Nat → Nat → Nat → K

def Mat.toCore (m : Mat K) (left site right : Nat) : Option (Core K) :=
  if left * site * right = m.size then
    some ⟨left, site, right, fun a i b => m.flat ((a * site + i) * right + b)⟩
  else none

/-- What `np.linalg.svd` returns. -/
structure Svd (K : Type) where
  u : Mat K
  s : List K
  vt : Mat K

structure Tensor (K : Type) where
  shape : List Nat
  data : Nat → K

/-- The locals of the loop. -/
structure Sweep (K : Type) where
  nodes : List (Core K)
  bondDims : List Nat
  droppedEnergySq : K
  carry : Mat K
  rPrev : Nat

structure Result (K : Type) where
  nodes : List (Core K)
  bondDims : List Nat
  droppedEnergySq : K

section Code

variable [Field K] [LinearOrder K] (svd : Mat K → Svd K) (chi : Nat) (threshold : K)

def rankOf (d : Svd K) : Nat :=
  max (min (min (d.s.countP fun x => decide (threshold < x)) chi) d.u.cols) 1

/-- A turn of the loop. -/
def sweepStep (st : Sweep K) (nSite nextN : Nat) : Option (Sweep K) :=
  let d := svd st.carry
  let rank := rankOf chi threshold d
  let dropped := st.droppedEnergySq + ((d.s.drop rank).map (· ^ 2)).sum
  ((d.u.takeCols rank).toCore st.rPrev nSite rank).bind fun core =>
    (Mat.mul (.diag (d.s.take rank)) (d.vt.takeRows rank)).bind fun remaining =>
      if rank * nextN = 0 then none
      else (remaining.reshape (rank * nextN) (remaining.size / (rank * nextN))).map fun carry =>
        { nodes := st.nodes ++ [core]
          bondDims := st.bondDims ++ [rank]
          droppedEnergySq := dropped
          carry := carry
          rPrev := rank }

/-- Behind the loop: the last core. -/
def finish (st : Sweep K) (nSite : Nat) : Option (Result K) :=
  (st.carry.toCore st.rPrev nSite 1).map fun core =>
    ⟨st.nodes ++ [core], st.bondDims ++ [1], st.droppedEnergySq⟩

/-- The loop from a site on; `rest` is the shape behind it. -/
def sweepFrom (st : Sweep K) (nSite : Nat) : List Nat → Option (Result K)
  | [] => finish st nSite
  | nextN :: rest =>
    (sweepStep svd chi threshold st nSite nextN).bind fun st => sweepFrom st nextN rest

/-- The first carry, `tensor.reshape(1 * shape[0], -1)`. -/
def firstCarry (t : Tensor K) (n : Nat) : Option (Mat K) :=
  if n = 0 then none
  else if n * (t.shape.prod / n) = t.shape.prod then some (.ofFlat n (t.shape.prod / n) t.data)
  else none

def sweepStart (carry : Mat K) : Sweep K := ⟨[], [1], 0, carry, 1⟩

def ttSvdSweep (t : Tensor K) : Option (Result K) :=
  match t.shape with
  | [] => none
  | n :: rest =>
    (firstCarry t n).bind fun carry => sweepFrom svd chi threshold (sweepStart carry) n rest

/-! ## Exact decompositions -/

/-- The matrices that the loop passes to `svd`. -/
def svdCalls (st : Sweep K) (nSite : Nat) : List Nat → List (Mat K)
  | [] => []
  | nextN :: rest =>
    st.carry :: ((sweepStep svd chi threshold st nSite nextN).elim [] fun st =>
      svdCalls st nextN rest)

/-- The decomposition is an exact thin one. -/
structure Svd.IsExact (d : Svd K) (a : Mat K) : Prop where
  rows_u : d.u.rows = a.rows
  cols_u : d.u.cols = min a.rows a.cols
  length_s : d.s.length = min a.rows a.cols
  rows_vt : d.vt.rows = min a.rows a.cols
  cols_vt : d.vt.cols = a.cols
  thin : IsThinSvd a.rows a.cols (min a.rows a.cols) a.get d.u.get (fun b => d.s.getD b 0) d.vt.get

/-- `svd` is exact on every matrix that the sweep of the tensor passes to it. -/
def ExactOn (t : Tensor K) : Prop :=
  match t.shape with
  | [] => True
  | n :: rest => ∀ carry, firstCarry t n = some carry →
      ∀ a ∈ svdCalls svd chi threshold (sweepStart carry) n rest, (svd a).IsExact a

end Code

/-! ## The contraction -/

section Contraction

variable [CommRing K]

def Tensor.get (t : Tensor K) (idx : List Nat) : K := t.data (flatIndex t.shape idx)

/-- The cores at a multi-index, summed over their bonds, from the left bond `a` on. -/
def contractFrom : List (Core K) → Nat → List Nat → K
  | g :: gs, a, i :: idx => ∑ b ∈ range g.right, g.get a i b * contractFrom gs b idx
  | _, _, _ => 1

def contract (gs : List (Core K)) (idx : List Nat) : K := contractFrom gs 0 idx

/-- The squared Frobenius distance. -/
def distanceSq (t : Tensor K) (gs : List (Core K)) : K :=
  sumOver t.shape fun idx => (t.get idx - contract gs idx) ^ 2

end Contraction

/-! ## Trains of cores -/

/-- Cores of the given sites behind the bond `l`, and the bonds behind each of them. -/
inductive Train (chi : Nat) : Nat → List Nat → List (Core K) → List Nat → Prop where
  | nil : Train chi 1 [] [] []
  | cons {g : Core K} {shape : List Nat} {gs : List (Core K)} {bs : List Nat} :
    g.right ≤ chi → Train chi g.right shape gs bs →
      Train chi g.left (g.site :: shape) (g :: gs) (g.right :: bs)

/-- The cores and the bonds that are returned for a shape. -/
structure IsTrain (chi : Nat) (shape : List Nat) (r : Result K) : Prop where
  length_nodes : r.nodes.length = shape.length
  length_bonds : r.bondDims.length = shape.length + 1
  first : r.bondDims[0]? = some 1
  last : r.bondDims[shape.length]? = some 1
  bond_le : ∀ b ∈ r.bondDims, b ≤ chi
  core : ∀ k g, r.nodes[k]? = some g →
    r.bondDims[k]? = some g.left ∧ shape[k]? = some g.site ∧ r.bondDims[k + 1]? = some g.right

section

variable {chi : Nat}

theorem Train.lengths {l : Nat} {shape : List Nat} {gs : List (Core K)} {bs : List Nat}
    (h : Train chi l shape gs bs) : gs.length = shape.length ∧ bs.length = shape.length := by
  induction h with
  | nil => exact ⟨rfl, rfl⟩
  | cons _ _ ih => exact ⟨congrArg Nat.succ ih.1, congrArg Nat.succ ih.2⟩

theorem Train.last {l : Nat} {shape : List Nat} {gs : List (Core K)} {bs : List Nat}
    (h : Train chi l shape gs bs) : (l :: bs)[shape.length]? = some 1 := by
  induction h with
  | nil => rfl
  | cons _ _ ih => exact ih

theorem Train.bond_le {l : Nat} {shape : List Nat} {gs : List (Core K)} {bs : List Nat}
    (h : Train chi l shape gs bs) : ∀ b ∈ bs, b ≤ chi := by
  induction h with
  | nil => exact fun b hb => nomatch hb
  | cons hle _ ih => exact List.forall_mem_cons.mpr ⟨hle, ih⟩

theorem Train.core {l : Nat} {shape : List Nat} {gs : List (Core K)} {bs : List Nat}
    (h : Train chi l shape gs bs) {k : Nat} {g : Core K} (hk : gs[k]? = some g) :
    (l :: bs)[k]? = some g.left ∧ shape[k]? = some g.site ∧ (l :: bs)[k + 1]? = some g.right := by
  induction h generalizing k with
  | nil => exact nomatch hk
  | cons _ _ ih =>
    cases k with
    | zero =>
      cases hk
      exact ⟨rfl, rfl, rfl⟩
    | succ k => exact ih hk

end

/-! ## Buffers -/

theorem Mat.flat_mul_add {m : Mat K} {i j : Nat} (hj : j < m.cols) :
    m.flat (i * m.cols + j) = m.get i j := by
  unfold Mat.flat
  rw [(mul_add_div_mod i hj).1, (mul_add_div_mod i hj).2]

theorem Mat.flat_ofFlat {rows cols : Nat} (data : Nat → K) (x : Nat) :
    (Mat.ofFlat rows cols data).flat x = data x := by
  show data (x / cols * cols + x % cols) = data x
  rw [Nat.div_add_mod']

/-! ## One turn -/

section Step

variable [Field K] [LinearOrder K] {svd : Mat K → Svd K} {chi : Nat} {threshold : K}

/-- The carry is an array of shape `(r_prev, n, rest)` and no extent is zero. -/
structure Sweep.Ready (st : Sweep K) (n : Nat) (rest : List Nat) : Prop where
  rows : st.carry.rows = st.rPrev * n
  cols : st.carry.cols = rest.prod
  rPrev_pos : 0 < st.rPrev
  site_pos : 0 < n
  rest_pos : ∀ m ∈ rest, 0 < m

omit [Field K] in
theorem rankOf_pos (chi : Nat) (threshold : K) (d : Svd K) : 1 ≤ rankOf chi threshold d :=
  Nat.le_max_right _ _

omit [Field K] in
theorem rankOf_le_chi (hchi : 1 ≤ chi) (threshold : K) (d : Svd K) :
    rankOf chi threshold d ≤ chi := by
  unfold rankOf
  omega

omit [Field K] in
theorem rankOf_le_cols (chi : Nat) (threshold : K) {d : Svd K} (h : 1 ≤ d.u.cols) :
    rankOf chi threshold d ≤ d.u.cols := by
  unfold rankOf
  omega

omit [LinearOrder K] in
theorem diag_mul {s : List K} {vt : Mat K} (h : vt.rows = s.length) :
    Mat.mul (.diag s) vt =
      some ⟨s.length, vt.cols, fun b j => s.getD b 0 * vt.get b j⟩ := by
  have hget : ∀ b j, ∑ x ∈ range s.length, (if b = x then s.getD b 0 else 0) * vt.get x j =
      s.getD b 0 * vt.get b j := by
    intro b j
    rw [sum_eq_single b]
    · rw [if_pos rfl]
    · intro x _ hx
      rw [if_neg hx.symm, zero_mul]
    · intro hnot
      have hle : s.length ≤ b := not_lt.mp fun hlt => hnot (mem_range.mpr hlt)
      rw [if_pos rfl, List.getD_eq_getElem?_getD, List.getElem?_eq_none hle, Option.getD_none,
        zero_mul]
  unfold Mat.mul
  rw [if_pos (show (Mat.diag s).cols = vt.rows from h.symm)]
  exact congrArg (fun get => some (Mat.mk s.length vt.cols get))
    (funext fun b => funext fun j => hget b j)

/-- The core of the first `r` columns. -/
def Svd.core (d : Svd K) (left site r : Nat) : Core K :=
  ⟨left, site, r, fun a i b => (d.u.takeCols r).flat ((a * site + i) * r + b)⟩

/-- The first `r` values times the first `r` rows. -/
def Svd.remaining (d : Svd K) (r : Nat) : Mat K :=
  ⟨r, d.vt.cols, fun b j => (d.s.take r).getD b 0 * d.vt.get b j⟩

/-- The locals behind a turn. -/
def Sweep.next (st : Sweep K) (d : Svd K) (n nextN : Nat) (rest : List Nat) (r : Nat) :
    Sweep K where
  nodes := st.nodes ++ [d.core st.rPrev n r]
  bondDims := st.bondDims ++ [r]
  droppedEnergySq := st.droppedEnergySq + ((d.s.drop r).map (· ^ 2)).sum
  carry := .ofFlat (r * nextN) rest.prod (d.remaining r).flat
  rPrev := r

theorem sweepStep_eq {st : Sweep K} {n nextN : Nat} {rest : List Nat} {d : Svd K}
    (hready : st.Ready n (nextN :: rest)) (hd : svd st.carry = d) (hexact : d.IsExact st.carry)
    {r : Nat} (hr : rankOf chi threshold d = r) (hrank : r ≤ d.u.cols) :
    sweepStep svd chi threshold st n nextN = some (st.next d n nextN rest r) := by
  have hpos : 1 ≤ r := hr ▸ rankOf_pos chi threshold d
  have hnext : 0 < nextN := hready.rest_pos nextN List.mem_cons_self
  have hcore : st.rPrev * n * r = (d.u.takeCols r).size := by
    show st.rPrev * n * r = d.u.rows * min r d.u.cols
    rw [min_eq_left hrank, hexact.rows_u, hready.rows]
  have htake : (d.s.take r).length = r := by
    rw [List.length_take, hexact.length_s, ← hexact.cols_u, min_eq_left hrank]
  have hmul : Mat.mul (.diag (d.s.take r)) (d.vt.takeRows r) = some (d.remaining r) := by
    have hrows : (d.vt.takeRows r).rows = (d.s.take r).length := by
      show min r d.vt.rows = (d.s.take r).length
      rw [htake, hexact.rows_vt, ← hexact.cols_u, min_eq_left hrank]
    rw [diag_mul hrows, htake]
    rfl
  have hsize : (d.remaining r).size = r * nextN * rest.prod := by
    show r * d.vt.cols = _
    rw [hexact.cols_vt, hready.cols, List.prod_cons, Nat.mul_assoc]
  have hdiv : (d.remaining r).size / (r * nextN) = rest.prod := by
    rw [hsize, Nat.mul_div_cancel_left _ (Nat.mul_pos hpos hnext)]
  unfold sweepStep
  simp only [hd, hr]
  unfold Mat.toCore Mat.reshape
  rw [if_pos hcore, Option.bind_some, hmul, Option.bind_some,
    if_neg (Nat.mul_pos hpos hnext).ne', hdiv, if_pos hsize.symm]
  rfl

theorem Sweep.Ready.one_le_cols {st : Sweep K} {n : Nat} {rest : List Nat}
    (hready : st.Ready n rest) {d : Svd K} (hexact : d.IsExact st.carry) : 1 ≤ d.u.cols := by
  rw [hexact.cols_u, hready.rows, hready.cols]
  exact le_min (Nat.mul_pos hready.rPrev_pos hready.site_pos)
    (List.prod_pos_iff_forall_pos_nat.mpr hready.rest_pos)

omit [LinearOrder K] in
theorem Sweep.Ready.next {st : Sweep K} {n nextN : Nat} {rest : List Nat}
    (hready : st.Ready n (nextN :: rest)) (d : Svd K) {r : Nat} (hr : 1 ≤ r) :
    (st.next d n nextN rest r).Ready nextN rest where
  rows := rfl
  cols := rfl
  rPrev_pos := hr
  site_pos := hready.rest_pos nextN List.mem_cons_self
  rest_pos := fun m hm => hready.rest_pos m (List.mem_cons_of_mem _ hm)

/-! ## The error of a carry -/

/-- The squared distance of a carry, of shape `(r_prev, n, rest)`, and the contraction
of the cores that come from it. -/
def Sweep.error (st : Sweep K) (shape : List Nat) (gs : List (Core K)) : K :=
  ∑ a ∈ range st.rPrev, ∑ q ∈ range shape.prod,
    (st.carry.flat (a * shape.prod + q) - contractFrom gs a (unflat shape q)) ^ 2

omit [LinearOrder K] in
theorem Sweep.Ready.error_eq {st : Sweep K} {n : Nat} {rest : List Nat}
    (hready : st.Ready n rest) (gs : List (Core K)) :
    st.error (n :: rest) gs = ∑ a ∈ range st.rPrev, ∑ i ∈ range n, ∑ q ∈ range rest.prod,
      (st.carry.get (a * n + i) q - contractFrom gs a (i :: unflat rest q)) ^ 2 := by
  unfold Sweep.error
  refine sum_congr rfl fun a _ => ?_
  rw [List.prod_cons, sum_range_mul]
  refine sum_congr rfl fun i _ => sum_congr rfl fun q hq => ?_
  have hq' := mem_range.mp hq
  rw [unflat_cons hq', show a * (n * rest.prod) + (i * rest.prod + q) =
    (a * n + i) * rest.prod + q by ring, ← hready.cols, Mat.flat_mul_add (hready.cols ▸ hq')]

omit [LinearOrder K] in
theorem sum_sq_list (s : List K) :
    (s.map (· ^ 2)).sum = ∑ x ∈ range s.length, s.getD x 0 ^ 2 := by
  induction s with
  | nil => rfl
  | cons y s ih =>
    rw [List.map_cons, List.sum_cons, ih, List.length_cons, sum_range_succ', add_comm]
    rfl

/-- A turn adds the squares that it drops to the error that is left. -/
theorem error_step {st : Sweep K} {n nextN : Nat} {rest : List Nat} {d : Svd K}
    (hready : st.Ready n (nextN :: rest)) (hexact : d.IsExact st.carry) {r : Nat}
    (hr : r ≤ d.u.cols) (gs : List (Core K)) :
    st.error (n :: nextN :: rest) (d.core st.rPrev n r :: gs) =
      (st.next d n nextN rest r).error (nextN :: rest) gs + ((d.s.drop r).map (· ^ 2)).sum := by
  have hkcols : r ≤ min st.carry.rows st.carry.cols := hexact.cols_u ▸ hr
  have hcore : ∀ a i b, b < r → (d.core st.rPrev n r).get a i b = d.u.get (a * n + i) b := by
    intro a i b hb
    have hcols : (d.u.takeCols r).cols = r := min_eq_left hr
    have hflat := Mat.flat_mul_add (m := d.u.takeCols r) (i := a * n + i) (hcols.symm ▸ hb)
    rw [hcols] at hflat
    exact hflat
  have hcarry : ∀ b q, b < r → q < (nextN :: rest).prod →
      (st.next d n nextN rest r).carry.flat (b * (nextN :: rest).prod + q) =
        d.s.getD b 0 * d.vt.get b q := by
    intro b q hb hq
    have hcols : (d.remaining r).cols = (nextN :: rest).prod := hexact.cols_vt.trans hready.cols
    have hflat := Mat.flat_mul_add (m := d.remaining r) (i := b) (hcols.symm ▸ hq)
    rw [hcols] at hflat
    show (Mat.ofFlat _ _ (d.remaining r).flat).flat _ = _
    rw [Mat.flat_ofFlat, hflat]
    show (d.s.take r).getD b 0 * _ = _
    rw [List.getD_eq_getElem?_getD, List.getElem?_take_of_lt hb, ← List.getD_eq_getElem?_getD]
  have hdropped : ((d.s.drop r).map (· ^ 2)).sum =
      ∑ x ∈ range (min st.carry.rows st.carry.cols - r), d.s.getD (r + x) 0 ^ 2 := by
    rw [sum_sq_list, List.length_drop, hexact.length_s]
    refine sum_congr rfl fun x _ => ?_
    rw [List.getD_eq_getElem?_getD, List.getElem?_drop, ← List.getD_eq_getElem?_getD]
  have hthin := hexact.thin
  rw [← Nat.add_sub_cancel' hkcols] at hthin
  have htruncate := hthin.sum_sq_truncate fun b q => contractFrom gs b (unflat (nextN :: rest) q)
  rw [hready.cols, hready.rows] at htruncate
  rw [hready.rows, hready.cols] at hdropped
  rw [hready.error_eq, hdropped]
  refine Eq.trans ?_ (htruncate.trans (congrArg₂ (· + ·) ?_ rfl))
  · rw [sum_range_mul]
    refine sum_congr rfl fun a _ => sum_congr rfl fun i _ => sum_congr rfl fun q _ => ?_
    refine congrArg (fun x => (st.carry.get (a * n + i) q - x) ^ 2) ?_
    exact sum_congr rfl fun b hb => by rw [hcore a i b (mem_range.mp hb)]
  · refine sum_congr rfl fun b hb => sum_congr rfl fun q hq => ?_
    rw [hcarry b q (mem_range.mp hb) (mem_range.mp hq)]

omit [LinearOrder K] in
/-- The last core is the carry itself. -/
theorem error_last {st : Sweep K} {n : Nat} (hready : st.Ready n []) :
    ∃ core, st.carry.toCore st.rPrev n 1 = some core ∧ core.left = st.rPrev ∧ core.site = n ∧
      core.right = 1 ∧ st.error [n] [core] = 0 := by
  have hcols : st.carry.cols = 1 := hready.cols
  have hsize : st.rPrev * n * 1 = st.carry.size := by
    show _ = st.carry.rows * st.carry.cols
    rw [hready.rows, hcols]
  refine ⟨_, if_pos hsize, rfl, rfl, rfl, ?_⟩
  rw [hready.error_eq]
  refine sum_eq_zero fun a _ => sum_eq_zero fun i _ => sum_eq_zero fun q hq => ?_
  have hq' : q = 0 := Nat.lt_one_iff.mp (mem_range.mp hq)
  have hflat := Mat.flat_mul_add (m := st.carry) (i := a * n + i) (hcols.symm ▸ Nat.zero_lt_one)
  rw [hcols, Nat.add_zero] at hflat
  show (st.carry.get (a * n + i) q -
    ∑ b ∈ range 1, st.carry.flat ((a * n + i) * 1 + b) * 1) ^ 2 = 0
  rw [sum_range_one, Nat.add_zero, hflat, hq', mul_one, sub_self]
  exact zero_pow (Nat.succ_ne_zero 1)

/-! ## The sweep -/

/-- From every state of the loop the sweep returns, and what it drops is the error. -/
theorem sweepFrom_eq (hchi : 1 ≤ chi) {st : Sweep K} {n : Nat} {rest : List Nat}
    (hready : st.Ready n rest)
    (hexact : ∀ a ∈ svdCalls svd chi threshold st n rest, (svd a).IsExact a) :
    ∃ gs bs, sweepFrom svd chi threshold st n rest = some ⟨st.nodes ++ gs, st.bondDims ++ bs,
        st.droppedEnergySq + st.error (n :: rest) gs⟩ ∧
      Train chi st.rPrev (n :: rest) gs bs := by
  induction rest generalizing st n with
  | nil =>
    obtain ⟨core, hcore, hleft, hsite, hright, herror⟩ := error_last hready
    refine ⟨[core], [1], ?_, ?_⟩
    · show finish st n = _
      unfold finish
      rw [hcore, herror, add_zero]
      rfl
    · rw [← hleft, ← hsite, ← hright]
      exact .cons (hright ▸ hchi) (hright ▸ .nil)
  | cons nextN rest ih =>
    have hcall : (svd st.carry).IsExact st.carry := hexact _ List.mem_cons_self
    have hrank := rankOf_le_cols chi threshold (hready.one_le_cols hcall)
    have hstep := sweepStep_eq hready rfl hcall rfl hrank
    have hnext := hready.next (svd st.carry) (rankOf_pos chi threshold (svd st.carry))
    obtain ⟨gs, bs, hrun, htrain⟩ := ih hnext fun a ha => hexact a (by
      unfold svdCalls
      rw [hstep]
      exact List.mem_cons_of_mem _ ha)
    have hle := rankOf_le_chi hchi threshold (svd st.carry)
    generalize rankOf chi threshold (svd st.carry) = r at *
    refine ⟨(svd st.carry).core st.rPrev n r :: gs, r :: bs, ?_, ?_⟩
    · unfold sweepFrom
      rw [hstep, Option.bind_some, hrun, error_step hready hcall hrank]
      simp only [Sweep.next, List.append_assoc, List.singleton_append, Option.some.injEq,
        Result.mk.injEq, true_and]
      ring
    · exact .cons (g := (svd st.carry).core st.rPrev n r) hle htrain

/-- The first turn fails on an array with an empty axis. -/
theorem sweepFrom_eq_none {st : Sweep K} {n : Nat} {rest : List Nat} (hrest : rest.prod = 0)
    (hrows : st.carry.rows = st.rPrev * n) (hpos : 0 < st.carry.rows)
    (hcols : st.carry.cols = rest.prod)
    (hexact : ∀ a ∈ svdCalls svd chi threshold st n rest, (svd a).IsExact a) :
    sweepFrom svd chi threshold st n rest = none := by
  cases rest with
  | nil => exact absurd hrest Nat.one_ne_zero
  | cons nextN rest =>
    have hcall : (svd st.carry).IsExact st.carry := hexact _ List.mem_cons_self
    have hcore : ((svd st.carry).u.takeCols (rankOf chi threshold (svd st.carry))).toCore
        st.rPrev n (rankOf chi threshold (svd st.carry)) = none := by
      refine if_neg ?_
      show _ ≠ (svd st.carry).u.rows * min _ (svd st.carry).u.cols
      rw [hcall.cols_u, hcols, hrest, Nat.min_zero, Nat.min_zero, Nat.mul_zero, ← hrows]
      exact (Nat.mul_pos hpos (rankOf_pos chi threshold _)).ne'
    unfold sweepFrom sweepStep
    simp only [hcore, Option.bind_none]

omit [LinearOrder K] in
theorem distanceSq_eq_error {t : Tensor K} {n : Nat} {rest : List Nat}
    (ht : t.shape = n :: rest) (gs : List (Core K)) :
    distanceSq t gs = (sweepStart (.ofFlat n rest.prod t.data)).error (n :: rest) gs := by
  unfold distanceSq
  rw [sumOver_eq, ht]
  refine Eq.trans ?_ (sum_range_one _).symm
  refine sum_congr rfl fun q hq => ?_
  unfold Tensor.get contract
  rw [ht, flatIndex_unflat (mem_range.mp hq), Nat.zero_mul, Nat.zero_add]
  exact congrArg (fun x => (x - _) ^ 2) (Mat.flat_ofFlat t.data q).symm

omit [Field K] [LinearOrder K] in
theorem firstCarry_eq {t : Tensor K} {n : Nat} {rest : List Nat} (ht : t.shape = n :: rest)
    (hn : 0 < n) : firstCarry t n = some (.ofFlat n rest.prod t.data) := by
  have hdiv : t.shape.prod / n = rest.prod := by
    rw [ht, List.prod_cons, Nat.mul_div_cancel_left _ hn]
  have hprod : n * rest.prod = t.shape.prod := by rw [ht, List.prod_cons]
  unfold firstCarry
  rw [hdiv, if_neg hn.ne', if_pos hprod]

/-- The sweep returns exactly on tensors without an empty axis; the cores have the shapes
of a train with bonds of at most `chi`, and the squared error is at most what was dropped. -/
theorem ttSvdSweep_bound {t : Tensor K} (hshape : t.shape ≠ []) (hchi : 1 ≤ chi)
    (hexact : ExactOn svd chi threshold t) :
    ((ttSvdSweep svd chi threshold t).isSome ↔ ∀ n ∈ t.shape, 0 < n) ∧
      ∀ r, ttSvdSweep svd chi threshold t = some r →
        IsTrain chi t.shape r ∧ distanceSq t r.nodes ≤ r.droppedEnergySq := by
  obtain ⟨n, rest, ht⟩ := List.exists_cons_of_ne_nil hshape
  have hrun : ttSvdSweep svd chi threshold t = (firstCarry t n).bind fun carry =>
      sweepFrom svd chi threshold (sweepStart carry) n rest := by
    unfold ttSvdSweep
    rw [ht]
  -- with an empty axis the sweep fails: at once, or when the first core is shaped
  have hfails : ttSvdSweep svd chi threshold t = none → ¬ (∀ m ∈ t.shape, 0 < m) →
      ((ttSvdSweep svd chi threshold t).isSome ↔ ∀ n ∈ t.shape, 0 < n) ∧
        ∀ r, ttSvdSweep svd chi threshold t = some r →
          IsTrain chi t.shape r ∧ distanceSq t r.nodes ≤ r.droppedEnergySq := by
    intro hnone hzero
    rw [hnone]
    exact ⟨iff_of_false Bool.false_ne_true hzero, fun r hr => nomatch hr⟩
  rcases Nat.eq_zero_or_pos n with rfl | hn
  · refine hfails hrun fun h => ?_
    exact absurd (h 0 (ht ▸ List.mem_cons_self)) (Nat.lt_irrefl 0)
  have hcalls : ∀ a ∈ svdCalls svd chi threshold (sweepStart (.ofFlat n rest.prod t.data)) n rest,
      (svd a).IsExact a := by
    unfold ExactOn at hexact
    rw [ht] at hexact
    exact hexact _ (firstCarry_eq ht hn)
  rw [firstCarry_eq ht hn, Option.bind_some] at hrun
  have hrows : (sweepStart (Mat.ofFlat n rest.prod t.data)).carry.rows = 1 * n := (one_mul n).symm
  rcases Nat.eq_zero_or_pos rest.prod with hrest | hrest
  · refine hfails (hrun.trans (sweepFrom_eq_none hrest hrows hn rfl hcalls)) fun h => ?_
    have hpos : 0 < rest.prod := List.prod_pos_iff_forall_pos_nat.mpr fun m hm =>
      h m (ht ▸ List.mem_cons_of_mem n hm)
    exact absurd hrest hpos.ne'
  · have hpos := List.prod_pos_iff_forall_pos_nat.mp hrest
    obtain ⟨gs, bs, hsome, htrain⟩ :=
      sweepFrom_eq hchi ⟨hrows, rfl, Nat.one_pos, hn, hpos⟩ hcalls
    rw [hrun, hsome, ht]
    refine ⟨iff_of_true rfl (List.forall_mem_cons.mpr ⟨hn, hpos⟩), ?_⟩
    rintro r ⟨⟩
    obtain ⟨hnodes, hbonds⟩ := htrain.lengths
    refine ⟨⟨hnodes, congrArg Nat.succ hbonds, rfl, htrain.last,
      List.forall_mem_cons.mpr ⟨hchi, htrain.bond_le⟩, fun k g hk => htrain.core hk⟩, ?_⟩
    show distanceSq t gs ≤ 0 + _
    rw [distanceSq_eq_error ht, zero_add]

end Step

/-! ## A rotated diagonal -/

def rotated : Tensor ℚ := ⟨[2, 2], fun x => [3, -4 / 5, 4, 3 / 5].getD x 0⟩

def rotatedSvd : Svd ℚ where
  u := .ofFlat 2 2 fun x => [3 / 5, -4 / 5, 4 / 5, 3 / 5].getD x 0
  s := [5, 1]
  vt := .ofFlat 2 2 fun x => [1, 0, 0, 1].getD x 0

theorem isExact_rotatedSvd {carry : Mat ℚ} (h : firstCarry rotated 2 = some carry) :
    rotatedSvd.IsExact carry := by
  cases h
  refine ⟨rfl, rfl, rfl, rfl, rfl, ?_, ?_, ?_, ?_, ?_⟩
  · decide +kernel
  · unfold Truncation.Orthonormal
    decide +kernel
  · unfold Truncation.Orthonormal
    decide +kernel
  · intro b c hbc hc
    have hall : ∀ c < 2, ∀ b ≤ c, rotatedSvd.s.getD c 0 ≤ rotatedSvd.s.getD b 0 := by
      decide +kernel
    exact hall c hc b hbc
  · decide +kernel

/-- With one bond the value 1 is dropped, and the bound holds. -/
theorem ttSvdSweep_rotated :
    ((ttSvdSweep (fun _ => rotatedSvd) 1 (1 / 1000000) rotated).isSome ↔
      ∀ n ∈ rotated.shape, 0 < n) ∧
    ∀ r, ttSvdSweep (fun _ => rotatedSvd) 1 (1 / 1000000) rotated = some r →
      IsTrain 1 rotated.shape r ∧ distanceSq rotated r.nodes ≤ r.droppedEnergySq := by
  refine ttSvdSweep_bound (by decide) le_rfl ?_
  intro carry hcarry a ha
  unfold svdCalls at ha
  cases hstep : sweepStep (fun _ => rotatedSvd) 1 (1 / 1000000) (sweepStart carry) 2 2 with
  | none =>
    rw [hstep, Option.elim_none, List.mem_singleton] at ha
    rw [ha]
    exact isExact_rotatedSvd hcarry
  | some st =>
    rw [hstep, Option.elim_some, svdCalls, List.mem_singleton] at ha
    rw [ha]
    exact isExact_rotatedSvd hcarry

example : (ttSvdSweep (fun _ => rotatedSvd) 1 (1 / 1000000) rotated).map
    (fun r => (r.bondDims, r.droppedEnergySq, distanceSq rotated r.nodes)) =
      some ([1, 1, 1], 1, 1) := by
  decide +kernel

end TensorTrain
end HoloMarket
