import Mathlib.Algebra.Field.Defs
import Mathlib.Algebra.Group.Nat.Defs
import Mathlib.Algebra.Order.Group.Unbundled.Abs
import Mathlib.Logic.Function.Basic
import HoloMarket.Lib.SlotOrder

/-!
# The Floer pass

`floer_homology.cu` in exact arithmetic: critical points of the curl on the
edges, instantons between critical points of different Morse index, the boundary
matrix modulo 2, and the ranks read off it.  As in the Hodge kernels, the order
in which threads obtain slots from an atomic counter is a parameter.
-/

namespace HoloMarket

def kFloerMaxCriticals : Nat := 256

/-- The capacity of `d_instantons`. -/
def kFloerMaxInstantons : Nat := kFloerMaxCriticals * kFloerMaxCriticals

inductive MorseIndex where
  | minimum
  | saddle
  | maximum
deriving DecidableEq, Repr

def MorseIndex.toNat : MorseIndex → Nat
  | .minimum => 0
  | .saddle => 1
  | .maximum => 2

structure CriticalPoint (K : Type*) where
  edgeIdx : Nat
  action : K
  curlMagnitude : K
  morseIndex : MorseIndex
  selfDual : Bool
deriving DecidableEq, Repr

structure InstantonPath (K : Type*) where
  srcCritical : Int
  dstCritical : Int
  pathAction : K
  selfDualResidual : K
  valid : Bool
deriving DecidableEq, Repr

structure FloerRecord (K : Type*) where
  entrySignal : MorseIndex
  instantonFound : Bool
  entryAction : K
  exitAction : K
  instantonLength : K
  rankHF0 : Int
  rankHF1 : Int
  rankHF2 : Int
  eulerCharacteristic : Int
  nCriticals : Nat
  nInstantons : Nat
  meanSelfDualResidual : K
deriving DecidableEq, Repr

section
variable {K : Type*} [Field K] [LinearOrder K]

/-- A value-initialised record. -/
def FloerRecord.blank : FloerRecord K where
  entrySignal := .saddle
  instantonFound := false
  entryAction := 0
  exitAction := 0
  instantonLength := 0
  rankHF0 := 0
  rankHF1 := 0
  rankHF2 := 0
  eulerCharacteristic := 0
  nCriticals := 0
  nInstantons := 0
  meanSelfDualResidual := 0

/-! ## Critical points -/

def kInstantonThreshold : K := 1 / 1000

def kSelfDualTolerance : K := 15 / 100

def kSaddleBand : K := 5 / 100

/-- The edges other than `e` that meet the edge from `src` to `dst`. -/
def neighbours (edges : List (Nat × Nat)) (e src dst : Nat) : List Nat :=
  (edges.zipIdx.filter fun f => decide (f.2 ≠ e) &&
    decide (f.1.1 = src ∨ f.1.2 = dst ∨ f.1.1 = dst ∨ f.1.2 = src)).map Prod.snd

def morseOf (hessian : K) : MorseIndex :=
  if kSaddleBand < hessian then .maximum
  else if hessian < -kSaddleBand then .minimum
  else .saddle

/-- What thread `e` of `kernel_find_critical_points` appends. -/
def kernelFindCriticalPoints (curlMagnitude curlCoexact : Nat → K) (edges : List (Nat × Nat))
    (ymAction : K) (e : Nat) : List (CriticalPoint K) :=
  match edges[e]? with
  | none => []
  | some (src, dst) =>
    let curlE := curlMagnitude e
    let near := neighbours edges e src dst
    if curlE < kInstantonThreshold then []
    else if near.length = 0 then []
    else
      let avgNeighbour := (near.map curlMagnitude).sum / near.length
      let selfDualDev := |curlCoexact e - curlE| / (curlE + 1 / 100000000)
      [{ edgeIdx := e
         action :=
           curlE * curlE / ((2 : Nat) * (314159265 / 100000000) * (ymAction + 1 / 100000000))
         curlMagnitude := curlE
         morseIndex := morseOf (curlE - avgNeighbour)
         selfDual := decide (selfDualDev < kSelfDualTolerance) }]

/-- The slots of `d_criticals` in the order the counter handed them out. -/
def CriticalSlots (curlMagnitude curlCoexact : Nat → K) (edges : List (Nat × Nat)) (ymAction : K)
    (slots : List (CriticalPoint K)) : Prop :=
  SlotOrder CriticalPoint.edgeIdx
    (kernelFindCriticalPoints curlMagnitude curlCoexact edges ymAction) slots

/-! ## Instantons -/

/-- `sqrtf` is the device's square root. -/
def instantonFrom (sqrtf : K → K) (curlMagnitude curlCoexact : Nat → K) (srcIdx dstIdx : Nat)
    (src dst : CriticalPoint K) : InstantonPath K where
  srcCritical := srcIdx
  dstCritical := dstIdx
  pathAction := sqrtf (src.action * dst.action + 1 / 10000000000)
  selfDualResidual := |curlCoexact src.edgeIdx + curlCoexact dst.edgeIdx| /
    (curlMagnitude src.edgeIdx + curlMagnitude dst.edgeIdx + 1 / 100000000)
  valid := true

/-- What thread `tid` of `kernel_find_instantons` appends: the thread looks at
one pair `i < j`, and the source is the one of lower index. -/
def kernelFindInstantons (sqrtf : K → K) (curlMagnitude curlCoexact : Nat → K)
    (criticals : List (CriticalPoint K)) (tid : Nat) : List (InstantonPath K) :=
  let n := criticals.length
  let i := tid / n
  let j := tid % n
  if n * n ≤ tid then []
  else if j ≤ i then []
  else
    match criticals[i]?, criticals[j]? with
    | some cpI, some cpJ =>
      if cpI.morseIndex.toNat < cpJ.morseIndex.toNat then
        [instantonFrom sqrtf curlMagnitude curlCoexact i j cpI cpJ]
      else if cpJ.morseIndex.toNat < cpI.morseIndex.toNat then
        [instantonFrom sqrtf curlMagnitude curlCoexact j i cpJ cpI]
      else []
    | _, _ => []

/-- The thread that appended an instanton. -/
def InstantonPath.thread (n : Nat) (inst : InstantonPath K) : Nat :=
  (min inst.srcCritical inst.dstCritical).toNat * n +
    (max inst.srcCritical inst.dstCritical).toNat

/-- The slots of `d_instantons` in the order the counter handed them out. -/
def InstantonSlots (sqrtf : K → K) (curlMagnitude curlCoexact : Nat → K)
    (criticals : List (CriticalPoint K)) (slots : List (InstantonPath K)) : Prop :=
  SlotOrder (InstantonPath.thread criticals.length)
    (kernelFindInstantons sqrtf curlMagnitude curlCoexact criticals) slots

/-! ## The boundary matrix -/

def gradeAt (criticals : List (CriticalPoint K)) (i : Nat) : Option MorseIndex :=
  criticals[i]?.map CriticalPoint.morseIndex

/-- The row-major address that the thread of `inst` flips, if it gets that far. -/
def boundaryCell (criticals : List (CriticalPoint K)) (inst : InstantonPath K) : Option Nat :=
  let n := criticals.length
  if inst.valid = false then none
  else if inst.srcCritical < 0 ∨ inst.dstCritical < 0 then none
  else if (n : Int) ≤ inst.srcCritical ∨ (n : Int) ≤ inst.dstCritical then none
  else
    match gradeAt criticals inst.srcCritical.toNat, gradeAt criticals inst.dstCritical.toNat with
    | some srcMorse, some dstMorse =>
      if ((dstMorse.toNat : Int) - srcMorse.toNat).natAbs ≠ 1 then none
      else some (inst.dstCritical.toNat * n + inst.srcCritical.toNat)
    | _, _ => none

/-- `atomicXor` of one thread. -/
def flipCell (mat : Nat → BitVec 32) : Option Nat → Nat → BitVec 32
  | none => mat
  | some a => Function.update mat a (mat a ^^^ 1)

/-- The matrix, cleared before the launch.  The flips of different threads
commute. -/
def kernelBuildFloerBoundary (criticals : List (CriticalPoint K))
    (instantons : List (InstantonPath K)) : Nat → BitVec 32 :=
  instantons.foldl (fun mat inst => flipCell mat (boundaryCell criticals inst)) fun _ => 0

/-! ## Elimination modulo 2 -/

/-- The variables of the loop over the columns. -/
structure Elimination where
  mat : Nat → Nat → BitVec 32
  rank : Nat
  pivotRow : Nat

/-- `mat[r * cols + col] & 1`. -/
def oddAt (mat : Nat → Nat → BitVec 32) (r col : Nat) : Bool :=
  decide (mat r col &&& 1 ≠ 0)

def swapRows (mat : Nat → Nat → BitVec 32) (p q : Nat) : Nat → Nat → BitVec 32 :=
  fun r => if r = p then mat q else if r = q then mat p else mat r

/-- The pivot row is added to every other row that is odd in the column. -/
def clearColumn (mat : Nat → Nat → BitVec 32) (rows pivotRow col : Nat) :
    Nat → Nat → BitVec 32 :=
  fun r c =>
    if r < rows ∧ r ≠ pivotRow ∧ oddAt mat r col then mat r c ^^^ mat pivotRow c else mat r c

/-- One round of the loop over the columns. -/
def eliminateColumn (rows : Nat) (s : Elimination) (col : Nat) : Elimination :=
  if s.pivotRow < rows then
    match (List.range' s.pivotRow (rows - s.pivotRow)).find? fun r => oddAt s.mat r col with
    | none => s
    | some pivot =>
      { mat := clearColumn (swapRows s.mat s.pivotRow pivot) rows s.pivotRow col
        rank := s.rank + 1
        pivotRow := s.pivotRow + 1 }
  else s

/-- The loop over the columns.  Once the pivot row reaches the last row the
remaining rounds do nothing. -/
def eliminated (mat : Nat → Nat → BitVec 32) (rows cols : Nat) : Elimination :=
  (List.range cols).foldl (eliminateColumn rows) ⟨mat, 0, 0⟩

def gaussianRankZ2 (mat : Nat → Nat → BitVec 32) (rows cols : Nat) : Nat :=
  (eliminated mat rows cols).rank

/-! ## The record -/

def nGrade (criticals : List (CriticalPoint K)) (grade : MorseIndex) : Nat :=
  criticals.countP fun cp => decide (cp.morseIndex = grade)

/-- The critical points of one grade, in the order of the list. -/
def gradeIndices (criticals : List (CriticalPoint K)) (grade : MorseIndex) : List Nat :=
  (List.range criticals.length).filter fun i => decide (gradeAt criticals i = some grade)

/-- `sub[ri * c + ci]`, from the rows of one grade and the columns of another. -/
def subBlock (criticals : List (CriticalPoint K)) (boundary : Nat → BitVec 32)
    (rowGrade colGrade : MorseIndex) (ri ci : Nat) : BitVec 32 :=
  match (gradeIndices criticals rowGrade)[ri]?, (gradeIndices criticals colGrade)[ci]? with
  | some i, some j => boundary (i * criticals.length + j)
  | _, _ => 0

/-- `rank_d1` and `rank_d2` are this for two pairs of grades. -/
def blockRank (criticals : List (CriticalPoint K)) (boundary : Nat → BitVec 32)
    (rowGrade colGrade : MorseIndex) : Nat :=
  if 0 < nGrade criticals rowGrade ∧ 0 < nGrade criticals colGrade then
    gaussianRankZ2 (subBlock criticals boundary rowGrade colGrade) (nGrade criticals rowGrade)
      (nGrade criticals colGrade)
  else 0

def rankD1 (criticals : List (CriticalPoint K)) (boundary : Nat → BitVec 32) : Nat :=
  blockRank criticals boundary .minimum .saddle

def rankD2 (criticals : List (CriticalPoint K)) (boundary : Nat → BitVec 32) : Nat :=
  blockRank criticals boundary .saddle .maximum

def clampRank (rank : Int) : Int := if rank < 0 then 0 else rank

/-- The variables of the loop over the instantons. -/
structure PathScan (K : Type*) where
  bestEntry : K
  bestExit : K
  bestLen : K
  totalAsd : K
  any : Bool

def PathScan.next (criticals : List (CriticalPoint K)) (scan : PathScan K)
    (inst : InstantonPath K) : PathScan K :=
  if inst.valid = false then scan
  else if inst.srcCritical < 0 ∨ (criticals.length : Int) ≤ inst.srcCritical then scan
  else if inst.dstCritical < 0 ∨ (criticals.length : Int) ≤ inst.dstCritical then scan
  else
    match criticals[inst.srcCritical.toNat]?, criticals[inst.dstCritical.toNat]? with
    | some s, some d =>
      let entered :=
        if s.morseIndex = .minimum ∧ s.action < scan.bestEntry then
          { scan with bestEntry := s.action, bestLen := inst.pathAction, any := true }
        else scan
      let exited :=
        if d.morseIndex = .maximum ∧ entered.bestExit < d.action then
          { entered with bestExit := d.action }
        else entered
      { exited with totalAsd := exited.totalAsd + inst.selfDualResidual }
    | _, _ => scan

def scanPaths (criticals : List (CriticalPoint K)) (instantons : List (InstantonPath K)) :
    PathScan K :=
  instantons.foldl (PathScan.next criticals) ⟨(10 ^ 30 : Nat), 0, 0, 0, false⟩

def entrySignalOf (hf0 hf1 hf2 : Int) : MorseIndex :=
  if hf2 < hf0 ∧ hf1 < hf0 then .minimum
  else if hf0 < hf2 ∧ hf1 < hf2 then .maximum
  else .saddle

def computeFloerHomology (criticals : List (CriticalPoint K))
    (instantons : List (InstantonPath K)) (boundary : Nat → BitVec 32) : FloerRecord K :=
  if criticals.length = 0 then { FloerRecord.blank with nInstantons := instantons.length }
  else
    let d1 : Int := rankD1 criticals boundary
    let d2 : Int := rankD2 criticals boundary
    let hf0 := clampRank (nGrade criticals .minimum - d1)
    let hf1 := clampRank (nGrade criticals .saddle - d1 - d2)
    let hf2 := clampRank (nGrade criticals .maximum - d2)
    let scan := scanPaths criticals instantons
    { entrySignal := entrySignalOf hf0 hf1 hf2
      instantonFound := scan.any
      entryAction := if scan.bestEntry < (10 ^ 29 : Nat) then scan.bestEntry else 0
      exitAction := scan.bestExit
      instantonLength := scan.bestLen
      rankHF0 := hf0
      rankHF1 := hf1
      rankHF2 := hf2
      eulerCharacteristic := hf0 - hf1 + hf2
      nCriticals := criticals.length
      nInstantons := instantons.length
      meanSelfDualResidual :=
        if 0 < instantons.length then scan.totalAsd / instantons.length else 0 }

/-- The pass over `nEdges` edges, given what the two counters handed out. -/
def runFloerAnalysis (nEdges : Nat) (criticalSlots : List (CriticalPoint K))
    (instantonSlots : List (InstantonPath K)) : FloerRecord K :=
  let criticals := criticalSlots.take kFloerMaxCriticals
  let instantons := instantonSlots.take kFloerMaxInstantons
  if nEdges = 0 then FloerRecord.blank
  else if criticals.length < 2 then { FloerRecord.blank with nCriticals := criticals.length }
  else
    computeFloerHomology criticals instantons (kernelBuildFloerBoundary criticals instantons)

end
end HoloMarket
