import Mathlib.Algebra.Group.Defs
import HoloMarket.Lib.SharedCells
import HoloMarket.Math.FloerHomology

/-!
# Publishing a signal

`record_signal`, `last_signal` and `last_topology` of `cuda_pipeline.cu` and
`cuda_pipeline.cuh`.  The pipeline thread copies the flow and the endpoints of
the edges to three host arrays, runs the Floer pass, writes one slot of the
signal history and increments the index; the elements of one copy, and the
fields of the slot, arrive in any order.  The readers run on another thread.
-/

namespace HoloMarket

open SharedCells

def kSignalHistoryLen : Nat := 1024

/-! ## Records -/

structure ArbitrageSignal (K : Type) where
  harmonicFlow : Nat → K
  curlMagnitude : Nat → K
  yangMillsAction : K
  nActiveLoops : Int
  nEdges : Int
  signalTsNs : Nat

structure SignalRecord (K : Type) where
  timestampNs : Nat
  yangMillsAction : K
  nActiveLoops : Int
  nHarmonicDims : Int
  maxCurl : K
  meanCurl : K
  nEdges : Int
  floerHF0 : Int
  floerHF1 : Int
  floerHF2 : Int
  floerEuler : Int
  floerNInstantons : Int
  floerEntryAction : K
  floerExitAction : K
  floerInstantonLen : K
  floerAsdResidual : K
  floerSignal : Nat
  floerInstantonFound : Bool
deriving DecidableEq, Repr

inductive SignalField where
  | timestampNs
  | yangMillsAction
  | nActiveLoops
  | nHarmonicDims
  | maxCurl
  | meanCurl
  | nEdges
  | floerHF0
  | floerHF1
  | floerHF2
  | floerEuler
  | floerNInstantons
  | floerEntryAction
  | floerExitAction
  | floerInstantonLen
  | floerAsdResidual
  | floerSignal
  | floerInstantonFound
deriving DecidableEq, Repr

namespace SignalField

@[reducible] def Val (K : Type) : SignalField → Type
  | .timestampNs => Nat
  | .yangMillsAction => K
  | .nActiveLoops => Int
  | .nHarmonicDims => Int
  | .maxCurl => K
  | .meanCurl => K
  | .nEdges => Int
  | .floerHF0 => Int
  | .floerHF1 => Int
  | .floerHF2 => Int
  | .floerEuler => Int
  | .floerNInstantons => Int
  | .floerEntryAction => K
  | .floerExitAction => K
  | .floerInstantonLen => K
  | .floerAsdResidual => K
  | .floerSignal => Nat
  | .floerInstantonFound => Bool

def all : List SignalField :=
  [.timestampNs, .yangMillsAction, .nActiveLoops, .nHarmonicDims, .maxCurl, .meanCurl, .nEdges,
    .floerHF0, .floerHF1, .floerHF2, .floerEuler, .floerNInstantons, .floerEntryAction,
    .floerExitAction, .floerInstantonLen, .floerAsdResidual, .floerSignal, .floerInstantonFound]

theorem mem_all (f : SignalField) : f ∈ all := by
  cases f <;> decide

end SignalField

namespace SignalRecord

variable {K : Type}

def field (r : SignalRecord K) : ∀ f : SignalField, f.Val K
  | .timestampNs => r.timestampNs
  | .yangMillsAction => r.yangMillsAction
  | .nActiveLoops => r.nActiveLoops
  | .nHarmonicDims => r.nHarmonicDims
  | .maxCurl => r.maxCurl
  | .meanCurl => r.meanCurl
  | .nEdges => r.nEdges
  | .floerHF0 => r.floerHF0
  | .floerHF1 => r.floerHF1
  | .floerHF2 => r.floerHF2
  | .floerEuler => r.floerEuler
  | .floerNInstantons => r.floerNInstantons
  | .floerEntryAction => r.floerEntryAction
  | .floerExitAction => r.floerExitAction
  | .floerInstantonLen => r.floerInstantonLen
  | .floerAsdResidual => r.floerAsdResidual
  | .floerSignal => r.floerSignal
  | .floerInstantonFound => r.floerInstantonFound

/-- The record with these fields. -/
def ofField (v : ∀ f : SignalField, f.Val K) : SignalRecord K where
  timestampNs := v .timestampNs
  yangMillsAction := v .yangMillsAction
  nActiveLoops := v .nActiveLoops
  nHarmonicDims := v .nHarmonicDims
  maxCurl := v .maxCurl
  meanCurl := v .meanCurl
  nEdges := v .nEdges
  floerHF0 := v .floerHF0
  floerHF1 := v .floerHF1
  floerHF2 := v .floerHF2
  floerEuler := v .floerEuler
  floerNInstantons := v .floerNInstantons
  floerEntryAction := v .floerEntryAction
  floerExitAction := v .floerExitAction
  floerInstantonLen := v .floerInstantonLen
  floerAsdResidual := v .floerAsdResidual
  floerSignal := v .floerSignal
  floerInstantonFound := v .floerInstantonFound

theorem ofField_eq {v : ∀ f : SignalField, f.Val K} {r : SignalRecord K}
    (h : ∀ f, v f = r.field f) : ofField v = r := by
  rw [funext h]
  rfl

/-- A default-constructed record. -/
def blank [Zero K] : SignalRecord K where
  timestampNs := 0
  yangMillsAction := 0
  nActiveLoops := 0
  nHarmonicDims := 0
  maxCurl := 0
  meanCurl := 0
  nEdges := 0
  floerHF0 := 0
  floerHF1 := 0
  floerHF2 := 0
  floerEuler := 0
  floerNInstantons := 0
  floerEntryAction := 0
  floerExitAction := 0
  floerInstantonLen := 0
  floerAsdResidual := 0
  floerSignal := 1
  floerInstantonFound := false

end SignalRecord

/-- What one tick leaves on the device: the signal, the rest of `hodge_ws_` that
`record_signal` reads, and what `run_floer_analysis` returns for it. -/
structure Tick (K : Type) where
  sig : ArbitrageSignal K
  edgeSrc : Nat → Int
  edgeDst : Nat → Int
  nHarmonicDims : Int
  floer : FloerRecord K

/-! ## The host memory that the two threads share -/

inductive HostCell where
  | harmonicOut (e : Nat)
  | edgeSrc (e : Nat)
  | edgeDst (e : Nat)
  | signalHistory (i : Nat) (f : SignalField)
  | signalWriteIdx
deriving DecidableEq, Repr

@[reducible] def HostCell.Val (K : Type) : HostCell → Type
  | .harmonicOut _ => K
  | .edgeSrc _ => Int
  | .edgeDst _ => Int
  | .signalHistory _ f => f.Val K
  | .signalWriteIdx => Nat

/-- The elements below `n` of the three arrays. -/
def HostCell.InArrays (n : Nat) : HostCell → Prop
  | .harmonicOut e => e < n
  | .edgeSrc e => e < n
  | .edgeDst e => e < n
  | .signalHistory _ _ => False
  | .signalWriteIdx => False

abbrev HostMemory (K : Type) : Type := Memory (HostCell.Val K)

abbrev HostAccess (K : Type) : Type := Access (HostCell.Val K)

variable {K : Type}

/-- The memory after construction.  `h_edge_src_` and `h_edge_dst_` are not
cleared. -/
def HostMemory.init [Zero K] (edgeSrc edgeDst : Nat → Int) : HostMemory K
  | .harmonicOut _ => (0 : K)
  | .edgeSrc e => edgeSrc e
  | .edgeDst e => edgeDst e
  | .signalHistory _ f => (SignalRecord.blank : SignalRecord K).field f
  | .signalWriteIdx => (0 : Nat)

/-- What slot `i` of `signal_history_` holds. -/
def HostMemory.slot (m : HostMemory K) (i : Nat) : SignalRecord K :=
  .ofField fun f => m (.signalHistory i f)

/-! ## The writer -/

namespace Tick

/-- The number of elements that each copy moves. -/
def size (t : Tick K) : Nat := t.sig.nEdges.toNat

/-- The three copies into shared arrays, in stream order. -/
def copies (t : Tick K) : List (List (HostAccess K)) :=
  [(List.range t.size).map fun e => ⟨.harmonicOut e, t.sig.harmonicFlow e⟩,
    (List.range t.size).map fun e => ⟨.edgeSrc e, t.edgeSrc e⟩,
    (List.range t.size).map fun e => ⟨.edgeDst e, t.edgeDst e⟩]

section
variable [Zero K] [Add K] [Div K] [IntCast K] [LT K] [DecidableLT K]

def maxCurl (t : Tick K) : K :=
  (List.range t.size).foldl
    (fun best e => if best < t.sig.curlMagnitude e then t.sig.curlMagnitude e else best) 0

def meanCurl (t : Tick K) : K :=
  (List.range t.size).foldl (fun acc e => acc + t.sig.curlMagnitude e) 0 / (t.sig.nEdges : K)

/-- The record that `record_signal` builds and `run_floer_pass` completes. -/
def record (t : Tick K) : SignalRecord K where
  timestampNs := t.sig.signalTsNs
  yangMillsAction := t.sig.yangMillsAction
  nActiveLoops := t.sig.nActiveLoops
  nHarmonicDims := t.nHarmonicDims
  maxCurl := t.maxCurl
  meanCurl := t.meanCurl
  nEdges := t.sig.nEdges
  floerHF0 := t.floer.rankHF0
  floerHF1 := t.floer.rankHF1
  floerHF2 := t.floer.rankHF2
  floerEuler := t.floer.eulerCharacteristic
  floerNInstantons := t.floer.nInstantons
  floerEntryAction := t.floer.entryAction
  floerExitAction := t.floer.exitAction
  floerInstantonLen := t.floer.instantonLength
  floerAsdResidual := t.floer.meanSelfDualResidual
  floerSignal := t.floer.entrySignal.toNat
  floerInstantonFound := t.floer.instantonFound

/-- The memory that the stores of the tick work towards. -/
def memory (t : Tick K) : HostMemory K
  | .harmonicOut e => t.sig.harmonicFlow e
  | .edgeSrc e => t.edgeSrc e
  | .edgeDst e => t.edgeDst e
  | .signalHistory _ f => t.record.field f
  | .signalWriteIdx => (0 : Nat)

/-- The assignment to slot `idx`. -/
def slotStores (t : Tick K) (idx : Nat) : List (HostAccess K) :=
  SignalField.all.map fun f => ⟨.signalHistory idx f, t.record.field f⟩

end
end Tick

/-- Where `record_signal` stands: outside, in the copies, at the load of the
index, in the assignment to the slot, or at the increment. -/
inductive RecordPc (K : Type) where
  | idle
  | copy (t : Tick K) (todo : List (List (HostAccess K)))
  | loadIdx (t : Tick K)
  | slot (t : Tick K) (todo : List (HostAccess K))
  | publish (t : Tick K)

namespace RecordPc

/-- `run_once` once the decomposition is done. -/
def runOnce (t : Tick K) : RecordPc K :=
  if t.sig.nEdges ≤ 0 then .idle else .copy t t.copies

/-- A store to one of the arrays has been made for a record that is not published
yet. -/
def Dirty : RecordPc K → Prop
  | .idle => False
  | .copy t todo => todo.flatten.length < t.copies.flatten.length
  | .loadIdx _ => True
  | .slot _ _ => True
  | .publish _ => True

instance : ∀ pc : RecordPc K, Decidable pc.Dirty
  | .idle => inferInstanceAs (Decidable False)
  | .copy _ _ => inferInstanceAs (Decidable (_ < _))
  | .loadIdx _ => inferInstanceAs (Decidable True)
  | .slot _ _ => inferInstanceAs (Decidable True)
  | .publish _ => inferInstanceAs (Decidable True)

variable [Zero K] [Add K] [Div K] [IntCast K] [LT K] [DecidableLT K]

/-- The next step of `record_signal`, and the tick that it publishes.  Of the
stores that may come next it makes number `n`. -/
def step (m : HostMemory K) (n : Nat) :
    RecordPc K → Option (HostMemory K × RecordPc K × List (Tick K))
  | .idle => none
  | .copy t [] => some (m, .loadIdx t, [])
  | .copy t ([] :: todo) => some (m, .copy t todo, [])
  | .copy t (stage :: todo) =>
    (stage[n]?).map fun a =>
      (Function.update m a.cell a.value, .copy t (stage.eraseIdx n :: todo), [])
  | .loadIdx t => some (m, .slot t (t.slotStores (m .signalWriteIdx % kSignalHistoryLen)), [])
  | .slot t [] => some (m, .publish t, [])
  | .slot t todo =>
    (todo[n]?).map fun a => (Function.update m a.cell a.value, .slot t (todo.eraseIdx n), [])
  | .publish t =>
    some (Function.update m .signalWriteIdx (m .signalWriteIdx + 1 : Nat), .idle, [t])

end RecordPc

/-! ## The readers -/

/-- The slot that `last_signal` reads when the index is `w`. -/
def readIdx (w : Nat) : Nat := (w + kSignalHistoryLen - 1) % kSignalHistoryLen

variable [Zero K]

/-- The copy of one slot, field by field. -/
def readSlot (i : Nat) : Reads (HostCell.Val K) (SignalRecord K) := do
  let fields ← Reads.copy (HostCell.signalHistory i) SignalField.all SignalRecord.blank.field
  return .ofField fields

def lastSignal : Reads (HostCell.Val K) (SignalRecord K) := do
  let writeIdx ← Reads.get .signalWriteIdx
  readSlot (readIdx writeIdx)

/-- The size that `last_topology` gives its three arrays. -/
def lastTopology : Reads (HostCell.Val K) Int := do
  let sig ← lastSignal
  return sig.nEdges

@[simp] theorem readSlot_eval (m : HostMemory K) (i : Nat) : (readSlot i).eval m = m.slot i := by
  rw [readSlot, Reads.eval_bind, Reads.eval_pure]
  exact congrArg SignalRecord.ofField
    (funext fun f => Reads.eval_copy_of_mem (SignalField.mem_all f) m)

theorem readSlot_within (i : Nat) : (readSlot i : Reads (HostCell.Val K) _).Within
    (fun c => ∃ f, c = .signalHistory i f) fun _ => True :=
  (Reads.within_copy (fun f => ⟨f, rfl⟩) _ _).bind fun _ _ => trivial

@[simp] theorem lastSignal_eval (m : HostMemory K) :
    lastSignal.eval m = m.slot (readIdx (m .signalWriteIdx)) := by
  rw [lastSignal, Reads.eval_bind, Reads.eval_get, readSlot_eval]

@[simp] theorem lastTopology_eval (m : HostMemory K) :
    lastTopology.eval m = (m.slot (readIdx (m .signalWriteIdx))).nEdges := by
  rw [lastTopology, Reads.eval_bind, lastSignal_eval, Reads.eval_pure]

end HoloMarket
