import HoloMarket.Core.LobCore
import HoloMarket.Lib.Machine

/-!
# The GPU mirror of the book

`gpu_lob_mirror.cu` and `transfer_lob_to_gpu` against the feed thread.  The feed
thread makes the individual stores of `apply`; the pipeline thread loads the
generation, copies the four arrays element by element between two loads of the
sequence counter, and pushes the staging buffers to the device.  An event is the
next step of one of the two, or the call of `apply` that the feed thread enters.
-/

namespace HoloMarket

variable {K : Type*}

def kMaxSeqlockRetries : Nat := 64

structure MirrorMetrics where
  snapshotsTaken : Nat
  retries : Nat
  forcedAfterMaxRetries : Nat
deriving DecidableEq, Repr

structure GpuLobMirror (K : Type*) where
  nFloats : Nat
  stage : BookArrays K
  device : BookArrays K
  generation : Nat
  metrics : MirrorMetrics
deriving DecidableEq, Repr

/-- The elements that the four calls of `memcpy` copy, in order. -/
def memcpySteps (nFloats : Nat) : List (BookArray × Nat) :=
  BookArray.all.flatMap fun a => (List.range nFloats).map fun i => (a, i)

/-- Where `transfer_lob_to_gpu` stands.  `staged` is the return of
`stage_snapshot`, with the number of attempts it made and whether the last was
forced. -/
inductive TransferPc where
  | loadGen
  | skipped (gen : Nat)
  | loadSeq1 (gen attempt : Nat)
  | copy (gen attempt seq1 : Nat) (todo : List (BookArray × Nat))
  | loadSeq2 (gen attempt seq1 : Nat)
  | staged (gen attempts : Nat) (forced : Bool)
  | push (gen : Nat) (forced : Bool) (todo : List BookArray)
deriving DecidableEq, Repr

/-- The retry loop goes on to its next attempt. -/
def MirrorMetrics.retry (m : MirrorMetrics) : MirrorMetrics :=
  { m with retries := m.retries + 1 }

/-- The retry loop is left. -/
def MirrorMetrics.leave (m : MirrorMetrics) (forced : Bool) : MirrorMetrics :=
  { m with
    snapshotsTaken := m.snapshotsTaken + 1
    forcedAfterMaxRetries := m.forcedAfterMaxRetries + forced.toNat }

/-- The pipeline thread: the mirror and `last_lob_generation_`. -/
structure Transfer (K : Type*) where
  mirror : GpuLobMirror K
  lastLobGeneration : Nat
  pc : TransferPc
deriving DecidableEq, Repr

namespace Transfer

/-- One element of the staging buffers. -/
def copyElement (t : Transfer K) (lob : LobSoA K) (a : BookArray) (i : Nat) : BookArrays K :=
  match (lob.arrays.get a)[i]? with
  | none => t.mirror.stage
  | some x => t.mirror.stage.put ((t.mirror.stage.get a).set i x) a

/-- One step of `transfer_lob_to_gpu` and of what it calls. -/
def step (t : Transfer K) (lob : LobSoA K) : Transfer K :=
  match t.pc with
  | .loadGen =>
    let gen := lob.stats.totalUpdates
    { t with pc := if gen = t.lastLobGeneration then .skipped gen else .loadSeq1 gen 0 }
  | .skipped _ => { t with pc := .loadGen }
  | .loadSeq1 gen attempt =>
    let seq1 := lob.seq
    if seq1 % 2 = 0 ∨ kMaxSeqlockRetries ≤ attempt then
      { t with pc := .copy gen attempt seq1 (memcpySteps t.mirror.nFloats) }
    else
      { t with
        mirror := { t.mirror with metrics := t.mirror.metrics.retry }
        pc := .loadSeq1 gen (attempt + 1) }
  | .copy gen attempt seq1 [] => { t with pc := .loadSeq2 gen attempt seq1 }
  | .copy gen attempt seq1 ((a, i) :: todo) =>
    { t with
      mirror := { t.mirror with stage := t.copyElement lob a i }
      pc := .copy gen attempt seq1 todo }
  | .loadSeq2 gen attempt seq1 =>
    let seq2 := lob.seq
    if kMaxSeqlockRetries ≤ attempt ∧ (seq1 % 2 ≠ 0 ∨ seq1 ≠ seq2) then
      { t with
        mirror := { t.mirror with metrics := t.mirror.metrics.leave true }
        pc := .staged gen (attempt + 1) true }
    else if seq1 % 2 = 0 ∧ seq1 = seq2 then
      { t with
        mirror := { t.mirror with metrics := t.mirror.metrics.leave false }
        pc := .staged gen (attempt + 1) false }
    else
      { t with
        mirror := { t.mirror with metrics := t.mirror.metrics.retry }
        pc := .loadSeq1 gen (attempt + 1) }
  | .staged gen _ forced => { t with pc := .push gen forced BookArray.all }
  | .push gen forced (a :: todo) =>
    { t with
      mirror := { t.mirror with
        device := t.mirror.device.put (t.mirror.stage.get a) a }
      pc := .push gen forced todo }
  | .push gen _ [] =>
    { t with
      mirror := { t.mirror with generation := gen }
      lastLobGeneration := gen
      pc := .loadGen }

end Transfer

/-- The feed thread: the book, the call of `apply` in flight with the stores it
has yet to make, and the calls that are complete. -/
structure Feed (K : Type*) where
  lob : LobSoA K
  running : Option (LobUpdate K × List LobSoA.Store)
  completed : List (LobUpdate K)
deriving DecidableEq, Repr

namespace Feed

/-- The thread enters `apply`; an update outside the book is dropped at once. -/
def enter (f : Feed K) (u : LobUpdate K) : Option (Feed K) :=
  match f.running with
  | some _ => none
  | none =>
    if f.lob.inRange u then some { f with running := some (u, LobSoA.Store.all) }
    else some { f with lob := f.lob.drop, completed := f.completed ++ [u] }

/-- The next store of the call in flight. -/
def store (f : Feed K) : Option (Feed K) :=
  match f.running with
  | some (u, [st]) =>
    some { lob := f.lob.store u st, running := none, completed := f.completed ++ [u] }
  | some (u, st :: rest) => some { f with lob := f.lob.store u st, running := some (u, rest) }
  | _ => none

end Feed

structure MirrorState (K : Type*) where
  feed : Feed K
  transfer : Transfer K
deriving DecidableEq, Repr

inductive MirrorEvent (K : Type*) where
  | apply (u : LobUpdate K)
  | store
  | transfer
deriving DecidableEq, Repr

namespace MirrorState

/-- A fresh book and a fresh mirror; the staging buffers hold anything. -/
def init [NatCast K] (nInstruments depth : Nat) (pinned : BookArray → Nat → K) :
    MirrorState K where
  feed := ⟨.init nInstruments depth, none, []⟩
  transfer :=
    { mirror :=
        { nFloats := nInstruments * depth
          stage := .ofFn fun a => (List.range (nInstruments * depth)).map (pinned a)
          device := .ofFn fun _ => List.replicate (nInstruments * depth) ((0 : Nat) : K)
          generation := 0
          metrics := ⟨0, 0, 0⟩ }
      lastLobGeneration := 0
      pc := .loadGen }

def step (s : MirrorState K) : MirrorEvent K → Option (MirrorState K)
  | .apply u => (s.feed.enter u).map fun f => { s with feed := f }
  | .store => s.feed.store.map fun f => { s with feed := f }
  | .transfer => some { s with transfer := s.transfer.step s.feed.lob }

end MirrorState
end HoloMarket
