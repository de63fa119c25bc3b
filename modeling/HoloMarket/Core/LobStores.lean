import HoloMarket.Core.LobCore
import Mathlib.Data.List.Basic

/-!
# The stores of `apply`

What the individual stores, and the complete calls they make up, do to the
dimensions of the book, the sequence counter, the update count and the length of
the raw arrays.
-/

namespace HoloMarket

variable {K : Type*}

/-- The calls that are not dropped. -/
def accepted (lob : LobSoA K) (calls : List (LobUpdate K)) : Nat :=
  calls.countP fun u => decide (lob.inRange u)

namespace LobSoA

variable {lob : LobSoA K} {u : LobUpdate K}

theorem store_dims (st : Store) :
    (lob.store u st).nInstruments = lob.nInstruments ∧ (lob.store u st).depth = lob.depth := by
  cases st <;> cases hs : u.side <;> simp [store, hs]

theorem store_seq (st : Store) :
    (lob.store u st).seq = lob.seq + if st = .seqBegin ∨ st = .seqEnd then 1 else 0 := by
  cases st <;> cases hs : u.side <;> simp [store, hs]

theorem store_total (st : Store) :
    (lob.store u st).stats.totalUpdates =
      lob.stats.totalUpdates + if st = .totalUpdates then 1 else 0 := by
  cases st <;> cases hs : u.side <;> simp [store, hs]

/-- Only the stores of the price and the quantity touch the mirrored arrays. -/
theorem store_arrays {st : Store} (hst : st ≠ .price ∧ st ≠ .quantity) :
    (lob.store u st).arrays = lob.arrays := by
  cases st <;> cases hs : u.side <;> simp_all [store, arrays]

theorem length_store (st : Store) (a : BookArray) :
    ((lob.store u st).arrays.get a).length = (lob.arrays.get a).length := by
  cases a <;> cases st <;> cases hs : u.side <;> simp [store, arrays, BookArrays.get, hs]

/-! The same over a list of stores. -/

theorem foldl_store_dims (sts : List Store) :
    (sts.foldl (store u) lob).nInstruments = lob.nInstruments ∧
      (sts.foldl (store u) lob).depth = lob.depth := by
  induction sts generalizing lob with
  | nil => exact ⟨rfl, rfl⟩
  | cons st sts ih =>
    have hst : (lob.store u st).nInstruments = lob.nInstruments ∧
        (lob.store u st).depth = lob.depth := store_dims st
    rw [← hst.1, ← hst.2]
    exact ih

theorem foldl_store_seq (sts : List Store) :
    (sts.foldl (store u) lob).seq =
      lob.seq + sts.countP fun st => decide (st = .seqBegin ∨ st = .seqEnd) := by
  induction sts generalizing lob with
  | nil => rfl
  | cons st sts ih =>
    rw [List.foldl_cons, ih, store_seq, List.countP_cons]
    simp only [decide_eq_true_eq]
    omega

theorem foldl_store_total (sts : List Store) :
    (sts.foldl (store u) lob).stats.totalUpdates =
      lob.stats.totalUpdates + sts.countP fun st => decide (st = .totalUpdates) := by
  induction sts generalizing lob with
  | nil => rfl
  | cons st sts ih =>
    rw [List.foldl_cons, ih, store_total, List.countP_cons]
    simp only [decide_eq_true_eq]
    omega

theorem length_foldl_store (sts : List Store) (a : BookArray) :
    ((sts.foldl (store u) lob).arrays.get a).length = (lob.arrays.get a).length := by
  induction sts generalizing lob with
  | nil => rfl
  | cons st sts ih => rw [List.foldl_cons, ih, length_store]

/-! ## Complete calls -/

theorem inRange_congr {lob' : LobSoA K} (hn : lob'.nInstruments = lob.nInstruments)
    (hd : lob'.depth = lob.depth) : lob'.inRange u ↔ lob.inRange u := by
  unfold inRange
  rw [hn, hd]

theorem apply_dims : (lob.apply u).nInstruments = lob.nInstruments ∧
    (lob.apply u).depth = lob.depth := by
  unfold apply
  split
  · exact foldl_store_dims _
  · exact ⟨rfl, rfl⟩

theorem apply_seq :
    (lob.apply u).seq = lob.seq + 2 * if lob.inRange u then 1 else 0 := by
  unfold apply
  split
  · rw [foldl_store_seq]
    rfl
  · rfl

theorem apply_total :
    (lob.apply u).stats.totalUpdates =
      lob.stats.totalUpdates + if lob.inRange u then 1 else 0 := by
  unfold apply
  split
  · rw [foldl_store_total]
    rfl
  · rfl

theorem length_apply (a : BookArray) :
    ((lob.apply u).arrays.get a).length = (lob.arrays.get a).length := by
  unfold apply
  split
  · exact length_foldl_store _ a
  · rfl

section Calls

variable (calls : List (LobUpdate K))

theorem foldl_apply_dims :
    (calls.foldl apply lob).nInstruments = lob.nInstruments ∧
      (calls.foldl apply lob).depth = lob.depth := by
  induction calls generalizing lob with
  | nil => exact ⟨rfl, rfl⟩
  | cons u calls ih =>
    have hu : (lob.apply u).nInstruments = lob.nInstruments ∧
        (lob.apply u).depth = lob.depth := apply_dims
    rw [← hu.1, ← hu.2]
    exact ih

theorem accepted_apply : accepted (lob.apply u) calls = accepted lob calls := by
  unfold accepted
  refine congrArg (fun p => List.countP p calls) (funext fun v => decide_eq_decide.mpr ?_)
  exact inRange_congr apply_dims.1 apply_dims.2

theorem accepted_cons :
    accepted lob (u :: calls) = accepted lob calls + if lob.inRange u then 1 else 0 := by
  unfold accepted
  rw [List.countP_cons]
  simp only [decide_eq_true_eq]

theorem foldl_apply_seq :
    (calls.foldl apply lob).seq = lob.seq + 2 * accepted lob calls := by
  induction calls generalizing lob with
  | nil => rfl
  | cons u calls ih =>
    rw [List.foldl_cons, ih, apply_seq, accepted_apply, accepted_cons]
    omega

theorem foldl_apply_total :
    (calls.foldl apply lob).stats.totalUpdates =
      lob.stats.totalUpdates + accepted lob calls := by
  induction calls generalizing lob with
  | nil => rfl
  | cons u calls ih =>
    rw [List.foldl_cons, ih, apply_total, accepted_apply, accepted_cons]
    omega

theorem length_foldl_apply (a : BookArray) :
    ((calls.foldl apply lob).arrays.get a).length = (lob.arrays.get a).length := by
  induction calls generalizing lob with
  | nil => rfl
  | cons u calls ih => rw [List.foldl_cons, ih, length_apply]

end Calls
end LobSoA
end HoloMarket
