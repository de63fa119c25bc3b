import HoloMarket.Core.LobStores
import HoloMarket.Lib.DeviceBuffer
import HoloMarket.Lib.LastWriter
import Mathlib.Algebra.Field.Defs
import Mathlib.Data.List.Induction

/-!
# The book as a memory of slots

The six flattened arrays of the book, read back by instrument, level and side:
every slot holds what the last update addressed to it has left there.
-/

namespace HoloMarket

/-- What an update addresses. -/
structure Slot where
  instrument : Nat
  level : Nat
  side : BookSide
deriving DecidableEq, Repr

theorem BookSide.toNat_lt (side : BookSide) : side.toNat < kSides := by
  cases side <;> decide

theorem BookSide.toNat_inj {side side' : BookSide} (h : side.toNat = side'.toNat) :
    side = side' := by
  cases side <;> cases side' <;> first | rfl | exact absurd h (by decide)

variable {K : Type*}

def LobUpdate.slot (u : LobUpdate K) : Slot :=
  ⟨u.instrumentId.toNat, u.depthLevel.toNat, u.side⟩

namespace LobSoA

/-! ## The accessors -/

/-- `std::span::subspan(instrument_id * depth_, depth_)`. -/
def levels (lob : LobSoA K) (xs : List K) (instrument : Nat) : List K :=
  (xs.drop (instrument * lob.depth)).take lob.depth

def bidPricesOf (lob : LobSoA K) (instrument : Nat) : List K := lob.levels lob.bidPrices instrument

def askPricesOf (lob : LobSoA K) (instrument : Nat) : List K := lob.levels lob.askPrices instrument

def bidQtysOf (lob : LobSoA K) (instrument : Nat) : List K := lob.levels lob.bidQtys instrument

def askQtysOf (lob : LobSoA K) (instrument : Nat) : List K := lob.levels lob.askQtys instrument

def price (lob : LobSoA K) (s : Slot) : Option K :=
  match s.side with
  | .bid => (lob.bidPricesOf s.instrument)[s.level]?
  | .ask => (lob.askPricesOf s.instrument)[s.level]?

def quantity (lob : LobSoA K) (s : Slot) : Option K :=
  match s.side with
  | .bid => (lob.bidQtysOf s.instrument)[s.level]?
  | .ask => (lob.askQtysOf s.instrument)[s.level]?

/-- The number that `apply` keeps for the slot; the array has no accessor. -/
def seqNo (lob : LobSoA K) (s : Slot) : Option UInt32 :=
  if s.level < lob.depth then
    lob.seqNos[s.instrument * lob.depth * kSides + s.level * kSides + s.side.toNat]?
  else
    none

def lastTs (lob : LobSoA K) (instrument : Nat) : Option UInt64 :=
  lob.lastTsNs[instrument]?

section BestLevel
variable [Zero K]

def bestBid (lob : LobSoA K) (instrument : Nat) : K := lob.bidPrices.getD (instrument * lob.depth) 0

def bestAsk (lob : LobSoA K) (instrument : Nat) : K := lob.askPrices.getD (instrument * lob.depth) 0

end BestLevel

def midPrice [DivisionRing K] (lob : LobSoA K) (instrument : Nat) : K :=
  (lob.bestBid instrument + lob.bestAsk instrument) / (2 : Nat)

/-! ## The index formulas -/

section Index

variable {depth i j l m : Nat}

theorem index_inj (hl : l < depth) (hm : m < depth) :
    i * depth + l = j * depth + m ↔ i = j ∧ l = m := by
  refine ⟨Buffer.rowMajor_inj hl hm, ?_⟩
  rintro ⟨rfl, rfl⟩
  rfl

theorem index_lt {n : Nat} (hi : i < n) (hl : l < depth) : i * depth + l < n * depth := by
  calc i * depth + l < i * depth + depth := by omega
    _ = (i + 1) * depth := (Nat.succ_mul i depth).symm
    _ ≤ n * depth := Nat.mul_le_mul_right depth hi

end Index

/-! ## The arrays -/

/-- Every array has a cell for every slot. -/
structure Sized (lob : LobSoA K) : Prop where
  arrays : ∀ a, (lob.arrays.get a).length = lob.nInstruments * lob.depth
  seqNos : lob.seqNos.length = lob.nInstruments * lob.depth * kSides
  lastTsNs : lob.lastTsNs.length = lob.nInstruments

theorem sized_init [NatCast K] (n d : Nat) : (init n d : LobSoA K).Sized where
  arrays a := by cases a <;> exact List.length_replicate
  seqNos := List.length_replicate
  lastTsNs := List.length_replicate

variable {lob : LobSoA K} {u : LobUpdate K}

/-- An accepted update writes one cell in each of four arrays. -/
theorem apply_of_inRange (h : lob.inRange u) :
    lob.apply u =
      match u.side with
      | .bid =>
        { lob with
          bidPrices := lob.bidPrices.set (lob.base u) u.price
          bidQtys := lob.bidQtys.set (lob.base u) u.quantity
          seqNos := lob.seqNos.set (lob.seqBase u) (UInt32.ofNat lob.stats.totalUpdates)
          lastTsNs := lob.lastTsNs.set u.instrumentId.toNat u.timestampNs
          stats := { lob.stats with
            totalUpdates := lob.stats.totalUpdates + 1
            bidUpdates := lob.stats.bidUpdates + 1 }
          seq := lob.seq + 2 }
      | .ask =>
        { lob with
          askPrices := lob.askPrices.set (lob.base u) u.price
          askQtys := lob.askQtys.set (lob.base u) u.quantity
          seqNos := lob.seqNos.set (lob.seqBase u) (UInt32.ofNat lob.stats.totalUpdates)
          lastTsNs := lob.lastTsNs.set u.instrumentId.toNat u.timestampNs
          stats := { lob.stats with
            totalUpdates := lob.stats.totalUpdates + 1
            askUpdates := lob.stats.askUpdates + 1 }
          seq := lob.seq + 2 } := by
  unfold apply
  rw [if_pos h]
  cases hs : u.side <;> simp [Store.all, store, hs, base, seqBase]

theorem apply_of_not_inRange (h : ¬ lob.inRange u) : lob.apply u = lob.drop := by
  unfold apply
  rw [if_neg h]

theorem Sized.apply (h : lob.Sized) (u : LobUpdate K) : (lob.apply u).Sized := by
  have hdims : (lob.apply u).nInstruments = lob.nInstruments ∧
      (lob.apply u).depth = lob.depth := apply_dims
  refine ⟨fun a => ?_, ?_, ?_⟩
  · rw [length_apply, hdims.1, hdims.2]
    exact h.arrays a
  · rw [hdims.1, hdims.2, ← h.seqNos]
    by_cases hu : lob.inRange u
    · rw [apply_of_inRange hu]
      cases u.side <;> exact List.length_set
    · rw [apply_of_not_inRange hu]
      rfl
  · rw [hdims.1, ← h.lastTsNs]
    by_cases hu : lob.inRange u
    · rw [apply_of_inRange hu]
      cases u.side <;> exact List.length_set
    · rw [apply_of_not_inRange hu]
      rfl

/-! ## One update -/

/-- Writing a cell changes the level it belongs to and no other. -/
theorem getElem?_levels_set {xs : List K} {i l : Nat} (hi : i < lob.nInstruments)
    (hl : l < lob.depth) (hx : xs.length = lob.nInstruments * lob.depth) (v : K) (j m : Nat) :
    (lob.levels (xs.set (i * lob.depth + l) v) j)[m]? =
      if i = j ∧ l = m then some v else (lob.levels xs j)[m]? := by
  unfold levels
  by_cases hm : m < lob.depth
  · rw [List.getElem?_take_of_lt hm, List.getElem?_take_of_lt hm, List.getElem?_drop,
      List.getElem?_drop, List.getElem?_set]
    by_cases heq : i = j ∧ l = m
    · rw [if_pos ((index_inj hl hm).mpr heq), if_pos heq, if_pos]
      rw [hx]
      exact index_lt hi hl
    · rw [if_neg (fun h => heq ((index_inj hl hm).mp h)), if_neg heq]
  · have hne : ¬ (i = j ∧ l = m) := by
      rintro ⟨-, rfl⟩
      exact hm hl
    rw [if_neg hne, List.getElem?_eq_none, List.getElem?_eq_none] <;>
      exact Nat.le_trans (List.length_take_le _ _) (Nat.le_of_not_lt hm)

/-- The entry of a slot in a pair of arrays, one for each side. -/
def sided (lob : LobSoA K) (xs : BookSide → List K) (s : Slot) : Option K :=
  (lob.levels (xs s.side) s.instrument)[s.level]?

/-- Writing a cell of the array of the side of an update is a write to its slot. -/
theorem sided_update (h : lob.inRange u) {xs : BookSide → List K}
    (hxs : ∀ side, (xs side).length = lob.nInstruments * lob.depth) (v : K) :
    lob.sided (Function.update xs u.side ((xs u.side).set (lob.base u) v)) =
      Function.update (lob.sided xs) u.slot (some v) := by
  funext ⟨j, m, side⟩
  rw [Function.update_apply]
  unfold sided LobUpdate.slot
  by_cases hside : side = u.side
  · subst hside
    rw [Function.update_self]
    exact (getElem?_levels_set h.1 h.2 (hxs _) v j m).trans (if_congr (by simp [eq_comm]) rfl rfl)
  · rw [Function.update_of_ne hside, if_neg (by simp [hside])]

def prices (lob : LobSoA K) : BookSide → List K
  | .bid => lob.bidPrices
  | .ask => lob.askPrices

def quantities (lob : LobSoA K) : BookSide → List K
  | .bid => lob.bidQtys
  | .ask => lob.askQtys

theorem price_eq_sided (lob : LobSoA K) : lob.price = lob.sided lob.prices := by
  funext ⟨j, m, side⟩
  cases side <;> rfl

theorem quantity_eq_sided (lob : LobSoA K) : lob.quantity = lob.sided lob.quantities := by
  funext ⟨j, m, side⟩
  cases side <;> rfl

/-- An accepted update is a write of its price to its slot. -/
theorem Sized.price_apply (hw : lob.Sized) (h : lob.inRange u) :
    (lob.apply u).price = Function.update lob.price u.slot (some u.price) := by
  have hlen : ∀ side, (lob.prices side).length = lob.nInstruments * lob.depth := by
    intro side
    cases side
    · exact hw.arrays .bidPrices
    · exact hw.arrays .askPrices
  rw [price_eq_sided, price_eq_sided, ← sided_update h hlen, apply_of_inRange h]
  funext ⟨j, m, side⟩
  cases u.side <;> cases side <;> rfl

theorem Sized.quantity_apply (hw : lob.Sized) (h : lob.inRange u) :
    (lob.apply u).quantity = Function.update lob.quantity u.slot (some u.quantity) := by
  have hlen : ∀ side, (lob.quantities side).length = lob.nInstruments * lob.depth := by
    intro side
    cases side
    · exact hw.arrays .bidQtys
    · exact hw.arrays .askQtys
  rw [quantity_eq_sided, quantity_eq_sided, ← sided_update h hlen, apply_of_inRange h]
  funext ⟨j, m, side⟩
  cases u.side <;> cases side <;> rfl

/-- Its number is the count of the updates accepted before it. -/
theorem Sized.seqNo_apply (hw : lob.Sized) (h : lob.inRange u) :
    (lob.apply u).seqNo =
      Function.update lob.seqNo u.slot (some (UInt32.ofNat lob.stats.totalUpdates)) := by
  have hseq : (lob.apply u).seqNos =
      lob.seqNos.set (lob.seqBase u) (UInt32.ofNat lob.stats.totalUpdates) := by
    rw [apply_of_inRange h]
    cases u.side <;> rfl
  have hindex : ∀ i l k, i * lob.depth * kSides + l * kSides + k =
      (i * lob.depth + l) * kSides + k := fun i l k => by rw [Nat.add_mul]
  have hdepth : (lob.apply u).depth = lob.depth := apply_dims.2
  funext ⟨j, m, side⟩
  rw [Function.update_apply]
  unfold seqNo LobUpdate.slot
  rw [hseq, hdepth]
  by_cases hm : m < lob.depth
  · rw [if_pos hm, if_pos hm, List.getElem?_set]
    unfold seqBase
    rw [hindex, hindex]
    by_cases heq : Slot.mk j m side = ⟨u.instrumentId.toNat, u.depthLevel.toNat, u.side⟩
    · cases heq
      rw [if_pos rfl, if_pos rfl, if_pos]
      rw [hw.seqNos]
      exact index_lt (index_lt h.1 h.2) (BookSide.toNat_lt _)
    · rw [if_neg heq, if_neg]
      intro hbase
      obtain ⟨hslot, hside⟩ :=
        (index_inj (BookSide.toNat_lt _) (BookSide.toNat_lt _)).mp hbase
      obtain ⟨hi, hl⟩ := (index_inj h.2 hm).mp hslot
      exact heq (by rw [hi, hl, BookSide.toNat_inj hside])
  · rw [if_neg hm, if_neg hm, if_neg]
    intro heq
    cases heq
    exact hm h.2

theorem Sized.lastTs_apply (hw : lob.Sized) (h : lob.inRange u) :
    (lob.apply u).lastTs =
      Function.update lob.lastTs u.instrumentId.toNat (some u.timestampNs) := by
  have hts : (lob.apply u).lastTsNs = lob.lastTsNs.set u.instrumentId.toNat u.timestampNs := by
    rw [apply_of_inRange h]
    cases u.side <;> rfl
  funext j
  rw [Function.update_apply]
  unfold lastTs
  rw [hts, List.getElem?_set]
  by_cases hj : u.instrumentId.toNat = j
  · rw [if_pos hj, if_pos hj.symm, if_pos]
    rw [hw.lastTsNs]
    exact h.1
  · rw [if_neg hj, if_neg (Ne.symm hj)]

/-- A dropped update, or one addressed elsewhere, leaves a slot as it was. -/
theorem Sized.apply_other (hw : lob.Sized) {s : Slot} (h : lob.inRange u → u.slot ≠ s) :
    (lob.apply u).price s = lob.price s ∧ (lob.apply u).quantity s = lob.quantity s ∧
      (lob.apply u).seqNo s = lob.seqNo s := by
  by_cases hu : lob.inRange u
  · have hne := (h hu).symm
    rw [hw.price_apply hu, hw.quantity_apply hu, hw.seqNo_apply hu]
    exact ⟨Function.update_of_ne hne _ _, Function.update_of_ne hne _ _,
      Function.update_of_ne hne _ _⟩
  · rw [apply_of_not_inRange hu]
    exact ⟨rfl, rfl, rfl⟩

theorem Sized.lastTs_other (hw : lob.Sized) {i : Nat}
    (h : lob.inRange u → u.instrumentId.toNat ≠ i) :
    (lob.apply u).lastTs i = lob.lastTs i := by
  by_cases hu : lob.inRange u
  · rw [hw.lastTs_apply hu]
    exact Function.update_of_ne (h hu).symm _ _
  · rw [apply_of_not_inRange hu]
    rfl

/-! ## Runs -/

/-- The updates that are accepted, each with its number. -/
def numbered (lob : LobSoA K) (calls : List (LobUpdate K)) : List (LobUpdate K × Nat) :=
  (calls.filter fun u => lob.inRange u).zipIdx

theorem numbered_concat (lob : LobSoA K) (calls : List (LobUpdate K)) (u : LobUpdate K) :
    lob.numbered (calls ++ [u]) =
      if lob.inRange u then lob.numbered calls ++ [(u, accepted lob calls)]
      else lob.numbered calls := by
  unfold numbered accepted
  rw [List.filter_append, List.countP_eq_length_filter]
  by_cases h : lob.inRange u
  · simp [h, List.zipIdx_append]
  · simp [h]

theorem Sized.foldl_apply (hw : lob.Sized) (calls : List (LobUpdate K)) :
    (calls.foldl LobSoA.apply lob).Sized := by
  induction calls generalizing lob with
  | nil => exact hw
  | cons u calls ih => exact ih (hw.apply u)

/-- A part of the book that accepted updates write and dropped ones leave alone holds
what the last accepted update addressed to a place has left there. -/
theorem Sized.foldl_view {α V : Type*} [DecidableEq α] (hw : lob.Sized)
    (hzero : lob.stats.totalUpdates = 0) (view : LobSoA K → α → V) (addr : LobUpdate K → α)
    (val : LobUpdate K × Nat → V)
    (hview : ∀ {lob : LobSoA K} {u}, lob.Sized → lob.inRange u →
      view (lob.apply u) = Function.update (view lob) (addr u) (val (u, lob.stats.totalUpdates)))
    (hdrop : ∀ lob : LobSoA K, view lob.drop = view lob) (calls : List (LobUpdate K)) :
    view (calls.foldl LobSoA.apply lob) =
      heldAt (fun w => addr w.1) val (lob.numbered calls) (view lob) := by
  induction calls using List.reverseRecOn with
  | nil => rfl
  | append_singleton calls u ih =>
    have hrange : (calls.foldl LobSoA.apply lob).inRange u ↔ lob.inRange u :=
      inRange_congr (foldl_apply_dims calls).1 (foldl_apply_dims calls).2
    rw [List.foldl_append, List.foldl_cons, List.foldl_nil, numbered_concat]
    by_cases hu : lob.inRange u
    · rw [if_pos hu, hview (hw.foldl_apply calls) (hrange.mpr hu), heldAt_concat, ih,
        foldl_apply_total, hzero, Nat.zero_add]
    · rw [if_neg hu, apply_of_not_inRange (fun h => hu (hrange.mp h)), hdrop, ih]

theorem apply_counters (lob : LobSoA K) (u : LobUpdate K) :
    (lob.apply u).stats.bidUpdates + (lob.apply u).stats.askUpdates + lob.stats.totalUpdates =
        lob.stats.bidUpdates + lob.stats.askUpdates + (lob.apply u).stats.totalUpdates ∧
      (lob.apply u).stats.totalUpdates + (lob.apply u).stats.droppedUpdates =
        lob.stats.totalUpdates + lob.stats.droppedUpdates + 1 := by
  by_cases hu : lob.inRange u
  · rw [apply_of_inRange hu]
    cases u.side
    · constructor <;> simp only [] <;> omega
    · constructor <;> simp only [] <;> omega
  · rw [apply_of_not_inRange hu]
    exact ⟨rfl, rfl⟩

theorem foldl_apply_counters (lob : LobSoA K) (calls : List (LobUpdate K)) :
    let after := calls.foldl LobSoA.apply lob
    after.stats.bidUpdates + after.stats.askUpdates + lob.stats.totalUpdates =
        lob.stats.bidUpdates + lob.stats.askUpdates + after.stats.totalUpdates ∧
      after.stats.totalUpdates + after.stats.droppedUpdates =
        lob.stats.totalUpdates + lob.stats.droppedUpdates + calls.length := by
  induction calls generalizing lob with
  | nil => exact ⟨rfl, rfl⟩
  | cons u calls ih =>
    have hone := apply_counters lob u
    have hrest := ih (lob.apply u)
    rw [List.foldl_cons, List.length_cons]
    simp only at hrest ⊢
    constructor <;> omega

/-- The book `lob` after `calls`, on a book of `n` instruments and `d` levels. -/
structure LastWriterWins [NatCast K] (n d : Nat) (calls : List (LobUpdate K))
    (lob : LobSoA K) : Prop where
  price : ∀ s : Slot, s.instrument < n → s.level < d → lob.price s =
    some (heldAt (fun w => w.1.slot) (fun w => w.1.price) ((init n d).numbered calls)
      (fun _ => ((100 : Nat) : K)) s)
  quantity : ∀ s : Slot, s.instrument < n → s.level < d → lob.quantity s =
    some (heldAt (fun w => w.1.slot) (fun w => w.1.quantity) ((init n d).numbered calls)
      (fun _ => ((0 : Nat) : K)) s)
  seqNo : ∀ s : Slot, s.instrument < n → s.level < d → lob.seqNo s =
    some (heldAt (fun w => w.1.slot) (fun w => UInt32.ofNat w.2) ((init n d).numbered calls)
      (fun _ => kInvalidSeq) s)
  lastTs : ∀ i < n, lob.lastTs i =
    some (heldAt (fun w => w.1.instrumentId.toNat) (fun w => w.1.timestampNs)
      ((init n d).numbered calls) (fun _ => 0) i)
  otherSlots : ∀ u s, (lob.inRange u → u.slot ≠ s) →
    (lob.apply u).price s = lob.price s ∧ (lob.apply u).quantity s = lob.quantity s ∧
      (lob.apply u).seqNo s = lob.seqNo s
  otherTs : ∀ u i, (lob.inRange u → u.instrumentId.toNat ≠ i) →
    (lob.apply u).lastTs i = lob.lastTs i
  total : lob.stats.totalUpdates = lob.stats.bidUpdates + lob.stats.askUpdates
  callCount : lob.stats.totalUpdates + lob.stats.droppedUpdates = calls.length
  seq : lob.seq = 2 * lob.stats.totalUpdates

theorem levels_replicate [NatCast K] {n d i l : Nat} (hi : i < n) (hl : l < d) (v : K) :
    ((init n d : LobSoA K).levels (List.replicate (n * d) v) i)[l]? = some v := by
  have hcell : (((List.replicate (n * d) v).drop (i * d)).take d)[l]? = some v := by
    rw [List.getElem?_take_of_lt hl, List.getElem?_drop]
    exact List.getElem?_replicate_of_lt (index_lt hi hl)
  exact hcell

theorem price_init [NatCast K] {n d : Nat} {s : Slot} (hi : s.instrument < n)
    (hl : s.level < d) : (init n d : LobSoA K).price s = some ((100 : Nat) : K) := by
  unfold price
  cases s.side <;> exact levels_replicate hi hl _

theorem quantity_init [NatCast K] {n d : Nat} {s : Slot} (hi : s.instrument < n)
    (hl : s.level < d) : (init n d : LobSoA K).quantity s = some ((0 : Nat) : K) := by
  unfold quantity
  cases s.side <;> exact levels_replicate hi hl _

theorem seqNo_init [NatCast K] {n d : Nat} {s : Slot} (hi : s.instrument < n)
    (hl : s.level < d) : (init n d : LobSoA K).seqNo s = some kInvalidSeq := by
  unfold seqNo
  rw [if_pos (show s.level < (init n d : LobSoA K).depth from hl)]
  refine List.getElem?_replicate_of_lt ?_
  show s.instrument * d * kSides + s.level * kSides + s.side.toNat < n * d * kSides
  rw [← Nat.add_mul]
  exact index_lt (index_lt hi hl) (BookSide.toNat_lt _)

/-- For every shape of the book and every sequence of updates. -/
theorem lob_last_writer_wins [NatCast K] (n d : Nat) (calls : List (LobUpdate K)) :
    LastWriterWins n d calls (calls.foldl apply (init n d)) := by
  have hw : (init n d : LobSoA K).Sized := sized_init n d
  have hafter := hw.foldl_apply calls
  obtain ⟨htotal, hcalls⟩ := foldl_apply_counters (init n d) calls
  refine ⟨fun s hi hl => ?_, fun s hi hl => ?_, fun s hi hl => ?_, fun i hi => ?_,
    fun u s => hafter.apply_other, fun u i => hafter.lastTs_other, ?_, ?_, ?_⟩
  · rw [hw.foldl_view rfl price LobUpdate.slot (fun w => some w.1.price)
      (fun hw h => hw.price_apply h) (fun _ => rfl)]
    exact heldAt_map some (price_init hi hl) _
  · rw [hw.foldl_view rfl quantity LobUpdate.slot (fun w => some w.1.quantity)
      (fun hw h => hw.quantity_apply h) (fun _ => rfl)]
    exact heldAt_map some (quantity_init hi hl) _
  · rw [hw.foldl_view rfl seqNo LobUpdate.slot (fun w => some (UInt32.ofNat w.2))
      (fun hw h => hw.seqNo_apply h) (fun _ => rfl)]
    exact heldAt_map some (seqNo_init hi hl) _
  · rw [hw.foldl_view rfl lastTs (fun u => u.instrumentId.toNat)
      (fun w => some w.1.timestampNs) (fun hw h => hw.lastTs_apply h) (fun _ => rfl)]
    have hinit : (init n d : LobSoA K).lastTs i = some 0 := List.getElem?_replicate_of_lt hi
    exact heldAt_map some hinit _
  · simp only [init, Nat.add_zero, Nat.zero_add] at htotal ⊢
    exact htotal.symm
  · simp only [init, Nat.zero_add] at hcalls ⊢
    exact hcalls
  · rw [foldl_apply_seq, foldl_apply_total]
    show 0 + _ = 2 * (0 + _)
    omega

end LobSoA
end HoloMarket
