import Mathlib.Algebra.Order.Field.Basic
import Mathlib.Algebra.Order.Ring.Unbundled.Rat
import Mathlib.Algebra.Order.Field.Rat
import Mathlib.Data.List.Induction
import Mathlib.Tactic.FieldSimp
import Mathlib.Tactic.Linarith
import Mathlib.Tactic.Ring
import HoloMarket.Lib.AssocList
import HoloMarket.Net.OmsCore

/-!
# PnlBook: weighted-average-cost positions

`PnlBook` of `execution_engine.hpp` in exact arithmetic: a position per symbol
with its cost basis and its realised PnL.  What the book is for is a plain
ledger, the signed sum of the fills and their cash; `totalPnl_eq` says that
realised and unrealised PnL together are the ledger valued at the marks.
-/

namespace HoloMarket

variable {K : Type*} [Field K]

structure Position (K : Type*) where
  qty : K
  avgPrice : K
  realizedPnl : K
deriving DecidableEq, Repr

namespace Position

/-- `Position{}`. -/
def flat : Position K := { qty := 0, avgPrice := 0, realizedPnl := 0 }

/-- Realised PnL plus the open quantity marked at `m`. -/
def worth (pos : Position K) (m : K) : K := pos.realizedPnl + (m - pos.avgPrice) * pos.qty

@[simp] theorem worth_flat (m : K) : (flat : Position K).worth m = 0 := by
  simp [worth, flat]

variable [LinearOrder K]

/-- The body of `apply_fill` once the position of the symbol is at hand. -/
def fill (pos : Position K) (signedDelta fillPrice : K) : Position K :=
  if pos.qty = 0 ∨ (0 < pos.qty ↔ 0 < signedDelta) then
    let newQty := pos.qty + signedDelta
    { pos with
      avgPrice :=
        if pos.qty = 0 then fillPrice
        else (pos.avgPrice * |pos.qty| + fillPrice * |signedDelta|) / |newQty|
      qty := newQty }
  else
    let closingQty := min |signedDelta| |pos.qty|
    let dirSign : K := if 0 < pos.qty then 1 else -1
    let newQty := pos.qty + signedDelta
    { realizedPnl := pos.realizedPnl + dirSign * (fillPrice - pos.avgPrice) * closingQty
      avgPrice :=
        if newQty = 0 then 0
        else if ¬(0 < newQty ↔ 0 < pos.qty) then fillPrice
        else pos.avgPrice
      qty := newQty }

@[simp] theorem fill_qty (pos : Position K) (d p : K) : (pos.fill d p).qty = pos.qty + d := by
  unfold fill
  split_ifs <;> rfl

variable [IsStrictOrderedRing K]

/-- Adding to a position (or opening one) leaves realised PnL alone and moves
the cost basis so that its cost grows by the cost of the fill. -/
theorem worth_fill_open {pos : Position K} {d : K} (p m : K) (hd : d ≠ 0)
    (h : pos.qty = 0 ∨ (0 < pos.qty ↔ 0 < d)) :
    (pos.fill d p).worth m = pos.worth m + d * (m - p) := by
  unfold fill
  rw [if_pos h]
  simp only [worth]
  by_cases hq : pos.qty = 0
  · rw [if_pos hq, hq]
    ring
  · rw [if_neg hq]
    have hside := h.resolve_left hq
    rcases lt_or_gt_of_ne hq with hneg | hpos
    · have hdneg : d < 0 := by
        refine lt_of_le_of_ne (not_lt.mp fun hd' => ?_) hd
        exact absurd (hside.mpr hd') (not_lt.mpr hneg.le)
      have hsum : pos.qty + d < 0 := by linarith
      have hne : pos.qty + d ≠ 0 := hsum.ne
      rw [abs_of_neg hneg, abs_of_neg hdneg, abs_of_neg hsum]
      field_simp
      ring
    · have hdpos : 0 < d := hside.mp hpos
      have hsum : 0 < pos.qty + d := by linarith
      have hne : pos.qty + d ≠ 0 := hsum.ne'
      rw [abs_of_pos hpos, abs_of_pos hdpos, abs_of_pos hsum]
      field_simp
      ring

/-- Reducing, closing or reversing: what is closed moves from unrealised to
realised PnL, and a residual beyond it opens at the fill price. -/
theorem worth_fill_close {pos : Position K} {d : K} (p m : K) (hd : d ≠ 0)
    (h : ¬(pos.qty = 0 ∨ (0 < pos.qty ↔ 0 < d))) :
    (pos.fill d p).worth m = pos.worth m + d * (m - p) := by
  have hq : pos.qty ≠ 0 := fun e => h (Or.inl e)
  have hside : ¬(0 < pos.qty ↔ 0 < d) := fun e => h (Or.inr e)
  unfold fill
  rw [if_neg h]
  simp only [worth]
  rcases lt_or_gt_of_ne hq with hneg | hpos
  · have hn : ¬0 < pos.qty := not_lt.mpr hneg.le
    have hdpos : 0 < d := by
      by_contra hd'
      exact hside ⟨fun e => absurd e hn, fun e => absurd e hd'⟩
    rw [if_neg hn, abs_of_neg hneg, abs_of_pos hdpos]
    rcases lt_trichotomy (pos.qty + d) 0 with hs | hs | hs
    · rw [if_neg hs.ne, min_eq_left (by linarith : d ≤ -pos.qty),
        if_neg (not_not.mpr ⟨fun e => absurd e (not_lt.mpr hs.le), fun e => absurd e hn⟩)]
      ring
    · rw [if_pos hs, min_eq_left (by linarith : d ≤ -pos.qty)]
      have hd' : d = -pos.qty := by linarith
      rw [hd']
      ring
    · rw [if_neg hs.ne', min_eq_right (by linarith : -pos.qty ≤ d),
        if_pos (fun e => hn (e.mp hs))]
      ring
  · have hdneg : d < 0 := by
      refine lt_of_le_of_ne (not_lt.mp fun hd' => ?_) hd
      exact hside ⟨fun _ => hd', fun _ => hpos⟩
    rw [if_pos hpos, abs_of_pos hpos, abs_of_neg hdneg]
    rcases lt_trichotomy (pos.qty + d) 0 with hs | hs | hs
    · rw [if_neg hs.ne, min_eq_right (by linarith : pos.qty ≤ -d),
        if_pos (fun e => absurd (e.mpr hpos) (not_lt.mpr hs.le))]
      ring
    · rw [if_pos hs, min_eq_left (by linarith : -d ≤ pos.qty)]
      have hd' : d = -pos.qty := by linarith
      rw [hd']
      ring
    · rw [if_neg hs.ne', min_eq_left (by linarith : -d ≤ pos.qty),
        if_neg (not_not.mpr ⟨fun _ => hpos, fun _ => hs⟩)]
      ring

/-- Whatever the fill does to the position, its worth changes by the fill's own
gain at the mark. -/
theorem worth_fill (pos : Position K) {d : K} (p m : K) (hd : d ≠ 0) :
    (pos.fill d p).worth m = pos.worth m + d * (m - p) := by
  by_cases h : pos.qty = 0 ∨ (0 < pos.qty ↔ 0 < d)
  · exact worth_fill_open p m hd h
  · exact worth_fill_close p m hd h

end Position

/-- The map `book_` from symbols to positions. -/
structure PnlBook (K : Type*) where
  book : AList fun _ : String => Position K

namespace PnlBook

def init : PnlBook K := { book := ∅ }

/-- `book_[symbol]`, which inserts a flat position where there is none. -/
def position (b : PnlBook K) (symbol : String) : Position K :=
  (b.book.lookup symbol).getD Position.flat

def snapshot (b : PnlBook K) (symbol : String) : Position K := b.position symbol

theorem position_insert (b : PnlBook K) (symbol sym : String) (pos : Position K) :
    ({ book := b.book.insert symbol pos } : PnlBook K).position sym =
      if sym = symbol then pos else b.position sym := by
  by_cases h : sym = symbol
  · subst h
    simp [position]
  · rw [if_neg h]
    simp only [position, AList.lookup_insert_ne h]

/-- Every position marked at its symbol's price. -/
def worth (b : PnlBook K) (mark : String → K) : K :=
  AListSum.total (fun sym pos => pos.worth (mark sym)) b.book

theorem worth_insert (b : PnlBook K) (symbol : String) (pos : Position K) (mark : String → K) :
    ({ book := b.book.insert symbol pos } : PnlBook K).worth mark =
      b.worth mark - (b.position symbol).worth (mark symbol) + pos.worth (mark symbol) := by
  rw [worth, AListSum.total_insert, worth, position]
  cases b.book.lookup symbol with
  | none => simp
  | some q => rfl

variable [LinearOrder K]

def applyFill (b : PnlBook K) (symbol : String) (side : Side) (deltaQty fillPrice : K) :
    PnlBook K :=
  if deltaQty ≤ 0 ∨ fillPrice ≤ 0 then b
  else
    let signedDelta := side.signedDir * deltaQty
    { book := b.book.insert symbol ((b.position symbol).fill signedDelta fillPrice) }

def applyCommission (b : PnlBook K) (symbol : String) (commission : K) : PnlBook K :=
  if commission ≤ 0 then b
  else
    let pos := b.position symbol
    { book := b.book.insert symbol { pos with realizedPnl := pos.realizedPnl - commission } }

/-- The loop body of `total_pnl`. -/
def addPnl (markPrice : String → K) (total : K) (e : Sigma fun _ : String => Position K) : K :=
  let total := total + e.2.realizedPnl
  if e.2.qty ≠ 0 then
    let mark := markPrice e.1
    if 0 < mark then total + (mark - e.2.avgPrice) * e.2.qty else total
  else total

/-- Realised PnL over all symbols, and unrealised PnL where a mark is known. -/
def totalPnl (b : PnlBook K) (markPrice : String → K) : K :=
  b.book.entries.foldl (addPnl markPrice) 0

/-! ## What one call does to a symbol -/

theorem snapshot_applyFill_qty (b : PnlBook K) (symbol sym : String) (side : Side)
    {q p : K} (hq : 0 < q) (hp : 0 < p) :
    ((b.applyFill symbol side q p).snapshot sym).qty =
      (b.snapshot sym).qty + if sym = symbol then side.signedDir * q else 0 := by
  rw [applyFill, if_neg (by simp [hq, hp])]
  simp only [snapshot, position_insert]
  by_cases h : sym = symbol
  · subst h
    rw [if_pos rfl, if_pos rfl, Position.fill_qty]
  · rw [if_neg h, if_neg h, add_zero]

theorem snapshot_applyCommission_qty (b : PnlBook K) (symbol sym : String) (c : K) :
    ((b.applyCommission symbol c).snapshot sym).qty = (b.snapshot sym).qty := by
  unfold applyCommission
  split_ifs with h
  · rfl
  · simp only [snapshot, position_insert]
    by_cases hs : sym = symbol
    · subst hs
      rw [if_pos rfl]
    · rw [if_neg hs]

/-! ## The worth of the book -/

/-- A position with a mark, or without a quantity, contributes its worth. -/
theorem addPnl_eq {mark : String → K} {e : Sigma fun _ : String => Position K}
    (h : e.2.qty ≠ 0 → 0 < mark e.1) (total : K) :
    addPnl mark total e = total + e.2.worth (mark e.1) := by
  unfold addPnl Position.worth
  by_cases hq : e.2.qty = 0
  · simp [hq]
  · simp only [ne_eq, hq, not_false_eq_true, if_true, h hq]
    rw [add_assoc]

/-- With a mark on every open position, `total_pnl` leaves nothing out. -/
theorem totalPnl_eq_worth {b : PnlBook K} {mark : String → K}
    (h : ∀ sym, (b.snapshot sym).qty ≠ 0 → 0 < mark sym) :
    b.totalPnl mark = b.worth mark := by
  have hfold : ∀ (l : List (Sigma fun _ : String => Position K)) (acc : K),
      (∀ e ∈ l, e.2.qty ≠ 0 → 0 < mark e.1) →
      l.foldl (addPnl mark) acc = acc + (l.map fun e => e.2.worth (mark e.1)).sum := by
    intro l
    induction l with
    | nil => intro acc _; simp
    | cons e l ih =>
      intro acc hl
      rw [List.foldl_cons, addPnl_eq (hl e List.mem_cons_self),
        ih _ fun e' he' => hl e' (List.mem_cons_of_mem e he'), List.map_cons, List.sum_cons,
        add_assoc]
  have hmark : ∀ e ∈ b.book.entries, e.2.qty ≠ 0 → 0 < mark e.1 := by
    intro e he hq
    refine h e.1 ?_
    have hl : b.book.lookup e.1 = some e.2 := (List.mem_dlookup_iff b.book.nodupKeys).mpr he
    simpa [snapshot, position, hl] using hq
  rw [totalPnl, hfold _ 0 hmark, zero_add]
  rfl

theorem worth_applyCommission (b : PnlBook K) (symbol : String) {c : K} (hc : 0 < c)
    (mark : String → K) : (b.applyCommission symbol c).worth mark = b.worth mark - c := by
  rw [applyCommission, if_neg (not_le.mpr hc)]
  simp only
  rw [worth_insert]
  simp only [Position.worth]
  ring

variable [IsStrictOrderedRing K]

theorem signedDir_ne_zero (side : Side) : (side.signedDir : K) ≠ 0 := by
  cases side <;> simp [Side.signedDir]

theorem worth_applyFill (b : PnlBook K) (symbol : String) (side : Side) {q p : K}
    (hq : 0 < q) (hp : 0 < p) (mark : String → K) :
    (b.applyFill symbol side q p).worth mark =
      b.worth mark + side.signedDir * q * (mark symbol - p) := by
  have hd : side.signedDir * q ≠ 0 := mul_ne_zero (signedDir_ne_zero side) hq.ne'
  rw [applyFill, if_neg (by simp [hq, hp])]
  simp only
  rw [worth_insert, Position.worth_fill _ p _ hd]
  ring

end PnlBook

/-! ## Histories of calls -/

inductive PnlCall (K : Type*) where
  | applyFill (symbol : String) (side : Side) (deltaQty fillPrice : K)
  | applyCommission (symbol : String) (commission : K)
deriving DecidableEq, Repr

structure Fill (K : Type*) where
  symbol : String
  side : Side
  qty : K
  price : K

namespace Fill

def signedQty (f : Fill K) : K := f.side.signedDir * f.qty

/-- What the fill is worth once its symbol trades at `mark`. -/
def gain (f : Fill K) (mark : String → K) : K :=
  f.side.signedDir * f.qty * (mark f.symbol - f.price)

end Fill

variable [LinearOrder K]

namespace PnlCall

def apply (b : PnlBook K) : PnlCall K → PnlBook K
  | .applyFill symbol side q p => b.applyFill symbol side q p
  | .applyCommission symbol c => b.applyCommission symbol c

def acceptedFill : PnlCall K → Option (Fill K)
  | .applyFill symbol side q p => if 0 < q ∧ 0 < p then some ⟨symbol, side, q, p⟩ else none
  | .applyCommission _ _ => none

def acceptedCommission : PnlCall K → Option K
  | .applyFill _ _ _ _ => none
  | .applyCommission _ c => if 0 < c then some c else none

end PnlCall

/-- The book after a list of calls, from an empty one. -/
def PnlBook.applyAll (calls : List (PnlCall K)) : PnlBook K :=
  calls.foldl PnlCall.apply PnlBook.init

namespace PnlCall

/-- One call moves a symbol's quantity by the fill it accepts on it. -/
theorem qty_apply (b : PnlBook K) (c : PnlCall K) (sym : String) :
    ((apply b c).snapshot sym).qty = (b.snapshot sym).qty +
      (c.acceptedFill.elim 0 fun f => if f.symbol = sym then f.signedQty else 0) := by
  cases c with
  | applyFill symbol side q p =>
    by_cases h : 0 < q ∧ 0 < p
    · simp only [apply, acceptedFill, if_pos h, Option.elim_some, Fill.signedQty]
      rw [b.snapshot_applyFill_qty symbol sym side h.1 h.2]
      congr 1
      exact if_congr eq_comm rfl rfl
    · have h' : q ≤ 0 ∨ p ≤ 0 := by
        rcases not_and_or.mp h with h | h
        · exact Or.inl (not_lt.mp h)
        · exact Or.inr (not_lt.mp h)
      simp [apply, acceptedFill, h, PnlBook.applyFill, h']
  | applyCommission symbol c =>
    simp [apply, acceptedFill, b.snapshot_applyCommission_qty]

variable [IsStrictOrderedRing K]

/-- One call changes the worth of the book by the gain of the fill it accepts
less the commission it accepts. -/
theorem worth_apply (b : PnlBook K) (c : PnlCall K) (mark : String → K) :
    (apply b c).worth mark =
      b.worth mark + (c.acceptedFill.elim 0 fun f => f.gain mark) -
        c.acceptedCommission.getD 0 := by
  cases c with
  | applyFill symbol side q p =>
    by_cases h : 0 < q ∧ 0 < p
    · simp only [apply, acceptedFill, acceptedCommission, if_pos h, Option.elim_some,
        Option.getD_none, sub_zero, Fill.gain]
      exact b.worth_applyFill symbol side h.1 h.2 mark
    · have h' : q ≤ 0 ∨ p ≤ 0 := by
        rcases not_and_or.mp h with h | h
        · exact Or.inl (not_lt.mp h)
        · exact Or.inr (not_lt.mp h)
      simp [apply, acceptedFill, acceptedCommission, h, PnlBook.applyFill, h']
  | applyCommission symbol c =>
    by_cases h : 0 < c
    · simp only [apply, acceptedFill, acceptedCommission, if_pos h, Option.elim_none,
        Option.getD_some, add_zero]
      exact b.worth_applyCommission symbol h mark
    · simp [apply, acceptedFill, acceptedCommission, h, PnlBook.applyCommission, not_lt.mp h]

end PnlCall

namespace PnlBook

theorem qty_applyAll (calls : List (PnlCall K)) (sym : String) :
    ((applyAll calls).snapshot sym).qty =
      (((calls.filterMap PnlCall.acceptedFill).filter fun f => f.symbol = sym).map
        Fill.signedQty).sum := by
  induction calls using List.reverseRecOn with
  | nil => simp [applyAll, snapshot, position, init, Position.flat]
  | append_singleton calls c ih =>
    rw [applyAll, List.foldl_append, List.foldl_cons, List.foldl_nil, PnlCall.qty_apply]
    rw [applyAll] at ih
    rw [ih, List.filterMap_append, List.filter_append, List.map_append, List.sum_append]
    cases hf : c.acceptedFill with
    | none => simp [hf]
    | some f => by_cases hs : f.symbol = sym <;> simp [hf, hs]

variable [IsStrictOrderedRing K]

theorem worth_applyAll (calls : List (PnlCall K)) (mark : String → K) :
    (applyAll calls).worth mark =
      ((calls.filterMap PnlCall.acceptedFill).map fun f => f.gain mark).sum -
        (calls.filterMap PnlCall.acceptedCommission).sum := by
  induction calls using List.reverseRecOn with
  | nil => simp [applyAll, worth, init]
  | append_singleton calls c ih =>
    rw [applyAll, List.foldl_append, List.foldl_cons, List.foldl_nil, PnlCall.worth_apply]
    rw [applyAll] at ih
    rw [ih, List.filterMap_append, List.filterMap_append, List.map_append, List.sum_append,
      List.sum_append]
    cases hf : c.acceptedFill <;> cases hc : c.acceptedCommission <;>
      simp [hf, hc] <;> ring

/-- Total PnL is the gain of the accepted fills at the marks less the accepted
commissions, and every quantity is the signed sum of its fills, for every
history of calls and every mark function that is positive where a position is
open. -/
theorem totalPnl_eq (calls : List (PnlCall K)) (mark : String → K)
    (hmark : ∀ sym, ((applyAll calls).snapshot sym).qty ≠ 0 → 0 < mark sym) :
    (applyAll calls).totalPnl mark =
        ((calls.filterMap PnlCall.acceptedFill).map fun f => f.gain mark).sum -
          (calls.filterMap PnlCall.acceptedCommission).sum ∧
      ∀ sym, ((applyAll calls).snapshot sym).qty =
        (((calls.filterMap PnlCall.acceptedFill).filter fun f => f.symbol = sym).map
          Fill.signedQty).sum :=
  ⟨(totalPnl_eq_worth hmark).trans (worth_applyAll calls mark), qty_applyAll calls⟩

/-- A long position reversed into a short one, with a commission. -/
def reversal : List (PnlCall ℚ) :=
  [.applyFill "BTCUSDT" .Buy 1 10, .applyFill "BTCUSDT" .Sell 3 12,
    .applyCommission "BTCUSDT" (1 / 2)]

theorem totalPnl_reversal :
    (applyAll reversal).totalPnl (fun _ => 11) = 7 / 2 ∧
      ((applyAll reversal).snapshot "BTCUSDT").qty = -2 := by
  obtain ⟨htotal, hqty⟩ := totalPnl_eq reversal (fun _ => 11) fun _ _ => by norm_num
  refine ⟨htotal.trans ?_, (hqty "BTCUSDT").trans ?_⟩
  · decide +kernel
  · decide +kernel

end PnlBook
end HoloMarket
