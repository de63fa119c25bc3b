import Mathlib.Tactic.TypeStar

/-!
# Sequence locks

One writer makes a counter odd before it touches the protected cells and even
again after.  A reader that sees the same even counter before and after its
copy holds the cells as they are at that moment.
-/

namespace HoloMarket
namespace Seqlock

variable {σ ι α : Type*} (seq : σ → Nat) (cell : ι → σ → α)

/-- A step of the writer: the counter does not go back, and no cell changes
while it is even. -/
structure Guarded (w w' : σ) : Prop where
  mono : seq w ≤ seq w'
  quiet : seq w % 2 = 0 → ∀ i, cell i w' = cell i w

/-- What a reader knows that read an even counter `start` and has yet to copy
the cells in `todo`: unless the counter moved, the others are up to date. -/
structure Copied (start : Nat) (w : σ) (staged : ι → α) (todo : List ι) : Prop where
  le : start ≤ seq w
  copy : seq w = start → ∀ i, i ∉ todo → staged i = cell i w

variable {seq cell} {start : Nat} {w w' : σ} {staged staged' : ι → α} {todo : List ι}

theorem Copied.write (h : Copied seq cell start w staged todo) (heven : start % 2 = 0)
    (hstep : Guarded seq cell w w') : Copied seq cell start w' staged todo where
  le := Nat.le_trans h.le hstep.mono
  copy hseq i hi := by
    have hsame : seq w = start := Nat.le_antisymm (hseq ▸ hstep.mono) h.le
    rw [hstep.quiet (hsame ▸ heven) i]
    exact h.copy hsame i hi

theorem Copied.read {i : ι} (h : Copied seq cell start w staged (i :: todo))
    (hi : staged' i = cell i w) (hothers : ∀ j, j ≠ i → staged' j = staged j) :
    Copied seq cell start w staged' todo where
  le := h.le
  copy hseq j hj := by
    by_cases hji : j = i
    · rw [hji, hi]
    · rw [hothers j hji]
      exact h.copy hseq j fun hmem => (List.mem_cons.mp hmem).elim hji hj

/-- The second look at the counter: nothing moved, so the copy is the cells. -/
theorem Copied.done (h : Copied seq cell start w staged []) (hseq : seq w = start) (i : ι) :
    staged i = cell i w :=
  h.copy hseq i List.not_mem_nil

end Seqlock
end HoloMarket
