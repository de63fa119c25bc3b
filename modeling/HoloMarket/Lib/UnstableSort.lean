import Mathlib.Data.List.Chain
import Mathlib.Data.List.Sort
import Mathlib.Order.Lattice

/-!
# UnstableSort: what survives a sort that is not stable

Any permutation in the order of the key is a possible result.  A part of the list
comes out as it went in, whatever the result, exactly when it is ordered already
and differs nowhere among equal keys.
-/

namespace HoloMarket
namespace UnstableSort

variable {α κ : Type*} [LinearOrder κ] {key : α → κ}

/-- A possible result of sorting `l`. -/
structure Result (key : α → κ) (l s : List α) : Prop where
  perm : s.Perm l
  sorted : s.Pairwise fun a b => key a ≤ key b

/-- The list is in the order of the key and elements with one key are the same. -/
def Settled (key : α → κ) (l : List α) : Prop := l.Pairwise fun a b => key a < key b ∨ a = b

theorem Settled.sorted {l : List α} (h : Settled key l) :
    l.Pairwise fun a b => key a ≤ key b := by
  refine h.imp fun {a b} hab => ?_
  rcases hab with hlt | rfl
  · exact hlt.le
  · exact le_rfl

theorem Settled.eq_of_key_eq {l : List α} (h : Settled key l) {a b : α} (ha : a ∈ l) (hb : b ∈ l)
    (hkey : key a = key b) : a = b := by
  have : Std.Symm fun a b : α => key a = key b → a = b := ⟨fun a b hab he => (hab he.symm).symm⟩
  have hpair : l.Pairwise fun a b => key a = key b → a = b :=
    h.imp fun {a b} hab he => hab.resolve_left fun hlt => hlt.ne he
  exact hpair.forall_of_forall (fun _ _ _ => rfl) ha hb hkey

theorem Settled.eq_of_result {l s : List α} (h : Settled key l) (hs : Result key l s) : s = l :=
  hs.perm.eq_of_pairwise (fun _ _ ha hb hab hba =>
    h.eq_of_key_eq (hs.perm.subset ha) hb (le_antisymm hab hba)) hs.sorted h.sorted

theorem Result.filter {l s : List α} (hs : Result key l s) (p : α → Bool) :
    Result key (l.filter p) (s.filter p) :=
  ⟨hs.perm.filter p, hs.sorted.filter p⟩

theorem exists_result_filter {l t : List α} {p : α → Bool} (ht : Result key (l.filter p) t) :
    ∃ s, Result key l s ∧ s.filter p = t := by
  have htrans : ∀ a b c : α, decide (key a ≤ key b) = true → decide (key b ≤ key c) = true →
      decide (key a ≤ key c) = true := by
    intro a b c hab hbc
    rw [decide_eq_true_iff] at hab hbc ⊢
    exact hab.trans hbc
  have htotal : ∀ a b : α, (decide (key a ≤ key b) || decide (key b ≤ key a)) = true := by
    intro a b
    rw [Bool.or_eq_true, decide_eq_true_iff, decide_eq_true_iff]
    exact le_total _ _
  have hall : ∀ a ∈ t, p a = true := fun a ha => (List.mem_filter.mp (ht.perm.subset ha)).2
  -- a stable sort of the part and then the rest keeps the part
  refine ⟨(t ++ l.filter fun a => !p a).mergeSort fun a b => decide (key a ≤ key b),
    ⟨?_, ?_⟩, ?_⟩
  · refine (List.mergeSort_perm _ _).trans ?_
    exact (ht.perm.append_right _).trans (List.filter_append_perm p l)
  · exact (List.pairwise_mergeSort htrans htotal _).imp of_decide_eq_true
  · have hsub : t.Sublist ((t ++ l.filter fun a => !p a).mergeSort
        fun a b => decide (key a ≤ key b)) :=
      List.sublist_mergeSort htrans htotal (ht.sorted.imp decide_eq_true)
        (List.sublist_append_left _ _)
    have hfilter := hsub.filter p
    rw [List.filter_eq_self.mpr hall] at hfilter
    refine (hfilter.eq_of_length ?_).symm
    have hperm := (List.mergeSort_perm (t ++ l.filter fun a => !p a)
      fun a b => decide (key a ≤ key b)).filter p
    rw [hperm.length_eq, List.filter_append, List.filter_eq_self.mpr hall]
    simp [List.filter_filter]

theorem Result.swap {xs ys : List α} {a b : α} (hkey : key a = key b)
    (h : (xs ++ a :: b :: ys).Pairwise fun a b => key a ≤ key b) :
    Result key (xs ++ a :: b :: ys) (xs ++ b :: a :: ys) := by
  refine ⟨(List.Perm.swap a b ys).append_left xs, ?_⟩
  simp only [List.pairwise_append, List.pairwise_cons, List.forall_mem_cons] at h ⊢
  obtain ⟨hxs, ⟨⟨-, ha⟩, hb, hys⟩, hcross⟩ := h
  exact ⟨hxs, ⟨⟨hkey.ge, hb⟩, ha, hys⟩, fun x hx =>
    ⟨(hcross x hx).2.1, (hcross x hx).1, (hcross x hx).2.2⟩⟩

theorem settled_of_unique {l : List α} (hsorted : l.Pairwise fun a b => key a ≤ key b)
    (h : ∀ s, Result key l s → s = l) : Settled key l := by
  have : Trans (fun a b : α => key a < key b ∨ a = b) (fun a b => key a < key b ∨ a = b)
      (fun a b => key a < key b ∨ a = b) := ⟨fun {a b c} hab hbc => by
    rcases hab with hab | rfl
    · rcases hbc with hbc | rfl
      · exact Or.inl (hab.trans hbc)
      · exact Or.inl hab
    · exact hbc⟩
  unfold Settled
  rw [← List.isChain_iff_pairwise, List.isChain_iff_forall_rel_of_append_cons_cons]
  intro a b xs ys hl
  subst hl
  rw [or_iff_not_imp_left]
  intro hlt
  have hle : key a ≤ key b := by
    rw [List.pairwise_append, List.pairwise_cons] at hsorted
    exact hsorted.2.1.1 b List.mem_cons_self
  have hswap := h _ (Result.swap (le_antisymm hle (not_lt.mp hlt)) hsorted)
  exact (List.cons.inj (List.append_cancel_left hswap)).1.symm

/-- A part survives every result exactly when it is settled. -/
theorem filter_eq_iff_settled (l : List α) (p : α → Bool) :
    (∀ s, Result key l s → s.filter p = l.filter p) ↔ Settled key (l.filter p) := by
  constructor
  · intro h
    have hunique : ∀ t, Result key (l.filter p) t → t = l.filter p := by
      intro t ht
      obtain ⟨s, hs, rfl⟩ := exists_result_filter ht
      exact h s hs
    refine settled_of_unique ?_ hunique
    -- some result exists, and it is in order
    have hsome : Result key (l.filter p) ((l.filter p).insertionSort fun a b => key a ≤ key b) := by
      have : Std.Total fun a b : α => key a ≤ key b := ⟨fun a b => le_total _ _⟩
      have : IsTrans α fun a b : α => key a ≤ key b := ⟨fun a b c => le_trans⟩
      exact ⟨List.perm_insertionSort _ _, List.pairwise_insertionSort _ _⟩
    exact hunique _ hsome ▸ hsome.sorted
  · intro h s hs
    exact h.eq_of_result (hs.filter p)

end UnstableSort
end HoloMarket
