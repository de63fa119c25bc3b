import Mathlib.Data.List.AList

/-!
# Slot allocation

A pool of `n` slots is shared by an index from keys to slots and a stack of
slots free for reuse.  `SlotIndex.WF` is the representation invariant: no slot
is referenced twice, and none is both referenced and free.  The lemmas say that
taking a free slot, growing the pool, pointing a key at an unused slot and
giving a slot back keep it.
-/

namespace HoloMarket

variable {K : Type*} [DecidableEq K]

/-- No slot is referenced by two keys, none is both referenced and free, none is
free twice, and all are below the pool size. -/
structure SlotIndex.WF (index : AList fun _ : K => Nat) (free : List Nat) (n : Nat) :
    Prop where
  lt : ∀ k s, index.lookup k = some s → s < n
  inj : ∀ k k' s, index.lookup k = some s → index.lookup k' = some s → k = k'
  free_lt : ∀ s ∈ free, s < n
  free_nodup : free.Nodup
  disjoint : ∀ k s, index.lookup k = some s → s ∉ free

namespace SlotIndex

variable {index : AList fun _ : K => Nat} {free : List Nat} {n : Nat}

/-- A slot that a key may be pointed at. -/
structure Unused (index : AList fun _ : K => Nat) (free : List Nat) (n s : Nat) : Prop where
  lt : s < n
  not_free : s ∉ free
  not_indexed : ∀ k, index.lookup k ≠ some s

theorem wf_empty : WF (∅ : AList fun _ : K => Nat) [] 0 where
  lt k s h := by simp at h
  inj k k' s h := by simp at h
  free_lt s h := by simp at h
  free_nodup := List.nodup_nil
  disjoint k s h := by simp at h

theorem WF.pop {s : Nat} (h : WF index (s :: free) n) : WF index free n where
  lt := h.lt
  inj := h.inj
  free_lt t ht := h.free_lt t (List.mem_cons_of_mem s ht)
  free_nodup := (List.nodup_cons.mp h.free_nodup).2
  disjoint k t hk ht := h.disjoint k t hk (List.mem_cons_of_mem s ht)

theorem WF.unused_head {s : Nat} (h : WF index (s :: free) n) : Unused index free n s where
  lt := h.free_lt s List.mem_cons_self
  not_free := (List.nodup_cons.mp h.free_nodup).1
  not_indexed k hk := h.disjoint k s hk List.mem_cons_self

theorem WF.grow (h : WF index free n) : WF index free (n + 1) where
  lt k s hk := Nat.lt_succ_of_lt (h.lt k s hk)
  inj := h.inj
  free_lt s hs := Nat.lt_succ_of_lt (h.free_lt s hs)
  free_nodup := h.free_nodup
  disjoint := h.disjoint

theorem WF.unused_top (h : WF index free n) : Unused index free (n + 1) n where
  lt := Nat.lt_succ_self n
  not_free hn := Nat.lt_irrefl n (h.free_lt n hn)
  not_indexed k hk := Nat.lt_irrefl n (h.lt k n hk)

/-- Pointing a key at an unused slot.  The slot the key referenced before, if
any, is neither free nor referenced afterwards. -/
theorem WF.insert {s : Nat} (h : WF index free n) (hs : Unused index free n s) (k : K) :
    WF (index.insert k s) free n where
  lt k' s' hk' := by
    by_cases hkk : k' = k
    · subst hkk
      rw [AList.lookup_insert] at hk'
      cases hk'
      exact hs.lt
    · rw [AList.lookup_insert_ne hkk] at hk'
      exact h.lt k' s' hk'
  inj k₁ k₂ s' h₁ h₂ := by
    by_cases e₁ : k₁ = k <;> by_cases e₂ : k₂ = k
    · rw [e₁, e₂]
    · subst e₁
      rw [AList.lookup_insert] at h₁
      cases h₁
      rw [AList.lookup_insert_ne e₂] at h₂
      exact absurd h₂ (hs.not_indexed k₂)
    · subst e₂
      rw [AList.lookup_insert] at h₂
      cases h₂
      rw [AList.lookup_insert_ne e₁] at h₁
      exact absurd h₁ (hs.not_indexed k₁)
    · rw [AList.lookup_insert_ne e₁] at h₁
      rw [AList.lookup_insert_ne e₂] at h₂
      exact h.inj k₁ k₂ s' h₁ h₂
  free_lt := h.free_lt
  free_nodup := h.free_nodup
  disjoint k' s' hk' := by
    by_cases hkk : k' = k
    · subst hkk
      rw [AList.lookup_insert] at hk'
      cases hk'
      exact hs.not_free
    · rw [AList.lookup_insert_ne hkk] at hk'
      exact h.disjoint k' s' hk'

theorem WF.erase {k : K} {s : Nat} (h : WF index free n) (hk : index.lookup k = some s) :
    WF (index.erase k) (s :: free) n := by
  have hlk : ∀ k' s', (index.erase k).lookup k' = some s' →
      k' ≠ k ∧ index.lookup k' = some s' := by
    intro k' s' hk'
    by_cases hkk : k' = k
    · subst hkk
      rw [AList.lookup_erase] at hk'
      cases hk'
    · rw [AList.lookup_erase_ne hkk] at hk'
      exact ⟨hkk, hk'⟩
  refine ⟨fun k' s' h' => h.lt k' s' (hlk k' s' h').2, fun k₁ k₂ s' h₁ h₂ => ?_, ?_, ?_, ?_⟩
  · exact h.inj k₁ k₂ s' (hlk _ _ h₁).2 (hlk _ _ h₂).2
  · intro t ht
    rcases List.mem_cons.mp ht with rfl | ht
    · exact h.lt k t hk
    · exact h.free_lt t ht
  · exact List.nodup_cons.mpr ⟨h.disjoint k s hk, h.free_nodup⟩
  · intro k' s' h' hmem
    obtain ⟨hne, h''⟩ := hlk k' s' h'
    rcases List.mem_cons.mp hmem with rfl | hmem
    · exact hne (h.inj k' k s' h'' hk)
    · exact h.disjoint k' s' h'' hmem

end SlotIndex
end HoloMarket
