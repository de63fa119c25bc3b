import Mathlib.Logic.Function.Basic
import Mathlib.Data.List.Induction
import Mathlib.Data.List.Nodup

/-!
# Buffers written by a grid of threads

A buffer is a function from addresses to values.  Each thread of a grid performs
a list of stores.  An address that only one thread stores to has, after the
grid, the value that this thread leaves in it, whatever the order of the
threads.  A row-major matrix whose columns belong to different threads is the
case the kernels use.
-/

namespace HoloMarket
namespace Buffer

variable {α τ : Type*}

/-- The buffer after a list of stores. -/
def storeAll (buf : Nat → α) (ws : List (Nat × α)) : Nat → α :=
  ws.foldl (fun b w => Function.update b w.1 w.2) buf

/-- The buffer after the stores of the threads `ts`. -/
def launch (buf : Nat → α) (ts : List τ) (stores : τ → List (Nat × α)) : Nat → α :=
  storeAll buf (ts.flatMap stores)

@[simp] theorem storeAll_nil (buf : Nat → α) : storeAll buf [] = buf := rfl

@[simp] theorem storeAll_cons (buf : Nat → α) (w : Nat × α) (ws : List (Nat × α)) :
    storeAll buf (w :: ws) = storeAll (Function.update buf w.1 w.2) ws := rfl

theorem storeAll_append (buf : Nat → α) (ws vs : List (Nat × α)) :
    storeAll buf (ws ++ vs) = storeAll (storeAll buf ws) vs := List.foldl_append

theorem storeAll_of_not_mem {ws : List (Nat × α)} {a : Nat} (h : ∀ w ∈ ws, w.1 ≠ a)
    (buf : Nat → α) : storeAll buf ws a = buf a := by
  induction ws generalizing buf with
  | nil => rfl
  | cons w ws ih =>
    rw [storeAll_cons, ih fun w' hw' => h w' (List.mem_cons_of_mem w hw')]
    exact Function.update_of_ne (h w List.mem_cons_self).symm _ _

/-- Stores read the old buffer only where they do not store. -/
theorem storeAll_congr {buf buf' : Nat → α} {a : Nat} (h : buf a = buf' a)
    (ws : List (Nat × α)) : storeAll buf ws a = storeAll buf' ws a := by
  induction ws generalizing buf buf' with
  | nil => exact h
  | cons w ws ih =>
    refine ih ?_
    show Function.update buf w.1 w.2 a = Function.update buf' w.1 w.2 a
    by_cases hw : a = w.1
    · rw [hw, Function.update_self, Function.update_self]
    · rw [Function.update_of_ne hw, Function.update_of_ne hw, h]

/-- An address that only the thread `t` stores to holds what `t` leaves there. -/
theorem launch_apply {ts : List τ} {stores : τ → List (Nat × α)} {t : τ} {a : Nat}
    (hnd : ts.Nodup) (ht : t ∈ ts)
    (hown : ∀ t' ∈ ts, t' ≠ t → ∀ w ∈ stores t', w.1 ≠ a) (buf : Nat → α) :
    launch buf ts stores a = storeAll buf (stores t) a := by
  obtain ⟨before, after, rfl⟩ := List.append_of_mem ht
  obtain ⟨-, hafter, hdis⟩ := List.nodup_append.mp hnd
  have hb : ∀ w ∈ before.flatMap stores, w.1 ≠ a := by
    intro w hw
    obtain ⟨t', ht', hw'⟩ := List.mem_flatMap.mp hw
    exact hown t' (by simp [ht']) (hdis t' ht' t List.mem_cons_self) w hw'
  have ha : ∀ w ∈ after.flatMap stores, w.1 ≠ a := by
    intro w hw
    obtain ⟨t', ht', hw'⟩ := List.mem_flatMap.mp hw
    refine hown t' (by simp [ht']) ?_ w hw'
    rintro rfl
    exact (List.nodup_cons.mp hafter).1 ht'
  rw [launch, List.flatMap_append, List.flatMap_cons, storeAll_append, storeAll_append,
    storeAll_of_not_mem ha]
  exact storeAll_congr (storeAll_of_not_mem hb buf) _

/-- Row-major addresses in rows of width `w` determine row and column. -/
theorem rowMajor_inj {w r r' c c' : Nat} (hc : c < w) (hc' : c' < w)
    (h : r * w + c = r' * w + c') : r = r' ∧ c = c' := by
  have hcc : c = c' := by
    have hmod := congrArg (· % w) h
    simpa [Nat.mul_add_mod_self_right, Nat.mod_eq_of_lt hc, Nat.mod_eq_of_lt hc'] using hmod
  subst hcc
  have hmul : r * w = r' * w := Nat.add_right_cancel h
  exact ⟨Nat.eq_of_mul_eq_mul_right (Nat.zero_lt_of_lt hc) hmul, rfl⟩

/-- A grid with one thread for each column of a row-major matrix: the entry at
row `r` of column `c` is what the thread `c` leaves there. -/
theorem launch_column {w r c : Nat} {stores : Nat → List (Nat × α)} (hc : c < w)
    (hcol : ∀ t < w, ∀ s ∈ stores t, ∃ q, s.1 = q * w + t) (buf : Nat → α) :
    launch buf (List.range w) stores (r * w + c) = storeAll buf (stores c) (r * w + c) := by
  refine launch_apply List.nodup_range (List.mem_range.mpr hc) ?_ buf
  intro t ht hne s hs heq
  have htw := List.mem_range.mp ht
  obtain ⟨q, hq⟩ := hcol t htw s hs
  exact hne (rowMajor_inj htw hc (hq ▸ heq)).2

/-- The stores of a thread that writes a row from `base` on. -/
def rowStores (base : Nat) (row : List α) : List (Nat × α) :=
  row.zipIdx.map fun c => (base + c.2, c.1)

theorem rowStores_concat (base : Nat) (row : List α) (v : α) :
    rowStores base (row ++ [v]) = rowStores base row ++ [(base + row.length, v)] := by
  unfold rowStores
  rw [List.zipIdx_append, List.map_append]
  simp

theorem storeAll_rowStores {base idx : Nat} {row : List α} {v : α} (h : row[idx]? = some v)
    (buf : Nat → α) : storeAll buf (rowStores base row) (base + idx) = v := by
  induction row using List.reverseRecOn generalizing v with
  | nil => cases h
  | append_singleton row w ih =>
    rw [rowStores_concat, storeAll_append, storeAll_cons, storeAll_nil]
    by_cases hidx : idx = row.length
    · subst hidx
      rw [Function.update_self]
      simpa using h
    · rw [Function.update_of_ne (by omega)]
      refine ih ?_
      have hlt : idx < (row ++ [w]).length := (List.getElem?_eq_some_iff.mp h).1
      rw [List.length_append, List.length_singleton] at hlt
      rwa [List.getElem?_append_left (by omega)] at h

/-- A grid with one thread for each row of a row-major matrix. -/
theorem launch_rows {w t idx : Nat} {ts : List Nat} {rows : Nat → List α} {v : α}
    (hnd : ts.Nodup) (ht : t ∈ ts) (hlen : ∀ t ∈ ts, (rows t).length = w)
    (hv : (rows t)[idx]? = some v) (buf : Nat → α) :
    launch buf ts (fun t => rowStores (t * w) (rows t)) (t * w + idx) = v := by
  have hidx : idx < w := hlen t ht ▸ (List.getElem?_eq_some_iff.mp hv).1
  rw [launch_apply hnd ht ?_ buf]
  · exact storeAll_rowStores hv buf
  · intro t' ht' hne s hs heq
    obtain ⟨c, hc, rfl⟩ := List.mem_map.mp hs
    have hc2 : c.2 < w := by
      have hlt := (List.mem_zipIdx_iff_getElem?.mp hc)
      exact hlen t' ht' ▸ (List.getElem?_eq_some_iff.mp hlt).1
    exact hne (rowMajor_inj hc2 hidx heq).1

/-- A loop over different addresses, each round of which stores to its own
address what depends only on addresses that the loop has not yet changed. -/
theorem foldl_update_apply {step : (Nat → α) → Nat → Nat → α} {g buf : Nat → α}
    {addrs : List Nat} (hnd : addrs.Nodup)
    (hstep : ∀ b, ∀ k ∈ addrs, (∀ a, a ∉ addrs ∨ a = k → b a = buf a) →
      step b k = Function.update b k (g k)) (a : Nat) :
    addrs.foldl step buf a = if a ∈ addrs then g a else buf a := by
  induction addrs using List.reverseRecOn generalizing a with
  | nil => rfl
  | append_singleton addrs k ih =>
    obtain ⟨hnd', -, hdis⟩ := List.nodup_append.mp hnd
    have hk : k ∉ addrs := fun h => hdis k h k List.mem_cons_self rfl
    have hinit := ih hnd' fun b k' hk' hb => hstep b k' (List.mem_append_left _ hk')
      fun a ha => hb a (ha.imp_left fun hnot hmem => hnot (List.mem_append_left _ hmem))
    rw [List.foldl_append, List.foldl_cons, List.foldl_nil,
      hstep _ k (List.mem_append_right _ List.mem_cons_self)]
    · by_cases hak : a = k
      · rw [hak, Function.update_self, if_pos (by simp)]
      · rw [Function.update_of_ne hak, hinit]
        simp [hak]
    · intro a' ha'
      rw [hinit, if_neg]
      rcases ha' with hnot | rfl
      · exact fun hmem => hnot (List.mem_append_left _ hmem)
      · exact hk

end Buffer
end HoloMarket
