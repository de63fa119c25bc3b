import Mathlib.Data.List.Basic
import Mathlib.Data.List.Nodup
import Mathlib.Data.List.Perm.Subperm

/-!
# Slots obtained from a shared counter

Threads append items to one array, each item at the slot an atomic counter
hands out.  `SlotOrder` relates the array to what each thread appends: the
threads interleave in any way, and each keeps its own order.
-/

namespace HoloMarket

variable {α ι : Type*} [DecidableEq ι]

/-- `l` interleaves the lists `items i`, where `owner` names the thread of an
item. -/
def SlotOrder (owner : α → ι) (items : ι → List α) (l : List α) : Prop :=
  ∀ i, l.filter (fun x => owner x = i) = items i

namespace SlotOrder

variable {owner : α → ι} {items : ι → List α} {l l' : List α}

theorem mem_iff (h : SlotOrder owner items l) (x : α) : x ∈ l ↔ x ∈ items (owner x) := by
  rw [← h (owner x)]
  simp

theorem count_eq [BEq α] [LawfulBEq α] (h : SlotOrder owner items l) (x : α) :
    l.count x = (items (owner x)).count x := by
  rw [← h (owner x), List.count_filter]
  simp

theorem perm (h : SlotOrder owner items l) (h' : SlotOrder owner items l') : l.Perm l' := by
  classical
  refine List.perm_iff_count.mpr fun x => ?_
  rw [h.count_eq, h'.count_eq]

theorem nodup (h : SlotOrder owner items l) (hitems : ∀ i, (items i).Nodup) : l.Nodup := by
  classical
  refine List.nodup_iff_count_le_one.mpr fun x => ?_
  rw [h.count_eq]
  exact List.nodup_iff_count_le_one.mp (hitems _) x

/-- Threads that append at most one item each fill no more slots than there are
threads. -/
theorem length_le {is : List ι} (h : SlotOrder owner items l) (hone : ∀ i, (items i).length ≤ 1)
    (hout : ∀ i, i ∉ is → items i = []) : l.length ≤ is.length := by
  have hnodup : (l.map owner).Nodup := by
    rw [List.nodup_iff_count_le_one]
    intro i
    rw [List.count_eq_countP, List.countP_map, List.countP_eq_length_filter]
    have hmine : l.filter ((fun j => j == i) ∘ owner) = items i := by
      rw [← h i]
      exact List.filter_congr fun x _ => beq_eq_decide (owner x) i
    rw [hmine]
    exact hone i
  have hsub : l.map owner ⊆ is := by
    intro i hi
    obtain ⟨x, hx, rfl⟩ := List.mem_map.mp hi
    by_contra hnot
    have hmem := (h.mem_iff x).mp hx
    rw [hout _ hnot] at hmem
    exact absurd hmem List.not_mem_nil
  have hle := (hnodup.subperm hsub).length_le
  rwa [List.length_map] at hle

/-- Each thread running to completion in turn is one of the interleavings. -/
theorem flatMap {is : List ι} (hnd : is.Nodup) (hown : ∀ i, ∀ x ∈ items i, owner x = i)
    (hout : ∀ i, i ∉ is → items i = []) : SlotOrder owner items (is.flatMap items) := by
  have hother : ∀ (js : List ι) (i : ι), i ∉ js →
      (js.flatMap items).filter (fun x => owner x = i) = [] := by
    intro js i hi
    refine List.filter_eq_nil_iff.mpr ?_
    intro x hx
    obtain ⟨j, hj, hxj⟩ := List.mem_flatMap.mp hx
    have hne : j ≠ i := by
      rintro rfl
      exact hi hj
    simpa [hown j x hxj] using hne
  intro i
  by_cases hi : i ∈ is
  · obtain ⟨before, after, rfl⟩ := List.append_of_mem hi
    obtain ⟨-, hafter, hdis⟩ := List.nodup_append.mp hnd
    have hself : (items i).filter (fun x => owner x = i) = items i :=
      List.filter_eq_self.mpr fun x hx => by simpa using hown i x hx
    have hb : i ∉ before := fun hb => hdis i hb i List.mem_cons_self rfl
    rw [List.flatMap_append, List.flatMap_cons, List.filter_append, List.filter_append,
      hother before i hb, hother after i (List.nodup_cons.mp hafter).1, hself, List.nil_append,
      List.append_nil]
  · rw [hother is i hi, hout i hi]

/-- Any threads may obtain all their slots, in turn, before the others obtain theirs. -/
theorem exists_first_list {is js : List ι} (hnd : is.Nodup) (hjs : js.Nodup)
    (hown : ∀ i, ∀ x ∈ items i, owner x = i) (hout : ∀ i, i ∉ is → items i = []) :
    ∃ rest, SlotOrder owner items (js.flatMap items ++ rest) := by
  let others := is.filter fun i => i ∉ js
  have hothers : ∀ i, i ∈ others ↔ i ∈ is ∧ i ∉ js := by simp [others]
  have hdis : ∀ j ∈ js, ∀ i ∈ others, j ≠ i := by
    rintro j hj i hi rfl
    exact ((hothers j).mp hi).2 hj
  have hall : (js ++ others).Nodup := List.nodup_append.mpr ⟨hjs, hnd.filter _, hdis⟩
  refine ⟨others.flatMap items, ?_⟩
  rw [← List.flatMap_append]
  refine flatMap hall hown fun i hi => hout i fun his => hi ?_
  by_cases hj : i ∈ js
  · exact List.mem_append_left _ hj
  · exact List.mem_append_right _ ((hothers i).mpr ⟨his, hj⟩)

theorem exists_first {is : List ι} (hnd : is.Nodup) (hown : ∀ i, ∀ x ∈ items i, owner x = i)
    (hout : ∀ i, i ∉ is → items i = []) (i : ι) :
    ∃ rest, SlotOrder owner items (items i ++ rest) := by
  obtain ⟨rest, h⟩ := exists_first_list hnd (List.nodup_singleton i) hown hout
  rw [List.flatMap_singleton] at h
  exact ⟨rest, h⟩

theorem exists_first_two {is : List ι} (hnd : is.Nodup) (hown : ∀ i, ∀ x ∈ items i, owner x = i)
    (hout : ∀ i, i ∉ is → items i = []) {i j : ι} (hij : i ≠ j) :
    ∃ rest, SlotOrder owner items (items i ++ (items j ++ rest)) := by
  have hjs : [i, j].Nodup := by simpa using hij
  obtain ⟨rest, h⟩ := exists_first_list hnd hjs hown hout
  rw [List.flatMap_cons, List.flatMap_singleton, List.append_assoc] at h
  exact ⟨rest, h⟩

end SlotOrder
end HoloMarket
