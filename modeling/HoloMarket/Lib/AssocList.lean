import Mathlib.Algebra.BigOperators.Group.List.Basic
import Mathlib.Data.List.AList

/-!
# Walks over an association list

The sum of a quantity over the entries of an `AList`, and how it changes when
one entry is written; the items of one key among those of all.
-/

namespace HoloMarket
namespace AListSum

variable {α β M : Type*} [AddCommGroup M]

/-- The sum of `f` over the entries. -/
def total (f : α → β → M) (s : AList fun _ : α => β) : M :=
  (s.entries.map fun e => f e.1 e.2).sum

@[simp] theorem total_empty (f : α → β → M) : total f (∅ : AList fun _ : α => β) = 0 := rfl

variable [DecidableEq α]

theorem sum_kerase (f : α → β → M) (a : α) (l : List (Sigma fun _ : α => β)) :
    ((l.kerase a).map fun e => f e.1 e.2).sum + (l.dlookup a).elim 0 (f a) =
      (l.map fun e => f e.1 e.2).sum := by
  induction l with
  | nil => simp
  | cons e l ih =>
    obtain ⟨a', b⟩ := e
    by_cases h : a = a'
    · subst h
      have hk : List.kerase a (⟨a, b⟩ :: l) = l := by simp [List.kerase]
      rw [hk, List.dlookup_cons_eq, List.map_cons, List.sum_cons, Option.elim_some, add_comm]
    · have hk : List.kerase a (⟨a', b⟩ :: l) = ⟨a', b⟩ :: List.kerase a l := by
        simp [List.kerase, h]
      rw [hk, List.dlookup_cons_ne l ⟨a', b⟩ h, List.map_cons, List.map_cons, List.sum_cons,
        List.sum_cons, add_assoc, ih]

theorem total_insert (f : α → β → M) (s : AList fun _ : α => β) (a : α) (b : β) :
    total f (s.insert a b) = total f s - (s.lookup a).elim 0 (f a) + f a b := by
  have h : total f s = _ := (sum_kerase f a s.entries).symm
  rw [h, total, AList.entries_insert, List.map_cons, List.sum_cons, AList.lookup,
    add_sub_cancel_right, add_comm]

end AListSum

/-- Items looked up for every entry, then filtered down to those of the key `a`,
are the item of `a`. -/
theorem filterMap_filter_key {α β γ : Type*} [DecidableEq α]
    {l : List (Sigma fun _ : α => β)} (hl : l.NodupKeys) (f : β → Option γ) {p : γ → Bool}
    {a : α} (hp : ∀ e ∈ l, ∀ c, f e.2 = some c → (p c = true ↔ e.1 = a)) :
    (l.filterMap fun e => f e.2).filter p = ((l.dlookup a).bind f).toList := by
  induction l with
  | nil => rfl
  | cons e l ih =>
    obtain ⟨a', b⟩ := e
    obtain ⟨hnew, hl'⟩ := List.nodupKeys_cons.mp hl
    have hrest := ih hl' fun e he => hp e (List.mem_cons_of_mem _ he)
    have hp' : ∀ c, f b = some c → (p c = true ↔ a' = a) := hp ⟨a', b⟩ List.mem_cons_self
    by_cases ha : a' = a
    · subst ha
      have hnone : l.dlookup a' = none := List.dlookup_eq_none.mpr hnew
      rw [hnone] at hrest
      rw [List.dlookup_cons_eq, List.filterMap_cons]
      cases hb : f b with
      | none => simpa [hb] using hrest
      | some c =>
        have hc := (hp' c hb).mpr rfl
        simp only [List.filter_cons, hc, hrest, Option.bind_some, hb]
        rfl
    · rw [List.dlookup_cons_ne l ⟨a', b⟩ fun h => ha h.symm, ← hrest, List.filterMap_cons]
      cases hb : f b with
      | none => rfl
      | some c =>
        have hc : p c ≠ true := fun h => ha ((hp' c hb).mp h)
        simp only [List.filter_cons, hc]
        rfl

end HoloMarket
