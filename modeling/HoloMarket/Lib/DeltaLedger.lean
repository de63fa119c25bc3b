import Mathlib.Algebra.BigOperators.Group.List.Basic
import Mathlib.Algebra.Order.Group.Defs
import Mathlib.Algebra.Order.BigOperators.Group.List
import Mathlib.Data.List.Induction

/-!
# Cumulative totals charged by difference

Entries report a cumulative total under a key.  Each entry is charged what its
total exceeds the last one reported under its key by, if that is more than a
threshold.  When every entry is meant to be charged in full, an entry whose key
has been used by another one is charged too little.
-/

namespace HoloMarket
namespace DeltaLedger

variable {α ι σ K : Type*} [DecidableEq ι] [DecidableEq σ] [AddCommGroup K] (key : α → ι)
  (cls : α → σ) (total : α → K) (eps : K)

/-- The total last reported under the key `x`, the entries in order. -/
def prior (before : List α) (x : ι) : K :=
  before.foldl (fun last a => if key a = x then total a else last) 0

/-- What the entries of the class report. -/
def reported (s : σ) (l : List α) : K := ((l.filter fun a => cls a = s).map total).sum

variable {key cls total eps}

theorem prior_concat (before : List α) (a : α) (x : ι) :
    prior key total (before ++ [a]) x =
      if key a = x then total a else prior key total before x := by
  unfold prior
  rw [List.foldl_append]
  rfl

theorem reported_cons (s : σ) (a : α) (l : List α) :
    reported cls total s (a :: l) =
      (if cls a = s then total a else 0) + reported cls total s l := by
  unfold reported
  by_cases h : cls a = s
  · simp [h]
  · simp [h]

section
variable [LinearOrder K] (key cls total eps)

def charge (before : List α) (a : α) : K :=
  if eps < total a - prior key total before (key a) then
    total a - prior key total before (key a)
  else 0

/-- What the entries `l` of the class `s` are charged, after the entries
`before`. -/
def charged (s : σ) : List α → List α → K
  | _, [] => 0
  | before, a :: l =>
    (if cls a = s then charge key total eps before a else 0) + charged s (before ++ [a]) l

/-- Every entry reports nothing, or enough and under a key that has reported
nothing yet. -/
def Unshadowed (before l : List α) : Prop :=
  ∀ l₁ a l₂, l = l₁ ++ a :: l₂ →
    total a = 0 ∨ eps < total a ∧ prior key total (before ++ l₁) (key a) = 0

end

variable [LinearOrder K]

theorem prior_nonneg {before : List α} (h : ∀ a ∈ before, 0 ≤ total a) (x : ι) :
    0 ≤ prior key total before x := by
  induction before using List.reverseRecOn with
  | nil => exact le_rfl
  | append_singleton l a ih =>
    rw [prior_concat]
    split_ifs
    · exact h a (by simp)
    · exact ih fun b hb => h b (by simp [hb])

theorem unshadowed_nil (before : List α) : Unshadowed key total eps before [] := by
  intro l₁ a l₂ h
  cases l₁ <;> cases h

theorem unshadowed_cons {before l : List α} {a : α} :
    Unshadowed key total eps before (a :: l) ↔
      (total a = 0 ∨ eps < total a ∧ prior key total before (key a) = 0) ∧
        Unshadowed key total eps (before ++ [a]) l := by
  constructor
  · intro h
    refine ⟨?_, fun l₁ b l₂ hl => ?_⟩
    · simpa using h [] a l rfl
    · have hb := h (a :: l₁) b l₂ (by rw [hl]; rfl)
      rwa [List.append_assoc]
  · rintro ⟨ha, hl⟩ l₁ b l₂ he
    cases l₁ with
    | nil =>
      obtain ⟨rfl, rfl⟩ := List.cons.inj he
      simpa using ha
    | cons c l₁ =>
      obtain ⟨rfl, rfl⟩ := List.cons.inj he
      have hb := hl l₁ b l₂ rfl
      rwa [List.append_assoc] at hb

instance decidableUnshadowed :
    ∀ before l : List α, Decidable (Unshadowed key total eps before l)
  | before, [] => isTrue (unshadowed_nil before)
  | before, a :: l =>
    have := decidableUnshadowed (before ++ [a]) l
    decidable_of_iff _ unshadowed_cons.symm

theorem charged_cons (s : σ) (before : List α) (a : α) (l : List α) :
    charged key cls total eps s before (a :: l) =
      (if cls a = s then charge key total eps before a else 0) +
        charged key cls total eps s (before ++ [a]) l := rfl

variable [IsOrderedAddMonoid K]

theorem charge_le {before : List α} {a : α} (ha : 0 ≤ total a)
    (hb : ∀ b ∈ before, 0 ≤ total b) : charge key total eps before a ≤ total a := by
  unfold charge
  split_ifs
  · exact sub_le_self _ (prior_nonneg hb _)
  · exact ha

theorem charge_eq_iff (heps : 0 ≤ eps) {before : List α} {a : α}
    (hb : ∀ b ∈ before, 0 ≤ total b) :
    charge key total eps before a = total a ↔
      total a = 0 ∨ eps < total a ∧ prior key total before (key a) = 0 := by
  have hp : 0 ≤ prior key total before (key a) := prior_nonneg hb _
  unfold charge
  by_cases hlt : eps < total a - prior key total before (key a)
  · have hpos : eps < total a := lt_of_lt_of_le hlt (sub_le_self _ hp)
    rw [if_pos hlt, sub_eq_self]
    constructor
    · exact fun h => Or.inr ⟨hpos, h⟩
    · rintro (h | h)
      · exact absurd h (heps.trans_lt hpos).ne'
      · exact h.2
  · rw [if_neg hlt]
    constructor
    · exact fun h => Or.inl h.symm
    · rintro (h | h)
      · exact h.symm
      · rw [h.2, sub_zero] at hlt
        exact absurd h.1 hlt

theorem charged_le (s : σ) {l before : List α} (hl : ∀ a ∈ l, 0 ≤ total a)
    (hb : ∀ b ∈ before, 0 ≤ total b) :
    charged key cls total eps s before l ≤ reported cls total s l := by
  induction l generalizing before with
  | nil => exact le_rfl
  | cons a l ih =>
    have ha := hl a List.mem_cons_self
    rw [reported_cons]
    refine add_le_add ?_ (ih (fun b hb' => hl b (List.mem_cons_of_mem a hb')) ?_)
    · split_ifs
      · exact charge_le ha hb
      · exact le_rfl
    · intro b hb'
      rcases List.mem_append.mp hb' with hb' | hb'
      · exact hb b hb'
      · rw [List.mem_singleton.mp hb']
        exact ha

/-- Every class is charged in full exactly when no entry is shadowed. -/
theorem charged_eq_reported_iff (cls : α → σ) (heps : 0 ≤ eps) {l before : List α}
    (hl : ∀ a ∈ l, 0 ≤ total a)
    (hb : ∀ b ∈ before, 0 ≤ total b) :
    (∀ s, charged key cls total eps s before l = reported cls total s l) ↔
      Unshadowed key total eps before l := by
  induction l generalizing before with
  | nil =>
    exact ⟨fun _ => unshadowed_nil before, fun _ _ => rfl⟩
  | cons a l ih =>
    have ha := hl a List.mem_cons_self
    have hl' : ∀ b ∈ l, 0 ≤ total b := fun b hb' => hl b (List.mem_cons_of_mem a hb')
    have hb' : ∀ b ∈ before ++ [a], 0 ≤ total b := by
      intro b hb'
      rcases List.mem_append.mp hb' with hb' | hb'
      · exact hb b hb'
      · rw [List.mem_singleton.mp hb']
        exact ha
    rw [unshadowed_cons, ← ih hl' hb', ← charge_eq_iff heps hb]
    have hsplit : ∀ s, charged key cls total eps s before (a :: l) =
        reported cls total s (a :: l) ↔
          (cls a = s → charge key total eps before a = total a) ∧
            charged key cls total eps s (before ++ [a]) l = reported cls total s l := by
      intro s
      rw [reported_cons, charged_cons]
      rw [add_eq_add_iff_eq_and_eq _ (charged_le s hl' hb')]
      · refine and_congr_left fun _ => ?_
        by_cases hs : cls a = s
        · rw [if_pos hs, if_pos hs]
          exact ⟨fun h _ => h, fun h => h hs⟩
        · rw [if_neg hs, if_neg hs]
          exact ⟨fun _ h => absurd h hs, fun _ => rfl⟩
      · split_ifs
        · exact charge_le ha hb
        · exact le_rfl
    constructor
    · exact fun h => ⟨((hsplit (cls a)).mp (h (cls a))).1 rfl, fun s => ((hsplit s).mp (h s)).2⟩
    · exact fun h s => (hsplit s).mpr ⟨fun _ => h.1, h.2 s⟩

end DeltaLedger
end HoloMarket
