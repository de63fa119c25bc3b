import Mathlib.Logic.Function.Basic

/-!
# Cells that two threads share

A writer is a list of stores.  A reader is a program that asks for one cell at a
time, so that the other thread may store between any two of its reads.
-/

namespace HoloMarket
namespace SharedCells

variable {C : Type} (V : C → Type)

/-- The contents of all cells. -/
abbrev Memory : Type := ∀ c, V c

/-- One store, or one read with the value it returned. -/
structure Access where
  cell : C
  value : V cell

/-- A thread that only reads. -/
inductive Reads (β : Type) where
  | done (b : β)
  | read (c : C) (k : V c → Reads β)

variable {V} {β γ : Type}

/-- The access agrees with the memory. -/
def Access.Holds (a : Access V) (m : Memory V) : Prop := m a.cell = a.value

namespace Reads

/-- What the thread returns when nobody stores while it runs. -/
def eval (m : Memory V) : Reads V β → β
  | .done b => b
  | .read c k => (k (m c)).eval m

def bind : Reads V β → (β → Reads V γ) → Reads V γ
  | .done b, f => f b
  | .read c k, f => .read c fun v => (k v).bind f

/-- A single read. -/
def get (c : C) : Reads V (V c) := .read c .done

instance : Monad (Reads V) where
  pure := .done
  bind := bind

/-- Copies cells one after another into a local value that starts as `v`. -/
def copy {ι : Type} [DecidableEq ι] (cell : ι → C) :
    List ι → (∀ i, V (cell i)) → Reads V (∀ i, V (cell i))
  | [], v => .done v
  | i :: is, v => .read (cell i) fun x => copy cell is (Function.update v i x)

@[simp] theorem eval_done (m : Memory V) (b : β) : (done b : Reads V β).eval m = b := rfl

@[simp] theorem eval_read (m : Memory V) (c : C) (k : V c → Reads V β) :
    (read c k).eval m = (k (m c)).eval m := rfl

@[simp] theorem eval_pure (m : Memory V) (b : β) : (pure b : Reads V β).eval m = b := rfl

@[simp] theorem eval_get (m : Memory V) (c : C) : (get c).eval m = m c := rfl

@[simp] theorem eval_bind (m : Memory V) (p : Reads V β) (f : β → Reads V γ) :
    (p >>= f).eval m = (f (p.eval m)).eval m := by
  induction p with
  | done b => rfl
  | read c k ih => exact ih (m c)

section Copy
variable {ι : Type} [DecidableEq ι] {cell : ι → C}

theorem eval_copy_of_not_mem {i : ι} {is : List ι} (hi : i ∉ is) {v : ∀ i, V (cell i)}
    (m : Memory V) : (copy cell is v).eval m i = v i := by
  induction is generalizing v with
  | nil => rfl
  | cons j is ih =>
    have hne : i ≠ j := fun he => hi (he ▸ List.mem_cons_self)
    have hrest : i ∉ is := fun h => hi (List.mem_cons_of_mem j h)
    exact (ih hrest).trans (Function.update_of_ne hne _ _)

theorem eval_copy_of_mem {i : ι} {is : List ι} (hi : i ∈ is) {v : ∀ i, V (cell i)}
    (m : Memory V) : (copy cell is v).eval m i = m (cell i) := by
  induction is generalizing v with
  | nil => exact absurd hi List.not_mem_nil
  | cons j is ih =>
    by_cases hrest : i ∈ is
    · exact ih hrest
    · obtain rfl := (List.mem_cons.mp hi).resolve_right hrest
      exact (eval_copy_of_not_mem hrest m).trans (Function.update_self _ _ _)

end Copy

/-! ## The cells that a thread may ask for -/

/-- Whatever it is told, the thread asks for cells of `P` only and returns a
value of `Q`. -/
def Within (P : C → Prop) (Q : β → Prop) : Reads V β → Prop
  | .done b => Q b
  | .read c k => P c ∧ ∀ v, (k v).Within P Q

variable {P : C → Prop} {Q : β → Prop} {R : γ → Prop}

@[simp] theorem within_done {b : β} : (done b : Reads V β).Within P Q ↔ Q b := Iff.rfl

@[simp] theorem within_read {c : C} {k : V c → Reads V β} :
    (read c k).Within P Q ↔ P c ∧ ∀ v, (k v).Within P Q := Iff.rfl

@[simp] theorem within_pure {b : β} : (pure b : Reads V β).Within P Q ↔ Q b := Iff.rfl

theorem within_get {c : C} (h : P c) : (get c : Reads V (V c)).Within P fun _ => True :=
  ⟨h, fun _ => trivial⟩

theorem Within.bind {p : Reads V β} {f : β → Reads V γ} (hp : p.Within P Q)
    (hf : ∀ b, Q b → (f b).Within P R) : (p >>= f).Within P R := by
  induction p with
  | done b => exact hf b hp
  | read c k ih => exact ⟨hp.1, fun v => ih v (hp.2 v)⟩

theorem within_copy {ι : Type} [DecidableEq ι] {cell : ι → C} (h : ∀ i, P (cell i))
    (is : List ι) (v : ∀ i, V (cell i)) : (copy cell is v).Within P fun _ => True := by
  induction is generalizing v with
  | nil => trivial
  | cons i is ih => exact ⟨h i, fun x => ih _⟩

/-- Stores elsewhere do not show. -/
theorem Within.eval_congr {p : Reads V β} (hp : p.Within P Q) {m m' : Memory V}
    (h : ∀ c, P c → m' c = m c) : p.eval m' = p.eval m := by
  induction p with
  | done b => rfl
  | read c k ih =>
    rw [eval_read, eval_read, h c hp.1]
    exact ih (m c) (hp.2 (m c))

end Reads

/-! ## A list of stores under way -/

theorem Access.eq_of_holds {a b : Access V} {m : Memory V} (ha : a.Holds m) (hb : b.Holds m)
    (hcell : a.cell = b.cell) : a = b := by
  cases a
  cases b
  cases hcell
  exact congrArg (Access.mk _) (ha.symm.trans hb)

/-- The stores of `all` that are not in `todo` any more have been made.  All of
them build one and the same memory, so that none undoes another. -/
structure Writing (all todo : List (Access V)) (m : Memory V) : Prop where
  sub : todo ⊆ all
  agree : ∃ target : Memory V, ∀ a ∈ all, a.Holds target
  made : ∀ a ∈ all, a ∈ todo ∨ a.Holds m

namespace Writing

variable {all todo todo' : List (Access V)} {m m' : Memory V}

theorem start {target : Memory V} (h : ∀ a ∈ all, a.Holds target) : Writing all all m :=
  ⟨List.Subset.refl _, ⟨target, h⟩, fun _ ha => Or.inl ha⟩

theorem done (h : Writing all [] m) {a : Access V} (ha : a ∈ all) : a.Holds m :=
  (h.made a ha).resolve_left List.not_mem_nil

theorem frame (h : Writing all todo m) (hm : ∀ a ∈ all, m' a.cell = m a.cell) :
    Writing all todo m' where
  sub := h.sub
  agree := h.agree
  made a ha := (h.made a ha).imp_right (hm a ha).trans

/-- Of the stores of one stage, all but number `n` remain. -/
theorem mem_or_mem_eraseIdx {α : Type} {l : List α} {n : Nat} {a b : α} (h : l[n]? = some a)
    (hb : b ∈ l) : b = a ∨ b ∈ l.eraseIdx n := by
  obtain ⟨k, hk⟩ := List.mem_iff_getElem?.mp hb
  by_cases hkn : k = n
  · rw [hkn, h] at hk
    exact Or.inl (Option.some.inj hk).symm
  · exact Or.inr (List.mem_eraseIdx_iff_getElem?.mpr ⟨k, hkn, hk⟩)

variable [DecidableEq C]

theorem store (h : Writing all todo m) {a : Access V} (ha : a ∈ todo)
    (hsub : todo' ⊆ todo) (hrest : ∀ b ∈ todo, b = a ∨ b ∈ todo') :
    Writing all todo' (Function.update m a.cell a.value) where
  sub := List.Subset.trans hsub h.sub
  agree := h.agree
  made b hb := by
    obtain ⟨target, htarget⟩ := h.agree
    by_cases hcell : b.cell = a.cell
    · rw [Access.eq_of_holds (htarget b hb) (htarget a (h.sub ha)) hcell]
      exact Or.inr (Function.update_self _ _ _)
    · rcases h.made b hb with htodo | hm
      · exact (hrest b htodo).elim (fun he => absurd (he ▸ rfl) hcell) Or.inl
      · exact Or.inr ((Function.update_of_ne hcell _ _).trans hm)

end Writing
end SharedCells
end HoloMarket
