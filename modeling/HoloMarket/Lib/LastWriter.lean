import Mathlib.Logic.Function.Basic
import Mathlib.Data.List.Basic

/-!
# Last writer wins

A memory is a function from addresses to values.  After a list of writes an
address holds what the last write addressed to it has left there.
-/

namespace HoloMarket

variable {ω α V : Type*} [DecidableEq α]

/-- The last of the writes addressed to `a`. -/
def lastTo (addr : ω → α) (ws : List ω) (a : α) : Option ω :=
  ws.reverse.find? fun w => addr w = a

variable {addr : ω → α} {val : ω → V}

@[simp] theorem lastTo_nil (a : α) : lastTo addr [] a = none := rfl

theorem lastTo_concat (ws : List ω) (w : ω) (a : α) :
    lastTo addr (ws ++ [w]) a = if addr w = a then some w else lastTo addr ws a := by
  unfold lastTo
  rw [List.reverse_append, List.reverse_singleton, List.singleton_append, List.find?_cons]
  by_cases h : addr w = a <;> simp [h]

/-- What the memory `m` holds after the writes. -/
def heldAt (addr : ω → α) (val : ω → V) (ws : List ω) (m : α → V) (a : α) : V :=
  ((lastTo addr ws a).map val).getD (m a)

@[simp] theorem heldAt_nil (m : α → V) : heldAt addr val [] m = m := rfl

theorem heldAt_concat (ws : List ω) (w : ω) (m : α → V) :
    heldAt addr val (ws ++ [w]) m = Function.update (heldAt addr val ws m) (addr w) (val w) := by
  funext a
  unfold heldAt
  rw [lastTo_concat]
  by_cases h : addr w = a
  · subst h
    simp
  · rw [if_neg h, Function.update_of_ne (Ne.symm h)]

/-- A function of what is held is held when it is what is written. -/
theorem heldAt_map {V' : Type*} (f : V → V') {m : α → V} {m' : α → V'} {a : α}
    (hm : m' a = f (m a)) (ws : List ω) :
    heldAt addr (fun w => f (val w)) ws m' a = f (heldAt addr val ws m a) := by
  unfold heldAt
  cases lastTo addr ws a with
  | none => exact hm
  | some w => rfl

end HoloMarket
