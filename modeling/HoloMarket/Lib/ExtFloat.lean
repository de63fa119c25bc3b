import HoloMarket.Lib.GreedyScan
import Mathlib.Algebra.Order.Group.Unbundled.Abs

/-!
# Floats with a NaN and infinities

The finite values are those of an ordered group, without rounding.  As in C++, every
ordered comparison with a NaN is false, so that `¬ a < b` and `b ≤ a` come apart.
-/

namespace HoloMarket

inductive ExtFloat (K : Type*) where
  | nan
  | inf (negative : Bool)
  | fin (x : K)
deriving DecidableEq, Repr

namespace ExtFloat

variable {K : Type*}

instance [Zero K] : Zero (ExtFloat K) := ⟨.fin 0⟩

instance [Neg K] : Neg (ExtFloat K) where
  neg
    | .nan => .nan
    | .inf negative => .inf !negative
    | .fin x => .fin (-x)

/-- `a < b` of the language. -/
protected def lt [LT K] : ExtFloat K → ExtFloat K → Prop
  | .nan, _ => False
  | _, .nan => False
  | .fin x, .fin y => x < y
  | .fin _, .inf negative => negative = false
  | .inf negative, .fin _ => negative = true
  | .inf negative, .inf negative' => negative = true ∧ negative' = false

instance [LT K] : LT (ExtFloat K) := ⟨ExtFloat.lt⟩

instance [LT K] [DecidableLT K] : DecidableLT (ExtFloat K)
  | .nan, .nan => isFalse id
  | .nan, .fin _ => isFalse id
  | .nan, .inf _ => isFalse id
  | .fin _, .nan => isFalse id
  | .inf _, .nan => isFalse id
  | .fin x, .fin y => inferInstanceAs (Decidable (x < y))
  | .fin _, .inf negative => inferInstanceAs (Decidable (negative = false))
  | .inf negative, .fin _ => inferInstanceAs (Decidable (negative = true))
  | .inf negative, .inf negative' =>
    inferInstanceAs (Decidable (negative = true ∧ negative' = false))

def isNan : ExtFloat K → Bool
  | .nan => true
  | _ => false

def isInf : ExtFloat K → Bool
  | .inf _ => true
  | _ => false

def isFinite : ExtFloat K → Bool
  | .fin _ => true
  | _ => false

theorem not_isFinite_of_isNan {a : ExtFloat K} (h : a.isNan) : ¬ a.isFinite := by
  cases a with
  | nan => exact Bool.noConfusion
  | inf _ | fin _ => exact Bool.noConfusion h

/-- `a >= b` of the language. -/
def Ge [LT K] (a b : ExtFloat K) : Prop := ¬ a.isNan ∧ ¬ b.isNan ∧ ¬ a < b

/-- The finite magnitude, zero for the values that have none. -/
def magnitude [Lattice K] [AddGroup K] : ExtFloat K → K
  | .fin x => |x|
  | _ => 0

section Compare

variable [LT K] {x y : K} {a : ExtFloat K}

@[simp] theorem fin_lt_fin : (fin x : ExtFloat K) < fin y ↔ x < y := Iff.rfl

@[simp] theorem not_nan_lt : ¬ (nan : ExtFloat K) < a := by
  cases a <;> exact id

@[simp] theorem not_lt_nan : ¬ a < (nan : ExtFloat K) := by
  cases a <;> exact id

end Compare

theorem not_lt_of_isNan [LT K] {a b : ExtFloat K} (h : a.isNan ∨ b.isNan) : ¬ a < b := by
  cases a with
  | nan => exact not_nan_lt
  | inf _ | fin _ =>
    cases b with
    | nan => exact not_lt_nan
    | inf _ | fin _ => rcases h with h | h <;> exact Bool.noConfusion h

/-! ## The running maximum -/

section RunningMax

variable {ε : Type*} [LT K] [DecidableLT K] {key : ε → ExtFloat K} {b : ε}

theorem better_of_isNan {e : ε} (h : (key b).isNan ∨ (key e).isNan) :
    better key (some b) e = some b := by
  unfold better
  rw [Option.all_some, if_neg]
  exact fun hlt => not_lt_of_isNan h (of_decide_eq_true hlt)

/-- A NaN that comes first stays. -/
theorem foldl_better_nan (hb : (key b).isNan) (es : List ε) :
    es.foldl (better key) (some b) = some b := by
  induction es with
  | nil => rfl
  | cons e es ih => rw [List.foldl_cons, better_of_isNan (.inl hb), ih]

theorem foldl_better_filter (best : ε) (es : List ε) :
    es.foldl (better key) (some best) =
      (es.filter fun e => !(key e).isNan).foldl (better key) (some best) := by
  induction es generalizing best with
  | nil => rfl
  | cons e es ih =>
    by_cases he : (key e).isNan
    · rw [List.foldl_cons, better_of_isNan (.inr he), ih,
        List.filter_cons_of_neg (by simpa using he)]
    · rw [List.foldl_cons, List.filter_cons_of_pos (by simpa using he), List.foldl_cons]
      unfold better
      split_ifs <;> exact ih _

theorem foldl_better_congr {κ : Type*} [LT κ] [DecidableLT κ] {val : ε → κ} {es : List ε}
    (h : ∀ a ∈ es, ∀ b ∈ es, key a < key b ↔ val a < val b) {best : Option ε}
    (hbest : ∀ a ∈ best, a ∈ es) {es' : List ε} (hsub : ∀ a ∈ es', a ∈ es) :
    es'.foldl (better key) best = es'.foldl (better val) best := by
  induction es' generalizing best with
  | nil => rfl
  | cons e es' ih =>
    have he := hsub e List.mem_cons_self
    have hstep : better key best e = better val best e := by
      unfold better
      cases best with
      | none => rfl
      | some b =>
        rw [Option.all_some, Option.all_some]
        exact if_congr (by rw [decide_eq_decide.mpr (h b (hbest b rfl) e he)]) rfl rfl
    rw [List.foldl_cons, List.foldl_cons, hstep]
    refine ih (fun a ha => ?_) fun a ha => hsub a (List.mem_cons_of_mem e ha)
    unfold better at ha
    split_ifs at ha
    · exact Option.mem_some_iff.mp ha ▸ he
    · exact hbest a ha

theorem foldl_better_inf_self (hb : key b = .inf false) (es : List ε) :
    es.foldl (better key) (some b) = some b := by
  induction es with
  | nil => rfl
  | cons e es ih =>
    have hstay : better key (some b) e = some b := by
      unfold better
      rw [Option.all_some, if_neg]
      intro hlt
      have hlt := of_decide_eq_true hlt
      rw [hb] at hlt
      cases he : key e <;> rw [he] at hlt
      · exact hlt
      · exact Bool.noConfusion hlt.1
      · exact Bool.noConfusion (show false = true from hlt)
    rw [List.foldl_cons, hstay, ih]

/-- An infinity wins unless a NaN comes first. -/
theorem foldl_better_inf {es : List ε} (hb : ¬ (key b).isNan)
    (hinf : ∃ x ∈ b :: es, key x = .inf false) :
    ∃ w, es.foldl (better key) (some b) = some w ∧ key w = .inf false := by
  induction es generalizing b with
  | nil =>
    obtain ⟨x, hx, hkey⟩ := hinf
    obtain rfl := List.mem_singleton.mp hx
    exact ⟨x, rfl, hkey⟩
  | cons e es ih =>
    by_cases hbinf : key b = .inf false
    · exact ⟨b, foldl_better_inf_self hbinf _, hbinf⟩
    obtain ⟨x, hx, hkey⟩ := hinf
    have hxe : x ∈ e :: es := (List.mem_cons.mp hx).resolve_left fun h => hbinf (h ▸ hkey)
    rw [List.foldl_cons]
    unfold better
    rw [Option.all_some]
    split_ifs with hlt
    · refine ih (fun hnan => ?_) ⟨x, hxe, hkey⟩
      exact not_lt_of_isNan (.inr hnan) (of_decide_eq_true hlt)
    · refine ih hb ⟨x, List.mem_cons_of_mem b ((List.mem_cons.mp hxe).resolve_left ?_), hkey⟩
      rintro rfl
      refine hlt (decide_eq_true ?_)
      rw [hkey]
      cases hkb : key b with
      | nan => exact hb (by rw [hkb]; rfl)
      | inf negative =>
        cases negative with
        | false => exact absurd hkb hbinf
        | true => exact ⟨rfl, rfl⟩
      | fin y => exact rfl

end RunningMax

/-! ## Greedy selection -/

section Greedy

variable {ε : Type*} [LinearOrder K] {key : ε → ExtFloat K} {val : ε → K} {pool : List ε}

/-- After a finite item the maximum is the one among the finite items. -/
theorem runningMax_isFinite {b : ε} {es : List ε}
    (hes : ∀ e ∈ b :: es, (key e).isNan ∨ key e = .fin (val e)) (hb : key b = .fin (val b)) :
    ∃ w, runningMax val ((b :: es).filter fun e => (key e).isFinite) = some w ∧
      (key w).isFinite ∧
        runningMax key (b :: es) = runningMax val ((b :: es).filter fun e => (key e).isFinite) := by
  have hbfin : (key b).isFinite := by rw [hb]; rfl
  have hsame : (es.filter fun e => !(key e).isNan) = es.filter fun e => (key e).isFinite := by
    refine List.filter_congr fun e he => ?_
    rcases hes e (List.mem_cons_of_mem b he) with hnan | hfin
    · rw [hnan, Bool.eq_false_iff.mpr (not_isFinite_of_isNan hnan)]
      rfl
    · rw [hfin]
      rfl
  have hval : ∀ e ∈ b :: es.filter (fun e => (key e).isFinite), key e = .fin (val e) := by
    intro e he
    rcases List.mem_cons.mp he with rfl | he
    · exact hb
    · obtain ⟨he, hfin⟩ := List.mem_filter.mp he
      exact (hes e (List.mem_cons_of_mem b he)).resolve_left fun hnan =>
        not_isFinite_of_isNan hnan hfin
  have hcons : ((b :: es).filter fun e => (key e).isFinite) =
      b :: es.filter fun e => (key e).isFinite := List.filter_cons_of_pos hbfin
  rw [hcons]
  obtain ⟨pre, w, post, hsplit, hw, -, -⟩ :=
    foldl_better val b (es.filter fun e => (key e).isFinite)
  have hmem : w ∈ b :: es.filter fun e => (key e).isFinite := by
    rw [hsplit]
    exact List.mem_append_right _ List.mem_cons_self
  refine ⟨w, hw, by rw [hval w hmem]; rfl, ?_⟩
  calc runningMax key (b :: es)
      = es.foldl (better key) (some b) := rfl
    _ = (es.filter fun e => (key e).isFinite).foldl (better key) (some b) := by
        rw [foldl_better_filter, hsame]
    _ = (es.filter fun e => (key e).isFinite).foldl (better val) (some b) := by
        have hcmp : ∀ x ∈ b :: es.filter (fun e => (key e).isFinite),
            ∀ y ∈ b :: es.filter (fun e => (key e).isFinite), key x < key y ↔ val x < val y :=
          fun x hx y hy => by
            rw [hval x hx, hval y hy]
            exact fin_lt_fin
        refine foldl_better_congr hcmp (fun a ha => ?_) fun a ha => List.mem_cons_of_mem b ha
        exact Option.some_inj.mp ha ▸ List.mem_cons_self

/-- Over keys that are NaN or finite, the places are filled with finite items exactly
when no NaN is the first free item of a place; the items are then those that the
finite ones alone would give. -/
theorem forall_isFinite_fillApart_iff (clash : ε → ε → Prop) [DecidableRel clash]
    (hpool : ∀ e ∈ pool, (key e).isNan ∨ key e = .fin (val e)) (n : Nat) (kept : List ε) :
    (∀ e ∈ fillApart clash (runningMax key) pool n kept, (key e).isFinite) ↔
      ∀ k < n, ∀ e ∈ (pool.filter fun e => Apart clash
        ((fillApart clash (runningMax val) (pool.filter fun e => (key e).isFinite)
          n kept).take k ++ kept) e).head?, ¬ (key e).isNan := by
  induction n generalizing kept with
  | zero => simp [fillApart]
  | succ n ih =>
    have hswap : ((pool.filter fun e => (key e).isFinite).filter fun e => Apart clash kept e) =
        (pool.filter fun e => Apart clash kept e).filter fun e => (key e).isFinite :=
      List.filter_comm ..
    have hsub : ∀ e ∈ pool.filter (fun e => Apart clash kept e),
        (key e).isNan ∨ key e = .fin (val e) := fun e he => hpool e (List.mem_filter.mp he).1
    rw [fillApart, fillApart, hswap]
    cases hfree : pool.filter fun e => Apart clash kept e with
    | nil => simp [runningMax, hfree]
    | cons b es =>
      rw [hfree] at hsub
      rcases hsub b List.mem_cons_self with hb | hb
      · have hchoice : runningMax key (b :: es) = some b := foldl_better_nan hb es
        rw [hchoice]
        refine ⟨fun h => absurd (h b List.mem_cons_self) (not_isFinite_of_isNan hb),
          fun h => absurd hb ?_⟩
        refine h 0 (Nat.succ_pos n) b ?_
        rw [List.take_zero, List.nil_append, hfree]
        rfl
      · obtain ⟨w, hw, hwfin, hchoice⟩ := runningMax_isFinite hsub hb
        rw [hchoice, hw]
        show (∀ e ∈ w :: fillApart clash (runningMax key) pool n (w :: kept),
            (key e).isFinite = true) ↔
          ∀ k < n + 1, ∀ e ∈ (pool.filter fun e => Apart clash
            ((w :: fillApart clash (runningMax val) (pool.filter fun e => (key e).isFinite)
              n (w :: kept)).take k ++ kept) e).head?, ¬ (key e).isNan = true
        rw [List.forall_mem_cons, and_iff_right hwfin, ih]
        have hmove : ∀ k, (pool.filter fun e => Apart clash
            ((w :: fillApart clash (runningMax val) (pool.filter fun e => (key e).isFinite)
              n (w :: kept)).take (k + 1) ++ kept) e) = pool.filter fun e => Apart clash
            ((fillApart clash (runningMax val) (pool.filter fun e => (key e).isFinite)
              n (w :: kept)).take k ++ w :: kept) e := fun k => by
          refine List.filter_congr fun e _ => decide_eq_decide.mpr ?_
          unfold Apart
          refine forall_congr' fun x => imp_congr_left ?_
          rw [List.take_succ_cons, List.mem_append, List.mem_append, List.mem_cons, List.mem_cons,
            or_assoc, or_left_comm]
        constructor
        · intro h k hk e he
          cases k with
          | zero =>
            rw [List.take_zero, List.nil_append, hfree] at he
            obtain rfl := Option.some_inj.mp he
            rw [hb]
            exact Bool.noConfusion
          | succ k =>
            rw [hmove] at he
            exact h k (Nat.lt_of_succ_lt_succ hk) e he
        · intro h k hk e he
          refine h (k + 1) (Nat.succ_lt_succ hk) e ?_
          rw [hmove]
          exact he

end Greedy

end ExtFloat
end HoloMarket
