import Mathlib.Data.List.Basic
import Mathlib.Order.Lattice

/-!
# Greedy selection of items that do not clash

`scanApart` goes once through a list and keeps every item that clashes with none
of those it has kept.  `fillApart` fills one place after another, each with the
first choice among the items still free.  The two agree when the first choice
from a part of the pool is the first of that part in the list.
-/

namespace HoloMarket

variable {ε : Type*} (clash : ε → ε → Prop) [DecidableRel clash]

/-- The item clashes with none of `kept`. -/
def Apart (kept : List ε) (e : ε) : Prop := ∀ k ∈ kept, ¬ clash k e

instance (kept : List ε) (e : ε) : Decidable (Apart clash kept e) :=
  inferInstanceAs (Decidable (∀ k ∈ kept, ¬ clash k e))

/-- The items kept from a list after those of `kept`. -/
def scanApart : List ε → List ε → List ε
  | _, [] => []
  | kept, e :: es =>
    if Apart clash kept e then e :: scanApart (e :: kept) es else scanApart kept es

/-- `n` places filled from `pool`, each with the `choice` among the free items. -/
def fillApart (choice : List ε → Option ε) (pool : List ε) : Nat → List ε → List ε
  | 0, _ => []
  | n + 1, kept =>
    match choice (pool.filter fun e => Apart clash kept e) with
    | none => []
    | some e => e :: fillApart choice pool n (e :: kept)

variable {clash} {kept es pre : List ε} {e : ε}

omit [DecidableRel clash] in
theorem Apart.tail {k : ε} (h : Apart clash (k :: kept) e) : Apart clash kept e :=
  fun x hx => h x (List.mem_cons_of_mem k hx)

omit [DecidableRel clash] in
theorem not_apart : ¬ Apart clash kept e ↔ ∃ k ∈ kept, clash k e := by
  unfold Apart
  simp

theorem scanApart_skip (h : ∀ x ∈ pre, ¬ Apart clash kept x) :
    scanApart clash kept (pre ++ es) = scanApart clash kept es := by
  induction pre with
  | nil => rfl
  | cons x pre ih =>
    rw [List.cons_append, scanApart, if_neg (h x List.mem_cons_self)]
    exact ih fun y hy => h y (List.mem_cons_of_mem x hy)

theorem scanApart_subset : ∀ x ∈ scanApart clash kept es, x ∈ es ∧ Apart clash kept x := by
  induction es generalizing kept with
  | nil => exact fun x hx => absurd hx List.not_mem_nil
  | cons e es ih =>
    intro x hx
    rw [scanApart] at hx
    split_ifs at hx with h
    · rcases List.mem_cons.mp hx with rfl | hx
      · exact ⟨List.mem_cons_self, h⟩
      · exact ⟨List.mem_cons_of_mem e (ih x hx).1, (ih x hx).2.tail⟩
    · exact ⟨List.mem_cons_of_mem e (ih x hx).1, (ih x hx).2⟩

theorem pairwise_scanApart (kept es : List ε) :
    (scanApart clash kept es).Pairwise fun k e => ¬ clash k e := by
  induction es generalizing kept with
  | nil => exact List.Pairwise.nil
  | cons e es ih =>
    rw [scanApart]
    split_ifs with h
    · refine List.pairwise_cons.mpr ⟨fun x hx => ?_, ih _⟩
      exact (scanApart_subset x hx).2 e List.mem_cons_self
    · exact ih _

/-- Nothing more could be kept. -/
theorem scanApart_maximal (hself : ∀ e, clash e e) (kept : List ε) {x : ε} (hx : x ∈ es) :
    ¬ Apart clash (scanApart clash kept es ++ kept) x := by
  induction es generalizing kept with
  | nil => exact absurd hx List.not_mem_nil
  | cons e es ih =>
    rw [scanApart]
    split_ifs with h
    · intro hapart
      rcases List.mem_cons.mp hx with rfl | hx
      · exact hapart x (List.mem_append_left _ List.mem_cons_self) (hself x)
      · refine ih (e :: kept) hx fun k hk => hapart k ?_
        rcases List.mem_append.mp hk with hk | hk
        · exact List.mem_append_left _ (List.mem_cons_of_mem e hk)
        · rcases List.mem_cons.mp hk with rfl | hk
          · exact List.mem_append_left _ List.mem_cons_self
          · exact List.mem_append_right _ hk
    · rcases List.mem_cons.mp hx with rfl | hx
      · exact fun hapart => h fun k hk => hapart k (List.mem_append_right _ hk)
      · exact ih kept hx

/-- A choice that is the first of `ranked` fills the places as one scan of `ranked`
does. -/
theorem fillApart_eq_scanApart (hself : ∀ e, clash e e) {choice : List ε → Option ε}
    {pool ranked : List ε}
    (hchoice : ∀ p : ε → Bool, choice (pool.filter p) = (ranked.filter p).head?)
    (n : Nat) (kept : List ε) :
    fillApart clash choice pool n kept = (scanApart clash kept ranked).take n := by
  induction n generalizing kept with
  | zero => rw [fillApart, List.take_zero]
  | succ n ih =>
    rw [fillApart, hchoice]
    cases hfree : ranked.filter fun e => Apart clash kept e with
    | nil =>
      have hnone : ∀ x ∈ ranked, ¬ Apart clash kept x := fun x hx hapart => by
        have hmem : x ∈ ranked.filter fun e => Apart clash kept e :=
          List.mem_filter.mpr ⟨hx, decide_eq_true hapart⟩
        rw [hfree] at hmem
        exact List.not_mem_nil hmem
      have hscan : scanApart clash kept (ranked ++ []) = [] := scanApart_skip hnone
      rw [List.append_nil] at hscan
      rw [hscan]
      rfl
    | cons e rest =>
      obtain ⟨pre, post, hsplit, hpre, he, -⟩ := List.filter_eq_cons_iff.mp hfree
      have hskip : ∀ x ∈ pre, ¬ Apart clash kept x := fun x hx hapart =>
        hpre x hx (decide_eq_true hapart)
      have hagain : scanApart clash (e :: kept) ranked = scanApart clash (e :: kept) post := by
        rw [hsplit, List.append_cons]
        refine scanApart_skip fun x hx hapart => ?_
        rcases List.mem_append.mp hx with hx | hx
        · exact hskip x hx hapart.tail
        · rw [List.mem_singleton.mp hx] at hapart
          exact hapart e List.mem_cons_self (hself e)
      have hfirst : scanApart clash kept ranked = e :: scanApart clash (e :: kept) ranked := by
        rw [hagain, hsplit, scanApart_skip hskip, scanApart, if_pos (of_decide_eq_true he)]
      rw [hfirst, List.take_succ_cons]
      exact congrArg (e :: ·) (ih (e :: kept))

theorem fillApart_subset {choice : List ε → Option ε} (hchoice : ∀ l, ∀ e ∈ choice l, e ∈ l)
    {pool : List ε} (n : Nat) (kept : List ε) :
    ∀ e ∈ fillApart clash choice pool n kept, e ∈ pool := by
  induction n generalizing kept with
  | zero => exact fun e he => absurd he List.not_mem_nil
  | succ n ih =>
    intro e he
    rw [fillApart] at he
    split at he
    · exact absurd he List.not_mem_nil
    · rename_i w hw
      rcases List.mem_cons.mp he with rfl | he
      · exact (List.mem_filter.mp (hchoice _ e hw)).1
      · exact ih _ e he

/-! ## The running maximum -/

section RunningMax

variable {κ : Type*} [LT κ] [DecidableLT κ] (key : ε → κ)

/-- The first item, or a later one that beats the best so far. -/
def better (best : Option ε) (e : ε) : Option ε :=
  if best.all fun b => decide (key b < key e) then some e else best

/-- The best of a list in one pass. -/
def runningMax (es : List ε) : Option ε := es.foldl (better key) none

variable {key}

theorem mem_of_foldl_better {best : Option ε} {es : List ε} {w : ε}
    (h : es.foldl (better key) best = some w) : best = some w ∨ w ∈ es := by
  induction es generalizing best with
  | nil => exact .inl h
  | cons e es ih =>
    rcases ih h with hbest | hmem
    · unfold better at hbest
      split_ifs at hbest
      · exact .inr (Option.some_inj.mp hbest ▸ List.mem_cons_self)
      · exact .inl hbest
    · exact .inr (List.mem_cons_of_mem e hmem)

theorem exists_foldl_better (key : ε → κ) (b : ε) (es : List ε) :
    ∃ w, es.foldl (better key) (some b) = some w := by
  induction es generalizing b with
  | nil => exact ⟨b, rfl⟩
  | cons e es ih =>
    rw [List.foldl_cons]
    unfold better
    split_ifs <;> exact ih _

theorem mem_of_runningMax (es : List ε) : ∀ w ∈ runningMax key es, w ∈ es :=
  fun _ hw => (mem_of_foldl_better hw).resolve_left (Option.some_ne_none _).symm

end RunningMax

section Order

variable {κ : Type*} [LinearOrder κ] {key : ε → κ}

theorem better_none (e : ε) : better key none e = some e := rfl

theorem better_some (b e : ε) :
    better key (some b) e = if key b < key e then some e else some b := by
  unfold better
  simp

/-- The pass ends with an item no worse than any, and better than those before it. -/
theorem foldl_better (key : ε → κ) (b : ε) (es : List ε) :
    ∃ pre w post, b :: es = pre ++ w :: post ∧ es.foldl (better key) (some b) = some w ∧
      (∀ x ∈ pre, key x < key w) ∧ ∀ x ∈ post, key x ≤ key w := by
  induction es generalizing b with
  | nil =>
    refine ⟨[], b, [], rfl, rfl, ?_, ?_⟩ <;> exact fun x hx => absurd hx List.not_mem_nil
  | cons e es ih =>
    rw [List.foldl_cons, better_some]
    split_ifs with h
    · obtain ⟨pre, w, post, hsplit, hw, hpre, hpost⟩ := ih e
      refine ⟨b :: pre, w, post, by rw [hsplit]; rfl, hw, fun x hx => ?_, hpost⟩
      have hew : key e ≤ key w := by
        have hmem : e ∈ pre ++ w :: post := hsplit ▸ List.mem_cons_self
        rcases List.mem_append.mp hmem with hmem | hmem
        · exact (hpre e hmem).le
        · rcases List.mem_cons.mp hmem with rfl | hmem
          · exact le_rfl
          · exact hpost e hmem
      rcases List.mem_cons.mp hx with rfl | hx
      · exact h.trans_le hew
      · exact hpre x hx
    · obtain ⟨pre, w, post, hsplit, hw, hpre, hpost⟩ := ih b
      cases pre with
      | nil =>
        rw [List.nil_append, List.cons.injEq] at hsplit
        obtain ⟨rfl, rfl⟩ := hsplit
        refine ⟨[], b, e :: es, rfl, hw, hpre, fun x hx => ?_⟩
        rcases List.mem_cons.mp hx with rfl | hx
        · exact not_lt.mp h
        · exact hpost x hx
      | cons b' pre =>
        rw [List.cons_append, List.cons.injEq] at hsplit
        obtain ⟨rfl, rfl⟩ := hsplit
        refine ⟨b :: e :: pre, w, post, rfl, hw, fun x hx => ?_, hpost⟩
        have hb := hpre b List.mem_cons_self
        rcases List.mem_cons.mp hx with rfl | hx
        · exact hb
        · rcases List.mem_cons.mp hx with rfl | hx
          · exact (not_lt.mp h).trans_lt hb
          · exact hpre x (List.mem_cons_of_mem _ hx)

end Order

/-! ## The ranking behind the running maximum -/

section Ranked

variable {κ : Type*} [LinearOrder κ] [LinearOrder ε] (key : ε → κ)

/-- `a` is ranked no later than `b`: it has the larger key, or the same key and is not
the later one. -/
def RankedBefore (a b : ε) : Prop := key b < key a ∨ (key a = key b ∧ a ≤ b)

instance : DecidableRel (RankedBefore key) := fun _ _ => inferInstanceAs (Decidable (_ ∨ _))

/-- The pool by decreasing key, equal keys in increasing order. -/
def ranked (pool : List ε) : List ε := pool.mergeSort fun a b => RankedBefore key a b

variable {key} {pool : List ε}

theorem rankedBefore_total (a b : ε) : RankedBefore key a b ∨ RankedBefore key b a := by
  rcases lt_trichotomy (key a) (key b) with h | h | h
  · exact .inr (.inl h)
  · exact (le_total a b).imp (fun hab => .inr ⟨h, hab⟩) fun hba => .inr ⟨h.symm, hba⟩
  · exact .inl (.inl h)

theorem RankedBefore.trans {a b c : ε} (hab : RankedBefore key a b)
    (hbc : RankedBefore key b c) : RankedBefore key a c := by
  rcases hab with hab | ⟨hab, hle⟩ <;> rcases hbc with hbc | ⟨hbc, hle'⟩
  · exact .inl (hbc.trans hab)
  · exact .inl (hbc ▸ hab)
  · exact .inl (hab ▸ hbc)
  · exact .inr ⟨hab.trans hbc, hle.trans hle'⟩

theorem ranked_perm (key : ε → κ) (pool : List ε) : (ranked key pool).Perm pool :=
  List.mergeSort_perm _ _

theorem pairwise_ranked (key : ε → κ) (pool : List ε) :
    (ranked key pool).Pairwise (RankedBefore key) := by
  refine (List.pairwise_mergeSort (fun a b c hab hbc => ?_) (fun a b => ?_) pool).imp
    of_decide_eq_true
  · exact decide_eq_true ((of_decide_eq_true hab).trans (of_decide_eq_true hbc))
  · simpa using rankedBefore_total a b

/-- The running maximum over any part of an ascending pool is the first of that part
in the ranking. -/
theorem runningMax_filter (hpool : pool.Pairwise (· < ·)) (p : ε → Bool) :
    runningMax key (pool.filter p) = ((ranked key pool).filter p).head? := by
  have hperm := (ranked_perm key pool).filter p
  have hsorted := (pairwise_ranked key pool).filter p
  have hasc := hpool.filter p
  cases hs : (ranked key pool).filter p with
  | nil =>
    rw [hs] at hperm
    rw [List.nil_perm.mp hperm]
    rfl
  | cons h t =>
    rw [hs] at hperm hsorted
    cases hl : pool.filter p with
    | nil =>
      rw [hl] at hperm
      exact absurd (List.perm_nil.mp hperm) (List.cons_ne_nil h t)
    | cons b es =>
      rw [hl] at hperm hasc
      obtain ⟨pre, w, post, hsplit, hw, hpre, hpost⟩ := foldl_better key b es
      have hrun : runningMax key (b :: es) = some w := by
        rw [runningMax, List.foldl_cons, better_none]
        exact hw
      rw [hrun, List.head?_cons, Option.some_inj]
      -- the first of the ranking is nowhere else in the split
      have hhead : RankedBefore key h w := by
        have hmem : w ∈ h :: t := hperm.mem_iff.mpr (by rw [hsplit]; simp)
        rcases List.mem_cons.mp hmem with rfl | hmem
        · exact .inr ⟨rfl, le_rfl⟩
        · exact (List.pairwise_cons.mp hsorted).1 w hmem
      have hmem : h ∈ pre ++ w :: post := by
        rw [← hsplit]
        exact hperm.mem_iff.mp List.mem_cons_self
      rcases List.mem_append.mp hmem with hmem | hmem
      · have hlt := hpre h hmem
        rcases hhead with hgt | ⟨heq, -⟩
        · exact absurd hlt hgt.asymm
        · exact absurd heq hlt.ne
      · rcases List.mem_cons.mp hmem with rfl | hmem
        · rfl
        · have hlater : w < h := by
            rw [hsplit] at hasc
            exact (List.pairwise_cons.mp (List.pairwise_append.mp hasc).2.1).1 h hmem
          rcases hhead with hgt | ⟨-, hle⟩
          · exact absurd (hpost h hmem) hgt.not_ge
          · exact absurd hle hlater.not_ge

end Ranked

end HoloMarket
