import Mathlib.Algebra.BigOperators.Group.Finset.Basic
import Mathlib.Algebra.Ring.Parity
import HoloMarket.Lib.DeviceBuffer
import HoloMarket.Math.FloerHomology

/-!
# The cells of the boundary matrix

The instanton kernel joins every two critical points of different Morse index,
once, from the lower to the upper.  The boundary kernel therefore sets the cell
at row `d` and column `s` exactly when the index of `d` is one more than that of
`s`.
-/

namespace HoloMarket

section
variable {K : Type*} {criticals : List (CriticalPoint K)}

/-! ## Grades -/

theorem gradeAt_eq_some {i : Nat} {grade : MorseIndex} :
    gradeAt criticals i = some grade ↔
      ∃ cp, criticals[i]? = some cp ∧ cp.morseIndex = grade := by
  unfold gradeAt
  exact Option.map_eq_some_iff

theorem lt_length_of_gradeAt {i : Nat} {grade : MorseIndex}
    (h : gradeAt criticals i = some grade) : i < criticals.length := by
  obtain ⟨cp, hcp, -⟩ := gradeAt_eq_some.mp h
  exact (List.getElem?_eq_some_iff.mp hcp).1

theorem exists_gradeAt_iff {grade : MorseIndex} :
    (∃ i, gradeAt criticals i = some grade) ↔ 0 < nGrade criticals grade := by
  unfold nGrade
  rw [List.countP_pos_iff]
  constructor
  · rintro ⟨i, hi⟩
    obtain ⟨cp, hcp, hg⟩ := gradeAt_eq_some.mp hi
    exact ⟨cp, List.mem_of_getElem? hcp, decide_eq_true hg⟩
  · rintro ⟨cp, hcp, hg⟩
    obtain ⟨i, hi⟩ := List.getElem?_of_mem hcp
    exact ⟨i, gradeAt_eq_some.mpr ⟨cp, hi, of_decide_eq_true hg⟩⟩

theorem sum_gradeAt (R : Type*) [AddCommMonoidWithOne R] (criticals : List (CriticalPoint K))
    (grade : MorseIndex) :
    (∑ i ∈ Finset.range criticals.length,
      if gradeAt criticals i = some grade then (1 : R) else 0) = (nGrade criticals grade : R) := by
  induction criticals using List.reverseRecOn with
  | nil => simp [nGrade]
  | append_singleton criticals cp ih =>
    have hkeep : ∀ i ∈ Finset.range criticals.length,
        gradeAt (criticals ++ [cp]) i = gradeAt criticals i := by
      intro i hi
      unfold gradeAt
      rw [List.getElem?_append_left (Finset.mem_range.mp hi)]
    have hlast : gradeAt (criticals ++ [cp]) criticals.length = some cp.morseIndex := by
      simp [gradeAt]
    rw [List.length_append, List.length_singleton, Finset.sum_range_succ, hlast,
      Finset.sum_congr rfl fun i hi => by rw [hkeep i hi], ih]
    unfold nGrade
    rw [List.countP_append, List.countP_singleton, Nat.cast_add]
    by_cases hg : cp.morseIndex = grade
    · simp [hg]
    · simp [hg]

/-- The critical point `d` has a larger Morse index than `s`. -/
def Below (criticals : List (CriticalPoint K)) (s d : Nat) : Prop :=
  ∃ gs gd, gradeAt criticals s = some gs ∧ gradeAt criticals d = some gd ∧ gs.toNat < gd.toNat

theorem Below.lt_length {s d : Nat} (h : Below criticals s d) :
    s < criticals.length ∧ d < criticals.length := by
  obtain ⟨gs, gd, hs, hd, -⟩ := h
  exact ⟨lt_length_of_gradeAt hs, lt_length_of_gradeAt hd⟩

theorem Below.ne {s d : Nat} (h : Below criticals s d) : s ≠ d := by
  rintro rfl
  obtain ⟨gs, gd, hs, hd, hlt⟩ := h
  rw [hs] at hd
  cases hd
  omega

/-- The Morse indices of `s` and `d` are consecutive. -/
def Steps (criticals : List (CriticalPoint K)) (s d : Nat) : Prop :=
  ∃ gs gd, gradeAt criticals s = some gs ∧ gradeAt criticals d = some gd ∧
    gd.toNat = gs.toNat + 1

theorem Steps.below {s d : Nat} (h : Steps criticals s d) : Below criticals s d := by
  obtain ⟨gs, gd, hs, hd, he⟩ := h
  exact ⟨gs, gd, hs, hd, by omega⟩

theorem steps_iff {s d : Nat} :
    Steps criticals s d ↔
      (gradeAt criticals s = some .minimum ∧ gradeAt criticals d = some .saddle) ∨
      (gradeAt criticals s = some .saddle ∧ gradeAt criticals d = some .maximum) := by
  constructor
  · rintro ⟨gs, gd, hs, hd, he⟩
    cases gs <;> cases gd <;> simp [MorseIndex.toNat] at he
    · exact Or.inl ⟨hs, hd⟩
    · exact Or.inr ⟨hs, hd⟩
  · rintro (⟨hs, hd⟩ | ⟨hs, hd⟩)
    · exact ⟨_, _, hs, hd, rfl⟩
    · exact ⟨_, _, hs, hd, rfl⟩

end

/-! ## The instantons -/

section
variable {K : Type*} [Field K] [LinearOrder K]
variable {sqrtf : K → K} {curlMagnitude curlCoexact : Nat → K} {criticals : List (CriticalPoint K)}

/-- Every thread appends the instanton of its pair, from the lower point to the
upper one, or nothing. -/
theorem mem_kernelFindInstantons {tid : Nat} {inst : InstantonPath K}
    (h : inst ∈ kernelFindInstantons sqrtf curlMagnitude curlCoexact criticals tid) :
    ∃ s d cs cd, inst = instantonFrom sqrtf curlMagnitude curlCoexact s d cs cd ∧
      Below criticals s d ∧ tid = min s d * criticals.length + max s d ∧
      criticals[s]? = some cs ∧ criticals[d]? = some cd := by
  unfold kernelFindInstantons at h
  simp only at h
  have hdiv : tid = tid / criticals.length * criticals.length + tid % criticals.length :=
    (Nat.div_add_mod' tid criticals.length).symm
  split_ifs at h with hlarge hle
  · simp at h
  · simp at h
  cases hi : criticals[tid / criticals.length]? with
  | none => simp [hi] at h
  | some cpI =>
    cases hj : criticals[tid % criticals.length]? with
    | none => simp [hi, hj] at h
    | some cpJ =>
      have hgi := gradeAt_eq_some.mpr ⟨cpI, hi, rfl⟩
      have hgj := gradeAt_eq_some.mpr ⟨cpJ, hj, rfl⟩
      have hmin := Nat.min_eq_left (Nat.le_of_not_le hle)
      have hmax := Nat.max_eq_right (Nat.le_of_not_le hle)
      simp only [hi, hj] at h
      split_ifs at h with hlt hgt
      · rw [List.mem_singleton.mp h]
        refine ⟨_, _, _, _, rfl, ⟨_, _, hgi, hgj, hlt⟩, ?_, hi, hj⟩
        rw [hmin, hmax]
        exact hdiv
      · rw [List.mem_singleton.mp h]
        refine ⟨_, _, _, _, rfl, ⟨_, _, hgj, hgi, hgt⟩, ?_, hj, hi⟩
        rw [Nat.min_comm, Nat.max_comm, hmin, hmax]
        exact hdiv
      · simp at h

variable (sqrtf curlMagnitude curlCoexact) in
/-- The thread of two points of different Morse index appends their instanton. -/
theorem kernelFindInstantons_of_below {s d : Nat} (h : Below criticals s d) :
    ∃ cs cd, criticals[s]? = some cs ∧ criticals[d]? = some cd ∧
      kernelFindInstantons sqrtf curlMagnitude curlCoexact criticals
        (min s d * criticals.length + max s d) =
      [instantonFrom sqrtf curlMagnitude curlCoexact s d cs cd] := by
  obtain ⟨hs, hd⟩ := h.lt_length
  have hne := h.ne
  obtain ⟨gs, gd, hgs, hgd, hlt⟩ := h
  obtain ⟨cs, hcs, rfl⟩ := gradeAt_eq_some.mp hgs
  obtain ⟨cd, hcd, rfl⟩ := gradeAt_eq_some.mp hgd
  have hmax : max s d < criticals.length := Nat.max_lt.mpr ⟨hs, hd⟩
  have hmin : min s d < max s d := by omega
  have hdiv : (min s d * criticals.length + max s d) / criticals.length = min s d := by
    rw [Nat.mul_comm, Nat.mul_add_div (by omega), Nat.div_eq_of_lt hmax, Nat.add_zero]
  have hmod : (min s d * criticals.length + max s d) % criticals.length = max s d := by
    rw [Nat.mul_add_mod_self_right, Nat.mod_eq_of_lt hmax]
  have hsmall : ¬ criticals.length * criticals.length ≤
      min s d * criticals.length + max s d := by
    have hrow : (min s d + 1) * criticals.length ≤ criticals.length * criticals.length :=
      Nat.mul_le_mul_right _ (by omega)
    rw [Nat.add_mul] at hrow
    omega
  refine ⟨cs, cd, hcs, hcd, ?_⟩
  unfold kernelFindInstantons
  simp only [hdiv, hmod]
  rw [if_neg hsmall, if_neg (by omega)]
  rcases Nat.lt_or_gt_of_ne hne with hsd | hds
  · rw [Nat.min_eq_left hsd.le, Nat.max_eq_right hsd.le, hcs, hcd]
    exact if_pos hlt
  · rw [Nat.min_eq_right hds.le, Nat.max_eq_left hds.le, hcs, hcd]
    simp only
    rw [if_neg (by omega), if_pos hlt]

theorem thread_instantonFrom (n s d : Nat) (cs cd : CriticalPoint K) :
    (instantonFrom sqrtf curlMagnitude curlCoexact s d cs cd).thread n =
      min s d * n + max s d := by
  have hmin : (min (s : Int) (d : Int)).toNat = min s d := by omega
  have hmax : (max (s : Int) (d : Int)).toNat = max s d := by omega
  simp only [InstantonPath.thread, instantonFrom, hmin, hmax]

theorem kernelFindInstantons_of_not_mem {tid : Nat}
    (h : tid ∉ List.range (criticals.length * criticals.length)) :
    kernelFindInstantons sqrtf curlMagnitude curlCoexact criticals tid = [] := by
  unfold kernelFindInstantons
  exact if_pos (Nat.not_lt.mp fun hlt => h (List.mem_range.mpr hlt))

theorem instanton_thread (tid : Nat) :
    ∀ inst ∈ kernelFindInstantons sqrtf curlMagnitude curlCoexact criticals tid,
      inst.thread criticals.length = tid := by
  intro inst h
  obtain ⟨s, d, cs, cd, rfl, -, rfl, -⟩ := mem_kernelFindInstantons h
  exact thread_instantonFrom _ s d cs cd

theorem instantonSlots_flatMap (sqrtf : K → K) (curlMagnitude curlCoexact : Nat → K)
    (criticals : List (CriticalPoint K)) :
    InstantonSlots sqrtf curlMagnitude curlCoexact criticals
      ((List.range (criticals.length * criticals.length)).flatMap
        (kernelFindInstantons sqrtf curlMagnitude curlCoexact criticals)) := by
  refine SlotOrder.flatMap List.nodup_range instanton_thread ?_
  exact fun tid htid => kernelFindInstantons_of_not_mem htid

variable {slots : List (InstantonPath K)}

/-- The source and the destination of an instanton. -/
def InstantonPath.Goes (inst : InstantonPath K) (s d : Nat) : Prop :=
  inst.srcCritical = s ∧ inst.dstCritical = d

instance (inst : InstantonPath K) (s d : Nat) : Decidable (inst.Goes s d) :=
  inferInstanceAs (Decidable (_ ∧ _))

theorem InstantonSlots.mem
    (h : InstantonSlots sqrtf curlMagnitude curlCoexact criticals slots) {inst : InstantonPath K}
    (hi : inst ∈ slots) :
    ∃ s d cs cd, inst = instantonFrom sqrtf curlMagnitude curlCoexact s d cs cd ∧
      Below criticals s d := by
  obtain ⟨s, d, cs, cd, he, hb, -⟩ := mem_kernelFindInstantons ((SlotOrder.mem_iff h inst).mp hi)
  exact ⟨s, d, cs, cd, he, hb⟩

theorem goes_instantonFrom {s d s' d' : Nat} {cs cd : CriticalPoint K} :
    (instantonFrom sqrtf curlMagnitude curlCoexact s d cs cd).Goes s' d' ↔ s = s' ∧ d = d' := by
  constructor
  · rintro ⟨hs, hd⟩
    exact ⟨Int.ofNat_inj.mp hs, Int.ofNat_inj.mp hd⟩
  · rintro ⟨rfl, rfl⟩
    exact ⟨rfl, rfl⟩

theorem InstantonSlots.not_goes
    (h : InstantonSlots sqrtf curlMagnitude curlCoexact criticals slots) {s d : Nat}
    (hb : ¬ Below criticals s d) {inst : InstantonPath K} (hi : inst ∈ slots) :
    ¬ inst.Goes s d := by
  obtain ⟨s', d', cs, cd, rfl, hb'⟩ := h.mem hi
  intro hg
  obtain ⟨rfl, rfl⟩ := goes_instantonFrom.mp hg
  exact hb hb'

/-- Every two points of different Morse index are joined once, and no others. -/
theorem InstantonSlots.countP_goes
    (h : InstantonSlots sqrtf curlMagnitude curlCoexact criticals slots) {s d : Nat}
    (hb : Below criticals s d) : (slots.countP fun inst => decide (inst.Goes s d)) = 1 := by
  obtain ⟨cs, cd, -, -, hthread⟩ := kernelFindInstantons_of_below sqrtf curlMagnitude
    curlCoexact hb
  let tid := min s d * criticals.length + max s d
  have hmine : ∀ inst ∈ slots, decide (inst.Goes s d) = true ↔
      (decide (inst.Goes s d) && decide (inst.thread criticals.length = tid)) = true := by
    intro inst hi
    obtain ⟨s', d', cs', cd', rfl, -⟩ := h.mem hi
    rw [Bool.and_eq_true, decide_eq_true_iff, decide_eq_true_iff]
    constructor
    · intro hg
      obtain ⟨rfl, rfl⟩ := goes_instantonFrom.mp hg
      exact ⟨hg, thread_instantonFrom _ _ _ _ _⟩
    · exact fun hg => hg.1
  rw [List.countP_congr hmine, ← List.countP_filter, h tid, hthread, List.countP_singleton,
    if_pos (decide_eq_true (goes_instantonFrom.mpr ⟨rfl, rfl⟩))]

theorem length_kernelFindInstantons_le (tid : Nat) :
    (kernelFindInstantons sqrtf curlMagnitude curlCoexact criticals tid).length ≤ 1 := by
  cases hk : kernelFindInstantons sqrtf curlMagnitude curlCoexact criticals tid with
  | nil => exact Nat.zero_le 1
  | cons inst rest =>
    obtain ⟨s, d, cs, cd, -, hb, rfl, -⟩ :=
      mem_kernelFindInstantons (hk ▸ List.mem_cons_self : inst ∈ _)
    obtain ⟨cs', cd', -, -, hthread⟩ := kernelFindInstantons_of_below sqrtf curlMagnitude
      curlCoexact hb
    rw [← hk, hthread, List.length_singleton]

theorem InstantonSlots.take
    (h : InstantonSlots sqrtf curlMagnitude curlCoexact criticals slots)
    (hn : criticals.length ≤ kFloerMaxCriticals) : slots.take kFloerMaxInstantons = slots := by
  have hle := SlotOrder.length_le h length_kernelFindInstantons_le
    fun tid htid => kernelFindInstantons_of_not_mem htid
  rw [List.length_range] at hle
  exact List.take_of_length_le (hle.trans (Nat.mul_le_mul hn hn))

/-! ## The boundary matrix -/

theorem boundaryCell_instantonFrom {s d : Nat} {cs cd : CriticalPoint K}
    (hb : Below criticals s d) {a : Nat} :
    boundaryCell criticals (instantonFrom sqrtf curlMagnitude curlCoexact s d cs cd) = some a ↔
      Steps criticals s d ∧ d * criticals.length + s = a := by
  obtain ⟨hs, hd⟩ := hb.lt_length
  obtain ⟨gs, gd, hgs, hgd, hlt⟩ := hb
  have hsteps : Steps criticals s d ↔ gd.toNat = gs.toNat + 1 := by
    constructor
    · rintro ⟨gs', gd', hgs', hgd', he⟩
      rw [hgs] at hgs'
      rw [hgd] at hgd'
      cases hgs'
      cases hgd'
      exact he
    · exact fun he => ⟨gs, gd, hgs, hgd, he⟩
  unfold boundaryCell
  simp only [instantonFrom, Int.toNat_natCast, hgs, hgd]
  rw [if_neg (by simp), if_neg (by omega), if_neg (by omega), hsteps]
  by_cases he : gd.toNat = gs.toNat + 1
  · rw [if_neg (by omega), Option.some.injEq]
    simp [he]
  · rw [if_pos (by omega)]
    simp [he]

theorem flipCell_apply (mat : Nat → BitVec 32) (cell : Option Nat) (a : Nat) :
    flipCell mat cell a = if cell = some a then mat a ^^^ 1 else mat a := by
  cases cell with
  | none => rfl
  | some b =>
    by_cases hb : a = b
    · subst hb
      rw [if_pos rfl]
      exact Function.update_self _ _ _
    · rw [if_neg fun h => hb (Option.some.inj h).symm]
      exact Function.update_of_ne hb _ _

omit [Field K] [LinearOrder K] in
/-- A cell holds the parity of the threads that flip it. -/
theorem kernelBuildFloerBoundary_apply (criticals : List (CriticalPoint K))
    (instantons : List (InstantonPath K)) (a : Nat) :
    kernelBuildFloerBoundary criticals instantons a =
      if Odd (instantons.countP fun inst => decide (boundaryCell criticals inst = some a)) then 1
      else 0 := by
  unfold kernelBuildFloerBoundary
  induction instantons using List.reverseRecOn with
  | nil => simp
  | append_singleton instantons inst ih =>
    rw [List.foldl_concat, List.countP_append, List.countP_singleton, flipCell_apply, ih]
    by_cases hc : boundaryCell criticals inst = some a
    · rw [if_pos hc, if_pos (decide_eq_true hc)]
      by_cases hodd : Odd (instantons.countP
        fun inst => decide (boundaryCell criticals inst = some a))
      · rw [if_pos hodd, if_neg (Nat.not_odd_iff_even.mpr hodd.add_one)]
        rfl
      · rw [if_neg hodd, if_pos (Nat.not_odd_iff_even.mp hodd).add_one]
        rfl
    · simp only [hc, decide_false, Bool.false_eq_true, if_false, Nat.add_zero]

/-- The cell at row `d` and column `s` is set when the index of `d` is one more
than that of `s`. -/
theorem InstantonSlots.boundary_apply
    (h : InstantonSlots sqrtf curlMagnitude curlCoexact criticals slots) {s d : Nat}
    (hs : s < criticals.length) [Decidable (Steps criticals s d)] :
    kernelBuildFloerBoundary criticals slots (d * criticals.length + s) =
      if Steps criticals s d then 1 else 0 := by
  have hflips : ∀ inst ∈ slots,
      decide (boundaryCell criticals inst = some (d * criticals.length + s)) = true ↔
        decide (inst.Goes s d ∧ Steps criticals s d) = true := by
    intro inst hi
    obtain ⟨s', d', cs, cd, rfl, hb⟩ := h.mem hi
    rw [decide_eq_true_iff, decide_eq_true_iff, boundaryCell_instantonFrom hb,
      goes_instantonFrom]
    constructor
    · rintro ⟨hsteps, ha⟩
      obtain ⟨rfl, rfl⟩ := Buffer.rowMajor_inj hb.lt_length.1 hs ha
      exact ⟨⟨rfl, rfl⟩, hsteps⟩
    · rintro ⟨⟨rfl, rfl⟩, hsteps⟩
      exact ⟨hsteps, rfl⟩
  rw [kernelBuildFloerBoundary_apply, List.countP_congr hflips]
  by_cases hsteps : Steps criticals s d
  · have hone := h.countP_goes hsteps.below
    simp only [hsteps, and_true, hone, if_true]
    rfl
  · simp [hsteps]

end
end HoloMarket
