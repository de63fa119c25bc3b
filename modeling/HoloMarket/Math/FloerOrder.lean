import HoloMarket.Math.FloerRanks

/-!
# The record and the order of the slots

Two runs over the same edges see the same critical points and the same pairs of
them, in different orders.  Counts, ranks, the minimum, the maximum and the sum
of the record agree; the length is the payload of the first path that attains
the minimum, so it agrees when all of those paths have one length.
-/

namespace HoloMarket

section
variable {K : Type*} [Field K] [LinearOrder K]

/-! ## The ends of an instanton -/

/-- The critical points that an instanton joins. -/
def endsOf (criticals : List (CriticalPoint K)) (inst : InstantonPath K) :
    Option (CriticalPoint K × CriticalPoint K) :=
  match criticals[inst.srcCritical.toNat]?, criticals[inst.dstCritical.toNat]? with
  | some s, some d => some (s, d)
  | _, _ => none

/-- `path_action` of the instanton between two points. -/
def pathLength (sqrtf : K → K) (s d : CriticalPoint K) : K :=
  sqrtf (s.action * d.action + 1 / (10 ^ 10 : Nat))

/-- `self_dual_residual` of the instanton between two points. -/
def residualOf (curlMagnitude curlCoexact : Nat → K) (p : CriticalPoint K × CriticalPoint K) : K :=
  |curlCoexact p.1.edgeIdx + curlCoexact p.2.edgeIdx| /
    (curlMagnitude p.1.edgeIdx + curlMagnitude p.2.edgeIdx + 1 / (10 ^ 8 : Nat))

variable {sqrtf : K → K} {curlMagnitude curlCoexact : Nat → K} {criticals : List (CriticalPoint K)}
variable {slots : List (InstantonPath K)}

theorem instantonFrom_eq (i j : Nat) (s d : CriticalPoint K) :
    instantonFrom sqrtf curlMagnitude curlCoexact i j s d =
      { srcCritical := i
        dstCritical := j
        pathAction := pathLength sqrtf s d
        selfDualResidual := residualOf curlMagnitude curlCoexact (s, d)
        valid := true } := by
  have hlength : (10000000000 : K) = (10 ^ 10 : Nat) := by norm_num
  have hresidual : (100000000 : K) = (10 ^ 8 : Nat) := by norm_num
  unfold instantonFrom pathLength residualOf
  rw [hlength, hresidual]

/-- An instanton between the points at two indices of the list. -/
def InstantonPath.Between (sqrtf : K → K) (curlMagnitude curlCoexact : Nat → K)
    (criticals : List (CriticalPoint K)) (inst : InstantonPath K)
    (s d : CriticalPoint K) : Prop :=
  ∃ i j : Nat, criticals[i]? = some s ∧ criticals[j]? = some d ∧
    s.morseIndex.toNat < d.morseIndex.toNat ∧
    inst = instantonFrom sqrtf curlMagnitude curlCoexact i j s d

theorem InstantonSlots.between
    (h : InstantonSlots sqrtf curlMagnitude curlCoexact criticals slots) {inst : InstantonPath K}
    (hi : inst ∈ slots) :
    ∃ s d, inst.Between sqrtf curlMagnitude curlCoexact criticals s d := by
  obtain ⟨i, j, s, d, he, hb, -, hs, hd⟩ :=
    mem_kernelFindInstantons ((SlotOrder.mem_iff h inst).mp hi)
  obtain ⟨gs, gd, hgs, hgd, hlt⟩ := hb
  unfold gradeAt at hgs hgd
  rw [hs] at hgs
  rw [hd] at hgd
  cases hgs
  cases hgd
  exact ⟨s, d, i, j, hs, hd, hlt, he⟩

theorem InstantonPath.Between.endsOf {inst : InstantonPath K} {s d : CriticalPoint K}
    (h : inst.Between sqrtf curlMagnitude curlCoexact criticals s d) :
    endsOf criticals inst = some (s, d) := by
  obtain ⟨i, j, hs, hd, -, rfl⟩ := h
  unfold HoloMarket.endsOf instantonFrom
  simp only [Int.toNat_natCast, hs, hd]

/-- One round of the loop over the instantons, in terms of the ends. -/
theorem PathScan.next_between {inst : InstantonPath K} {s d : CriticalPoint K}
    (h : inst.Between sqrtf curlMagnitude curlCoexact criticals s d) (scan : PathScan K) :
    PathScan.next criticals scan inst =
      let enters := s.morseIndex = .minimum ∧ s.action < scan.bestEntry
      { bestEntry := if enters then s.action else scan.bestEntry
        bestExit :=
          if d.morseIndex = .maximum ∧ scan.bestExit < d.action then d.action else scan.bestExit
        bestLen := if enters then pathLength sqrtf s d else scan.bestLen
        totalAsd := scan.totalAsd + residualOf curlMagnitude curlCoexact (s, d)
        any := if enters then true else scan.any } := by
  obtain ⟨i, j, hs, hd, -, rfl⟩ := h
  have hi : i < criticals.length := (List.getElem?_eq_some_iff.mp hs).1
  have hj : j < criticals.length := (List.getElem?_eq_some_iff.mp hd).1
  rw [instantonFrom_eq]
  unfold PathScan.next
  simp only [Int.toNat_natCast, hs, hd]
  rw [if_neg (by simp), if_neg (by omega), if_neg (by omega)]
  by_cases henter : s.morseIndex = .minimum ∧ s.action < scan.bestEntry
  · simp only [if_pos henter]
    split_ifs <;> rfl
  · simp only [if_neg henter]
    split_ifs <;> rfl

/-! ## What the scan finds -/

/-- The scan after the paths with the ends `ends`. -/
structure PathScan.Found (sqrtf : K → K) (curlMagnitude curlCoexact : Nat → K)
    (ends : List (CriticalPoint K × CriticalPoint K)) (scan : PathScan K) : Prop where
  entry_le : ∀ p ∈ ends, p.1.morseIndex = .minimum → scan.bestEntry ≤ p.1.action
  entry : (scan.bestEntry = (10 ^ 30 : Nat) ∧ scan.any = false ∧ scan.bestLen = 0) ∨
    (scan.bestEntry < (10 ^ 30 : Nat) ∧ scan.any = true ∧
      ∃ p ∈ ends, p.1.morseIndex = .minimum ∧ p.1.action = scan.bestEntry ∧
        scan.bestLen = pathLength sqrtf p.1 p.2)
  le_exit : ∀ p ∈ ends, p.2.morseIndex = .maximum → p.2.action ≤ scan.bestExit
  exit : scan.bestExit = 0 ∨
    ∃ p ∈ ends, p.2.morseIndex = .maximum ∧ p.2.action = scan.bestExit
  exit_nonneg : 0 ≤ scan.bestExit
  total : scan.totalAsd = (ends.map (residualOf curlMagnitude curlCoexact)).sum

theorem PathScan.Found.next {inst : InstantonPath K} {s d : CriticalPoint K}
    {ends : List (CriticalPoint K × CriticalPoint K)} {scan : PathScan K}
    (h : scan.Found sqrtf curlMagnitude curlCoexact ends)
    (hb : inst.Between sqrtf curlMagnitude curlCoexact criticals s d) :
    (PathScan.next criticals scan inst).Found sqrtf curlMagnitude curlCoexact
      (ends ++ [(s, d)]) := by
  have hkeep : ∀ p ∈ ends, p ∈ ends ++ [(s, d)] := fun p hp => List.mem_append_left _ hp
  have hlast : (s, d) ∈ ends ++ [(s, d)] := List.mem_append_right _ List.mem_cons_self
  rw [PathScan.next_between hb]
  refine ⟨fun p hp hmin => ?_, ?_, fun p hp hmax => ?_, ?_, ?_, ?_⟩
  · dsimp only
    rcases List.mem_append.mp hp with hp | hp
    · have hle := h.entry_le p hp hmin
      split_ifs with henter
      · exact henter.2.le.trans hle
      · exact hle
    · rw [List.mem_singleton] at hp
      subst hp
      split_ifs with henter
      · exact le_rfl
      · exact not_lt.mp fun hlt => henter ⟨hmin, hlt⟩
  · dsimp only
    by_cases henter : s.morseIndex = .minimum ∧ s.action < scan.bestEntry
    · rw [if_pos henter, if_pos henter, if_pos henter]
      have hbelow : scan.bestEntry ≤ (10 ^ 30 : Nat) := by
        rcases h.entry with ⟨he, -⟩ | ⟨hlt, -⟩
        · exact he.le
        · exact hlt.le
      exact Or.inr ⟨henter.2.trans_le hbelow, rfl, (s, d), hlast, henter.1, rfl, rfl⟩
    · rw [if_neg henter, if_neg henter, if_neg henter]
      refine h.entry.imp_right ?_
      rintro ⟨hlt, hany, p, hp, hmin, haction, hlen⟩
      exact ⟨hlt, hany, p, hkeep p hp, hmin, haction, hlen⟩
  · dsimp only
    rcases List.mem_append.mp hp with hp | hp
    · have hle := h.le_exit p hp hmax
      split_ifs with hexit
      · exact hle.trans hexit.2.le
      · exact hle
    · rw [List.mem_singleton] at hp
      subst hp
      split_ifs with hexit
      · exact le_rfl
      · exact not_lt.mp fun hlt => hexit ⟨hmax, hlt⟩
  · dsimp only
    by_cases hexit : d.morseIndex = .maximum ∧ scan.bestExit < d.action
    · rw [if_pos hexit]
      exact Or.inr ⟨(s, d), hlast, hexit.1, rfl⟩
    · rw [if_neg hexit]
      refine h.exit.imp_right ?_
      rintro ⟨p, hp, hmax, haction⟩
      exact ⟨p, hkeep p hp, hmax, haction⟩
  · dsimp only
    split_ifs with hexit
    · exact h.exit_nonneg.trans hexit.2.le
    · exact h.exit_nonneg
  · rw [List.map_append, List.sum_append, ← h.total]
    simp

theorem scanPaths_found {instantons : List (InstantonPath K)}
    (hb : ∀ inst ∈ instantons, ∃ s d, inst.Between sqrtf curlMagnitude curlCoexact criticals s d) :
    (scanPaths criticals instantons).Found sqrtf curlMagnitude curlCoexact
      (instantons.filterMap (endsOf criticals)) := by
  unfold scanPaths
  induction instantons using List.reverseRecOn with
  | nil =>
    refine ⟨?_, Or.inl ⟨rfl, rfl, rfl⟩, ?_, Or.inl rfl, le_rfl, rfl⟩
    · exact fun p hp => absurd hp List.not_mem_nil
    · exact fun p hp => absurd hp List.not_mem_nil
  | append_singleton instantons inst ih =>
    obtain ⟨s, d, hsd⟩ := hb inst (List.mem_append_right _ List.mem_cons_self)
    have hends : (instantons ++ [inst]).filterMap (endsOf criticals) =
        instantons.filterMap (endsOf criticals) ++ [(s, d)] := by
      rw [List.filterMap_append, List.filterMap_cons, hsd.endsOf]
      rfl
    rw [List.foldl_append, List.foldl_cons, List.foldl_nil, hends]
    exact (ih fun i hi => hb i (List.mem_append_left _ hi)).next hsd

/-! ## Two orders of the same pairs -/

/-- Every two critical points of different Morse index are joined. -/
theorem InstantonSlots.mem_ends
    (h : InstantonSlots sqrtf curlMagnitude curlCoexact criticals slots)
    {p : CriticalPoint K × CriticalPoint K} :
    p ∈ slots.filterMap (endsOf criticals) ↔
      p.1 ∈ criticals ∧ p.2 ∈ criticals ∧ p.1.morseIndex.toNat < p.2.morseIndex.toNat := by
  rw [List.mem_filterMap]
  constructor
  · rintro ⟨inst, hi, he⟩
    obtain ⟨s, d, hb⟩ := h.between hi
    rw [hb.endsOf, Option.some_inj] at he
    subst he
    obtain ⟨i, j, hs, hd, hlt, -⟩ := hb
    exact ⟨List.mem_of_getElem? hs, List.mem_of_getElem? hd, hlt⟩
  · rintro ⟨hs, hd, hlt⟩
    obtain ⟨i, hi⟩ := List.getElem?_of_mem hs
    obtain ⟨j, hj⟩ := List.getElem?_of_mem hd
    have hbelow : Below criticals i j :=
      ⟨_, _, gradeAt_eq_some.mpr ⟨_, hi, rfl⟩, gradeAt_eq_some.mpr ⟨_, hj, rfl⟩, hlt⟩
    obtain ⟨cs, cd, hcs, hcd, hthread⟩ := kernelFindInstantons_of_below sqrtf curlMagnitude
      curlCoexact hbelow
    rw [hi, Option.some_inj] at hcs
    rw [hj, Option.some_inj] at hcd
    refine ⟨instantonFrom sqrtf curlMagnitude curlCoexact i j cs cd, ?_, ?_⟩
    · refine (SlotOrder.mem_iff h _).mpr ?_
      rw [thread_instantonFrom, hthread]
      exact List.mem_singleton_self _
    · have hb : (instantonFrom sqrtf curlMagnitude curlCoexact i j cs cd).Between sqrtf
          curlMagnitude curlCoexact criticals p.1 p.2 := by
        refine ⟨i, j, hi, hj, hlt, ?_⟩
        rw [hcs, hcd]
      exact hb.endsOf

theorem InstantonSlots.nodup_ends
    (h : InstantonSlots sqrtf curlMagnitude curlCoexact criticals slots)
    (hnd : criticals.Nodup) : (slots.filterMap (endsOf criticals)).Nodup := by
  have hslots : slots.Nodup := by
    refine SlotOrder.nodup h fun tid => ?_
    have hle : (kernelFindInstantons sqrtf curlMagnitude curlCoexact criticals tid).length ≤ 1 :=
      length_kernelFindInstantons_le tid
    rcases Nat.le_one_iff_eq_zero_or_eq_one.mp hle with h0 | h1
    · rw [List.eq_nil_of_length_eq_zero h0]
      exact List.nodup_nil
    · obtain ⟨inst, hi⟩ := List.length_eq_one_iff.mp h1
      rw [hi]
      exact List.nodup_singleton inst
  refine List.pairwise_filterMap.mpr (hslots.imp_of_mem ?_)
  intro inst inst' hi hi' hne p hp p' hp' heq
  subst heq
  obtain ⟨s, d, hb⟩ := h.between hi
  obtain ⟨s', d', hb'⟩ := h.between hi'
  rw [hb.endsOf, Option.some_inj] at hp
  rw [hb'.endsOf, Option.some_inj, ← hp] at hp'
  obtain ⟨rfl, rfl⟩ := Prod.mk.inj hp'
  obtain ⟨i, j, hs, hd, -, rfl⟩ := hb
  obtain ⟨i', j', hs', hd', -, rfl⟩ := hb'
  have hii : i = i' := (List.getElem?_inj (List.getElem?_eq_some_iff.mp hs).1 hnd).mp
    (hs.trans hs'.symm)
  have hjj : j = j' := (List.getElem?_inj (List.getElem?_eq_some_iff.mp hd).1 hnd).mp
    (hd.trans hd'.symm)
  exact hne (by rw [hii, hjj])

theorem InstantonSlots.length_ends
    (h : InstantonSlots sqrtf curlMagnitude curlCoexact criticals slots) :
    (slots.filterMap (endsOf criticals)).length = slots.length := by
  refine List.filterMap_length_eq_length.mpr fun inst hi => ?_
  obtain ⟨s, d, hb⟩ := h.between hi
  rw [hb.endsOf]
  rfl

/-- Over the same critical points in another order the pairs are the same. -/
theorem InstantonSlots.ends_perm {criticals' : List (CriticalPoint K)}
    {slots' : List (InstantonPath K)}
    (h : InstantonSlots sqrtf curlMagnitude curlCoexact criticals slots)
    (h' : InstantonSlots sqrtf curlMagnitude curlCoexact criticals' slots')
    (hperm : criticals.Perm criticals') (hnd : criticals.Nodup) :
    (slots.filterMap (endsOf criticals)).Perm (slots'.filterMap (endsOf criticals')) := by
  refine (List.perm_ext_iff_of_nodup (h.nodup_ends hnd)
    (h'.nodup_ends (hperm.nodup_iff.mp hnd))).mpr fun p => ?_
  rw [h.mem_ends, h'.mem_ends, hperm.mem_iff, hperm.mem_iff]

/-- All paths from a minimum of least action have one length. -/
def LengthDetermined (sqrtf : K → K) (points : List (CriticalPoint K)) : Prop :=
  ∀ s ∈ points, s.morseIndex = .minimum → s.action < (10 ^ 30 : Nat) →
    (∀ s' ∈ points, s'.morseIndex = .minimum → s.action ≤ s'.action) →
    ∀ d ∈ points, ∀ d' ∈ points, d.morseIndex ≠ .minimum → d'.morseIndex ≠ .minimum →
      pathLength sqrtf s d = pathLength sqrtf s d'

instance (points : List (CriticalPoint K)) : Decidable (LengthDetermined sqrtf points) := by
  unfold LengthDetermined
  infer_instance

section
variable {ends ends' : List (CriticalPoint K × CriticalPoint K)} {scan scan' : PathScan K}

theorem PathScan.Found.bestEntry_le (h : scan.Found sqrtf curlMagnitude curlCoexact ends)
    (h' : scan'.Found sqrtf curlMagnitude curlCoexact ends') (hperm : ends.Perm ends') :
    scan.bestEntry ≤ scan'.bestEntry := by
  rcases h'.entry with ⟨he, -⟩ | ⟨-, -, p, hp, hmin, haction, -⟩
  · rw [he]
    rcases h.entry with ⟨he', -⟩ | ⟨hlt, -⟩
    · exact he'.le
    · exact hlt.le
  · rw [← haction]
    exact h.entry_le p (hperm.mem_iff.mpr hp) hmin

theorem PathScan.Found.bestExit_le (h : scan.Found sqrtf curlMagnitude curlCoexact ends)
    (h' : scan'.Found sqrtf curlMagnitude curlCoexact ends') (hperm : ends.Perm ends') :
    scan.bestExit ≤ scan'.bestExit := by
  rcases h.exit with he | ⟨p, hp, hmax, haction⟩
  · rw [he]
    exact h'.exit_nonneg
  · rw [← haction]
    exact h'.le_exit p (hperm.mem_iff.mp hp) hmax

/-- What the scan finds without the length does not depend on the order. -/
theorem PathScan.Found.agree (h : scan.Found sqrtf curlMagnitude curlCoexact ends)
    (h' : scan'.Found sqrtf curlMagnitude curlCoexact ends') (hperm : ends.Perm ends') :
    scan.bestEntry = scan'.bestEntry ∧ scan.bestExit = scan'.bestExit ∧
      scan.totalAsd = scan'.totalAsd ∧ scan.any = scan'.any := by
  have hentry := le_antisymm (h.bestEntry_le h' hperm) (h'.bestEntry_le h hperm.symm)
  refine ⟨hentry, le_antisymm (h.bestExit_le h' hperm) (h'.bestExit_le h hperm.symm), ?_, ?_⟩
  · rw [h.total, h'.total]
    exact (hperm.map _).sum_eq
  · rcases h.entry with ⟨he, hany, -⟩ | ⟨hlt, hany, -⟩
    · rcases h'.entry with ⟨-, hany', -⟩ | ⟨hlt', -⟩
      · rw [hany, hany']
      · rw [← hentry, he] at hlt'
        exact absurd hlt' (lt_irrefl _)
    · rcases h'.entry with ⟨he', -⟩ | ⟨-, hany', -⟩
      · rw [hentry, he'] at hlt
        exact absurd hlt (lt_irrefl _)
      · rw [hany, hany']

/-- The pairs that the instanton kernel joins. -/
def JoinsAll (points : List (CriticalPoint K))
    (ends : List (CriticalPoint K × CriticalPoint K)) : Prop :=
  ∀ p, p ∈ ends ↔
    p.1 ∈ points ∧ p.2 ∈ points ∧ p.1.morseIndex.toNat < p.2.morseIndex.toNat

omit [Field K] [LinearOrder K] in
theorem JoinsAll.mem_minimum {points : List (CriticalPoint K)} (h : JoinsAll points ends)
    {s d : CriticalPoint K} (hmin : s.morseIndex = .minimum) :
    (s, d) ∈ ends ↔ s ∈ points ∧ d ∈ points ∧ d.morseIndex ≠ .minimum := by
  have hlt : s.morseIndex.toNat < d.morseIndex.toNat ↔ d.morseIndex ≠ .minimum := by
    rw [hmin]
    cases d.morseIndex <;> decide
  rw [← hlt]
  exact h (s, d)

/-- The length is that of a path from a minimum of least action. -/
theorem PathScan.Found.bestLen_eq {points : List (CriticalPoint K)}
    (h : scan.Found sqrtf curlMagnitude curlCoexact ends) (hends : JoinsAll points ends)
    (hdet : LengthDetermined sqrtf points) {s d : CriticalPoint K} (hs : s ∈ points)
    (hd : d ∈ points) (hmin : s.morseIndex = .minimum) (hd' : d.morseIndex ≠ .minimum)
    (haction : s.action = scan.bestEntry) (hlt : scan.bestEntry < (10 ^ 30 : Nat)) :
    scan.bestLen = pathLength sqrtf s d := by
  rcases h.entry with ⟨he, -⟩ | ⟨-, -, p, hp, hpmin, hpaction, hlen⟩
  · rw [he] at hlt
    exact absurd hlt (lt_irrefl _)
  · obtain ⟨hp₁, hp₂, hp₂'⟩ := (hends.mem_minimum hpmin).mp hp
    have hleast : ∀ s' ∈ points, s'.morseIndex = .minimum → s.action ≤ s'.action := by
      intro s' hs' hmin'
      rw [haction]
      exact h.entry_le (s', d) ((hends.mem_minimum hmin').mpr ⟨hs', hd, hd'⟩) hmin'
    rw [hlen, ← hdet s hs hmin (haction ▸ hlt) hleast p.2 hp₂ d hd hp₂' hd']
    unfold pathLength
    rw [hpaction, haction]

theorem PathScan.Found.length_agree {points : List (CriticalPoint K)}
    (h : scan.Found sqrtf curlMagnitude curlCoexact ends)
    (h' : scan'.Found sqrtf curlMagnitude curlCoexact ends') (hends : JoinsAll points ends)
    (hperm : ends.Perm ends') (hdet : LengthDetermined sqrtf points) :
    scan.bestLen = scan'.bestLen := by
  have hentry := (h.agree h' hperm).1
  rcases h'.entry with ⟨he', -, hlen'⟩ | ⟨hlt', -, p, hp, hmin, haction, hlen'⟩
  · rcases h.entry with ⟨-, -, hlen⟩ | ⟨hlt, -⟩
    · rw [hlen, hlen']
    · rw [hentry, he'] at hlt
      exact absurd hlt (lt_irrefl _)
  · obtain ⟨hs, hd, hd'⟩ := (hends.mem_minimum hmin).mp (hperm.mem_iff.mpr hp)
    rw [hlen']
    exact h.bestLen_eq hends hdet hs hd hmin hd' (haction.trans hentry.symm) (hentry ▸ hlt')

end

/-! ## The record -/

omit [Field K] [LinearOrder K] in
theorem nGrade_perm {criticals' : List (CriticalPoint K)} (hperm : criticals.Perm criticals')
    (grade : MorseIndex) : nGrade criticals grade = nGrade criticals' grade :=
  hperm.countP_eq _

theorem computeFloerHomology_agree {criticals' : List (CriticalPoint K)}
    {slots' : List (InstantonPath K)}
    (h : InstantonSlots sqrtf curlMagnitude curlCoexact criticals slots)
    (h' : InstantonSlots sqrtf curlMagnitude curlCoexact criticals' slots')
    (hperm : criticals.Perm criticals') (hnd : criticals.Nodup)
    (hdet : LengthDetermined sqrtf criticals) :
    computeFloerHomology criticals slots (kernelBuildFloerBoundary criticals slots) =
      computeFloerHomology criticals' slots' (kernelBuildFloerBoundary criticals' slots') := by
  have hends := h.ends_perm h' hperm hnd
  have hscan := scanPaths_found fun inst hi => h.between hi
  have hscan' := scanPaths_found fun inst hi => h'.between hi
  obtain ⟨hentry, hexit, htotal, hany⟩ := hscan.agree hscan' hends
  have hlen := hscan.length_agree hscan' (fun p => h.mem_ends) hends hdet
  have hcount : slots.length = slots'.length := by
    rw [← h.length_ends, ← h'.length_ends, hends.length_eq]
  obtain ⟨hd1, hd2⟩ := h.rankD_eq_zero
  obtain ⟨hd1', hd2'⟩ := h'.rankD_eq_zero
  unfold computeFloerHomology
  simp only [hd1, hd2, hd1', hd2', hentry, hexit, htotal, hany, hlen, hcount, hperm.length_eq,
    nGrade_perm hperm]

/-! ## A path that comes first -/

theorem scanPaths_bestLen {inst : InstantonPath K} {rest : List (InstantonPath K)}
    {s d : CriticalPoint K} (hb : inst.Between sqrtf curlMagnitude curlCoexact criticals s d)
    (hmin : s.morseIndex = .minimum) (hlt : s.action < (10 ^ 30 : Nat))
    (hrest : ∀ inst' ∈ rest, ∃ s' d',
      inst'.Between sqrtf curlMagnitude curlCoexact criticals s' d' ∧
        (s'.morseIndex = .minimum → s.action ≤ s'.action)) :
    (scanPaths criticals (inst :: rest)).bestLen = pathLength sqrtf s d := by
  have hfirst : ∀ scan : PathScan K, scan.bestEntry = s.action →
      (rest.foldl (PathScan.next criticals) scan).bestLen = scan.bestLen := by
    induction rest with
    | nil => exact fun _ _ => rfl
    | cons inst' rest ih =>
      intro scan hscan
      obtain ⟨s', d', hb', hle⟩ := hrest inst' List.mem_cons_self
      have hkeep : ¬ (s'.morseIndex = .minimum ∧ s'.action < scan.bestEntry) := by
        rintro ⟨hmin', hlt'⟩
        exact absurd (hle hmin') (not_le.mpr (hscan ▸ hlt'))
      have hnext := PathScan.next_between hb' scan
      simp only [if_neg hkeep] at hnext
      rw [List.foldl_cons, ih (fun i hi => hrest i (List.mem_cons_of_mem inst' hi)), hnext]
      rw [hnext]
      exact hscan
  unfold scanPaths
  have hnext := PathScan.next_between hb ⟨(10 ^ 30 : Nat), 0, 0, 0, false⟩
  simp only [if_pos (And.intro hmin hlt)] at hnext
  rw [List.foldl_cons, hfirst, hnext]
  rw [hnext]

variable (sqrtf curlMagnitude curlCoexact) in
/-- The thread of any two points may obtain the first slot. -/
theorem exists_first_path {i j : Nat} {s d : CriticalPoint K} (hi : criticals[i]? = some s)
    (hj : criticals[j]? = some d) (hlt : s.morseIndex.toNat < d.morseIndex.toNat) :
    ∃ rest, InstantonSlots sqrtf curlMagnitude curlCoexact criticals
      (instantonFrom sqrtf curlMagnitude curlCoexact i j s d :: rest) := by
  have hbelow : Below criticals i j :=
    ⟨_, _, gradeAt_eq_some.mpr ⟨_, hi, rfl⟩, gradeAt_eq_some.mpr ⟨_, hj, rfl⟩, hlt⟩
  obtain ⟨cs, cd, hcs, hcd, hthread⟩ := kernelFindInstantons_of_below sqrtf curlMagnitude
    curlCoexact hbelow
  rw [hi, Option.some_inj] at hcs
  rw [hj, Option.some_inj] at hcd
  rw [← hcs, ← hcd] at hthread
  obtain ⟨rest, hrest⟩ := SlotOrder.exists_first (List.nodup_range
    (n := criticals.length * criticals.length)) instanton_thread
    (fun tid htid => kernelFindInstantons_of_not_mem htid)
    (min i j * criticals.length + max i j)
  rw [hthread] at hrest
  exact ⟨rest, hrest⟩

/-! ## Two runs -/

/-- The critical points in the order of the edges. -/
def criticalPoints (curlMagnitude curlCoexact : Nat → K) (edges : List (Nat × Nat))
    (ymAction : K) : List (CriticalPoint K) :=
  (List.range edges.length).flatMap
    (kernelFindCriticalPoints curlMagnitude curlCoexact edges ymAction)

/-- What the counters of one run handed out. -/
structure FloerRun (sqrtf : K → K) (curlMagnitude curlCoexact : Nat → K)
    (edges : List (Nat × Nat)) (ymAction : K) (criticalSlots : List (CriticalPoint K))
    (instantonSlots : List (InstantonPath K)) : Prop where
  criticals : CriticalSlots curlMagnitude curlCoexact edges ymAction criticalSlots
  instantons : InstantonSlots sqrtf curlMagnitude curlCoexact
    (criticalSlots.take kFloerMaxCriticals) instantonSlots

/-- Any two runs return the same record. -/
def Reproducible (sqrtf : K → K) (curlMagnitude curlCoexact : Nat → K)
    (edges : List (Nat × Nat)) (ymAction : K) : Prop :=
  ∀ criticalSlots instantonSlots criticalSlots' instantonSlots',
    FloerRun sqrtf curlMagnitude curlCoexact edges ymAction criticalSlots instantonSlots →
    FloerRun sqrtf curlMagnitude curlCoexact edges ymAction criticalSlots' instantonSlots' →
    runFloerAnalysis edges.length criticalSlots instantonSlots =
      runFloerAnalysis edges.length criticalSlots' instantonSlots'

section
variable {edges : List (Nat × Nat)} {ymAction : K} {criticalSlots : List (CriticalPoint K)}

theorem kernelFindCriticalPoints_cases (curlMagnitude curlCoexact : Nat → K)
    (edges : List (Nat × Nat)) (ymAction : K) (e : Nat) :
    kernelFindCriticalPoints curlMagnitude curlCoexact edges ymAction e = [] ∨
      e < edges.length ∧ ∃ cp, cp.edgeIdx = e ∧
        kernelFindCriticalPoints curlMagnitude curlCoexact edges ymAction e = [cp] := by
  unfold kernelFindCriticalPoints
  cases he : edges[e]? with
  | none => exact Or.inl rfl
  | some f =>
    obtain ⟨src, dst⟩ := f
    dsimp only
    split_ifs with hsmall hnone
    · exact Or.inl rfl
    · exact Or.inl rfl
    · exact Or.inr ⟨(List.getElem?_eq_some_iff.mp he).1, _, rfl, rfl⟩

theorem criticalSlots_flatMap (curlMagnitude curlCoexact : Nat → K) (edges : List (Nat × Nat))
    (ymAction : K) : CriticalSlots curlMagnitude curlCoexact edges ymAction
      (criticalPoints curlMagnitude curlCoexact edges ymAction) := by
  refine SlotOrder.flatMap List.nodup_range (fun e cp hcp => ?_) fun e he => ?_
  · rcases kernelFindCriticalPoints_cases curlMagnitude curlCoexact edges ymAction e with
      h | ⟨-, cp', hcp', h⟩
    · rw [h] at hcp
      exact absurd hcp List.not_mem_nil
    · rw [h, List.mem_singleton] at hcp
      rw [hcp, hcp']
  · rcases kernelFindCriticalPoints_cases curlMagnitude curlCoexact edges ymAction e with
      h | ⟨hlt, -⟩
    · exact h
    · exact absurd (List.mem_range.mpr hlt) he

theorem CriticalSlots.nodup
    (h : CriticalSlots curlMagnitude curlCoexact edges ymAction criticalSlots) :
    criticalSlots.Nodup := by
  refine SlotOrder.nodup h fun e => ?_
  rcases kernelFindCriticalPoints_cases curlMagnitude curlCoexact edges ymAction e with
    he | ⟨-, cp, -, he⟩
  · rw [he]
    exact List.nodup_nil
  · rw [he]
    exact List.nodup_singleton cp

theorem CriticalSlots.perm
    (h : CriticalSlots curlMagnitude curlCoexact edges ymAction criticalSlots) :
    criticalSlots.Perm (criticalPoints curlMagnitude curlCoexact edges ymAction) :=
  SlotOrder.perm h (criticalSlots_flatMap curlMagnitude curlCoexact edges ymAction)

theorem CriticalSlots.take
    (h : CriticalSlots curlMagnitude curlCoexact edges ymAction criticalSlots)
    (hn : (criticalPoints curlMagnitude curlCoexact edges ymAction).length ≤ kFloerMaxCriticals) :
    criticalSlots.take kFloerMaxCriticals = criticalSlots :=
  List.take_of_length_le (h.perm.length_eq ▸ hn)

theorem LengthDetermined.of_perm {points points' : List (CriticalPoint K)}
    (h : LengthDetermined sqrtf points) (hperm : points.Perm points') :
    LengthDetermined sqrtf points' := by
  intro s hs hmin hlt hleast d hd d' hd'
  exact h s (hperm.mem_iff.mpr hs) hmin hlt (fun s' hs' => hleast s' (hperm.mem_iff.mp hs'))
    d (hperm.mem_iff.mpr hd) d' (hperm.mem_iff.mpr hd')

theorem reproducible_of_lengthDetermined
    (hn : (criticalPoints curlMagnitude curlCoexact edges ymAction).length ≤ kFloerMaxCriticals)
    (hdet : LengthDetermined sqrtf (criticalPoints curlMagnitude curlCoexact edges ymAction)) :
    Reproducible sqrtf curlMagnitude curlCoexact edges ymAction := by
  intro cs is cs' is' hrun hrun'
  obtain ⟨hcs, his⟩ := hrun
  obtain ⟨hcs', his'⟩ := hrun'
  rw [hcs.take hn] at his
  rw [hcs'.take hn] at his'
  have hmax : cs.length ≤ kFloerMaxCriticals := hcs.perm.length_eq ▸ hn
  have hmax' : cs'.length ≤ kFloerMaxCriticals := hcs'.perm.length_eq ▸ hn
  have hperm : cs.Perm cs' := hcs.perm.trans hcs'.perm.symm
  unfold runFloerAnalysis
  simp only [hcs.take hn, hcs'.take hn, his.take hmax, his'.take hmax', hperm.length_eq,
    computeFloerHomology_agree his his' hperm hcs.nodup (hdet.of_perm hcs.perm.symm)]

theorem runFloerAnalysis_instantonLength {nEdges : Nat}
    (h : InstantonSlots sqrtf curlMagnitude curlCoexact criticals slots) (hedges : nEdges ≠ 0)
    (htwo : 2 ≤ criticals.length) (hmax : criticals.length ≤ kFloerMaxCriticals) :
    (runFloerAnalysis nEdges criticals slots).instantonLength =
      (scanPaths criticals slots).bestLen := by
  unfold runFloerAnalysis
  simp only [List.take_of_length_le hmax, h.take hmax]
  rw [if_neg hedges, if_neg (by omega)]
  unfold computeFloerHomology
  rw [if_neg (by omega)]

/-- Over one order of the critical points, a run that takes a given path from a
minimum of least action first. -/
theorem exists_run_length
    (hn : (criticalPoints curlMagnitude curlCoexact edges ymAction).length ≤ kFloerMaxCriticals)
    {s d : CriticalPoint K} (hs : s ∈ criticalPoints curlMagnitude curlCoexact edges ymAction)
    (hd : d ∈ criticalPoints curlMagnitude curlCoexact edges ymAction)
    (hmin : s.morseIndex = .minimum) (hdm : d.morseIndex ≠ .minimum)
    (hlt : s.action < (10 ^ 30 : Nat))
    (hleast : ∀ s' ∈ criticalPoints curlMagnitude curlCoexact edges ymAction,
      s'.morseIndex = .minimum → s.action ≤ s'.action) :
    ∃ slots, FloerRun sqrtf curlMagnitude curlCoexact edges ymAction
        (criticalPoints curlMagnitude curlCoexact edges ymAction) slots ∧
      (runFloerAnalysis edges.length
        (criticalPoints curlMagnitude curlCoexact edges ymAction) slots).instantonLength =
          pathLength sqrtf s d := by
  have hcs := criticalSlots_flatMap curlMagnitude curlCoexact edges ymAction
  have htake := hcs.take hn
  have hedges : edges.length ≠ 0 := by
    intro hzero
    unfold criticalPoints at hs
    rw [hzero, List.range_zero, List.flatMap_nil] at hs
    exact List.not_mem_nil hs
  obtain ⟨i, hi⟩ := List.getElem?_of_mem hs
  obtain ⟨j, hj⟩ := List.getElem?_of_mem hd
  have hlt' : s.morseIndex.toNat < d.morseIndex.toNat := by
    rw [hmin]
    cases hg : d.morseIndex with
    | minimum => exact absurd hg hdm
    | saddle => decide
    | maximum => decide
  have htwo : 2 ≤ (criticalPoints curlMagnitude curlCoexact edges ymAction).length := by
    have hli := (List.getElem?_eq_some_iff.mp hi).1
    have hlj := (List.getElem?_eq_some_iff.mp hj).1
    have hij : i ≠ j := by
      rintro rfl
      rw [hi, Option.some_inj] at hj
      exact hdm (hj ▸ hmin)
    omega
  obtain ⟨rest, hslots⟩ := exists_first_path sqrtf curlMagnitude curlCoexact hi hj hlt'
  refine ⟨_, ⟨hcs, htake.symm ▸ hslots⟩, ?_⟩
  rw [runFloerAnalysis_instantonLength hslots hedges htwo hn]
  refine scanPaths_bestLen ⟨i, j, hi, hj, hlt', rfl⟩ hmin hlt fun inst' hinst' => ?_
  obtain ⟨s', d', hb⟩ := hslots.between (List.mem_cons_of_mem _ hinst')
  refine ⟨s', d', hb, fun hmin' => ?_⟩
  obtain ⟨i', -, hs', -⟩ := hb
  exact hleast s' (List.mem_of_getElem? hs') hmin'

theorem lengthDetermined_of_reproducible
    (hn : (criticalPoints curlMagnitude curlCoexact edges ymAction).length ≤ kFloerMaxCriticals)
    (h : Reproducible sqrtf curlMagnitude curlCoexact edges ymAction) :
    LengthDetermined sqrtf (criticalPoints curlMagnitude curlCoexact edges ymAction) := by
  intro s hs hmin hlt hleast d hd d' hd' hdm hdm'
  obtain ⟨slots, hrun, hlen⟩ := exists_run_length hn hs hd hmin hdm hlt hleast
  obtain ⟨slots', hrun', hlen'⟩ := exists_run_length hn hs hd' hmin hdm' hlt hleast
  rw [← hlen, ← hlen', h _ _ _ _ hrun hrun']

end
end

/-- The record does not depend on the order of the slots exactly when all paths
from a minimum of least action have one length. -/
theorem reproducible_iff {K : Type*} [Field K] [LinearOrder K] (sqrtf : K → K)
    (curlMagnitude curlCoexact : Nat → K) (edges : List (Nat × Nat)) (ymAction : K)
    (hn : (criticalPoints curlMagnitude curlCoexact edges ymAction).length ≤ kFloerMaxCriticals) :
    Reproducible sqrtf curlMagnitude curlCoexact edges ymAction ↔
      LengthDetermined sqrtf (criticalPoints curlMagnitude curlCoexact edges ymAction) :=
  ⟨lengthDetermined_of_reproducible hn, reproducible_of_lengthDetermined hn⟩

/-- Curls for which the actions are their squares and the lengths are rational. -/
def sampleCurl (e : Nat) : ℚ :=
  if e = 0 then 1 / 10 else if e = 1 then (6000 - 1 / 6000) / 20000 else (6200 - 1 / 6200) / 20000

/-- The action that makes the denominator of the local actions one. -/
def sampleAction : ℚ := 100000000 / 628318530 - 1 / 100000000

/-- The square root of the two products that occur. -/
def sampleSqrt (x : ℚ) : ℚ :=
  if x = (sampleCurl 0 * sampleCurl 1) ^ 2 + 1 / 10000000000 then (6000 + 1 / 6000) / 200000
  else (6200 + 1 / 6200) / 200000

/-- On the path 0 - 1 - 2 one minimum and one maximum are joined. -/
theorem reproducible_path :
    Reproducible sampleSqrt sampleCurl sampleCurl [(0, 1), (1, 2)] sampleAction :=
  (reproducible_iff _ _ _ _ _ (by decide +kernel)).mpr (by decide +kernel)

/-- On the triangle one minimum is joined with two maxima, at two lengths. -/
theorem not_reproducible_triangle :
    (criticalPoints sampleCurl sampleCurl [(0, 1), (0, 2), (1, 2)] sampleAction).length ≤
        kFloerMaxCriticals ∧
      ¬ Reproducible sampleSqrt sampleCurl sampleCurl [(0, 1), (0, 2), (1, 2)] sampleAction := by
  have hn : (criticalPoints sampleCurl sampleCurl [(0, 1), (0, 2), (1, 2)] sampleAction).length ≤
      kFloerMaxCriticals := by decide +kernel
  exact ⟨hn, mt (lengthDetermined_of_reproducible hn) (by decide +kernel)⟩

end HoloMarket
