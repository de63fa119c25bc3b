import Mathlib.Algebra.BigOperators.Group.List.Basic
import Mathlib.Algebra.Order.Field.Rat
import Mathlib.Data.List.Dedup
import Mathlib.Data.List.Sort
import Mathlib.Order.Lattice
import Mathlib.Order.MinMax

/-!
# Walk-forward calibration

`walk_forward` of `analyze_wfo.py` and of `analyze_wfo_2d.py`.  The two differ in
the columns of the pivot only: the values of `alpha` in their order, and the pairs
of `alpha` and `threshold` as the rows bring them.  What is chosen for a date is a
function of the rows before it.
-/

namespace HoloMarket
namespace WalkForward

/-- A row of the grid; a missing number is `none`. -/
structure GridRow (D C K : Type) where
  date : D
  config : C
  sharpe : Option K
  pnlBps : Option K

/-- A row of the result. -/
structure Report (D C K : Type) where
  date : D
  config : C
  isSharpe : K
  oosSharpe : K
  oosPnlBps : Option K
  deriving DecidableEq

variable {D C K : Type} [LinearOrder D]

/-- `sorted(xs.unique())`. -/
def sortedUnique {α : Type} [LinearOrder α] (xs : List α) : List α :=
  xs.dedup.insertionSort (· ≤ ·)

def dates (df : List (GridRow D C K)) : List D := sortedUnique (df.map GridRow.date)

/-- The columns of a pivot by one column. -/
def sortedColumns [LinearOrder C] (df : List (GridRow D C K)) : List C :=
  sortedUnique (df.map GridRow.config)

section Pivot

variable [DecidableEq C]

/-- The columns of a pivot by several columns. -/
def columnsSeen (df : List (GridRow D C K)) : List C := (df.map GridRow.config).eraseDups

/-- `pivot` refuses a grid with two rows of one date and configuration. -/
def CanPivot (df : List (GridRow D C K)) : Prop :=
  (df.map fun r => (r.date, r.config)).Nodup

instance (df : List (GridRow D C K)) : Decidable (CanPivot df) :=
  inferInstanceAs (Decidable (List.Nodup _))

/-- A cell of the pivot. -/
def cell (value : GridRow D C K → Option K) (df : List (GridRow D C K)) (d : D) (c : C) :
    Option K :=
  (df.find? fun r => decide (r.date = d ∧ r.config = c)).bind value

section Loop

variable [Zero K] [Add K] [Div K] [NatCast K] [LinearOrder K]

/-- The mean of a column over some dates; missing values are skipped. -/
def meanSharpe (df : List (GridRow D C K)) (days : List D) (c : C) : Option K :=
  match days.filterMap fun d => cell GridRow.sharpe df d c with
  | [] => none
  | x :: xs => some ((x :: xs).sum / ((xs.length + 1 : Nat) : K))

/-- `max` of a series. -/
def seriesMax (s : List (C × Option K)) : Option K := (s.filterMap Prod.snd).max?

/-- `idxmax` of a series: the first label with the maximum. -/
def idxmax (s : List (C × Option K)) : Option C :=
  (seriesMax s).bind fun m => (s.find? fun x => decide (x.2 = some m)).map Prod.fst

/-- The configuration chosen, with its mean; nothing where every mean is missing. -/
def calibrate (columns : List C) (df : List (GridRow D C K)) (trainDates : List D) :
    Option (C × K) :=
  let isMeans := columns.map fun c => (c, meanSharpe df trainDates c)
  (idxmax isMeans).bind fun best => (seriesMax isMeans).map fun isSharpe => (best, isSharpe)

/-- A turn of the loop. -/
def dayReport (columns : List C) (df : List (GridRow D C K)) (trainDates : List D)
    (testDate : D) : Option (Report D C K) :=
  (calibrate columns df trainDates).bind fun best =>
    (cell GridRow.sharpe df testDate best.1).map fun oosSharpe =>
      { date := testDate
        config := best.1
        isSharpe := best.2
        oosSharpe := oosSharpe
        oosPnlBps := cell GridRow.pnlBps df testDate best.1 }

/-- `dates[i - window:i]`. -/
def trainDates (window i : Nat) (ds : List D) : List D := (ds.take i).drop (i - window)

def walkForward (columns : List (GridRow D C K) → List C) (window : Nat)
    (df : List (GridRow D C K)) : Option (List (Report D C K)) :=
  if CanPivot df then
    some ((List.range' window ((dates df).length - window)).filterMap fun i =>
      (dates df)[i]?.bind fun testDate =>
        dayReport (columns df) df (trainDates window i (dates df)) testDate)
  else none

end Loop

end Pivot

/-! ## Sorted lists -/

section Sorted

variable {α : Type} [LinearOrder α]

theorem mem_sortedUnique {xs : List α} {x : α} : x ∈ sortedUnique xs ↔ x ∈ xs := by
  unfold sortedUnique
  rw [List.mem_insertionSort, List.mem_dedup]

theorem pairwise_sortedUnique (xs : List α) : (sortedUnique xs).Pairwise (· < ·) := by
  have : Std.Total fun a b : α => a ≤ b := ⟨le_total⟩
  have : IsTrans α fun a b : α => a ≤ b := ⟨fun a b c => le_trans⟩
  have hle : (sortedUnique xs).Pairwise (· ≤ ·) := List.pairwise_insertionSort _ _
  have hne : (sortedUnique xs).Pairwise (· ≠ ·) :=
    (List.perm_insertionSort _ _).nodup_iff.mpr (List.nodup_dedup xs)
  exact (hle.and hne).imp fun h => lt_of_le_of_ne h.1 h.2

theorem eq_of_increasing {xs ys : List α} (hxs : xs.Pairwise (· < ·)) (hys : ys.Pairwise (· < ·))
    (h : ∀ x, x ∈ xs ↔ x ∈ ys) : xs = ys := by
  have hperm : xs.Perm ys :=
    (List.perm_ext_iff_of_nodup (hxs.imp ne_of_lt) (hys.imp ne_of_lt)).mpr h
  exact hperm.eq_of_pairwise (fun a b _ _ hab hba => absurd hab (lt_asymm hba)) hxs hys

theorem filter_sortedUnique {xs ys : List α} {p : α → Bool}
    (h : ∀ x, x ∈ ys ↔ x ∈ xs ∧ p x = true) : (sortedUnique xs).filter p = sortedUnique ys := by
  refine eq_of_increasing ((pairwise_sortedUnique xs).filter p) (pairwise_sortedUnique ys) ?_
  intro x
  rw [List.mem_filter, mem_sortedUnique, mem_sortedUnique, h]

theorem sortedUnique_perm {xs ys : List α} (h : xs.Perm ys) :
    sortedUnique xs = sortedUnique ys := by
  refine eq_of_increasing (pairwise_sortedUnique _) (pairwise_sortedUnique _) fun x => ?_
  rw [mem_sortedUnique, mem_sortedUnique, h.mem_iff]

/-- The elements before one of an increasing list are the smaller ones. -/
theorem take_eq_filter_lt {ds : List α} (hds : ds.Pairwise (· < ·)) {i : Nat} {d : α}
    (hi : ds[i]? = some d) : ds.take i = ds.filter fun e => decide (e < d) := by
  induction ds generalizing i with
  | nil => exact nomatch hi
  | cons e ds ih =>
    rw [List.pairwise_cons] at hds
    cases i with
    | zero =>
      obtain rfl : e = d := Option.some.inj hi
      refine (List.filter_eq_nil_iff.mpr fun x hx => ?_).symm
      rw [decide_eq_true_eq]
      rcases List.mem_cons.mp hx with rfl | hmem
      · exact lt_irrefl x
      · exact lt_asymm (hds.1 x hmem)
    | succ i =>
      have hlt : e < d := hds.1 d (List.mem_of_getElem? hi)
      rw [List.take_succ_cons, ih hds.2 hi, List.filter_cons, if_pos (decide_eq_true hlt)]

end Sorted

/-! ## Dates before a date -/

section Dates

variable {df : List (GridRow D C K)}

/-- The rows before a date. -/
def before (d : D) (df : List (GridRow D C K)) : List (GridRow D C K) :=
  df.filter fun r => decide (r.date < d)

/-- The rows are in the order of their dates, as `load_grid` leaves them. -/
def InDateOrder (df : List (GridRow D C K)) : Prop :=
  df.Pairwise fun r r' => r.date ≤ r'.date

theorem dates_before (d : D) (df : List (GridRow D C K)) :
    (dates df).filter (fun e => decide (e < d)) = dates (before d df) := by
  refine filter_sortedUnique fun e => ?_
  constructor
  · intro he
    obtain ⟨r, hr, rfl⟩ := List.mem_map.mp he
    obtain ⟨hmem, hlt⟩ := List.mem_filter.mp hr
    exact ⟨List.mem_map_of_mem hmem, hlt⟩
  · rintro ⟨he, hlt⟩
    obtain ⟨r, hr, rfl⟩ := List.mem_map.mp he
    exact List.mem_map_of_mem (List.mem_filter.mpr ⟨hr, hlt⟩)

theorem before_before {d e : D} (he : e < d) (df : List (GridRow D C K)) :
    before e (before d df) = before e df := by
  unfold before
  rw [List.filter_filter]
  refine List.filter_congr fun r _ => ?_
  rw [Bool.eq_iff_iff, Bool.and_eq_true, decide_eq_true_eq, decide_eq_true_eq,
    and_iff_left_iff_imp]
  intro hr
  exact hr.trans he

theorem mem_config_before {d : D} {df : List (GridRow D C K)} {c : C} :
    c ∈ (before d df).map GridRow.config ↔ ∃ r ∈ df, r.date < d ∧ r.config = c := by
  simp only [before, List.mem_map, List.mem_filter, decide_eq_true_eq, and_assoc]

/-- Rows in the order of their dates begin with those before a date. -/
theorem InDateOrder.split {df : List (GridRow D C K)} (h : InDateOrder df) (d : D) :
    df = before d df ++ df.filter fun r => !decide (r.date < d) := by
  induction df with
  | nil => rfl
  | cons r df ih =>
    unfold InDateOrder at h
    rw [List.pairwise_cons] at h
    unfold before at ih ⊢
    by_cases hlt : r.date < d
    · simp only [List.filter_cons, hlt, decide_true, Bool.not_true, if_true, List.cons_append,
        Bool.false_eq_true, if_false]
      rw [← ih h.2]
    · have hnone : df.filter (fun r => decide (r.date < d)) = [] := by
        refine List.filter_eq_nil_iff.mpr fun x hx => ?_
        rw [decide_eq_true_eq]
        exact not_lt.mpr ((not_lt.mp hlt).trans (h.1 x hx))
      rw [hnone, List.nil_append] at ih
      simp only [List.filter_cons, hlt, decide_false, Bool.not_false, if_true, hnone,
        Bool.false_eq_true, if_false, List.nil_append]
      rw [← ih h.2]

/-- The last dates of a grid, `window` of them if there are as many. -/
def lastDates (window : Nat) (df : List (GridRow D C K)) : List D :=
  (dates df).drop ((dates df).length - window)

theorem lt_of_mem_lastDates {window : Nat} {d e : D} (he : e ∈ lastDates window (before d df)) :
    e < d := by
  have hmem := List.mem_of_mem_drop he
  rw [← dates_before] at hmem
  exact of_decide_eq_true (List.mem_filter.mp hmem).2

theorem trainDates_eq (window : Nat) {i : Nat} {d : D} (hi : (dates df)[i]? = some d) :
    (dates (before d df)).length = i ∧
      trainDates window i (dates df) = lastDates window (before d df) := by
  have htake : (dates df).take i = dates (before d df) :=
    (take_eq_filter_lt (pairwise_sortedUnique _) hi).trans (dates_before d df)
  have hlen : (dates (before d df)).length = i := by
    rw [← htake, List.length_take]
    have hlt := (List.getElem?_eq_some_iff.mp hi).1
    omega
  refine ⟨hlen, ?_⟩
  unfold trainDates lastDates
  rw [htake, hlen]

/-- The dates of the grid that stand immediately before a date, `window` of them. -/
structure IsWindow (window : Nat) (df : List (GridRow D C K)) (d : D) (days : List D) : Prop where
  length : days.length = window
  increasing : days.Pairwise (· < ·)
  earlier : ∀ e ∈ days, e ∈ dates df ∧ e < d
  nearest : ∀ e ∈ dates df, e < d → e ∉ days → ∀ f ∈ days, e < f

theorem isWindow_lastDates {window : Nat} {d : D}
    (h : window ≤ (dates (before d df)).length) :
    IsWindow window df d (lastDates window (before d df)) := by
  have hincreasing : (dates (before d df)).Pairwise (· < ·) := pairwise_sortedUnique _
  have hmem : ∀ e, e ∈ dates (before d df) ↔ e ∈ dates df ∧ e < d := by
    intro e
    rw [← dates_before, List.mem_filter, decide_eq_true_eq]
  refine ⟨?_, hincreasing.sublist (List.drop_sublist _ _),
    fun e he => (hmem e).mp (List.mem_of_mem_drop he), ?_⟩
  · unfold lastDates
    rw [List.length_drop]
    omega
  · intro e he hlt hnot f hf
    have hall := (hmem e).mpr ⟨he, hlt⟩
    rw [← List.take_append_drop ((dates (before d df)).length - window) (dates (before d df)),
      List.mem_append] at hall
    rw [← List.take_append_drop ((dates (before d df)).length - window) (dates (before d df)),
      List.pairwise_append] at hincreasing
    exact hincreasing.2.2 e (hall.resolve_right hnot) f hf

theorem CanPivot.before (h : CanPivot df) (d : D) : CanPivot (before d df) :=
  List.Nodup.sublist (List.filter_sublist.map _) h

end Dates

variable [DecidableEq C]

/-! ## The pivot -/

section Cells

variable {df df' : List (GridRow D C K)}

/-- The rows up to a date settle the order of the columns that they use. -/
def Steady (columns : List (GridRow D C K) → List C) (df : List (GridRow D C K)) : Prop :=
  ∀ d, (columns df).filter (fun c => decide (c ∈ (before d df).map GridRow.config)) =
    columns (before d df)

theorem steady_sortedColumns {C : Type} [LinearOrder C] (df : List (GridRow D C K)) :
    Steady sortedColumns df := by
  intro d
  refine filter_sortedUnique fun c => ?_
  rw [decide_eq_true_eq, iff_and_self]
  intro hc
  obtain ⟨r, hr, -, rfl⟩ := mem_config_before.mp hc
  exact List.mem_map_of_mem hr

omit [LinearOrder D] in
theorem mem_columnsSeen {df : List (GridRow D C K)} {c : C} :
    c ∈ columnsSeen df ↔ c ∈ df.map GridRow.config := List.mem_eraseDups

theorem steady_columnsSeen {df : List (GridRow D C K)} (h : InDateOrder df) :
    Steady columnsSeen df := by
  intro d
  have hcolumns : columnsSeen df = columnsSeen (before d df) ++
      (((df.filter fun r => !decide (r.date < d)).map GridRow.config).removeAll
        ((before d df).map GridRow.config)).eraseDups := by
    unfold columnsSeen
    rw [← List.eraseDups_append, ← List.map_append, ← h.split d]
  rw [hcolumns, List.filter_append, List.filter_eq_self.mpr, List.filter_eq_nil_iff.mpr,
    List.append_nil]
  · intro c hc
    rw [List.mem_eraseDups] at hc
    unfold List.removeAll at hc
    have hnot := (List.mem_filter.mp hc).2
    simpa using hnot
  · intro c hc
    exact decide_eq_true (mem_columnsSeen.mp hc)

theorem find?_filter_of_imp {α : Type} {l : List α} {p q : α → Bool}
    (h : ∀ x ∈ l, q x = true → p x = true) : (l.filter p).find? q = l.find? q := by
  induction l with
  | nil => rfl
  | cons x l ih =>
    rw [List.forall_mem_cons] at h
    by_cases hp : p x = true
    · rw [List.filter_cons_of_pos hp, List.find?_cons, List.find?_cons, ih h.2]
    · have hq : q x = false := Bool.eq_false_iff.mpr fun hq => hp (h.1 hq)
      rw [List.filter_cons_of_neg hp, List.find?_cons, hq, ih h.2]

/-- A cell of an earlier date is read from the rows before. -/
theorem cell_before (value : GridRow D C K → Option K) {d e : D} (he : e < d) (c : C) :
    cell value (before d df) e c = cell value df e c := by
  unfold cell before
  rw [find?_filter_of_imp]
  intro r _ hr
  rw [decide_eq_true_eq] at hr ⊢
  rw [hr.1]
  exact he

/-- The rows of a pivot may stand in any order. -/
theorem cell_perm (hpivot : CanPivot df) (h : df.Perm df')
    (value : GridRow D C K → Option K) (d : D) (c : C) :
    cell value df d c = cell value df' d c := by
  have hkey : ∀ {l : List (GridRow D C K)} {r : GridRow D C K},
      l.find? (fun r => decide (r.date = d ∧ r.config = c)) = some r →
        r ∈ l ∧ r.date = d ∧ r.config = c := by
    intro l r hr
    have hvalue := List.find?_some hr
    exact ⟨List.mem_of_find?_eq_some hr, of_decide_eq_true hvalue⟩
  unfold cell
  congr 1
  cases hfind : df.find? (fun r => decide (r.date = d ∧ r.config = c)) with
  | none =>
    refine (List.find?_eq_none.mpr fun r hr => ?_).symm
    exact List.find?_eq_none.mp hfind r (h.mem_iff.mpr hr)
  | some r =>
    obtain ⟨hmem, hdate, hconfig⟩ := hkey hfind
    cases hfind' : df'.find? (fun r => decide (r.date = d ∧ r.config = c)) with
    | none =>
      have hnone := List.find?_eq_none.mp hfind' r (h.mem_iff.mp hmem)
      exact absurd (decide_eq_true ⟨hdate, hconfig⟩) hnone
    | some r' =>
      obtain ⟨hmem', hdate', hconfig'⟩ := hkey hfind'
      refine congrArg some (List.inj_on_of_nodup_map hpivot hmem (h.mem_iff.mpr hmem') ?_)
      rw [hdate, hconfig, hdate', hconfig']

theorem cell_eq_of_agree (hpivot : CanPivot df) {d : D}
    (h : (before d df).Perm (before d df')) (value : GridRow D C K → Option K) {e : D}
    (he : e < d) (c : C) : cell value df e c = cell value df' e c := by
  rw [← cell_before value he, cell_perm (hpivot.before d) h, cell_before value he]

end Cells

/-! ## What is chosen for a date -/

section Choice

variable [Zero K] [Add K] [Div K] [NatCast K] {df df' : List (GridRow D C K)}

theorem meanSharpe_before {d : D} {days : List D} (hdays : ∀ e ∈ days, e < d) (c : C) :
    meanSharpe (before d df) days c = meanSharpe df days c := by
  unfold meanSharpe
  rw [List.filterMap_congr fun e he => cell_before GridRow.sharpe (hdays e he) c]

theorem meanSharpe_of_not_mem {days : List D} {c : C} (hc : c ∉ df.map GridRow.config) :
    meanSharpe df days c = none := by
  have hnone : (days.filterMap fun d => cell GridRow.sharpe df d c) = [] := by
    refine List.filterMap_eq_nil_iff.mpr fun d _ => ?_
    have hfind : df.find? (fun r => decide (r.date = d ∧ r.config = c)) = none := by
      refine List.find?_eq_none.mpr fun r hr => ?_
      rw [decide_eq_true_eq]
      rintro ⟨-, rfl⟩
      exact hc (List.mem_map_of_mem hr)
    unfold cell
    rw [hfind]
    rfl
  unfold meanSharpe
  rw [hnone]

variable [LinearOrder K]

omit [DecidableEq C] [Zero K] [Add K] [Div K] [NatCast K] in
theorem idxmax_filter {s : List (C × Option K)} {p : C × Option K → Bool}
    (h : ∀ x ∈ s, p x = false → x.2 = none) :
    seriesMax (s.filter p) = seriesMax s ∧ idxmax (s.filter p) = idxmax s := by
  have hmax : seriesMax (s.filter p) = seriesMax s := by
    unfold seriesMax
    rw [List.filterMap_filter]
    refine congrArg List.max? (List.filterMap_congr fun x hx => ?_)
    by_cases hpx : p x = true
    · rw [if_pos hpx]
    · rw [if_neg hpx, h x hx (Bool.eq_false_iff.mpr hpx)]
  refine ⟨hmax, ?_⟩
  unfold idxmax
  rw [hmax]
  refine congrArg (seriesMax s).bind (funext fun m => congrArg _ ?_)
  refine find?_filter_of_imp fun x hx hm => ?_
  by_contra hpx
  have hnone := h x hx (Bool.eq_false_iff.mpr hpx)
  rw [decide_eq_true_eq, hnone] at hm
  exact nomatch hm

/-- The choice for a date reads the rows before it only. -/
theorem calibrate_before {columns : List (GridRow D C K) → List C} (hsteady : Steady columns df)
    {d : D} {days : List D} (hdays : ∀ e ∈ days, e < d) :
    calibrate (columns (before d df)) (before d df) days = calibrate (columns df) df days := by
  have hmeans : ((columns (before d df)).map fun c => (c, meanSharpe (before d df) days c)) =
      ((columns df).map fun c => (c, meanSharpe df days c)).filter
        fun x => decide (x.1 ∈ (before d df).map GridRow.config) := by
    rw [← hsteady d, List.filter_map]
    exact List.map_congr_left fun c _ => Prod.ext rfl (meanSharpe_before hdays c)
  have hskip : ∀ x ∈ (columns df).map (fun c => (c, meanSharpe df days c)),
      decide (x.1 ∈ (before d df).map GridRow.config) = false → x.2 = none := by
    intro x hx hnot
    obtain ⟨c, -, rfl⟩ := List.mem_map.mp hx
    rw [← meanSharpe_before hdays]
    exact meanSharpe_of_not_mem (of_decide_eq_false hnot)
  obtain ⟨hmax, hidx⟩ := idxmax_filter hskip
  unfold calibrate
  simp only
  rw [hmeans, hmax, hidx]

theorem calibrate_perm (hpivot : CanPivot df) (h : df.Perm df') (columns : List C)
    (days : List D) : calibrate columns df days = calibrate columns df' days := by
  have hmean : meanSharpe df days = meanSharpe df' days := by
    funext c
    unfold meanSharpe
    rw [List.filterMap_congr fun e _ => cell_perm hpivot h GridRow.sharpe e c]
  unfold calibrate
  rw [hmean]

/-- The chosen configuration has the greatest mean. -/
theorem calibrate_max {columns : List C} {days : List D} {best : C} {isSharpe : K}
    (h : calibrate columns df days = some (best, isSharpe)) :
    meanSharpe df days best = some isSharpe ∧
      ∀ c ∈ columns, ∀ m, meanSharpe df days c = some m → m ≤ isSharpe := by
  unfold calibrate at h
  simp only [Option.bind_eq_some_iff, Option.map_eq_some_iff, Prod.mk.injEq] at h
  obtain ⟨_, hidx, _, hmax, rfl, rfl⟩ := h
  constructor
  · unfold idxmax at hidx
    simp only [Option.bind_eq_some_iff, Option.map_eq_some_iff] at hidx
    obtain ⟨m, hm, x, hfind, rfl⟩ := hidx
    rw [hmax] at hm
    cases hm
    obtain ⟨c, -, rfl⟩ := List.mem_map.mp (List.mem_of_find?_eq_some hfind)
    have hvalue := List.find?_some hfind
    exact of_decide_eq_true hvalue
  · intro c hc m hm
    refine (List.max?_le_iff hmax).mp le_rfl m (List.mem_filterMap.mpr ⟨(c, some m), ?_, rfl⟩)
    rw [← hm]
    exact List.mem_map_of_mem hc

/-! ## The days that are reported -/

theorem dayReport_eq_some {columns : List C} {days : List D} {d : D} {r : Report D C K} :
    dayReport columns df days d = some r ↔ r.date = d ∧
      calibrate columns df days = some (r.config, r.isSharpe) ∧
      cell GridRow.sharpe df d r.config = some r.oosSharpe ∧
      cell GridRow.pnlBps df d r.config = r.oosPnlBps := by
  unfold dayReport
  simp only [Option.bind_eq_some_iff, Option.map_eq_some_iff]
  constructor
  · rintro ⟨best, hbest, oosSharpe, hoos, rfl⟩
    exact ⟨rfl, hbest, hoos, rfl⟩
  · rintro ⟨rfl, hbest, hoos, hpnl⟩
    exact ⟨(r.config, r.isSharpe), hbest, r.oosSharpe, hoos, by rw [hpnl]⟩

/-- A date is reported where enough dates stand before it, the rows before it give
a choice, and the grid has its own value for that choice. -/
theorem mem_walkForward {columns : List (GridRow D C K) → List C} (hsteady : Steady columns df)
    {window : Nat} {reports : List (Report D C K)}
    (h : walkForward columns window df = some reports) {r : Report D C K} :
    r ∈ reports ↔ r.date ∈ dates df ∧ window ≤ (dates (before r.date df)).length ∧
      calibrate (columns (before r.date df)) (before r.date df)
        (lastDates window (before r.date df)) = some (r.config, r.isSharpe) ∧
      cell GridRow.sharpe df r.date r.config = some r.oosSharpe ∧
      cell GridRow.pnlBps df r.date r.config = r.oosPnlBps := by
  unfold walkForward at h
  split_ifs at h
  cases h
  rw [calibrate_before hsteady fun e he => lt_of_mem_lastDates he]
  simp only [List.mem_filterMap, List.mem_range'_1, Option.bind_eq_some_iff, dayReport_eq_some]
  constructor
  · rintro ⟨i, ⟨hwindow, -⟩, d, hi, rfl, hbest, hoos, hpnl⟩
    obtain ⟨hlen, htrain⟩ := trainDates_eq window hi
    rw [htrain] at hbest
    exact ⟨List.mem_of_getElem? hi, hlen ▸ hwindow, hbest, hoos, hpnl⟩
  · rintro ⟨hdate, hwindow, hbest, hoos, hpnl⟩
    obtain ⟨i, hi⟩ := List.mem_iff_getElem?.mp hdate
    obtain ⟨hlen, htrain⟩ := trainDates_eq window hi
    rw [← htrain] at hbest
    have hlt := (List.getElem?_eq_some_iff.mp hi).1
    exact ⟨i, ⟨by omega, by omega⟩, r.date, hi, rfl, hbest, hoos, hpnl⟩

theorem canPivot_of_walkForward {columns : List (GridRow D C K) → List C} {window : Nat}
    {reports : List (Report D C K)} (h : walkForward columns window df = some reports) :
    CanPivot df := by
  unfold walkForward at h
  split_ifs at h with hpivot
  exact hpivot

/-! ## Two grids that agree before a date -/

/-- A walk-forward run does not look ahead: of two grids that agree before a date,
the runs choose alike for the date and report alike before it; what is chosen has
the greatest mean over the dates in front; the date's own values are its
out-of-sample figures.  A date is reported exactly where the window is full, the rows
before it give a choice, and the grid has a value for the choice. -/
structure NoLookAhead (columns : List (GridRow D C K) → List C)
    (run : Nat → List (GridRow D C K) → Option (List (Report D C K)))
    (Loaded : List (GridRow D C K) → Prop)
    (Agree : List (GridRow D C K) → List (GridRow D C K) → Prop) : Prop where
  chosen : ∀ {window df df' reports reports' d}, Loaded df → Loaded df' →
    Agree (before d df) (before d df') → run window df = some reports →
    run window df' = some reports' → ∀ r ∈ reports, ∀ r' ∈ reports', r.date = d → r'.date = d →
      r.config = r'.config ∧ r.isSharpe = r'.isSharpe
  earlier : ∀ {window df df' reports reports' d}, Loaded df → Loaded df' →
    Agree (before d df) (before d df') → run window df = some reports →
    run window df' = some reports' → ∀ r, r.date < d → (r ∈ reports ↔ r ∈ reports')
  greatest : ∀ {window df reports}, Loaded df → run window df = some reports → ∀ r ∈ reports,
    ∃ days, IsWindow window df r.date days ∧ meanSharpe df days r.config = some r.isSharpe ∧
      ∀ c m, meanSharpe df days c = some m → m ≤ r.isSharpe
  figures : ∀ {window df reports}, Loaded df → run window df = some reports → ∀ r ∈ reports,
    cell GridRow.sharpe df r.date r.config = some r.oosSharpe ∧
      cell GridRow.pnlBps df r.date r.config = r.oosPnlBps
  reported : ∀ {window df reports}, Loaded df → run window df = some reports → ∀ r,
    r ∈ reports ↔ r.date ∈ dates df ∧ window ≤ (dates (before r.date df)).length ∧
      calibrate (columns (before r.date df)) (before r.date df)
        (lastDates window (before r.date df)) = some (r.config, r.isSharpe) ∧
      cell GridRow.sharpe df r.date r.config = some r.oosSharpe ∧
      cell GridRow.pnlBps df r.date r.config = r.oosPnlBps

theorem noLookAhead {columns : List (GridRow D C K) → List C}
    {Loaded : List (GridRow D C K) → Prop}
    {Agree : List (GridRow D C K) → List (GridRow D C K) → Prop}
    (hsteady : ∀ df, Loaded df → Steady columns df)
    (hcolumns : ∀ df, Loaded df → ∀ c, c ∈ columns df ↔ c ∈ df.map GridRow.config)
    (hperm : ∀ df df', Agree df df' → df.Perm df' ∧ columns df = columns df')
    (hbefore : ∀ df df' d, Agree df df' → Agree (before d df) (before d df')) :
    NoLookAhead columns (walkForward columns) Loaded Agree := by
  have hchoice : ∀ (window : Nat) {df df' : List (GridRow D C K)} {d : D}, CanPivot df →
      Agree (before d df) (before d df') →
      calibrate (columns (before d df)) (before d df) (lastDates window (before d df)) =
        calibrate (columns (before d df')) (before d df') (lastDates window (before d df')) := by
    intro window df df' d hpivot hagree
    obtain ⟨hp, hc⟩ := hperm _ _ hagree
    have hdates : dates (before d df) = dates (before d df') := sortedUnique_perm (hp.map _)
    unfold lastDates
    rw [hc, hdates, calibrate_perm (hpivot.before d) hp]
  refine ⟨?_, ?_, ?_, ?_, fun hload hrun _ => mem_walkForward (hsteady _ hload) hrun⟩
  · rintro window df df' reports reports' d hload hload' hagree hrun hrun' r hr r' hr' rfl hdate
    obtain ⟨-, -, hbest, -⟩ := (mem_walkForward (hsteady df hload) hrun).mp hr
    obtain ⟨-, -, hbest', -⟩ := (mem_walkForward (hsteady df' hload') hrun').mp hr'
    rw [hchoice window (canPivot_of_walkForward hrun) hagree, ← hdate, hbest'] at hbest
    obtain ⟨hconfig, hsharpe⟩ := Prod.mk.inj (Option.some.inj hbest)
    exact ⟨hconfig.symm, hsharpe.symm⟩
  · intro window df df' reports reports' d hload hload' hagree hrun hrun' r hr
    have hpivot := canPivot_of_walkForward hrun
    have hp := (hperm _ _ hagree).1
    have hagree' := hbefore _ _ r.date hagree
    rw [before_before hr, before_before hr] at hagree'
    have hdates : dates (before r.date df) = dates (before r.date df') :=
      sortedUnique_perm ((hperm _ _ hagree').1.map _)
    have hdate : r.date ∈ dates df ↔ r.date ∈ dates df' := by
      have hmem : ∀ df : List (GridRow D C K),
          r.date ∈ dates df ↔ r.date ∈ dates (before d df) := by
        intro df
        rw [← dates_before, List.mem_filter, decide_eq_true_eq, and_iff_left hr]
      rw [hmem df, hmem df', dates, dates, sortedUnique_perm (hp.map _)]
    rw [mem_walkForward (hsteady df hload) hrun, mem_walkForward (hsteady df' hload') hrun',
      hchoice window hpivot hagree', hdates, hdate, cell_eq_of_agree hpivot hp _ hr,
      cell_eq_of_agree hpivot hp _ hr]
  · intro window df reports hload hrun r hr
    obtain ⟨-, hwindow, hbest, -⟩ := (mem_walkForward (hsteady df hload) hrun).mp hr
    rw [calibrate_before (hsteady df hload) fun e he => lt_of_mem_lastDates he] at hbest
    obtain ⟨hmean, hmax⟩ := calibrate_max hbest
    refine ⟨_, isWindow_lastDates hwindow, hmean, fun c m hm => ?_⟩
    refine hmax c ((hcolumns df hload c).mpr ?_) m hm
    by_contra hnot
    rw [meanSharpe_of_not_mem hnot] at hm
    exact nomatch hm
  · intro window df reports hload hrun r hr
    obtain ⟨-, -, -, hoos, hpnl⟩ := (mem_walkForward (hsteady df hload) hrun).mp hr
    exact ⟨hoos, hpnl⟩

end Choice

end WalkForward

open WalkForward

section Scripts

variable {D A T K : Type} [LinearOrder D] [Zero K] [Add K] [Div K] [NatCast K] [LinearOrder K]

/-- `walk_forward` of `analyze_wfo.py`, over the values of `alpha`. -/
def AnalyzeWfo.walkForward [LinearOrder A] (window : Nat) (df : List (GridRow D A K)) :
    Option (List (Report D A K)) :=
  WalkForward.walkForward sortedColumns window df

/-- `walk_forward` of `analyze_wfo_2d.py`, over the pairs of `alpha` and `threshold`. -/
def AnalyzeWfo2d.walkForward [DecidableEq A] [DecidableEq T] (window : Nat)
    (df : List (GridRow D (A × T) K)) : Option (List (Report D (A × T) K)) :=
  WalkForward.walkForward columnsSeen window df

/-- For every window: in the first script the rows before a date may differ in their
order; in the second, which keeps the order of the rows in its columns, the grid is
in the order of its dates. -/
theorem walkForward_noLookAhead [LinearOrder A] {B : Type} [DecidableEq B] [DecidableEq T] :
    NoLookAhead sortedColumns (AnalyzeWfo.walkForward (D := D) (A := A) (K := K))
      (fun _ => True) List.Perm ∧
    NoLookAhead columnsSeen (AnalyzeWfo2d.walkForward (D := D) (A := B) (T := T) (K := K))
      InDateOrder (fun rows rows' => rows = rows') := by
  constructor
  · refine noLookAhead (fun df _ => steady_sortedColumns df) (fun df _ c => mem_sortedUnique)
      (fun df df' h => ⟨h, sortedUnique_perm (h.map _)⟩) fun df df' d h => h.filter _
  · refine noLookAhead (fun df => steady_columnsSeen) (fun df _ c => mem_columnsSeen) ?_ ?_
    · rintro df _ rfl
      exact ⟨List.Perm.refl df, rfl⟩
    · rintro df _ d rfl
      rfl

end Scripts

/-- Two days of two configurations, of which the second day turns the choice. -/
def firstDays {C : Type} (c c' : C) : List (GridRow Nat C ℚ) :=
  [⟨1, c, some 1, none⟩, ⟨1, c', some 2, none⟩, ⟨2, c, some 3, none⟩, ⟨2, c', some 1, none⟩]

/-- A third day, of one configuration. -/
def thirdDay {C : Type} (c : C) (oosSharpe : ℚ) : List (GridRow Nat C ℚ) :=
  [⟨3, c, some oosSharpe, none⟩]

/-- Two grids that bring the third day a profit and a loss. -/
theorem walkForward_noLookAhead_thirdDay :
    (∃ reports reports', ∃ r ∈ reports, ∃ r' ∈ reports',
      AnalyzeWfo.walkForward 2 (firstDays 10 20 ++ thirdDay 10 5) = some reports ∧
      AnalyzeWfo.walkForward 2 ((firstDays 10 20).reverse ++ thirdDay 10 (-4)) = some reports' ∧
      r.date = 3 ∧ r'.date = 3 ∧ r.oosSharpe ≠ r'.oosSharpe ∧
      r.config = r'.config ∧ r.isSharpe = r'.isSharpe) ∧
    ∃ reports reports', ∃ r ∈ reports, ∃ r' ∈ reports',
      AnalyzeWfo2d.walkForward 2 (firstDays (10, 1) (20, 1) ++ thirdDay (10, 1) 5) =
        some reports ∧
      AnalyzeWfo2d.walkForward 2 (firstDays (10, 1) (20, 1) ++ thirdDay (10, 1) (-4)) =
        some reports' ∧
      r.date = 3 ∧ r'.date = 3 ∧ r.oosSharpe ≠ r'.oosSharpe ∧
      r.config = r'.config ∧ r.isSharpe = r'.isSharpe := by
  have h := walkForward_noLookAhead (D := Nat) (A := Nat) (B := Nat) (T := Nat) (K := ℚ)
  constructor
  · have hprofit : AnalyzeWfo.walkForward 2 (firstDays 10 20 ++ thirdDay 10 5) =
        some [⟨3, 10, 2, 5, none⟩] := by decide +kernel
    have hloss : AnalyzeWfo.walkForward 2 ((firstDays 10 20).reverse ++ thirdDay 10 (-4)) =
        some [⟨3, 10, 2, -4, none⟩] := by decide +kernel
    have hagree : (before 3 (firstDays 10 20 ++ thirdDay 10 5)).Perm
        (before 3 ((firstDays 10 20).reverse ++ thirdDay 10 (-4))) :=
      (List.reverse_perm (firstDays 10 20)).symm
    exact ⟨_, _, _, List.mem_singleton_self _, _, List.mem_singleton_self _, hprofit, hloss,
      rfl, rfl, by decide, h.1.chosen trivial trivial hagree hprofit hloss _
        (List.mem_singleton_self _) _ (List.mem_singleton_self _) rfl rfl⟩
  · have hprofit : AnalyzeWfo2d.walkForward 2
        (firstDays (10, 1) (20, 1) ++ thirdDay (10, 1) 5) =
          some [⟨3, (10, 1), 2, 5, none⟩] := by decide +kernel
    have hloss : AnalyzeWfo2d.walkForward 2
        (firstDays (10, 1) (20, 1) ++ thirdDay (10, 1) (-4)) =
          some [⟨3, (10, 1), 2, -4, none⟩] := by decide +kernel
    have hordered : ∀ oosSharpe,
        InDateOrder (firstDays (10, 1) (20, 1) ++ thirdDay (10, 1) oosSharpe) := by
      intro oosSharpe
      show List.Pairwise _ _
      simp [firstDays, thirdDay]
    exact ⟨_, _, _, List.mem_singleton_self _, _, List.mem_singleton_self _, hprofit, hloss,
      rfl, rfl, by decide, h.2.chosen (hordered 5) (hordered (-4)) rfl hprofit hloss _
        (List.mem_singleton_self _) _ (List.mem_singleton_self _) rfl rfl⟩

end HoloMarket
