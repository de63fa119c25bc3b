import HoloMarket.App.BacktestReport
import HoloMarket.Lib.DecimalText
import HoloMarket.Lib.TextScan
import HoloMarket.Research.WalkForward

/-!
# The grid of backtests

The sweep of `build_sharpe_grid_v3.sh` over days, weights and thresholds, and `load_grid` of
`analyze_wfo_2d.py`.  The script finds the figures of a run in what `main_backtest.cpp`
prints, by the words of a line and the shape of a number, and hands them on as columns of
texts.
-/

namespace HoloMarket
namespace SharpeGrid

open DecimalText TextScan
open PnlTracker (init Report reportOf netReturns tallied_run)

abbrev Text := List Char

/-! ## What the backtest prints -/

/-- A format with one argument at most. -/
structure Format where
  label : Text
  suffix : Text

def Format.printf (f : Format) (v : Text) : Text := f.label ++ v ++ f.suffix

inductive LineKind
  | blank | rule | title | noSignals | signals | filtered | winRate | meanNet | stdDev
  | sharpe | terminalPnl | elapsed | rowsRead | updatesDropped | pushWait | saved
  deriving DecidableEq

def LineKind.format : LineKind → Format
  | .blank => ⟨[], []⟩
  | .rule => ⟨"══════════════════════════════════════════════".toList, []⟩
  | .title => ⟨"  BACKTEST REPORT (NET OF SPREAD COSTS)".toList, []⟩
  | .noSignals => ⟨"  No signals passed filter. Filtered: ".toList, []⟩
  | .signals => ⟨"  Signals executed : ".toList, []⟩
  | .filtered => ⟨"  Filtered (cost)  : ".toList, []⟩
  | .winRate => ⟨"  Win Rate         : ".toList, "%".toList⟩
  | .meanNet => ⟨"  Mean net(bps)    : ".toList, []⟩
  | .stdDev => ⟨"  Std dev  (bps)   : ".toList, []⟩
  | .sharpe => ⟨"  Sharpe (per-sig) : ".toList, []⟩
  | .terminalPnl => ⟨"  Terminal PnL     : ".toList, " bps".toList⟩
  | .elapsed => ⟨"  Elapsed          : ".toList, " s".toList⟩
  | .rowsRead => ⟨"  Rows read        : ".toList, []⟩
  | .updatesDropped => ⟨"  Updates dropped  : ".toList, []⟩
  | .pushWait =>
    ⟨"  Push wait (diag) : ".toList, " s (producer time spent blocked on a full ring)".toList⟩
  | .saved => ⟨"  [SUCCESS] advanced_metrics.csv saved (".toList, " ticks)".toList⟩

/-- `%llu`. -/
def digits (n : Nat) : Text := Nat.toDigits 10 n

/-- A run of the binary that ends well.  `before` is what comes before the report: all of
stderr, which is not buffered, and the first lines of stdout. -/
structure BacktestRun (K : Type) where
  env : BacktestEnv K
  calls : List (RecordCall K)
  before : List Text
  elapsed : K
  rowsRead : Nat
  updatesDropped : Nat
  pushWait : K
  saved : Bool

variable {K : Type} [Field K] [LinearOrder K]

def BacktestRun.tracker (run : BacktestRun K) : PnlTracker K := init.run run.env run.calls

section Print

variable [FloorSemiring K]

/-- `print_report`. -/
def reportLines (elapsed : K) (filtered : Nat) : Option (Report K) → List (LineKind × Text)
  | none => [(.blank, []), (.rule, []), (.title, []), (.rule, []), (.noSignals, digits filtered)]
  | some r =>
    [(.blank, []), (.rule, []), (.title, []), (.rule, []),
      (.signals, digits r.signalsExecuted), (.filtered, digits r.filtered),
      (.winRate, fixedPoint 1 r.winRate), (.meanNet, fixedPoint 4 r.meanNet),
      (.stdDev, fixedPoint 4 r.stdDev), (.sharpe, fixedPoint 4 r.sharpe),
      (.terminalPnl, fixedPoint 2 r.terminalPnl), (.elapsed, fixedPoint 2 elapsed),
      (.rule, []), (.blank, [])]

/-- The lines of `main` from the report on. -/
def BacktestRun.lines (sqrt : K → K) (run : BacktestRun K) : List (LineKind × Text) :=
  reportLines run.elapsed run.tracker.filtered (run.tracker.printReport sqrt) ++
    ([(.rowsRead, digits run.rowsRead), (.updatesDropped, digits run.updatesDropped),
      (.pushWait, fixedPoint 2 run.pushWait)] ++
      if run.saved then [(.saved, digits run.tracker.ticks.length)] else [])

def printed (ls : List (LineKind × Text)) : List Text := ls.map fun x => x.1.format.printf x.2

def BacktestRun.output (sqrt : K → K) (run : BacktestRun K) : List Text :=
  run.before ++ printed (run.lines sqrt)

end Print

/-! ## The sweep -/

/-- `grep key`. -/
def grep (key : Text) (ls : List Text) : List Text := ls.filter fun l => decide (key <:+: l)

/-- `grep -oE pattern`. -/
def grepO (longest : Text → Nat) (ls : List Text) : List Text := ls.flatMap (findAll longest)

/-- `[0-9.-]`. -/
def isNumberChar (c : Char) : Bool := c.isDigit || c == '.' || c == '-'

inductive Metric
  | sharpe | signals | winrate | meanbps | pnl | dropped
  deriving DecidableEq

namespace Metric

def key : Metric → Text
  | sharpe => "Sharpe".toList
  | signals => "Signals executed".toList
  | winrate => "Win Rate".toList
  | meanbps => "Mean net".toList
  | pnl => "Terminal PnL".toList
  | dropped => "Updates dropped".toList

def extract : Metric → List Text → List Text
  | sharpe, ls => (grepO (run isNumberChar) ls).getLast?.toList
  | signals, ls => grepO (run Char.isDigit) ls
  | winrate, ls => grepO (runs Char.isDigit '.') ls
  | meanbps, ls => (grepO (run isNumberChar) ls).getLast?.toList
  | pnl, ls => (grepO (run isNumberChar) ls).head?.toList
  | dropped, ls => grepO (run Char.isDigit) ls

/-- What stands for a metric whose line is missing. -/
def missing : Metric → Text
  | signals => ['0']
  | _ => ['N', 'A', 'N']

/-- `${x:-missing}` of what the pipe for the metric prints. -/
def text (m : Metric) (out : List Text) : Text :=
  let found := ['\n'].intercalate (m.extract (grep m.key out))
  if found = [] then m.missing else found

/-- The order of the `echo`, of the `read` and of the columns. -/
def order : List Metric := [sharpe, signals, winrate, meanbps, pnl, dropped]

end Metric

/-- `run_one`, from the output of the binary, or `none` when it fails.  A `grep` that finds
nothing does not end the script: `-e` is off in a command substitution. -/
def runOne : Option (List Text) → Text
  | none => "NAN NAN NAN NAN NAN NAN".toList
  | some out => [' '].intercalate (Metric.order.map fun m => m.text out)

def isBlank (c : Char) : Bool := c == ' ' || c == '\t'

/-- `read -r sharpe signals winrate meanbps pnl dropped`. -/
def readMetrics (answer : Text) : List Text :=
  words isBlank 6 (answer.takeWhile fun c => c != '\n')

def gridLine (day alpha threshold answer : Text) : Text :=
  [','].intercalate ([day, alpha, threshold] ++ readMetrics answer)

def header : Text :=
  "date,alpha,threshold,sharpe,signals,win_rate,mean_bps,pnl_bps,updates_dropped".toList

/-- The file that the sweep leaves. -/
def sweep (backtest : Text → Text → Text → Option (List Text))
    (days alphas thresholds : List Text) : Text :=
  unlines '\n' (header :: days.flatMap fun day => alphas.flatMap fun alpha =>
    thresholds.map fun threshold =>
      gridLine day alpha threshold (runOne (backtest day alpha threshold)))

/-! ## The loader -/

/-- A row of the frame of `load_grid`; what is not a number is `none`. -/
structure LoadedRow (D K : Type) where
  date : D
  alpha : K
  threshold : K
  sharpe : Option K
  signals : Option K
  winRate : Option K
  meanBps : Option K
  pnlBps : Option K

/-- What `walk_forward` takes of a row. -/
def LoadedRow.gridRow {D : Type} (r : LoadedRow D K) : WalkForward.GridRow D (K × K) K where
  date := r.date
  config := (r.alpha, r.threshold)
  sharpe := r.sharpe
  pnlBps := r.pnlBps

/-- A column of a row; `none` is the `KeyError`. -/
def column (names row : List Text) (name : String) : Option Text :=
  (names.zip row).lookup name.toList

def loadRow {D : Type} (toDatetime : Text → D) (names row : List Text) :
    Option (LoadedRow D K) := do
  let date ← column names row "date"
  let alpha ← (column names row "alpha").bind read
  let threshold ← (column names row "threshold").bind read
  let sharpe ← column names row "sharpe"
  let signals ← column names row "signals"
  let winRate ← column names row "win_rate"
  let meanBps ← column names row "mean_bps"
  let pnlBps ← column names row "pnl_bps"
  return {
    date := toDatetime date
    alpha := alpha
    threshold := threshold
    sharpe := read sharpe
    signals := read signals
    winRate := read winRate
    meanBps := read meanBps
    pnlBps := read pnlBps }

/-- `load_grid`, before its rows are sorted by date. -/
def loadGrid {D : Type} (toDatetime : Text → D) (file : Text) : Option (List (LoadedRow D K)) :=
  match (lines '\n' file).map fun line => line.splitOn ',' with
  | [] => none
  | names :: rows => rows.mapM (loadRow toDatetime names)

/-! ## Lines and keys -/

namespace Metric

/-- The line that a key is for. -/
def kind : Metric → LineKind
  | sharpe => .sharpe
  | signals => .signals
  | winrate => .winRate
  | meanbps => .meanNet
  | pnl => .terminalPnl
  | dropped => .updatesDropped

end Metric

/-- Letters of a key; every other line lacks one of them. -/
def Metric.letters : Metric → Text
  | sharpe => ['h', 'S']
  | signals => ['x']
  | winrate => ['W']
  | meanbps => ['M']
  | pnl => ['L']
  | dropped => ['U', 'p']

/-- A letter is not in the format, so that no number completes a key with it. -/
def Format.lacks (f : Format) (letters : Text) : Bool :=
  letters.any fun c => !isNumberChar c && !(f.label ++ f.suffix).contains c

def LineKind.all : List LineKind :=
  [.blank, .rule, .title, .noSignals, .signals, .filtered, .winRate, .meanNet, .stdDev,
    .sharpe, .terminalPnl, .elapsed, .rowsRead, .updatesDropped, .pushWait, .saved]

theorem LineKind.mem_all (k : LineKind) : k ∈ LineKind.all := by cases k <;> decide

theorem Metric.mem_order (m : Metric) : m ∈ Metric.order := by cases m <;> decide

theorem Metric.mem_key {m : Metric} {c : Char} (hc : c ∈ m.letters) : c ∈ m.key := by
  have hall : (Metric.order.all fun m => m.letters.all m.key.contains) = true := by
    decide +kernel
  have hm := List.all_eq_true.mp (List.all_eq_true.mp hall m m.mem_order) c hc
  simpa using hm

theorem lacks_of_ne {k : LineKind} {m : Metric} (h : k ≠ m.kind) :
    k.format.lacks m.letters = true := by
  have hall : ∀ k ∈ LineKind.all, ∀ m ∈ Metric.order,
      k ≠ m.kind → k.format.lacks m.letters = true := by decide +kernel
  exact hall k k.mem_all m m.mem_order h

theorem key_in_label (m : Metric) : m.key <:+: m.kind.format.label := by
  have hall : ∀ m ∈ Metric.order, m.key <:+: m.kind.format.label := by decide +kernel
  exact hall m m.mem_order

def Numeric (v : Text) : Prop := ∀ c ∈ v, isNumberChar c = true

theorem Format.not_infix_printf {f : Format} {m : Metric} {v : Text}
    (h : f.lacks m.letters = true) (hv : Numeric v) : ¬ m.key <:+: f.printf v := by
  obtain ⟨c, hc, hlack⟩ := List.any_eq_true.mp h
  rw [Bool.and_eq_true, Bool.not_eq_true', Bool.not_eq_true', List.contains_eq_mem,
    decide_eq_false_iff_not, List.mem_append, not_or] at hlack
  obtain ⟨hnumber, hlabel, hsuffix⟩ := hlack
  refine not_infix (Metric.mem_key hc) fun hmem => ?_
  rcases List.mem_append.mp hmem with hmem | hmem
  · rcases List.mem_append.mp hmem with hmem | hmem
    · exact hlabel hmem
    · rw [hv c hmem] at hnumber
      cases hnumber
  · exact hsuffix hmem

theorem grep_cons (key l : Text) (ls : List Text) :
    grep key (l :: ls) = if key <:+: l then l :: grep key ls else grep key ls := by
  unfold grep
  rw [List.filter_cons]
  simp only [decide_eq_true_eq]

theorem printed_cons (x : LineKind × Text) (ls : List (LineKind × Text)) :
    printed (x :: ls) = x.1.format.printf x.2 :: printed ls := rfl

/-- A key finds the lines of its kind and no others. -/
theorem grep_printed {ls : List (LineKind × Text)} (hls : ∀ x ∈ ls, Numeric x.2) (m : Metric) :
    grep m.key (printed ls) = printed (ls.filter fun x => decide (x.1 = m.kind)) := by
  induction ls with
  | nil => rfl
  | cons x ls ih =>
    have hrest := ih fun y hy => hls y (List.mem_cons_of_mem x hy)
    rw [printed_cons, grep_cons, hrest]
    by_cases hkind : x.1 = m.kind
    · have hfound : m.key <:+: x.1.format.printf x.2 := by
        rw [hkind]
        exact (key_in_label m).trans
          ((List.prefix_append _ _).trans (List.prefix_append _ _)).isInfix
      rw [if_pos hfound, List.filter_cons_of_pos (by simpa using hkind), printed_cons]
    · rw [if_neg (Format.not_infix_printf (lacks_of_ne hkind) (hls x List.mem_cons_self)),
        List.filter_cons_of_neg (by simpa using hkind)]

/-! ## Numbers in a line -/

theorem isNumberChar_of_isDigit {c : Char} (h : c.isDigit = true) : isNumberChar c = true := by
  unfold isNumberChar
  rw [h]
  rfl

theorem isDigit_digits {n : Nat} {c : Char} (hc : c ∈ digits n) : c.isDigit = true :=
  isDigit_of_mem_toDigits hc

theorem digits_ne_nil (n : Nat) : digits n ≠ [] := Nat.toDigits_ne_nil

theorem numeric_nil : Numeric [] := fun _ hc => nomatch hc

theorem numeric_digits (n : Nat) : Numeric (digits n) :=
  fun _ hc => isNumberChar_of_isDigit (isDigit_digits hc)

theorem numeric_fixed (d n : Nat) : Numeric (fixed d n) := by
  intro c hc
  rcases List.mem_append.mp hc with hc | hc
  · exact isNumberChar_of_isDigit (isDigit_of_mem_toDigits hc)
  · rcases mem_point hc with rfl | hc
    · rfl
    · exact isNumberChar_of_isDigit (isDigit_of_mem_lastDigits hc)

section Print

variable [FloorSemiring K]

theorem numeric_fixedPoint (d : Nat) (x : K) : Numeric (fixedPoint d x) := by
  intro c hc
  rcases List.mem_append.mp hc with hc | hc
  · by_cases hx : x < 0
    · rw [if_pos hx, List.mem_singleton] at hc
      rw [hc]
      rfl
    · rw [if_neg hx] at hc
      cases hc
  · exact numeric_fixed d _ c hc

theorem fixedPoint_ne_nil (d : Nat) (x : K) : fixedPoint d x ≠ [] := fun h =>
  Nat.toDigits_ne_nil (List.append_eq_nil_iff.mp (List.append_eq_nil_iff.mp h).2).1

theorem numeric_lines (sqrt : K → K) (run : BacktestRun K) :
    ∀ x ∈ run.lines sqrt, Numeric x.2 := by
  have hreport : ∀ r, ∀ x ∈ reportLines run.elapsed run.tracker.filtered r, Numeric x.2 := by
    intro r
    cases r <;> simp [reportLines, numeric_nil, numeric_digits, numeric_fixedPoint]
  intro x hx
  rcases List.mem_append.mp hx with hx | hx
  · exact hreport _ x hx
  · have hcounts : ∀ x ∈ [(LineKind.rowsRead, digits run.rowsRead),
        (.updatesDropped, digits run.updatesDropped), (.pushWait, fixedPoint 2 run.pushWait)],
        Numeric x.2 := by
      simp [numeric_digits, numeric_fixedPoint]
    have hsaved : ∀ x ∈ if run.saved then
        [(LineKind.saved, digits run.tracker.ticks.length)] else [], Numeric x.2 := by
      cases run.saved <;> simp [numeric_digits]
    exact (List.mem_append.mp hx).elim (hcounts x) (hsaved x)

/-- The figure that a report prints for a metric. -/
def Metric.figure (r : Report K) (updatesDropped : Nat) : Metric → Text
  | .sharpe => fixedPoint 4 r.sharpe
  | .signals => digits r.signalsExecuted
  | .winrate => fixedPoint 1 r.winRate
  | .meanbps => fixedPoint 4 r.meanNet
  | .pnl => fixedPoint 2 r.terminalPnl
  | .dropped => digits updatesDropped

/-- Nothing before the report holds a key. -/
def BacktestRun.Quiet (run : BacktestRun K) : Prop :=
  ∀ line ∈ run.before, ∀ m : Metric, ¬ m.key <:+: line

variable {sqrt : K → K} {run : BacktestRun K}

theorem grep_output (hquiet : run.Quiet) (m : Metric) : grep m.key (run.output sqrt) =
    printed ((run.lines sqrt).filter fun x => decide (x.1 = m.kind)) := by
  have hbefore : grep m.key run.before = [] :=
    List.filter_eq_nil_iff.mpr fun line hline => by simpa using hquiet line hline m
  unfold BacktestRun.output
  rw [← grep_printed (numeric_lines sqrt run)]
  show List.filter _ (_ ++ _) = _
  rw [List.filter_append]
  exact congrArg (· ++ _) hbefore

theorem grep_report {r : Report K} (hquiet : run.Quiet)
    (hr : run.tracker.printReport sqrt = some r) (m : Metric) : grep m.key (run.output sqrt) =
      [m.kind.format.printf (m.figure r run.updatesDropped)] := by
  rw [grep_output hquiet]
  unfold BacktestRun.lines
  rw [hr]
  cases run.saved <;> cases m <;> rfl

theorem grep_noSignals (hquiet : run.Quiet) (hr : run.tracker.printReport sqrt = none)
    (m : Metric) : grep m.key (run.output sqrt) =
      if m = .dropped then [m.kind.format.printf (digits run.updatesDropped)] else [] := by
  rw [grep_output hquiet]
  unfold BacktestRun.lines
  rw [hr]
  cases run.saved <;> cases m <;> rfl

end Print

/-! ## Numbers out of a line -/

theorem grepO_singleton (longest : Text → Nat) (l : Text) :
    grepO longest [l] = findAll longest l := List.flatMap_singleton _ _

theorem findAll_printf {p : Char → Bool} {f : Format} {v : Text}
    (hformat : (f.label ++ f.suffix).any p = false) (hne : v ≠ [])
    (hv : ∀ c ∈ v, p c = true) : findAll (run p) (f.printf v) = [v] :=
  findAll_run (fun c hc => none_of_any hformat c (List.mem_append_left _ hc)) hne hv
    fun c hc => none_of_any hformat c (List.mem_append_right _ hc)

/-- The hyphen of `per-sig` looks like a number, and comes first. -/
theorem findAll_sharpe {v : Text} (hne : v ≠ []) (hv : Numeric v) :
    findAll (run isNumberChar) (LineKind.sharpe.format.printf v) = [['-'], v] := by
  have hlabel : LineKind.sharpe.format.label =
      "  Sharpe (per".toList ++ (['-'] ++ "sig) : ".toList) := by decide +kernel
  have hhead : ∀ c ∈ "  Sharpe (per".toList, isNumberChar c = false :=
    none_of_any (by decide +kernel)
  have hmiddle : ∀ c ∈ "sig) : ".toList, isNumberChar c = false :=
    none_of_any (by decide +kernel)
  have hhyphen : ∀ c ∈ ['-'], isNumberChar c = true := fun c hc => by
    rw [List.mem_singleton.mp hc]
    rfl
  have hstop : Stops isNumberChar ("sig) : ".toList ++ v) := by
    have hstart : "sig) : ".toList.head? = some 's' := by decide +kernel
    intro c hc
    rw [List.head?_append, hstart] at hc
    rw [← Option.some.inj hc]
    rfl
  have hvalue : findAll (run isNumberChar) ("sig) : ".toList ++ v ++ []) = [v] :=
    findAll_run hmiddle hne hv (by nofun)
  rw [List.append_nil] at hvalue
  unfold Format.printf
  rw [hlabel, List.append_assoc, List.append_assoc, List.append_assoc, findAll_run_label hhead,
    show LineKind.sharpe.format.suffix = [] from rfl, List.append_nil,
    findAll_run_token (List.cons_ne_nil _ _) hhyphen hstop, hvalue]

theorem findAll_winrate (n : Nat) :
    findAll (runs Char.isDigit '.') (LineKind.winRate.format.printf (fixed 1 n)) = [fixed 1 n] := by
  have hlabel : ∀ c ∈ LineKind.winRate.format.label, c.isDigit = false :=
    none_of_any (by decide +kernel)
  have hsuffix : ∀ c ∈ LineKind.winRate.format.suffix, c.isDigit = false :=
    none_of_any (by decide +kernel)
  have hfraction : ∀ c ∈ lastDigits 1 n, c.isDigit = true := fun c => isDigit_of_mem_lastDigits
  have hpoint : point (lastDigits 1 n) = '.' :: lastDigits 1 n := rfl
  unfold Format.printf fixed
  rw [hpoint]
  exact findAll_runs hlabel (fun c => isDigit_of_mem_toDigits) Nat.toDigits_ne_nil rfl hfraction
    (List.cons_ne_nil _ _) hsuffix

section Print

variable [FloorSemiring K]

theorem extract_printf {r : Report K} (hwin : 0 ≤ r.winRate) (n : Nat) (m : Metric) :
    m.extract [m.kind.format.printf (m.figure r n)] = [m.figure r n] := by
  cases m with
  | sharpe =>
    show (grepO (run isNumberChar)
      [LineKind.sharpe.format.printf (fixedPoint 4 r.sharpe)]).getLast?.toList = _
    rw [grepO_singleton]
    exact congrArg (fun l => l.getLast?.toList)
      (findAll_sharpe (fixedPoint_ne_nil 4 r.sharpe) (numeric_fixedPoint 4 r.sharpe))
  | signals =>
    show grepO _ [_] = _
    rw [grepO_singleton]
    exact findAll_printf (by decide +kernel) (digits_ne_nil _) fun c => isDigit_digits
  | winrate =>
    show grepO _ [_] = _
    rw [grepO_singleton]
    show findAll _ (Format.printf _ (fixedPoint 1 r.winRate)) = [fixedPoint 1 r.winRate]
    unfold fixedPoint
    rw [if_neg hwin.not_gt]
    exact findAll_winrate _
  | meanbps =>
    show (grepO _ [_]).getLast?.toList = _
    rw [grepO_singleton]
    exact congrArg (fun l => l.getLast?.toList) (findAll_printf
      (f := LineKind.meanNet.format) (by decide +kernel) (fixedPoint_ne_nil 4 r.meanNet)
      (numeric_fixedPoint 4 r.meanNet))
  | pnl =>
    show (grepO _ [_]).head?.toList = _
    rw [grepO_singleton]
    exact congrArg (fun l => l.head?.toList) (findAll_printf
      (f := LineKind.terminalPnl.format) (by decide +kernel) (fixedPoint_ne_nil 2 r.terminalPnl)
      (numeric_fixedPoint 2 r.terminalPnl))
  | dropped =>
    show grepO _ [_] = _
    rw [grepO_singleton]
    exact findAll_printf (by decide +kernel) (digits_ne_nil _) fun c => isDigit_digits

end Print

/-! ## The answer for a run -/

namespace Metric

theorem text_found {m : Metric} {out : List Text} {v : Text}
    (h : m.extract (grep m.key out) = [v]) (hv : v ≠ []) : m.text out = v := by
  unfold text
  dsimp only
  rw [h, List.intercalate_singleton, if_neg hv]

theorem text_missing {m : Metric} {out : List Text} (h : grep m.key out = []) :
    m.text out = m.missing := by
  have hnone : m.extract [] = [] := by cases m <;> rfl
  unfold text
  dsimp only
  rw [h, hnone]
  exact if_pos rfl

end Metric

/-- A text that the blanks, the lines and the commas leave whole. -/
structure Plain (w : Text) : Prop where
  word : IsWord isBlank w
  noNewline : '\n' ∉ w
  noComma : ',' ∉ w

theorem Numeric.plain {w : Text} (h : Numeric w) (hne : w ≠ []) : Plain w where
  word := ⟨hne, fun c hc => by
    have hnumber := h c hc
    by_contra hblank
    rw [Bool.not_eq_false] at hblank
    unfold isBlank at hblank
    rw [Bool.or_eq_true, beq_iff_eq, beq_iff_eq] at hblank
    rcases hblank with rfl | rfl <;> exact absurd hnumber (by decide)⟩
  noNewline := fun hc => absurd (h _ hc) (by decide)
  noComma := fun hc => absurd (h _ hc) (by decide)

theorem Metric.plain_missing (m : Metric) : Plain m.missing := by
  cases m <;> exact ⟨⟨List.cons_ne_nil _ _, none_of_any (by decide)⟩, by decide, by decide⟩

section Answer

variable [FloorSemiring K] {sqrt : K → K}

/-- What the sweep writes for a run, in the order of the columns. -/
def figures (sqrt : K → K) : Option (BacktestRun K) → List Text
  | none => Metric.order.map fun _ => ['N', 'A', 'N']
  | some run =>
    match run.tracker.printReport sqrt with
    | none =>
      Metric.order.map fun m => if m = .dropped then digits run.updatesDropped else m.missing
    | some r => Metric.order.map fun m => m.figure r run.updatesDropped

theorem Metric.figure_ne_nil (m : Metric) (r : Report K) (n : Nat) : m.figure r n ≠ [] := by
  cases m
  case signals => exact digits_ne_nil _
  case dropped => exact digits_ne_nil _
  all_goals exact fixedPoint_ne_nil _ _

theorem Metric.numeric_figure (m : Metric) (r : Report K) (n : Nat) : Numeric (m.figure r n) := by
  cases m
  case signals => exact numeric_digits _
  case dropped => exact numeric_digits _
  all_goals exact numeric_fixedPoint _ _

theorem length_figures (sqrt : K → K) (run : Option (BacktestRun K)) :
    (figures sqrt run).length = 6 := by
  cases run with
  | none => rfl
  | some run =>
    unfold figures
    dsimp only
    cases run.tracker.printReport sqrt <;> rfl

theorem plain_figures (sqrt : K → K) (run : Option (BacktestRun K)) :
    ∀ w ∈ figures sqrt run, Plain w := by
  intro w hw
  cases run with
  | none =>
    obtain ⟨m, -, rfl⟩ := List.mem_map.mp hw
    exact Metric.plain_missing .sharpe
  | some run =>
    unfold figures at hw
    dsimp only at hw
    cases hr : run.tracker.printReport sqrt with
    | none =>
      rw [hr] at hw
      obtain ⟨m, -, rfl⟩ := List.mem_map.mp hw
      by_cases hm : m = .dropped
      · rw [if_pos hm]
        exact (numeric_digits _).plain (digits_ne_nil _)
      · rw [if_neg hm]
        exact m.plain_missing
    | some r =>
      rw [hr] at hw
      obtain ⟨m, -, rfl⟩ := List.mem_map.mp hw
      exact (m.numeric_figure r _).plain (m.figure_ne_nil r _)

theorem readMetrics_intercalate {ws : List Text} (hlen : ws.length = 6)
    (hws : ∀ w ∈ ws, Plain w) : readMetrics ([' '].intercalate ws) = ws := by
  have hline : ([' '].intercalate ws).takeWhile (fun c => c != '\n') = [' '].intercalate ws := by
    refine List.takeWhile_eq_self_iff.mpr fun c hc => bne_iff_ne.mpr ?_
    rintro rfl
    rcases mem_intercalate hc with heq | ⟨w, hw, hmem⟩
    · exact absurd heq (by decide)
    · exact (hws w hw).noNewline hmem
  unfold readMetrics
  rw [hline, ← hlen]
  exact words_intercalate rfl fun w hw => (hws w hw).word

variable [IsStrictOrderedRing K]

theorem winRate_nonneg {t : PnlTracker K} {r : Report K} (hr : t.printReport sqrt = some r) :
    0 ≤ r.winRate := by
  unfold PnlTracker.printReport at hr
  by_cases hn : t.n = 0
  · rw [if_pos hn] at hr
    cases hr
  · rw [if_neg hn] at hr
    cases hr
    positivity

theorem runOne_output {run : Option (BacktestRun K)} (hquiet : ∀ r ∈ run, r.Quiet) :
    runOne (run.map (BacktestRun.output sqrt)) = [' '].intercalate (figures sqrt run) := by
  cases run with
  | none =>
    show "NAN NAN NAN NAN NAN NAN".toList =
      [' '].intercalate (Metric.order.map fun _ => ['N', 'A', 'N'])
    decide +kernel
  | some run =>
    have hrun := hquiet run rfl
    show [' '].intercalate _ = _
    congr 1
    unfold figures
    dsimp only
    cases hr : run.tracker.printReport sqrt with
    | none =>
      refine List.map_congr_left fun m _ => ?_
      have hgrep := grep_noSignals hrun hr m
      by_cases hm : m = .dropped
      · subst hm
        rw [if_pos rfl] at hgrep ⊢
        refine Metric.text_found ?_ (digits_ne_nil _)
        rw [hgrep]
        show grepO _ [_] = _
        rw [grepO_singleton]
        exact findAll_printf (by decide +kernel) (digits_ne_nil _) fun c => isDigit_digits
      · rw [if_neg hm] at hgrep ⊢
        exact Metric.text_missing hgrep
    | some r =>
      refine List.map_congr_left fun m _ => ?_
      refine Metric.text_found ?_ (m.figure_ne_nil r _)
      rw [grep_report hrun hr]
      exact extract_printf (winRate_nonneg hr) _ m

end Answer

/-! ## The row that is loaded -/

def columnNames : List Text :=
  ["date".toList, "alpha".toList, "threshold".toList, "sharpe".toList, "signals".toList,
    "win_rate".toList, "mean_bps".toList, "pnl_bps".toList, "updates_dropped".toList]

theorem splitOn_header : header.splitOn ',' = columnNames := by decide +kernel

theorem lookup_zip {names row : List Text} {name : Text} (h : name ∈ names) :
    (names.zip row).lookup name = row[names.idxOf name]? := by
  induction names generalizing row with
  | nil => cases h
  | cons n names ih =>
    cases row with
    | nil => rfl
    | cons v row =>
      by_cases hn : name = n
      · rw [hn, List.idxOf_cons_self]
        exact List.lookup_cons_self
      · have hmem := (List.mem_cons.mp h).resolve_left hn
        rw [List.idxOf_cons_ne _ (Ne.symm hn), List.getElem?_cons_succ, ← ih hmem,
          List.zip_cons_cons, List.lookup_cons, beq_false_of_ne hn]

theorem column_eq (row : List Text) {name : String} {i : Nat}
    (hi : columnNames.idxOf name.toList = i) (hlt : i < columnNames.length) :
    column columnNames row name = row[i]? := by
  unfold column
  rw [lookup_zip (List.idxOf_lt_length_iff.mp (hi.trans_lt hlt)), hi]

section Load

variable {D : Type} {toDatetime : Text → D}

omit [LinearOrder K] in
theorem loadRow_texts {day alpha threshold sharpe signals winrate meanbps pnl dropped : Text}
    {a t : K} (ha : read alpha = some a) (ht : read threshold = some t) :
    loadRow toDatetime columnNames
        [day, alpha, threshold, sharpe, signals, winrate, meanbps, pnl, dropped] =
      some
        { date := toDatetime day
          alpha := a
          threshold := t
          sharpe := read sharpe
          signals := read signals
          winRate := read winrate
          meanBps := read meanbps
          pnlBps := read pnl } := by
  have hcolumn : ∀ (name : String) (i : Nat), columnNames.idxOf name.toList = i →
      i < columnNames.length → column columnNames
        [day, alpha, threshold, sharpe, signals, winrate, meanbps, pnl, dropped] name = _ :=
    fun name i => column_eq _
  unfold loadRow
  rw [hcolumn "date" 0 (by decide +kernel) (by decide),
    hcolumn "alpha" 1 (by decide +kernel) (by decide),
    hcolumn "threshold" 2 (by decide +kernel) (by decide),
    hcolumn "sharpe" 3 (by decide +kernel) (by decide),
    hcolumn "signals" 4 (by decide +kernel) (by decide),
    hcolumn "win_rate" 5 (by decide +kernel) (by decide),
    hcolumn "mean_bps" 6 (by decide +kernel) (by decide),
    hcolumn "pnl_bps" 7 (by decide +kernel) (by decide)]
  show (do
    let a ← read alpha
    let t ← read threshold
    some ({ date := toDatetime day, alpha := a, threshold := t, sharpe := read sharpe,
            signals := read signals, winRate := read winrate, meanBps := read meanbps,
            pnlBps := read pnl } : LoadedRow D K)) = _
  rw [ha, ht]
  rfl

end Load

section Numbers

omit [LinearOrder K] in
theorem read_missing : read (K := K) ['N', 'A', 'N'] = none := rfl

omit [LinearOrder K] in
theorem read_digits [CharZero K] (n : Nat) : read (digits n) = some (n : K) := by
  have hread := read_fixed (K := K) 0 n
  have hfixed : fixed 0 n = digits n := by
    unfold fixed digits
    rw [Nat.pow_zero, Nat.div_one]
    exact List.append_nil _
  rw [hfixed, pow_zero, div_one] at hread
  exact hread

variable [FloorSemiring K]

/-- The number that a text with `d` decimals shows. -/
def rounded (d : Nat) (x : K) : K :=
  let scale : K := (10 ^ d : Nat)
  let m : K := (roundEven (|x| * scale) : Nat) / scale
  if x < 0 then -m else m

theorem read_fixedPoint [CharZero K] (d : Nat) (x : K) :
    read (fixedPoint d x) = some (rounded d x) := by
  have hread := read_fixed (K := K) d (roundEven (|x| * 10 ^ d))
  unfold fixedPoint rounded
  rw [Nat.cast_pow, Nat.cast_ofNat]
  by_cases hx : x < 0
  · have hunsigned : readUnsigned (fixed d (roundEven (|x| * 10 ^ d))) =
        some ((roundEven (|x| * 10 ^ d) : K) / 10 ^ d) := by
      rw [← value_digits]
      exact readUnsigned_point Nat.toDigits_ne_nil (fun c => isDigit_of_mem_toDigits)
        fun c => isDigit_of_mem_lastDigits
    rw [if_pos hx, if_pos hx]
    show (readUnsigned (fixed d (roundEven (|x| * 10 ^ d)))).map (fun y => -y) = _
    rw [hunsigned]
    rfl
  · rw [if_neg hx, if_neg hx]
    exact hread

end Numbers

section Row

variable {D : Type} [FloorSemiring K]

/-- The row that a run asks for: the trades counted and the figures of its `print_report`,
rounded as they are printed, and nothing but the count where there was no trade.  The
figures are those of exact arithmetic: the program computes them in doubles. -/
def rowOf (sqrt : K → K) (date : D) (alpha threshold : K) (run : Option (BacktestRun K)) :
    LoadedRow D K :=
  let report := run.bind fun run => run.tracker.printReport sqrt
  { date := date
    alpha := alpha
    threshold := threshold
    sharpe := report.map fun r => rounded 4 r.sharpe
    signals := run.map fun run => ((netReturns run.env run.calls).length : K)
    winRate := report.map fun r => rounded 1 r.winRate
    meanBps := report.map fun r => rounded 4 r.meanNet
    pnlBps := report.map fun r => rounded 2 r.terminalPnl }

variable [IsStrictOrderedRing K] {toDatetime : Text → D}

omit [FloorSemiring K] [IsStrictOrderedRing K] in
theorem eq_nil_of_reportOf {sqrt : K → K} {filtered : Nat} {rs : List K}
    (h : reportOf sqrt filtered rs = none) : rs = [] := by
  by_contra hne
  unfold reportOf at h
  rw [if_neg hne] at h
  cases h

omit [FloorSemiring K] [IsStrictOrderedRing K] in
theorem signalsExecuted_of_reportOf {sqrt : K → K} {filtered : Nat} {rs : List K}
    {r : Report K} (h : reportOf sqrt filtered rs = some r) : r.signalsExecuted = rs.length := by
  unfold reportOf at h
  by_cases hnil : rs = []
  · rw [if_pos hnil] at h
    cases h
  · rw [if_neg hnil] at h
    cases h
    rfl

theorem loadRow_figures (sqrt : K → K) (run : Option (BacktestRun K))
    {day alpha threshold : Text} {a t : K} (ha : read alpha = some a)
    (ht : read threshold = some t) :
    loadRow toDatetime columnNames ([day, alpha, threshold] ++ figures sqrt run) =
      some (rowOf sqrt (toDatetime day) a t run) := by
  cases run with
  | none => exact loadRow_texts ha ht
  | some run =>
    have hreport : run.tracker.printReport sqrt =
        reportOf sqrt run.tracker.filtered (netReturns run.env run.calls) :=
      (tallied_run run.env run.calls).printReport sqrt
    have hrow : rowOf sqrt (toDatetime day) a t (some run) =
        { date := toDatetime day
          alpha := a
          threshold := t
          sharpe := (run.tracker.printReport sqrt).map fun r => rounded 4 r.sharpe
          signals := some ((netReturns run.env run.calls).length : K)
          winRate := (run.tracker.printReport sqrt).map fun r => rounded 1 r.winRate
          meanBps := (run.tracker.printReport sqrt).map fun r => rounded 4 r.meanNet
          pnlBps := (run.tracker.printReport sqrt).map fun r => rounded 2 r.terminalPnl } :=
      rfl
    rw [hrow]
    unfold figures
    dsimp only
    cases hr : run.tracker.printReport sqrt with
    | none =>
      have hnil := eq_nil_of_reportOf (hreport.symm.trans hr)
      have hzero : read ['0'] = some ((0 : Nat) : K) := read_digits 0
      show loadRow toDatetime columnNames [day, alpha, threshold, ['N', 'A', 'N'], ['0'],
        ['N', 'A', 'N'], ['N', 'A', 'N'], ['N', 'A', 'N'], digits run.updatesDropped] = _
      rw [hnil, loadRow_texts ha ht, hzero, read_missing]
      rfl
    | some r =>
      have hcount := signalsExecuted_of_reportOf (hreport.symm.trans hr)
      show loadRow toDatetime columnNames [day, alpha, threshold, fixedPoint 4 r.sharpe,
        digits r.signalsExecuted, fixedPoint 1 r.winRate, fixedPoint 4 r.meanNet,
        fixedPoint 2 r.terminalPnl, digits run.updatesDropped] = _
      rw [← hcount, loadRow_texts ha ht, read_digits, read_fixedPoint, read_fixedPoint,
        read_fixedPoint, read_fixedPoint]
      rfl

theorem gridLine_runOne (sqrt : K → K) {run : Option (BacktestRun K)}
    (hquiet : ∀ r ∈ run, r.Quiet) (day alpha threshold : Text) :
    gridLine day alpha threshold (runOne (run.map (BacktestRun.output sqrt))) =
      [','].intercalate ([day, alpha, threshold] ++ figures sqrt run) := by
  unfold gridLine
  rw [runOne_output hquiet,
    readMetrics_intercalate (length_figures sqrt run) (plain_figures sqrt run)]

end Row

/-! ## The sweep, loaded -/

/-- What a sweep goes over.  The names of the days are dates and no two of the same, and
neither are two numbers of a grid the same. -/
structure Plan (D K : Type) [Field K] where
  days : List Text
  alphas : List Text
  thresholds : List Text
  toDatetime : Text → D
  number : Text → K
  backtest : Text → Text → Text → Option (BacktestRun K)
  plain : ∀ x ∈ days ++ alphas ++ thresholds, '\n' ∉ x ∧ ',' ∉ x
  days_nodup : (days.map toDatetime).Nodup
  alphas_nodup : (alphas.map number).Nodup
  thresholds_nodup : (thresholds.map number).Nodup
  read_alpha : ∀ a ∈ alphas, read a = some (number a)
  read_threshold : ∀ t ∈ thresholds, read t = some (number t)
  quiet : ∀ day alpha threshold, ∀ run ∈ backtest day alpha threshold, run.Quiet

namespace Plan

variable {D : Type} [FloorSemiring K] (sqrt : K → K) (p : Plan D K)

def file : Text :=
  sweep (fun day alpha threshold =>
    (p.backtest day alpha threshold).map (BacktestRun.output sqrt)) p.days p.alphas p.thresholds

/-- The runs, in their order. -/
def cells : List (Text × Text × Text) := p.days ×ˢ p.alphas ×ˢ p.thresholds

def row (x : Text × Text × Text) : LoadedRow D K :=
  rowOf sqrt (p.toDatetime x.1) (p.number x.2.1) (p.number x.2.2)
    (p.backtest x.1 x.2.1 x.2.2)

def line (x : Text × Text × Text) : Text :=
  gridLine x.1 x.2.1 x.2.2
    (runOne ((p.backtest x.1 x.2.1 x.2.2).map (BacktestRun.output sqrt)))

variable {sqrt p}

omit [FloorSemiring K] [LinearOrder K] in
theorem mem_cells {x : Text × Text × Text} :
    x ∈ p.cells ↔ x.1 ∈ p.days ∧ x.2.1 ∈ p.alphas ∧ x.2.2 ∈ p.thresholds := by
  unfold cells
  rw [List.mem_product, List.mem_product]

theorem file_eq : p.file sqrt = unlines '\n' (header :: p.cells.map (p.line sqrt)) := by
  unfold file sweep cells line
  congr 2
  simp only [SProd.sprod, List.product, List.map_flatMap, List.map_map]
  rfl

omit [FloorSemiring K] [LinearOrder K] in
theorem keys_nodup : (p.cells.map fun x =>
    (p.toDatetime x.1, p.number x.2.1, p.number x.2.2)).Nodup := by
  have hpairs : (p.cells.map fun x => (p.toDatetime x.1, p.number x.2.1, p.number x.2.2)) =
      p.days.map p.toDatetime ×ˢ p.alphas.map p.number ×ˢ p.thresholds.map p.number := by
    unfold cells
    simp only [SProd.sprod, List.product, List.map_flatMap, List.map_map, List.flatMap_map]
    rfl
  rw [hpairs]
  exact p.days_nodup.product (p.alphas_nodup.product p.thresholds_nodup)

variable [IsStrictOrderedRing K]

theorem line_eq (x : Text × Text × Text) : p.line sqrt x = [','].intercalate
    ([x.1, x.2.1, x.2.2] ++ figures sqrt (p.backtest x.1 x.2.1 x.2.2)) :=
  gridLine_runOne sqrt (p.quiet x.1 x.2.1 x.2.2) x.1 x.2.1 x.2.2

omit [IsStrictOrderedRing K] in
theorem plain_fields {x : Text × Text × Text} (hx : x ∈ p.cells) :
    ∀ w ∈ [x.1, x.2.1, x.2.2] ++ figures sqrt (p.backtest x.1 x.2.1 x.2.2),
      '\n' ∉ w ∧ ',' ∉ w := by
  obtain ⟨hday, halpha, hthreshold⟩ := mem_cells.mp hx
  intro w hw
  rcases List.mem_append.mp hw with hw | hw
  · refine p.plain w ?_
    simp only [List.mem_cons, List.not_mem_nil, or_false] at hw
    rw [List.mem_append, List.mem_append]
    rcases hw with rfl | rfl | rfl
    · exact Or.inl (Or.inl hday)
    · exact Or.inl (Or.inr halpha)
    · exact Or.inr hthreshold
  · have hplain := plain_figures sqrt _ w hw
    exact ⟨hplain.noNewline, hplain.noComma⟩

theorem splitOn_line {x : Text × Text × Text} (hx : x ∈ p.cells) :
    (p.line sqrt x).splitOn ',' =
      [x.1, x.2.1, x.2.2] ++ figures sqrt (p.backtest x.1 x.2.1 x.2.2) := by
  rw [line_eq]
  exact List.splitOn_intercalate ',' (fun w hw => (plain_fields hx w hw).2)
    (List.cons_ne_nil _ _)

theorem whole_line {x : Text × Text × Text} (hx : x ∈ p.cells) :
    '\n' ∉ p.line sqrt x ∧ p.line sqrt x ≠ [] := by
  rw [line_eq]
  constructor
  · intro hc
    rcases mem_intercalate hc with heq | ⟨w, hw, hmem⟩
    · exact absurd heq (by decide)
    · exact (plain_fields hx w hw).1 hmem
  · rw [List.cons_append, List.cons_append, List.intercalate_cons_cons]
    simp

theorem lines_file : lines '\n' (p.file sqrt) = header :: p.cells.map (p.line sqrt) := by
  rw [file_eq]
  refine lines_unlines fun l hl => ?_
  rcases List.mem_cons.mp hl with rfl | hl
  · decide +kernel
  · obtain ⟨x, hx, rfl⟩ := List.mem_map.mp hl
    exact whole_line hx

theorem loadRow_line {x : Text × Text × Text} (hx : x ∈ p.cells) :
    loadRow p.toDatetime columnNames ((p.line sqrt x).splitOn ',') = some (p.row sqrt x) := by
  obtain ⟨-, halpha, hthreshold⟩ := mem_cells.mp hx
  rw [splitOn_line hx]
  exact loadRow_figures sqrt _ (p.read_alpha _ halpha) (p.read_threshold _ hthreshold)

theorem loadGrid_file :
    loadGrid p.toDatetime (p.file sqrt) = some (p.cells.map (p.row sqrt)) := by
  unfold loadGrid
  rw [lines_file, List.map_cons, splitOn_header, List.map_map]
  exact mapM_map_eq_some fun x hx => loadRow_line hx

end Plan

section Pivot

variable {D C : Type} [LinearOrder D] [DecidableEq C]

omit [Field K] [LinearOrder K] in
theorem cell_of_mem {df : List (WalkForward.GridRow D C K)} (hpivot : WalkForward.CanPivot df)
    {r : WalkForward.GridRow D C K} (hr : r ∈ df)
    (value : WalkForward.GridRow D C K → Option K) :
    WalkForward.cell value df r.date r.config = value r := by
  unfold WalkForward.cell
  cases hfind : df.find? fun s => decide (s.date = r.date ∧ s.config = r.config) with
  | none =>
    exact absurd (decide_eq_true ⟨rfl, rfl⟩) (List.find?_eq_none.mp hfind r hr)
  | some s =>
    have hfound := List.find?_some hfind
    have hkey : s.date = r.date ∧ s.config = r.config := of_decide_eq_true hfound
    have hsame : s = r := List.inj_on_of_nodup_map hpivot (List.mem_of_find?_eq_some hfind) hr
      (by rw [hkey.1, hkey.2])
    rw [hsame]
    rfl

end Pivot

section Loaded

variable {D : Type} [LinearOrder D] [FloorSemiring K] [IsStrictOrderedRing K]

/-- In exact arithmetic, what the walk-forward finds in the file of a sweep, in whatever
order the loader sorts the rows of a date, are the figures of the report of each run, rounded
as the run printed them; a run that failed or did not trade is missing, and only the count of
signals tells the two apart. -/
theorem sweep_loaded (sqrt : K → K) (p : Plan D K) :
    loadGrid p.toDatetime (p.file sqrt) = some (p.cells.map (p.row sqrt)) ∧
    ∀ df : List (LoadedRow D K), df.Perm (p.cells.map (p.row sqrt)) →
      WalkForward.CanPivot (df.map LoadedRow.gridRow) ∧
      ∀ x ∈ p.cells,
        WalkForward.cell WalkForward.GridRow.sharpe (df.map LoadedRow.gridRow)
          (p.toDatetime x.1) (p.number x.2.1, p.number x.2.2) = (p.row sqrt x).sharpe ∧
        WalkForward.cell WalkForward.GridRow.pnlBps (df.map LoadedRow.gridRow)
          (p.toDatetime x.1) (p.number x.2.1, p.number x.2.2) = (p.row sqrt x).pnlBps := by
  refine ⟨Plan.loadGrid_file, fun df hdf => ?_⟩
  have hpivot : WalkForward.CanPivot (df.map LoadedRow.gridRow) := by
    unfold WalkForward.CanPivot
    rw [List.map_map, (hdf.map _).nodup_iff, List.map_map]
    exact p.keys_nodup
  refine ⟨hpivot, fun x hx => ?_⟩
  have hmem : (p.row sqrt x).gridRow ∈ df.map LoadedRow.gridRow :=
    List.mem_map_of_mem (hdf.mem_iff.mpr (List.mem_map_of_mem hx))
  exact ⟨cell_of_mem hpivot hmem _, cell_of_mem hpivot hmem _⟩

end Loaded

/-! ## Two days -/

/-- A day with a trade and a day whose run fails. -/
noncomputable def twoDays : Plan Nat ℝ where
  days := ["2024-05-01".toList, "2024-05-02".toList]
  alphas := [fixed 4 5, fixed 3 1]
  thresholds := [fixed 0 5, fixed 0 10]
  toDatetime := fun day => Nat.ofDigitChars 10 (day.filter Char.isDigit) 0
  number := fun t => (read t).getD 0
  backtest := fun day alpha _ =>
    if day = "2024-05-01".toList then
      some
        { env := PnlTracker.smoothing ((read alpha).getD 0)
          calls := [PnlTracker.grown 0, PnlTracker.grown 1]
          before := ["[backtest] Processing...".toList]
          elapsed := (2 : Nat)
          rowsRead := 2
          updatesDropped := 0
          pushWait := 0
          saved := true }
    else none
  plain := by decide +kernel
  days_nodup := by decide +kernel
  alphas_nodup := by simp [read_fixed]; norm_num
  thresholds_nodup := by simp [read_fixed]
  read_alpha := by simp [read_fixed]
  read_threshold := by simp [read_fixed]
  quiet := by
    have hkeys : ∀ m ∈ Metric.order, ¬ m.key <:+: "[backtest] Processing...".toList := by
      decide +kernel
    intro day alpha threshold run hrun line hline m
    split_ifs at hrun
    · obtain rfl := Option.mem_some_iff.mp hrun
      rw [List.mem_singleton.mp hline]
      exact hkeys m m.mem_order
    · cases hrun

theorem sweep_loaded_twoDays :
    loadGrid twoDays.toDatetime (twoDays.file Real.sqrt) =
      some (twoDays.cells.map (twoDays.row Real.sqrt)) ∧
    WalkForward.CanPivot
      ((twoDays.cells.map (twoDays.row Real.sqrt)).map LoadedRow.gridRow) :=
  ⟨(sweep_loaded Real.sqrt twoDays).1,
    ((sweep_loaded Real.sqrt twoDays).2 _ (List.Perm.refl _)).1⟩

end SharpeGrid
end HoloMarket
