import HoloMarket.Lib.AtomicFile
import HoloMarket.Lib.RunBounds

/-!
# The cache of days

`download_historical_range_v2.sh` with the processes it starts.  The script removes the
shared output file, starts `download_binance_aggtrades_v2.py` for the day, waits for it
and copies its output into the cache; the writer puts its rows into a temporary file of
its own and renames it.  The script and the writers take their steps in any order, and
each can be killed at any point.  `cp` is a part of the script and is killed with it.
-/

namespace HoloMarket
namespace HistoricalRange

open AtomicFile

variable {ι δ α : Type*} [DecidableEq ι] [DecidableEq δ]

inductive DayStatus where
  | ok
  | cached
  | failed
deriving DecidableEq, Repr

/-- Where the script stands with the first of its days: at the test of the cache, at the
head of the retry loop, past `rm -f`, waiting for the writer, at `cp`, and inside it with
the rows still to copy. -/
inductive PassPc (ι α : Type*) where
  | check
  | attempt (k : Nat)
  | fetch (k : Nat)
  | wait (k : Nat) (p : ι)
  | copy (k : Nat)
  | copying (k : Nat) (rest : List α)

structure Pass (ι δ α : Type*) where
  days : List δ
  maxRetries : Nat
  pc : PassPc ι α

/-- `files` is the shared output with the writers, `cache` the directory of the days, and
`log` what `download_log.csv` holds below its header. -/
structure Download (ι δ α : Type*) where
  files : Files ι δ α
  cache : δ → Option (List α)
  log : List (δ × DayStatus × Nat)
  pass : Option (Pass ι δ α)

/-- `pass p` is the next step of the script, which starts a writer under the process id
`p`; `reap p` is the parent of last resort; a script is killed alone or with its writer. -/
inductive Event (ι δ α : Type*) where
  | start (days : List δ) (maxRetries : Nat)
  | pass (p : ι)
  | writer (p : ι) (m : Move α)
  | reap (p : ι)
  | killPass (group : Bool)

inductive Note (δ α : Type*) where
  | published (day : δ) (rows : List α)
  | torn (day : δ)

namespace Download

def init : Download ι δ α where
  files := { target := none, temp := fun _ => none, writers := fun _ => none }
  cache := fun _ => none
  log := []
  pass := none

/-- The script goes on. -/
def goto (s : Download ι δ α) (pass : Pass ι δ α) (pc : PassPc ι α) : Download ι δ α :=
  { s with pass := some { pass with pc := pc } }

/-- The script has a line for the day and goes on to the next. -/
def logged (s : Download ι δ α) (pass : Pass ι δ α) (d : δ) (days : List δ)
    (status : DayStatus) (attempts : Nat) : Download ι δ α :=
  { s with
    log := s.log ++ [(d, status, attempts)]
    pass := some { pass with days := days, pc := .check } }

def storeDay (s : Download ι δ α) (d : δ) (c : Option (List α)) : Download ι δ α :=
  { s with cache := Function.update s.cache d c }

def setFiles (s : Download ι δ α) (files : Files ι δ α) : Download ι δ α :=
  { s with files := files }

def passStep (s : Download ι δ α) (pass : Pass ι δ α) (p : ι) : Option (Download ι δ α) :=
  match pass.days with
  | [] => some { s with pass := none }
  | d :: days =>
    match pass.pc with
    | .check =>
      match s.cache d with
      | some _ => some (s.logged pass d days .cached 0)
      | none => some (s.goto pass (.attempt 1))
    | .attempt k =>
      if k ≤ pass.maxRetries then some ((s.setFiles s.files.remove).goto pass (.fetch k))
      else some (s.logged pass d days .failed pass.maxRetries)
    | .fetch k =>
      match s.files.writers p with
      | none => some ((s.setFiles (s.files.enter p ⟨d, .preparing⟩)).goto pass (.wait k p))
      | some _ => none
    | .wait k q =>
      match s.files.writers q with
      | some ⟨_, .exited true⟩ => some ((s.setFiles (s.files.reap q)).goto pass (.copy k))
      | some ⟨_, .exited false⟩ =>
        some ((s.setFiles (s.files.reap q)).goto pass (.attempt (k + 1)))
      | _ => none
    | .copy k =>
      match s.files.target with
      | some rows => some ((s.storeDay d (some [])).goto pass (.copying k rows))
      | none => some { s with pass := none }
    | .copying k (r :: rest) =>
      some ((s.storeDay d ((s.cache d).map (· ++ [r]))).goto pass (.copying k rest))
    | .copying k [] => some (s.logged pass d days .ok k)

/-- The writer that the script waits for. -/
def child (s : Download ι δ α) : Option ι :=
  match s.pass with
  | some ⟨_, _, .wait _ p⟩ => some p
  | _ => none

def step (s : Download ι δ α) : Event ι δ α → Option (Download ι δ α)
  | .start days maxRetries =>
    match s.pass with
    | none => some { s with log := [], pass := some ⟨days, maxRetries, .check⟩ }
    | some _ => none
  | .pass p => s.pass.bind fun pass => s.passStep pass p
  | .writer p m => (s.files.move p m).map s.setFiles
  | .reap p =>
    match s.files.writers p with
    | some ⟨_, .exited _⟩ => if s.child = some p then none else some (s.setFiles (s.files.reap p))
    | _ => none
  | .killPass group =>
    match s.pass, s.child with
    | none, _ => none
    | some _, some p =>
      if group then some { s.setFiles (s.files.reap p) with pass := none }
      else some { s with pass := none }
    | some _, none => some { s with pass := none }

/-- The script is inside `cp` for a day. -/
def Copying (s : Download ι δ α) (d : δ) : Prop :=
  ∃ days maxRetries k rest, s.pass = some ⟨d :: days, maxRetries, .copying k rest⟩

/-- The files that writers publish, and the days whose copy is cut short. -/
def notes (s : Download ι δ α) : Event ι δ α → List (Note δ α)
  | .writer p m => (s.files.published p m).map fun x => .published x.1 x.2
  | .killPass _ =>
    match s.pass with
    | some ⟨d :: _, _, .copying _ _⟩ => [.torn d]
    | _ => []
  | _ => []

def publishedIn (notes : List (Note δ α)) : List (δ × List α) :=
  notes.filterMap fun note => match note with
    | .published d rows => some (d, rows)
    | .torn _ => none

/-! ## The invariant -/

/-- No writer is there. -/
def Quiet (s : Download ι δ α) : Prop := ∀ p, s.files.writers p = none

/-- The only writer that may be there is `p`, for the day `d`. -/
def Only (s : Download ι δ α) (p : ι) (d : δ) : Prop :=
  (∀ q, q ≠ p → s.files.writers q = none) ∧ ∀ w, s.files.writers p = some w → w.tag = d

/-- What the output file holds was published for the day `d`. -/
def TargetOf (s : Download ι δ α) (notes : List (Note δ α)) (d : δ) : Prop :=
  ∀ rows, s.files.target = some rows → (d, rows) ∈ publishedIn notes

/-- What holds while the script is at work on a day.  `own` says that no script was
killed alone. -/
def AtDay (own : Prop) (s : Download ι δ α) (notes : List (Note δ α)) (d : δ) :
    PassPc ι α → Prop
  | .check => own → s.Quiet
  | .attempt _ => s.cache d = none ∧ (own → s.Quiet)
  | .fetch _ => s.cache d = none ∧ (own → s.Quiet ∧ s.TargetOf notes d)
  | .wait _ p => s.cache d = none ∧ (own → s.Only p d ∧ s.TargetOf notes d)
  | .copy _ => s.cache d = none ∧ (own → s.Quiet ∧ s.TargetOf notes d)
  | .copying _ rest =>
    (∃ c d' rows, s.cache d = some c ∧ (d', rows) ∈ publishedIn notes ∧ c ++ rest = rows ∧
      (own → d' = d)) ∧ (own → s.Quiet)

def AtPass (own : Prop) (s : Download ι δ α) (notes : List (Note δ α)) : Prop :=
  match s.pass with
  | none => own → s.Quiet
  | some ⟨[], _, pc⟩ => pc = .check ∧ (own → s.Quiet)
  | some ⟨d :: _, _, pc⟩ => s.AtDay own notes d pc

/-- A day in the cache is a part of a file that was published, and the whole of it unless
the copy goes on or was cut short. -/
def Cached (own : Prop) (s : Download ι δ α) (notes : List (Note δ α)) : Prop :=
  ∀ d c, s.cache d = some c → ∃ d' rows, (d', rows) ∈ publishedIn notes ∧ c <+: rows ∧
    (c = rows ∨ s.Copying d ∨ .torn d ∈ notes) ∧ (own → d' = d)

structure Inv (own : Prop) (s : Download ι δ α) (notes : List (Note δ α)) : Prop where
  whole : s.files.Whole (publishedIn notes)
  cached : s.Cached own notes
  atPass : s.AtPass own notes

variable {own : Prop} {s s' : Download ι δ α} {l : List (Note δ α)}

omit [DecidableEq ι] [DecidableEq δ] in
theorem publishedIn_append (l more : List (Note δ α)) :
    publishedIn (l ++ more) = publishedIn l ++ publishedIn more :=
  List.filterMap_append

omit [DecidableEq ι] in
omit [DecidableEq δ] in
theorem publishedIn_writer (s : Download ι δ α) (p : ι) (m : Move α) :
    publishedIn (s.notes (.writer p m)) = s.files.published p m := by
  show List.filterMap _ (List.map _ _) = _
  rw [List.filterMap_map]
  exact List.filterMap_some

omit [DecidableEq ι] [DecidableEq δ] in
theorem inv_init (own : Prop) : Inv own (init : Download ι δ α) [] where
  whole := ⟨fun _ _ _ _ h => (nomatch h), fun _ h => (nomatch h)⟩
  cached _ _ h := nomatch h
  atPass := fun _ _ => rfl

/-! ## The cache -/

omit [DecidableEq ι] [DecidableEq δ] in
/-- The cache as it was, while no copy ends or is cut short unnoticed. -/
theorem Cached.keep (h : s.Cached own l) (hcache : s'.cache = s.cache)
    (more : List (Note δ α)) (hcopy : ∀ d, s.Copying d → s'.Copying d ∨ .torn d ∈ more) :
    s'.Cached own (l ++ more) := by
  intro d c hc
  rw [hcache] at hc
  obtain ⟨d', rows, hpub, hpre, hwhole, hown⟩ := h d c hc
  refine ⟨d', rows, ?_, hpre, ?_, hown⟩
  · rw [publishedIn_append]
    exact List.mem_append_left _ hpub
  · rcases hwhole with heq | hcopying | htorn
    · exact Or.inl heq
    · rcases hcopy d hcopying with hstill | hcut
      · exact Or.inr (Or.inl hstill)
      · exact Or.inr (Or.inr (List.mem_append_right _ hcut))
    · exact Or.inr (Or.inr (List.mem_append_left _ htorn))

omit [DecidableEq ι] [DecidableEq δ] in
/-- The cache with another content for the day that the script is at. -/
theorem Cached.day (h : s.Cached own l) {d : δ} (hothers : ∀ d', d' ≠ d → s'.cache d' = s.cache d')
    (hcopy : ∀ d', s.Copying d' → d' = d)
    (hd : ∀ c, s'.cache d = some c → ∃ d' rows, (d', rows) ∈ publishedIn l ∧ c <+: rows ∧
      (c = rows ∨ s'.Copying d ∨ .torn d ∈ l) ∧ (own → d' = d)) : s'.Cached own l := by
  intro e c hc
  by_cases hed : e = d
  · rw [hed] at hc ⊢
    exact hd c hc
  · rw [hothers e hed] at hc
    obtain ⟨d', rows, hpub, hpre, hwhole, hown⟩ := h e c hc
    refine ⟨d', rows, hpub, hpre, ?_, hown⟩
    exact hwhole.imp_right fun hrest => Or.inr (hrest.resolve_left fun hc => hed (hcopy e hc))

omit [DecidableEq ι] [DecidableEq δ] in
theorem Copying.eq {d : δ} (h : s.Copying d) {d₀ : δ} {days : List δ} {n : Nat}
    {pc : PassPc ι α} (hpass : s.pass = some ⟨d₀ :: days, n, pc⟩) :
    d = d₀ ∧ ∃ k rest, pc = .copying k rest := by
  obtain ⟨ds, m, k, rest, hcopy⟩ := h
  rw [hpass] at hcopy
  cases hcopy
  exact ⟨rfl, k, rest, rfl⟩

omit [DecidableEq ι] [DecidableEq δ] in
/-- A step of the script that leaves the cache, outside `cp`. -/
theorem Cached.outside (h : s.Cached own l) {d : δ} {days : List δ} {n : Nat}
    {pc : PassPc ι α} (hpass : s.pass = some ⟨d :: days, n, pc⟩)
    (hpc : ∀ k rest, pc ≠ .copying k rest) (hcache : s'.cache = s.cache) : s'.Cached own l := by
  have hkeep := h.keep hcache [] fun d' hcopy => by
    obtain ⟨-, k, rest, hcopying⟩ := hcopy.eq hpass
    exact absurd hcopying (hpc k rest)
  rwa [List.append_nil] at hkeep

/-! ## Steps -/

omit [DecidableEq ι] [DecidableEq δ] in
theorem AtPass.atDay (h : s.AtPass own l) {d : δ} {days : List δ} {n : Nat} {pc : PassPc ι α}
    (hpass : s.pass = some ⟨d :: days, n, pc⟩) : s.AtDay own l d pc := by
  unfold AtPass at h
  rw [hpass] at h
  exact h

omit [DecidableEq ι] [DecidableEq δ] in
theorem atPass_check {days : List δ} {n : Nat} (hpass : s.pass = some ⟨days, n, .check⟩)
    (h : own → s.Quiet) : s.AtPass own l := by
  unfold AtPass
  rw [hpass]
  cases days with
  | nil => exact ⟨rfl, h⟩
  | cons d days => exact h

omit [DecidableEq δ] in
theorem Only.quiet_reap {p : ι} {d : δ} (h : s.Only p d) :
    (s.setFiles (s.files.reap p)).Quiet := by
  intro q
  show (s.files.reap p).writers q = none
  rw [Files.writers_reap]
  by_cases hq : q = p
  · rw [if_pos hq]
  · rw [if_neg hq]
    exact h.1 q hq

section
variable {d : δ} {days : List δ} {n : Nat} {p : ι}

theorem Inv.passStep_check (h : Inv own s l)
    (hpass : s.pass = some ⟨d :: days, n, .check⟩)
    (hs : s.passStep ⟨d :: days, n, .check⟩ p = some s') : Inv own s' l := by
  have hday := h.atPass.atDay hpass
  unfold Download.passStep at hs
  have hsame : s'.cache = s.cache → s'.Cached own l := h.cached.outside hpass nofun
  dsimp only at hs
  cases hcache : s.cache d with
  | some c =>
    rw [hcache] at hs
    cases hs
    exact ⟨h.whole, hsame rfl, atPass_check rfl hday⟩
  | none =>
    rw [hcache] at hs
    cases hs
    exact ⟨h.whole, hsame rfl, hcache, hday⟩

theorem Inv.passStep_attempt {k : Nat} (h : Inv own s l)
    (hpass : s.pass = some ⟨d :: days, n, .attempt k⟩)
    (hs : s.passStep ⟨d :: days, n, .attempt k⟩ p = some s') : Inv own s' l := by
  have hday := h.atPass.atDay hpass
  unfold Download.passStep at hs
  have hsame : s'.cache = s.cache → s'.Cached own l := h.cached.outside hpass nofun
  dsimp only at hs
  by_cases hk : k ≤ n
  · rw [if_pos hk] at hs
    cases hs
    exact ⟨h.whole.remove, hsame rfl, hday.1, fun hown => ⟨hday.2 hown, fun _ ht => nomatch ht⟩⟩
  · rw [if_neg hk] at hs
    cases hs
    exact ⟨h.whole, hsame rfl, atPass_check rfl hday.2⟩

theorem Inv.passStep_fetch {k : Nat} (h : Inv own s l)
    (hpass : s.pass = some ⟨d :: days, n, .fetch k⟩)
    (hs : s.passStep ⟨d :: days, n, .fetch k⟩ p = some s') : Inv own s' l := by
  have hday := h.atPass.atDay hpass
  unfold Download.passStep at hs
  have hsame : s'.cache = s.cache → s'.Cached own l := h.cached.outside hpass nofun
  dsimp only at hs
  cases hw : s.files.writers p with
  | some w =>
    rw [hw] at hs
    cases hs
  | none =>
    rw [hw] at hs
    cases hs
    refine ⟨h.whole.idle p d .preparing nofun, hsame rfl, hday.1, fun hown => ?_⟩
    obtain ⟨hquiet, htarget⟩ := hday.2 hown
    refine ⟨⟨fun q hq => ?_, fun w hw' => ?_⟩, htarget⟩
    · show (s.files.enter p ⟨d, .preparing⟩).writers q = none
      rw [Files.writers_enter, if_neg hq]
      exact hquiet q
    · have hself : (s.files.enter p ⟨d, .preparing⟩).writers p = some w := hw'
      rw [Files.writers_enter, if_pos rfl] at hself
      cases hself
      rfl

theorem Inv.passStep_wait {k : Nat} {q : ι} (h : Inv own s l)
    (hpass : s.pass = some ⟨d :: days, n, .wait k q⟩)
    (hs : s.passStep ⟨d :: days, n, .wait k q⟩ p = some s') : Inv own s' l := by
  have hday := h.atPass.atDay hpass
  unfold Download.passStep at hs
  have hsame : s'.cache = s.cache → s'.Cached own l := h.cached.outside hpass nofun
  dsimp only at hs
  split at hs
  case h_1 =>
    cases hs
    refine ⟨h.whole.reap q, hsame rfl, hday.1, fun hown => ?_⟩
    obtain ⟨honly, htarget⟩ := hday.2 hown
    exact ⟨honly.quiet_reap, htarget⟩
  case h_2 =>
    cases hs
    exact ⟨h.whole.reap q, hsame rfl, hday.1, fun hown => (hday.2 hown).1.quiet_reap⟩
  case h_3 => cases hs

/-- The copy begins: the day is a part of what was published. -/
theorem Inv.passStep_copy {k : Nat} (h : Inv own s l)
    (hpass : s.pass = some ⟨d :: days, n, .copy k⟩)
    (hs : s.passStep ⟨d :: days, n, .copy k⟩ p = some s') : Inv own s' l := by
  have hday := h.atPass.atDay hpass
  unfold Download.passStep at hs
  dsimp only at hs
  cases htarget : s.files.target with
  | none =>
    rw [htarget] at hs
    cases hs
    exact ⟨h.whole, h.cached.outside hpass nofun rfl, fun hown => (hday.2 hown).1⟩
  | some rows =>
    rw [htarget] at hs
    cases hs
    have hpub : ∃ d', (d', rows) ∈ publishedIn l ∧ (own → d' = d) := by
      by_cases hown : own
      · exact ⟨d, (hday.2 hown).2 rows htarget, fun _ => rfl⟩
      · obtain ⟨d', hd'⟩ := h.whole.target rows htarget
        exact ⟨d', hd', fun ho => absurd ho hown⟩
    obtain ⟨d', hmem, hown⟩ := hpub
    have hself : Function.update s.cache d (some []) d = some ([] : List α) :=
      Function.update_self _ _ _
    refine ⟨h.whole, h.cached.day (d := d) (fun e he => Function.update_of_ne he _ _)
      (fun e he => (he.eq hpass).1) fun c hc => ?_, ⟨[], d', rows, hself, hmem, rfl, hown⟩,
      fun hown => (hday.2 hown).1⟩
    obtain rfl : [] = c := Option.some.inj (hself.symm.trans hc)
    exact ⟨d', rows, hmem, List.nil_prefix, Or.inr (Or.inl ⟨days, n, k, rows, rfl⟩), hown⟩

theorem Inv.passStep_copying {k : Nat} {rest : List α} (h : Inv own s l)
    (hpass : s.pass = some ⟨d :: days, n, .copying k rest⟩)
    (hs : s.passStep ⟨d :: days, n, .copying k rest⟩ p = some s') : Inv own s' l := by
  have hday := h.atPass.atDay hpass
  unfold Download.passStep at hs
  obtain ⟨⟨c₀, d', rows, hc₀, hmem, hrows, hown⟩, hquiet⟩ := hday
  cases rest with
  | nil =>
    cases hs
    refine ⟨h.whole, h.cached.day (d := d) (fun _ _ => rfl) (fun e he => (he.eq hpass).1)
      fun c hc => ?_, atPass_check rfl hquiet⟩
    obtain rfl : c₀ = c := Option.some.inj (hc₀.symm.trans hc)
    rw [List.append_nil] at hrows
    exact ⟨d', rows, hmem, hrows ▸ List.prefix_refl _, Or.inl hrows, hown⟩
  | cons r rest =>
    cases hs
    have hself : Function.update s.cache d ((s.cache d).map (· ++ [r])) d =
        some (c₀ ++ [r]) := by
      rw [Function.update_self, hc₀]
      rfl
    have hnext : c₀ ++ [r] ++ rest = rows := by
      rw [List.append_assoc]
      exact hrows
    refine ⟨h.whole, h.cached.day (d := d) (fun e he => Function.update_of_ne he _ _)
      (fun e he => (he.eq hpass).1) fun c hc => ?_,
      ⟨c₀ ++ [r], d', rows, hself, hmem, hnext, hown⟩, hquiet⟩
    obtain rfl : c₀ ++ [r] = c := Option.some.inj (hself.symm.trans hc)
    exact ⟨d', rows, hmem, ⟨rest, hnext⟩, Or.inr (Or.inl ⟨days, n, k, rest, rfl⟩), hown⟩

theorem Inv.passStep {pc : PassPc ι α} (h : Inv own s l)
    (hpass : s.pass = some ⟨d :: days, n, pc⟩)
    (hs : s.passStep ⟨d :: days, n, pc⟩ p = some s') : Inv own s' l := by
  cases pc with
  | check => exact h.passStep_check hpass hs
  | attempt k => exact h.passStep_attempt hpass hs
  | fetch k => exact h.passStep_fetch hpass hs
  | wait k q => exact h.passStep_wait hpass hs
  | copy k => exact h.passStep_copy hpass hs
  | copying k rest => exact h.passStep_copying hpass hs

end

omit [DecidableEq ι] [DecidableEq δ] in
/-- What a move of a writer or of its parent leaves of the day. -/
theorem AtDay.setFiles {d : δ} {pc : PassPc ι α} (h : s.AtDay own l d pc)
    (files : Files ι δ α) (more : List (Note δ α)) (hbusy : ¬ s.Quiet)
    (hwait : ∀ k p, pc = .wait k p → s.Only p d → s.TargetOf l d →
      (s.setFiles files).Only p d ∧ (s.setFiles files).TargetOf (l ++ more) d) :
    (s.setFiles files).AtDay own (l ++ more) d pc := by
  cases pc with
  | check => exact fun hown => absurd (h hown) hbusy
  | attempt k => exact ⟨h.1, fun hown => absurd (h.2 hown) hbusy⟩
  | fetch k => exact ⟨h.1, fun hown => absurd (h.2 hown).1 hbusy⟩
  | wait k p => exact ⟨h.1, fun hown => hwait k p rfl (h.2 hown).1 (h.2 hown).2⟩
  | copy k => exact ⟨h.1, fun hown => absurd (h.2 hown).1 hbusy⟩
  | copying k rest =>
    obtain ⟨⟨c, d', rows, hc, hmem, hrows, hday⟩, hquiet⟩ := h
    refine ⟨⟨c, d', rows, hc, ?_, hrows, hday⟩, fun hown => absurd (hquiet hown) hbusy⟩
    rw [publishedIn_append]
    exact List.mem_append_left _ hmem

omit [DecidableEq ι] [DecidableEq δ] in
theorem AtPass.setFiles (h : s.AtPass own l) (files : Files ι δ α) (more : List (Note δ α))
    (hbusy : ¬ s.Quiet)
    (hwait : ∀ d days n k p, s.pass = some ⟨d :: days, n, .wait k p⟩ → s.Only p d →
      s.TargetOf l d →
      (s.setFiles files).Only p d ∧ (s.setFiles files).TargetOf (l ++ more) d) :
    (s.setFiles files).AtPass own (l ++ more) := by
  unfold AtPass at h ⊢
  show match s.pass with | none => _ | some ⟨[], _, pc⟩ => _ | some ⟨d :: _, _, pc⟩ => _
  match hpass : s.pass, h with
  | none, h => exact fun hown => absurd (h hown) hbusy
  | some ⟨[], _, pc⟩, h => exact ⟨h.1, fun hown => absurd (h.2 hown) hbusy⟩
  | some ⟨d :: days, n, pc⟩, h =>
    refine AtDay.setFiles h files more hbusy fun k p hpc => ?_
    subst hpc
    exact hwait d days n k p hpass

omit [DecidableEq δ] in
theorem Inv.writer (h : Inv own s l) {p : ι} {m : Move α} {files : Files ι δ α}
    (hm : s.files.move p m = some files) :
    Inv own (s.setFiles files) (l ++ s.notes (.writer p m)) := by
  obtain ⟨hwhole, hmoved⟩ := h.whole.move hm
  rw [← publishedIn_writer] at hwhole hmoved
  obtain ⟨w, w', hw, hw', htag⟩ := hmoved.tag
  refine ⟨?_, h.cached.keep rfl _ fun d hcopy => Or.inl hcopy,
    h.atPass.setFiles files _ (fun hquiet => ?_) fun d days n k q hpass honly htarget => ?_⟩
  · rw [publishedIn_append]
    exact hwhole
  · rw [hquiet p] at hw
    cases hw
  · obtain rfl : p = q := by
      by_contra hne
      rw [honly.1 p hne] at hw
      cases hw
    refine ⟨⟨fun r hr => (hmoved.others r hr).trans (honly.1 r hr), fun x hx => ?_⟩,
      fun rows hrows => ?_⟩
    · obtain rfl : w' = x := Option.some.inj (hw'.symm.trans hx)
      rw [htag]
      exact honly.2 w hw
    · rw [publishedIn_append]
      rcases hmoved.target rows hrows with hold | ⟨x, hx, hmem⟩
      · exact List.mem_append_left _ (htarget rows hold)
      · rw [honly.2 x hx] at hmem
        exact List.mem_append_right _ hmem

omit [DecidableEq δ] in
theorem Inv.reap (h : Inv own s l) {p : ι} {w : Writer δ α} (hw : s.files.writers p = some w)
    (hchild : s.child ≠ some p) : Inv own (s.setFiles (s.files.reap p)) l := by
  have hkeep : (s.setFiles (s.files.reap p)).Cached own (l ++ []) :=
    h.cached.keep rfl [] fun d hc => Or.inl hc
  have hpass := h.atPass.setFiles (s.files.reap p) [] (fun hquiet => by
      rw [hquiet p] at hw
      cases hw)
    fun d days n k q hpass honly _ => by
      have hne : p ≠ q := by
        rintro rfl
        apply hchild
        unfold child
        rw [hpass]
      rw [honly.1 p hne] at hw
      cases hw
  rw [List.append_nil] at hkeep hpass
  exact ⟨h.whole.reap p, hkeep, hpass⟩

omit [DecidableEq ι] [DecidableEq δ] in
/-- A script that waits for no writer leaves none behind. -/
theorem AtPass.quiet (h : s.AtPass own l) (hchild : s.child = none) (hown : own) : s.Quiet := by
  unfold AtPass at h
  match hpass : s.pass with
  | none =>
    rw [hpass] at h
    exact h hown
  | some ⟨[], _, pc⟩ =>
    rw [hpass] at h
    exact h.2 hown
  | some ⟨d :: days, n, pc⟩ =>
    rw [hpass] at h
    cases pc with
    | check => exact h hown
    | attempt k => exact h.2 hown
    | fetch k => exact (h.2 hown).1
    | wait k p =>
      unfold child at hchild
      rw [hpass] at hchild
      cases hchild
    | copy k => exact (h.2 hown).1
    | copying k rest => exact h.2 hown

omit [DecidableEq ι] [DecidableEq δ] in
theorem pass_of_child {p : ι} (hchild : s.child = some p) :
    ∃ days n k, s.pass = some ⟨days, n, .wait k p⟩ := by
  unfold child at hchild
  split at hchild
  case h_1 days n k q hpass =>
    cases hchild
    exact ⟨days, n, k, hpass⟩
  case h_2 => cases hchild

omit [DecidableEq ι] [DecidableEq δ] in
theorem AtPass.only (h : s.AtPass own l) {p : ι} (hchild : s.child = some p) (hown : own) :
    ∃ d, s.Only p d := by
  obtain ⟨days, n, k, hpass⟩ := pass_of_child hchild
  unfold AtPass at h
  rw [hpass] at h
  cases days with
  | nil => exact nomatch h.1
  | cons d days => exact ⟨d, (h.2 hown).1⟩

theorem Inv.killPass (h : Inv own s l) {group : Bool} (hgroup : own → group = true)
    (hs : s.step (.killPass group) = some s') : Inv own s' (l ++ s.notes (.killPass group)) := by
  have hcut : ∀ d, s.Copying d → .torn d ∈ s.notes (.killPass group) := by
    rintro d ⟨days, n, k, rest, hpass⟩
    unfold notes
    rw [hpass]
    exact List.mem_cons_self
  have hpub : publishedIn (l ++ s.notes (.killPass group)) = publishedIn l := by
    rw [publishedIn_append]
    unfold notes
    dsimp only
    split <;> exact List.append_nil _
  have hkeep : ∀ s' : Download ι δ α, s'.cache = s.cache →
      s'.Cached own (l ++ s.notes (.killPass group)) := fun s' hcache =>
    h.cached.keep hcache _ fun d hcopy => Or.inr (hcut d hcopy)
  unfold Download.step at hs
  dsimp only at hs
  split at hs
  case h_1 => cases hs
  case h_2 p _ hchild =>
    by_cases hg : group = true
    · rw [if_pos hg] at hs
      cases hs
      refine ⟨?_, hkeep _ rfl, fun hown => ?_⟩
      · rw [hpub]
        exact h.whole.reap p
      · obtain ⟨d, honly⟩ := h.atPass.only hchild hown
        exact honly.quiet_reap
    · rw [if_neg hg] at hs
      cases hs
      refine ⟨?_, hkeep _ rfl, fun hown => absurd (hgroup hown) hg⟩
      rw [hpub]
      exact h.whole
  case h_3 _ hchild =>
    cases hs
    refine ⟨?_, hkeep _ rfl, h.atPass.quiet hchild⟩
    rw [hpub]
    exact h.whole

theorem Inv.step (h : Inv own s l) {e : Event ι δ α} (he : own → e ≠ .killPass false)
    (hs : s.step e = some s') : Inv own s' (l ++ s.notes e) := by
  cases e with
  | start days maxRetries =>
    unfold Download.step at hs
    dsimp only at hs
    split at hs
    case h_1 hpass =>
      cases hs
      have hquiet := h.atPass
      unfold AtPass at hquiet
      rw [hpass] at hquiet
      show Inv own _ (l ++ [])
      rw [List.append_nil]
      refine ⟨h.whole, fun d c hc => ?_, atPass_check rfl hquiet⟩
      obtain ⟨d', rows, hmem, hpre, hrest, hown⟩ := h.cached d c hc
      refine ⟨d', rows, hmem, hpre, hrest.imp_right fun hor => Or.inr (hor.resolve_left ?_), hown⟩
      rintro ⟨days, n, k, rest, hcopying⟩
      rw [hpass] at hcopying
      cases hcopying
    case h_2 => cases hs
  | pass p =>
    obtain ⟨⟨days, n, pc⟩, hpass, hstep⟩ := Option.bind_eq_some_iff.mp hs
    show Inv own s' (l ++ [])
    rw [List.append_nil]
    cases days with
    | nil =>
      cases hstep
      have hend := h.atPass
      unfold AtPass at hend
      rw [hpass] at hend
      have hcache : ({ s with pass := none } : Download ι δ α).cache = s.cache := rfl
      have hkeep := h.cached.keep hcache [] fun d hcopy => by
        obtain ⟨days, n, k, rest, hcopying⟩ := hcopy
        rw [hpass] at hcopying
        cases hcopying
      rw [List.append_nil] at hkeep
      exact ⟨h.whole, hkeep, hend.2⟩
    | cons d days => exact h.passStep hpass hstep
  | writer p m =>
    obtain ⟨files, hm, rfl⟩ := Option.map_eq_some_iff.mp hs
    exact h.writer hm
  | reap p =>
    show Inv own s' (l ++ [])
    rw [List.append_nil]
    unfold Download.step at hs
    dsimp only at hs
    split at hs
    case h_1 hw =>
      by_cases hchild : s.child = some p
      · rw [if_pos hchild] at hs
        cases hs
      · rw [if_neg hchild] at hs
        cases hs
        exact h.reap hw hchild
    case h_2 => cases hs
  | killPass group =>
    refine h.killPass (fun hown => ?_) hs
    cases group with
    | false => exact absurd rfl (he hown)
    | true => rfl

/-! ## Runs -/

omit [DecidableEq ι] [DecidableEq δ] in
theorem not_copying {days : List δ} {n : Nat} {pc : PassPc ι α}
    (hpass : s.pass = some ⟨days, n, pc⟩) (hpc : ∀ k rest, pc ≠ .copying k rest) {d : δ} :
    ¬ s.Copying d := by
  rintro ⟨ds, m, k, rest, hcopy⟩
  rw [hpass] at hcopy
  cases hcopy
  exact hpc k rest rfl

omit [DecidableEq ι] [DecidableEq δ] in
theorem not_copying_none (hpass : s.pass = none) {d : δ} : ¬ s.Copying d := by
  rintro ⟨ds, m, k, rest, hcopy⟩
  rw [hpass] at hcopy
  cases hcopy

/-- The script writes only to a day that is not in the cache, or that it is copying. -/
theorem Inv.stays_passStep (h : Inv own s l) {pass : Pass ι δ α} (hpass : s.pass = some pass)
    {p : ι} (hs : s.passStep pass p = some s') {d : δ} {c : List α} (hc : s.cache d = some c)
    (hd : ¬ s.Copying d) : s'.cache d = some c ∧ ¬ s'.Copying d := by
  obtain ⟨days, n, pc⟩ := pass
  unfold Download.passStep at hs
  cases days with
  | nil =>
    cases hs
    exact ⟨hc, not_copying_none rfl⟩
  | cons d₀ days =>
    have hday := h.atPass.atDay hpass
    have hone : ∀ {s' : Download ι δ α} {k : Nat} {rest : List α},
        s'.pass = some ⟨d₀ :: days, n, .copying k rest⟩ → d ≠ d₀ → ¬ s'.Copying d :=
      fun hpass' hne hcopy => hne (hcopy.eq hpass').1
    cases pc with
    | check =>
      dsimp only at hs
      split at hs <;> cases hs
      · exact ⟨hc, not_copying rfl (by nofun)⟩
      · exact ⟨hc, not_copying rfl (by nofun)⟩
    | attempt k =>
      dsimp only at hs
      split at hs <;> cases hs
      · exact ⟨hc, not_copying rfl (by nofun)⟩
      · exact ⟨hc, not_copying rfl (by nofun)⟩
    | fetch k =>
      dsimp only at hs
      split at hs <;> cases hs
      exact ⟨hc, not_copying rfl (by nofun)⟩
    | wait k q =>
      dsimp only at hs
      split at hs <;> cases hs
      · exact ⟨hc, not_copying rfl (by nofun)⟩
      · exact ⟨hc, not_copying rfl (by nofun)⟩
    | copy k =>
      have hne : d ≠ d₀ := by
        rintro rfl
        rw [hday.1] at hc
        cases hc
      dsimp only at hs
      split at hs <;> cases hs
      · exact ⟨(Function.update_of_ne hne _ _).trans hc, hone rfl hne⟩
      · exact ⟨hc, not_copying_none rfl⟩
    | copying k rest =>
      have hne : d ≠ d₀ := by
        rintro rfl
        exact hd ⟨days, n, k, rest, hpass⟩
      cases rest with
      | nil =>
        cases hs
        exact ⟨hc, not_copying rfl (by nofun)⟩
      | cons r rest =>
        cases hs
        exact ⟨(Function.update_of_ne hne _ _).trans hc, hone rfl hne⟩

theorem Inv.stays (h : Inv own s l) {e : Event ι δ α} (hs : s.step e = some s') {d : δ}
    {c : List α} (hc : s.cache d = some c) (hd : ¬ s.Copying d) :
    s'.cache d = some c ∧ ¬ s'.Copying d := by
  cases e with
  | start days maxRetries =>
    unfold Download.step at hs
    dsimp only at hs
    split at hs <;> cases hs
    exact ⟨hc, not_copying rfl (by nofun)⟩
  | pass p =>
    obtain ⟨pass, hpass, hstep⟩ := Option.bind_eq_some_iff.mp hs
    exact h.stays_passStep hpass hstep hc hd
  | writer p m =>
    obtain ⟨files, -, rfl⟩ := Option.map_eq_some_iff.mp hs
    exact ⟨hc, hd⟩
  | reap p =>
    unfold Download.step at hs
    dsimp only at hs
    split at hs
    · split at hs <;> cases hs
      exact ⟨hc, hd⟩
    · cases hs
  | killPass group =>
    unfold Download.step at hs
    dsimp only at hs
    split at hs
    · cases hs
    · split at hs <;> cases hs <;> exact ⟨hc, not_copying_none rfl⟩
    · cases hs
      exact ⟨hc, not_copying_none rfl⟩

/-- A day that the log has as copied or cached is in the cache. -/
def LogTrue (s : Download ι δ α) : Prop :=
  ∀ d status k, (d, status, k) ∈ s.log → status ≠ .failed →
    ∃ c, s.cache d = some c ∧ ¬ s.Copying d

/-- The script logs a day that it has found in the cache, or has copied. -/
theorem Inv.logTrue_passStep (h : Inv own s l) {pass : Pass ι δ α} (hpass : s.pass = some pass)
    {p : ι} (hstep : s.passStep pass p = some s')
    (hkeep : ∀ d status k, (d, status, k) ∈ s.log → status ≠ .failed →
      ∃ c, s'.cache d = some c ∧ ¬ s'.Copying d) : s'.LogTrue := by
  obtain ⟨days, n, pc⟩ := pass
  unfold Download.passStep at hstep
  cases days with
  | nil =>
    cases hstep
    exact hkeep
  | cons d₀ days =>
    have hday := h.atPass.atDay hpass
    have hnew : ∀ {t : Download ι δ α} {entry : DayStatus × Nat},
        t.log = s.log ++ [(d₀, entry)] →
        (∀ d status k, (d, status, k) ∈ s.log → status ≠ .failed →
          ∃ c, t.cache d = some c ∧ ¬ t.Copying d) →
        (entry.1 ≠ .failed → ∃ c, t.cache d₀ = some c ∧ ¬ t.Copying d₀) → t.LogTrue := by
      intro t entry ht hold hentry d status k hmem hne
      rw [ht] at hmem
      rcases List.mem_append.mp hmem with hmem | hmem
      · exact hold d status k hmem hne
      · obtain ⟨rfl, rfl⟩ := Prod.mk.inj (List.mem_singleton.mp hmem)
        exact hentry hne
    cases pc with
    | check =>
      dsimp only at hstep
      split at hstep
      case h_1 c hc =>
        cases hstep
        exact hnew rfl hkeep fun _ => ⟨c, hc, not_copying rfl (by nofun)⟩
      case h_2 =>
        cases hstep
        exact hkeep
    | attempt k =>
      dsimp only at hstep
      split at hstep <;> cases hstep
      · exact hkeep
      · exact hnew rfl hkeep fun hne => absurd rfl hne
    | fetch k =>
      dsimp only at hstep
      split at hstep <;> cases hstep
      exact hkeep
    | wait k q =>
      dsimp only at hstep
      split at hstep <;> cases hstep
      · exact hkeep
      · exact hkeep
    | copy k =>
      dsimp only at hstep
      split at hstep <;> cases hstep
      · exact hkeep
      · exact hkeep
    | copying k rest =>
      obtain ⟨⟨c, -, -, hc, -, -, -⟩, -⟩ := hday
      cases rest with
      | nil =>
        cases hstep
        exact hnew rfl hkeep fun _ => ⟨c, hc, not_copying rfl (by nofun)⟩
      | cons r rest =>
        cases hstep
        exact hkeep

theorem Inv.logTrue (h : Inv own s l) (hlog : s.LogTrue) {e : Event ι δ α}
    (hs : s.step e = some s') : s'.LogTrue := by
  have hkeep : ∀ d status k, (d, status, k) ∈ s.log → status ≠ .failed →
      ∃ c, s'.cache d = some c ∧ ¬ s'.Copying d := by
    intro d status k hmem hne
    obtain ⟨c, hc, hd⟩ := hlog d status k hmem hne
    exact ⟨c, h.stays hs hc hd⟩
  cases e with
  | start days maxRetries =>
    unfold Download.step at hs
    dsimp only at hs
    split at hs <;> cases hs
    exact fun _ _ _ hmem => nomatch hmem
  | pass p =>
    obtain ⟨pass, hpass, hstep⟩ := Option.bind_eq_some_iff.mp hs
    exact h.logTrue_passStep hpass hstep hkeep
  | writer p m =>
    obtain ⟨files, -, rfl⟩ := Option.map_eq_some_iff.mp hs
    exact hlog
  | reap p =>
    unfold Download.step at hs
    dsimp only at hs
    split at hs
    · split at hs <;> cases hs
      exact hlog
    · cases hs
  | killPass group =>
    unfold Download.step at hs
    dsimp only at hs
    split at hs
    · cases hs
    · split at hs <;> cases hs <;> exact hkeep
    · cases hs
      exact hkeep

/-- Whatever the interleaving of the script and its writers, and wherever they are killed,
the output file is the whole of what a writer published; a day in the cache is a part of
such a file, the whole of it unless its copy goes on or was cut short, and the file of its
own day unless a script was killed without its writer; a day that the log has as copied or
cached is there; and no later pass changes a day that is there, so a part of a day stays. -/
theorem cached_days {es : List (Event ι δ α)} {s : Download ι δ α}
    (hrun : Machine.run step init es = some s) :
    let l := Machine.outputs step notes init es
    (∀ rows, s.files.target = some rows → ∃ d, (d, rows) ∈ publishedIn l) ∧
    s.Cached (∀ e ∈ es, e ≠ .killPass false) l ∧ s.LogTrue ∧
    ∀ es' s', Machine.run step s es' = some s' → ∀ d c, s.cache d = some c → ¬ s.Copying d →
      s'.cache d = some c := by
  have hstep : ∀ (s : Download ι δ α) e s' l, Inv (∀ e ∈ es, e ≠ .killPass false) s l →
      ((∀ e ∈ es, e ≠ .killPass false) → e ≠ .killPass false) → step s e = some s' →
      Inv (∀ e ∈ es, e ≠ .killPass false) s' (l ++ notes s e) :=
    fun _ _ _ _ h he hs => h.step he hs
  have hinv := Machine.run_outputs_of_forall hstep (inv_init _) (fun e he h => h e he) hrun
  have hlog : (∃ l, Inv False s l) ∧ s.LogTrue :=
    Machine.run_inv_all (I := fun s => (∃ l, Inv False s l) ∧ s.LogTrue)
      (fun _ _ _ h hs => by
        obtain ⟨⟨l, hl⟩, hlog⟩ := h
        exact ⟨⟨_, hl.step (fun h => h.elim) hs⟩, hl.logTrue hlog hs⟩)
      ⟨⟨_, inv_init False⟩, fun _ _ _ h => nomatch h⟩ hrun
  rw [List.nil_append] at hinv
  refine ⟨hinv.whole.target, hinv.cached, hlog.2, fun es' s' hrun' d c hc hd => ?_⟩
  have hstays := Machine.run_inv_all
    (I := fun s => (∃ l, Inv False s l) ∧ s.cache d = some c ∧ ¬ s.Copying d)
    (fun _ _ _ h hs => by
      obtain ⟨⟨l, hl⟩, hc, hd⟩ := h
      exact ⟨⟨_, hl.step (fun h => h.elim) hs⟩, hl.stays hs hc hd⟩) ⟨hlog.1, hc, hd⟩ hrun'
  exact hstays.2.1

/-- A script is killed and its writer goes on: the next pass copies the file of one day to
the other. -/
theorem cached_days_orphan :
    let es : List (Event Nat Nat Nat) :=
      [.start [1] 4, .pass 0, .pass 0, .pass 7, .writer 7 (.prepare (some [11])),
        .killPass false, .start [2] 4, .pass 0, .pass 0, .pass 8,
        .writer 8 (.prepare (some [22])), .writer 8 .write, .writer 8 .replace, .pass 0,
        .writer 7 .write, .writer 7 .replace, .pass 0, .pass 0, .pass 0]
    ∃ s, Machine.run step init es = some s ∧ s.cache 2 = some [11] ∧
      s.Cached (∀ e ∈ es, e ≠ .killPass false) (Machine.outputs step notes init es) :=
  ⟨_, rfl, rfl, (cached_days rfl).2.1⟩

end Download
end HistoricalRange
end HoloMarket
