import HoloMarket.Lib.RunBounds

/-!
# ThrottledLog: the log lines of dropped signals

`throttled_log` collapses a line that would repeat on every dropped signal to one line in
two seconds, with two atomics and no lock.  Every access of an atomic is a step here, and
the steps of all threads interleave freely; the clock that a thread reads is arbitrary.
-/

namespace HoloMarket

/-- Where a call stands: `t` is its reading of the clock. -/
inductive LogPc where
  | load (t : Int)
  | suppress
  | exchange (t prev : Int)
  | claimed (t : Int)
deriving DecidableEq, Repr

/-- The two atomics and the threads that call with them; a thread in no call is `none`. -/
structure ThrottledLog where
  lastNs : Int
  suppressed : Nat
  threads : List (Option (String × LogPc))
  stderr : List String

/-- What a step tells of the calls. -/
inductive LogOutcome where
  | called
  | suppressed
  | claimed (t : Int)
  | lost
  | printed (n : Nat)
deriving DecidableEq, Repr

inductive LogEvent where
  /-- A thread calls, and reads the clock. -/
  | call (i : Nat) (msg : String) (t : Int)
  /-- A thread in a call goes on to its next access. -/
  | access (i : Nat)

namespace ThrottledLog

def kLogThrottleNs : Int := 2000000000

def line (msg : String) (n : Nat) : String :=
  "[ExecutionEngine] signal dropped — " ++ msg ++
    (if 0 < n then
      " (+" ++ toString n ++ " more suppressed in the last " ++
        toString (kLogThrottleNs / 1000000000) ++ "s)"
    else "") ++ "\n"

/-- The atomics as they are made, with `n` threads. -/
def start (n : Nat) : ThrottledLog where
  lastNs := 0
  suppressed := 0
  threads := List.replicate n none
  stderr := []

def goto (s : ThrottledLog) (i : Nat) (call : Option (String × LogPc)) : ThrottledLog :=
  { s with threads := s.threads.set i call }

def access (s : ThrottledLog) (i : Nat) (msg : String) : LogPc → ThrottledLog
  | .load t =>
    if t - s.lastNs < kLogThrottleNs then s.goto i (some (msg, .suppress))
    else s.goto i (some (msg, .exchange t s.lastNs))
  | .suppress => { s.goto i none with suppressed := s.suppressed + 1 }
  | .exchange t prev =>
    if s.lastNs = prev then { s.goto i (some (msg, .claimed t)) with lastNs := t }
    else s.goto i none
  | .claimed _ =>
    { s.goto i none with
      suppressed := 0
      stderr := s.stderr ++ [line msg s.suppressed] }

def step (s : ThrottledLog) : LogEvent → Option ThrottledLog
  | .call i msg t =>
    match s.threads[i]? with
    | some none => some (s.goto i (some (msg, .load t)))
    | _ => none
  | .access i =>
    match s.threads[i]? with
    | some (some (msg, pc)) => some (s.access i msg pc)
    | _ => none

def outcome (s : ThrottledLog) : LogPc → List LogOutcome
  | .load _ => []
  | .suppress => [.suppressed]
  | .exchange t prev => if s.lastNs = prev then [.claimed t] else [.lost]
  | .claimed _ => [.printed s.suppressed]

def outcomes (s : ThrottledLog) : LogEvent → List LogOutcome
  | .call _ _ _ => [.called]
  | .access i =>
    match s.threads[i]? with
    | some (some (_, pc)) => s.outcome pc
    | _ => []

end ThrottledLog

namespace LogOutcome

def claim? : LogOutcome → Option Int
  | .claimed t => some t
  | _ => none

def count? : LogOutcome → Option Nat
  | .printed n => some n
  | _ => none

/-- The clock readings of the calls that may print, in the order they claimed it. -/
def claims (os : List LogOutcome) : List Int := os.filterMap claim?

/-- The counts of the lines that were printed. -/
def counts (os : List LogOutcome) : List Nat := os.filterMap count?

end LogOutcome

namespace ThrottledLog

open LogOutcome

/-- The call has not come to an outcome. -/
def undecided : Option (String × LogPc) → Bool
  | some (_, .load _) | some (_, .suppress) | some (_, .exchange _ _) => true
  | _ => false

/-- The call is about to print. -/
def printing : Option (String × LogPc) → Bool
  | some (_, .claimed _) => true
  | _ => false

/-- The exchange of the call will fail. -/
def stale (lastNs : Int) : Option (String × LogPc) → Bool
  | some (_, .exchange _ prev) => prev ≠ lastNs
  | _ => false

/-- What the outcomes tell of the atomics and of what has been printed. -/
structure Accounts (n : Nat) (s : ThrottledLog) (os : List LogOutcome) : Prop where
  threads : s.threads.length = n
  /-- Two calls that print are two seconds apart. -/
  spaced : (claims os).Pairwise fun a b => a + kLogThrottleNs ≤ b
  last : ∀ t ∈ claims os, t ≤ s.lastNs
  due : ∀ (i : Nat) (msg : String) (t prev : Int),
    s.threads[i]? = some (some (msg, LogPc.exchange t prev)) → prev + kLogThrottleNs ≤ t
  /-- The counts that are printed and the cell are the calls that were suppressed. -/
  suppressed : (counts os).sum + s.suppressed = os.count .suppressed
  printed : (counts os).length = s.stderr.length
  lines : s.stderr.length + s.threads.countP printing = (claims os).length
  calls : os.count .called = os.count .suppressed + (claims os).length + os.count .lost +
    s.threads.countP undecided
  /-- A call is lost only to one that prints, and at most one of each other thread. -/
  lost : os.count .lost + s.threads.countP (stale s.lastNs) ≤ (n - 1) * (claims os).length

theorem accounts_start (n : Nat) : Accounts n (start n) [] := by
  have hnone : ∀ P : Option (String × LogPc) → Bool, P none = false →
      (start n).threads.countP P = 0 := by
    intro P hP
    show (List.replicate n none).countP P = 0
    rw [List.countP_replicate, hP]
    rfl
  refine ⟨List.length_replicate, .nil, nofun, fun i msg t prev h => ?_, rfl, rfl, ?_, ?_, ?_⟩
  · cases List.eq_of_mem_replicate (List.mem_of_getElem? h)
  · rw [hnone printing rfl]
    rfl
  · rw [hnone undecided rfl]
    rfl
  · rw [hnone (stale _) rfl]
    exact Nat.zero_le _

variable {n i : Nat} {s s' : ThrottledLog} {os os' : List LogOutcome}
  {c c' : Option (String × LogPc)}

/-- What is due stays due, and the thread that moves sees to its own exchange. -/
theorem due_set (h : Accounts n s os)
    (hdue : ∀ msg t prev, c' = some (msg, LogPc.exchange t prev) → prev + kLogThrottleNs ≤ t)
    (j : Nat) (msg : String) (t prev : Int)
    (hj : (s.threads.set i c')[j]? = some (some (msg, LogPc.exchange t prev))) :
    prev + kLogThrottleNs ≤ t := by
  rw [List.getElem?_set] at hj
  split_ifs at hj
  · exact hdue msg t prev (Option.some.inj hj)
  · exact h.due j msg t prev hj

theorem Accounts.move (h : Accounts n s os) (hi : s.threads[i]? = some c)
    (hthreads : s'.threads = s.threads.set i c') (hlast : s'.lastNs = s.lastNs)
    (hclaims : claims os' = [])
    (hdue : ∀ msg t prev, c' = some (msg, LogPc.exchange t prev) → prev + kLogThrottleNs ≤ t)
    (hsupp : s'.suppressed + (counts os').sum = s.suppressed + os'.count .suppressed)
    (hprinted : s'.stderr.length = s.stderr.length + (counts os').length)
    (hlines : (counts os').length + (printing c').toNat = (printing c).toNat)
    (hcalls : os'.count .called + (undecided c).toNat =
      os'.count .suppressed + os'.count .lost + (undecided c').toNat)
    (hlost : os'.count .lost + (stale s.lastNs c').toNat ≤ (stale s.lastNs c).toNat) :
    Accounts n s' (os ++ os') := by
  have hclaims' : claims (os ++ os') = claims os := by
    rw [claims, List.filterMap_append]
    exact (congrArg _ hclaims).trans (List.append_nil _)
  have hcounts : counts (os ++ os') = counts os ++ counts os' := List.filterMap_append
  have hprinting := Machine.countP_set c' printing hi
  have hundecided := Machine.countP_set c' undecided hi
  have hstale := Machine.countP_set c' (stale s.lastNs) hi
  have hsupp₀ := h.suppressed
  have hprinted₀ := h.printed
  have hlines₀ := h.lines
  have hcalls₀ := h.calls
  have hlost₀ := h.lost
  constructor
  · rw [hthreads, List.length_set]
    exact h.threads
  · rw [hclaims']
    exact h.spaced
  · rw [hclaims', hlast]
    exact h.last
  · rw [hthreads]
    exact due_set h hdue
  · rw [hcounts, List.sum_append, List.count_append]
    omega
  · rw [hcounts, List.length_append]
    omega
  · rw [hclaims', hthreads]
    omega
  · rw [hclaims', hthreads, List.count_append, List.count_append, List.count_append]
    omega
  · rw [hclaims', hthreads, hlast, List.count_append]
    omega

/-- The exchange that succeeds: the claim is two seconds after all the others, and every
other thread may have seen the value that is gone. -/
theorem Accounts.claim (h : Accounts n s os) {msg : String} {t : Int}
    (hi : s.threads[i]? = some (some (msg, .exchange t s.lastNs))) :
    Accounts n { s.goto i (some (msg, .claimed t)) with lastNs := t } (os ++ [.claimed t]) := by
  have hdue := h.due i msg t s.lastNs hi
  have hpos : 0 ≤ kLogThrottleNs := by decide
  have hclaims : claims (os ++ [.claimed t]) = claims os ++ [t] := List.filterMap_append
  have hcounts : counts (os ++ [.claimed t]) = counts os := by
    rw [counts, List.filterMap_append]
    exact List.append_nil _
  have hprinting := Machine.countP_set (some (msg, .claimed t)) printing hi
  have hundecided := Machine.countP_set (some (msg, .claimed t)) undecided hi
  have hstale : (s.threads.set i (some (msg, .claimed t))).countP (stale t) ≤ n - 1 := by
    -- the thread that claims is not stale
    have hself : some (msg, .claimed t) ∈ s.threads.set i (some (msg, .claimed t)) := by
      refine List.mem_of_getElem? (i := i) ?_
      rw [List.getElem?_set_self (List.getElem?_eq_some_iff.mp hi).1]
    have hpos : 0 < (s.threads.set i (some (msg, .claimed t))).countP
        fun c => ¬stale t c := List.countP_pos_iff.mpr ⟨_, hself, rfl⟩
    have hsplit := List.length_eq_countP_add_countP (stale t)
      (l := s.threads.set i (some (msg, .claimed t)))
    rw [List.length_set, h.threads] at hsplit
    omega
  have hlines₀ := h.lines
  have hcalls₀ := h.calls
  have hlost₀ := h.lost
  constructor
  · show (s.threads.set i _).length = n
    rw [List.length_set]
    exact h.threads
  · rw [hclaims, List.pairwise_append]
    refine ⟨h.spaced, List.pairwise_singleton _ _, fun a ha b hb => ?_⟩
    have hle := h.last a ha
    rw [List.mem_singleton.mp hb]
    omega
  · intro a ha
    rw [hclaims, List.mem_append, List.mem_singleton] at ha
    show a ≤ t
    rcases ha with ha | rfl
    · have hle := h.last a ha
      omega
    · exact Int.le_refl _
  · exact due_set h (fun _ _ _ hc => by cases hc)
  · rw [hcounts, List.count_append]
    exact h.suppressed
  · rw [hcounts]
    exact h.printed
  · rw [hclaims, List.length_append]
    show s.stderr.length + (s.threads.set i _).countP printing = _
    simp only [printing, Bool.toNat_true, Bool.toNat_false, List.length_singleton]
      at hprinting ⊢
    omega
  · rw [hclaims, List.length_append, List.count_append, List.count_append, List.count_append]
    show _ = _ + (s.threads.set i _).countP undecided
    simp only [undecided, Bool.toNat_true, Bool.toNat_false, List.length_singleton]
      at hundecided ⊢
    show _ + 0 = _ + 0 + _ + (_ + 0) + _
    omega
  · rw [hclaims, List.length_append, List.count_append, List.length_singleton, Nat.mul_add]
    show _ + 0 + (s.threads.set i _).countP (stale t) ≤ _
    omega

/-- What every step keeps. -/
theorem Accounts.step (h : Accounts n s os) {e : LogEvent} (hs : s.step e = some s') :
    Accounts n s' (os ++ s.outcomes e) := by
  unfold ThrottledLog.step at hs
  cases e with
  | call i msg t =>
    dsimp only at hs
    split at hs
    case h_1 hi =>
      cases hs
      exact h.move hi rfl rfl rfl (fun _ _ _ hc => by cases hc) rfl rfl rfl rfl (Nat.le_refl 0)
    case h_2 => cases hs
  | access i =>
    dsimp only at hs
    split at hs
    case h_2 => cases hs
    case h_1 msg pc hi =>
      cases hs
      unfold outcomes
      dsimp only
      rw [hi]
      dsimp only
      cases pc with
      | load t =>
        unfold access outcome
        dsimp only
        split_ifs with hearly
        · exact h.move hi rfl rfl rfl (fun _ _ _ hc => by cases hc) rfl rfl rfl rfl (Nat.le_refl 0)
        · refine h.move hi rfl rfl rfl (fun _ _ _ hc => ?_) rfl rfl rfl rfl ?_
          · cases hc
            omega
          · simp [stale]
      | suppress =>
        exact h.move hi rfl rfl rfl (fun _ _ _ hc => by cases hc) rfl rfl rfl rfl
          (Nat.le_refl 0)
      | exchange t prev =>
        unfold access outcome
        dsimp only
        split_ifs with hsame
        · subst hsame
          exact h.claim hi
        · refine h.move hi rfl rfl rfl (fun _ _ _ hc => by cases hc) rfl rfl rfl rfl ?_
          have hstale : stale s.lastNs (some (msg, .exchange t prev)) = true :=
            decide_eq_true (Ne.symm hsame)
          rw [hstale]
          exact Nat.le_refl 1
      | claimed t =>
        refine h.move hi rfl rfl rfl (fun _ _ _ hc => by cases hc) ?_ ?_ rfl rfl (Nat.le_refl 0)
        · exact Nat.zero_add _
        · exact List.length_append

/-- Whatever the interleaving of any number of threads and whatever clocks they read: any
two calls that print are two seconds apart; the counts that are printed, with the one
that is still held, are the calls that were suppressed; and each call prints, is counted
or is lost to another one that prints. -/
theorem throttledLog_accounts {es : List LogEvent}
    (hrun : Machine.run ThrottledLog.step (start n) es = some s) :
    Accounts n s (Machine.outputs ThrottledLog.step outcomes (start n) es) := by
  have h := Machine.run_outputs_of_forall (I := Accounts n) (P := fun _ => True)
    (fun _ _ _ _ h _ hs => h.step hs) (accounts_start n) (fun _ _ => trivial) hrun
  rwa [List.nil_append] at h

/-- Two threads see a line that is due; one prints it, and the other call is lost. -/
theorem throttledLog_accounts_race :
    let es : List LogEvent :=
      [.call 0 "a" 3000000000, .call 1 "b" 3000000001, .access 0, .access 1, .access 0,
        .access 1, .call 1 "b" 3000000002, .access 1, .access 1, .access 0]
    ∃ s, Machine.run ThrottledLog.step (start 2) es = some s ∧
      s.stderr = ["[ExecutionEngine] signal dropped — a (+1 more suppressed in the last 2s)\n"] ∧
      Machine.outputs ThrottledLog.step outcomes (start 2) es =
        [.called, .called, .claimed 3000000000, .lost, .called, .suppressed, .printed 1] ∧
      Accounts 2 s (Machine.outputs ThrottledLog.step outcomes (start 2) es) := by
  intro es
  obtain ⟨s, hs, herr⟩ := Machine.exists_of_elim
    (o := Machine.run ThrottledLog.step (start 2) es)
    (P := fun s => s.stderr =
      ["[ExecutionEngine] signal dropped — a (+1 more suppressed in the last 2s)\n"])
    (by decide +kernel)
  exact ⟨s, hs, herr, by decide +kernel, throttledLog_accounts hs⟩

end ThrottledLog
end HoloMarket
