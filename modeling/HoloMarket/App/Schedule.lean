import HoloMarket.App.Backtest

/-!
# Every schedule of the backtest

What the consumer applies and what `process_signal` sees depend on the file and
the batch size alone.  The invariant says what each thread has done: the replay
has pushed a first part of the file's updates, the consumer has popped and
applied a first part of those, and the calls of `process_signal` are the ones
that fall due on the way.
-/

namespace HoloMarket

variable {K : Type*}

/-! ## The calls that fall due -/

/-- After every full batch: the count and the book. -/
def batchCalls (kGpuBatch : Nat) (lobSoa : LobSoA K) (us : List (LobUpdate K)) :
    List (Nat × LobSoA K) :=
  (List.range (us.length / kGpuBatch)).map fun i =>
    ((i + 1) * kGpuBatch, (us.take ((i + 1) * kGpuBatch)).foldl LobSoA.apply lobSoa)

/-- And once more at the end, when the last batch is not full. -/
def processCalls (kGpuBatch : Nat) (lobSoa : LobSoA K) (us : List (LobUpdate K)) :
    List (Nat × LobSoA K) :=
  batchCalls kGpuBatch lobSoa us ++
    if us.length % kGpuBatch ≠ 0 then [(us.length, us.foldl LobSoA.apply lobSoa)] else []

theorem batchCalls_concat (kGpuBatch : Nat) (lobSoa : LobSoA K) (us : List (LobUpdate K))
    (u : LobUpdate K) :
    batchCalls kGpuBatch lobSoa (us ++ [u]) = batchCalls kGpuBatch lobSoa us ++
      if (us.length + 1) % kGpuBatch = 0 then
        [(us.length + 1, (us ++ [u]).foldl LobSoA.apply lobSoa)]
      else [] := by
  have hbefore : ∀ i ∈ List.range (us.length / kGpuBatch),
      (us ++ [u]).take ((i + 1) * kGpuBatch) = us.take ((i + 1) * kGpuBatch) := by
    intro i hi
    refine List.take_append_of_le_length ?_
    exact (Nat.mul_le_mul_right _ (List.mem_range.mp hi)).trans (Nat.div_mul_le_self _ _)
  unfold batchCalls
  rw [List.length_append, List.length_singleton, Nat.succ_div]
  simp only [Nat.dvd_iff_mod_eq_zero]
  split
  · next hmod =>
    have hfull : (us.length / kGpuBatch + 1) * kGpuBatch = us.length + 1 := by
      have hdiv := Nat.div_mul_cancel (Nat.dvd_of_mod_eq_zero hmod)
      rwa [Nat.succ_div, if_pos (Nat.dvd_of_mod_eq_zero hmod)] at hdiv
    rw [List.range_succ, List.map_append, List.map_singleton, hfull,
      List.take_of_length_le (by simp)]
    congr 1
    exact List.map_congr_left fun i hi => by rw [hbefore i hi]
  · rw [Nat.add_zero, List.append_nil]
    exact List.map_congr_left fun i hi => by rw [hbefore i hi]

/-! ## The consumer -/

/-- What the consumer has taken out of the ring and not applied. -/
def ConsumerPc.taken : ConsumerPc K → List (LobUpdate K)
  | .apply u => [u]
  | _ => []

/-- What the consumer knows where it stands. -/
def ConsumerPc.Ok (ring : SpscRing (LobUpdate K)) (finished : Bool) (pushed : List (LobUpdate K))
    (popped : Nat) : ConsumerPc K → Prop
  | .emptyTail => finished = true
  | .emptyHead tail => finished = true ∧ tail = ring.tail
  | .pop pc => pc.Ok ring pushed popped
  | .flush => finished = true ∧ popped = pushed.length
  | .processLast => finished = true ∧ popped = pushed.length
  | .done => finished = true ∧ popped = pushed.length
  | _ => True

/-- The calls of `process_signal` that the consumer owes where it stands. -/
def Consumer.CallsOk (kGpuBatch : Nat) (lobSoa : LobSoA K) (c : Consumer K) : Prop :=
  match c.pc with
  | .processSignal =>
    c.calls ++ [(c.localCount, c.lobSoa)] = batchCalls kGpuBatch lobSoa c.applied
  | .processLast =>
    c.calls ++ [(c.localCount, c.lobSoa)] = processCalls kGpuBatch lobSoa c.applied
  | .done => c.calls = processCalls kGpuBatch lobSoa c.applied
  | _ => c.calls = batchCalls kGpuBatch lobSoa c.applied

structure Consumer.Ok (kGpuBatch : Nat) (lobSoa : LobSoA K) (ring : SpscRing (LobUpdate K))
    (finished : Bool) (pushed : List (LobUpdate K)) (popped : Nat) (c : Consumer K) : Prop where
  book : c.lobSoa = c.applied.foldl LobSoA.apply lobSoa
  count : c.localCount = c.applied.length
  taken : c.applied ++ c.pc.taken = pushed.take popped
  calls : c.CallsOk kGpuBatch lobSoa
  pc : c.pc.Ok ring finished pushed popped

section Consumer

variable {kGpuBatch : Nat} {lobSoa : LobSoA K} {ring ring' : SpscRing (LobUpdate K)}
  {finished : Bool} {pushed : List (LobUpdate K)} {popped : Nat} {c c' : Consumer K}

/-- The consumer does not mind what the replay pushes. -/
theorem Consumer.Ok.mono (hc : c.Ok kGpuBatch lobSoa ring false pushed popped)
    (hle : popped ≤ pushed.length) {more : List (LobUpdate K)} {now : Bool}
    (hpop : ∀ qc : PopPc (LobUpdate K), qc.Ok ring pushed popped →
      qc.Ok ring' (pushed ++ more) popped) :
    c.Ok kGpuBatch lobSoa ring' now (pushed ++ more) popped where
  book := hc.book
  count := hc.count
  taken := by rw [List.take_append_of_le_length hle, hc.taken]
  calls := hc.calls
  pc := by
    have hpc := hc.pc
    revert hpc
    cases c.pc with
    | pop pc => exact hpop pc
    | emptyTail => exact fun h => absurd h Bool.false_ne_true
    | emptyHead tail => exact fun h => absurd h.1 Bool.false_ne_true
    | flush => exact fun h => absurd h.1 Bool.false_ne_true
    | processLast => exact fun h => absurd h.1 Bool.false_ne_true
    | done => exact fun h => absurd h.1 Bool.false_ne_true
    | finished => exact fun _ => trivial
    | apply u => exact fun _ => trivial
    | processSignal => exact fun _ => trivial

theorem Consumer.Ok.step (hring : ring.Ok pushed popped)
    (hc : c.Ok kGpuBatch lobSoa ring finished pushed popped)
    (hstep : c.step kGpuBatch ring finished = some (ring', c')) :
    ∃ later, ring'.Ok pushed later ∧ c'.Ok kGpuBatch lobSoa ring' finished pushed later ∧
      ∀ (item : LobUpdate K) (qc : PushPc), qc.Ok ring item pushed popped →
        qc.Ok ring' item pushed later := by
  obtain ⟨book, count, applied, calls, pc⟩ := c
  obtain ⟨hbook, hcount, htaken, hcalls, hpc⟩ := hc
  obtain rfl : book = applied.foldl LobSoA.apply lobSoa := hbook
  obtain rfl : count = applied.length := hcount
  cases pc with
  | finished =>
    cases hstep
    refine ⟨popped, hring, ⟨rfl, rfl, ?_, ?_, ?_⟩, fun _ _ h => h⟩
    · cases finished <;> exact htaken
    · cases finished <;> exact hcalls
    · cases finished
      · trivial
      · rfl
  | emptyTail =>
    cases hstep
    exact ⟨popped, hring, ⟨rfl, rfl, htaken, hcalls, hpc, rfl⟩, fun _ _ h => h⟩
  | emptyHead tail =>
    obtain ⟨hfin, rfl⟩ := hpc
    cases hstep
    refine ⟨popped, hring, ⟨rfl, rfl, ?_, ?_, ?_⟩, fun _ _ h => h⟩
    · split_ifs <;> exact htaken
    · split_ifs <;> exact hcalls
    · show ConsumerPc.Ok _ _ _ _ (if ring.tail = ring.head then _ else _)
      split_ifs with heq
      · exact ⟨hfin, hring.tail_eq_head_iff.mp heq⟩
      · trivial
  | pop pc =>
    simp only [Consumer.step] at hstep
    obtain ⟨ring₁, r, hpop⟩ : ∃ ring₁ r, ring.popStep pc = (ring₁, r) := ⟨_, _, rfl⟩
    rw [hpop] at hstep
    obtain ⟨hring', hnext, hout, hmono⟩ := hring.popStep hpc hpop
    rcases r with pc' | _ | u
    · cases hstep
      exact ⟨popped, hring', ⟨rfl, rfl, htaken, hcalls, hnext pc' rfl⟩, hmono⟩
    · cases hstep
      exact ⟨popped, hring', ⟨rfl, rfl, htaken, hcalls, trivial⟩, hmono⟩
    · cases hstep
      refine ⟨popped + 1, hring', ⟨rfl, rfl, ?_, hcalls, trivial⟩, hmono⟩
      have happlied : applied = pushed.take popped := (List.append_nil _).symm.trans htaken
      show applied ++ [u] = pushed.take (popped + 1)
      rw [List.take_add_one, hout u rfl, ← happlied]
      rfl
  | apply u =>
    cases hstep
    have hbook : (applied.foldl LobSoA.apply lobSoa).apply u =
        (applied ++ [u]).foldl LobSoA.apply lobSoa := by
      rw [List.foldl_append]
      rfl
    have hcalls' : calls = batchCalls kGpuBatch lobSoa applied := hcalls
    have hbatch := batchCalls_concat kGpuBatch lobSoa applied u
    refine ⟨popped, hring, ⟨hbook, ?_, ?_, ?_, ?_⟩, fun _ _ h => h⟩
    · rw [List.length_append]
      rfl
    · split_ifs <;> exact (List.append_nil _).trans htaken
    · unfold Consumer.CallsOk
      split_ifs at hbatch ⊢ with hmod
      · rw [hbatch, ← hcalls', hbook]
      · rw [hbatch, List.append_nil, ← hcalls']
    · show ConsumerPc.Ok _ _ _ _ (if (applied.length + 1) % kGpuBatch = 0 then _ else _)
      split_ifs <;> trivial
  | processSignal =>
    cases hstep
    exact ⟨popped, hring, ⟨rfl, rfl, htaken, hcalls, trivial⟩, fun _ _ h => h⟩
  | flush =>
    cases hstep
    have hcalls' : calls = batchCalls kGpuBatch lobSoa applied := hcalls
    refine ⟨popped, hring, ⟨rfl, rfl, ?_, ?_, ?_⟩, fun _ _ h => h⟩
    · split_ifs <;> exact htaken
    · unfold Consumer.CallsOk processCalls
      split_ifs with hmod
      · rw [hcalls']
      · rw [hcalls', List.append_nil]
    · show ConsumerPc.Ok _ _ _ _ (if applied.length % kGpuBatch ≠ 0 then _ else _)
      split_ifs <;> exact hpc
  | processLast =>
    cases hstep
    exact ⟨popped, hring, ⟨rfl, rfl, htaken, hcalls, hpc⟩, fun _ _ h => h⟩
  | done => cases hstep

end Consumer

/-! ## The replay -/

variable [NatCast K] [Add K] [Mul K] [OfScientific K] [BEq K]

/-- Where the replay stands in the file, once `pushed` is in the ring. -/
structure Replay.Ok (ring : SpscRing (LobUpdate K)) (finished : Bool) (file : List UInt8)
    (pushed : List (LobUpdate K)) (popped : Nat) (replay : Replay K) : Prop where
  left : pushed ++ (replay.pending ++ Csv.pushes replay.p) = Csv.pushes file
  row : replay.pc = .row → replay.pending = []
  push : ∀ pc, replay.pc = .push pc →
    ∃ item rest, replay.pending = item :: rest ∧ pc.Ok ring item pushed popped
  ended : replay.pc = .finish ∨ replay.pc = .done → replay.pending = [] ∧ replay.p = []
  finished : finished = true ↔ replay.pc = .done

section Replay

variable {ring ring' : SpscRing (LobUpdate K)} {finished finished' : Bool} {file : List UInt8}
  {pushed : List (LobUpdate K)} {popped : Nat} {replay replay' : Replay K}

/-- The thread at the head of the loop or before the next push. -/
theorem Replay.Ok.next {p : List UInt8} {pending : List (LobUpdate K)}
    (hleft : pushed ++ (pending ++ Csv.pushes p) = Csv.pushes file) :
    (⟨p, pending, .next pending⟩ : Replay K).Ok ring false file pushed popped := by
  cases pending with
  | nil =>
    exact ⟨hleft, fun _ => rfl, (fun _ h => nomatch h), (fun h => by cases h <;> contradiction),
      by simp [ReplayPc.next]⟩
  | cons item rest =>
    refine ⟨hleft, (fun h => nomatch h), ?_, (fun h => by cases h <;> contradiction),
      by simp [ReplayPc.next]⟩
    rintro pc ⟨⟩
    exact ⟨item, rest, rfl, trivial⟩

/-- The thread moves inside `try_push`, or starts it again. -/
theorem Replay.Ok.again (hr : replay.Ok ring false file pushed popped) {pc' : PushPc}
    {item : LobUpdate K} {rest : List (LobUpdate K)}
    (hitem : replay.pending = item :: rest) (hok : pc'.Ok ring' item pushed popped) :
    ({ replay with pc := .push pc' } : Replay K).Ok ring' false file pushed popped where
  left := hr.left
  row := fun h => nomatch h
  push := by
    rintro _ ⟨⟩
    exact ⟨item, rest, hitem, hok⟩
  ended := fun h => by cases h <;> contradiction
  finished := by simp

theorem Replay.step_row (b : UInt8) (p : List UInt8) :
    (⟨b :: p, [], .row⟩ : Replay K).step ring finished =
      some (ring, finished, ⟨(Csv.csvRow (K := K) (b :: p)).2,
        (Csv.csvRow (K := K) (b :: p)).1.updates,
        .next (Csv.csvRow (K := K) (b :: p)).1.updates⟩) := by
  simp only [Replay.step]

theorem Replay.Ok.step (hring : ring.Ok pushed popped)
    (hr : replay.Ok ring finished file pushed popped)
    (hstep : replay.step ring finished = some (ring', finished', replay')) :
    finished = false ∧ ∃ more, ring'.Ok (pushed ++ more) popped ∧
      replay'.Ok ring' finished' file (pushed ++ more) popped ∧
      ∀ qc : PopPc (LobUpdate K), qc.Ok ring pushed popped →
        qc.Ok ring' (pushed ++ more) popped := by
  have hfin : finished = false := by
    rw [← Bool.not_eq_true, hr.finished]
    intro hdone
    rw [Replay.step, hdone] at hstep
    cases hstep
  subst hfin
  refine ⟨rfl, ?_⟩
  obtain ⟨p, pending, pc⟩ := replay
  cases pc with
  | row =>
    obtain rfl : pending = [] := hr.row rfl
    refine ⟨[], ?_⟩
    rw [List.append_nil]
    cases p with
    | nil =>
      cases hstep
      exact ⟨hring, ⟨hr.left, (fun h => nomatch h), (fun _ h => nomatch h),
        fun _ => ⟨rfl, rfl⟩, by simp⟩, fun _ hqc => hqc⟩
    | cons b p =>
      rw [Replay.step_row] at hstep
      simp only [Option.some.injEq, Prod.mk.injEq] at hstep
      obtain ⟨rfl, rfl, rfl⟩ := hstep
      refine ⟨hring, .next ?_, fun _ hqc => hqc⟩
      rw [← Csv.pushes_of_ne_nil (K := K) (List.cons_ne_nil b p)]
      exact hr.left
  | push pc =>
    obtain ⟨item, rest, rfl, hitem⟩ := hr.push pc rfl
    simp only [Replay.step] at hstep
    obtain ⟨ring₁, r, hpush⟩ : ∃ ring₁ r, ring.pushStep item pc = (ring₁, r) := ⟨_, _, rfl⟩
    rw [hpush] at hstep
    obtain ⟨hring', hnext, hmono⟩ := hring.pushStep hitem hpush
    rcases r with pc' | b
    · cases hstep
      refine ⟨[], ?_⟩
      rw [List.append_nil]
      exact ⟨hring', hr.again rfl (hnext pc' rfl), hmono⟩
    · cases b with
      | false =>
        cases hstep
        refine ⟨[], ?_⟩
        rw [List.append_nil]
        exact ⟨hring', hr.again rfl trivial, hmono⟩
      | true =>
        cases hstep
        refine ⟨[item], hring', .next ?_, hmono⟩
        rw [List.append_assoc, List.singleton_append, ← List.cons_append]
        exact hr.left
  | finish =>
    cases hstep
    obtain ⟨rfl, rfl⟩ := hr.ended (.inl rfl)
    refine ⟨[], ?_⟩
    rw [List.append_nil]
    exact ⟨hring, ⟨hr.left, (fun h => nomatch h), (fun _ h => nomatch h),
      fun _ => ⟨rfl, rfl⟩, by simp⟩, fun _ hqc => hqc⟩
  | done => cases hstep

/-- The replay does not mind what the consumer does to the ring. -/
theorem Replay.Ok.mono (hr : replay.Ok ring finished file pushed popped) {later : Nat}
    (hpush : ∀ (item : LobUpdate K) (qc : PushPc), qc.Ok ring item pushed popped →
      qc.Ok ring' item pushed later) : replay.Ok ring' finished file pushed later where
  left := hr.left
  row := hr.row
  push pc hpc := by
    obtain ⟨item, rest, hitem, hok⟩ := hr.push pc hpc
    exact ⟨item, rest, hitem, hpush item pc hok⟩
  ended := hr.ended
  finished := hr.finished

/-- Once the replay has finished, the whole file has been pushed. -/
theorem Replay.Ok.pushed_eq (hr : replay.Ok ring true file pushed popped) :
    pushed = Csv.pushes file := by
  obtain ⟨hpending, hp⟩ := hr.ended (.inr (hr.finished.mp rfl))
  have hleft := hr.left
  rw [hpending, hp] at hleft
  exact (List.append_nil pushed).symm.trans hleft

end Replay

/-! ## Runs -/

namespace Backtest

variable {kGpuBatch : Nat} {lobSoa : LobSoA K} {file : List UInt8} {s s' : Backtest K}

/-- Some of the file's updates are in the ring, and some of those came out. -/
def Inv (kGpuBatch : Nat) (lobSoa : LobSoA K) (file : List UInt8) (s : Backtest K) : Prop :=
  ∃ pushed popped, s.ring.Ok pushed popped ∧
    s.replay.Ok s.ring s.finished file pushed popped ∧
    s.consumer.Ok kGpuBatch lobSoa s.ring s.finished pushed popped

theorem init_inv (m : Nat) (slots : Nat → LobUpdate K) :
    (init (2 ^ (m + 1)) slots lobSoa file).Inv kGpuBatch lobSoa file := by
  refine ⟨[], 0, SpscRing.init_ok m slots, ?_, ?_⟩
  · exact ⟨rfl, fun _ => rfl, (fun _ h => nomatch h), (fun h => by cases h <;> contradiction),
      by simp [init]⟩
  · refine ⟨rfl, rfl, rfl, ?_, trivial⟩
    show [] = batchCalls kGpuBatch lobSoa []
    rw [batchCalls, List.length_nil, Nat.zero_div]
    rfl

theorem Inv.step (h : s.Inv kGpuBatch lobSoa file) {e : BacktestEvent}
    (hstep : step kGpuBatch s e = some s') : s'.Inv kGpuBatch lobSoa file := by
  obtain ⟨pushed, popped, hring, hr, hc⟩ := h
  cases e with
  | replay =>
    obtain ⟨⟨ring', finished', replay'⟩, hreplay, rfl⟩ := Option.map_eq_some_iff.mp hstep
    obtain ⟨hfin, more, hring', hr', hpop⟩ := hr.step hring hreplay
    rw [hfin] at hc
    exact ⟨pushed ++ more, popped, hring', hr', hc.mono hring.le hpop⟩
  | consumer =>
    obtain ⟨⟨ring', c'⟩, hconsumer, rfl⟩ := Option.map_eq_some_iff.mp hstep
    obtain ⟨later, hring', hc', hpush⟩ := hc.step hring hconsumer
    exact ⟨pushed, later, hring', hr.mono hpush, hc'⟩

/-- When the loop is left, everything has been applied and every call made. -/
theorem Inv.done (h : s.Inv kGpuBatch lobSoa file) (hdone : s.consumer.pc = .done) :
    s.consumer.applied = Csv.pushes file ∧
      s.consumer.calls = processCalls kGpuBatch lobSoa (Csv.pushes file) := by
  obtain ⟨pushed, popped, hring, hr, hc⟩ := h
  have hpc := hc.pc
  have htaken := hc.taken
  have hcalls := hc.calls
  unfold Consumer.CallsOk at hcalls
  rw [hdone] at hpc htaken hcalls
  obtain ⟨hfin, rfl⟩ := hpc
  rw [hfin] at hr
  have happlied : s.consumer.applied = Csv.pushes file := by
    rw [← hr.pushed_eq, ← List.take_length (l := pushed), ← htaken]
    exact (List.append_nil _).symm
  exact ⟨happlied, by rw [← happlied]; exact hcalls⟩

end Backtest

/-- A schedule that runs to completion applies the updates of the file, in order
and each once, and calls `process_signal` after every full batch and once more
when the last is not full.  What the calls see is the same in every schedule. -/
theorem backtest_schedule (kGpuBatch : Nat) (lobSoa : LobSoA K) (file : List UInt8) {m : Nat}
    {slots : Nat → LobUpdate K} {es : List BacktestEvent} {s : Backtest K}
    (hrun : Machine.run (Backtest.step kGpuBatch)
      (Backtest.init (2 ^ (m + 1)) slots lobSoa file) es = some s)
    (hdone : s.consumer.pc = .done) :
    s.consumer.applied = Csv.pushes file ∧
      s.consumer.calls = processCalls kGpuBatch lobSoa (Csv.pushes file) ∧
      ∀ (m' : Nat) (slots' : Nat → LobUpdate K) (es' : List BacktestEvent) (s' : Backtest K),
        Machine.run (Backtest.step kGpuBatch)
          (Backtest.init (2 ^ (m' + 1)) slots' lobSoa file) es' = some s' →
        s'.consumer.pc = .done → s'.consumer.calls = s.consumer.calls := by
  have hinv : ∀ (m' : Nat) (slots' : Nat → LobUpdate K) (es' : List BacktestEvent)
      (s' : Backtest K), Machine.run (Backtest.step kGpuBatch)
        (Backtest.init (2 ^ (m' + 1)) slots' lobSoa file) es' = some s' →
      s'.Inv kGpuBatch lobSoa file := fun m' slots' _ _ hrun' =>
    Machine.run_inv_all (fun _ _ _ h hstep => h.step hstep) (Backtest.init_inv m' slots') hrun'
  obtain ⟨happlied, hcalls⟩ := (hinv m slots es s hrun).done hdone
  refine ⟨happlied, hcalls, fun m' slots' es' s' hrun' hdone' => ?_⟩
  rw [((hinv m' slots' es' s' hrun').done hdone').2, hcalls]

/-- The rows `7,0,1,1,2,1` and `8,0,3,1,4,1` through a ring of one element, in
batches of three. -/
theorem backtest_schedule_two_rows :
    let start : Backtest ℚ := .init (2 ^ 1) (fun _ => ⟨0, 0, 0, 0, 0, .bid⟩) (.init 1 1)
      [55, 44, 48, 44, 49, 44, 49, 44, 50, 44, 49, 10,
        56, 44, 48, 44, 51, 44, 49, 44, 52, 44, 49, 10]
    let es := (List.replicate 26 [BacktestEvent.replay, .consumer]).flatten ++
      List.replicate 7 .consumer
    ∃ s, Machine.run (Backtest.step 3) start es = some s ∧
      s.consumer.calls.map Prod.fst = [3, 4] := by
  intro start es
  obtain ⟨s, hrun, hdone⟩ := Machine.exists_of_elim (o := Machine.run (Backtest.step 3) start es)
    (P := fun s => s.consumer.pc = .done) (by decide +kernel)
  refine ⟨s, hrun, ?_⟩
  rw [(backtest_schedule 3 _ _ hrun hdone).2.1]
  decide +kernel

end HoloMarket
