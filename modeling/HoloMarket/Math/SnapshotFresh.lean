import HoloMarket.Core.LobStores
import HoloMarket.Lib.Seqlock
import HoloMarket.Math.GpuLobMirror
import Mathlib.Algebra.Order.Field.Rat
import Mathlib.Tactic.IntervalCases

/-!
# Snapshots are whole and fresh

The sequence counter is odd exactly while `apply` is inside its stores, and the
generation counts an update only after them.  So a copy between two equal even
counters is the book after some first part of the calls, and that part holds
every update of the generation read before.
-/

namespace HoloMarket

variable {K : Type*}

/-! ## The feed thread -/

/-- Whether the counter is even, and the arrays of the book, as the reader sees
them cell by cell. -/
def bookCell (p : BookArray × Nat) (lob : LobSoA K) : Option K :=
  (lob.arrays.get p.1)[p.2]?

namespace BookArrays

variable {b c : BookArrays K}

theorem ext_get (h : ∀ a, b.get a = c.get a) : b = c := by
  obtain ⟨b₁, b₂, b₃, b₄⟩ := b
  obtain ⟨c₁, c₂, c₃, c₄⟩ := c
  obtain rfl : b₁ = c₁ := h .bidPrices
  obtain rfl : b₂ = c₂ := h .askPrices
  obtain rfl : b₃ = c₃ := h .bidQtys
  obtain rfl : b₄ = c₄ := h .askQtys
  rfl

theorem get_ofFn (f : BookArray → List K) (a : BookArray) : (ofFn f).get a = f a := by
  cases a <;> rfl

theorem get_put (xs : List K) (a a' : BookArray) :
    (b.put xs a).get a' = if a' = a then xs else b.get a' := by
  cases a <;> cases a' <;> rfl

end BookArrays

/-! ## Inside `apply` -/

namespace LobSoA

/-- `apply` has made the first `m` of its stores. -/
def partway (lob : LobSoA K) (u : LobUpdate K) (m : Nat) : LobSoA K :=
  (Store.all.take m).foldl (store u) lob

variable {lob : LobSoA K} {u : LobUpdate K} {m : Nat}

theorem partway_seq (hm : m < 8) :
    (lob.partway u m).seq = lob.seq + if m = 0 then 0 else if m < 7 then 1 else 2 := by
  rw [partway, foldl_store_seq]
  interval_cases m <;> rfl

theorem partway_total (hm : m < 8) :
    (lob.partway u m).stats.totalUpdates = lob.stats.totalUpdates := by
  rw [partway, foldl_store_total]
  interval_cases m <;> rfl

variable (lob u) in
theorem partway_succ {st : Store} {rest : List Store} (h : st :: rest = Store.all.drop m) :
    lob.partway u (m + 1) = (lob.partway u m).store u st ∧ rest = Store.all.drop (m + 1) := by
  have hst : Store.all[m]? = some st := by
    rw [← List.head?_drop, ← h]
    rfl
  constructor
  · rw [partway, List.take_add_one, hst, List.foldl_append]
    rfl
  · rw [← List.tail_drop, ← h]
    rfl

theorem partway_all (hu : lob.inRange u) : lob.partway u 8 = lob.apply u :=
  (if_pos hu).symm

/-- After the second look of the counter only the count is missing. -/
theorem partway_seven_arrays (hu : lob.inRange u) :
    (lob.partway u 7).arrays = (lob.apply u).arrays := by
  have hlast : [Store.totalUpdates] = Store.all.drop 7 := rfl
  rw [← partway_all hu, (partway_succ lob u hlast).1]
  exact (store_arrays ⟨by decide, by decide⟩).symm

end LobSoA

/-! ## The feed thread -/

/-- The book against the calls: between two calls, or partway into one. -/
structure Feed.Ok (lob₀ : LobSoA K) (f : Feed K) : Prop where
  idle : f.running = none → f.lob = f.completed.foldl LobSoA.apply lob₀
  busy : ∀ u rest, f.running = some (u, rest) → lob₀.inRange u ∧ ∃ m, m < 8 ∧
    rest = LobSoA.Store.all.drop m ∧
    f.lob = (f.completed.foldl LobSoA.apply lob₀).partway u m

/-- The calls that were entered. -/
def Feed.calls (f : Feed K) : List (LobUpdate K) :=
  f.completed ++ (f.running.map Prod.fst).toList

/-- What the reader may assume of a step of the feed thread. -/
structure Feed.Moves (f f' : Feed K) : Prop where
  guarded : Seqlock.Guarded LobSoA.seq bookCell f.lob f'.lob
  completed : f.completed <+: f'.completed
  calls : f.calls <+: f'.calls

section Feed

variable {lob₀ : LobSoA K} {f f' : Feed K} {u : LobUpdate K}

variable (lob₀ u) in
theorem inRange_foldl_apply (calls : List (LobUpdate K)) :
    (calls.foldl LobSoA.apply lob₀).inRange u ↔ lob₀.inRange u :=
  LobSoA.inRange_congr (LobSoA.foldl_apply_dims calls).1 (LobSoA.foldl_apply_dims calls).2

/-- The generation counts the accepted calls that are complete. -/
theorem Feed.Ok.total (h : f.Ok lob₀) :
    f.lob.stats.totalUpdates = lob₀.stats.totalUpdates + accepted lob₀ f.completed := by
  cases hr : f.running with
  | none => rw [h.idle hr, LobSoA.foldl_apply_total]
  | some r =>
    obtain ⟨-, m, hm, -, hlob⟩ := h.busy r.1 r.2 hr
    rw [hlob, LobSoA.partway_total hm, LobSoA.foldl_apply_total]

theorem Feed.Ok.length (h : f.Ok lob₀) (a : BookArray) :
    (f.lob.arrays.get a).length = (lob₀.arrays.get a).length := by
  cases hr : f.running with
  | none => rw [h.idle hr, LobSoA.length_foldl_apply]
  | some r =>
    obtain ⟨-, m, -, -, hlob⟩ := h.busy r.1 r.2 hr
    rw [hlob, LobSoA.partway, LobSoA.length_foldl_store, LobSoA.length_foldl_apply]

/-- While the counter is even, the arrays are those after some first part of the
calls, which holds the complete ones. -/
theorem Feed.Ok.whole (h : f.Ok lob₀) (h₀ : lob₀.seq = 0) (heven : f.lob.seq % 2 = 0) :
    ∃ k, f.completed.length ≤ k ∧ k ≤ f.calls.length ∧
      f.lob.arrays = ((f.calls.take k).foldl LobSoA.apply lob₀).arrays := by
  have hlen : f.completed.length ≤ f.calls.length := by
    rw [calls, List.length_append]
    omega
  have htake : f.calls.take f.completed.length = f.completed := List.take_left
  cases hr : f.running with
  | none =>
    refine ⟨f.completed.length, Nat.le_refl _, hlen, ?_⟩
    rw [htake, h.idle hr]
  | some r =>
    obtain ⟨hu, m, hm, -, hlob⟩ := h.busy r.1 r.2 hr
    rw [hlob, LobSoA.partway_seq hm, LobSoA.foldl_apply_seq, h₀] at heven
    by_cases hzero : m = 0
    · refine ⟨f.completed.length, Nat.le_refl _, hlen, ?_⟩
      rw [htake, hlob, hzero]
      rfl
    · have hseven : m = 7 := by
        rw [if_neg hzero] at heven
        split_ifs at heven <;> omega
      have hcalls : f.calls = f.completed ++ [r.1] := by rw [calls, hr]; rfl
      refine ⟨f.calls.length, hlen, Nat.le_refl _, ?_⟩
      rw [List.take_length, hlob, hseven, hcalls, List.foldl_append,
        LobSoA.partway_seven_arrays ((inRange_foldl_apply lob₀ _ f.completed).mpr hu)]
      rfl

theorem Feed.Ok.enter (h : f.Ok lob₀) (hstep : f.enter u = some f') :
    f'.Ok lob₀ ∧ f.Moves f' := by
  unfold Feed.enter at hstep
  cases hr : f.running with
  | some r =>
    rw [hr] at hstep
    cases hstep
  | none =>
    have hlob := h.idle hr
    have hin := inRange_foldl_apply lob₀ u f.completed
    simp only [hr] at hstep
    rw [← hlob] at hin
    split at hstep
    · next hu =>
      cases hstep
      refine ⟨⟨(fun h => nomatch h), ?_⟩, ⟨Nat.le_refl _, fun _ _ => rfl⟩, List.prefix_rfl, ?_⟩
      · rintro _ _ ⟨⟩
        exact ⟨hin.mp hu, 0, by decide, rfl, hlob⟩
      · rw [calls, hr]
        exact ⟨[u], by rw [List.append_assoc]; rfl⟩
    · next hu =>
      cases hstep
      refine ⟨⟨fun _ => ?_, fun v rest hv => ?_⟩, ⟨Nat.le_refl _, fun _ _ => rfl⟩,
        List.prefix_append _ _, ?_⟩
      · rw [List.foldl_append, ← hlob]
        exact (if_neg hu).symm
      · exact nomatch hv
      · rw [calls, hr]
        show f.completed ++ [] <+: (f.completed ++ [u]) ++ []
        rw [List.append_nil, List.append_nil]
        exact List.prefix_append _ _

/-- A store touches the arrays only while the counter is odd. -/
theorem Feed.Ok.quiet (h : f.Ok lob₀) (h₀ : lob₀.seq = 0) {st : LobSoA.Store}
    {rest : List LobSoA.Store} (hr : f.running = some (u, st :: rest))
    (heven : f.lob.seq % 2 = 0) : (f.lob.store u st).arrays = f.lob.arrays := by
  obtain ⟨-, m, hm, hrest, hlob⟩ := h.busy u _ hr
  refine LobSoA.store_arrays ?_
  rw [hlob, LobSoA.partway_seq hm, LobSoA.foldl_apply_seq, h₀] at heven
  have hm' : m = 0 ∨ m = 7 := by
    split_ifs at heven <;> omega
  rcases hm' with rfl | rfl <;> cases hrest <;> exact ⟨by decide, by decide⟩

theorem Feed.Ok.store (h : f.Ok lob₀) (h₀ : lob₀.seq = 0) (hstep : f.store = some f') :
    f'.Ok lob₀ ∧ f.Moves f' := by
  unfold Feed.store at hstep
  cases hr : f.running with
  | none =>
    rw [hr] at hstep
    cases hstep
  | some r =>
    obtain ⟨u, sts⟩ := r
    cases sts with
    | nil =>
      rw [hr] at hstep
      cases hstep
    | cons st rest =>
      obtain ⟨hu, m, hm, hrest, hlob⟩ := h.busy u _ hr
      obtain ⟨hnext, hdrop⟩ :=
        LobSoA.partway_succ (f.completed.foldl LobSoA.apply lob₀) u hrest
      have hguard : Seqlock.Guarded LobSoA.seq bookCell f.lob (f.lob.store u st) := by
        refine ⟨?_, fun heven p => ?_⟩
        · rw [LobSoA.store_seq]
          exact Nat.le_add_right _ _
        · unfold bookCell
          rw [h.quiet h₀ hr heven]
      rw [hr] at hstep
      cases rest with
      | nil =>
        cases hstep
        have hseven : m = 7 := by
          have hlen := congrArg List.length hdrop
          rw [List.length_drop] at hlen
          have hall : LobSoA.Store.all.length = 8 := rfl
          simp only [List.length_nil] at hlen
          omega
        refine ⟨⟨fun _ => ?_, fun _ _ hv => nomatch hv⟩, hguard, List.prefix_append _ _, ?_⟩
        · rw [List.foldl_append, hlob, ← hnext, hseven]
          exact LobSoA.partway_all ((inRange_foldl_apply lob₀ _ f.completed).mpr hu)
        · rw [Feed.calls, hr, Feed.calls]
          exact ⟨[], rfl⟩
      | cons st' rest =>
        cases hstep
        refine ⟨⟨(fun hv => nomatch hv), ?_⟩, hguard, List.prefix_rfl, ?_⟩
        · rintro _ _ ⟨⟩
          have hlt : m + 1 < 8 := by
            have hlen := congrArg List.length hdrop
            rw [List.length_drop] at hlen
            have hall : LobSoA.Store.all.length = 8 := rfl
            simp only [List.length_cons] at hlen
            omega
          exact ⟨hu, m + 1, hlt, hdrop, by rw [hnext, hlob]⟩
        · rw [Feed.calls, hr]
          exact ⟨[], List.append_nil _⟩

end Feed

/-! ## The pipeline thread -/

/-- The arrays are those after some first part of the calls, in which the first
`gen` accepted ones are. -/
def Fresh (lob₀ : LobSoA K) (calls : List (LobUpdate K)) (gen : Nat) (arrays : BookArrays K) :
    Prop :=
  ∃ k, k ≤ calls.length ∧ gen ≤ accepted lob₀ (calls.take k) ∧
    arrays = ((calls.take k).foldl LobSoA.apply lob₀).arrays

/-- The staging buffers, cell by cell. -/
def stageCell (b : BookArrays K) (p : BookArray × Nat) : Option K := (b.get p.1)[p.2]?

/-- What the pipeline thread knows inside an attempt that read `seq1`. -/
structure Attempt (lob₀ : LobSoA K) (f : Feed K) (m : GpuLobMirror K) (gen attempt seq1 : Nat)
    (todo : List (BookArray × Nat)) : Prop where
  gen : gen ≤ accepted lob₀ f.completed
  attempt : attempt ≤ kMaxSeqlockRetries
  copied : seq1 % 2 = 0 →
    Seqlock.Copied LobSoA.seq bookCell seq1 f.lob (stageCell m.stage) todo
  bound : ∀ p ∈ todo, p.2 < m.nFloats

/-- What it knows once it has left the retry loop. -/
structure Staged (lob₀ : LobSoA K) (f : Feed K) (m : GpuLobMirror K) (gen : Nat)
    (forced : Bool) : Prop where
  fresh : forced = false → Fresh lob₀ f.calls gen m.stage
  counted : forced = true → 0 < m.metrics.forcedAfterMaxRetries

/-- What it knows where it stands. -/
def TransferPc.Ok (lob₀ : LobSoA K) (f : Feed K) (m : GpuLobMirror K) (last : Nat) :
    TransferPc → Prop
  | .loadGen => True
  | .skipped gen => gen = last
  | .loadSeq1 gen attempt =>
    gen ≤ accepted lob₀ f.completed ∧ attempt ≤ kMaxSeqlockRetries
  | .copy gen attempt seq1 todo => Attempt lob₀ f m gen attempt seq1 todo
  | .loadSeq2 gen attempt seq1 => Attempt lob₀ f m gen attempt seq1 []
  | .staged gen attempts forced =>
    attempts ≤ kMaxSeqlockRetries + 1 ∧ Staged lob₀ f m gen forced
  | .push gen forced todo =>
    Staged lob₀ f m gen forced ∧ ∀ a, a ∉ todo → m.device.get a = m.stage.get a

/-- The thread is writing to the device. -/
def TransferPc.isPush : TransferPc → Prop
  | .push _ _ _ => True
  | _ => False

structure Transfer.Ok (lob₀ : LobSoA K) (f : Feed K) (t : Transfer K) : Prop where
  nFloats : ∀ a, (lob₀.arrays.get a).length = t.mirror.nFloats
  stage : ∀ a, (t.mirror.stage.get a).length = t.mirror.nFloats
  pc : t.pc.Ok lob₀ f t.mirror t.lastLobGeneration
  device : ¬ t.pc.isPush → t.mirror.metrics.forcedAfterMaxRetries = 0 →
    0 < t.lastLobGeneration → Fresh lob₀ f.calls t.lastLobGeneration t.mirror.device

section Transfer

variable {lob₀ : LobSoA K} {f f' : Feed K} {t : Transfer K} {m : GpuLobMirror K}
  {gen attempt seq1 : Nat} {todo : List (BookArray × Nat)} {arrays : BookArrays K}

theorem accepted_mono {xs ys : List (LobUpdate K)} (h : xs <+: ys) :
    accepted lob₀ xs ≤ accepted lob₀ ys :=
  h.sublist.countP_le

theorem Fresh.mono {calls calls' : List (LobUpdate K)} (h : Fresh lob₀ calls gen arrays)
    (hcalls : calls <+: calls') : Fresh lob₀ calls' gen arrays := by
  obtain ⟨k, hk, hgen, harrays⟩ := h
  obtain ⟨more, rfl⟩ := hcalls
  refine ⟨k, ?_, ?_, ?_⟩
  · rw [List.length_append]
    omega
  · rw [List.take_append_of_le_length hk]
    exact hgen
  · rw [List.take_append_of_le_length hk]
    exact harrays

/-! ### What the feed thread does to it -/

theorem Attempt.feed (h : Attempt lob₀ f m gen attempt seq1 todo) (hf : f.Moves f') :
    Attempt lob₀ f' m gen attempt seq1 todo where
  gen := Nat.le_trans h.gen (accepted_mono hf.completed)
  attempt := h.attempt
  copied heven := (h.copied heven).write heven hf.guarded
  bound := h.bound

theorem Staged.feed {forced : Bool} (h : Staged lob₀ f m gen forced) (hf : f.Moves f') :
    Staged lob₀ f' m gen forced :=
  ⟨fun hforced => (h.fresh hforced).mono hf.calls, h.counted⟩

theorem Transfer.Ok.feed (h : t.Ok lob₀ f) (hf : f.Moves f') : t.Ok lob₀ f' where
  nFloats := h.nFloats
  stage := h.stage
  device hpush hforced hlast := (h.device hpush hforced hlast).mono hf.calls
  pc := by
    have hpc := h.pc
    revert hpc
    cases t.pc with
    | loadGen => exact id
    | skipped gen => exact id
    | loadSeq1 gen attempt =>
      exact fun hpc => ⟨Nat.le_trans hpc.1 (accepted_mono hf.completed), hpc.2⟩
    | copy gen attempt seq1 todo => exact fun hpc => Attempt.feed hpc hf
    | loadSeq2 gen attempt seq1 => exact fun hpc => Attempt.feed hpc hf
    | staged gen attempts forced => exact fun hpc => ⟨hpc.1, hpc.2.feed hf⟩
    | push gen forced todo => exact fun hpc => ⟨hpc.1.feed hf, hpc.2⟩

/-! ### What it does itself -/

theorem mem_memcpySteps {n : Nat} {p : BookArray × Nat} : p ∈ memcpySteps n ↔ p.2 < n := by
  obtain ⟨a, i⟩ := p
  have ha : a ∈ BookArray.all := by cases a <;> decide
  simp [memcpySteps, ha]

theorem Attempt.start (hf : f.Ok lob₀) (hn : ∀ a, (lob₀.arrays.get a).length = m.nFloats)
    (hstage : ∀ a, (m.stage.get a).length = m.nFloats) (hgen : gen ≤ accepted lob₀ f.completed)
    (hattempt : attempt ≤ kMaxSeqlockRetries) :
    Attempt lob₀ f m gen attempt f.lob.seq (memcpySteps m.nFloats) where
  gen := hgen
  attempt := hattempt
  copied _ := by
    refine ⟨Nat.le_refl _, fun _ p hp => ?_⟩
    rw [mem_memcpySteps, Nat.not_lt] at hp
    unfold stageCell bookCell
    rw [List.getElem?_eq_none (by rw [hstage]; exact hp),
      List.getElem?_eq_none (by rw [hf.length, hn]; exact hp)]
  bound p hp := mem_memcpySteps.mp hp

theorem copyElement_eq (hf : f.Ok lob₀) (hn : ∀ a, (lob₀.arrays.get a).length = t.mirror.nFloats)
    {a : BookArray} {i : Nat} (hi : i < t.mirror.nFloats) :
    ∃ x, (f.lob.arrays.get a)[i]? = some x ∧
      t.copyElement f.lob a i =
        t.mirror.stage.put ((t.mirror.stage.get a).set i x) a := by
  have hlt : i < (f.lob.arrays.get a).length := by rw [hf.length, hn]; exact hi
  refine ⟨_, List.getElem?_eq_getElem hlt, ?_⟩
  rw [Transfer.copyElement, List.getElem?_eq_getElem hlt]

theorem length_copyElement (lob : LobSoA K) (a a' : BookArray) (i : Nat) :
    ((t.copyElement lob a i).get a').length = (t.mirror.stage.get a').length := by
  unfold Transfer.copyElement
  split
  · rfl
  · rw [BookArrays.get_put]
    split
    · next h => rw [List.length_set, h]
    · rfl

theorem Attempt.read {a : BookArray} {i : Nat} (hf : f.Ok lob₀)
    (hn : ∀ a, (lob₀.arrays.get a).length = t.mirror.nFloats)
    (hstage : ∀ a, (t.mirror.stage.get a).length = t.mirror.nFloats)
    (h : Attempt lob₀ f t.mirror gen attempt seq1 ((a, i) :: todo)) :
    Attempt lob₀ f { t.mirror with stage := t.copyElement f.lob a i } gen attempt seq1 todo where
  gen := h.gen
  attempt := h.attempt
  copied heven := by
    have hi := h.bound (a, i) List.mem_cons_self
    obtain ⟨x, hx, hstep⟩ := copyElement_eq hf hn hi (a := a)
    refine (h.copied heven).read ?_ fun p hp => ?_
    · show ((t.copyElement f.lob a i).get a)[i]? = (f.lob.arrays.get a)[i]?
      rw [hstep, BookArrays.get_put, if_pos rfl, hx]
      exact List.getElem?_set_self (by rw [hstage]; exact hi)
    · show ((t.copyElement f.lob a i).get p.1)[p.2]? = (t.mirror.stage.get p.1)[p.2]?
      rw [hstep, BookArrays.get_put]
      split
      · next ha =>
        rw [List.getElem?_set_ne fun hip => hp (Prod.ext ha hip.symm), ha]
      · rfl
  bound p hp := h.bound p (List.mem_cons_of_mem _ hp)

/-- The attempt that finds the counter even and unmoved. -/
theorem Attempt.fresh (hf : f.Ok lob₀) (h₀ : lob₀.seq = 0)
    (h : Attempt lob₀ f m gen attempt seq1 []) (heven : seq1 % 2 = 0)
    (hseq : seq1 = f.lob.seq) : Fresh lob₀ f.calls gen m.stage := by
  have hstage : m.stage = f.lob.arrays :=
    BookArrays.ext_get fun a => List.ext_getElem? fun i =>
      (h.copied heven).done hseq.symm (a, i)
  obtain ⟨k, hle, hk, harrays⟩ := hf.whole h₀ (hseq ▸ heven)
  refine ⟨k, hk, Nat.le_trans h.gen (accepted_mono ?_), hstage.trans harrays⟩
  have hcompleted : f.completed = f.calls.take f.completed.length := List.take_left.symm
  rw [hcompleted]
  exact List.take_prefix_take_left hle

theorem device_eq_stage (h : ∀ a, a ∉ ([] : List BookArray) → m.device.get a = m.stage.get a) :
    m.device = m.stage :=
  BookArrays.ext_get fun a => h a List.not_mem_nil

theorem Transfer.Ok.step (hf : f.Ok lob₀) (h₀ : lob₀.seq = 0)
    (htotal : lob₀.stats.totalUpdates = 0) (h : t.Ok lob₀ f) : (t.step f.lob).Ok lob₀ f := by
  obtain ⟨mirror, last, pc⟩ := t
  obtain ⟨hn, hstage, hpc, hdevice⟩ := h
  cases pc with
  | loadGen =>
    refine ⟨hn, hstage, ?_, fun _ => hdevice id⟩
    have hgen : f.lob.stats.totalUpdates ≤ accepted lob₀ f.completed := by
      rw [hf.total, htotal, Nat.zero_add]
    show TransferPc.Ok lob₀ f mirror last (if _ then _ else _)
    split
    · next hlast => exact hlast
    · exact ⟨hgen, Nat.zero_le _⟩
  | skipped gen => exact ⟨hn, hstage, trivial, fun _ => hdevice id⟩
  | loadSeq1 gen attempt =>
    simp only [Transfer.step]
    split
    · exact ⟨hn, hstage, .start hf hn hstage hpc.1 hpc.2, fun _ => hdevice id⟩
    · next hbusy =>
      refine ⟨hn, hstage, ⟨hpc.1, ?_⟩, fun _ => hdevice id⟩
      have hattempt := (not_or.mp hbusy).2
      omega
  | copy gen attempt seq1 todo =>
    cases todo with
    | nil => exact ⟨hn, hstage, hpc, fun _ => hdevice id⟩
    | cons p todo =>
      refine ⟨hn, fun a' => ?_, Attempt.read hf hn hstage hpc, fun _ => hdevice id⟩
      exact (length_copyElement ..).trans (hstage a')
  | loadSeq2 gen attempt seq1 =>
    have hatt : Attempt lob₀ f mirror gen attempt seq1 [] := hpc
    have hattempt := hatt.attempt
    simp only [Transfer.step]
    split
    · refine ⟨hn, hstage, ⟨by omega, (fun hf => nomatch hf), fun _ => Nat.succ_pos _⟩, ?_⟩
      exact fun _ hzero => absurd hzero (Nat.succ_ne_zero _)
    · next hgive =>
      split
      · next hclean =>
        have hfresh : Fresh lob₀ f.calls gen mirror.stage :=
          hatt.fresh hf h₀ hclean.1 hclean.2
        exact ⟨hn, hstage, ⟨by omega, fun _ => hfresh, (fun hf => nomatch hf)⟩,
          fun _ => hdevice id⟩
      · next hclean =>
        refine ⟨hn, hstage, ⟨hatt.gen, ?_⟩, fun _ => hdevice id⟩
        omega
  | staged gen attempts forced =>
    refine ⟨hn, hstage, ⟨hpc.2, fun a ha => ?_⟩, fun hpush => absurd trivial hpush⟩
    exact absurd (by cases a <;> decide) ha
  | push gen forced todo =>
    obtain ⟨hstaged, hcopied⟩ := hpc
    cases todo with
    | nil =>
      refine ⟨hn, hstage, trivial, fun _ hzero _ => ?_⟩
      show Fresh lob₀ f.calls gen mirror.device
      rw [device_eq_stage hcopied]
      refine hstaged.fresh ?_
      cases forced with
      | false => rfl
      | true => exact absurd hzero (Nat.ne_of_gt (hstaged.counted rfl))
    | cons a todo =>
      refine ⟨hn, hstage, ⟨⟨hstaged.fresh, hstaged.counted⟩, fun a' ha' => ?_⟩,
        fun hpush => absurd trivial hpush⟩
      show (mirror.device.put (mirror.stage.get a) a).get a' = mirror.stage.get a'
      rw [BookArrays.get_put]
      split
      · next heq => rw [heq]
      · next hne => exact hcopied a' fun hmem => (List.mem_cons.mp hmem).elim hne ha'

end Transfer

/-! ## The retry loop ends -/

/-- The thread is inside the retry loop of `stage_snapshot`. -/
def TransferPc.inLoop : TransferPc → Prop
  | .loadSeq1 _ _ => True
  | .copy _ _ _ _ => True
  | .loadSeq2 _ _ _ => True
  | _ => False

/-- The steps the thread may still take inside the loop, when an attempt copies
`n` elements. -/
def TransferPc.budget (n : Nat) : TransferPc → Nat
  | .loadSeq1 _ attempt => (kMaxSeqlockRetries + 1 - attempt) * (n + 3)
  | .copy _ attempt _ todo => (kMaxSeqlockRetries - attempt) * (n + 3) + todo.length + 2
  | .loadSeq2 _ attempt _ => (kMaxSeqlockRetries - attempt) * (n + 3) + 1
  | _ => 0

theorem length_memcpySteps (n : Nat) : (memcpySteps n).length = 4 * n := by
  simp [memcpySteps, BookArray.all]
  omega

/-- Every step inside the loop uses up some of the budget. -/
theorem Transfer.budget_step (t : Transfer K) (lob : LobSoA K) (hloop : t.pc.inLoop)
    (hattempt : ∀ gen attempt, t.pc = .loadSeq1 gen attempt → attempt ≤ kMaxSeqlockRetries) :
    (t.step lob).pc.budget (4 * t.mirror.nFloats) < t.pc.budget (4 * t.mirror.nFloats) := by
  obtain ⟨mirror, last, pc⟩ := t
  cases pc with
  | loadSeq1 gen attempt =>
    have hle := hattempt gen attempt rfl
    have hsplit : (kMaxSeqlockRetries + 1 - attempt) * (4 * mirror.nFloats + 3) =
        (kMaxSeqlockRetries - attempt) * (4 * mirror.nFloats + 3) + (4 * mirror.nFloats + 3) := by
      rw [Nat.succ_sub hle, Nat.succ_mul]
    simp only [Transfer.step]
    split
    · show (kMaxSeqlockRetries - attempt) * _ + (memcpySteps mirror.nFloats).length + 2 <
        (kMaxSeqlockRetries + 1 - attempt) * (4 * mirror.nFloats + 3)
      rw [length_memcpySteps, hsplit]
      omega
    · show (kMaxSeqlockRetries + 1 - (attempt + 1)) * _ <
        (kMaxSeqlockRetries + 1 - attempt) * (4 * mirror.nFloats + 3)
      rw [hsplit, Nat.add_sub_add_right]
      omega
  | copy gen attempt seq1 todo =>
    cases todo with
    | nil => exact Nat.lt_succ_self _
    | cons p todo =>
      show (kMaxSeqlockRetries - attempt) * _ + todo.length + 2 <
        (kMaxSeqlockRetries - attempt) * _ + (todo.length + 1) + 2
      omega
  | loadSeq2 gen attempt seq1 =>
    simp only [Transfer.step]
    split
    · exact Nat.succ_pos _
    · split
      · exact Nat.succ_pos _
      · show (kMaxSeqlockRetries + 1 - (attempt + 1)) * _ <
          (kMaxSeqlockRetries - attempt) * (4 * mirror.nFloats + 3) + 1
        rw [Nat.add_sub_add_right]
        omega
  | loadGen => exact hloop.elim
  | skipped gen => exact hloop.elim
  | staged gen attempts forced => exact hloop.elim
  | push gen forced todo => exact hloop.elim

/-! ## Runs -/

/-- A step of the pipeline thread. -/
def MirrorEvent.isTransfer : MirrorEvent K → Bool
  | .transfer => true
  | _ => false

namespace MirrorState

variable {lob₀ : LobSoA K} {s s' : MirrorState K}

def Inv (lob₀ : LobSoA K) (s : MirrorState K) : Prop :=
  s.feed.Ok lob₀ ∧ s.transfer.Ok lob₀ s.feed

theorem Inv.step (h₀ : lob₀.seq = 0) (htotal : lob₀.stats.totalUpdates = 0) (h : s.Inv lob₀)
    {e : MirrorEvent K} (hstep : step s e = some s') : s'.Inv lob₀ := by
  obtain ⟨hf, ht⟩ := h
  cases e with
  | apply u =>
    obtain ⟨f, henter, rfl⟩ := Option.map_eq_some_iff.mp hstep
    obtain ⟨hf', hmoves⟩ := hf.enter henter
    exact ⟨hf', ht.feed hmoves⟩
  | store =>
    obtain ⟨f, hstore, rfl⟩ := Option.map_eq_some_iff.mp hstep
    obtain ⟨hf', hmoves⟩ := hf.store h₀ hstore
    exact ⟨hf', ht.feed hmoves⟩
  | transfer =>
    cases hstep
    exact ⟨hf, ht.step hf h₀ htotal⟩

theorem init_inv [NatCast K] (nInstruments depth : Nat) (pinned : BookArray → Nat → K) :
    (init nInstruments depth pinned).Inv (.init nInstruments depth) := by
  refine ⟨⟨fun _ => rfl, fun _ _ h => nomatch h⟩, fun a => ?_, fun a => ?_, trivial, ?_⟩
  · cases a <;> exact List.length_replicate
  · show ((BookArrays.ofFn _).get a).length = _
    rw [BookArrays.get_ofFn, List.length_map, List.length_range]
    rfl
  · exact fun _ _ h => absurd h (Nat.lt_irrefl 0)

theorem Inv.attempt_le (h : s.Inv lob₀) {gen attempt : Nat}
    (hpc : s.transfer.pc = .loadSeq1 gen attempt) : attempt ≤ kMaxSeqlockRetries := by
  have hok := h.2.pc
  rw [hpc] at hok
  exact hok.2

/-- A run that stays in the retry loop is paid for by the budget. -/
theorem count_transfer_le (h₀ : lob₀.seq = 0) (htotal : lob₀.stats.totalUpdates = 0)
    (h : s.Inv lob₀) {es : List (MirrorEvent K)} (hrun : Machine.run step s es = some s')
    (hloop : Machine.RunOk step (fun s _ => s.transfer.pc.inLoop) s es) :
    es.countP MirrorEvent.isTransfer ≤
      s.transfer.pc.budget (4 * s.transfer.mirror.nFloats) := by
  induction es generalizing s with
  | nil => exact Nat.zero_le _
  | cons e es ih =>
    obtain ⟨s₁, hs₁, hrest⟩ := Option.bind_eq_some_iff.mp hrun
    have hinv := h.step h₀ htotal hs₁
    have hle := ih hinv hrest (hloop.tail hs₁)
    have hn : s₁.transfer.mirror.nFloats = s.transfer.mirror.nFloats :=
      (hinv.2.nFloats .bidPrices).symm.trans (h.2.nFloats .bidPrices)
    rw [hn] at hle
    rw [List.countP_cons]
    cases e with
    | apply u =>
      obtain ⟨f, -, rfl⟩ := Option.map_eq_some_iff.mp hs₁
      exact hle
    | store =>
      obtain ⟨f, -, rfl⟩ := Option.map_eq_some_iff.mp hs₁
      exact hle
    | transfer =>
      cases hs₁
      have hlt := s.transfer.budget_step s.feed.lob hloop.1 fun _ _ hpc => h.attempt_le hpc
      exact Nat.lt_of_le_of_lt hle hlt

end MirrorState

/-- Snapshots are whole and never stale.  In every interleaving the retry loop
makes at most 65 attempts, and so is left after boundedly many steps of the
pipeline thread; left without force, the staging buffers are the arrays after
some first part of the calls with all of the first `gen` updates in it; and a
push that is skipped finds such arrays on the device, unless one was forced. -/
theorem snapshot_whole_fresh [NatCast K] (nInstruments depth : Nat)
    (pinned : BookArray → Nat → K) {es : List (MirrorEvent K)} {s : MirrorState K}
    (hrun : Machine.run MirrorState.step (.init nInstruments depth pinned) es = some s) :
    (∀ gen attempts forced, s.transfer.pc = .staged gen attempts forced →
      attempts ≤ kMaxSeqlockRetries + 1 ∧
        (forced = false →
          Fresh (.init nInstruments depth) s.feed.calls gen s.transfer.mirror.stage)) ∧
    (∀ gen, s.transfer.pc = .loadSeq1 gen 0 → ∀ es' s',
      Machine.run MirrorState.step s es' = some s' →
      Machine.RunOk MirrorState.step (fun s _ => s.transfer.pc.inLoop) s es' →
      es'.countP MirrorEvent.isTransfer ≤
        (kMaxSeqlockRetries + 1) * (4 * s.transfer.mirror.nFloats + 3)) ∧
    (s.transfer.mirror.metrics.forcedAfterMaxRetries = 0 →
      ∀ gen, s.transfer.pc = .skipped gen → 0 < gen →
        Fresh (.init nInstruments depth) s.feed.calls gen s.transfer.mirror.device) := by
  have hinv : s.Inv (.init nInstruments depth) :=
    Machine.run_inv_all (fun _ _ _ h hstep => h.step rfl rfl hstep)
      (MirrorState.init_inv nInstruments depth pinned) hrun
  have hpc := hinv.2.pc
  refine ⟨fun gen attempts forced hstaged => ?_, fun gen hentry es' s' hrun' hloop => ?_,
    fun hforced gen hskip hgen => ?_⟩
  · rw [hstaged] at hpc
    exact ⟨hpc.1, hpc.2.fresh⟩
  · have hle := MirrorState.count_transfer_le rfl rfl hinv hrun' hloop
    rw [hentry] at hle
    exact hle
  · rw [hskip] at hpc
    have hpush : ¬ s.transfer.pc.isPush := by
      rw [hskip]
      exact id
    have hlast : gen = s.transfer.lastLobGeneration := hpc
    rw [hlast] at hgen ⊢
    exact hinv.2.device hpush hforced hgen

/-- A write that begins inside the copy costs two attempts. -/
theorem snapshot_whole_after_retry :
    let es : List (MirrorEvent ℚ) :=
      .apply ⟨5, 7, 2, 0, 0, .bid⟩ :: List.replicate 8 .store ++
        [.transfer, .transfer, .transfer, .apply ⟨6, 8, 3, 0, 0, .ask⟩, .store] ++
          List.replicate 6 .transfer ++ List.replicate 7 .store ++ List.replicate 7 .transfer
    ∃ s, Machine.run MirrorState.step (.init 1 1 fun _ _ => 0) es = some s ∧
      Fresh (.init 1 1) s.feed.calls 1 s.transfer.mirror.stage := by
  intro es
  obtain ⟨s, hrun, hpc⟩ := Machine.exists_of_elim
    (o := Machine.run MirrorState.step (.init 1 1 fun _ _ => 0) es)
    (P := fun s => s.transfer.pc = .staged 1 3 false) (by decide +kernel)
  exact ⟨s, hrun, ((snapshot_whole_fresh 1 1 _ hrun).1 1 3 false hpc).2 rfl⟩

end HoloMarket
