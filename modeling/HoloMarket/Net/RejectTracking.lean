import Mathlib.Algebra.Order.Ring.Rat
import Mathlib.Data.List.Induction
import HoloMarket.Net.BinanceGateway

/-!
# Which rejects reach the OMS

`pending_` is emptied whenever `run()` ends, also of requests whose frames are
still waiting in `queue_` for the next connection.  A reject is recorded exactly
when no run ended between the request and its response.
-/

namespace HoloMarket
namespace BinanceGateway

variable {F : Type*}

namespace Event

def isRequest : Event F → Bool
  | .sendOrder _ _ | .cancelOrder _ _ _ => true
  | _ => false

/-- The events that take the request `id` out of `pending_`: the end of a run,
and a response to it. -/
def drops (id : Nat) : Event F → Bool
  | .runThrows => true
  | .ack (some idStr) (some _) _ => fromChars idStr == some id
  | _ => false

end Event

/-- The order request `id` was made for `cid` and nothing has dropped it since.
Requests are numbered from one. -/
def TrackedSince (es : List (Event F)) (id : Nat) (cid : String) : Prop :=
  ∃ es₁ o signed es₂, es = es₁ ++ .sendOrder o signed :: es₂ ∧
    es₁.countP Event.isRequest + 1 = id ∧ o.cid = cid ∧ ∀ e ∈ es₂, e.drops id = false

/-- The request `id` was made to place `o`. -/
def SentAs (es : List (Event F)) (id : Nat) (o : OrderRequest F) : Prop :=
  ∃ es₁ es₂, es = es₁ ++ .sendOrder o true :: es₂ ∧ es₁.countP Event.isRequest + 1 = id

theorem trackedSince_concat {es : List (Event F)} {e : Event F} {id : Nat} {cid : String} :
    TrackedSince (es ++ [e]) id cid ↔
      (TrackedSince es id cid ∧ e.drops id = false) ∨
        ∃ o signed, e = .sendOrder o signed ∧ es.countP Event.isRequest + 1 = id ∧
          o.cid = cid := by
  constructor
  · rintro ⟨es₁, o, signed, es₂, heq, hid, hcid, hes₂⟩
    induction es₂ using List.reverseRecOn with
    | nil =>
      obtain ⟨h₁, h₂⟩ := List.append_inj' heq rfl
      subst h₁
      exact Or.inr ⟨o, signed, List.head_eq_of_cons_eq h₂, hid, hcid⟩
    | append_singleton es₂ e' _ =>
      have heq' : es ++ [e] = (es₁ ++ .sendOrder o signed :: es₂) ++ [e'] := by
        rw [heq]
        simp
      obtain ⟨h₁, h₂⟩ := List.append_inj' heq' rfl
      have he : e = e' := List.head_eq_of_cons_eq h₂
      refine Or.inl ⟨⟨es₁, o, signed, es₂, h₁, hid, hcid, fun x hx => ?_⟩, ?_⟩
      · exact hes₂ x (List.mem_append_left _ hx)
      · exact he ▸ hes₂ e' (by simp)
  · rintro (⟨⟨es₁, o, signed, es₂, rfl, hid, hcid, hes₂⟩, he⟩ | ⟨o, signed, rfl, hid, hcid⟩)
    · refine ⟨es₁, o, signed, es₂ ++ [e], by simp, hid, hcid, fun x hx => ?_⟩
      rcases List.mem_append.mp hx with hx | hx
      · exact hes₂ x hx
      · rw [List.mem_singleton.mp hx, he]
    · exact ⟨es, o, signed, [], rfl, hid, hcid, by simp⟩

theorem SentAs.concat {es : List (Event F)} {id : Nat} {o : OrderRequest F}
    (h : SentAs es id o) (e : Event F) : SentAs (es ++ [e]) id o := by
  obtain ⟨es₁, es₂, rfl, hid⟩ := h
  exact ⟨es₁, es₂ ++ [e], by simp, hid⟩

theorem TrackedSince.le {es : List (Event F)} {id : Nat} {cid : String}
    (h : TrackedSince es id cid) : id ≤ es.countP Event.isRequest := by
  obtain ⟨es₁, o, signed, es₂, rfl, rfl, -, -⟩ := h
  rw [List.countP_append, List.countP_cons_of_pos rfl]
  omega

theorem TrackedSince.cid_eq {es : List (Event F)} {id : Nat} {cid : String}
    {o : OrderRequest F} (h : TrackedSince es id cid) (hs : SentAs es id o) : cid = o.cid := by
  obtain ⟨es₁, o₁, signed, es₂, rfl, rfl, rfl, -⟩ := h
  obtain ⟨fs₁, fs₂, heq, hid⟩ := hs
  have hlen : es₁.length = fs₁.length := by
    have hcount : ∀ (xs ys xs' ys' : List (Event F)) (x y : Event F),
        xs ++ x :: ys = xs' ++ y :: ys' → x.isRequest = true →
        xs.countP Event.isRequest = xs'.countP Event.isRequest →
        ¬ xs.length < xs'.length := by
      intro xs ys xs' ys' x y h hx hc hlt
      obtain ⟨zs, rfl⟩ : xs ++ [x] <+: xs' := by
        have hleft : xs ++ [x] <+: xs ++ x :: ys := ⟨ys, by simp⟩
        have hright : xs' <+: xs ++ x :: ys := ⟨y :: ys', h.symm⟩
        refine List.prefix_of_prefix_length_le hleft hright ?_
        rw [List.length_append, List.length_singleton]
        omega
      rw [List.countP_append, List.countP_append, List.countP_singleton, if_pos hx] at hc
      omega
    have h₁ := hcount _ _ _ _ _ _ heq rfl (by omega)
    have h₂ := hcount _ _ _ _ _ _ heq.symm rfl (by omega)
    omega
  obtain ⟨-, h₂⟩ := List.append_inj heq hlen
  obtain ⟨rfl, -⟩ := Event.sendOrder.inj (List.head_eq_of_cons_eq h₂)
  rfl

/-! ## One step -/

/-- The frames posted, queued or written. -/
def Held (g : BinanceGateway F) (f : Frame F) : Prop :=
  f ∈ g.posted ∨ f ∈ g.queue ∨ f ∈ g.wire

/-- Nothing is requested and nothing dropped: frames only move on. -/
structure Quiet (g g' : BinanceGateway F) : Prop where
  msgId : g'.msgId = g.msgId
  pending : g'.pending = g.pending
  held : ∀ f, g'.Held f → g.Held f

namespace Quiet

variable {g g' g'' : BinanceGateway F}

theorem trans (h : Quiet g g') (h' : Quiet g' g'') : Quiet g g'' where
  msgId := h'.msgId.trans h.msgId
  pending := h'.pending.trans h.pending
  held f hf := h.held f (h'.held f hf)

/-- Writing puts the front of the queue on the wire and keeps it queued. -/
theorem doWrite (g : BinanceGateway F) : Quiet g g.doWrite := by
  unfold BinanceGateway.doWrite
  split
  · exact ⟨rfl, rfl, fun f hf => hf⟩
  · next f' rest hq =>
    split
    · refine ⟨rfl, rfl, fun f hf => ?_⟩
      rcases hf with hf | hf | hf
      · exact Or.inl hf
      · exact Or.inr (Or.inl hf)
      · rcases List.mem_append.mp hf with hf | hf
        · exact Or.inr (Or.inr hf)
        · refine Or.inr (Or.inl ?_)
          rw [List.mem_singleton.mp hf, hq]
          exact List.mem_cons_self
    · exact ⟨rfl, rfl, fun f hf => hf⟩

theorem runPosted (h : g.runPosted = some g') : Quiet g g' := by
  unfold BinanceGateway.runPosted at h
  split at h
  · cases h
  · next f' rest hp =>
    have hpush : Quiet g { g with posted := rest, queue := g.queue ++ [f'] } := by
      refine ⟨rfl, rfl, fun f hf => ?_⟩
      rcases hf with hf | hf | hf
      · exact Or.inl (hp ▸ List.mem_cons_of_mem _ hf)
      · rcases List.mem_append.mp hf with hf | hf
        · exact Or.inr (Or.inl hf)
        · refine Or.inl ?_
          rw [hp, List.mem_singleton.mp hf]
          exact List.mem_cons_self
      · exact Or.inr (Or.inr hf)
    cases h
    split
    · exact hpush.trans (doWrite _)
    · exact hpush

theorem writeDone {ok : Bool} (h : g.writeDone ok = some g') : Quiet g g' := by
  unfold BinanceGateway.writeDone at h
  split at h
  · cases h
  · have hpop : Quiet g { g with outstanding := g.outstanding - 1, queue := g.queue.tail } := by
      refine ⟨rfl, rfl, fun f hf => ?_⟩
      rcases hf with hf | hf | hf
      · exact Or.inl hf
      · exact Or.inr (Or.inl (List.mem_of_mem_tail hf))
      · exact Or.inr (Or.inr hf)
    cases h
    split
    · exact hpop.trans (doWrite _)
    · exact ⟨rfl, rfl, fun f hf => hf⟩

theorem startRun (h : g.startRun = some g') : Quiet g g' := by
  unfold BinanceGateway.startRun at h
  split at h <;> cases h
  refine ⟨rfl, rfl, fun f hf => ?_⟩
  rcases hf with hf | hf | hf
  · exact Or.inl hf
  · exact Or.inr (Or.inl hf)
  · exact absurd hf List.not_mem_nil

theorem handshakeDone (h : g.handshakeDone = some g') : Quiet g g' := by
  unfold BinanceGateway.handshakeDone at h
  split at h <;> cases h
  have hopen : Quiet g { g with phase := .reading, connected := true } :=
    ⟨rfl, rfl, fun f hf => hf⟩
  split
  · exact hopen
  · exact hopen.trans (doWrite _)

end Quiet

theorem trackPending_lookup (g : BinanceGateway F) {id : Nat}
    (hnew : g.pending.lookup id = none) (cid : String) (k : Nat) :
    (g.trackPending id cid).pending.lookup k = if k = id then some cid else g.pending.lookup k := by
  unfold trackPending
  rw [hnew]
  by_cases hk : k = id
  · subst hk
    rw [if_pos rfl, AList.lookup_insert]
  · rw [if_neg hk, AList.lookup_insert_ne hk]

theorem trackPending_eq (g : BinanceGateway F) (id : Nat) (cid : String) :
    (g.trackPending id cid).msgId = g.msgId ∧ (g.trackPending id cid).posted = g.posted ∧
      (g.trackPending id cid).queue = g.queue ∧ (g.trackPending id cid).wire = g.wire := by
  unfold trackPending
  split <;> exact ⟨rfl, rfl, rfl, rfl⟩

/-- What the history says about the message ids, `pending_` and the frames. -/
structure Recorded (es : List (Event F)) (g : BinanceGateway F) : Prop where
  msgId : g.msgId = es.countP Event.isRequest
  pending : ∀ k cid, g.pending.lookup k = some cid ↔ TrackedSince es k cid
  held : ∀ f o, g.Held f → f.request = .place o → SentAs es f.id o

theorem recorded_init (oms : OMSCore F) : Recorded [] (init oms) where
  msgId := rfl
  pending k cid := by
    constructor
    · intro h
      simp [init] at h
    · rintro ⟨es₁, o, signed, es₂, heq, -⟩
      simp at heq
  held f o hf _ := by
    rcases hf with hf | hf | hf <;> exact absurd hf List.not_mem_nil

theorem sendOrder_msgId (g : BinanceGateway F) (o : OrderRequest F) (signed : Bool) :
    (g.sendOrder o signed).msgId = g.msgId + 1 := by
  have ht := (trackPending_eq { g with msgId := g.msgId + 1 } (g.msgId + 1) o.cid).1
  unfold sendOrder
  split <;> exact ht

section
variable [Zero F] [Add F] [Sub F] [Mul F] [Div F] [LT F] [DecidableLT F]

/-- A response that names no tracked request does nothing; one that does takes
the request out of `pending_`, and marks it when the status is not 200. -/
theorem handleAck_some (g : BinanceGateway F) (idStr : String) (status t : Int) :
    g.handleAck (some idStr) (some status) t =
      match (fromChars idStr).bind fun n => (g.pending.lookup n).map fun cid => (n, cid) with
      | none => g
      | some (n, cid) =>
        { g with
          pending := g.pending.erase n
          oms := if status = 200 then g.oms
            else g.oms.updated (fnv1a64 cid) .Rejected 0 0 0 t 0 } := by
  simp only [handleAck]
  cases fromChars idStr with
  | none => rfl
  | some n =>
    simp only [Option.bind_some]
    cases g.pending.lookup n with
    | none => rfl
    | some cid =>
      by_cases hs : status = 200
      · simp [hs]
      · simp [hs]

theorem handleAck_eq (g : BinanceGateway F) (id : Option String) (status : Option Int)
    (t : Int) :
    (g.handleAck id status t).msgId = g.msgId ∧ (g.handleAck id status t).posted = g.posted ∧
      (g.handleAck id status t).queue = g.queue ∧ (g.handleAck id status t).wire = g.wire := by
  cases id with
  | none => exact ⟨rfl, rfl, rfl, rfl⟩
  | some idStr =>
    cases status with
    | none => exact ⟨rfl, rfl, rfl, rfl⟩
    | some status =>
      rw [handleAck_some]
      split <;> exact ⟨rfl, rfl, rfl, rfl⟩

theorem handleAck_pending (g : BinanceGateway F) (id : Option String) (status : Option Int)
    (t : Int) (k : Nat) (cid : String) :
    (g.handleAck id status t).pending.lookup k = some cid ↔
      g.pending.lookup k = some cid ∧ (Event.ack id status t : Event F).drops k = false := by
  cases id with
  | none => simp [handleAck, Event.drops]
  | some idStr =>
    cases status with
    | none => simp [handleAck, Event.drops]
    | some status =>
      rw [handleAck_some]
      simp only [Event.drops]
      cases fromChars idStr with
      | none => simp
      | some n =>
        simp only [Option.bind_some]
        by_cases hk : n = k
        · subst hk
          cases hl : g.pending.lookup n with
          | none => simp [hl]
          | some c => simp
        · have hk' : k ≠ n := fun h => hk h.symm
          cases hl : g.pending.lookup n with
          | none => simp [hk]
          | some c => simp [hk, AList.lookup_erase_ne hk']

/-- What a step can do: the two requests, the end of a run and an ack apart, it
is quiet. -/
theorem step_cases {g g' : BinanceGateway F} {e : Event F} (h : step g e = some g') :
    (Quiet g g' ∧ e.isRequest = false ∧ ∀ k, e.drops k = false) ∨
    (∃ o signed, e = .sendOrder o signed ∧ g' = g.sendOrder o signed) ∨
    (∃ sym cid signed, e = .cancelOrder sym cid signed ∧ g' = g.cancelOrder sym cid signed) ∨
    (e = .runThrows ∧ g' = { g with phase := .backoff, connected := false, pending := ∅ }) ∨
    (∃ id status t, e = .ack id status t ∧ g' = g.handleAck id status t) := by
  cases e with
  | sendOrder o signed => exact Or.inr (Or.inl ⟨o, signed, rfl, (Option.some.inj h).symm⟩)
  | cancelOrder sym cid signed =>
    exact Or.inr (Or.inr (Or.inl ⟨sym, cid, signed, rfl, (Option.some.inj h).symm⟩))
  | runPosted => exact Or.inl ⟨Quiet.runPosted h, rfl, fun k => rfl⟩
  | writeDone ok => exact Or.inl ⟨Quiet.writeDone h, rfl, fun k => rfl⟩
  | startRun => exact Or.inl ⟨Quiet.startRun h, rfl, fun k => rfl⟩
  | handshakeDone => exact Or.inl ⟨Quiet.handshakeDone h, rfl, fun k => rfl⟩
  | runThrows =>
    replace h : g.runThrows = some g' := h
    unfold runThrows at h
    split at h <;> cases h
    exact Or.inr (Or.inr (Or.inr (Or.inl ⟨rfl, rfl⟩)))
  | ack id status t =>
    replace h : (if g.phase = .reading then some (g.handleAck id status t) else none) = some g' := h
    split at h <;> cases h
    exact Or.inr (Or.inr (Or.inr (Or.inr ⟨id, status, t, rfl, rfl⟩)))
  | oms call =>
    cases h
    exact Or.inl ⟨⟨rfl, rfl, fun f hf => hf⟩, rfl, fun k => rfl⟩

theorem step_msgId {g g' : BinanceGateway F} {e : Event F} (h : step g e = some g') :
    g'.msgId = g.msgId + if e.isRequest then 1 else 0 := by
  rcases step_cases h with ⟨hq, he, -⟩ | ⟨o, signed, rfl, rfl⟩ | ⟨sym, cid, signed, rfl, rfl⟩ |
    ⟨rfl, rfl⟩ | ⟨id, status, t, rfl, rfl⟩
  · rw [hq.msgId, he]
    rfl
  · exact sendOrder_msgId g o signed
  · unfold cancelOrder
    split <;> rfl
  · rfl
  · exact (handleAck_eq g id status t).1

/-- What a step does to `pending_`: an order request enters under the next id,
and whatever the event drops is gone. -/
theorem step_pending {g g' : BinanceGateway F} {e : Event F} (h : step g e = some g')
    (hnew : g.pending.lookup (g.msgId + 1) = none) (k : Nat) (cid : String) :
    g'.pending.lookup k = some cid ↔
      (g.pending.lookup k = some cid ∧ e.drops k = false) ∨
        ∃ o signed, e = .sendOrder o signed ∧ g.msgId + 1 = k ∧ o.cid = cid := by
  rcases step_cases h with ⟨hq, he, hd⟩ | ⟨o, signed, rfl, rfl⟩ | ⟨sym, c, signed, rfl, rfl⟩ |
    ⟨rfl, rfl⟩ | ⟨id, status, t, rfl, rfl⟩
  · rw [hq.pending, hd k]
    constructor
    · intro hl
      exact Or.inl ⟨hl, rfl⟩
    · rintro (⟨hl, -⟩ | ⟨o, signed, rfl, -⟩)
      · exact hl
      · cases he
  · have hp : (g.sendOrder o signed).pending.lookup k =
        if k = g.msgId + 1 then some o.cid else g.pending.lookup k := by
      have ht := trackPending_lookup { g with msgId := g.msgId + 1 } hnew o.cid k
      unfold sendOrder
      split <;> exact ht
    rw [hp]
    by_cases hk : k = g.msgId + 1
    · subst hk
      simp [hnew]
    · rw [if_neg hk]
      have hk' : g.msgId + 1 ≠ k := fun h => hk h.symm
      simp [Event.drops, hk']
  · have hp : (g.cancelOrder sym c signed).pending = g.pending := by
      unfold cancelOrder
      split <;> rfl
    rw [hp]
    simp [Event.drops]
  · simp [Event.drops]
  · rw [handleAck_pending]
    simp

/-- Every order frame held was held before or is the request just made. -/
theorem step_held {g g' : BinanceGateway F} {e : Event F} (h : step g e = some g')
    {f : Frame F} (hf : g'.Held f) {o : OrderRequest F} (ho : f.request = .place o) :
    g.Held f ∨ (e = .sendOrder o true ∧ f.id = g.msgId + 1) := by
  rcases step_cases h with ⟨hq, -, -⟩ | ⟨o', signed, rfl, rfl⟩ | ⟨sym, c, signed, rfl, rfl⟩ |
    ⟨rfl, rfl⟩ | ⟨id, status, t, rfl, rfl⟩
  · exact Or.inl (hq.held f hf)
  · obtain ⟨-, h₁, h₂, h₃⟩ :=
      trackPending_eq { g with msgId := g.msgId + 1 } (g.msgId + 1) o'.cid
    cases signed with
    | false =>
      refine Or.inl ?_
      simpa [Held, sendOrder, h₁, h₂, h₃] using hf
    | true =>
      have hf' : (f ∈ g.posted ∨ f = ⟨g.msgId + 1, .place o'⟩) ∨ f ∈ g.queue ∨ f ∈ g.wire := by
        simpa [Held, sendOrder, sendMsg, h₁, h₂, h₃] using hf
      rcases hf' with (hf | rfl) | hf | hf
      · exact Or.inl (Or.inl hf)
      · cases ho
        exact Or.inr ⟨rfl, rfl⟩
      · exact Or.inl (Or.inr (Or.inl hf))
      · exact Or.inl (Or.inr (Or.inr hf))
  · refine Or.inl ?_
    cases signed with
    | false => exact hf
    | true =>
      have hf' : (f ∈ g.posted ∨ f = ⟨g.msgId + 1, .cancel sym c⟩) ∨
          f ∈ g.queue ∨ f ∈ g.wire := by
        simpa [Held, cancelOrder, sendMsg] using hf
      rcases hf' with (hf | rfl) | hf | hf
      · exact Or.inl hf
      · cases ho
      · exact Or.inr (Or.inl hf)
      · exact Or.inr (Or.inr hf)
  · exact Or.inl hf
  · obtain ⟨-, h₁, h₂, h₃⟩ := handleAck_eq g id status t
    refine Or.inl ?_
    simpa [Held, h₁, h₂, h₃] using hf

/-! ## Runs -/

theorem Recorded.step {es : List (Event F)} {g g' : BinanceGateway F} {e : Event F}
    (hr : Recorded es g) (h : BinanceGateway.step g e = some g') : Recorded (es ++ [e]) g' where
  msgId := by
    rw [step_msgId h, hr.msgId, List.countP_append, List.countP_singleton]
  pending k cid := by
    have hnew : g.pending.lookup (g.msgId + 1) = none := by
      cases hl : g.pending.lookup (g.msgId + 1) with
      | none => rfl
      | some c =>
        have hle := ((hr.pending _ _).mp hl).le
        rw [← hr.msgId] at hle
        omega
    rw [step_pending h hnew, trackedSince_concat, hr.pending, ← hr.msgId]
  held f o hf ho := by
    rcases step_held h hf ho with hg | ⟨rfl, hid⟩
    · exact (hr.held f o hg ho).concat e
    · exact ⟨es, [], rfl, by rw [hid, hr.msgId]⟩

theorem recorded_of_run {oms : OMSCore F} {es : List (Event F)} {g : BinanceGateway F}
    (h : Machine.run step (init oms) es = some g) : Recorded es g := by
  induction es using List.reverseRecOn generalizing g with
  | nil =>
    cases h
    exact recorded_init oms
  | append_singleton es e ih =>
    rw [Machine.run_concat] at h
    obtain ⟨g₁, h₁, h₂⟩ := Option.bind_eq_some_iff.mp h
    exact (ih h₁).step h₂

/-- The OMS changed by exactly the reject of `cid`, which is nothing when `cid`
is not registered. -/
def RejectRecorded (g g' : BinanceGateway F) (cid : String) (t : Int) : Prop :=
  ∀ k, g'.oms.get k =
    if k = fnv1a64 cid then (g.oms.get k).map fun r => r.update .Rejected 0 0 0 t 0
    else g.oms.get k

/-- The response with a status other than 200 to an order frame written on this
connection is recorded exactly when no run ended and no other response to it
came since the request, or when there is nothing to record. -/
theorem rejectRecorded_iff {oms : OMSCore F} {es : List (Event F)} {g g' : BinanceGateway F}
    (hrun : Machine.run step (init oms) es = some g) {f : Frame F} (hf : f ∈ g.wire)
    {o : OrderRequest F} (ho : f.request = .place o) {status t : Int} (hs : status ≠ 200)
    (hack : step g (.ack (some (toString f.id)) (some status) t) = some g') :
    RejectRecorded g g' o.cid t ↔
      TrackedSince es f.id o.cid ∨
        ((g.oms.get (fnv1a64 o.cid)).map fun r => r.update .Rejected 0 0 0 t 0) =
          g.oms.get (fnv1a64 o.cid) := by
  have hr := recorded_of_run hrun
  have hsent := hr.held f o (Or.inr (Or.inr hf)) ho
  have hg' : g' = g.handleAck (some (toString f.id)) (some status) t := by
    replace hack : (if g.phase = .reading then
      some (g.handleAck (some (toString f.id)) (some status) t) else none) = some g' := hack
    split at hack <;> cases hack
    rfl
  rw [handleAck_some, fromChars_toString, Option.bind_some] at hg'
  cases hl : g.pending.lookup f.id with
  | none =>
    -- dropped: the OMS is left as it is
    rw [hl] at hg'
    have hsame : g'.oms = g.oms := by rw [hg', Option.map_none]
    have hnot : ¬ TrackedSince es f.id o.cid := by
      intro ht
      rw [(hr.pending _ _).mpr ht] at hl
      cases hl
    constructor
    · intro h
      have hk := h (fnv1a64 o.cid)
      rw [if_pos rfl, hsame] at hk
      exact Or.inr hk.symm
    · rintro (ht | hk) k
      · exact absurd ht hnot
      · rw [hsame]
        split_ifs with he
        · rw [he, hk]
        · rfl
  | some cid =>
    rw [hl] at hg'
    have htracked := (hr.pending _ _).mp hl
    have hcid := htracked.cid_eq hsent
    subst hcid
    have homs : g'.oms = g.oms.updated (fnv1a64 o.cid) .Rejected 0 0 0 t 0 := by
      rw [hg', Option.map_some]
      exact if_neg hs
    constructor
    · intro _
      exact Or.inl htracked
    · intro _ k
      rw [homs, OMSCore.get_updated]
      split_ifs with hk
      · rw [hk]
      · rfl

end

/-- Sent on the open connection and answered there: the order is marked. -/
theorem rejectRecorded_same_connection :
    let o : OrderRequest Rat := market "a" "BTCUSDT" .Buy 1
    let es : List (Event Rat) := [.startRun, .handshakeDone,
      .oms (.registerNewOrder "a" "BTCUSDT" .Buy 0 1 ⟨0, 0⟩), .sendOrder o true, .runPosted]
    ∃ g g', Machine.run step (init OMSCore.init) es = some g ∧ ⟨1, .place o⟩ ∈ g.wire ∧
      step g (.ack (some (toString 1)) (some 400) 5) = some g' ∧ RejectRecorded g g' "a" 5 := by
  intro o es
  have hrun : Machine.run step (init OMSCore.init) es = some _ := rfl
  refine ⟨_, _, hrun, List.mem_singleton.mpr rfl, rfl, ?_⟩
  refine (rejectRecorded_iff hrun (List.mem_singleton.mpr rfl) rfl (by decide) rfl).mpr
    (Or.inl ?_)
  exact ⟨es.take 3, o, true, [.runPosted], rfl, rfl, rfl, by decide⟩

/-- Sent while the first connection attempt is under way.  The attempt fails, the
frame is written on the next connection, and the response to it finds no entry:
the order stays `PendingNew`. -/
theorem rejectRecorded_next_connection :
    let o : OrderRequest Rat := market "a" "BTCUSDT" .Buy 1
    let es : List (Event Rat) := [.startRun,
      .oms (.registerNewOrder "a" "BTCUSDT" .Buy 0 1 ⟨0, 0⟩), .sendOrder o true, .runPosted,
      .runThrows, .startRun, .handshakeDone]
    ∃ g g', Machine.run step (init OMSCore.init) es = some g ∧ ⟨1, .place o⟩ ∈ g.wire ∧
      step g (.ack (some (toString 1)) (some 400) 5) = some g' ∧
      (g.oms.get (fnv1a64 "a")).map OrderRecord.status = some .PendingNew ∧
      ¬ RejectRecorded g g' "a" 5 := by
  intro o es
  have hrun : Machine.run step (init OMSCore.init) es = some _ := rfl
  refine ⟨_, _, hrun, List.mem_singleton.mpr rfl, rfl, by decide, fun h => ?_⟩
  have hk := congrArg (Option.map OrderRecord.status) (h (fnv1a64 "a"))
  exact absurd hk (by decide)

end BinanceGateway
end HoloMarket
