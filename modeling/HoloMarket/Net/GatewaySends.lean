import Mathlib.Algebra.Ring.Int.Defs
import HoloMarket.Net.RejectTracking

/-!
# What the gateway has sent

The gateway is run with a record of what it pushed, of the writes under way and
of the writes that went through.  A write can be started by a push, by the
completion of the write before it and by a handshake; whichever it is, at most
one is under way, it is the write of the front of the queue, and what has gone
through followed by what is queued is what was pushed.
-/

namespace HoloMarket
namespace BinanceGateway

variable {F : Type*}

/-- The frame at the front is under way and `writing_` says so, or nothing is
under way. -/
def Busy (g : BinanceGateway F) (flying : List (Frame F)) : Prop :=
  (g.writing = true ∧ g.outstanding = 1 ∧ ∃ f rest, g.queue = f :: rest ∧ flying = [f]) ∨
    (g.writing = false ∧ g.outstanding = 0 ∧ flying = [])

namespace Busy

variable {g : BinanceGateway F} {flying : List (Frame F)}

theorem of_idle (h : g.Busy flying) (hw : g.outstanding = 0) :
    g.writing = false ∧ flying = [] := by
  rcases h with ⟨-, ho, -⟩ | ⟨hf, -, hn⟩
  · omega
  · exact ⟨hf, hn⟩

theorem of_busy (h : g.Busy flying) (hw : g.outstanding ≠ 0) :
    g.outstanding = 1 ∧ ∃ f rest, g.queue = f :: rest ∧ flying = [f] := by
  rcases h with ⟨-, ho, hq⟩ | ⟨-, ho, -⟩
  · exact ⟨ho, hq⟩
  · omega

theorem push (h : g.Busy flying) (g' : BinanceGateway F) (l : List (Frame F))
    (hw : g'.writing = g.writing) (ho : g'.outstanding = g.outstanding)
    (hq : g'.queue = g.queue ++ l) : g'.Busy flying := by
  rcases h with ⟨h₁, h₂, f, rest, h₃, h₄⟩ | ⟨h₁, h₂, h₃⟩
  · exact Or.inl ⟨hw.trans h₁, ho.trans h₂, f, rest ++ l, by rw [hq, h₃]; rfl, h₄⟩
  · exact Or.inr ⟨hw.trans h₁, ho.trans h₂, h₃⟩

theorem congr (h : g.Busy flying) (g' : BinanceGateway F) (hw : g'.writing = g.writing)
    (ho : g'.outstanding = g.outstanding) (hq : g'.queue = g.queue) : g'.Busy flying :=
  h.push g' [] hw ho (by rw [hq, List.append_nil])

end Busy

/-- `do_write` with nothing under way starts at most the write of the front. -/
theorem doWrite_busy {g : BinanceGateway F} (ho : g.outstanding = 0) :
    g.doWrite.Busy (g.doWrite.wire.drop g.wire.length) := by
  unfold doWrite
  split
  · exact Or.inr ⟨rfl, ho, List.drop_length⟩
  · next f rest hq =>
    split
    · refine Or.inl ⟨rfl, congrArg (· + 1) ho, f, rest, hq, ?_⟩
      exact List.drop_left
    · exact Or.inr ⟨rfl, ho, List.drop_length⟩

theorem doWrite_queue (g : BinanceGateway F) :
    g.doWrite.queue = g.queue ∧ g.doWrite.posted = g.posted ∧ g.doWrite.msgId = g.msgId := by
  unfold doWrite
  split
  · exact ⟨rfl, rfl, rfl⟩
  · split <;> exact ⟨rfl, rfl, rfl⟩

/-- What neither pushes nor writes. -/
structure Still (g g' : BinanceGateway F) : Prop where
  writing : g'.writing = g.writing
  outstanding : g'.outstanding = g.outstanding
  queue : g'.queue = g.queue
  wire : g'.wire.drop g.wire.length = []

theorem trackPending_still (g : BinanceGateway F) (id : Nat) (cid : String) :
    Still g (g.trackPending id cid) := by
  unfold trackPending
  split <;> exact ⟨rfl, rfl, rfl, List.drop_length⟩

/-- The frame a request posts, under its new id. -/
def Event.frame (id : Nat) : Event F → List (Frame F)
  | .sendOrder o true => [⟨id, .place o⟩]
  | .cancelOrder sym cid true => [⟨id, .cancel sym cid⟩]
  | _ => []

theorem sendOrder_still (g : BinanceGateway F) (o : OrderRequest F) (signed : Bool) :
    Still g (g.sendOrder o signed) ∧
      (g.sendOrder o signed).posted =
        g.posted ++ (Event.sendOrder o signed).frame (g.msgId + 1) := by
  have ht := trackPending_still { g with msgId := g.msgId + 1 } (g.msgId + 1) o.cid
  obtain ⟨-, hp, -, -⟩ := trackPending_eq { g with msgId := g.msgId + 1 } (g.msgId + 1) o.cid
  cases signed with
  | false =>
    refine ⟨⟨ht.writing, ht.outstanding, ht.queue, ht.wire⟩, ?_⟩
    exact hp.trans (List.append_nil _).symm
  | true => exact ⟨⟨ht.writing, ht.outstanding, ht.queue, ht.wire⟩, congrArg (· ++ _) hp⟩

theorem cancelOrder_still (g : BinanceGateway F) (sym cid : String) (signed : Bool) :
    Still g (g.cancelOrder sym cid signed) ∧
      (g.cancelOrder sym cid signed).posted =
        g.posted ++ (Event.cancelOrder sym cid signed : Event F).frame (g.msgId + 1) := by
  cases signed with
  | false => exact ⟨⟨rfl, rfl, rfl, List.drop_length⟩, (List.append_nil _).symm⟩
  | true => exact ⟨⟨rfl, rfl, rfl, List.drop_length⟩, rfl⟩

section
variable [Zero F] [Add F] [Sub F] [Mul F] [Div F] [LT F] [DecidableLT F]

theorem handleAck_still (g : BinanceGateway F) (id : Option String) (status : Option Int)
    (t : Int) : Still g (g.handleAck id status t) := by
  cases id with
  | none => exact ⟨rfl, rfl, rfl, List.drop_length⟩
  | some idStr =>
    cases status with
    | none => exact ⟨rfl, rfl, rfl, List.drop_length⟩
    | some status =>
      rw [handleAck_some]
      split <;> exact ⟨rfl, rfl, rfl, List.drop_length⟩

end

/-! ## The history of a run -/

/-- The gateway with the frames pushed, under way and written, each oldest
first. -/
structure Sent (F : Type*) where
  gateway : BinanceGateway F
  pushed : List (Frame F)
  flying : List (Frame F)
  written : List (Frame F)

namespace Sent

def init (oms : OMSCore F) : Sent F := ⟨.init oms, [], [], []⟩

/-- The push that the event runs. -/
def pushes (g : BinanceGateway F) : Event F → List (Frame F)
  | .runPosted => g.posted.head?.toList
  | _ => []

/-- The writes that lead from `g` to `g'`: what is new on the wire of the
connection. -/
def starts (g g' : BinanceGateway F) : Event F → List (Frame F)
  | .startRun => []
  | _ => g'.wire.drop g.wire.length

/-- The writes still under way when the event is a completion. -/
def remaining (flying : List (Frame F)) : Event F → List (Frame F)
  | .writeDone _ => flying.tail
  | _ => flying

def completed (flying : List (Frame F)) : Event F → List (Frame F)
  | .writeDone true => flying.head?.toList
  | _ => []

/-- The completion handler of every write has run when the next handshake is
done. -/
def Admits (s : Sent F) (e : Event F) : Prop :=
  e = .handshakeDone → s.gateway.outstanding = 0

instance decidableAdmits (s : Sent F) : ∀ e : Event F, Decidable (s.Admits e)
  | .handshakeDone => decidable_of_iff (s.gateway.outstanding = 0) ⟨fun h _ => h, fun h => h rfl⟩
  | .sendOrder .. | .cancelOrder .. | .runPosted | .writeDone _ | .startRun | .runThrows
  | .ack .. | .oms _ => isTrue nofun

/-- Nothing pushed is lost, repeated or out of order: written, queued, posted. -/
structure Books (g : BinanceGateway F) (pushed written : List (Frame F)) : Prop where
  kept : written ++ g.queue = pushed
  ids : ((pushed ++ g.posted).map Frame.id).Pairwise (· < ·)
  bound : ∀ f ∈ pushed ++ g.posted, f.id ≤ g.msgId

namespace Books

variable {g g' : BinanceGateway F} {pushed written : List (Frame F)}

theorem congr (h : Books g pushed written) (hq : g'.queue = g.queue)
    (hp : g'.posted = g.posted) (hm : g'.msgId = g.msgId) : Books g' pushed written where
  kept := by
    rw [hq]
    exact h.kept
  ids := by
    rw [hp]
    exact h.ids
  bound := by
    rw [hp, hm]
    exact h.bound

theorem request (h : Books g pushed written) (hq : g'.queue = g.queue) {l : List (Frame F)}
    (hp : g'.posted = g.posted ++ l) (hm : g'.msgId = g.msgId + 1)
    (hl : ∀ f ∈ l, f.id = g.msgId + 1) (hone : l.length ≤ 1) : Books g' pushed written where
  kept := by
    rw [hq]
    exact h.kept
  ids := by
    rw [hp, ← List.append_assoc, List.map_append, List.pairwise_append]
    refine ⟨h.ids, ?_, fun a ha b hb => ?_⟩
    · match l, hone with
      | [], _ => exact List.Pairwise.nil
      | [f], _ => exact List.pairwise_singleton _ _
    · obtain ⟨f, hf, rfl⟩ := List.mem_map.mp ha
      obtain ⟨f', hf', rfl⟩ := List.mem_map.mp hb
      have hle := h.bound f hf
      have hnew := hl f' hf'
      omega
  bound := by
    intro f hf
    rw [hp, ← List.append_assoc] at hf
    rcases List.mem_append.mp hf with hf | hf
    · have hle := h.bound f hf
      omega
    · have hnew := hl f hf
      omega

theorem push (h : Books g pushed written) {f : Frame F} {rest : List (Frame F)}
    (hp : g.posted = f :: rest) :
    Books { g with posted := rest, queue := g.queue ++ [f] } (pushed ++ [f]) written where
  kept := by
    show written ++ (g.queue ++ [f]) = _
    rw [← List.append_assoc, h.kept]
  ids := by
    have hids := h.ids
    rw [hp] at hids
    simpa using hids
  bound := by
    have hbound := h.bound
    rw [hp] at hbound
    simpa using hbound

end Books

/-- The invariant: the books are right, and one write at most is under way, that
of the front. -/
structure InOrder (s : Sent F) : Prop where
  busy : s.gateway.Busy s.flying
  books : Books s.gateway s.pushed s.written

theorem inOrder_init (oms : OMSCore F) : (init oms).InOrder where
  busy := Or.inr ⟨rfl, rfl, rfl⟩
  books := ⟨rfl, List.Pairwise.nil, fun _ hf => absurd hf List.not_mem_nil⟩

/-- Whenever nothing is under way a write may be started. -/
theorem Books.doWrite {g : BinanceGateway F} {pushed written : List (Frame F)}
    (h : Books g pushed written) (ho : g.outstanding = 0) :
    InOrder ⟨g.doWrite, pushed, g.doWrite.wire.drop g.wire.length, written⟩ := by
  obtain ⟨hq, hp, hm⟩ := g.doWrite_queue
  exact ⟨doWrite_busy ho, h.congr hq hp hm⟩

namespace InOrder

variable {s : Sent F}

theorem still (h : s.InOrder) (g' : BinanceGateway F) (hs : Still s.gateway g')
    (hb : Books g' s.pushed s.written) {w : List (Frame F)} (hw : w = []) :
    InOrder ⟨g', s.pushed ++ [], s.flying ++ w, s.written ++ []⟩ := by
  rw [hw, List.append_nil, List.append_nil, List.append_nil]
  exact ⟨h.busy.congr g' hs.writing hs.outstanding hs.queue, hb⟩

variable {g' : BinanceGateway F}

theorem runPosted (h : s.InOrder) (hg : s.gateway.runPosted = some g') :
    InOrder ⟨g', s.pushed ++ s.gateway.posted.head?.toList,
      s.flying ++ g'.wire.drop s.gateway.wire.length, s.written ++ []⟩ := by
  unfold BinanceGateway.runPosted at hg
  split at hg
  · cases hg
  · next f rest hp =>
    have hpush := h.books.push hp
    have hbusy := h.busy.push { s.gateway with posted := rest, queue := s.gateway.queue ++ [f] }
      [f] rfl rfl rfl
    rw [hp, List.append_nil]
    cases hg
    split
    · next hw =>
      rw [Bool.and_eq_true, Bool.not_eq_true'] at hw
      rcases hbusy with ⟨hwriting, -⟩ | ⟨-, ho, hnil⟩
      · rw [hw.2] at hwriting
        cases hwriting
      · rw [hnil]
        exact hpush.doWrite ho
    · refine ⟨?_, hpush⟩
      show Busy _ (s.flying ++ s.gateway.wire.drop s.gateway.wire.length)
      rw [List.drop_length, List.append_nil]
      exact hbusy

/-- The write of the front has gone through: the next one may start. -/
theorem writeDone_true (h : s.InOrder) (hg : s.gateway.writeDone true = some g') :
    InOrder ⟨g', s.pushed ++ [], s.flying.tail ++ g'.wire.drop s.gateway.wire.length,
      s.written ++ s.flying.head?.toList⟩ := by
  unfold BinanceGateway.writeDone at hg
  split at hg
  · cases hg
  · next hne =>
    obtain ⟨ho, f, rest, hq, hf⟩ := h.busy.of_busy hne
    cases hg
    rw [hf, List.append_nil]
    refine Books.doWrite ⟨?_, h.books.ids, h.books.bound⟩ ?_
    · show s.written ++ [f] ++ s.gateway.queue.tail = s.pushed
      rw [← h.books.kept, hq, List.append_assoc]
      rfl
    · show s.gateway.outstanding - 1 = 0
      omega

/-- The write of the front has failed: it stays where it is. -/
theorem writeDone_false (h : s.InOrder) (hg : s.gateway.writeDone false = some g') :
    InOrder ⟨g', s.pushed ++ [], s.flying.tail ++ g'.wire.drop s.gateway.wire.length,
      s.written ++ []⟩ := by
  unfold BinanceGateway.writeDone at hg
  split at hg
  · cases hg
  · next hne =>
    obtain ⟨ho, f, rest, hq, hf⟩ := h.busy.of_busy hne
    cases hg
    rw [hf, List.append_nil, List.append_nil]
    refine ⟨Or.inr ⟨rfl, ?_, List.drop_length⟩, h.books.congr rfl rfl rfl⟩
    show s.gateway.outstanding - 1 = 0
    omega

theorem handshakeDone (h : s.InOrder) (ho : s.gateway.outstanding = 0)
    (hg : s.gateway.handshakeDone = some g') :
    InOrder ⟨g', s.pushed ++ [], s.flying ++ g'.wire.drop s.gateway.wire.length,
      s.written ++ []⟩ := by
  obtain ⟨hw, hnil⟩ := h.busy.of_idle ho
  have hb : Books { s.gateway with phase := .reading, connected := true } s.pushed s.written :=
    h.books.congr rfl rfl rfl
  unfold BinanceGateway.handshakeDone at hg
  split at hg
  · cases hg
    rw [hnil, List.append_nil, List.append_nil]
    split
    · exact ⟨Or.inr ⟨hw, ho, List.drop_length⟩, hb⟩
    · exact hb.doWrite ho
  · cases hg

end InOrder

variable [Zero F] [Add F] [Sub F] [Mul F] [Div F] [LT F] [DecidableLT F]

def step (s : Sent F) (e : Event F) : Option (Sent F) :=
  (BinanceGateway.step s.gateway e).map fun g' =>
    { gateway := g'
      pushed := s.pushed ++ pushes s.gateway e
      flying := remaining s.flying e ++ starts s.gateway g' e
      written := s.written ++ completed s.flying e }

theorem InOrder.step {s s' : Sent F} {e : Event F} (h : s.InOrder) (ha : s.Admits e)
    (hs : s.step e = some s') : s'.InOrder := by
  obtain ⟨g', hg, rfl⟩ := Option.map_eq_some_iff.mp hs
  cases e with
  | sendOrder o signed =>
    cases hg
    obtain ⟨hstill, hp⟩ := sendOrder_still s.gateway o signed
    refine h.still _ hstill (h.books.request hstill.queue hp (sendOrder_msgId ..) ?_ ?_) hstill.wire
    all_goals cases signed <;> simp [Event.frame]
  | cancelOrder sym cid signed =>
    cases hg
    obtain ⟨hstill, hp⟩ := cancelOrder_still s.gateway sym cid signed
    refine h.still _ hstill (h.books.request hstill.queue hp ?_ ?_ ?_) hstill.wire
    all_goals cases signed <;> simp [Event.frame, cancelOrder, sendMsg]
  | runPosted => exact h.runPosted hg
  | writeDone ok =>
    cases ok with
    | true => exact h.writeDone_true hg
    | false => exact h.writeDone_false hg
  | startRun =>
    replace hg : s.gateway.startRun = some g' := hg
    unfold startRun at hg
    split at hg <;> cases hg
    exact h.still { s.gateway with phase := .connecting, wire := [] }
      ⟨rfl, rfl, rfl, List.drop_nil⟩ (h.books.congr rfl rfl rfl) rfl
  | handshakeDone => exact h.handshakeDone (ha rfl) hg
  | runThrows =>
    replace hg : s.gateway.runThrows = some g' := hg
    unfold runThrows at hg
    split at hg <;> cases hg
    exact h.still { s.gateway with phase := .backoff, connected := false, pending := ∅ }
      ⟨rfl, rfl, rfl, List.drop_length⟩ (h.books.congr rfl rfl rfl) List.drop_length
  | ack id status t =>
    replace hg : (if s.gateway.phase = .reading then
      some (s.gateway.handleAck id status t) else none) = some g' := hg
    split at hg <;> cases hg
    have hstill := handleAck_still s.gateway id status t
    obtain ⟨hm, hp, hq, -⟩ := handleAck_eq s.gateway id status t
    exact h.still _ hstill (h.books.congr hq hp hm) hstill.wire
  | oms call =>
    cases hg
    exact h.still { s.gateway with oms := (s.gateway.oms.call call).1 }
      ⟨rfl, rfl, rfl, List.drop_length⟩ (h.books.congr rfl rfl rfl) List.drop_length

/-- The front of the queue leaves it only by its own completed write. -/
theorem InOrder.front_step {s s' : Sent F} {e : Event F} (h : s.InOrder) (ha : s.Admits e)
    (hs : s.step e = some s') {f : Frame F} (hf : s.gateway.queue.head? = some f) :
    e = .writeDone true ∧ s.flying = [f] ∧ s'.written = s.written ++ [f] ∨
      e ≠ .writeDone true ∧ s'.written = s.written ∧ s'.gateway.queue.head? = some f := by
  have hkept := (h.step ha hs).books.kept
  obtain ⟨g', hg, rfl⟩ := Option.map_eq_some_iff.mp hs
  obtain ⟨rest, hq⟩ := List.head?_eq_some_iff.mp hf
  by_cases he : e = .writeDone true
  · subst he
    refine Or.inl ⟨rfl, ?_⟩
    have hne : s.gateway.outstanding ≠ 0 := by
      intro ho
      replace hg : s.gateway.writeDone true = some g' := hg
      unfold writeDone at hg
      rw [if_pos ho] at hg
      cases hg
    obtain ⟨-, f', rest', hq', hf'⟩ := h.busy.of_busy hne
    obtain rfl : f = f' := List.head_eq_of_cons_eq (hq.symm.trans hq')
    refine ⟨hf', ?_⟩
    show s.written ++ s.flying.head?.toList = _
    rw [hf']
    rfl
  · have hnone : completed s.flying e = [] := by
      cases e with
      | writeDone ok =>
        cases ok with
        | true => exact absurd rfl he
        | false => rfl
      | _ => rfl
    refine Or.inr ⟨he, ?_, ?_⟩
    · show s.written ++ completed s.flying e = _
      rw [hnone, List.append_nil]
    · replace hkept : s.written ++ completed s.flying e ++ g'.queue =
        s.pushed ++ pushes s.gateway e := hkept
      rw [hnone, List.append_nil, ← h.books.kept, List.append_assoc] at hkept
      show g'.queue.head? = some f
      rw [List.append_cancel_left hkept, hq]
      rfl

/-- The record of the sends changes nothing about the gateway. -/
theorem run_gateway (s : Sent F) (es : List (Event F)) :
    (Machine.run step s es).map Sent.gateway = Machine.run BinanceGateway.step s.gateway es := by
  induction es generalizing s with
  | nil => rfl
  | cons e es ih =>
    rw [Machine.run_cons, Machine.run_cons]
    unfold step
    cases BinanceGateway.step s.gateway e with
    | none => rfl
    | some g' => exact ih _

/-- At most one write is under way, and `writing_` says whether; it is the write
of the front of the queue, which leaves the queue only when its own write goes
through; what has gone through is a prefix of what was pushed, each frame once,
and the queue is the rest. -/
theorem sends_in_order_once {oms : OMSCore F} {es : List (Event F)} {s : Sent F}
    (hok : Machine.RunOk step Admits (init oms) es)
    (hrun : Machine.run step (init oms) es = some s) :
    s.gateway.outstanding ≤ 1 ∧ (s.gateway.writing = true ↔ s.gateway.outstanding = 1) ∧
      s.written ++ s.gateway.queue = s.pushed ∧ (s.pushed.map Frame.id).Nodup ∧
      (s.gateway.outstanding = 1 → ∃ f, s.flying = [f] ∧ s.gateway.queue.head? = some f) ∧
      ∀ e s' f, s.gateway.queue.head? = some f → s.Admits e → s.step e = some s' →
        (e = .writeDone true ∧ s.flying = [f] ∧ s'.written = s.written ++ [f] ∨
          e ≠ .writeDone true ∧ s'.written = s.written ∧ s'.gateway.queue.head? = some f) := by
  have h : s.InOrder :=
    Machine.run_inv (fun _ _ _ hI ha hs => InOrder.step hI ha hs) (inOrder_init oms) hok hrun
  have hids : (s.pushed.map Frame.id).Nodup := by
    have hall := h.books.ids
    rw [List.map_append] at hall
    exact (List.pairwise_append.mp hall).1.imp fun hlt => hlt.ne
  have hwriting : s.gateway.outstanding ≤ 1 ∧
      (s.gateway.writing = true ↔ s.gateway.outstanding = 1) := by
    rcases h.busy with ⟨hw, ho, -⟩ | ⟨hw, ho, -⟩
    · exact ⟨ho.le, iff_of_true hw ho⟩
    · rw [hw, ho]
      exact ⟨Nat.zero_le 1, by decide⟩
  refine ⟨hwriting.1, hwriting.2, h.books.kept, hids, fun ho => ?_, ?_⟩
  · obtain ⟨-, f, rest, hq, hf⟩ := h.busy.of_busy (by omega)
    exact ⟨f, hf, by rw [hq]; rfl⟩
  · exact fun e s' f hf ha hs => h.front_step ha hs hf

/-- An order and its cancel: the cancel's write fails, and after the reconnect it
is the next one written. -/
def resentCancel : List (Event ℤ) :=
  [.startRun, .handshakeDone, .sendOrder (market "holo-0" "BTCUSDT" .Buy 1) true, .runPosted,
    .cancelOrder "BTCUSDT" "holo-0" true, .runPosted, .writeDone true, .writeDone false,
    .runThrows, .startRun, .handshakeDone, .writeDone true]

theorem sends_in_order_once_resent_cancel :
    ∃ s, Machine.run step (init (OMSCore.init : OMSCore ℤ)) resentCancel = some s ∧
      s.written.map Frame.id = [1, 2] ∧ s.gateway.outstanding ≤ 1 ∧
      s.written ++ s.gateway.queue = s.pushed := by
  obtain ⟨s, hrun, hw⟩ := Machine.exists_of_elim
    (o := Machine.run step (init (OMSCore.init : OMSCore ℤ)) resentCancel)
    (P := fun s => s.written.map Frame.id = [1, 2]) (by decide)
  have h := sends_in_order_once (by decide) hrun
  exact ⟨s, hrun, hw, h.1, h.2.2.1⟩

end Sent
end BinanceGateway
end HoloMarket
