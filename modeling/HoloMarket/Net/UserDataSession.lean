import Mathlib.Algebra.Ring.Rat
import HoloMarket.Lib.RunBounds
import HoloMarket.Lib.TracePast
import HoloMarket.Net.UserDataFeed

/-!
# UserDataSession: the connections of the user data feed

`run_with_backoff`, `run` and `handle_message` of `user_data_feed.hpp` as one coroutine:
what runs between two suspension points is one step, and what the step does is written
to a trace.  The answers of the network, which calls throw and when, and the messages
are arbitrary.
-/

namespace HoloMarket

/-- A parsed message of the stream; a field that is absent or of another type is `none`. -/
structure StreamMessage (F : Type*) where
  e : Option String
  o : Option (OrderTradeUpdate F)
deriving DecidableEq, Repr

inductive FeedPc where
  | deleting
  | fetching
  | connecting
  | reading
  | waiting
deriving DecidableEq, Repr

structure UserDataFeed (F : Type*) where
  pc : FeedPc
  backoffMs : Nat
  listenKey : String
  oms : OMSCore F
  /-- `on_margin_call_` is set. -/
  hasMarginCallback : Bool

inductive FeedEvent (F : Type*) where
  /-- `delete_listen_key` is through, whether it failed or not. -/
  | deleted
  /-- The answer to the POST; `none` when it throws. -/
  | fetched (body : Option (List Char))
  /-- The stream is up, and the reconciliation gets these answers. -/
  | connected (openOrders : Option (List (Option String)))
    (lookup : String → String → Option (OrderBody F)) (t : Clock)
  /-- Connecting or reading throws. -/
  | failed
  /-- A message arrives; `none` is one that does not parse. -/
  | message (data : String) (doc : Option (StreamMessage F))
  | expired
  /-- The engine or the gateway writes to the store. -/
  | others (write : OMSCore F → OMSCore F)

/-- What the feed does, and what others do to the store meanwhile. -/
inductive FeedAction (F : Type*) where
  | delete
  | fetch (key : String)
  | connect (target : String)
  | reconcile (openOrders : Option (List (Option String)))
    (lookup : String → String → Option (OrderBody F)) (t : Clock)
  | handle (data : String) (doc : Option (StreamMessage F))
  | marginCall (data : String)
  /-- `run` returns. -/
  | returned
  | waited (ms : Nat)
  | others (write : OMSCore F → OMSCore F)

namespace UserDataFeed

def kMinBackoff : Nat := 200

def kMaxBackoff : Nat := 10000

/-! ## The listen key in the answer -/

def afterFirst (pat : List Char) : List Char → Option (List Char)
  | [] => if pat = [] then some [] else none
  | c :: cs =>
    if pat.isPrefixOf (c :: cs) then some ((c :: cs).drop pat.length) else afterFirst pat cs

/-- What `fetch_fresh_listen_key` cuts out of the body; `none` is its throw. -/
def listenKeyIn (body : List Char) : Option String :=
  (afterFirst "\"listenKey\":\"".toList body).map fun rest =>
    String.ofList (rest.takeWhile (· ≠ '"'))

theorem listenKeyIn_body {key : List Char} (hkey : ∀ c ∈ key, c ≠ '"') (rest : List Char) :
    listenKeyIn ('{' :: ("\"listenKey\":\"".toList ++ (key ++ '"' :: rest))) =
      some (String.ofList key) := by
  have htake : (key ++ '"' :: rest).takeWhile (· ≠ '"') = key := by
    rw [List.takeWhile_append_of_pos (by simpa using hkey)]
    simp
  have hdrop : afterFirst "\"listenKey\":\"".toList
      ('{' :: ("\"listenKey\":\"".toList ++ (key ++ '"' :: rest))) =
        some (key ++ '"' :: rest) := rfl
  unfold listenKeyIn
  rw [hdrop, Option.map_some, htake]

/-! ## The coroutine -/

variable {F : Type*} [Zero F] [Add F] [Sub F] [Mul F] [Div F] [LT F] [DecidableLT F]

/-- The effect of `handle_message` on the store. -/
def handled (oms : OMSCore F) (doc : Option (StreamMessage F)) : OMSCore F :=
  match doc with
  | some ⟨some "ORDER_TRADE_UPDATE", some o⟩ => oms.delivered o
  | _ => oms

/-- The answer of `handle_message`: the stream is to be torn down. -/
def tearsDown (doc : Option (StreamMessage F)) : Bool :=
  doc.any fun m => m.e = some "listenKeyExpired"

def isMarginCall (doc : Option (StreamMessage F)) : Bool :=
  doc.any fun m => m.e = some "MARGIN_CALL"

def launched (listenKey : String) (oms : OMSCore F) (hasMarginCallback : Bool) :
    UserDataFeed F where
  pc := .deleting
  backoffMs := kMinBackoff
  listenKey := listenKey
  oms := oms
  hasMarginCallback := hasMarginCallback

def step (s : UserDataFeed F) (e : FeedEvent F) : Option (UserDataFeed F) :=
  match s.pc, e with
  | .deleting, .deleted => some { s with pc := .fetching }
  | .fetching, .fetched body =>
    match body.bind listenKeyIn with
    | some key => some { s with pc := .connecting, listenKey := key }
    | none => some { s with pc := .waiting }
  | .connecting, .connected openOrders lookup t =>
    some { s with pc := .reading, oms := s.oms.reconcileOpenOrders openOrders lookup t }
  | .connecting, .failed | .reading, .failed => some { s with pc := .waiting }
  | .reading, .message _ doc =>
    if tearsDown doc then
      some { s with pc := .waiting, backoffMs := kMinBackoff, oms := handled s.oms doc }
    else some { s with oms := handled s.oms doc }
  | .waiting, .expired =>
    some { s with pc := .deleting, backoffMs := min (s.backoffMs * 2) kMaxBackoff }
  | _, .others write => some { s with oms := write s.oms }
  | _, _ => none

def actions (s : UserDataFeed F) (e : FeedEvent F) : List (FeedAction F) :=
  match s.pc, e with
  | .deleting, .deleted => [.delete]
  | .fetching, .fetched body => ((body.bind listenKeyIn).map FeedAction.fetch).toList
  | .connecting, .connected openOrders lookup t =>
    [.connect ("/ws/" ++ s.listenKey), .reconcile openOrders lookup t]
  | .reading, .message data doc =>
    if tearsDown doc then [.handle data doc, .returned]
    else if isMarginCall doc && s.hasMarginCallback then [.handle data doc, .marginCall data]
    else [.handle data doc]
  | .waiting, .expired => [.waited s.backoffMs]
  | _, .others write => [.others write]
  | _, _ => []

/-! ## What the trace tells -/

def own (tr : List (FeedAction F)) : List (FeedAction F) :=
  tr.filter fun a => match a with
    | .others _ => false
    | _ => true

/-- The waits since `run` last returned. -/
def waitsSince (tr : List (FeedAction F)) : Nat :=
  tr.foldl (fun k a => match a with
    | .returned => 0
    | .waited _ => k + 1
    | _ => k) 0

def backoffAfter (k : Nat) : Nat := min (200 * 2 ^ k) 10000

def isIncoming : FeedAction F → Bool
  | .handle _ _ | .marginCall _ => true
  | _ => false

/-- What stands before an action: a stream is opened under the key that was fetched for
it after the old one was deleted, it is reconciled before a message is handled, and a
wait is as long as the waits since the last return make it, whatever came up between. -/
def Fits (before : List (FeedAction F)) : FeedAction F → Prop
  | .delete => before = [] ∨ ∃ front ms, before = front ++ [.waited ms]
  | .fetch _ => ∃ front, before = front ++ [.delete]
  | .connect target => ∃ front key, before = front ++ [.delete, .fetch key] ∧
      target = "/ws/" ++ key
  | .reconcile _ _ _ => ∃ front target, before = front ++ [.connect target]
  | .handle _ _ => ∃ front openOrders lookup t ms,
      before = front ++ .reconcile openOrders lookup t :: ms ∧ ms.all isIncoming = true
  | .marginCall data => ∃ front doc, before = front ++ [.handle data doc] ∧
      isMarginCall doc = true
  | .returned => ∃ front data doc, before = front ++ [.handle data doc] ∧ tearsDown doc = true
  | .waited ms => ms = backoffAfter (waitsSince before)
  | .others _ => False

def storeAfter (oms : OMSCore F) : FeedAction F → OMSCore F
  | .reconcile openOrders lookup t => oms.reconcileOpenOrders openOrders lookup t
  | .handle _ doc => handled oms doc
  | .others write => write oms
  | _ => oms

def EndsAt (s : UserDataFeed F) (tr : List (FeedAction F)) : Prop :=
  match s.pc with
  | .deleting => tr = [] ∨ ∃ front ms, tr = front ++ [.waited ms]
  | .fetching => ∃ front, tr = front ++ [.delete]
  | .connecting => ∃ front, tr = front ++ [.delete, .fetch s.listenKey]
  | .reading => ∃ front openOrders lookup t ms,
      tr = front ++ .reconcile openOrders lookup t :: ms ∧ ms.all isIncoming = true
  | .waiting => True

structure Ordered (s : UserDataFeed F) (tr : List (FeedAction F)) : Prop where
  order : EachAfter Fits tr
  ends : EndsAt s tr
  backoff : s.backoffMs = backoffAfter (waitsSince tr)

structure Traced (oms : OMSCore F) (s : UserDataFeed F) (tr : List (FeedAction F)) : Prop where
  own : Ordered s (own tr)
  oms : s.oms = tr.foldl storeAfter oms

theorem traced_launched (listenKey : String) (oms : OMSCore F) (hasMarginCallback : Bool) :
    Traced oms (launched listenKey oms hasMarginCallback) [] where
  own := ⟨.nil, Or.inl rfl, rfl⟩
  oms := rfl

theorem backoffAfter_succ (k : Nat) :
    min (backoffAfter k * 2) kMaxBackoff = backoffAfter (k + 1) := by
  unfold backoffAfter kMaxBackoff
  rw [Nat.pow_succ]
  omega

variable {oms : OMSCore F} {s s' : UserDataFeed F} {tr : List (FeedAction F)}

omit [Zero F] [Add F] [Sub F] [Mul F] [Div F] [LT F] [DecidableLT F] in
theorem actions_others (s : UserDataFeed F) (write : OMSCore F → OMSCore F) :
    s.actions (.others write) = [.others write] := by
  unfold actions
  cases s.pc <;> rfl

theorem Ordered.step (h : Ordered s tr) {e : FeedEvent F} (hs : s.step e = some s') :
    Ordered s' (tr ++ own (s.actions e)) := by
  obtain ⟨horder, hends, hbackoff⟩ := h
  have hends₀ := hends
  unfold UserDataFeed.step at hs
  unfold EndsAt at hends
  unfold actions
  split at hs
  case h_1 hpc =>
    cases hs
    simp only [hpc] at hends ⊢
    refine ⟨horder.concat hends, ⟨tr, rfl⟩, ?_⟩
    simpa [own, waitsSince] using hbackoff
  case h_2 body hpc =>
    simp only [hpc] at hends ⊢
    cases hkey : body.bind listenKeyIn with
    | none =>
      rw [hkey] at hs
      cases hs
      exact ⟨by simpa [own] using horder, trivial, by simpa [own] using hbackoff⟩
    | some key =>
      rw [hkey] at hs
      cases hs
      obtain ⟨front, rfl⟩ := hends
      refine ⟨horder.concat ⟨front, rfl⟩, ⟨front, ?_⟩, ?_⟩
      · simp [own]
      · simpa [own, waitsSince] using hbackoff
  case h_3 openOrders lookup t hpc =>
    cases hs
    simp only [hpc] at hends ⊢
    obtain ⟨front, rfl⟩ := hends
    refine ⟨horder.concat_two ⟨front, s.listenKey, rfl, rfl⟩ ⟨_, _, rfl⟩, ?_, ?_⟩
    · refine ⟨front ++ [.delete, .fetch s.listenKey, .connect ("/ws/" ++ s.listenKey)],
        openOrders, lookup, t, [], ?_, rfl⟩
      simp [own]
    · simpa [own, waitsSince] using hbackoff
  case h_4 hpc | h_5 hpc =>
    cases hs
    simp only [hpc]
    exact ⟨by simpa [own] using horder, trivial, by simpa [own] using hbackoff⟩
  case h_6 data doc hpc =>
    simp only [hpc] at hends ⊢
    have hfits : Fits tr (.handle data doc) := hends
    by_cases hdown : tearsDown doc = true
    · rw [if_pos hdown] at hs ⊢
      cases hs
      refine ⟨horder.concat_two hfits ⟨tr, data, doc, rfl, hdown⟩, trivial, ?_⟩
      simp [own, waitsSince, backoffAfter, kMinBackoff]
    · rw [if_neg hdown] at hs ⊢
      cases hs
      obtain ⟨front, openOrders, lookup, t, ms, htr, hms⟩ := hends
      by_cases hcall : (isMarginCall doc && s.hasMarginCallback) = true
      · rw [if_pos hcall]
        rw [Bool.and_eq_true] at hcall
        refine ⟨horder.concat_two hfits ⟨tr, doc, rfl, hcall.1⟩, ?_, ?_⟩
        · unfold EndsAt
          simp only [hpc]
          refine ⟨front, openOrders, lookup, t, ms ++ [.handle data doc, .marginCall data], ?_, ?_⟩
          · rw [htr]
            simp [own]
          · simp [hms, isIncoming]
        · simpa [own, waitsSince] using hbackoff
      · rw [if_neg hcall]
        refine ⟨horder.concat hfits, ?_, ?_⟩
        · unfold EndsAt
          simp only [hpc]
          refine ⟨front, openOrders, lookup, t, ms ++ [.handle data doc], ?_, ?_⟩
          · rw [htr]
            simp [own]
          · simp [hms, isIncoming]
        · simpa [own, waitsSince] using hbackoff
  case h_7 hpc =>
    cases hs
    simp only [hpc]
    refine ⟨horder.concat hbackoff, Or.inr ⟨tr, _, rfl⟩, ?_⟩
    show min (s.backoffMs * 2) kMaxBackoff = _
    rw [hbackoff, backoffAfter_succ]
    simp [own, waitsSince]
  case h_8 write =>
    cases hs
    show Ordered _ (tr ++ own (s.actions (.others write)))
    rw [actions_others]
    show Ordered _ (tr ++ [])
    rw [List.append_nil]
    exact ⟨horder, hends₀, hbackoff⟩
  case h_9 => cases hs

theorem step_oms {e : FeedEvent F} (hs : s.step e = some s') :
    s'.oms = (s.actions e).foldl storeAfter s.oms := by
  unfold UserDataFeed.step at hs
  unfold actions
  split at hs
  case h_2 body hpc =>
    simp only [hpc]
    cases hkey : body.bind listenKeyIn with
    | none | some key =>
      rw [hkey] at hs
      cases hs
      rfl
  case h_6 data doc hpc =>
    simp only [hpc]
    split_ifs at hs ⊢ <;> (cases hs; rfl)
  case h_8 write =>
    cases hs
    cases hpc' : s.pc <;> rfl
  case h_9 => cases hs
  all_goals
    rename_i hpc
    cases hs
    simp only [hpc]
    rfl

theorem Traced.step (h : Traced oms s tr) {e : FeedEvent F} (hs : s.step e = some s') :
    Traced oms s' (tr ++ s.actions e) where
  own := by
    rw [UserDataFeed.own, List.filter_append]
    exact h.own.step hs
  oms := by
    rw [List.foldl_append, ← h.oms]
    exact step_oms hs

/-- Along every run of the feed, whatever the network answers, throws or sends: each
stream is opened under a key fetched for it, after the old one was deleted, and is
reconciled before the first of its messages; the store is what reconciliations and
messages have made of it, in their order; and a wait is 200 ms doubled by each wait since
the last expiry of a key, up to 10 s, however long the streams between were up. -/
theorem feed_sessions {listenKey : String} {hasMarginCallback : Bool}
    {es : List (FeedEvent F)}
    (hrun : Machine.run UserDataFeed.step (launched listenKey oms hasMarginCallback) es =
      some s) :
    let tr := Machine.outputs UserDataFeed.step actions
      (launched listenKey oms hasMarginCallback) es
    EachAfter Fits (own tr) ∧ s.oms = tr.foldl storeAfter oms := by
  have h := Machine.run_outputs_of_forall (I := Traced oms) (P := fun _ => True)
    (fun _ _ _ _ h _ hs => h.step hs) (traced_launched listenKey oms hasMarginCallback)
    (fun _ _ => trivial) hrun
  rw [List.nil_append] at h
  exact ⟨h.own.order, h.oms⟩

/-- Two attempts fail, then a stream is up until its key expires: the last wait is the
shortest again. -/
theorem feed_sessions_expiry :
    let body (key : String) := "\x7b\"listenKey\":\"".toList ++ key.toList ++ "\"\x7d".toList
    let es : List (FeedEvent Rat) :=
      [.deleted, .fetched none, .expired, .deleted, .fetched (some (body "k1")), .failed, .expired,
        .deleted, .fetched (some (body "k2")), .connected none (fun _ _ => none) ⟨0, 0⟩,
        .message "\x7b\x7d" (some ⟨some "listenKeyExpired", none⟩), .expired]
    ∃ s : UserDataFeed Rat,
      Machine.run UserDataFeed.step (launched "" OMSCore.init false) es = some s ∧
      s.listenKey = "k2" ∧ s.backoffMs = 400 ∧
      ((Machine.outputs UserDataFeed.step actions (launched "" OMSCore.init false) es).filterMap
        fun a => match a with
          | .waited ms => some ms
          | _ => none) = [200, 400, 200] ∧
      EachAfter Fits
        (own (Machine.outputs UserDataFeed.step actions (launched "" OMSCore.init false) es)) := by
  intro body es
  obtain ⟨s, hs, hkey, hback⟩ := Machine.exists_of_elim
    (o := Machine.run UserDataFeed.step (launched "" (OMSCore.init : OMSCore Rat) false) es)
    (P := fun s => s.listenKey = "k2" ∧ s.backoffMs = 400) (by decide +kernel)
  exact ⟨s, hs, hkey, hback, by decide +kernel, (feed_sessions hs).1⟩

end UserDataFeed
end HoloMarket
