import HoloMarket.Lib.Binary64
import Mathlib.Algebra.Field.Rat
import Mathlib.Data.List.Sort

/-!
# Quotes from aggregated trades

`_synthesize_chunk` and `fetch_symbol_day` of `download_binance_aggtrades_v2.py`
beside the row loop of `download_binance_aggtrades.py`.  A missing number is
`none`; prices and quantities are only moved, so that their type is a parameter.
The column of times is of integers where every time of the frame parses and of
doubles where one does not.
-/

namespace HoloMarket
namespace AggTrades

open Binary64

variable {K : Type}

/-- A row of the archive after `to_numeric`.  The times are whole milliseconds, as the
archive publishes them. -/
structure RawTrade (K : Type) where
  price : Option K
  quantity : Option K
  transactTime : Option Int
  isBuyerMaker : Bool

structure Trade (K : Type) where
  price : K
  quantity : K
  transactTime : Int
  isBuyerMaker : Bool
deriving DecidableEq, Repr

/-- A row that `dropna` keeps. -/
def RawTrade.keep (r : RawTrade K) : Option (Trade K) :=
  match r.price, r.quantity, r.transactTime with
  | some price, some quantity, some transactTime =>
    some ⟨price, quantity, transactTime, r.isBuyerMaker⟩
  | _, _, _ => none

def dropna (frame : List (RawTrade K)) : List (Trade K) := frame.filterMap RawTrade.keep

/-- The times of the frame are doubles. -/
def floatTimes (frame : List (RawTrade K)) : Bool := frame.any fun r => r.transactTime.isNone

structure QuoteRow (K : Type) where
  timestampNs : Int
  bidPrice : Option K
  bidQty : Option K
  askPrice : Option K
  askQty : Option K
deriving DecidableEq, Repr

/-! ## The row loop -/

/-- The locals of the row loop. -/
structure Quote (K : Type) where
  bidPrice : K
  bidQty : K
  askPrice : K
  askQty : K

def Quote.start [Zero K] (price : K) : Quote K := ⟨price, 0, price, 0⟩

def Quote.next (q : Quote K) (t : Trade K) : Quote K :=
  if t.isBuyerMaker then { q with bidPrice := t.price, bidQty := t.quantity }
  else { q with askPrice := t.price, askQty := t.quantity }

def Quote.row (q : Quote K) (timestampNs : Int) : QuoteRow K :=
  ⟨timestampNs, some q.bidPrice, some q.bidQty, some q.askPrice, some q.askQty⟩

/-- The rows of the loop, given the stamp of each trade. -/
def loopRows (q : Quote K) : List (Int × Trade K) → List (QuoteRow K)
  | [] => []
  | (stamp, t) :: rest => (q.next t).row stamp :: loopRows (q.next t) rest

/-- `int(ts) * 1_000_000`, exact in Python. -/
def loopStamp (floats : Bool) (t : Trade K) : Int :=
  (if floats then Binary64.round t.transactTime else t.transactTime) * 1000000

/-- The frame that `_fetch_and_transform` builds; without a row it fails. -/
def fetchAndTransform [Zero K] (sortValues : List (Trade K) → List (Trade K))
    (day : List (RawTrade K)) : Option (List (QuoteRow K)) :=
  match sortValues (dropna day) with
  | [] => none
  | t :: ts => some (loopRows (.start t.price)
      ((t :: ts).map fun t => (loopStamp (floatTimes day) t, t)))

/-! ## The chunks -/

structure QuoteState (K : Type) where
  bidPrice : Option K
  bidQty : Option K
  askPrice : Option K
  askQty : Option K
  seeded : Bool

def QuoteState.fresh [Zero K] : QuoteState K := ⟨none, some 0, none, some 0, false⟩

/-- `ffill` behind a last value. -/
def ffillFrom : Option K → List (Option K) → List (Option K)
  | _, [] => []
  | last, x :: xs => (x <|> last) :: ffillFrom (x <|> last) xs

/-- `iloc[0]` is patched with the value from the chunk before. -/
def patchFirst (s : List (Option K)) (v : Option K) : List (Option K) :=
  match s with
  | [] => []
  | x :: xs => (x <|> v) :: xs

def filled (s : List (Option K)) (v : Option K) : List (Option K) :=
  ffillFrom none (patchFirst s v)

/-- `transact_time * 1_000_000` as a 64-bit integer. -/
def chunkStamp (floats : Bool) (t : Trade K) : Int :=
  if floats then toInt64 (Binary64.round (Binary64.round t.transactTime * 1000000))
  else wrapInt64 (t.transactTime * 1000000)

def QuoteState.seed [Zero K] (state : QuoteState K) (chunk : List (Trade K)) : QuoteState K :=
  if state.seeded then state
  else
    let seedPrice := chunk.head?.map Trade.price
    ⟨seedPrice, some 0, seedPrice, some 0, true⟩

def synthesizeChunk [Zero K] (sortValues : List (Trade K) → List (Trade K)) (floats : Bool)
    (chunk : List (Trade K)) (state : QuoteState K) : List (QuoteRow K) × QuoteState K :=
  let chunk := sortValues chunk
  let state := state.seed chunk
  let bidPrice := filled (chunk.map fun t => if t.isBuyerMaker then some t.price else none)
    state.bidPrice
  let bidQty := filled (chunk.map fun t => if t.isBuyerMaker then some t.quantity else none)
    state.bidQty
  let askPrice := filled (chunk.map fun t => if !t.isBuyerMaker then some t.price else none)
    state.askPrice
  let askQty := filled (chunk.map fun t => if !t.isBuyerMaker then some t.quantity else none)
    state.askQty
  let out := List.zipWith (fun stamp r => (⟨stamp, r.1, r.2.1, r.2.2.1, r.2.2.2⟩ : QuoteRow K))
    (chunk.map (chunkStamp floats)) (bidPrice.zip (bidQty.zip (askPrice.zip askQty)))
  (out, ⟨bidPrice.getLast?.join, bidQty.getLast?.join, askPrice.getLast?.join,
    askQty.getLast?.join, state.seeded⟩)

/-- The loop over the reader: the chunks of output. -/
def outChunks [Zero K] (sortValues : List (Trade K) → List (Trade K)) :
    QuoteState K → List (List (RawTrade K)) → List (List (QuoteRow K))
  | _, [] => []
  | state, chunk :: rest =>
    if (dropna chunk).isEmpty then outChunks sortValues state rest
    else
      let r := synthesizeChunk sortValues (floatTimes chunk) (dropna chunk) state
      r.1 :: outChunks sortValues r.2 rest

/-- At most `fuel` chunks of `n + 1` rows each, the last of what is left. -/
def chunksFrom {α : Type} (n : Nat) : Nat → List α → List (List α)
  | 0, _ => []
  | _, [] => []
  | fuel + 1, x :: xs => (x :: xs.take n) :: chunksFrom n fuel (xs.drop n)

/-- The chunks of the reader. -/
def chunksOf {α : Type} (chunksize : Nat) (rows : List α) : List (List α) :=
  chunksFrom (chunksize - 1) rows.length rows

/-- The frame that `fetch_symbol_day` returns for an archive. -/
def fetchSymbolDay [Zero K] (sortValues : List (Trade K) → List (Trade K)) (chunksize : Nat)
    (day : List (RawTrade K)) : Option (List (QuoteRow K)) :=
  match outChunks sortValues .fresh (chunksOf chunksize day) with
  | [] => none
  | out :: outs => some (out :: outs).flatten

/-! ## A chunk is a stretch of the loop -/

theorem filled_eq (s : List (Option K)) (v : Option K) : filled s v = ffillFrom v s := by
  cases s with
  | nil => rfl
  | cons x xs =>
    have hfirst : ((x <|> v) <|> none) = (x <|> v) := by
      cases x <;> cases v <;> rfl
    show ((x <|> v) <|> none) :: ffillFrom ((x <|> v) <|> none) xs = _
    rw [hfirst]
    rfl

def QuoteState.ofQuote (q : Quote K) : QuoteState K :=
  ⟨some q.bidPrice, some q.bidQty, some q.askPrice, some q.askQty, true⟩

theorem zipWith_filled (stamp : Trade K → Int) (q : Quote K) (ts : List (Trade K)) :
    List.zipWith (fun s r => (⟨s, r.1, r.2.1, r.2.2.1, r.2.2.2⟩ : QuoteRow K)) (ts.map stamp)
      ((ffillFrom (some q.bidPrice)
          (ts.map fun t => if t.isBuyerMaker then some t.price else none)).zip
        ((ffillFrom (some q.bidQty)
          (ts.map fun t => if t.isBuyerMaker then some t.quantity else none)).zip
        ((ffillFrom (some q.askPrice)
          (ts.map fun t => if !t.isBuyerMaker then some t.price else none)).zip
        (ffillFrom (some q.askQty)
          (ts.map fun t => if !t.isBuyerMaker then some t.quantity else none))))) =
      loopRows q (ts.map fun t => (stamp t, t)) := by
  induction ts generalizing q with
  | nil => rfl
  | cons t ts ih =>
    cases hm : t.isBuyerMaker with
    | true =>
      have hnext : q.next t = { q with bidPrice := t.price, bidQty := t.quantity } := if_pos hm
      have hrest := ih (q.next t)
      simp only [List.map_cons, ffillFrom, hm, loopRows, hnext] at hrest ⊢
      exact congrArg _ hrest
    | false =>
      have hnext : q.next t = { q with askPrice := t.price, askQty := t.quantity } :=
        if_neg (by rw [hm]; exact Bool.false_ne_true)
      have hrest := ih (q.next t)
      simp only [List.map_cons, ffillFrom, hm, loopRows, hnext] at hrest ⊢
      exact congrArg _ hrest

theorem getLast?_ffillFrom {v : Option K} {s : List (Option K)} (hs : s ≠ []) :
    (ffillFrom v s).getLast? = some (s.foldl (fun last x => x <|> last) v) := by
  induction s generalizing v with
  | nil => exact absurd rfl hs
  | cons x xs ih =>
    cases xs with
    | nil => rfl
    | cons y ys =>
      rw [ffillFrom, List.foldl_cons, ← ih (List.cons_ne_nil y ys), ffillFrom,
        List.getLast?_cons_cons]

/-- A column that starts from a known value ends with the value that the loop
holds. -/
theorem getLast?_column (get : Quote K → K) {upd : Trade K → Option K}
    (hget : ∀ (q : Quote K) t, (upd t <|> some (get q)) = some (get (q.next t))) (q : Quote K)
    {ts : List (Trade K)} (hts : ts ≠ []) :
    (ffillFrom (some (get q)) (ts.map upd)).getLast?.join = some (get (ts.foldl Quote.next q)) := by
  have hmap : ts.map upd ≠ [] := by rwa [Ne, List.map_eq_nil_iff]
  rw [getLast?_ffillFrom hmap, Option.join_some, List.foldl_map]
  clear hts hmap
  induction ts generalizing q with
  | nil => rfl
  | cons t ts ih =>
    rw [List.foldl_cons, List.foldl_cons, hget]
    exact ih (q.next t)

theorem next_columns (q : Quote K) (t : Trade K) :
    ((if t.isBuyerMaker then some t.price else none) <|> some q.bidPrice) =
      some (q.next t).bidPrice ∧
    ((if t.isBuyerMaker then some t.quantity else none) <|> some q.bidQty) =
      some (q.next t).bidQty ∧
    ((if !t.isBuyerMaker then some t.price else none) <|> some q.askPrice) =
      some (q.next t).askPrice ∧
    ((if !t.isBuyerMaker then some t.quantity else none) <|> some q.askQty) =
      some (q.next t).askQty := by
  unfold Quote.next
  cases t.isBuyerMaker <;> exact ⟨rfl, rfl, rfl, rfl⟩

section
variable [Zero K] {sortValues : List (Trade K) → List (Trade K)}

/-- A chunk that starts from the quote `q` gives the rows of the loop from `q`,
and leaves the quote that the loop leaves. -/
theorem synthesizeChunk_eq (floats : Bool) {q : Quote K} {ts : List (Trade K)} (hts : ts ≠ [])
    (hsort : sortValues ts = ts) (state : QuoteState K) (hstate : state.seed ts = .ofQuote q) :
    synthesizeChunk sortValues floats ts state =
      (loopRows q (ts.map fun t => (chunkStamp floats t, t)),
        .ofQuote (ts.foldl Quote.next q)) := by
  unfold synthesizeChunk
  simp only [hsort, hstate, filled_eq]
  refine Prod.ext (zipWith_filled (chunkStamp floats) q ts) ?_
  show QuoteState.mk _ _ _ _ _ = _
  unfold QuoteState.ofQuote
  rw [getLast?_column Quote.bidPrice (fun q t => (next_columns q t).1) q hts,
    getLast?_column Quote.bidQty (fun q t => (next_columns q t).2.1) q hts,
    getLast?_column Quote.askPrice (fun q t => (next_columns q t).2.2.1) q hts,
    getLast?_column Quote.askQty (fun q t => (next_columns q t).2.2.2) q hts]

omit [Zero K] in
theorem loopRows_append (q : Quote K) (xs ys : List (Int × Trade K)) :
    loopRows q (xs ++ ys) =
      loopRows q xs ++ loopRows ((xs.map Prod.snd).foldl Quote.next q) ys := by
  induction xs generalizing q with
  | nil => rfl
  | cons x xs ih => exact congrArg _ (ih (q.next x.2))

/-- The trades of the chunks with the stamps that their chunks give them. -/
def stamped (chunks : List (List (RawTrade K))) : List (Int × Trade K) :=
  chunks.flatMap fun chunk => (dropna chunk).map fun t => (chunkStamp (floatTimes chunk) t, t)

/-- The chunks behind the first are the rest of the loop. -/
theorem flatten_outChunks {chunks : List (List (RawTrade K))}
    (hsort : ∀ chunk ∈ chunks, sortValues (dropna chunk) = dropna chunk) (q : Quote K) :
    (outChunks sortValues (.ofQuote q) chunks).flatten = loopRows q (stamped chunks) := by
  induction chunks generalizing q with
  | nil => rfl
  | cons chunk chunks ih =>
    rw [List.forall_mem_cons] at hsort
    rw [outChunks]
    by_cases hempty : dropna chunk = []
    · rw [if_pos (List.isEmpty_iff.mpr hempty), ih hsort.2]
      unfold stamped
      rw [List.flatMap_cons, hempty]
      rfl
    · have hchunk := synthesizeChunk_eq (floatTimes chunk) (q := q) hempty hsort.1
        (.ofQuote q) rfl
      rw [if_neg (mt List.isEmpty_iff.mp hempty)]
      dsimp only
      rw [hchunk, List.flatten_cons, ih hsort.2]
      unfold stamped
      rw [List.flatMap_cons, loopRows_append, List.map_map]
      congr 2
      show _ = ((dropna chunk).map id).foldl Quote.next q
      rw [List.map_id]

/-- The first chunk with a trade seeds the loop with its first trade. -/
theorem outChunks_fresh {chunks : List (List (RawTrade K))}
    (hsort : ∀ chunk ∈ chunks, sortValues (dropna chunk) = dropna chunk) :
    match dropna chunks.flatten with
    | [] => outChunks sortValues .fresh chunks = []
    | t :: _ => outChunks sortValues .fresh chunks ≠ [] ∧
      (outChunks sortValues .fresh chunks).flatten =
        loopRows (.start t.price) (stamped chunks) := by
  induction chunks with
  | nil => rfl
  | cons chunk chunks ih =>
    rw [List.forall_mem_cons] at hsort
    unfold dropna at ih ⊢
    rw [List.flatten_cons, List.filterMap_append, outChunks]
    cases hkept : dropna chunk with
    | nil =>
      have hstamped : stamped (chunk :: chunks) = stamped chunks := by
        unfold stamped
        rw [List.flatMap_cons, hkept]
        rfl
      unfold dropna at hkept
      rw [hkept, hstamped, List.nil_append]
      exact ih hsort.2
    | cons t ts =>
      have hchunk := synthesizeChunk_eq (floatTimes chunk) (q := .start t.price)
        (List.cons_ne_nil t ts) (hkept ▸ hsort.1) .fresh rfl
      unfold dropna at hkept
      rw [hkept, List.cons_append]
      dsimp only
      rw [if_neg (by simp), hchunk]
      refine ⟨List.cons_ne_nil _ _, ?_⟩
      rw [List.flatten_cons, flatten_outChunks hsort.2]
      unfold stamped dropna
      rw [List.flatMap_cons, hkept, loopRows_append, List.map_map]
      congr 2
      show _ = ((t :: ts).map id).foldl Quote.next (.start t.price)
      rw [List.map_id]

end

/-! ## The stamps -/

/-- With the same trades, the rows are the same exactly when the stamps are. -/
theorem loopRows_inj (q : Quote K) {xs ys : List (Int × Trade K)}
    (h : xs.map Prod.snd = ys.map Prod.snd) : loopRows q xs = loopRows q ys ↔ xs = ys := by
  induction xs generalizing q ys with
  | nil =>
    rw [List.map_nil, eq_comm, List.map_eq_nil_iff] at h
    subst h
    exact iff_of_true rfl rfl
  | cons x xs ih =>
    cases ys with
    | nil => cases h
    | cons y ys =>
      obtain ⟨sx, tx⟩ := x
      obtain ⟨sy, ty⟩ := y
      obtain ⟨htrade, hrest⟩ := List.cons.inj h
      obtain rfl : tx = ty := htrade
      rw [loopRows, loopRows, List.cons_eq_cons, List.cons_eq_cons, ih _ hrest, Prod.mk_inj,
        and_iff_left rfl]
      exact and_congr_left fun _ => ⟨congrArg QuoteRow.timestampNs, fun hstamp => by rw [hstamp]⟩

/-- A row without its stamp. -/
def QuoteRow.sides (r : QuoteRow K) : Option K × Option K × Option K × Option K :=
  (r.bidPrice, r.bidQty, r.askPrice, r.askQty)

theorem sides_loopRows (q : Quote K) {xs ys : List (Int × Trade K)}
    (h : xs.map Prod.snd = ys.map Prod.snd) :
    (loopRows q xs).map QuoteRow.sides = (loopRows q ys).map QuoteRow.sides := by
  induction xs generalizing q ys with
  | nil =>
    rw [List.map_nil, eq_comm, List.map_eq_nil_iff] at h
    rw [h]
  | cons x xs ih =>
    cases ys with
    | nil => cases h
    | cons y ys =>
      obtain ⟨sx, tx⟩ := x
      obtain ⟨sy, ty⟩ := y
      obtain ⟨htrade, hrest⟩ := List.cons.inj h
      obtain rfl : tx = ty := htrade
      rw [loopRows, loopRows, List.map_cons, List.map_cons, ih _ hrest]
      rfl

theorem stamped_eq_iff (chunks : List (List (RawTrade K))) (floats : Bool) :
    stamped chunks = (dropna chunks.flatten).map (fun t => (loopStamp floats t, t)) ↔
      ∀ chunk ∈ chunks, ∀ t ∈ dropna chunk,
        chunkStamp (floatTimes chunk) t = loopStamp floats t := by
  induction chunks with
  | nil => exact iff_of_true rfl fun _ hc => nomatch hc
  | cons chunk chunks ih =>
    unfold stamped dropna at ih ⊢
    rw [List.forall_mem_cons, ← ih, List.flatMap_cons, List.flatten_cons, List.filterMap_append,
      List.map_append]
    constructor
    · intro h
      obtain ⟨hhead, hrest⟩ := List.append_inj h (by rw [List.length_map, List.length_map])
      exact ⟨fun t ht => congrArg Prod.fst (List.map_inj_left.mp hhead t ht), hrest⟩
    · rintro ⟨hhead, hrest⟩
      rw [hrest]
      congr 1
      exact List.map_congr_left fun t ht => by rw [hhead t ht]

/-- A time whose nanoseconds fit in 64 bits is a double. -/
theorem round_time {t : Int} (h : InInt64 (t * 1000000)) : Binary64.round t = t := by
  refine (round_eq_self_iff t).mpr (exact_of_lt ?_)
  unfold InInt64 at h
  omega

/-- So is one whose rounded nanoseconds fit. -/
theorem round_time' {t : Int} (h : InInt64 (Binary64.round t * 1000000)) :
    Binary64.round t = t := by
  refine (round_eq_self_iff t).mpr (exact_of_lt ?_)
  by_contra hlarge
  have hround := le_roundNat (Nat.le_of_not_lt hlarge)
  rw [← natAbs_round] at hround
  unfold InInt64 at h
  omega

theorem chunkStamp_eq_loopStamp_iff {chunkFloats dayFloats : Bool}
    (hday : chunkFloats = true → dayFloats = true) (t : Trade K) :
    chunkStamp chunkFloats t = loopStamp dayFloats t ↔
      InInt64 (t.transactTime * 1000000) ∧
        (chunkFloats = true → Exact (t.transactTime * 1000000)) := by
  unfold chunkStamp loopStamp
  cases hc : chunkFloats with
  | true =>
    rw [hday hc, if_pos rfl, if_pos rfl, forall_prop_of_true rfl]
    constructor
    · intro h
      by_cases hfits : InInt64 (Binary64.round (Binary64.round t.transactTime * 1000000))
      · rw [toInt64, if_pos hfits] at h
        rw [h] at hfits
        rw [round_time' hfits] at h hfits
        exact ⟨hfits, (round_eq_self_iff _).mp h⟩
      · -- the least integer is not a whole number of milliseconds
        rw [toInt64, if_neg hfits] at h
        omega
    · rintro ⟨hfits, hexact⟩
      rw [round_time hfits, (round_eq_self_iff _).mpr hexact, toInt64, if_pos hfits]
  | false =>
    have hnot : ¬ false = true := Bool.false_ne_true
    rw [if_neg hnot, and_iff_left fun h => absurd h hnot]
    constructor
    · intro h
      have hfits := inInt64_wrapInt64 (t.transactTime * 1000000)
      cases hd : dayFloats with
      | true =>
        rw [hd, if_pos rfl] at h
        rw [h] at hfits
        rwa [round_time' hfits] at hfits
      | false =>
        rw [hd, if_neg hnot] at h
        rwa [h] at hfits
    · intro hfits
      rw [(wrapInt64_eq_self_iff _).mpr hfits, round_time hfits, ite_self]

/-! ## Chunks and loop -/

theorem flatten_chunksFrom {α : Type} (n : Nat) {fuel : Nat} {rows : List α}
    (hfuel : rows.length ≤ fuel) : (chunksFrom n fuel rows).flatten = rows := by
  induction fuel generalizing rows with
  | zero =>
    rw [List.length_eq_zero_iff.mp (Nat.le_zero.mp hfuel)]
    rfl
  | succ fuel ih =>
    cases rows with
    | nil => rfl
    | cons x xs =>
      have hrest : (xs.drop n).length ≤ fuel := by
        rw [List.length_cons] at hfuel
        rw [List.length_drop]
        omega
      rw [chunksFrom, List.flatten_cons, ih hrest, List.cons_append, List.take_append_drop]

theorem flatten_chunksOf {α : Type} (chunksize : Nat) (rows : List α) :
    (chunksOf chunksize rows).flatten = rows :=
  flatten_chunksFrom _ (Nat.le_refl _)

theorem floatTimes_of_mem {day chunk : List (RawTrade K)} (hsub : chunk ⊆ day)
    (h : floatTimes chunk = true) : floatTimes day = true := by
  unfold floatTimes at h ⊢
  rw [List.any_eq_true] at h ⊢
  obtain ⟨r, hr, hnone⟩ := h
  exact ⟨r, hsub hr, hnone⟩

section
variable [Zero K] {sortValues : List (Trade K) → List (Trade K)}

/-- Both scripts as the loop from the first trade, with their own stamps. -/
theorem fetch_eq {day : List (RawTrade K)} {chunks : List (List (RawTrade K))}
    (hflat : chunks.flatten = day) (hday : sortValues (dropna day) = dropna day)
    (hsort : ∀ chunk ∈ chunks, sortValues (dropna chunk) = dropna chunk) :
    (dropna day = [] ∧ outChunks sortValues .fresh chunks = [] ∧
      fetchAndTransform sortValues day = none) ∨
    ∃ q : Quote K, outChunks sortValues .fresh chunks ≠ [] ∧
      (outChunks sortValues .fresh chunks).flatten = loopRows q (stamped chunks) ∧
      fetchAndTransform sortValues day =
        some (loopRows q ((dropna day).map fun t => (loopStamp (floatTimes day) t, t))) := by
  have hfresh := outChunks_fresh hsort
  unfold fetchAndTransform
  rw [hflat] at hfresh
  rw [hday]
  cases hkept : dropna day with
  | nil =>
    rw [hkept] at hfresh
    exact Or.inl ⟨rfl, hfresh, rfl⟩
  | cons t ts =>
    rw [hkept] at hfresh
    exact Or.inr ⟨.start t.price, hfresh.1, hfresh.2, rfl⟩

omit [Zero K] in
theorem sorted_chunk {day : List (RawTrade K)} {chunks : List (List (RawTrade K))}
    (hflat : chunks.flatten = day)
    (hday : (dropna day).Pairwise fun a b => a.transactTime ≤ b.transactTime)
    {chunk : List (RawTrade K)} (hchunk : chunk ∈ chunks) :
    (dropna chunk).Pairwise fun a b => a.transactTime ≤ b.transactTime := by
  refine List.Pairwise.sublist ?_ hday
  rw [← hflat]
  exact (List.sublist_flatten_of_mem hchunk).filterMap _

/-- For a day in the order of time and every chunk size, the two scripts give the
same prices and quantities.  They give the same rows exactly when the times of
the kept trades fit in 64 bits as nanoseconds and are doubles as nanoseconds
wherever a time of their chunk does not parse. -/
theorem chunked_eq_loop_iff
    (hsort : ∀ ts : List (Trade K), (ts.Pairwise fun a b => a.transactTime ≤ b.transactTime) →
      sortValues ts = ts) (chunksize : Nat) {day : List (RawTrade K)}
    (hday : (dropna day).Pairwise fun a b => a.transactTime ≤ b.transactTime) :
    ((fetchSymbolDay sortValues chunksize day).map fun out => out.map QuoteRow.sides) =
      ((fetchAndTransform sortValues day).map fun out => out.map QuoteRow.sides) ∧
    (fetchSymbolDay sortValues chunksize day = fetchAndTransform sortValues day ↔
      ∀ chunk ∈ chunksOf chunksize day, ∀ t ∈ dropna chunk,
        InInt64 (t.transactTime * 1000000) ∧
          (floatTimes chunk = true → Exact (t.transactTime * 1000000))) := by
  have hflat := flatten_chunksOf chunksize day
  have htrades : (stamped (chunksOf chunksize day)).map Prod.snd =
      ((dropna day).map fun t => (loopStamp (floatTimes day) t, t)).map Prod.snd := by
    have hmap : ∀ (f : Trade K → Int) (ts : List (Trade K)),
        (ts.map fun t => (f t, t)).map Prod.snd = ts := fun f ts => by
      rw [List.map_map]
      exact List.map_id ts
    rw [hmap, stamped, List.map_flatMap]
    simp only [hmap]
    conv_rhs => rw [← hflat, dropna, List.filterMap_flatten]
    rfl
  have hstamps : stamped (chunksOf chunksize day) =
      ((dropna day).map fun t => (loopStamp (floatTimes day) t, t)) ↔
      ∀ chunk ∈ chunksOf chunksize day, ∀ t ∈ dropna chunk,
        InInt64 (t.transactTime * 1000000) ∧
          (floatTimes chunk = true → Exact (t.transactTime * 1000000)) := by
    have hiff := stamped_eq_iff (chunksOf chunksize day) (floatTimes day)
    rw [hflat] at hiff
    refine hiff.trans (forall₂_congr fun chunk hchunk => forall₂_congr fun t ht => ?_)
    refine chunkStamp_eq_loopStamp_iff (floatTimes_of_mem ?_) t
    rw [← hflat]
    exact (List.sublist_flatten_of_mem hchunk).subset
  unfold fetchSymbolDay
  rcases fetch_eq hflat (hsort _ hday) fun chunk hchunk => hsort _ (sorted_chunk hflat hday hchunk)
    with ⟨hnone, hchunks, hloop⟩ | ⟨q, hne, hout, hloop⟩
  · rw [hchunks, hloop, ← hstamps]
    refine ⟨rfl, iff_of_true rfl ?_⟩
    rw [hnone, List.map_nil] at htrades ⊢
    exact List.map_eq_nil_iff.mp htrades
  · obtain ⟨out, outs, hcons⟩ := List.exists_cons_of_ne_nil hne
    rw [hcons] at hout ⊢
    rw [hloop, ← hstamps, ← loopRows_inj q htrades]
    show some ((out :: outs).flatten.map _) = some _ ∧ (some (out :: outs).flatten = some _ ↔ _)
    rw [hout, sides_loopRows q htrades]
    exact ⟨rfl, Option.some_inj⟩

end

/-! ## A malformed time -/

def ByTime (a b : Trade ℚ) : Prop := a.transactTime ≤ b.transactTime

instance : DecidableRel ByTime :=
  fun a b => inferInstanceAs (Decidable (a.transactTime ≤ b.transactTime))

theorem insertionSort_byTime (ts : List (Trade ℚ))
    (h : ts.Pairwise fun a b => a.transactTime ≤ b.transactTime) :
    ts.insertionSort ByTime = ts :=
  List.Pairwise.insertionSort_eq h

/-- A trade, and a row whose time does not parse. -/
def malformedDay (transactTime : Int) : List (RawTrade ℚ) :=
  [⟨some 100, some 1, some transactTime, true⟩, ⟨some 100, some 1, none, false⟩]

/-- Beside a malformed time the stamp of a trade loses 64 nanoseconds; in a chunk
of its own it does not. -/
theorem chunked_ne_loop :
    (fetchSymbolDay (List.insertionSort ByTime) 10 (malformedDay 1700000000001)).map
      (fun out => out.map QuoteRow.timestampNs) = some [1700000000000999936] ∧
    (fetchAndTransform (List.insertionSort ByTime) (malformedDay 1700000000001)).map
      (fun out => out.map QuoteRow.timestampNs) = some [1700000000001000000] ∧
    (fetchSymbolDay (List.insertionSort ByTime) 1 (malformedDay 1700000000001)).map
      (fun out => out.map QuoteRow.timestampNs) = some [1700000000001000000] ∧
    ¬ ∀ (sortValues : List (Trade ℚ) → List (Trade ℚ)),
      (∀ ts : List (Trade ℚ), (ts.Pairwise fun a b => a.transactTime ≤ b.transactTime) →
        sortValues ts = ts) → ∀ chunksize, 1 ≤ chunksize → ∀ day : List (RawTrade ℚ),
      ((dropna day).Pairwise fun a b => a.transactTime ≤ b.transactTime) →
      fetchSymbolDay sortValues chunksize day = fetchAndTransform sortValues day := by
  have hchunk : (fetchSymbolDay (List.insertionSort ByTime) 10 (malformedDay 1700000000001)).map
      (fun out => out.map QuoteRow.timestampNs) = some [1700000000000999936] := by decide +kernel
  have hloop : (fetchAndTransform (List.insertionSort ByTime) (malformedDay 1700000000001)).map
      (fun out => out.map QuoteRow.timestampNs) = some [1700000000001000000] := by decide +kernel
  refine ⟨hchunk, hloop, by decide +kernel, fun h => ?_⟩
  rw [h _ insertionSort_byTime 10 (by decide) (malformedDay 1700000000001) (by decide), hloop]
    at hchunk
  exact absurd hchunk (by decide)

/-- A time that is a multiple of four milliseconds keeps its stamp. -/
theorem chunked_eq_loop_multiple :
    fetchSymbolDay (List.insertionSort ByTime) 10 (malformedDay 1700000000000) =
      fetchAndTransform (List.insertionSort ByTime) (malformedDay 1700000000000) :=
  (chunked_eq_loop_iff insertionSort_byTime 10 (by decide)).2.mpr (by decide)

end AggTrades
end HoloMarket
