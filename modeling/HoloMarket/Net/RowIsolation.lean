import HoloMarket.Net.CsvReplay
import Mathlib.Algebra.Order.Field.Rat
import Mathlib.Algebra.Order.Ring.Unbundled.Rat

/-!
# Lines and rows of the CSV replay

The helpers of the row parser share only the end of the file as a bound.  A
number stops at the next comma or newline, but `skip_comma` runs on to the next
comma of the file, so a row ends inside its line exactly when the line has five
commas or is taken for a header.
-/

namespace HoloMarket
namespace Csv

/-- The text is over or starts with a byte that ends a number. -/
def Stops (rest : List UInt8) : Prop :=
  ∀ b ∈ rest.head?, b = Ascii.comma ∨ b = Ascii.newline

theorem stops_newline (rest : List UInt8) : Stops (Ascii.newline :: rest) := by
  intro b hb
  exact Or.inr (Option.some.inj hb).symm

theorem stops_comma (rest : List UInt8) : Stops (Ascii.comma :: rest) := by
  intro b hb
  exact Or.inl (Option.some.inj hb).symm

theorem Stops.notDigit {b : UInt8} {rest : List UInt8} (h : Stops (b :: rest)) :
    isDigit b = false ∧ b ≠ Ascii.dot := by
  rcases h b rfl with rfl | rfl <;> decide

/-! ## Numbers -/

section DigitLoop

variable {S : Type*} {push : S → UInt8 → S}

theorem digitLoop_append (out : S) (body : List UInt8) {rest : List UInt8} (hrest : Stops rest) :
    digitLoop push out (body ++ rest) =
      ((digitLoop push out body).1, (digitLoop push out body).2 ++ rest) := by
  induction body generalizing out with
  | nil =>
    cases rest with
    | nil => rfl
    | cons b rest =>
      show digitLoop push out (b :: rest) = (out, b :: rest)
      rw [digitLoop, hrest.notDigit.1]
      rfl
  | cons b body ih =>
    rw [List.cons_append, digitLoop, digitLoop]
    by_cases hb : isDigit b
    · rw [if_pos hb, if_pos hb, ih]
    · rw [if_neg hb, if_neg hb]
      rfl

theorem digitLoop_digits (out : S) {ds : List UInt8} (hds : ∀ b ∈ ds, isDigit b)
    {rest : List UInt8} (hrest : ∀ b ∈ rest.head?, isDigit b = false) :
    digitLoop push out (ds ++ rest) =
      (ds.foldl (fun s b => push s (b - Ascii.zero)) out, rest) := by
  induction ds generalizing out with
  | nil =>
    cases rest with
    | nil => rfl
    | cons b rest =>
      show digitLoop push out (b :: rest) = (out, b :: rest)
      rw [digitLoop, hrest b rfl]
      rfl
  | cons b ds ih =>
    rw [List.forall_mem_cons] at hds
    rw [List.cons_append, digitLoop, if_pos hds.1, ih _ hds.2]
    rfl

end DigitLoop

/-- The bytes a number may use up. -/
def NumberByte (b : UInt8) : Prop :=
  b ≠ Ascii.comma ∧ b ≠ Ascii.newline

theorem numberByte_of_isDigit {b : UInt8} (hb : isDigit b) : NumberByte b := by
  constructor <;> rintro rfl <;> exact absurd hb (by decide)

theorem digitLoop_skipped {S : Type*} (push : S → UInt8 → S) (out : S) (p : List UInt8) :
    ∃ pre, p = pre ++ (digitLoop push out p).2 ∧ ∀ b ∈ pre, NumberByte b := by
  induction p generalizing out with
  | nil => exact ⟨[], rfl, fun b hb => nomatch hb⟩
  | cons b p ih =>
    rw [digitLoop]
    by_cases hb : isDigit b
    · obtain ⟨pre, hp, hpre⟩ := ih (push out (b - Ascii.zero))
      refine ⟨b :: pre, ?_, List.forall_mem_cons.mpr ⟨numberByte_of_isDigit hb, hpre⟩⟩
      rw [if_pos hb, List.cons_append, ← hp]
    · rw [if_neg hb]
      exact ⟨[], rfl, fun b hb => nomatch hb⟩

/-- A reader of one number: what follows a stop does not matter, and only
number bytes are used up. -/
structure NumberReader {V : Type*} (f : List UInt8 → V × List UInt8) : Prop where
  append : ∀ body {rest}, Stops rest → f (body ++ rest) = ((f body).1, (f body).2 ++ rest)
  skipped : ∀ p, ∃ pre, p = pre ++ (f p).2 ∧ ∀ b ∈ pre, NumberByte b

theorem numberReader_parseU64 : NumberReader parseU64 :=
  ⟨fun body _ hrest => digitLoop_append _ body hrest, digitLoop_skipped _ _⟩

theorem numberReader_parseU32 : NumberReader parseU32 :=
  ⟨fun body _ hrest => digitLoop_append _ body hrest, digitLoop_skipped _ _⟩

section Float

variable {K : Type*} [NatCast K] [Add K] [Mul K] [OfScientific K]

theorem parseFraction_append (out : K) (body : List UInt8) {rest : List UInt8}
    (hrest : Stops rest) :
    parseFraction out (body ++ rest) =
      ((parseFraction out body).1, (parseFraction out body).2 ++ rest) := by
  unfold parseFraction
  rw [digitLoop_append _ body hrest]

theorem parsePoint_append (out : K) (body : List UInt8) {rest : List UInt8}
    (hrest : Stops rest) :
    parsePoint out (body ++ rest) =
      ((parsePoint out body).1, (parsePoint out body).2 ++ rest) := by
  cases body with
  | nil =>
    cases rest with
    | nil => rfl
    | cons b rest => exact if_neg hrest.notDigit.2
  | cons b body =>
    rw [List.cons_append, parsePoint, parsePoint]
    by_cases hb : b = Ascii.dot
    · rw [if_pos hb, if_pos hb, parseFraction_append out body hrest]
    · rw [if_neg hb, if_neg hb]
      rfl

theorem parseFloat_append (body : List UInt8) {rest : List UInt8} (hrest : Stops rest) :
    parseFloat (K := K) (body ++ rest) =
      ((parseFloat (K := K) body).1, (parseFloat (K := K) body).2 ++ rest) := by
  unfold parseFloat
  rw [digitLoop_append _ body hrest]
  exact parsePoint_append _ _ hrest

theorem parsePoint_skipped (out : K) (p : List UInt8) :
    ∃ pre, p = pre ++ (parsePoint out p).2 ∧ ∀ b ∈ pre, NumberByte b := by
  cases p with
  | nil => exact ⟨[], rfl, fun b hb => nomatch hb⟩
  | cons b p =>
    rw [parsePoint]
    by_cases hb : b = Ascii.dot
    · obtain ⟨pre, hp, hpre⟩ := digitLoop_skipped
        (fun (s : K × K) d => (s.1 + (d.toNat : K) * s.2, s.2 * 0.1)) (out, 0.1) p
      refine ⟨b :: pre, ?_, List.forall_mem_cons.mpr ⟨?_, hpre⟩⟩
      · rw [if_pos hb, List.cons_append]
        exact congrArg _ hp
      · subst hb
        exact ⟨by decide, by decide⟩
    · rw [if_neg hb]
      exact ⟨[], rfl, fun b hb => nomatch hb⟩

theorem parseFloat_skipped (p : List UInt8) :
    ∃ pre, p = pre ++ (parseFloat (K := K) p).2 ∧ ∀ b ∈ pre, NumberByte b := by
  obtain ⟨whole, hp, hwhole⟩ := digitLoop_skipped
    (fun (out : K) d => out * ((10 : Nat) : K) + (d.toNat : K)) ((0 : Nat) : K) p
  obtain ⟨frac, hq, hfrac⟩ := parsePoint_skipped
    (digitLoop (fun (out : K) d => out * ((10 : Nat) : K) + (d.toNat : K)) ((0 : Nat) : K) p).1
    (digitLoop (fun (out : K) d => out * ((10 : Nat) : K) + (d.toNat : K)) ((0 : Nat) : K) p).2
  refine ⟨whole ++ frac, ?_, List.forall_mem_append.mpr ⟨hwhole, hfrac⟩⟩
  rw [List.append_assoc]
  exact hp.trans (congrArg _ hq)

theorem numberReader_parseFloat : NumberReader (parseFloat (K := K)) :=
  ⟨fun body _ hrest => parseFloat_append body hrest, parseFloat_skipped⟩

end Float

/-! ## Commas and lines -/

theorem skipComma_suffix (p : List UInt8) : skipComma p <:+ p := by
  induction p with
  | nil => exact List.suffix_rfl
  | cons b p ih =>
    rw [skipComma]
    split
    · exact List.suffix_cons b p
    · exact ih.trans (List.suffix_cons b p)

theorem skipComma_append {body : List UInt8} (h : Ascii.comma ∈ body) (rest : List UInt8) :
    skipComma (body ++ rest) = skipComma body ++ rest := by
  induction body with
  | nil => exact nomatch h
  | cons b body ih =>
    rw [List.cons_append, skipComma, skipComma]
    by_cases hb : b = Ascii.comma
    · rw [if_pos hb, if_pos hb]
    · rw [if_neg hb, if_neg hb, ih (List.mem_of_ne_of_mem (Ne.symm hb) h)]

theorem skipComma_of_not_mem {body : List UInt8} (h : Ascii.comma ∉ body) (rest : List UInt8) :
    skipComma (body ++ rest) = skipComma rest := by
  induction body with
  | nil => rfl
  | cons b body ih =>
    rw [List.mem_cons, not_or] at h
    rw [List.cons_append, skipComma, if_neg (Ne.symm h.1), ih h.2]

theorem count_skipComma {body : List UInt8} (h : Ascii.comma ∈ body) :
    (skipComma body).count Ascii.comma + 1 = body.count Ascii.comma := by
  induction body with
  | nil => exact nomatch h
  | cons b body ih =>
    rw [skipComma]
    by_cases hb : b = Ascii.comma
    · rw [if_pos hb, hb, List.count_cons_self]
    · rw [if_neg hb, List.count_cons_of_ne hb, ih (List.mem_of_ne_of_mem (Ne.symm hb) h)]

theorem skipLine_append {body : List UInt8} (h : Ascii.newline ∉ body) (rest : List UInt8) :
    skipLine (body ++ Ascii.newline :: rest) = rest := by
  induction body with
  | nil => exact if_pos rfl
  | cons b body ih =>
    rw [List.mem_cons, not_or] at h
    rw [List.cons_append, skipLine, if_neg (Ne.symm h.1), ih h.2]

theorem skipLine_open {body : List UInt8} (h : Ascii.newline ∉ body) : skipLine body = [] := by
  induction body with
  | nil => rfl
  | cons b body ih =>
    rw [List.mem_cons, not_or] at h
    rw [skipLine, if_neg (Ne.symm h.1), ih h.2]

theorem length_skipLine_lt {p : List UInt8} (hp : p ≠ []) : (skipLine p).length < p.length := by
  induction p with
  | nil => exact absurd rfl hp
  | cons b p ih =>
    rw [skipLine, List.length_cons]
    split
    · omega
    · by_cases hnil : p = []
      · subst hnil
        exact Nat.zero_lt_one
      · have hlt := ih hnil
        omega

theorem isHeader_append_newline (body rest : List UInt8) :
    isHeader (body ++ Ascii.newline :: rest) = isHeader body := by
  induction body with
  | nil => rfl
  | cons b body ih =>
    rw [List.cons_append, isHeader, isHeader]
    by_cases hb : b = Ascii.space ∨ b = Ascii.carriageReturn
    · rw [if_pos hb, if_pos hb, ih]
    · rw [if_neg hb, if_neg hb]

/-! ## Readers that go past commas -/

/-- A reader that goes past `n` commas.  A text with that many commas keeps it
inside; after one with fewer it runs into what follows the newline. -/
structure Reads (n : Nat) {V : Type*} (f : List UInt8 → V × List UInt8) : Prop where
  append : ∀ body {rest}, Stops rest → n ≤ body.count Ascii.comma →
    f (body ++ rest) = ((f body).1, (f body).2 ++ rest)
  count : ∀ body, n ≤ body.count Ascii.comma →
    (f body).2.count Ascii.comma + n = body.count Ascii.comma
  overrun : ∀ body rest, body.count Ascii.comma < n →
    (f (body ++ Ascii.newline :: rest)).2 <:+ rest
  suffix : ∀ p, (f p).2 <:+ p

section Reads

variable {V W : Type*} {f : List UInt8 → V × List UInt8} {g : List UInt8 → W × List UInt8}

theorem NumberReader.suffix (hf : NumberReader f) (p : List UInt8) : (f p).2 <:+ p := by
  obtain ⟨pre, hp, -⟩ := hf.skipped p
  exact ⟨pre, hp.symm⟩

theorem NumberReader.count (hf : NumberReader f) (p : List UInt8) :
    (f p).2.count Ascii.comma = p.count Ascii.comma := by
  obtain ⟨pre, hp, hpre⟩ := hf.skipped p
  have hzero : pre.count Ascii.comma = 0 :=
    List.count_eq_zero.mpr fun hmem => (hpre _ hmem).1 rfl
  conv_rhs => rw [hp, List.count_append, hzero, Nat.zero_add]

theorem NumberReader.reads (hf : NumberReader f) : Reads 0 f where
  append body _ hrest _ := hf.append body hrest
  count body _ := hf.count body
  overrun _ _ h := absurd h (Nat.not_lt_zero _)
  suffix := hf.suffix

/-- The next field: the commas between are skipped and the number is read. -/
def nextField (f : List UInt8 → V × List UInt8) (g : List UInt8 → W × List UInt8)
    (p : List UInt8) : (V × W) × List UInt8 :=
  (((f p).1, (g (skipComma (f p).2)).1), (g (skipComma (f p).2)).2)

theorem Reads.next {n : Nat} (hf : Reads n f) (hg : NumberReader g) :
    Reads (n + 1) (nextField f g) where
  append body rest hrest hn := by
    have hleft := hf.count body (by omega)
    have hmem : Ascii.comma ∈ (f body).2 := List.count_pos_iff.mp (by omega)
    unfold nextField
    rw [hf.append body hrest (by omega), skipComma_append hmem, hg.append _ hrest]
  count body hn := by
    have hleft := hf.count body (by omega)
    have hmem : Ascii.comma ∈ (f body).2 := List.count_pos_iff.mp (by omega)
    have hskip := count_skipComma hmem
    have hnum := hg.count (skipComma (f body).2)
    show (g (skipComma (f body).2)).2.count Ascii.comma + (n + 1) = _
    omega
  overrun body rest hn := by
    show (g (skipComma (f (body ++ Ascii.newline :: rest)).2)).2 <:+ rest
    refine (hg.suffix _).trans ?_
    by_cases hlt : body.count Ascii.comma < n
    · exact (skipComma_suffix _).trans (hf.overrun body rest hlt)
    · -- the commas of the text are used up, so the next one lies after the newline
      have hleft := hf.count body (by omega)
      have hnone : Ascii.comma ∉ (f body).2 := List.count_eq_zero.mp (by omega)
      rw [hf.append body (stops_newline rest) (by omega), skipComma_of_not_mem hnone]
      exact skipComma_suffix rest
  suffix p := (hg.suffix _).trans ((skipComma_suffix _).trans (hf.suffix p))

theorem Reads.map {n : Nat} (hf : Reads n f) (k : V → W) :
    Reads n fun p => (k (f p).1, (f p).2) where
  append body _ hrest hn := by rw [hf.append body hrest hn]
  count := hf.count
  overrun := hf.overrun
  suffix := hf.suffix

end Reads

/-! ## Rows -/

section Rows

variable {K : Type*} [NatCast K] [Add K] [Mul K] [OfScientific K]

theorem parseFields_eq : parseFields (K := K) = fun p =>
    let r := nextField (nextField (nextField (nextField (nextField parseU64 parseU32)
      (parseFloat (K := K))) (parseFloat (K := K))) (parseFloat (K := K))) (parseFloat (K := K)) p
    (⟨r.1.1.1.1.1.1, r.1.1.1.1.1.2, r.1.1.1.1.2, r.1.1.1.2, r.1.1.2, r.1.2⟩, r.2) := by
  funext p
  simp only [parseFields, nextField]

theorem reads_parseFields : Reads 5 (parseFields (K := K)) := by
  have hfloat := numberReader_parseFloat (K := K)
  have hprices := ((numberReader_parseU64.reads.next numberReader_parseU32).next hfloat).next hfloat
  rw [parseFields_eq]
  exact ((hprices.next hfloat).next hfloat).map fun t =>
    (⟨t.1.1.1.1.1, t.1.1.1.1.2, t.1.1.1.2, t.1.1.2, t.1.2, t.2⟩ : Fields K)

theorem tsNs_parseFields_append (body : List UInt8) {rest : List UInt8} (hrest : Stops rest) :
    (parseFields (K := K) (body ++ rest)).1.tsNs = (parseU64 body).1 := by
  rw [parseFields_eq]
  show (parseU64 (body ++ rest)).1 = _
  rw [numberReader_parseU64.append body hrest]

variable [BEq K]

theorem csvRow_header {p : List UInt8} (h : isHeader p = true) :
    csvRow (K := K) p = (.header, skipLine p) :=
  if_pos h

theorem csvRow_row {p : List UInt8} (h : ¬ isHeader p = true) :
    csvRow (K := K) p =
      ((parseFields (K := K) p).1.outcome, skipLine (parseFields (K := K) p).2) := by
  simp only [csvRow, if_neg h]

theorem snd_csvRow_row {p : List UInt8} (h : ¬ isHeader p = true) :
    (csvRow (K := K) p).2 = skipLine (parseFields (K := K) p).2 := by
  simp only [csvRow_row (K := K) h]

/-- A line whose row ends inside it. -/
def SelfContained (line : List UInt8) : Prop :=
  isHeader line = true ∨ 5 ≤ line.count Ascii.comma

instance (line : List UInt8) : Decidable (SelfContained line) :=
  inferInstanceAs (Decidable (_ ∨ _))

theorem selfContained_terminated (body : List UInt8) :
    SelfContained (body ++ [Ascii.newline]) ↔ SelfContained body := by
  unfold SelfContained
  rw [isHeader_append_newline, List.count_append,
    show [Ascii.newline].count Ascii.comma = 0 by decide, Nat.add_zero]

theorem csvRow_of_selfContained {body : List UInt8} (hline : Ascii.newline ∉ body)
    (h : SelfContained body) (rest : List UInt8) :
    csvRow (K := K) (body ++ Ascii.newline :: rest) = ((csvRow (K := K) body).1, rest) := by
  by_cases hhead : isHeader body = true
  · rw [csvRow_header hhead, csvRow_header (by rw [isHeader_append_newline, hhead]),
      skipLine_append hline]
  · have hcommas : 5 ≤ body.count Ascii.comma := h.resolve_left hhead
    have hleft : Ascii.newline ∉ (parseFields (K := K) body).2 :=
      fun hmem => hline ((reads_parseFields.suffix body).subset hmem)
    rw [csvRow_row hhead, csvRow_row (by rw [isHeader_append_newline]; exact hhead),
      reads_parseFields.append body (stops_newline rest) hcommas, skipLine_append hleft]

theorem csvRow_suffix_of_not_selfContained {body : List UInt8} (h : ¬ SelfContained body)
    (rest : List UInt8) :
    ∃ tail, tail <:+ rest ∧
      csvRow (K := K) (body ++ Ascii.newline :: rest) =
        ((parseFields (K := K) (body ++ Ascii.newline :: rest)).1.outcome, skipLine tail) := by
  rw [SelfContained, not_or, Nat.not_le] at h
  exact ⟨_, reads_parseFields.overrun body rest h.2,
    csvRow_row (by rw [isHeader_append_newline]; exact h.1)⟩

theorem consumes_csvRow : RowScan.Consumes (csvRow (K := K)) := by
  intro p hp
  have hskip : ∀ q, q <:+ p → (skipLine q).length < p.length := by
    intro q hq
    have hle := hq.length_le
    by_cases hnil : q = []
    · subst hnil
      exact List.length_pos_iff.mpr hp
    · have hlt := length_skipLine_lt hnil
      omega
  by_cases hhead : isHeader p = true
  · rw [csvRow_header hhead]
    exact hskip p List.suffix_rfl
  · have hleft := (reads_parseFields (K := K)).suffix p
    rw [snd_csvRow_row hhead]
    exact hskip _ hleft

theorem closed_of_selfContained {body : List UInt8} (hline : Ascii.newline ∉ body)
    (h : SelfContained (body ++ [Ascii.newline])) :
    RowScan.Closed (csvRow (K := K)) (body ++ [Ascii.newline]) := by
  refine ⟨(csvRow (K := K) body).1, fun rest => ?_⟩
  rw [← List.append_cons]
  exact csvRow_of_selfContained hline ((selfContained_terminated body).mp h) rest

theorem overruns_of_not_selfContained {body : List UInt8}
    (h : ¬ SelfContained (body ++ [Ascii.newline])) :
    RowScan.Overruns (csvRow (K := K)) (body ++ [Ascii.newline]) := by
  intro rest hrest
  rw [selfContained_terminated] at h
  obtain ⟨tail, htail, hrow⟩ := csvRow_suffix_of_not_selfContained (K := K) h rest
  rw [← List.append_cons, hrow]
  by_cases hnil : tail = []
  · subst hnil
    exact List.length_pos_iff.mpr hrest
  · exact Nat.lt_of_lt_of_le (length_skipLine_lt hnil) htail.length_le

theorem closed_iff_selfContained {body : List UInt8} (hline : Ascii.newline ∉ body) :
    RowScan.Closed (csvRow (K := K)) (body ++ [Ascii.newline]) ↔
      SelfContained (body ++ [Ascii.newline]) := by
  refine ⟨fun hclosed => ?_, closed_of_selfContained hline⟩
  obtain ⟨b, hb⟩ := hclosed
  by_contra hnot
  have hlt := overruns_of_not_selfContained (K := K) hnot [0] (List.cons_ne_nil _ _)
  rw [hb] at hlt
  exact Nat.lt_irrefl _ hlt

/-- A single line is one row. -/
theorem csvRow_line {body : List UInt8} (hline : Ascii.newline ∉ body) :
    (csvRow (K := K) body).2 = [] ∧ (csvRow (K := K) (body ++ [Ascii.newline])).2 = [] := by
  constructor
  · by_cases hhead : isHeader body = true
    · rw [csvRow_header hhead]
      exact skipLine_open hline
    · have hleft := ((reads_parseFields (K := K)).suffix body).subset
      rw [snd_csvRow_row hhead]
      exact skipLine_open fun hmem => hline (hleft hmem)
  · by_cases h : SelfContained body
    · rw [csvRow_of_selfContained hline h]
    · obtain ⟨tail, htail, hrow⟩ := csvRow_suffix_of_not_selfContained (K := K) h []
      obtain rfl : tail = [] := List.suffix_nil.mp htail
      rw [hrow]
      rfl

theorem linesClosed_iff (file : List UInt8) :
    RowScan.LinesClosed (csvRow (K := K)) Ascii.newline file ↔
      ∀ line ∈ (RowScan.lines Ascii.newline file).dropLast, SelfContained line := by
  refine forall₂_congr fun line hmem => ?_
  obtain ⟨body, hbody, rfl⟩ := RowScan.mem_dropLast_lines hmem
  exact closed_iff_selfContained hbody

/-- The pieces that the rows consume are the lines exactly when every line but
the last keeps its row. -/
theorem map_rows_eq_lines_iff (file : List UInt8) :
    (rows (K := K) file).map Prod.fst = RowScan.lines Ascii.newline file ↔
      ∀ line ∈ (RowScan.lines Ascii.newline file).dropLast, SelfContained line := by
  refine (RowScan.map_scan_eq_lines_iff consumes_csvRow (fun body => csvRow_line)
    (fun body hbody => ?_) file).trans (linesClosed_iff file)
  by_cases h : SelfContained (body ++ [Ascii.newline])
  · exact Or.inl (closed_of_selfContained hbody h)
  · exact Or.inr (overruns_of_not_selfContained h)

theorem pushes_eq_flatMap_lines {file : List UInt8}
    (h : ∀ line ∈ (RowScan.lines Ascii.newline file).dropLast, SelfContained line) :
    pushes (K := K) file = (RowScan.lines Ascii.newline file).flatMap (pushes (K := K)) := by
  unfold pushes rows
  rw [RowScan.scan_eq_flatMap consumes_csvRow ((linesClosed_iff file).mpr h),
    List.flatMap_assoc]

theorem pushes_terminated {body : List UInt8} (hline : Ascii.newline ∉ body)
    (h : SelfContained (body ++ [Ascii.newline])) (rest : List UInt8) :
    pushes (K := K) (body ++ Ascii.newline :: rest) =
      pushes (K := K) (body ++ [Ascii.newline]) ++ pushes (K := K) rest := by
  unfold pushes rows
  rw [RowScan.scan_terminated consumes_csvRow (closed_of_selfContained hline h),
    List.flatMap_append]

theorem pushes_of_ne_nil {p : List UInt8} (hp : p ≠ []) :
    pushes (K := K) p = (csvRow (K := K) p).1.updates ++ pushes (csvRow (K := K) p).2 := by
  unfold pushes rows
  rw [RowScan.scan_cons consumes_csvRow hp, List.flatMap_cons]

theorem pushes_row {p : List UInt8} (h : (csvRow (K := K) p).2 = []) (hp : p ≠ []) :
    pushes (K := K) p = (csvRow (K := K) p).1.updates := by
  rw [pushes, rows, RowScan.scan_last consumes_csvRow hp h, List.flatMap_singleton]

omit [Add K] [Mul K] [OfScientific K] in
theorem timestampNs_of_mem_outcome {f : Fields K} {u : LobUpdate K}
    (hu : u ∈ f.outcome.updates) : u.timestampNs = f.tsNs := by
  unfold Fields.outcome at hu
  split at hu
  · exact nomatch hu
  · rcases List.mem_pair.mp hu with rfl | rfl <;> rfl

end Rows

/-! ## Fields -/

section Fields

variable {V : Type*} {f : List UInt8 → V × List UInt8} {body rest : List UInt8}

theorem NumberReader.fst_append (hf : NumberReader f) (hrest : Stops rest) :
    (f (body ++ rest)).1 = (f body).1 := by
  rw [hf.append body hrest]

/-- Whatever a reader leaves of a field, the comma behind it is found. -/
theorem NumberReader.skipComma_body (hf : NumberReader f) (hbody : ∀ b ∈ body, NumberByte b)
    (rest : List UInt8) : skipComma (f (body ++ Ascii.comma :: rest)).2 = rest := by
  have hleft : Ascii.comma ∉ (f body).2 :=
    fun hmem => (hbody _ ((hf.suffix body).subset hmem)).1 rfl
  rw [hf.append body (stops_comma rest), skipComma_of_not_mem hleft]
  exact if_pos rfl

variable {K : Type*} [NatCast K] [Add K] [Mul K] [OfScientific K]

theorem parseFields_bodies {b₀ b₁ b₂ b₃ b₄ : List UInt8} (h₀ : ∀ b ∈ b₀, NumberByte b)
    (h₁ : ∀ b ∈ b₁, NumberByte b) (h₂ : ∀ b ∈ b₂, NumberByte b) (h₃ : ∀ b ∈ b₃, NumberByte b)
    (h₄ : ∀ b ∈ b₄, NumberByte b) (b₅ : List UInt8) (hrest : Stops rest) :
    parseFields (K := K) (b₀ ++ Ascii.comma :: (b₁ ++ Ascii.comma :: (b₂ ++ Ascii.comma ::
      (b₃ ++ Ascii.comma :: (b₄ ++ Ascii.comma :: (b₅ ++ rest)))))) =
        (⟨(parseU64 b₀).1, (parseU32 b₁).1, (parseFloat b₂).1, (parseFloat b₃).1,
          (parseFloat b₄).1, (parseFloat b₅).1⟩, (parseFloat (K := K) b₅).2 ++ rest) := by
  have hfloat := numberReader_parseFloat (K := K)
  unfold parseFields
  dsimp only
  rw [numberReader_parseU64.skipComma_body h₀, numberReader_parseU32.skipComma_body h₁,
    hfloat.skipComma_body h₂, hfloat.skipComma_body h₃, hfloat.skipComma_body h₄,
    numberReader_parseU64.fst_append (stops_comma _),
    numberReader_parseU32.fst_append (stops_comma _), hfloat.fst_append (stops_comma _),
    hfloat.fst_append (stops_comma _), hfloat.fst_append (stops_comma _), hfloat.append b₅ hrest]

end Fields

/-! ## Decimal rows -/

/-- A decimal: digits, and perhaps a dot and more digits. -/
structure Decimal where
  whole : List UInt8
  fraction : Option (List UInt8)
  whole_ne : whole ≠ []
  whole_digits : ∀ b ∈ whole, isDigit b
  fraction_digits : ∀ f ∈ fraction, ∀ b ∈ f, isDigit b

theorem no_fraction : ∀ f ∈ (none : Option (List UInt8)), ∀ b ∈ f, isDigit b :=
  fun _ hf => nomatch hf

def Decimal.text (d : Decimal) : List UInt8 :=
  d.whole ++ d.fraction.elim [] fun f => Ascii.dot :: f

/-- The number that a digit string denotes. -/
def digitsValue (ds : List UInt8) : Nat :=
  ds.foldl (fun n b => n * 10 + (b - Ascii.zero).toNat) 0

/-- Digits with an optional fraction have only number bytes. -/
theorem numberByte_digits {whole : List UInt8} {fraction : Option (List UInt8)}
    (hwhole : ∀ b ∈ whole, isDigit b) (hfraction : ∀ f ∈ fraction, ∀ b ∈ f, isDigit b) :
    ∀ b ∈ whole ++ fraction.elim [] fun f => Ascii.dot :: f, NumberByte b := by
  intro b hb
  rcases List.mem_append.mp hb with hb | hb
  · exact numberByte_of_isDigit (hwhole b hb)
  · cases fraction with
    | none => exact nomatch hb
    | some f =>
      rcases List.mem_cons.mp hb with rfl | hb
      · exact ⟨by decide, by decide⟩
      · exact numberByte_of_isDigit (hfraction f rfl b hb)

theorem Decimal.numberByte (d : Decimal) : ∀ b ∈ d.text, NumberByte b :=
  numberByte_digits d.whole_digits d.fraction_digits

theorem Decimal.point_head (d : Decimal) (rest : List UInt8) (hrest : Stops rest) :
    ∀ b ∈ ((d.fraction.elim [] fun f => Ascii.dot :: f) ++ rest).head?, isDigit b = false := by
  intro b hb
  cases hf : d.fraction with
  | none =>
    rw [hf] at hb
    rcases hrest b hb with rfl | rfl <;> decide
  | some f =>
    rw [hf] at hb
    obtain rfl : Ascii.dot = b := Option.some.inj hb
    decide

theorem parseU64_digits {ds : List UInt8} (hds : ∀ b ∈ ds, isDigit b) {rest : List UInt8}
    (hrest : ∀ b ∈ rest.head?, isDigit b = false) :
    parseU64 (ds ++ rest) = (UInt64.ofNat (digitsValue ds), rest) := by
  rw [parseU64, digitLoop_digits _ hds hrest]
  refine congrArg (·, rest) (List.foldl_hom UInt64.ofNat fun n b => ?_)
  rw [UInt64.ofNat_add, UInt64.ofNat_mul]
  exact congrArg _ (UInt64.ofNat_uInt8ToNat _).symm

theorem parseU32_digits {ds : List UInt8} (hds : ∀ b ∈ ds, isDigit b) {rest : List UInt8}
    (hrest : ∀ b ∈ rest.head?, isDigit b = false) :
    parseU32 (ds ++ rest) = (UInt32.ofNat (digitsValue ds), rest) := by
  rw [parseU32, digitLoop_digits _ hds hrest]
  refine congrArg (·, rest) (List.foldl_hom UInt32.ofNat fun n b => ?_)
  rw [UInt32.ofNat_add, UInt32.ofNat_mul]
  exact congrArg _ (UInt32.ofNat_uInt8ToNat _).symm

theorem fst_parseU64_text (d : Decimal) :
    (parseU64 d.text).1 = UInt64.ofNat (digitsValue d.whole) := by
  have hpoint := d.point_head [] fun b hb => nomatch hb
  rw [List.append_nil] at hpoint
  rw [Decimal.text, parseU64_digits d.whole_digits hpoint]

theorem fst_parseU32_text (d : Decimal) :
    (parseU32 d.text).1 = UInt32.ofNat (digitsValue d.whole) := by
  have hpoint := d.point_head [] fun b hb => nomatch hb
  rw [List.append_nil] at hpoint
  rw [Decimal.text, parseU32_digits d.whole_digits hpoint]

/-- A row of six decimals. -/
structure DecimalRow where
  ts : Decimal
  instrument : Decimal
  bidPrice : Decimal
  bidQty : Decimal
  askPrice : Decimal
  askQty : Decimal

def DecimalRow.text (r : DecimalRow) : List UInt8 :=
  r.ts.text ++ Ascii.comma :: (r.instrument.text ++ Ascii.comma :: (r.bidPrice.text ++
    Ascii.comma :: (r.bidQty.text ++ Ascii.comma :: (r.askPrice.text ++
      Ascii.comma :: r.askQty.text))))

section Rows

variable {K : Type*} [NatCast K] [Add K] [Mul K] [OfScientific K]

/-- The values of the fields: the numbers of the two integers, reduced to their
width, and the prices and quantities as the parser reads them alone. -/
def DecimalRow.fields (r : DecimalRow) : Fields K where
  tsNs := UInt64.ofNat (digitsValue r.ts.whole)
  instrId := UInt32.ofNat (digitsValue r.instrument.whole)
  bidPrice := (parseFloat r.bidPrice.text).1
  bidQty := (parseFloat r.bidQty.text).1
  askPrice := (parseFloat r.askPrice.text).1
  askQty := (parseFloat r.askQty.text).1

def DecimalRow.bid (r : DecimalRow) : LobUpdate K where
  timestampNs := UInt64.ofNat (digitsValue r.ts.whole)
  instrumentId := UInt32.ofNat (digitsValue r.instrument.whole)
  depthLevel := 0
  side := .bid
  price := (parseFloat r.bidPrice.text).1
  quantity := (parseFloat r.bidQty.text).1

def DecimalRow.ask (r : DecimalRow) : LobUpdate K where
  timestampNs := UInt64.ofNat (digitsValue r.ts.whole)
  instrumentId := UInt32.ofNat (digitsValue r.instrument.whole)
  depthLevel := 0
  side := .ask
  price := (parseFloat r.askPrice.text).1
  quantity := (parseFloat r.askQty.text).1

theorem DecimalRow.text_append (r : DecimalRow) (rest : List UInt8) :
    r.text ++ rest = r.ts.text ++ Ascii.comma :: (r.instrument.text ++ Ascii.comma ::
      (r.bidPrice.text ++ Ascii.comma :: (r.bidQty.text ++ Ascii.comma ::
        (r.askPrice.text ++ Ascii.comma :: (r.askQty.text ++ rest))))) := by
  simp only [DecimalRow.text, List.append_assoc, List.cons_append]

theorem DecimalRow.newline_not_mem (r : DecimalRow) : Ascii.newline ∉ r.text := by
  have hnum : ∀ d : Decimal, Ascii.newline ∉ d.text := fun d hmem => (d.numberByte _ hmem).2 rfl
  have hcomma : Ascii.newline ≠ Ascii.comma := by decide
  simp [DecimalRow.text, hnum, hcomma]

theorem parseFields_text (r : DecimalRow) {rest : List UInt8} (hrest : Stops rest) :
    (parseFields (K := K) (r.text ++ rest)).1 = r.fields := by
  rw [r.text_append, parseFields_bodies r.ts.numberByte r.instrument.numberByte
    r.bidPrice.numberByte r.bidQty.numberByte r.askPrice.numberByte _ hrest, fst_parseU64_text,
    fst_parseU32_text]
  rfl

theorem not_isHeader_of_isDigit {b : UInt8} (hb : isDigit b = true) (p : List UInt8) :
    ¬ isHeader (b :: p) = true := by
  have hblank : ¬ (b = Ascii.space ∨ b = Ascii.carriageReturn) := by
    rintro (rfl | rfl) <;> exact absurd hb (by decide)
  have hnewline : b ≠ Ascii.newline := by
    rintro rfl
    exact absurd hb (by decide)
  simp only [isHeader, if_neg hblank, hb]
  simpa using hnewline

theorem DecimalRow.not_isHeader (r : DecimalRow) (rest : List UInt8) :
    ¬ isHeader (r.text ++ rest) = true := by
  rw [r.text_append, Decimal.text]
  have hne := r.ts.whole_ne
  have hdigits := r.ts.whole_digits
  revert hne hdigits
  generalize r.ts.whole = whole
  intro hne hdigits
  cases whole with
  | nil => exact absurd rfl hne
  | cons b whole => exact not_isHeader_of_isDigit (hdigits b List.mem_cons_self) _

variable [BEq K]

/-- A row of six decimals contributes its bid and then its ask. -/
theorem pushes_decimalRow (r : DecimalRow)
    (hid : digitsValue r.instrument.whole < kMaxInstruments)
    (hbid : ((parseFloat (K := K) r.bidPrice.text).1 == ((0 : Nat) : K)) = false)
    (hask : ((parseFloat (K := K) r.askPrice.text).1 == ((0 : Nat) : K)) = false)
    {stop : List UInt8} (hstop : stop = [] ∨ stop = [Ascii.newline]) :
    pushes (K := K) (r.text ++ stop) = [r.bid, r.ask] := by
  have hstops : Stops stop := by
    rcases hstop with rfl | rfl
    · exact fun b hb => nomatch hb
    · exact stops_newline []
  have hinstr : ¬ kMaxInstruments ≤ (UInt32.ofNat (digitsValue r.instrument.whole)).toNat := by
    rw [UInt32.toNat_ofNat_of_lt' (Nat.lt_trans hid (by decide))]
    exact Nat.not_le.mpr hid
  have hrow : (csvRow (K := K) (r.text ++ stop)).1 = .quote r.bid r.ask := by
    rw [csvRow_row (r.not_isHeader stop), parseFields_text r hstops]
    simp only [Fields.outcome, DecimalRow.fields, hbid, hask, hinstr, decide_false, Bool.or_self]
    rfl
  rw [pushes_row, hrow]
  · rfl
  · rcases hstop with rfl | rfl
    · rw [List.append_nil]
      exact (csvRow_line r.newline_not_mem).1
    · exact (csvRow_line r.newline_not_mem).2
  · exact fun hnil => r.not_isHeader stop (by rw [hnil]; rfl)

/-! ## Row isolation -/

/-- The decimal of one digit. -/
def Decimal.digit (b : UInt8) (hb : isDigit b = true) : Decimal where
  whole := [b]
  fraction := none
  whole_ne := List.cons_ne_nil _ _
  whole_digits := List.forall_mem_singleton.mpr hb
  fraction_digits := no_fraction

/-- A quote with the timestamp `b`, at a price and a quantity of 1. -/
def DecimalRow.probe (b : UInt8) (hb : isDigit b = true) : DecimalRow where
  ts := .digit b hb
  instrument := .digit 48 (by decide)
  bidPrice := .digit 49 (by decide)
  bidQty := .digit 49 (by decide)
  askPrice := .digit 49 (by decide)
  askQty := .digit 49 (by decide)

theorem exists_probe (ts : UInt64) :
    ∃ r : DecimalRow, UInt64.ofNat (digitsValue r.ts.whole) ≠ ts ∧
      digitsValue r.instrument.whole < kMaxInstruments ∧
      r.bidPrice.text = [49] ∧ r.askPrice.text = [49] := by
  by_cases hts : ts = 0
  · refine ⟨.probe 49 (by decide), ?_, by decide, rfl, rfl⟩
    rw [hts]
    decide
  · exact ⟨.probe 48 (by decide), fun h => hts h.symm, by decide, rfl, rfl⟩

/-- A line that is isolated from everything that may follow it keeps its row. -/
theorem selfContained_of_isolated
    (hone : ((parseFloat (K := K) [49]).1 == ((0 : Nat) : K)) = false) {body : List UInt8}
    (h : ∀ rest, pushes (K := K) (body ++ Ascii.newline :: rest) =
      pushes (K := K) (body ++ [Ascii.newline]) ++ pushes (K := K) rest) :
    SelfContained (body ++ [Ascii.newline]) := by
  by_contra hnot
  obtain ⟨r, hts, hid, hbid, hask⟩ := exists_probe (parseU64 body).1
  have hprobe : pushes (K := K) r.text = [r.bid, r.ask] := by
    have hpushes := pushes_decimalRow (K := K) r hid (by rwa [hbid]) (by rwa [hask])
      (Or.inl rfl)
    rwa [List.append_nil] at hpushes
  rw [selfContained_terminated] at hnot
  -- the row of the line runs to the end of the probe, which has no newline
  obtain ⟨tail, htail, hrow⟩ := csvRow_suffix_of_not_selfContained (K := K) hnot r.text
  have hnil : skipLine tail = [] :=
    skipLine_open fun hmem => r.newline_not_mem (htail.subset hmem)
  have hall : pushes (K := K) (body ++ Ascii.newline :: r.text) =
      (parseFields (K := K) (body ++ Ascii.newline :: r.text)).1.outcome.updates := by
    rw [pushes_row (by rw [hrow, hnil])
      (List.append_ne_nil_of_right_ne_nil _ (List.cons_ne_nil _ _)), hrow]
  have hmem : (r.bid : LobUpdate K) ∈ pushes (K := K) (body ++ Ascii.newline :: r.text) := by
    rw [h, hprobe]
    exact List.mem_append_right _ List.mem_cons_self
  rw [hall] at hmem
  have hstamp := timestampNs_of_mem_outcome hmem
  rw [tsNs_parseFields_append body (stops_newline _)] at hstamp
  exact hts hstamp

/-- Row isolation.  The rows of a file are its lines, and what it pushes is what
its lines push, exactly when every line but the last is taken for a header or
has five commas; those are also the lines that are isolated from everything that
may follow them.  A row of six decimals contributes its bid and then its ask. -/
theorem rows_isolated_iff
    (hone : ((parseFloat (K := K) [49]).1 == ((0 : Nat) : K)) = false) :
    (∀ file : List UInt8,
      (pushes (K := K) file = (RowScan.lines Ascii.newline file).flatMap (pushes (K := K)) ∧
        (rows (K := K) file).map Prod.fst = RowScan.lines Ascii.newline file) ↔
      ∀ line ∈ (RowScan.lines Ascii.newline file).dropLast, SelfContained line) ∧
    (∀ body : List UInt8, Ascii.newline ∉ body →
      ((∀ rest, pushes (K := K) (body ++ Ascii.newline :: rest) =
        pushes (K := K) (body ++ [Ascii.newline]) ++ pushes (K := K) rest) ↔
      SelfContained (body ++ [Ascii.newline]))) ∧
    ∀ r : DecimalRow, digitsValue r.instrument.whole < kMaxInstruments →
      ((parseFloat (K := K) r.bidPrice.text).1 == ((0 : Nat) : K)) = false →
      ((parseFloat (K := K) r.askPrice.text).1 == ((0 : Nat) : K)) = false →
      ∀ stop, stop = [] ∨ stop = [Ascii.newline] →
        pushes (K := K) (r.text ++ stop) = [r.bid, r.ask] := by
  refine ⟨fun file => ?_, fun body hline => ?_, fun r hid hbid hask stop hstop =>
    pushes_decimalRow r hid hbid hask hstop⟩
  · rw [map_rows_eq_lines_iff, and_iff_right_iff_imp]
    exact pushes_eq_flatMap_lines
  · exact ⟨selfContained_of_isolated hone, pushes_terminated hline⟩

end Rows

/-- The file `1,2,100,5` and `7,1,1,1,1,1`: two rows become one. -/
theorem rows_not_isolated : ∃ file : List UInt8,
    pushes (K := ℚ) file ≠ (RowScan.lines Ascii.newline file).flatMap (pushes (K := ℚ)) :=
  ⟨[49, 44, 50, 44, 49, 48, 48, 44, 53, 10, 55, 44, 49, 44, 49, 44, 49, 44, 49, 44, 49, 10],
    by decide +kernel⟩

theorem rows_isolated_quote :
    pushes (K := ℚ) [55, 44, 49, 44, 50, 44, 49, 44, 51, 44, 49, 10, 104, 10] =
      (RowScan.lines Ascii.newline
        [55, 44, 49, 44, 50, 44, 49, 44, 51, 44, 49, 10, 104, 10]).flatMap (pushes (K := ℚ)) :=
  (((rows_isolated_iff (K := ℚ) (by decide +kernel)).1 _).mpr (by decide +kernel)).1

end Csv
end HoloMarket
