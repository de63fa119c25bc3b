import Mathlib.Data.List.Basic

/-!
# Texts read row by row

A reader that consumes a text row by row is a function `row` from the text that
is left to a result and the text after the row.  `scan row` iterates it and
keeps the piece that each row consumed; `lines sep` cuts the same text after
every separator.  A line is closed when a row that starts with it stops at its
end whatever follows.
-/

namespace HoloMarket
namespace RowScan

variable {α β : Type*}

/-! ## Rows -/

/-- The pieces consumed by at most `fuel` rows, each with its result. -/
def loop (row : List α → β × List α) : Nat → List α → List (List α × β)
  | 0, _ => []
  | _ + 1, [] => []
  | fuel + 1, a :: p =>
    ((a :: p).take ((a :: p).length - (row (a :: p)).2.length), (row (a :: p)).1) ::
      loop row fuel (row (a :: p)).2

/-- The rows of the whole text, when every row consumes something. -/
def scan (row : List α → β × List α) (p : List α) : List (List α × β) :=
  loop row p.length p

/-- A row leaves less than it was given. -/
def Consumes (row : List α → β × List α) : Prop :=
  ∀ p, p ≠ [] → (row p).2.length < p.length

/-- The row that starts with `line` stops at its end, with the same result
whatever follows. -/
def Closed (row : List α → β × List α) (line : List α) : Prop :=
  ∃ b, ∀ rest, row (line ++ rest) = (b, rest)

/-- The row that starts with `line` runs into whatever follows. -/
def Overruns (row : List α → β × List α) (line : List α) : Prop :=
  ∀ rest, rest ≠ [] → (row (line ++ rest)).2.length < rest.length

variable {row : List α → β × List α}

@[simp] theorem scan_nil : scan row [] = [] := rfl

theorem loop_eq_loop (hrow : Consumes row) {m n : Nat} {p : List α} (hm : p.length ≤ m)
    (hn : p.length ≤ n) : loop row m p = loop row n p := by
  induction m generalizing n p with
  | zero =>
    obtain rfl : p = [] := List.length_eq_zero_iff.mp (by omega)
    cases n <;> rfl
  | succ m ih =>
    cases p with
    | nil => cases n <;> rfl
    | cons a p =>
      have hlt := hrow (a :: p) (List.cons_ne_nil a p)
      cases n with
      | zero => exact absurd hn (Nat.not_succ_le_zero _)
      | succ n => exact congrArg _ (ih (by omega) (by omega))

theorem scan_cons (hrow : Consumes row) {p : List α} (hp : p ≠ []) :
    scan row p = (p.take (p.length - (row p).2.length), (row p).1) :: scan row (row p).2 := by
  cases p with
  | nil => exact absurd rfl hp
  | cons a p =>
    have hlt := hrow (a :: p) hp
    rw [List.length_cons] at hlt
    exact congrArg _ (loop_eq_loop hrow (by omega) (Nat.le_refl _))

theorem scan_append (hrow : Consumes row) {piece rest : List α} {b : β} (hp : piece ≠ [])
    (h : row (piece ++ rest) = (b, rest)) :
    scan row (piece ++ rest) = (piece, b) :: scan row rest := by
  have hne : piece ++ rest ≠ [] := fun he => hp (List.append_eq_nil_iff.mp he).1
  rw [scan_cons hrow hne, h, List.length_append, Nat.add_sub_cancel, List.take_left]

theorem scan_last (hrow : Consumes row) {p : List α} (hp : p ≠ []) (h : (row p).2 = []) :
    scan row p = [(p, (row p).1)] := by
  rw [scan_cons hrow hp, h, List.length_nil, Nat.sub_zero, List.take_length, scan_nil]

theorem scan_terminated (hrow : Consumes row) {body rest : List α} {sep : α}
    (h : Closed row (body ++ [sep])) :
    scan row (body ++ sep :: rest) = scan row (body ++ [sep]) ++ scan row rest := by
  obtain ⟨b, hb⟩ := h
  have hne : body ++ [sep] ≠ [] := List.append_ne_nil_of_right_ne_nil _ (List.cons_ne_nil _ _)
  have hline : scan row (body ++ [sep]) = [(body ++ [sep], b)] := by
    have hnil := scan_append hrow hne (hb [])
    rwa [List.append_nil, scan_nil] at hnil
  rw [List.append_cons, scan_append hrow hne (hb rest), hline]
  rfl

theorem scan_last_line (hrow : Consumes row) {body : List α} {sep : α}
    (hlast : (row (body ++ [sep])).2 = []) :
    (scan row (body ++ [sep])).map Prod.fst = [body ++ [sep]] := by
  rw [scan_last hrow (List.append_ne_nil_of_right_ne_nil _ (List.cons_ne_nil _ _)) hlast]
  rfl

/-! ## Lines -/

section Lines

variable [DecidableEq α] {sep : α}

/-- The text cut after every separator. -/
def lines (sep : α) : List α → List (List α)
  | [] => []
  | a :: p =>
    if a = sep then [a] :: lines sep p
    else match lines sep p with
      | [] => [[a]]
      | line :: rest => (a :: line) :: rest

theorem lines_ne_nil {p : List α} (hp : p ≠ []) : lines sep p ≠ [] := by
  cases p with
  | nil => exact absurd rfl hp
  | cons a p =>
    rw [lines]
    split
    · exact List.cons_ne_nil _ _
    · split <;> exact List.cons_ne_nil _ _

theorem lines_open {body : List α} (hne : body ≠ []) (hsep : sep ∉ body) :
    lines sep body = [body] := by
  induction body with
  | nil => exact absurd rfl hne
  | cons a body ih =>
    rw [List.mem_cons, not_or] at hsep
    rw [lines, if_neg fun he => hsep.1 he.symm]
    cases body with
    | nil => rfl
    | cons c body => rw [ih (List.cons_ne_nil c body) hsep.2]

theorem lines_terminated {body : List α} (hsep : sep ∉ body) (rest : List α) :
    lines sep (body ++ sep :: rest) = (body ++ [sep]) :: lines sep rest := by
  induction body with
  | nil => rw [List.nil_append, lines, if_pos rfl, List.nil_append]
  | cons a body ih =>
    rw [List.mem_cons, not_or] at hsep
    rw [List.cons_append, lines, if_neg fun he => hsep.1 he.symm, ih hsep.2]
    rfl

/-- A text is empty, one line without its separator, or a line with its
separator and a shorter text. -/
theorem lines_induction (sep : α) {motive : List α → Prop} (empty : motive [])
    (last : ∀ body, body ≠ [] → sep ∉ body → motive body)
    (terminated : ∀ body rest, sep ∉ body → motive rest → motive (body ++ sep :: rest))
    (p : List α) : motive p := by
  induction hn : p.length using Nat.strongRecOn generalizing p with
  | ind n ih =>
    by_cases hp : p = []
    · subst hp
      exact empty
    by_cases hmem : sep ∈ p
    · obtain ⟨body, rest, rfl, hbody⟩ := List.eq_append_cons_of_mem hmem
      refine terminated body rest hbody (ih rest.length ?_ rest rfl)
      rw [← hn, List.length_append, List.length_cons]
      omega
    · exact last p hp hmem

theorem mem_dropLast_lines {p line : List α} (h : line ∈ (lines sep p).dropLast) :
    ∃ body, sep ∉ body ∧ line = body ++ [sep] := by
  induction p using lines_induction sep with
  | empty => exact nomatch h
  | last body hne hsep =>
    rw [lines_open hne hsep] at h
    exact nomatch h
  | terminated body rest hsep ih =>
    by_cases hrest : rest = []
    · rw [lines_terminated hsep, hrest] at h
      exact nomatch h
    · rw [lines_terminated hsep, List.dropLast_cons_of_ne_nil (lines_ne_nil hrest),
        List.mem_cons] at h
      rcases h with rfl | h
      · exact ⟨body, hsep, rfl⟩
      · exact ih h

/-! ## Rows that are lines -/

/-- Every line but the last is closed. -/
def LinesClosed (row : List α → β × List α) (sep : α) (p : List α) : Prop :=
  ∀ line ∈ (lines sep p).dropLast, Closed row line

theorem linesClosed_terminated {body rest : List α} (hsep : sep ∉ body) (hrest : rest ≠ []) :
    LinesClosed row sep (body ++ sep :: rest) ↔
      Closed row (body ++ [sep]) ∧ LinesClosed row sep rest := by
  unfold LinesClosed
  rw [lines_terminated hsep, List.dropLast_cons_of_ne_nil (lines_ne_nil hrest),
    List.forall_mem_cons]

theorem scan_eq_flatMap (hrow : Consumes row) {p : List α} (h : LinesClosed row sep p) :
    scan row p = (lines sep p).flatMap (scan row) := by
  induction p using lines_induction sep with
  | empty => rfl
  | last body hne hsep => rw [lines_open hne hsep, List.flatMap_singleton]
  | terminated body rest hsep ih =>
    by_cases hrest : rest = []
    · subst hrest
      rw [lines_terminated hsep, lines, List.flatMap_singleton]
    · rw [linesClosed_terminated hsep hrest] at h
      rw [lines_terminated hsep, List.flatMap_cons, scan_terminated hrow h.1, ih h.2]

/-- The pieces are the lines exactly when every line but the last is closed, for
a reader whose rows stop at the end of their line or run into the next. -/
theorem map_scan_eq_lines_iff (hrow : Consumes row)
    (hopen : ∀ body, sep ∉ body → (row body).2 = [] ∧ (row (body ++ [sep])).2 = [])
    (hline : ∀ body, sep ∉ body →
      Closed row (body ++ [sep]) ∨ Overruns row (body ++ [sep])) (p : List α) :
    (scan row p).map Prod.fst = lines sep p ↔ LinesClosed row sep p := by
  induction p using lines_induction sep with
  | empty => exact iff_of_true rfl fun line hline => nomatch hline
  | last body hne hsep =>
    refine iff_of_true ?_ ?_
    · rw [scan_last hrow hne (hopen body hsep).1, lines_open hne hsep]
      rfl
    · unfold LinesClosed
      rw [lines_open hne hsep]
      exact fun line hline => nomatch hline
  | terminated body rest hsep ih =>
    by_cases hrest : rest = []
    · subst hrest
      refine iff_of_true ?_ ?_
      · rw [lines_terminated hsep, lines]
        exact scan_last_line hrow (hopen body hsep).2
      · unfold LinesClosed
        rw [lines_terminated hsep, lines]
        exact fun line hline => nomatch hline
    · rw [linesClosed_terminated hsep hrest, lines_terminated hsep, ← ih]
      have hne : body ++ sep :: rest ≠ [] :=
        List.append_ne_nil_of_right_ne_nil _ (List.cons_ne_nil _ _)
      rcases hline body hsep with hclosed | hover
      · obtain ⟨b, hb⟩ := hclosed
        rw [List.append_cons, scan_append hrow (List.append_ne_nil_of_right_ne_nil _
          (List.cons_ne_nil _ _)) (hb rest), List.map_cons, List.cons.injEq]
        exact and_congr_left fun _ => iff_of_true rfl ⟨b, hb⟩
      · -- a row that runs on leaves less than `rest`, so its piece is longer than the line
        have hlt := hover rest hrest
        rw [← List.append_cons] at hlt
        refine iff_of_false (fun heq => ?_) fun hboth => ?_
        · rw [scan_cons hrow hne, List.map_cons, List.cons.injEq] at heq
          have hlen := congrArg List.length heq.1
          simp only [List.length_take, List.length_append, List.length_cons,
            List.length_nil] at hlen
          omega
        · obtain ⟨b, hb⟩ := hboth.1
          have hstop := congrArg (fun r => r.2.length) (hb rest)
          rw [← List.append_cons] at hstop
          exact absurd hstop (Nat.ne_of_lt hlt)

end Lines
end RowScan
end HoloMarket
