import Mathlib.Data.List.Basic
import Mathlib.Logic.Function.Basic

/-!
# AtomicFile: a file published by renaming

Writers put their rows into files of their own, one row at a time, and rename the whole
to one target.  A writer can be killed at any point and leaves its own file behind.
Whatever the interleaving, the target is the whole of what some writer wrote.
-/

namespace HoloMarket
namespace AtomicFile

variable {ι δ α : Type*}

inductive Stage (α : Type*) where
  | preparing
  | writing (rows : List α) (written : Nat)
  | exited (ok : Bool)

structure Writer (δ α : Type*) where
  tag : δ
  stage : Stage α

structure Files (ι δ α : Type*) where
  target : Option (List α)
  temp : ι → Option (List α)
  writers : ι → Option (Writer δ α)

inductive Move (α : Type*) where
  | prepare (rows : Option (List α))
  | write
  | replace
  | kill

namespace Files

variable [DecidableEq ι]

/-- The files when writer `p` has come to a stage. -/
def enter (s : Files ι δ α) (p : ι) (w : Writer δ α) : Files ι δ α :=
  { s with writers := Function.update s.writers p (some w) }

def store (s : Files ι δ α) (p : ι) (c : Option (List α)) : Files ι δ α :=
  { s with temp := Function.update s.temp p c }

def remove (s : Files ι δ α) : Files ι δ α := { s with target := none }

def reap (s : Files ι δ α) (p : ι) : Files ι δ α :=
  { s with writers := Function.update s.writers p none }

/-- A move of writer `p`. -/
def move (s : Files ι δ α) (p : ι) (m : Move α) : Option (Files ι δ α) :=
  match s.writers p, m with
  | some ⟨tag, .preparing⟩, .prepare none => some (s.enter p ⟨tag, .exited false⟩)
  | some ⟨tag, .preparing⟩, .prepare (some rows) =>
    some ((s.store p (some [])).enter p ⟨tag, .writing rows 0⟩)
  | some ⟨tag, .writing rows k⟩, .write =>
    rows[k]?.map fun r =>
      (s.store p ((s.temp p).map (· ++ [r]))).enter p ⟨tag, .writing rows (k + 1)⟩
  | some ⟨tag, .writing rows k⟩, .replace =>
    if k = rows.length then
      some ({ s.store p none with target := s.temp p }.enter p ⟨tag, .exited true⟩)
    else none
  | some ⟨tag, .preparing⟩, .kill => some (s.enter p ⟨tag, .exited false⟩)
  | some ⟨tag, .writing _ _⟩, .kill => some (s.enter p ⟨tag, .exited false⟩)
  -- killed after the rename, before it could exit
  | some ⟨tag, .exited true⟩, .kill => some (s.enter p ⟨tag, .exited false⟩)
  | _, _ => none

/-- What a move publishes. -/
def published (s : Files ι δ α) (p : ι) (m : Move α) : List (δ × List α) :=
  match s.writers p, m with
  | some ⟨tag, .writing rows _⟩, .replace => [(tag, rows)]
  | _, _ => []

/-- Every writer has its rows so far in its file, and the target was published. -/
structure Whole (s : Files ι δ α) (pub : List (δ × List α)) : Prop where
  temp : ∀ p tag rows k, s.writers p = some ⟨tag, .writing rows k⟩ →
    s.temp p = some (rows.take k)
  target : ∀ rows, s.target = some rows → ∃ tag, (tag, rows) ∈ pub

/-- What a move does to the target and to the writers. -/
structure Moved (s s' : Files ι δ α) (p : ι) (pub : List (δ × List α)) : Prop where
  target : ∀ rows, s'.target = some rows → s.target = some rows ∨
    ∃ w, s.writers p = some w ∧ (w.tag, rows) ∈ pub
  others : ∀ q, q ≠ p → s'.writers q = s.writers q
  tag : ∃ w w', s.writers p = some w ∧ s'.writers p = some w' ∧ w'.tag = w.tag

variable {s s' : Files ι δ α} {pub : List (δ × List α)}

theorem writers_enter (s : Files ι δ α) (p q : ι) (w : Writer δ α) :
    (s.enter p w).writers q = if q = p then some w else s.writers q :=
  Function.update_apply _ _ _ _

theorem writers_reap (s : Files ι δ α) (p q : ι) :
    (s.reap p).writers q = if q = p then none else s.writers q :=
  Function.update_apply _ _ _ _

theorem temp_store (s : Files ι δ α) (p q : ι) (c : Option (List α)) :
    (s.store p c).temp q = if q = p then c else s.temp q :=
  Function.update_apply _ _ _ _

/-- A writer that comes to a stage with the rows of that stage in its file. -/
theorem Whole.enter (h : Whole s pub) {p : ι} {w : Writer δ α} {c : Option (List α)}
    (hw : ∀ rows k, w.stage = .writing rows k → c = some (rows.take k)) :
    Whole ((s.store p c).enter p w) pub where
  temp q tag rows k hq := by
    rw [writers_enter] at hq
    show (s.store p c).temp q = _
    rw [temp_store]
    by_cases hqp : q = p
    · rw [if_pos hqp] at hq ⊢
      cases hq
      exact hw rows k rfl
    · rw [if_neg hqp] at hq ⊢
      exact h.temp q tag rows k hq
  target := h.target

theorem Whole.idle (h : Whole s pub) (p : ι) (tag : δ) (stage : Stage α)
    (hstage : ∀ rows k, stage ≠ .writing rows k) : Whole (s.enter p ⟨tag, stage⟩) pub where
  temp q tag rows k hq := by
    rw [writers_enter] at hq
    by_cases hqp : q = p
    · rw [if_pos hqp] at hq
      cases hq
      exact absurd rfl (hstage rows k)
    · rw [if_neg hqp] at hq
      exact h.temp q tag rows k hq
  target := h.target

omit [DecidableEq ι] in
theorem Whole.mono (h : Whole s pub) (more : List (δ × List α)) : Whole s (pub ++ more) where
  temp := h.temp
  target rows hrows := by
    obtain ⟨tag, htag⟩ := h.target rows hrows
    exact ⟨tag, List.mem_append_left _ htag⟩

omit [DecidableEq ι] in
theorem Whole.remove (h : Whole s pub) : Whole s.remove pub where
  temp := h.temp
  target _ hrows := nomatch hrows

theorem Whole.reap (h : Whole s pub) (p : ι) : Whole (s.reap p) pub where
  temp q tag rows k hq := by
    rw [writers_reap] at hq
    by_cases hqp : q = p
    · rw [if_pos hqp] at hq
      cases hq
    · rw [if_neg hqp] at hq
      exact h.temp q tag rows k hq
  target := h.target

/-- A writer that comes to another stage leaves the target and the other writers. -/
theorem moved_enter {p : ι} {w : Writer δ α} (hw : s.writers p = some w) (stage : Stage α)
    (c : Option (List α)) (pub : List (δ × List α)) :
    Moved s ((s.store p c).enter p ⟨w.tag, stage⟩) p pub where
  target _ hrows := Or.inl hrows
  others q hq := by rw [writers_enter, if_neg hq]; rfl
  tag := ⟨w, ⟨w.tag, stage⟩, hw, by rw [writers_enter, if_pos rfl], rfl⟩

theorem moved_exit {p : ι} {w : Writer δ α} (hw : s.writers p = some w) (ok : Bool)
    (pub : List (δ × List α)) : Moved s (s.enter p ⟨w.tag, .exited ok⟩) p pub where
  target _ hrows := Or.inl hrows
  others q hq := by rw [writers_enter, if_neg hq]
  tag := ⟨w, ⟨w.tag, .exited ok⟩, hw, by rw [writers_enter, if_pos rfl], rfl⟩

/-- A move keeps the files whole. -/
theorem Whole.move (h : Whole s pub) {p : ι} {m : Move α} (hs : s.move p m = some s') :
    Whole s' (pub ++ s.published p m) ∧ Moved s s' p (s.published p m) := by
  unfold Files.move at hs
  split at hs
  case h_1 tag hw =>
    cases hs
    exact ⟨(h.idle p tag (.exited false) nofun).mono _, moved_exit hw false _⟩
  case h_2 tag rows hw =>
    cases hs
    refine ⟨(h.enter fun rows k heq => ?_).mono _, moved_enter hw (.writing rows 0) _ _⟩
    cases heq
    rfl
  case h_3 tag rows k hw =>
    obtain ⟨r, hr, rfl⟩ := Option.map_eq_some_iff.mp hs
    refine ⟨(h.enter fun rows' k' heq => ?_).mono _, moved_enter hw (.writing rows (k + 1)) _ _⟩
    cases heq
    rw [h.temp p tag rows k hw, Option.map_some, List.take_add_one, hr]
    rfl
  case h_4 tag rows k hw =>
    have hpub : s.published p .replace = [(tag, rows)] := by
      unfold published
      rw [hw]
    by_cases hk : k = rows.length
    · rw [if_pos hk] at hs
      cases hs
      have htemp := h.temp p tag rows k hw
      rw [hk, List.take_length] at htemp
      have hmove := moved_enter hw (.exited true) none (s.published p .replace)
      have hstop : Whole ((s.store p none).enter p ⟨tag, .exited true⟩) pub :=
        h.enter fun _ _ heq => nomatch heq
      rw [hpub]
      refine ⟨⟨hstop.temp, fun rows' hrows => ?_⟩, ⟨fun rows' hrows => Or.inr ?_,
        hmove.others, hmove.tag⟩⟩
      · obtain rfl : rows = rows' := Option.some.inj (htemp.symm.trans hrows)
        exact ⟨tag, List.mem_append_right _ List.mem_cons_self⟩
      · obtain rfl : rows = rows' := Option.some.inj (htemp.symm.trans hrows)
        exact ⟨_, hw, List.mem_cons_self⟩
    · rw [if_neg hk] at hs
      cases hs
  case h_5 tag hw =>
    cases hs
    exact ⟨(h.idle p tag (.exited false) nofun).mono _, moved_exit hw false _⟩
  case h_6 tag rows k hw =>
    cases hs
    exact ⟨(h.idle p tag (.exited false) nofun).mono _, moved_exit hw false _⟩
  case h_7 tag hw =>
    cases hs
    exact ⟨(h.idle p tag (.exited false) nofun).mono _, moved_exit hw false _⟩
  case h_8 => cases hs

end Files
end AtomicFile
end HoloMarket
