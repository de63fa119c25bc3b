import Mathlib.Data.List.DropRight
import Mathlib.Data.List.Infix

/-!
# Texts cut into matches, words and lines

`findAll longest` cuts the matches of a pattern out of a text, leftmost first and each as
long as it can be; `longest` is the length of the longest match at the head of a text,
zero when there is none.  `words` cuts a text at blanks and `lines` at newlines, and what
was put together from words or lines comes apart into them again.
-/

namespace HoloMarket
namespace TextScan

variable {α : Type*}

def loop (longest : List α → Nat) : Nat → List α → List (List α)
  | 0, _ => []
  | _ + 1, [] => []
  | fuel + 1, a :: l =>
    if longest (a :: l) = 0 then loop longest fuel l
    else (a :: l).take (longest (a :: l)) :: loop longest fuel ((a :: l).drop (longest (a :: l)))

/-- The matches in a text. -/
def findAll (longest : List α → Nat) (l : List α) : List (List α) := loop longest l.length l

variable {longest : List α → Nat}

theorem loop_eq_loop {m n : Nat} {l : List α} (hm : l.length ≤ m) (hn : l.length ≤ n) :
    loop longest m l = loop longest n l := by
  induction m generalizing n l with
  | zero =>
    obtain rfl : l = [] := List.length_eq_zero_iff.mp (by omega)
    cases n <;> rfl
  | succ m ih =>
    cases l with
    | nil => cases n <;> rfl
    | cons a l =>
      rw [List.length_cons] at hm hn
      cases n with
      | zero => omega
      | succ n =>
        show (if longest (a :: l) = 0 then _ else _) = if longest (a :: l) = 0 then _ else _
        by_cases hzero : longest (a :: l) = 0
        · rw [if_pos hzero, if_pos hzero]
          exact ih (by omega) (by omega)
        · have hlen : ((a :: l).drop (longest (a :: l))).length ≤ l.length := by
            rw [List.length_drop, List.length_cons]
            omega
          rw [if_neg hzero, if_neg hzero, ih (by omega) (show _ ≤ n by omega)]

theorem findAll_cons (a : α) (l : List α) : findAll longest (a :: l) =
    if longest (a :: l) = 0 then findAll longest l
    else (a :: l).take (longest (a :: l)) ::
      loop longest l.length ((a :: l).drop (longest (a :: l))) := rfl

theorem findAll_skip {a : α} {l : List α} (h : longest (a :: l) = 0) :
    findAll longest (a :: l) = findAll longest l := by
  rw [findAll_cons, if_pos h]

theorem findAll_match {w l : List α} (hw : w ≠ []) (h : longest (w ++ l) = w.length) :
    findAll longest (w ++ l) = w :: findAll longest l := by
  cases w with
  | nil => exact absurd rfl hw
  | cons a w =>
    rw [List.cons_append] at h
    have hne : longest (a :: (w ++ l)) ≠ 0 := by
      rw [h]
      exact Nat.succ_ne_zero _
    rw [List.cons_append, findAll_cons, if_neg hne, h, ← List.cons_append, List.take_left,
      List.drop_left]
    refine congrArg (List.cons _) (loop_eq_loop ?_ (Nat.le_refl _))
    rw [List.length_append]
    omega

/-! ## Runs of a class -/

variable {p : α → Bool}

/-- The pattern of one or more characters of a class. -/
def run (p : α → Bool) (l : List α) : Nat := (l.takeWhile p).length

/-- A text that no character of the class starts. -/
def Stops (p : α → Bool) (l : List α) : Prop := ∀ a, l.head? = some a → p a = false

theorem none_of_any {l : List α} (h : l.any p = false) : ∀ a ∈ l, p a = false :=
  fun a ha => Bool.eq_false_iff.mpr (List.any_eq_false.mp h a ha)

theorem takeWhile_token {w l : List α} (hw : ∀ a ∈ w, p a = true) (hl : Stops p l) :
    (w ++ l).takeWhile p = w := by
  rw [List.takeWhile_append_of_pos hw]
  cases l with
  | nil => exact List.append_nil w
  | cons a l =>
    rw [List.takeWhile_cons_of_neg (by rw [hl a rfl]; exact Bool.false_ne_true)]
    exact List.append_nil w

theorem dropWhile_token {w l : List α} (hw : ∀ a ∈ w, p a = true) (hl : Stops p l) :
    (w ++ l).dropWhile p = l := by
  rw [List.dropWhile_append_of_pos hw]
  cases l with
  | nil => rfl
  | cons a l => exact List.dropWhile_cons_of_neg (by rw [hl a rfl]; exact Bool.false_ne_true)

theorem findAll_run_token {w l : List α} (hne : w ≠ []) (hw : ∀ a ∈ w, p a = true)
    (hl : Stops p l) : findAll (run p) (w ++ l) = w :: findAll (run p) l :=
  findAll_match hne (by unfold run; rw [takeWhile_token hw hl])

theorem findAll_run_label {w : List α} (hw : ∀ a ∈ w, p a = false) (l : List α) :
    findAll (run p) (w ++ l) = findAll (run p) l := by
  induction w with
  | nil => rfl
  | cons a w ih =>
    have ha := hw a List.mem_cons_self
    rw [List.cons_append, findAll_skip, ih fun b hb => hw b (List.mem_cons_of_mem a hb)]
    unfold run
    rw [List.takeWhile_cons_of_neg (by rw [ha]; exact Bool.false_ne_true)]
    rfl

theorem findAll_run {u w v : List α} (hu : ∀ a ∈ u, p a = false) (hne : w ≠ [])
    (hw : ∀ a ∈ w, p a = true) (hv : ∀ a ∈ v, p a = false) :
    findAll (run p) (u ++ w ++ v) = [w] := by
  have hstop : Stops p v := fun a ha => hv a (List.mem_of_mem_head? ha)
  have hnil := findAll_run_label hv []
  rw [List.append_nil] at hnil
  rw [List.append_assoc, findAll_run_label hu, findAll_run_token hne hw hstop, hnil]
  rfl

/-! ## Two runs around a separator -/

/-- The pattern of one or more characters of the class, the separator, and one or more. -/
def runs [DecidableEq α] (p : α → Bool) (sep : α) (l : List α) : Nat :=
  match l.dropWhile p with
  | a :: rest =>
    if a = sep ∧ run p l ≠ 0 ∧ run p rest ≠ 0 then run p l + 1 + run p rest else 0
  | [] => 0

theorem findAll_runs [DecidableEq α] {sep : α} {u w x v : List α} (hu : ∀ a ∈ u, p a = false)
    (hw : ∀ a ∈ w, p a = true) (hw₀ : w ≠ []) (hsep : p sep = false)
    (hx : ∀ a ∈ x, p a = true) (hx₀ : x ≠ []) (hv : ∀ a ∈ v, p a = false) :
    findAll (runs p sep) (u ++ (w ++ sep :: x) ++ v) = [w ++ sep :: x] := by
  have hskip : ∀ {u : List α}, (∀ a ∈ u, p a = false) → ∀ l,
      findAll (runs p sep) (u ++ l) = findAll (runs p sep) l := by
    intro u hu l
    induction u with
    | nil => rfl
    | cons a u ih =>
      have ha := hu a List.mem_cons_self
      rw [List.cons_append, findAll_skip, ih fun b hb => hu b (List.mem_cons_of_mem a hb)]
      unfold runs run
      rw [List.dropWhile_cons_of_neg (by rw [ha]; exact Bool.false_ne_true),
        List.takeWhile_cons_of_neg (by rw [ha]; exact Bool.false_ne_true)]
      exact if_neg fun h => h.2.1 rfl
  have hstop : Stops p v := fun a ha => hv a (List.mem_of_mem_head? ha)
  have hstop' : Stops p (sep :: (x ++ v)) := fun a ha => by
    rw [← Option.some.inj ha]
    exact hsep
  have hlong : runs p sep (w ++ sep :: x ++ v) = (w ++ sep :: x).length := by
    rw [List.append_assoc, List.cons_append]
    unfold runs run
    rw [dropWhile_token hw hstop', takeWhile_token hw hstop']
    dsimp only
    rw [takeWhile_token hx hstop, if_pos ⟨rfl, mt List.length_eq_zero_iff.mp hw₀,
      mt List.length_eq_zero_iff.mp hx₀⟩, List.length_append, List.length_cons]
    omega
  have hnil := hskip hv []
  rw [List.append_nil] at hnil
  rw [List.append_assoc, hskip hu, findAll_match (by simp) hlong, hnil]
  rfl

/-- A text that lacks a letter of a word does not hold the word. -/
theorem not_infix {key l : List α} {a : α} (ha : a ∈ key) (hl : a ∉ l) : ¬ key <:+: l :=
  fun h => hl (h.subset ha)

/-! ## Words -/

section Words

variable {blank : α → Bool}

/-- A number of words cut off at blanks; the last takes the rest of the text. -/
def words (blank : α → Bool) : Nat → List α → List (List α)
  | 0, _ => []
  | 1, l => [(l.dropWhile blank).rdropWhile blank]
  | n + 2, l =>
    (l.dropWhile blank).takeWhile (fun a => !blank a) ::
      words blank (n + 1) ((l.dropWhile blank).dropWhile fun a => !blank a)

structure IsWord (blank : α → Bool) (w : List α) : Prop where
  ne_nil : w ≠ []
  noBlank : ∀ a ∈ w, blank a = false

theorem words_cons_blank {n : Nat} {a : α} (ha : blank a = true) (l : List α) :
    words blank (n + 1) (a :: l) = words blank (n + 1) l := by
  have hdrop : (a :: l).dropWhile blank = l.dropWhile blank := List.dropWhile_cons_of_pos ha
  cases n with
  | zero => exact congrArg (fun r => [r.rdropWhile blank]) hdrop
  | succ n =>
    exact congrArg (fun r => r.takeWhile (fun a => !blank a) ::
      words blank (n + 1) (r.dropWhile fun a => !blank a)) hdrop

theorem IsWord.dropWhile {w : List α} (h : IsWord blank w) (l : List α) :
    (w ++ l).dropWhile blank = w ++ l := by
  cases w with
  | nil => exact absurd rfl h.ne_nil
  | cons a w =>
    exact List.dropWhile_cons_of_neg (by
      rw [h.noBlank a List.mem_cons_self]
      exact Bool.false_ne_true)

theorem IsWord.rdropWhile {w : List α} (h : IsWord blank w) : w.rdropWhile blank = w := by
  refine List.rdropWhile_eq_self_iff.mpr fun hne hlast => ?_
  rw [h.noBlank _ (List.getLast_mem hne)] at hlast
  exact Bool.false_ne_true hlast

theorem words_intercalate {sep : α} (hsep : blank sep = true) {ws : List (List α)}
    (hws : ∀ w ∈ ws, IsWord blank w) : words blank ws.length ([sep].intercalate ws) = ws := by
  induction ws with
  | nil => rfl
  | cons w ws ih =>
    have hw := hws w List.mem_cons_self
    have hrest := ih fun v hv => hws v (List.mem_cons_of_mem w hv)
    cases ws with
    | nil =>
      have hdrop := hw.dropWhile []
      rw [List.append_nil] at hdrop
      rw [List.intercalate_singleton]
      show [(w.dropWhile blank).rdropWhile blank] = [w]
      rw [hdrop, hw.rdropWhile]
    | cons v ws =>
      have htoken : ∀ a ∈ w, (!blank a) = true := fun a ha => by
        rw [hw.noBlank a ha]
        rfl
      have hstop : Stops (fun a => !blank a) (sep :: [sep].intercalate (v :: ws)) := by
        intro a ha
        rw [← Option.some.inj ha]
        show (!blank sep) = false
        rw [hsep]
        rfl
      rw [List.intercalate_cons_cons, List.append_assoc, List.singleton_append]
      show ((w ++ _).dropWhile blank).takeWhile _ :: words blank (ws.length + 1)
        (((w ++ _).dropWhile blank).dropWhile _) = _
      rw [hw.dropWhile, takeWhile_token htoken hstop, dropWhile_token htoken hstop,
        words_cons_blank hsep]
      exact congrArg (List.cons w) hrest

theorem mem_intercalate {sep a : α} {ws : List (List α)} (h : a ∈ [sep].intercalate ws) :
    a = sep ∨ ∃ w ∈ ws, a ∈ w := by
  induction ws with
  | nil => cases h
  | cons w ws ih =>
    cases ws with
    | nil =>
      rw [List.intercalate_singleton] at h
      exact Or.inr ⟨w, List.mem_cons_self, h⟩
    | cons v ws =>
      rw [List.intercalate_cons_cons, List.append_assoc, List.singleton_append,
        List.mem_append, List.mem_cons] at h
      rcases h with hw | rfl | hrest
      · exact Or.inr ⟨w, List.mem_cons_self, hw⟩
      · exact Or.inl rfl
      · refine (ih hrest).imp_right ?_
        rintro ⟨x, hx, ha⟩
        exact ⟨x, List.mem_cons_of_mem w hx, ha⟩

end Words

/-! ## Lines -/

section Lines

variable [DecidableEq α] {newline : α}

def unlines (newline : α) (ls : List (List α)) : List α := ls.flatMap (· ++ [newline])

/-- The lines of a text that are not empty. -/
def lines (newline : α) (l : List α) : List (List α) :=
  (l.splitOn newline).filter fun line => decide (line ≠ [])

omit [DecidableEq α] in
theorem unlines_eq (ls : List (List α)) :
    unlines newline ls = [newline].intercalate (ls ++ [[]]) := by
  induction ls with
  | nil => rfl
  | cons l ls ih =>
    show l ++ [newline] ++ unlines newline ls = _
    rw [List.cons_append, List.intercalate_cons_of_ne_nil (by simp), ih]

theorem lines_unlines {ls : List (List α)} (hls : ∀ l ∈ ls, newline ∉ l ∧ l ≠ []) :
    lines newline (unlines newline ls) = ls := by
  have hsplit : ([newline].intercalate (ls ++ [[]])).splitOn newline = ls ++ [[]] := by
    refine List.splitOn_intercalate newline (fun l hl => ?_) (by simp)
    rcases List.mem_append.mp hl with hl | hl
    · exact (hls l hl).1
    · rw [List.mem_singleton.mp hl]
      exact List.not_mem_nil
  unfold lines
  rw [unlines_eq, hsplit, List.filter_append,
    List.filter_eq_self.mpr fun l hl => decide_eq_true (hls l hl).2]
  exact List.append_nil ls

theorem mapM_map_eq_some {α β γ : Type} {f : β → Option γ} {g : α → β} {r : α → γ}
    {l : List α} (h : ∀ a ∈ l, f (g a) = some (r a)) : (l.map g).mapM f = some (l.map r) := by
  induction l with
  | nil => rfl
  | cons a l ih =>
    rw [List.map_cons, List.mapM_cons, h a List.mem_cons_self,
      ih fun b hb => h b (List.mem_cons_of_mem a hb)]
    rfl

end Lines

end TextScan
end HoloMarket
