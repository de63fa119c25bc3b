import Mathlib.Data.List.Basic

/-!
# JsonText: objects of strings and numbers

A reader for JSON objects without blanks whose strings have no escapes.  The
reader of the values is a parameter, so that an object of objects is read by the
same definition, and reading back what was written is proved once.
-/

namespace HoloMarket
namespace JsonText

/-- No quote and no escape. -/
def Plain (s : List Char) : Prop := ∀ c ∈ s, c ≠ '"' ∧ c ≠ '\\'

instance (s : List Char) : Decidable (Plain s) :=
  List.decidableBAll (fun c => c ≠ '"' ∧ c ≠ '\\') s

/-! ## Strings -/

def quoted (s : List Char) : List Char := '"' :: (s ++ ['"'])

/-- The rest of a string, past its opening quote. -/
def readBody : List Char → Option (List Char × List Char)
  | [] => none
  | c :: cs =>
    if c = '"' then some ([], cs)
    else if c = '\\' then none
    else (readBody cs).map fun r => (c :: r.1, r.2)

def readQuoted : List Char → Option (List Char × List Char)
  | [] => none
  | c :: cs => if c = '"' then readBody cs else none

theorem readBody_append {s : List Char} (hs : Plain s) (rest : List Char) :
    readBody (s ++ '"' :: rest) = some (s, rest) := by
  induction s with
  | nil => exact if_pos rfl
  | cons c s ih =>
    have hc := hs c List.mem_cons_self
    have htail := ih fun d hd => hs d (List.mem_cons_of_mem c hd)
    rw [List.cons_append, readBody, if_neg hc.1, if_neg hc.2, htail]
    rfl

theorem readQuoted_quoted {s : List Char} (hs : Plain s) (rest : List Char) :
    readQuoted (quoted s ++ rest) = some (s, rest) := by
  show readBody (s ++ ['"'] ++ rest) = _
  rw [List.append_assoc]
  exact readBody_append hs rest

/-! ## Objects -/

/-- What may follow a value: a comma or the end of its object. -/
def Follows (rest : List Char) : Prop := ∃ c cs, rest = c :: cs ∧ (c = ',' ∨ c = '}')

section Objects

variable {V : Type}

/-- A reader of values reads a text back before anything that may follow. -/
def ReadsBack (value : List Char → Option (V × List Char)) (text : V → List Char) (v : V) : Prop :=
  ∀ rest, Follows rest → value (text v ++ rest) = some (v, rest)

def memberText (text : V → List Char) (m : List Char × V) : List Char :=
  quoted m.1 ++ ':' :: text m.2

/-- The members of an object that is not empty, and its end. -/
def membersText (text : V → List Char) (m : List Char × V) : List (List Char × V) → List Char
  | [] => memberText text m ++ ['}']
  | m' :: ms => memberText text m ++ ',' :: membersText text m' ms

def objectText (text : V → List Char) : List (List Char × V) → List Char
  | [] => ['{', '}']
  | m :: ms => '{' :: membersText text m ms

def readMember (value : List Char → Option (V × List Char)) (cs : List Char) :
    Option ((List Char × V) × List Char) := do
  let (k, cs) ← readQuoted cs
  match cs with
  | [] => none
  | c :: cs =>
    if c = ':' then (value cs).map fun r => ((k, r.1), r.2) else none

/-- At most `fuel` members, and the end of the object. -/
def readMembers (value : List Char → Option (V × List Char)) :
    Nat → List Char → Option (List (List Char × V) × List Char)
  | 0, _ => none
  | fuel + 1, cs => do
    let (m, cs) ← readMember value cs
    match cs with
    | [] => none
    | c :: cs =>
      if c = '}' then some ([m], cs)
      else if c = ',' then (readMembers value fuel cs).map fun r => (m :: r.1, r.2)
      else none

def readObject (value : List Char → Option (V × List Char)) :
    List Char → Option (List (List Char × V) × List Char)
  | c₁ :: c₂ :: cs =>
    if c₁ = '{' then
      if c₂ = '}' then some ([], cs) else readMembers value (c₂ :: cs).length (c₂ :: cs)
    else none
  | _ => none

variable {value : List Char → Option (V × List Char)} {text : V → List Char}

theorem readMember_text {m : List Char × V} (hkey : Plain m.1) (hval : ReadsBack value text m.2)
    {rest : List Char} (hrest : Follows rest) :
    readMember value (memberText text m ++ rest) = some (m, rest) := by
  have hread := hval rest hrest
  unfold readMember memberText
  rw [List.append_assoc, readQuoted_quoted hkey]
  show Option.map _ (value (text m.2 ++ rest)) = _
  rw [hread]
  rfl

/-- A key that is plain and a value that is read back. -/
def MemberOk (value : List Char → Option (V × List Char)) (text : V → List Char)
    (m : List Char × V) : Prop :=
  Plain m.1 ∧ ReadsBack value text m.2

theorem readMembers_text {m : List Char × V} {ms : List (List Char × V)}
    (hok : ∀ m' ∈ m :: ms, MemberOk value text m') {fuel : Nat} (hfuel : ms.length < fuel)
    (rest : List Char) :
    readMembers value fuel (membersText text m ms ++ rest) = some (m :: ms, rest) := by
  induction ms generalizing m fuel with
  | nil =>
    obtain ⟨fuel, rfl⟩ := Nat.exists_eq_add_of_lt hfuel
    have hm := hok m List.mem_cons_self
    rw [readMembers, membersText, List.append_assoc, List.singleton_append,
      readMember_text hm.1 hm.2 ⟨_, _, rfl, Or.inr rfl⟩]
    rfl
  | cons m' ms ih =>
    rw [List.forall_mem_cons] at hok
    cases fuel with
    | zero => exact absurd hfuel (Nat.not_lt_zero _)
    | succ fuel =>
      have htail := ih hok.2 (Nat.lt_of_succ_lt_succ hfuel)
      rw [readMembers, membersText, List.append_assoc, List.cons_append,
        readMember_text hok.1.1 hok.1.2 ⟨_, _, rfl, Or.inl rfl⟩]
      show Option.map _ (readMembers value fuel (membersText text m' ms ++ rest)) = _
      rw [htail]
      rfl

theorem length_le_membersText (m : List Char × V) (ms : List (List Char × V)) :
    ms.length < (membersText text m ms).length := by
  induction ms generalizing m with
  | nil =>
    rw [membersText, List.length_append]
    exact Nat.lt_of_lt_of_le Nat.zero_lt_one (Nat.le_add_left _ _)
  | cons m' ms ih =>
    have htail := ih m'
    rw [membersText, List.length_append, List.length_cons, List.length_cons]
    omega

/-- An object is read back with its members in their order. -/
theorem readObject_text {ms : List (List Char × V)} (hok : ∀ m ∈ ms, MemberOk value text m)
    (rest : List Char) : readObject value (objectText text ms ++ rest) = some (ms, rest) := by
  cases ms with
  | nil => rfl
  | cons m ms =>
    have hlen : ms.length < (membersText text m ms).length := length_le_membersText m ms
    have hread := readMembers_text hok (Nat.lt_of_lt_of_le hlen
      (List.length_append ▸ Nat.le_add_right _ rest.length)) rest
    show readObject value ('{' :: (membersText text m ms ++ rest)) = _
    have hquote : ∃ cs, membersText text m ms = '"' :: cs := by
      cases ms with
      | nil => exact ⟨_, rfl⟩
      | cons m' ms => exact ⟨_, rfl⟩
    obtain ⟨cs, hcs⟩ := hquote
    rw [hcs, List.cons_append] at hread ⊢
    rw [readObject, if_pos rfl, if_neg (by decide)]
    exact hread

end Objects

/-! ## Values -/

inductive Scalar where
  | str (s : List Char)
  | num (t : List Char)
deriving DecidableEq, Repr

/-- The text of a number is kept as it is written. -/
def isNumberChar (c : Char) : Bool := c.isDigit || c == '-'

namespace Scalar

def text : Scalar → List Char
  | str s => quoted s
  | num t => t

/-- What the value says, without quotes. -/
def content : Scalar → List Char
  | str s => s
  | num t => t

def read : List Char → Option (Scalar × List Char)
  | [] => none
  | c :: cs =>
    if c = '"' then (readBody cs).map fun r => (str r.1, r.2)
    else if isNumberChar c then
      some (num ((c :: cs).takeWhile isNumberChar), (c :: cs).dropWhile isNumberChar)
    else none

theorem readsBack_str {s : List Char} (hs : Plain s) : ReadsBack read text (str s) := by
  intro rest _
  show Option.map _ (readBody (s ++ ['"'] ++ rest)) = _
  rw [List.append_assoc, List.singleton_append, readBody_append hs]
  rfl

theorem readsBack_num {t : List Char} (hne : t ≠ []) (ht : ∀ c ∈ t, isNumberChar c = true) :
    ReadsBack read text (num t) := by
  intro rest hrest
  obtain ⟨c, cs, rfl⟩ := List.exists_cons_of_ne_nil hne
  have hc := ht c List.mem_cons_self
  have hquote : c ≠ '"' := by
    intro h
    rw [h] at hc
    exact absurd hc (by decide)
  have hstop : rest.takeWhile isNumberChar = [] ∧ rest.dropWhile isNumberChar = rest := by
    obtain ⟨d, ds, rfl, rfl | rfl⟩ := hrest <;> exact ⟨rfl, rfl⟩
  show read (c :: (cs ++ rest)) = some (num (c :: cs), rest)
  rw [read, if_neg hquote, if_pos hc, ← List.cons_append, List.takeWhile_append_of_pos ht,
    List.dropWhile_append_of_pos ht, hstop.1, hstop.2, List.append_nil]

end Scalar

/-- A value of a message: a scalar or an object of scalars. -/
inductive Value where
  | scalar (s : Scalar)
  | object (ms : List (List Char × Scalar))
deriving DecidableEq, Repr

namespace Value

def text : Value → List Char
  | scalar s => s.text
  | object ms => objectText Scalar.text ms

def read : List Char → Option (Value × List Char)
  | [] => none
  | c :: cs =>
    if c = '{' then (readObject Scalar.read (c :: cs)).map fun r => (object r.1, r.2)
    else (Scalar.read (c :: cs)).map fun r => (scalar r.1, r.2)

theorem readsBack_str {s : List Char} (hs : Plain s) :
    ReadsBack read text (scalar (.str s)) := by
  intro rest hrest
  have hread := Scalar.readsBack_str hs rest hrest
  show Option.map _ (Scalar.read (Scalar.text (.str s) ++ rest)) = _
  rw [hread]
  rfl

theorem readsBack_object {ms : List (List Char × Scalar)}
    (hok : ∀ m ∈ ms, MemberOk Scalar.read Scalar.text m) : ReadsBack read text (object ms) := by
  intro rest _
  have hread := readObject_text hok rest
  have hbrace : ∃ cs, objectText Scalar.text ms = '{' :: cs := by
    cases ms with
    | nil => exact ⟨_, rfl⟩
    | cons m ms => exact ⟨_, rfl⟩
  obtain ⟨cs, hcs⟩ := hbrace
  show read (objectText Scalar.text ms ++ rest) = _
  rw [hcs, List.cons_append] at hread ⊢
  rw [read, if_pos rfl, hread]
  rfl

end Value

/-- The message of a text, nothing being left over. -/
def readMessage (cs : List Char) : Option (List (List Char × Value)) :=
  match readObject Value.read cs with
  | some (ms, []) => some ms
  | _ => none

theorem readMessage_text {ms : List (List Char × Value)}
    (hok : ∀ m ∈ ms, MemberOk Value.read Value.text m) :
    readMessage (objectText Value.text ms) = some ms := by
  have hread := readObject_text hok []
  rw [List.append_nil] at hread
  rw [readMessage, hread]

end JsonText
end HoloMarket
