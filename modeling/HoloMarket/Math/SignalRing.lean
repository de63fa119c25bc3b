import HoloMarket.Math.CudaPipeline

/-!
# What the pipeline thread has published

The index counts the published ticks, the slot behind it holds the record of the
last one, and between two ticks the three arrays are those of the last one.
-/

namespace HoloMarket

open SharedCells

variable {K : Type}

/-! ## Stores elsewhere -/

namespace HostMemory

variable {m : HostMemory K} {a : HostAccess K}

theorem frame_arrays {n : Nat} {c : HostCell} (ha : a.cell.InArrays n) (hc : ¬ c.InArrays n) :
    Function.update m a.cell a.value c = m c := by
  refine Function.update_of_ne (fun he => hc ?_) _ _
  rw [he]
  exact ha

theorem frame_idx {i : Nat} {f : SignalField} (ha : a.cell = .signalHistory i f) :
    Function.update m a.cell a.value .signalWriteIdx = m .signalWriteIdx :=
  Function.update_of_ne (fun he => HostCell.noConfusion (he.trans ha)) _ _

end HostMemory

/-! ## The stores of one tick -/

variable [Zero K] [Add K] [Div K] [IntCast K] [LT K] [DecidableLT K]

namespace Tick

variable {t : Tick K} {a : HostAccess K} {idx : Nat}

theorem mem_copies : a ∈ t.copies.flatten ↔ a.cell.InArrays t.size ∧ a.Holds t.memory := by
  simp only [copies, List.flatten_cons, List.flatten_nil, List.append_nil, List.mem_append,
    List.mem_map, List.mem_range]
  constructor
  · rintro (⟨e, he, rfl⟩ | ⟨e, he, rfl⟩ | ⟨e, he, rfl⟩)
    · exact ⟨he, rfl⟩
    · exact ⟨he, rfl⟩
    · exact ⟨he, rfl⟩
  · rintro ⟨hcell, hvalue⟩
    obtain ⟨cell, value⟩ := a
    obtain rfl : t.memory cell = value := hvalue
    cases cell with
    | harmonicOut e => exact Or.inl ⟨e, hcell, rfl⟩
    | edgeSrc e => exact Or.inr (Or.inl ⟨e, hcell, rfl⟩)
    | edgeDst e => exact Or.inr (Or.inr ⟨e, hcell, rfl⟩)
    | signalHistory i f => exact hcell.elim
    | signalWriteIdx => exact hcell.elim

theorem mem_slotStores : a ∈ t.slotStores idx ↔
    (∃ f, a.cell = .signalHistory idx f) ∧ a.Holds t.memory := by
  rw [slotStores, List.mem_map]
  constructor
  · rintro ⟨f, -, rfl⟩
    exact ⟨⟨f, rfl⟩, rfl⟩
  · rintro ⟨⟨f, hf⟩, hvalue⟩
    obtain ⟨cell, value⟩ := a
    obtain rfl : t.memory cell = value := hvalue
    obtain rfl : cell = .signalHistory idx f := hf
    exact ⟨f, SignalField.mem_all f, rfl⟩

end Tick

/-! ## One step of `record_signal` -/

namespace RecordPc

/-- What the stores made so far amount to. -/
def Progress (m : HostMemory K) : RecordPc K → Prop
  | .idle => True
  | .copy t todo => Writing t.copies.flatten todo.flatten m ∧
      todo.flatten.length ≤ t.copies.flatten.length
  | .loadIdx t => Writing t.copies.flatten [] m
  | .slot t todo => Writing t.copies.flatten [] m ∧
      Writing (t.slotStores (m .signalWriteIdx % kSignalHistoryLen)) todo m
  | .publish t => Writing t.copies.flatten [] m ∧
      Writing (t.slotStores (m .signalWriteIdx % kSignalHistoryLen)) [] m

/-- The next store goes to slot `i` of the history. -/
def StoresTo (m : HostMemory K) (i : Nat) : RecordPc K → Prop
  | .slot _ (_ :: _) => m .signalWriteIdx % kSignalHistoryLen = i
  | _ => False

/-- What one step can do: go on without a store, store an element of an array or
a field of the slot, or increment the index. -/
inductive Step (m : HostMemory K) : RecordPc K → HostMemory K → RecordPc K → List (Tick K) → Prop
  | synchronized (t : Tick K) : Step m (.copy t []) m (.loadIdx t) []
  | copied (t : Tick K) (todo : List (List (HostAccess K))) :
      Step m (.copy t ([] :: todo)) m (.copy t todo) []
  | element (t : Tick K) (stage : List (HostAccess K)) (todo : List (List (HostAccess K)))
      (n : Nat) (a : HostAccess K) (h : stage[n]? = some a) :
      Step m (.copy t (stage :: todo)) (Function.update m a.cell a.value)
        (.copy t (stage.eraseIdx n :: todo)) []
  | loaded (t : Tick K) :
      Step m (.loadIdx t) m
        (.slot t (t.slotStores (m .signalWriteIdx % kSignalHistoryLen))) []
  | assigned (t : Tick K) : Step m (.slot t []) m (.publish t) []
  | field (t : Tick K) (todo : List (HostAccess K)) (n : Nat) (a : HostAccess K)
      (h : todo[n]? = some a) :
      Step m (.slot t todo) (Function.update m a.cell a.value) (.slot t (todo.eraseIdx n)) []
  | published (t : Tick K) :
      Step m (.publish t) (Function.update m .signalWriteIdx (m .signalWriteIdx + 1 : Nat)) .idle
        [t]

variable {m m' : HostMemory K} {pc pc' : RecordPc K} {n : Nat} {ticks : List (Tick K)}

theorem step_sound (h : pc.step m n = some (m', pc', ticks)) : Step m pc m' pc' ticks := by
  cases pc with
  | idle => cases h
  | copy t todo =>
    match todo with
    | [] =>
      cases h
      exact .synchronized t
    | [] :: todo =>
      cases h
      exact .copied t todo
    | (b :: stage) :: todo =>
      obtain ⟨a, ha, he⟩ := Option.map_eq_some_iff.mp h
      cases he
      exact .element t (b :: stage) todo n a ha
  | loadIdx t =>
    cases h
    exact .loaded t
  | slot t todo =>
    match todo with
    | [] =>
      cases h
      exact .assigned t
    | b :: todo =>
      obtain ⟨a, ha, he⟩ := Option.map_eq_some_iff.mp h
      cases he
      exact .field t (b :: todo) n a ha
  | publish t =>
    cases h
    exact .published t

theorem mem_slot {t : Tick K} {todo : List (HostAccess K)}
    (h : Progress m (.slot t todo)) {a : HostAccess K} (ha : a ∈ todo) :
    ∃ f, a.cell = .signalHistory (m .signalWriteIdx % kSignalHistoryLen) f :=
  (Tick.mem_slotStores.mp (h.2.sub ha)).1

theorem mem_copy {t : Tick K} {todo : List (List (HostAccess K))}
    (h : Progress m (.copy t todo)) {a : HostAccess K} (ha : a ∈ todo.flatten) :
    a.cell.InArrays t.size :=
  (Tick.mem_copies.mp (h.1.sub ha)).1

theorem frame_copies {t : Tick K} {a : HostAccess K} {i : Nat} {f : SignalField}
    (ha : a.cell = .signalHistory i f) {b : HostAccess K} (hb : b ∈ t.copies.flatten) :
    Function.update m a.cell a.value b.cell = m b.cell := by
  refine Function.update_of_ne (fun he => ?_) _ _
  have harr := (Tick.mem_copies.mp hb).1
  rw [he, ha] at harr
  exact harr

omit [Zero K] [Add K] [Div K] [IntCast K] [LT K] [DecidableLT K] in
theorem length_eraseIdx_flatten_lt {stage : List (HostAccess K)} {a : HostAccess K}
    (ha : stage[n]? = some a) (todo : List (List (HostAccess K))) :
    (stage.eraseIdx n :: todo).flatten.length < (stage :: todo).flatten.length := by
  have hn := (List.getElem?_eq_some_iff.mp ha).1
  rw [List.flatten_cons, List.flatten_cons, List.length_append, List.length_append,
    List.length_eraseIdx_of_lt hn]
  omega

/-- Every step makes progress. -/
theorem Step.progress (hs : Step m pc m' pc' ticks) (h : pc.Progress m) : pc'.Progress m' := by
  cases hs with
  | synchronized t => exact h.1
  | copied t todo => exact h
  | element t stage todo n a ha =>
    have hmem := List.mem_of_getElem? ha
    refine ⟨h.1.store (List.mem_append_left _ hmem) ?_ fun b hb => ?_,
      (length_eraseIdx_flatten_lt ha todo).le.trans h.2⟩
    · exact List.append_subset.mpr ⟨fun b hb =>
        List.mem_append_left _ (List.mem_of_mem_eraseIdx hb),
        fun b hb => List.mem_append_right _ hb⟩
    · rcases List.mem_append.mp hb with hb | hb
      · exact (Writing.mem_or_mem_eraseIdx ha hb).imp_right (List.mem_append_left _)
      · exact Or.inr (List.mem_append_right _ hb)
  | loaded t =>
    exact ⟨h, Writing.start fun a ha => (Tick.mem_slotStores.mp ha).2⟩
  | assigned t => exact h
  | field t todo n a ha =>
    have hmem := List.mem_of_getElem? ha
    obtain ⟨f, hf⟩ := mem_slot h hmem
    refine ⟨h.1.frame fun b hb => frame_copies hf hb, ?_⟩
    rw [HostMemory.frame_idx hf]
    exact h.2.store hmem (fun b hb => List.mem_of_mem_eraseIdx hb) fun b hb =>
      Writing.mem_or_mem_eraseIdx ha hb
  | published t => trivial

theorem Step.history (hs : Step m pc m' pc' ticks) (h : pc.Progress m) {i : Nat}
    (hi : ¬ pc.StoresTo m i) (f : SignalField) :
    m' (.signalHistory i f) = m (.signalHistory i f) := by
  cases hs with
  | synchronized t => rfl
  | copied t todo => rfl
  | element t stage todo n a ha =>
    exact HostMemory.frame_arrays (mem_copy h (List.mem_append_left _ (List.mem_of_getElem? ha))) id
  | loaded t => rfl
  | assigned t => rfl
  | field t todo n a ha =>
    obtain ⟨g, hg⟩ := mem_slot h (List.mem_of_getElem? ha)
    refine Function.update_of_ne (fun he => hi ?_) _ _
    cases todo with
    | nil => cases ha
    | cons b todo => exact ((HostCell.signalHistory.inj (he.trans hg)).1).symm
  | published t => exact Function.update_of_ne (fun he => HostCell.noConfusion he) _ _

/-- While nothing of a new record is stored, nothing is stored. -/
theorem Step.mem_of_not_dirty (hs : Step m pc m' pc' ticks) (h : pc.Progress m)
    (hd : ¬ pc'.Dirty) : (m' = m ∧ ticks = [] ∧ ¬ pc.Dirty) ∨ ∃ t, pc = .publish t := by
  cases hs with
  | synchronized t => exact absurd trivial hd
  | copied t todo => exact Or.inl ⟨rfl, rfl, hd⟩
  | element t stage todo n a ha =>
    exact absurd ((length_eraseIdx_flatten_lt ha todo).trans_le h.2) hd
  | loaded t => exact absurd trivial hd
  | assigned t => exact absurd trivial hd
  | field t todo n a ha => exact absurd trivial hd
  | published t => exact Or.inr ⟨t, rfl⟩

theorem Step.idx (hs : Step m pc m' pc' ticks) (h : pc.Progress m) :
    m' .signalWriteIdx = (m .signalWriteIdx + ticks.length : Nat) := by
  cases hs with
  | synchronized t => rfl
  | copied t todo => rfl
  | element t stage todo n a ha =>
    exact HostMemory.frame_arrays
      (mem_copy h (List.mem_append_left _ (List.mem_of_getElem? ha))) id
  | loaded t => rfl
  | assigned t => rfl
  | field t todo n a ha =>
    obtain ⟨g, hg⟩ := mem_slot h (List.mem_of_getElem? ha)
    exact HostMemory.frame_idx hg
  | published t => exact Function.update_self _ _ _

theorem Step.slot (hs : Step m pc m' pc' ticks) (h : pc.Progress m) {i : Nat}
    (hi : ¬ pc.StoresTo m i) : m'.slot i = m.slot i :=
  congrArg SignalRecord.ofField (funext (hs.history h hi))

end RecordPc

omit [Zero K] [Add K] [Div K] [IntCast K] [LT K] [DecidableLT K] in
theorem RecordPc.not_dirty_runOnce (t : Tick K) : ¬ (RecordPc.runOnce t).Dirty := by
  rw [RecordPc.runOnce]
  split_ifs
  · exact id
  · exact Nat.lt_irrefl _

/-! ## Between two ticks -/

/-- What the memory says about the published ticks. -/
structure Published (m : HostMemory K) (pc : RecordPc K) (published : List (Tick K)) : Prop where
  idx : m .signalWriteIdx = published.length
  newest : m.slot (readIdx published.length) = (published.getLast?.map Tick.record).getD .blank
  arrays : ¬ pc.Dirty → ∀ t ∈ published.getLast?, ∀ a ∈ t.copies.flatten, a.Holds m
  progress : pc.Progress m

theorem readIdx_succ (w : Nat) : readIdx (w + 1) = w % kSignalHistoryLen := by
  simp only [readIdx, kSignalHistoryLen]
  omega

theorem readIdx_ne (w : Nat) : w % kSignalHistoryLen ≠ readIdx w := by
  simp only [readIdx, kSignalHistoryLen]
  omega

namespace Published

variable {m m' : HostMemory K} {pc pc' : RecordPc K} {published ticks : List (Tick K)}

theorem init (edgeSrc edgeDst : Nat → Int) :
    Published (HostMemory.init edgeSrc edgeDst : HostMemory K) .idle [] where
  idx := rfl
  newest := rfl
  arrays _ _ ht := nomatch ht
  progress := trivial

theorem runOnce (h : Published m .idle published) (t : Tick K) :
    Published m (.runOnce t) published where
  idx := h.idx
  newest := h.newest
  arrays _ := h.arrays id
  progress := by
    rw [RecordPc.runOnce]
    split_ifs
    · trivial
    · exact ⟨Writing.start fun a ha => (Tick.mem_copies.mp ha).2, Nat.le_refl _⟩

/-- The slot behind the index is never the one under assignment. -/
theorem not_storesTo (h : Published m pc published) :
    ¬ pc.StoresTo m (readIdx published.length) := by
  intro hto
  unfold RecordPc.StoresTo at hto
  split at hto
  · rw [h.idx] at hto
    exact readIdx_ne _ hto
  · exact hto

/-- The increment makes the record and the arrays of the tick the newest. -/
theorem publish {t : Tick K} (h : Published m (.publish t) published) :
    Published (Function.update m .signalWriteIdx (m .signalWriteIdx + 1 : Nat)) .idle
      (published ++ [t]) := by
  obtain ⟨hcopies, hslot⟩ := h.progress
  have hlast : (published ++ [t]).getLast? = some t := List.getLast?_concat
  refine ⟨?_, ?_, fun _ u hu a ha => ?_, trivial⟩
  · rw [Function.update_self, h.idx, List.length_append, List.length_singleton]
  · rw [hlast, List.length_append, List.length_singleton, readIdx_succ, ← h.idx]
    refine SignalRecord.ofField_eq fun f => ?_
    have hstore : (⟨.signalHistory _ f, t.record.field f⟩ : HostAccess K).Holds m :=
      hslot.done (Tick.mem_slotStores.mpr ⟨⟨f, rfl⟩, rfl⟩)
    exact (Function.update_of_ne (fun he => HostCell.noConfusion he) _ _).trans hstore
  · obtain rfl : t = u := Option.some.inj (hlast.symm.trans hu)
    refine (Function.update_of_ne (fun he => ?_) _ _).trans (hcopies.done ha)
    have harr := (Tick.mem_copies.mp ha).1
    rw [he] at harr
    exact harr

theorem step (h : Published m pc published) (hs : pc.Step m m' pc' ticks) :
    Published m' pc' (published ++ ticks) := by
  by_cases hpub : ∃ t, pc = .publish t
  · obtain ⟨t, rfl⟩ := hpub
    cases hs
    exact h.publish
  have hticks : ticks = [] := by
    cases hs with
    | published t => exact absurd ⟨t, rfl⟩ hpub
    | _ => rfl
  subst hticks
  rw [List.append_nil]
  refine ⟨?_, ?_, fun hd => ?_, hs.progress h.progress⟩
  · rw [hs.idx h.progress, h.idx]
    rfl
  · rw [hs.slot h.progress h.not_storesTo, h.newest]
  · obtain ⟨rfl, -, hd⟩ := (hs.mem_of_not_dirty h.progress hd).resolve_right hpub
    exact h.arrays hd

end Published
end HoloMarket
