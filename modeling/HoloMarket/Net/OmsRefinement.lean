import Mathlib.Data.List.Sigma
import HoloMarket.Net.OmsCore

/-!
# OMSCore refines a finite map

The purpose of the slot pool is to be a map from keys to records.  `OrderMap` is
that map, with its own meaning of every call, and `omsCore_refines_map` says
that no sequence of calls tells the two apart.  The order in which
`get_stale_orders` walks the hash index is not specified, so its results are
compared as unordered collections.
-/

namespace HoloMarket

variable {F : Type*}

inductive OmsCall (F : Type*) where
  | registerNewOrder (clientOrderId symbol : String) (side : Side) (price qty : F) (t : Clock)
  | applyUpdate (key : UInt64) (newStatus : OrderStatus)
      (cumulativeFilledQty lastFillPrice : F) (exchangeOrderId eventNs : Int)
      (commissionDelta : F)
  | get (key : UInt64)
  | getStaleOrders (maxAgeNs steadyNs : Int)
  | liveOrderCount
  | release (key : UInt64)

/-- What a call hands back: its return value and, for the two calls that fire
the update callback, the copy of the record passed to it. -/
inductive OmsResult (F : Type*) where
  | registered (key : UInt64) (copy : OrderRecord F)
  | updated (copy : Option (OrderRecord F))
  | found (r : Option (OrderRecord F))
  | stale (records : List (OrderRecord F))
  | count (n : Nat)
  | released

inductive OmsResult.Same : OmsResult F → OmsResult F → Prop where
  | refl (r : OmsResult F) : Same r r
  | stale {l l' : List (OrderRecord F)} : l.Perm l' → Same (.stale l) (.stale l')

abbrev OrderMap (F : Type*) := AList fun _ : UInt64 => OrderRecord F

def callAll {S : Type*} (call : S → OmsCall F → S × OmsResult F) :
    S → List (OmsCall F) → S × List (OmsResult F)
  | s, [] => (s, [])
  | s, c :: cs =>
    let (s', r) := call s c
    let (s'', rs) := callAll call s' cs
    (s'', r :: rs)

section
variable [Zero F] [Add F] [Sub F] [Mul F] [Div F] [LT F] [DecidableLT F]

def OMSCore.call (oms : OMSCore F) : OmsCall F → OMSCore F × OmsResult F
  | .registerNewOrder cid sym side price qty t =>
    let (oms', key, copy) := oms.registerNewOrder cid sym side price qty t
    (oms', .registered key copy)
  | .applyUpdate key s c p x e d =>
    match oms.applyUpdate key s c p x e d with
    | none => (oms, .updated none)
    | some (oms', copy) => (oms', .updated (some copy))
  | .get key => (oms, .found (oms.get key))
  | .getStaleOrders maxAge steady => (oms, .stale (oms.getStaleOrders maxAge steady))
  | .liveOrderCount => (oms, .count oms.liveOrderCount)
  | .release key => (oms.release key, .released)

/-- Register overwrites, apply_update rewrites one entry, release erases it. -/
def OrderMap.call (m : OrderMap F) : OmsCall F → OrderMap F × OmsResult F
  | .registerNewOrder cid sym side price qty t =>
    let r := OrderRecord.fresh cid sym side price qty t
    (AList.insert (fnv1a64 cid) r m, .registered (fnv1a64 cid) r)
  | .applyUpdate key s c p x e d =>
    match AList.lookup key m with
    | none => (m, .updated none)
    | some r =>
      let r' := r.update s c p x e d
      (AList.insert key r' m, .updated (some r'))
  | .get key => (m, .found (AList.lookup key m))
  | .getStaleOrders maxAge steady =>
    (m, .stale ((m.entries.map fun e => e.2).filter fun r =>
      r.status.isLive && decide (r.createdMonoNs < steady - maxAge)))
  | .liveOrderCount => (m, .count m.entries.length)
  | .release key => (AList.erase key m, .released)

end

/-- The abstraction relation: the two hold the same record under every key. -/
def Refines (oms : OMSCore F) (m : OrderMap F) : Prop :=
  ∀ k, oms.get k = AList.lookup k m

namespace Refines

variable {oms : OMSCore F} {m : OrderMap F}

theorem mem_index_iff (h : Refines oms m) (k : UInt64) : k ∈ oms.index ↔ k ∈ m := by
  rw [← AList.lookup_isSome, ← AList.lookup_isSome, ← OMSCore.get_isSome, h k]

theorem length_entries (h : Refines oms m) : oms.index.entries.length = m.entries.length := by
  have hk : oms.index.keys.Perm m.keys :=
    (List.perm_ext_iff_of_nodup oms.index.keys_nodup m.keys_nodup).mpr fun k => by
      rw [← AList.mem_keys, ← AList.mem_keys]
      exact h.mem_index_iff k
  have hl := hk.length_eq
  simpa [AList.keys, List.keys] using hl

theorem records_perm (h : Refines oms m) :
    (oms.index.entries.filterMap fun e => oms.slots[e.2]?).Perm
      (m.entries.map fun e => e.2) := by
  let tagged : List (Sigma fun _ : UInt64 => OrderRecord F) :=
    oms.index.entries.filterMap fun e => (oms.slots[e.2]?).map fun r => ⟨e.1, r⟩
  have hnodup : tagged.Nodup := by
    refine List.NodupKeys.nodup (List.nodupKeys_iff_pairwise.mpr ?_)
    refine (List.nodupKeys_iff_pairwise.mp oms.index.nodupKeys).filterMap _ ?_
    intro e e' hne b hb b' hb'
    obtain ⟨r, -, rfl⟩ := Option.map_eq_some_iff.mp hb
    obtain ⟨r', -, rfl⟩ := Option.map_eq_some_iff.mp hb'
    exact hne
  have hmem : ∀ e, e ∈ tagged ↔ e ∈ m.entries := by
    rintro ⟨k, r⟩
    have hm : (⟨k, r⟩ : Sigma fun _ : UInt64 => OrderRecord F) ∈ m.entries ↔
        oms.get k = some r := by
      rw [h k]
      exact (List.mem_dlookup_iff m.nodupKeys).symm
    rw [hm]
    constructor
    · intro he
      obtain ⟨⟨k', slot⟩, hin, hr⟩ := List.mem_filterMap.mp he
      obtain ⟨r', hr', heq⟩ := Option.map_eq_some_iff.mp hr
      cases heq
      have hl : oms.index.lookup k' = some slot :=
        (List.mem_dlookup_iff oms.index.nodupKeys).mpr hin
      rw [OMSCore.get, hl, Option.bind_some, hr']
    · intro hg
      obtain ⟨slot, hl, hr⟩ := Option.bind_eq_some_iff.mp hg
      refine List.mem_filterMap.mpr ⟨⟨k, slot⟩, ?_, ?_⟩
      · exact (List.mem_dlookup_iff oms.index.nodupKeys).mp hl
      · rw [hr, Option.map_some]
  have hperm : tagged.Perm m.entries :=
    (List.perm_ext_iff_of_nodup hnodup m.nodupKeys.nodup).mpr hmem
  have hmap := hperm.map fun e => e.2
  simpa [tagged, List.map_filterMap, Option.map_map, Function.comp_def] using hmap

variable [Zero F] [Add F] [Sub F] [Mul F] [Div F] [LT F] [DecidableLT F]

theorem call (h : Refines oms m) (c : OmsCall F) :
    Refines (oms.call c).1 (OrderMap.call m c).1 ∧
      OmsResult.Same (oms.call c).2 (OrderMap.call m c).2 := by
  cases c with
  | registerNewOrder cid sym side price qty t =>
    refine ⟨fun k => ?_, .refl _⟩
    have hg := OMSCore.get_registerNewOrder oms cid sym side price qty t k
    by_cases hk : k = fnv1a64 cid
    · subst hk
      simp [OMSCore.call, OrderMap.call]
    · rw [if_neg hk, h k] at hg
      simpa [OMSCore.call, OrderMap.call, AList.lookup_insert_ne hk] using hg
  | applyUpdate key s c p x e d =>
    cases hl : AList.lookup key m with
    | none =>
      have hu : oms.applyUpdate key s c p x e d = none :=
        OMSCore.applyUpdate_eq_none.mpr ((h key).trans hl)
      simp only [OMSCore.call, OrderMap.call, hu, hl]
      exact ⟨h, .refl _⟩
    | some r =>
      obtain ⟨oms', hu, hget⟩ := OMSCore.applyUpdate_of_get ((h key).trans hl) s c p d x e
      simp only [OMSCore.call, OrderMap.call, hu, hl]
      refine ⟨fun k => ?_, .refl _⟩
      rw [hget k]
      by_cases hk : k = key
      · subst hk
        rw [if_pos rfl, AList.lookup_insert]
      · rw [if_neg hk, AList.lookup_insert_ne hk, h k]
  | get key =>
    refine ⟨h, ?_⟩
    simp only [OMSCore.call, OrderMap.call, h key]
    exact .refl _
  | getStaleOrders maxAge steady =>
    exact ⟨h, .stale (h.records_perm.filter _)⟩
  | liveOrderCount =>
    refine ⟨h, ?_⟩
    simp only [OMSCore.call, OrderMap.call, OMSCore.liveOrderCount, h.length_entries]
    exact .refl _
  | release key =>
    refine ⟨fun k => ?_, .refl _⟩
    have hg := OMSCore.get_release oms key k
    by_cases hk : k = key
    · subst hk
      simp [OMSCore.call, OrderMap.call]
    · rw [if_neg hk, h k] at hg
      simpa [OMSCore.call, OrderMap.call, AList.lookup_erase_ne hk] using hg

theorem callAll (h : Refines oms m) (cs : List (OmsCall F)) :
    Refines (callAll OMSCore.call oms cs).1 (HoloMarket.callAll OrderMap.call m cs).1 ∧
      List.Forall₂ OmsResult.Same (HoloMarket.callAll OMSCore.call oms cs).2
        (HoloMarket.callAll OrderMap.call m cs).2 := by
  induction cs generalizing oms m with
  | nil => exact ⟨h, .nil⟩
  | cons c cs ih =>
    obtain ⟨hrel, hres⟩ := h.call c
    obtain ⟨hrel', hres'⟩ := ih hrel
    exact ⟨hrel', .cons hres hres'⟩

end Refines

section
variable [Zero F] [Add F] [Sub F] [Mul F] [Div F] [LT F] [DecidableLT F]

/-- No sequence of calls tells the slot pool from the plain map, and in every
state that one reaches the referenced slots are distinct, inside the slot
vector and outside the duplicate-free free list. -/
theorem omsCore_refines_map (cs : List (OmsCall F)) :
    List.Forall₂ OmsResult.Same (callAll OMSCore.call OMSCore.init cs).2
        (callAll OrderMap.call (∅ : OrderMap F) cs).2 ∧
      let oms := (callAll OMSCore.call (OMSCore.init : OMSCore F) cs).1
      (∀ k k' s, oms.index.lookup k = some s → oms.index.lookup k' = some s → k = k') ∧
      (∀ k s, oms.index.lookup k = some s → s < oms.slots.length ∧ s ∉ oms.freeList) ∧
      oms.freeList.Nodup := by
  have hinit : Refines (OMSCore.init : OMSCore F) (∅ : OrderMap F) := fun k => by simp
  refine ⟨(hinit.callAll cs).2, ?_⟩
  intro oms
  exact ⟨oms.wf.inj, fun k s h => ⟨oms.wf.lt k s h, oms.wf.disjoint k s h⟩, oms.wf.free_nodup⟩

end
end HoloMarket
