import Mathlib.Data.List.Nodup
import Mathlib.Data.List.Perm.Subperm

/-!
# A heap of records

Records that are allocated one after the other, read and written through
pointers, and freed. An address is not used again.

- `Heap.load`, `Heap.store` and `Heap.free` fail on `NULL`, on an address that was
  never allocated and on a record that was freed.
- A heap knows which addresses were freed. That none was freed twice, and that
  those are the records no longer there, are part of it.
- `Heap.get` is the record at an address, in terms of which the operations are
  read off.
- `Heap.Chain`: what a loop visits that follows a pointer in the records. Freeing
  chains that share no record frees all of theirs (`Heap.freeChains_eq`).
-/

namespace Memory

/-- A pointer; `none` is `NULL`. -/
abbrev Ptr := Option Nat

/-- An access without defined behaviour. -/
inductive MemFault where
  | null
  | unallocated
  | freed
deriving DecidableEq, Repr

/-- The records ever allocated, `none` once they are freed, and the addresses that
were freed. -/
structure Heap (β : Type) where
  records : List (Option β)
  frees : List Nat
  nodup : frees.Nodup
  mem_frees : ∀ p, p ∈ frees ↔ records[p]? = some none

namespace Heap

variable {β : Type}

/-- Nothing is allocated yet. -/
def empty : Heap β where
  records := []
  frees := []
  nodup := List.nodup_nil
  mem_frees p := by simp

/-- The record at an address. -/
def get (h : Heap β) (p : Nat) : Option β :=
  h.records[p]?.join

theorem get_eq_some {h : Heap β} {p : Nat} {v : β} :
    h.get p = some v ↔ h.records[p]? = some (some v) := by
  rw [get, Option.join_eq_some_iff]

theorem lt_length_of_get {h : Heap β} {p : Nat} {v : β} (hp : h.get p = some v) :
    p < h.records.length := by
  obtain ⟨hlt, -⟩ := List.getElem?_eq_some_iff.mp (get_eq_some.mp hp)
  exact hlt

/-- **An address that was allocated** is that of a record or was freed. -/
theorem lt_length_iff {h : Heap β} {p : Nat} :
    p < h.records.length ↔ (∃ v, h.get p = some v) ∨ p ∈ h.frees := by
  constructor
  · intro hlt
    have hget := List.getElem?_eq_getElem hlt
    cases hr : h.records[p] with
    | none => exact .inr ((h.mem_frees p).mpr (hr ▸ hget))
    | some v => exact .inl ⟨v, get_eq_some.mpr (hr ▸ hget)⟩
  · rintro (⟨v, hv⟩ | hfree)
    · exact lt_length_of_get hv
    · obtain ⟨hlt, -⟩ := List.getElem?_eq_some_iff.mp ((h.mem_frees p).mp hfree)
      exact hlt

/-- A record was not freed. -/
theorem not_mem_frees {h : Heap β} {p : Nat} {v : β} (hp : h.get p = some v) : p ∉ h.frees := by
  intro hfree
  have hnone := (h.mem_frees p).mp hfree
  rw [get_eq_some.mp hp] at hnone
  cases hnone

/-! ## Operations -/

/-- `calloc`, or `malloc` with the record stored. -/
def alloc (h : Heap β) (v : β) : Heap β where
  records := h.records ++ [some v]
  frees := h.frees
  nodup := h.nodup
  mem_frees p := by
    rw [h.mem_frees, List.getElem?_append]
    by_cases hlt : p < h.records.length
    · rw [if_pos hlt]
    · rw [if_neg hlt, List.getElem?_eq_none (Nat.le_of_not_lt hlt)]
      cases hi : p - h.records.length <;> simp

/-- The address of the next record. -/
def next (h : Heap β) : Nat :=
  h.records.length

/-- Replace the record at an address, if there is one. -/
def put (h : Heap β) (p : Nat) (v : β) : Heap β where
  records := h.records.modify p (Option.map fun _ => v)
  frees := h.frees
  nodup := h.nodup
  mem_frees q := by
    rw [h.mem_frees]
    by_cases hpq : p = q
    · subst hpq
      rw [List.getElem?_modify_eq]
      cases h.records[p]? with
      | none => simp
      | some r => cases r <;> simp
    · rw [List.getElem?_modify_ne _ _ hpq]

/-- Remove the record at an address, if there is one. -/
def remove (h : Heap β) (p : Nat) : Heap β :=
  if hp : h.records[p]?.join = none then h
  else
    { records := h.records.set p none
      frees := h.frees ++ [p]
      nodup := by
        refine List.nodup_append.mpr ⟨h.nodup, List.nodup_singleton p, fun q hq r hr heq => hp ?_⟩
        obtain rfl := List.mem_singleton.mp hr
        subst heq
        rw [(h.mem_frees q).mp hq]
        rfl
      mem_frees := fun q => by
        have hlt : p < h.records.length := by
          by_contra hge
          exact hp (by rw [List.getElem?_eq_none (Nat.le_of_not_lt hge)]; rfl)
        rw [List.mem_append, h.mem_frees, List.mem_singleton, List.getElem?_set]
        by_cases hpq : p = q
        · subst hpq
          simp [hlt]
        · simp [hpq, Ne.symm hpq] }

/-- Read through a pointer. -/
def load (h : Heap β) : Ptr → Except MemFault β
  | none => .error .null
  | some p =>
    match h.records[p]? with
    | some (some v) => .ok v
    | some none => .error .freed
    | none => .error .unallocated

/-- Write through a pointer. -/
def store (h : Heap β) (p : Ptr) (v : β) : Except MemFault (Heap β) :=
  match p with
  | none => .error .null
  | some p =>
    match h.records[p]? with
    | some (some _) => .ok (h.put p v)
    | some none => .error .freed
    | none => .error .unallocated

/-- `free`; freeing `NULL` does nothing. -/
def free (h : Heap β) : Ptr → Except MemFault (Heap β)
  | none => .ok h
  | some p =>
    match h.records[p]? with
    | some (some _) => .ok (h.remove p)
    | some none => .error .freed
    | none => .error .unallocated

/-! ## Records after the operations -/

variable {h : Heap β} {p : Nat} {v w : β}

theorem load_eq (hp : h.get p = some v) : h.load (some p) = .ok v := by
  simp only [load, get_eq_some.mp hp]

theorem store_eq (hp : h.get p = some v) (w : β) : h.store (some p) w = .ok (h.put p w) := by
  simp only [store, get_eq_some.mp hp]

theorem free_eq (hp : h.get p = some v) : h.free (some p) = .ok (h.remove p) := by
  simp only [free, get_eq_some.mp hp]

theorem get_put (h : Heap β) (p q : Nat) (w : β) :
    (h.put p w).get q = if q = p then (h.get q).map fun _ => w else h.get q := by
  rw [get, get, put]
  by_cases hpq : q = p
  · subst hpq
    rw [if_pos rfl, List.getElem?_modify_eq]
    cases h.records[q]? with
    | none => rfl
    | some r => cases r <;> rfl
  · rw [if_neg hpq, List.getElem?_modify_ne _ _ (Ne.symm hpq)]

theorem get_put_self (hp : h.get p = some v) (w : β) : (h.put p w).get p = some w := by
  rw [get_put, if_pos rfl, hp]
  rfl

theorem get_put_of_ne {q : Nat} (hq : q ≠ p) (w : β) : (h.put p w).get q = h.get q := by
  rw [get_put, if_neg hq]

/-- Changing a record. -/
theorem get_put_map (hp : h.get p = some v) (f : β → β) (q : Nat) :
    (h.put p (f v)).get q = if some p = some q then (h.get q).map f else h.get q := by
  by_cases hpq : p = q
  · subst hpq
    rw [if_pos rfl, get_put_self hp, hp]
    rfl
  · rw [if_neg (mt Option.some.inj hpq), get_put_of_ne (Ne.symm hpq)]

theorem get_alloc (h : Heap β) (q : Nat) (w : β) :
    (h.alloc w).get q = if q = h.next then some w else h.get q := by
  rw [get, get, alloc, next, List.getElem?_append]
  rcases Nat.lt_trichotomy q h.records.length with hlt | rfl | hlt
  · rw [if_pos hlt, if_neg (by omega)]
  · simp
  · rw [if_neg (by omega), if_neg (by omega), List.getElem?_eq_none (by simp; omega),
      List.getElem?_eq_none (by omega)]

theorem get_next (h : Heap β) : h.get h.next = none := by
  rw [get, next, List.getElem?_eq_none (Nat.le_refl _)]
  rfl

theorem get_remove (hp : h.get p = some v) (q : Nat) :
    (h.remove p).get q = if q = p then none else h.get q := by
  have hne : ¬h.records[p]?.join = none := by
    rw [← get, hp]
    exact Option.some_ne_none v
  rw [remove, dif_neg hne, get, get]
  show ((h.records.set p none)[q]?).join = _
  rw [List.getElem?_set]
  by_cases hpq : p = q
  · subst hpq
    rw [if_pos rfl, if_pos rfl]
    split <;> rfl
  · rw [if_neg hpq, if_neg (Ne.symm hpq)]

@[simp] theorem next_remove (h : Heap β) (p : Nat) : (h.remove p).next = h.next := by
  rw [remove]
  split
  · rfl
  · exact List.length_set

/-! ## Freeing a chain of records -/

/-- Remove the records at some addresses. -/
def removeAll (h : Heap β) (ps : List Nat) : Heap β :=
  ps.foldl remove h

@[simp] theorem removeAll_cons (h : Heap β) (ps : List Nat) :
    h.removeAll (p :: ps) = (h.remove p).removeAll ps := rfl

theorem removeAll_append (h : Heap β) (ps qs : List Nat) :
    h.removeAll (ps ++ qs) = (h.removeAll ps).removeAll qs :=
  List.foldl_append

@[simp] theorem next_removeAll (h : Heap β) (ps : List Nat) :
    (h.removeAll ps).next = h.next := by
  induction ps generalizing h with
  | nil => rfl
  | cons p ps ih => rw [removeAll_cons, ih, next_remove]

theorem get_removeAll {ps : List Nat} (hps : ∀ p ∈ ps, ∃ v, h.get p = some v) (hnd : ps.Nodup)
    (q : Nat) : (h.removeAll ps).get q = if q ∈ ps then none else h.get q := by
  induction ps generalizing h with
  | nil => rw [if_neg List.not_mem_nil]; rfl
  | cons p ps ih =>
    obtain ⟨hp, hnd⟩ := List.nodup_cons.mp hnd
    obtain ⟨v, hv⟩ := hps p List.mem_cons_self
    have hrest : ∀ r ∈ ps, ∃ w, (h.remove p).get r = some w := by
      intro r hr
      obtain ⟨w, hw⟩ := hps r (List.mem_cons_of_mem _ hr)
      exact ⟨w, by rw [get_remove hv, if_neg (ne_of_mem_of_not_mem hr hp), hw]⟩
    rw [removeAll_cons, ih hrest hnd, get_remove hv]
    by_cases hq : q ∈ ps
    · rw [if_pos hq, if_pos (List.mem_cons_of_mem _ hq)]
    · rw [if_neg hq]
      by_cases hqp : q = p
      · rw [if_pos hqp, if_pos (hqp ▸ List.mem_cons_self)]
      · rw [if_neg hqp, if_neg fun hmem => (List.mem_cons.mp hmem).elim hqp hq]

/-- A heap without a record: every address that was allocated was freed, and once. -/
theorem count_frees_eq_one (hnone : ∀ q, h.get q = none) (hp : p < h.next) :
    h.frees.count p = 1 := by
  rcases lt_length_iff.mp hp with ⟨v, hv⟩ | hfree
  · rw [hnone p] at hv
    cases hv
  · exact List.count_eq_one_of_mem h.nodup hfree

/-- What a loop visits that follows `next` until `NULL`. -/
inductive Chain (h : Heap β) (next : β → Ptr) : Ptr → List Nat → Prop where
  | nil : Chain h next none []
  | cons {p : Nat} {v : β} {ps : List Nat} (hp : h.get p = some v)
      (hc : Chain h next (next v) ps) : Chain h next (some p) (p :: ps)

theorem Chain.congr {h' : Heap β} {next : β → Ptr} {a : Ptr} {ps : List Nat}
    (hc : Chain h next a ps) (hget : ∀ p ∈ ps, h'.get p = h.get p) : Chain h' next a ps := by
  induction hc with
  | nil => exact .nil
  | cons hp _ ih =>
    exact .cons ((hget _ List.mem_cons_self).trans hp) (ih fun p hp =>
      hget p (List.mem_cons_of_mem _ hp))

theorem Chain.get {next : β → Ptr} {a : Ptr} {ps : List Nat} (hc : Chain h next a ps)
    (hp : p ∈ ps) : ∃ v, h.get p = some v := by
  induction hc with
  | nil => exact absurd hp List.not_mem_nil
  | cons hget _ ih =>
    rcases List.mem_cons.mp hp with rfl | hp
    · exact ⟨_, hget⟩
    · exact ih hp

/-- Removing the records of other addresses does not change a chain. -/
theorem Chain.removeAll {next : β → Ptr} {a : Ptr} {ps qs : List Nat}
    (hc : Chain h next a ps) (hqs : ∀ q ∈ qs, ∃ v, h.get q = some v) (hnd : qs.Nodup)
    (hdis : ∀ p ∈ ps, p ∉ qs) : Chain (h.removeAll qs) next a ps :=
  hc.congr fun p hp => by rw [get_removeAll hqs hnd, if_neg (hdis p hp)]

/-- A chain that visits no address twice is no longer than the heap. -/
theorem Chain.length_le {next : β → Ptr} {a : Ptr} {ps : List Nat} (hc : Chain h next a ps)
    (hnd : ps.Nodup) : ps.length ≤ h.next := by
  have hsub : ps ⊆ List.range h.next := by
    intro p hp
    obtain ⟨v, hv⟩ := hc.get hp
    exact List.mem_range.mpr (lt_length_of_get hv)
  have hle := (List.subperm_of_subset hnd hsub).length_le
  rwa [List.length_range] at hle

section Free

variable {ε : Type} (next : β → Ptr) (fault : Option MemFault → ε)

/-- The loop that frees a record after having read where the next one is; `none` is
the fault of a loop that takes too many steps. -/
def freeChain : Nat → Heap β → Ptr → Except ε (Heap β)
  | _, h, none => pure h
  | 0, _, some _ => throw (fault none)
  | fuel + 1, h, some curr => do
    let v ← (h.load (some curr)).mapError fun m => fault (some m)
    let h ← (h.free (some curr)).mapError fun m => fault (some m)
    freeChain fuel h (next v)

/-- Some chains one after the other. -/
def freeChains : List Ptr → Heap β → Except ε (Heap β)
  | [], h => pure h
  | a :: heads, h => do
    let h ← freeChain next fault h.next h a
    freeChains heads h

variable {next fault}

theorem freeChain_eq {a : Ptr} {ps : List Nat} {fuel : Nat} (hc : Chain h next a ps)
    (hnd : ps.Nodup) (hfuel : ps.length ≤ fuel) :
    freeChain next fault fuel h a = .ok (h.removeAll ps) := by
  induction ps generalizing h a fuel with
  | nil =>
    cases hc
    cases fuel <;> rfl
  | cons p ps ih =>
    cases hc with
    | @cons _ v _ hp hc =>
      obtain ⟨hnot, hnd⟩ := List.nodup_cons.mp hnd
      cases fuel with
      | zero => exact absurd hfuel (Nat.not_succ_le_zero _)
      | succ fuel =>
        have hc' : Chain (h.remove p) next (next v) ps := hc.congr fun q hq => by
          rw [get_remove hp, if_neg (ne_of_mem_of_not_mem hq hnot)]
        rw [freeChain, load_eq hp, free_eq hp]
        exact ih hc' hnd (Nat.le_of_succ_le_succ hfuel)

/-- **Freeing chains that share no record** removes the records of all of them. -/
theorem freeChains_eq {κ : Type} {heads : κ → Ptr} {nodes : κ → List Nat} (ks : List κ)
    (hc : ∀ k ∈ ks, Chain h next (heads k) (nodes k)) (hnd : (ks.flatMap nodes).Nodup) :
    freeChains next fault (ks.map heads) h = .ok (h.removeAll (ks.flatMap nodes)) := by
  induction ks generalizing h with
  | nil => rfl
  | cons k ks ih =>
    rw [List.flatMap_cons] at hnd
    obtain ⟨hk, hrest, hdis⟩ := List.nodup_append.mp hnd
    have hchain := hc k List.mem_cons_self
    have hfree : freeChain next fault h.next h (heads k) = .ok (h.removeAll (nodes k)) :=
      freeChain_eq hchain hk (hchain.length_le hk)
    rw [List.map_cons, freeChains, hfree, List.flatMap_cons, removeAll_append]
    refine ih (fun k' hk' => ?_) hrest
    refine (hc k' (List.mem_cons_of_mem _ hk')).removeAll (fun q hq => hchain.get hq) hk ?_
    intro p hp hmem
    exact hdis p hmem p (List.mem_flatMap.mpr ⟨k', hk', hp⟩) rfl

end Free

end Heap

end Memory
