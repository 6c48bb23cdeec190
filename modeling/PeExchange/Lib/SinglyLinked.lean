import PeExchange.Lib.DoublyLinked

/-!
# Singly linked lists in a heap

Nodes with a value and a pointer to the next one, in lists that are known by their
first node. Addresses with their values are as for doubly linked lists.

- `Seg`: a stretch of nodes up to a pointer. It splits where a list is appended
  (`seg_append`).
- `Owned`: lists that share no node and hold all records of the heap. It is kept
  by changing a value (`setVal`), by inserting in front and behind a node
  (`insertFront`, `insertAfter`) and by removing the first node or the one behind
  another (`removeFront`, `removeAfter`); all five are changes of one list
  (`replace`).
-/

namespace SinglyLinked

open Memory
open DoublyLinked (ptrs vals first ptrs_nil ptrs_cons ptrs_append vals_append first_nil first_cons
  first_append)

/-- A node. -/
structure Node (α : Type) where
  val : α
  next : Ptr
deriving DecidableEq, Repr

variable {α κ : Type} {h h' : Heap (Node α)} {p q : Nat} {v w : α} {a : Ptr}
  {cs xs ys : List (Nat × α)}

/-! ## Writing to a node -/

def setNext (h : Heap (Node α)) (p b : Ptr) : Except MemFault (Heap (Node α)) := do
  h.store p { ← h.load p with next := b }

def setVal (h : Heap (Node α)) (p : Ptr) (v : α) : Except MemFault (Heap (Node α)) := do
  h.store p { ← h.load p with val := v }

theorem setNext_eq {n : Node α} (hp : h.get p = some n) (b : Ptr) :
    setNext h (some p) b = .ok (h.put p { n with next := b }) := by
  rw [setNext, Heap.load_eq hp]
  exact Heap.store_eq hp _

theorem setVal_eq {n : Node α} (hp : h.get p = some n) (v : α) :
    setVal h (some p) v = .ok (h.put p { n with val := v }) := by
  rw [setVal, Heap.load_eq hp]
  exact Heap.store_eq hp _

/-! ## Stretches of nodes -/

/-- The nodes `cs`, each pointing to the next; the last one points to `a`. -/
def Seg (h : Heap (Node α)) : List (Nat × α) → Ptr → Prop
  | [], _ => True
  | (p, v) :: cs, a => h.get p = some ⟨v, (first cs).or a⟩ ∧ Seg h cs a

theorem seg_append : Seg h (xs ++ ys) a ↔ Seg h xs ((first ys).or a) ∧ Seg h ys a := by
  induction xs with
  | nil => exact ⟨fun hs => ⟨trivial, hs⟩, fun hs => hs.2⟩
  | cons c xs ih =>
    obtain ⟨p, v⟩ := c
    rw [List.cons_append, Seg, Seg, ih, first_append, Option.or_assoc, and_assoc]

/-- Only the nodes themselves matter. -/
theorem Seg.congr (hs : Seg h cs a) (hget : ∀ q ∈ ptrs cs, h'.get q = h.get q) :
    Seg h' cs a := by
  induction cs with
  | nil => exact trivial
  | cons c cs ih =>
    obtain ⟨p, v⟩ := c
    refine ⟨(hget p List.mem_cons_self).trans hs.1, ih hs.2 fun q hq => ?_⟩
    exact hget q (List.mem_cons_of_mem _ hq)

/-- A node and what it points to. -/
theorem Seg.get (hs : Seg h (xs ++ (p, v) :: ys) a) : h.get p = some ⟨v, (first ys).or a⟩ :=
  (seg_append.mp hs).2.1

theorem Seg.get_of_mem (hs : Seg h cs a) (hp : p ∈ ptrs cs) : ∃ n, h.get p = some n := by
  obtain ⟨c, hc, rfl⟩ := List.mem_map.mp hp
  obtain ⟨xs, ys, rfl⟩ := List.append_of_mem hc
  exact ⟨_, hs.get⟩

/-- A node of a list stands in it once. -/
theorem not_mem_of_nodup (hnd : (ptrs (xs ++ (p, v) :: ys)).Nodup) : p ∉ ptrs (xs ++ ys) := by
  rw [ptrs_append, ptrs_cons, List.nodup_middle] at hnd
  rw [ptrs_append]
  exact (List.nodup_cons.mp hnd).1

/-- The loop along a list visits its nodes. -/
theorem Seg.chain (hs : Seg h cs none) : h.Chain Node.next (first cs) (ptrs cs) := by
  induction cs with
  | nil => exact .nil
  | cons c cs ih =>
    obtain ⟨p, v⟩ := c
    refine .cons hs.1 ?_
    rw [Option.or_none]
    exact ih hs.2

/-! ## Lists that own their nodes -/

/-- The lists with these heads have the nodes `cells`, share none, and hold every
record of the heap. -/
structure Owned (h : Heap (Node α)) (heads : κ → Ptr) (cells : κ → List (Nat × α)) : Prop where
  head : ∀ k, heads k = first (cells k)
  seg : ∀ k, Seg h (cells k) none
  nodup : ∀ k, (ptrs (cells k)).Nodup
  disjoint : ∀ k k' p, p ∈ ptrs (cells k) → p ∈ ptrs (cells k') → k = k'
  all : ∀ p n, h.get p = some n → ∃ k, p ∈ ptrs (cells k)

namespace Owned

variable {heads : κ → Ptr} {cells : κ → List (Nat × α)} {k : κ}

theorem empty : Owned (Heap.empty : Heap (Node α)) (fun _ : κ => none) fun _ => [] where
  head _ := rfl
  seg _ := trivial
  nodup _ := List.nodup_nil
  disjoint _ _ _ hp := absurd hp List.not_mem_nil
  all p n hp := by
    rw [Heap.get, Heap.empty] at hp
    simp at hp

theorem next_not_mem (ho : Owned h heads cells) (k : κ) : h.next ∉ ptrs (cells k) := by
  intro hmem
  obtain ⟨n, hn⟩ := (ho.seg k).get_of_mem hmem
  rw [Heap.get_next] at hn
  cases hn

/-- A list is no longer than the heap. -/
theorem length_le (ho : Owned h heads cells) (k : κ) : (cells k).length ≤ h.next := by
  have hsub : ptrs (cells k) ⊆ List.range h.next := by
    intro p hp
    obtain ⟨n, hn⟩ := (ho.seg k).get_of_mem hp
    exact List.mem_range.mpr (Heap.lt_length_of_get hn)
  have hle := (List.subperm_of_subset (ho.nodup k) hsub).length_le
  rw [List.length_range] at hle
  exact (List.length_map Prod.fst) ▸ hle

/-- **A change of one list** that leaves the nodes of the others alone. -/
theorem replace [DecidableEq κ] (ho : Owned h heads cells) (k : κ)
    (hseg : Seg h' cs none) (hnd : (ptrs cs).Nodup)
    (hfrom : ∀ p ∈ ptrs cs, p ∈ ptrs (cells k) ∨ h.get p = none)
    (hframe : ∀ p, p ∉ ptrs cs → p ∉ ptrs (cells k) → h'.get p = h.get p)
    (hgone : ∀ p ∈ ptrs (cells k), p ∉ ptrs cs → h'.get p = none) :
    Owned h' (Function.update heads k (first cs)) (Function.update cells k cs) := by
  -- the nodes of another list are neither in the old list nor in the new one
  have hother : ∀ k', k' ≠ k → ∀ p ∈ ptrs (cells k'), p ∉ ptrs cs ∧ p ∉ ptrs (cells k) := by
    intro k' hk p hp
    have hold : p ∉ ptrs (cells k) := fun hp' => hk (ho.disjoint k' k p hp hp')
    refine ⟨fun hp' => ?_, hold⟩
    rcases hfrom p hp' with hin | hnone
    · exact hold hin
    · obtain ⟨n, hn⟩ := (ho.seg k').get_of_mem hp
      rw [hnone] at hn
      cases hn
  refine ⟨fun k' => ?_, fun k' => ?_, fun k' => ?_, fun k₁ k₂ p h₁ h₂ => ?_, fun p n hp => ?_⟩
  · by_cases hk : k' = k
    · subst hk
      rw [Function.update_self, Function.update_self]
    · rw [Function.update_of_ne hk, Function.update_of_ne hk]
      exact ho.head k'
  · by_cases hk : k' = k
    · subst hk
      rw [Function.update_self]
      exact hseg
    · rw [Function.update_of_ne hk]
      refine (ho.seg k').congr fun p hp => ?_
      obtain ⟨hcs, hold⟩ := hother k' hk p hp
      exact hframe p hcs hold
  · by_cases hk : k' = k
    · subst hk
      rw [Function.update_self]
      exact hnd
    · rw [Function.update_of_ne hk]
      exact ho.nodup k'
  · by_cases hk₁ : k₁ = k <;> by_cases hk₂ : k₂ = k
    · rw [hk₁, hk₂]
    · subst hk₁
      rw [Function.update_self] at h₁
      rw [Function.update_of_ne hk₂] at h₂
      exact absurd h₁ (hother k₂ hk₂ p h₂).1
    · subst hk₂
      rw [Function.update_self] at h₂
      rw [Function.update_of_ne hk₁] at h₁
      exact absurd h₂ (hother k₁ hk₁ p h₁).1
    · rw [Function.update_of_ne hk₁] at h₁
      rw [Function.update_of_ne hk₂] at h₂
      exact ho.disjoint k₁ k₂ p h₁ h₂
  · by_cases hcs : p ∈ ptrs cs
    · exact ⟨k, by rwa [Function.update_self]⟩
    · by_cases hold : p ∈ ptrs (cells k)
      · rw [hgone p hold hcs] at hp
        cases hp
      · rw [hframe p hcs hold] at hp
        obtain ⟨k', hk'⟩ := ho.all p n hp
        refine ⟨k', ?_⟩
        rw [Function.update_of_ne]
        · exact hk'
        · rintro rfl
          exact hold hk'

/-- The node of a list at an address. -/
theorem get (ho : Owned h heads cells) (hk : cells k = xs ++ (p, v) :: ys) :
    h.get p = some ⟨v, first ys⟩ := by
  have hseg := ho.seg k
  rw [hk] at hseg
  rw [hseg.get, Option.or_none]

variable [DecidableEq κ]

/-- Another value in a node. -/
theorem setVal (ho : Owned h heads cells) (hk : cells k = xs ++ (p, v) :: ys) (w : α) :
    Owned (h.put p ⟨w, first ys⟩) heads (Function.update cells k (xs ++ (p, w) :: ys)) := by
  have hget := ho.get hk
  have hseg := ho.seg k
  have hnd := ho.nodup k
  have hheads : Function.update heads k (first (xs ++ (p, w) :: ys)) = heads := by
    rw [Function.update_eq_self_iff, ho.head, hk, first_append, first_append]
    rfl
  rw [hk] at hseg hnd
  obtain ⟨hsx, -, hsy⟩ := seg_append.mp hseg
  have hnot := not_mem_of_nodup hnd
  rw [ptrs_append, List.mem_append, not_or] at hnot
  have hframe : ∀ q, q ≠ p → (h.put p ⟨w, first ys⟩).get q = h.get q := fun q hq =>
    Heap.get_put_of_ne hq _
  have hptrs : ptrs (xs ++ (p, w) :: ys) = ptrs (cells k) := by
    rw [hk, ptrs_append, ptrs_append]
    rfl
  rw [← hheads]
  refine ho.replace k (seg_append.mpr ⟨?_, ?_, ?_⟩) (hptrs ▸ ho.nodup k) (fun q hq => .inl ?_)
    (fun q hq _ => hframe q ?_) fun q hq hq' => absurd (hptrs ▸ hq) hq'
  · exact hsx.congr fun q hq => hframe q (ne_of_mem_of_not_mem hq hnot.1)
  · rw [Heap.get_put_self hget, Option.or_none]
  · exact hsy.congr fun q hq => hframe q (ne_of_mem_of_not_mem hq hnot.2)
  · exact hptrs ▸ hq
  · rintro rfl
    exact hq (by simp)

/-- A new node in front of a list. -/
theorem insertFront (ho : Owned h heads cells) (k : κ) (v : α) :
    Owned ((h.alloc ⟨v, none⟩).put h.next ⟨v, heads k⟩) (Function.update heads k (some h.next))
      (Function.update cells k ((h.next, v) :: cells k)) := by
  have hnew : (h.alloc ⟨v, none⟩).get h.next = some ⟨v, none⟩ := by
    rw [Heap.get_alloc, if_pos rfl]
  have hframe : ∀ q, q ≠ h.next →
      ((h.alloc ⟨v, none⟩).put h.next ⟨v, heads k⟩).get q = h.get q := by
    intro q hq
    rw [Heap.get_put_of_ne hq, Heap.get_alloc, if_neg hq]
  have hseg : Seg ((h.alloc ⟨v, none⟩).put h.next ⟨v, heads k⟩)
      ((h.next, v) :: cells k) none := by
    constructor
    · rw [Heap.get_put_self hnew, ho.head, Option.or_none]
    · refine (ho.seg k).congr fun q hq => ?_
      exact hframe q (ne_of_mem_of_not_mem hq (ho.next_not_mem k))
  refine ho.replace k hseg ?_ (fun q hq => ?_) (fun q hq _ => hframe q ?_) fun q hq hq' => ?_
  · exact List.nodup_cons.mpr ⟨ho.next_not_mem k, ho.nodup k⟩
  · rcases List.mem_cons.mp hq with rfl | hq
    · exact .inr (Heap.get_next h)
    · exact .inl hq
  · rintro rfl
    exact hq List.mem_cons_self
  · exact absurd (List.mem_cons_of_mem _ hq) hq'

/-- A new node behind another. -/
theorem insertAfter (ho : Owned h heads cells) (hk : cells k = xs ++ (p, v) :: ys) (w : α) :
    Owned (((h.alloc ⟨w, none⟩).put h.next ⟨w, first ys⟩).put p ⟨v, some h.next⟩) heads
      (Function.update cells k (xs ++ (p, v) :: (h.next, w) :: ys)) := by
  have hget := ho.get hk
  have hseg := ho.seg k
  have hnd := ho.nodup k
  have hfresh := ho.next_not_mem k
  have hheads : Function.update heads k (first (xs ++ (p, v) :: (h.next, w) :: ys)) = heads := by
    rw [Function.update_eq_self_iff, ho.head, hk, first_append, first_append]
    rfl
  rw [hk] at hseg hnd hfresh
  obtain ⟨hsx, -, hsy⟩ := seg_append.mp hseg
  have hnot := not_mem_of_nodup hnd
  rw [ptrs_append, List.mem_append, not_or] at hnot
  rw [ptrs_append, ptrs_cons, List.mem_append, List.mem_cons, not_or, not_or] at hfresh
  obtain ⟨hfx, hfp, hfy⟩ := hfresh
  have hnew : (h.alloc ⟨w, none⟩).get h.next = some ⟨w, none⟩ := by
    rw [Heap.get_alloc, if_pos rfl]
  have hframe : ∀ q, q ≠ h.next → q ≠ p →
      (((h.alloc ⟨w, none⟩).put h.next ⟨w, first ys⟩).put p ⟨v, some h.next⟩).get q =
        h.get q := by
    intro q hq hqp
    rw [Heap.get_put_of_ne hqp, Heap.get_put_of_ne hq, Heap.get_alloc, if_neg hq]
  have hpget : ((h.alloc ⟨w, none⟩).put h.next ⟨w, first ys⟩).get p = some ⟨v, first ys⟩ := by
    rw [Heap.get_put_of_ne (Ne.symm hfp), Heap.get_alloc, if_neg (Ne.symm hfp), hget]
  rw [← hheads]
  refine ho.replace k (seg_append.mpr ⟨?_, ?_, ?_, ?_⟩) ?_ (fun q hq => ?_)
    (fun q hq _ => hframe q ?_ ?_) fun q hq hq' => ?_
  · exact hsx.congr fun q hq => hframe q (ne_of_mem_of_not_mem hq hfx)
      (ne_of_mem_of_not_mem hq hnot.1)
  · rw [Heap.get_put_self hpget]
    rfl
  · rw [Heap.get_put_of_ne hfp, Heap.get_put_self hnew, Option.or_none]
  · exact hsy.congr fun q hq => hframe q (ne_of_mem_of_not_mem hq hfy)
      (ne_of_mem_of_not_mem hq hnot.2)
  · rw [ptrs_append, ptrs_cons] at hnd
    obtain ⟨hx, hy, hxy⟩ := List.nodup_append.mp hnd
    obtain ⟨hpy, hy⟩ := List.nodup_cons.mp hy
    rw [ptrs_append, ptrs_cons, ptrs_cons]
    refine List.nodup_append.mpr ⟨hx, ?_, fun q hq r hr => ?_⟩
    · refine List.nodup_cons.mpr ⟨fun hmem => ?_, List.nodup_cons.mpr ⟨hfy, hy⟩⟩
      rcases List.mem_cons.mp hmem with heq | hmem
      · exact hfp heq.symm
      · exact hpy hmem
    · rcases List.mem_cons.mp hr with rfl | hr
      · exact hxy q hq _ List.mem_cons_self
      · rcases List.mem_cons.mp hr with rfl | hr
        · exact ne_of_mem_of_not_mem hq hfx
        · exact hxy q hq r (List.mem_cons_of_mem _ hr)
  · rw [hk, ptrs_append, ptrs_cons]
    rw [ptrs_append, ptrs_cons, ptrs_cons] at hq
    rcases List.mem_append.mp hq with hq | hq
    · exact .inl (List.mem_append_left _ hq)
    · rcases List.mem_cons.mp hq with rfl | hq
      · exact .inl (List.mem_append_right _ List.mem_cons_self)
      · rcases List.mem_cons.mp hq with rfl | hq
        · exact .inr (Heap.get_next h)
        · exact .inl (List.mem_append_right _ (List.mem_cons_of_mem _ hq))
  · rintro rfl
    exact hq (by simp)
  · rintro rfl
    exact hq (by simp)
  · refine absurd ?_ hq'
    rw [hk, ptrs_append, ptrs_cons] at hq
    rw [ptrs_append, ptrs_cons, ptrs_cons]
    rcases List.mem_append.mp hq with hq | hq
    · exact List.mem_append_left _ hq
    · rcases List.mem_cons.mp hq with rfl | hq
      · exact List.mem_append_right _ List.mem_cons_self
      · exact List.mem_append_right _ (List.mem_cons_of_mem _ (List.mem_cons_of_mem _ hq))

/-- The first node of a list goes. -/
theorem removeFront (ho : Owned h heads cells) (hk : cells k = (p, v) :: ys) :
    Owned (h.remove p) (Function.update heads k (first ys)) (Function.update cells k ys) := by
  have hget : h.get p = some ⟨v, first ys⟩ := @get α κ h p v [] ys heads cells k ho hk
  have hseg := ho.seg k
  have hnd := ho.nodup k
  rw [hk] at hseg hnd
  obtain ⟨hp, hnd⟩ := List.nodup_cons.mp hnd
  have hframe : ∀ q, q ≠ p → (h.remove p).get q = h.get q := by
    intro q hq
    rw [Heap.get_remove hget, if_neg hq]
  refine ho.replace k (hseg.2.congr fun q hq => hframe q (ne_of_mem_of_not_mem hq hp)) hnd
    (fun q hq => .inl ?_) (fun q _ hq => hframe q ?_) fun q hq hq' => ?_
  · rw [hk]
    exact List.mem_cons_of_mem _ hq
  · rintro rfl
    rw [hk] at hq
    exact hq List.mem_cons_self
  · rw [hk] at hq
    obtain rfl := (List.mem_cons.mp hq).resolve_right hq'
    rw [Heap.get_remove hget, if_pos rfl]

/-- The node behind another goes. -/
theorem removeAfter {u : α} (ho : Owned h heads cells)
    (hk : cells k = xs ++ (q, u) :: (p, v) :: ys) :
    Owned ((h.put q ⟨u, first ys⟩).remove p) heads
      (Function.update cells k (xs ++ (q, u) :: ys)) := by
  have hqget := ho.get hk
  have hsplit : cells k = (xs ++ [(q, u)]) ++ (p, v) :: ys := by
    rw [hk, List.append_assoc]
    rfl
  have hpget := ho.get hsplit
  have hseg := ho.seg k
  have hnd := ho.nodup k
  have hheads : Function.update heads k (first (xs ++ (q, u) :: ys)) = heads := by
    rw [Function.update_eq_self_iff, ho.head, hk, first_append, first_append]
    rfl
  rw [hk] at hseg hnd
  obtain ⟨hsx, -, -, hsy⟩ := seg_append.mp hseg
  have hnotq := not_mem_of_nodup hnd
  have hnotp : p ∉ ptrs (xs ++ [(q, u)] ++ ys) := not_mem_of_nodup (hsplit ▸ ho.nodup k)
  rw [ptrs_append, ptrs_cons, List.mem_append, List.mem_cons, not_or, not_or] at hnotq
  rw [ptrs_append, ptrs_append, List.mem_append, List.mem_append, not_or, not_or] at hnotp
  obtain ⟨hqx, hqp, hqy⟩ := hnotq
  obtain ⟨⟨hpx, -⟩, hpy⟩ := hnotp
  have hpget' : (h.put q ⟨u, first ys⟩).get p = some ⟨v, first ys⟩ := by
    rw [Heap.get_put_of_ne (Ne.symm hqp), hpget]
  have hframe : ∀ r, r ≠ p → r ≠ q →
      ((h.put q ⟨u, first ys⟩).remove p).get r = h.get r := by
    intro r hr hrq
    rw [Heap.get_remove hpget', if_neg hr, Heap.get_put_of_ne hrq]
  rw [← hheads]
  refine ho.replace k (seg_append.mpr ⟨?_, ?_, ?_⟩) ?_ (fun r hr => .inl ?_)
    (fun r hr hr' => hframe r ?_ ?_) fun r hr hr' => ?_
  · exact hsx.congr fun r hr => hframe r (ne_of_mem_of_not_mem hr hpx)
      (ne_of_mem_of_not_mem hr hqx)
  · rw [Heap.get_remove hpget', if_neg hqp, Heap.get_put_self hqget, Option.or_none]
  · exact hsy.congr fun r hr => hframe r (ne_of_mem_of_not_mem hr hpy)
      (ne_of_mem_of_not_mem hr hqy)
  · have hsub : (ptrs (xs ++ (q, u) :: ys)).Sublist (ptrs (cells k)) := by
      rw [hk, ptrs_append, ptrs_append, ptrs_cons, ptrs_cons, ptrs_cons]
      exact (List.Sublist.refl _).append ((List.sublist_cons_self _ _).cons_cons _)
    exact (ho.nodup k).sublist hsub
  · rw [hk]
    rw [ptrs_append, ptrs_cons] at hr
    rw [ptrs_append, ptrs_cons, ptrs_cons]
    rcases List.mem_append.mp hr with hr | hr
    · exact List.mem_append_left _ hr
    · rcases List.mem_cons.mp hr with rfl | hr
      · exact List.mem_append_right _ List.mem_cons_self
      · exact List.mem_append_right _ (List.mem_cons_of_mem _ (List.mem_cons_of_mem _ hr))
  · rintro rfl
    rw [hk] at hr'
    exact hr' (by simp)
  · rintro rfl
    exact hr (by simp)
  · rw [hk, ptrs_append, ptrs_cons, ptrs_cons] at hr
    rw [ptrs_append, ptrs_cons] at hr'
    have hrp : r = p := by
      simp only [List.mem_append, List.mem_cons] at hr hr'
      tauto
    rw [hrp, Heap.get_remove hpget', if_pos rfl]

end Owned

end SinglyLinked
