import Mathlib.Data.List.Induction
import Mathlib.Data.List.Nodup
import Mathlib.Data.List.Perm.Subperm
import Mathlib.Logic.Function.Basic
import PeExchange.Lib.Heap

/-!
# Doubly linked lists in a heap

Nodes with a value and pointers to their neighbours, in lists that are known by
their two ends.

- `Seg`: a stretch of nodes between two pointers. It splits where a list is
  appended (`seg_append`), and only the nodes at its ends know what is around it.
- `Linked`: the nodes of a whole list, from `head` to `tail`.
- `Walk`: what a loop visits that follows one of the pointers until `NULL`. A list
  is linked exactly when the loop forward from `head` and the loop backward from
  `tail` visit the same nodes (`isList_iff`).
- `Owned`: lists that share no node and, with the loose nodes, hold all records of
  the heap. It is kept by allocating, freeing, changing a value, and by what
  `append` and `unlink` make of the pointers.
-/

namespace DoublyLinked

open Memory

/-- A node. -/
structure Node (α : Type) where
  val : α
  prev : Ptr
  next : Ptr
deriving DecidableEq, Repr

/-- A list, as its owner knows it. -/
structure Ends where
  head : Ptr
  tail : Ptr
deriving DecidableEq, Repr

variable {α κ : Type} {h h' : Heap (Node α)} {p q : Nat} {v w : α} {a b : Ptr}
  {cs xs ys : List (Nat × α)}

/-! ## Writing to a node -/

def setPrev (h : Heap (Node α)) (p b : Ptr) : Except MemFault (Heap (Node α)) := do
  h.store p { ← h.load p with prev := b }

def setNext (h : Heap (Node α)) (p b : Ptr) : Except MemFault (Heap (Node α)) := do
  h.store p { ← h.load p with next := b }

def setVal (h : Heap (Node α)) (p : Ptr) (v : α) : Except MemFault (Heap (Node α)) := do
  h.store p { ← h.load p with val := v }

/-- What assigning to `prev` makes of the heap. -/
theorem setPrev_spec {n : Node α} (hp : h.get p = some n) (b : Ptr) :
    ∃ h', setPrev h (some p) b = .ok h' ∧ ∀ q, h'.get q =
      if some p = some q then (h.get q).map fun n => { n with prev := b } else h.get q := by
  refine ⟨h.put p { n with prev := b }, ?_, Heap.get_put_map hp fun n => { n with prev := b }⟩
  rw [setPrev, Heap.load_eq hp]
  exact Heap.store_eq hp _

/-- What assigning to `next` makes of the heap. -/
theorem setNext_spec {n : Node α} (hp : h.get p = some n) (b : Ptr) :
    ∃ h', setNext h (some p) b = .ok h' ∧ ∀ q, h'.get q =
      if some p = some q then (h.get q).map fun n => { n with next := b } else h.get q := by
  refine ⟨h.put p { n with next := b }, ?_, Heap.get_put_map hp fun n => { n with next := b }⟩
  rw [setNext, Heap.load_eq hp]
  exact Heap.store_eq hp _

theorem setVal_eq {n : Node α} (hp : h.get p = some n) (v : α) :
    setVal h (some p) v = .ok (h.put p { n with val := v }) := by
  rw [setVal, Heap.load_eq hp]
  exact Heap.store_eq hp _

/-! ## Stretches of nodes -/

/-- The addresses of nodes given with their values. -/
def ptrs (cs : List (Nat × α)) : List Nat :=
  cs.map Prod.fst

/-- The values. -/
def vals (cs : List (Nat × α)) : List α :=
  cs.map Prod.snd

/-- The address of the first node. -/
def first (cs : List (Nat × α)) : Ptr :=
  cs.head?.map Prod.fst

/-- The address of the last node. -/
def last (cs : List (Nat × α)) : Ptr :=
  cs.getLast?.map Prod.fst

@[simp] theorem ptrs_nil : ptrs ([] : List (Nat × α)) = [] := rfl
@[simp] theorem ptrs_cons (c : Nat × α) : ptrs (c :: cs) = c.1 :: ptrs cs := rfl
@[simp] theorem ptrs_append : ptrs (xs ++ ys) = ptrs xs ++ ptrs ys := List.map_append
@[simp] theorem vals_append : vals (xs ++ ys) = vals xs ++ vals ys := List.map_append
@[simp] theorem first_nil : first ([] : List (Nat × α)) = none := rfl
@[simp] theorem first_cons (c : Nat × α) : first (c :: cs) = some c.1 := rfl
@[simp] theorem last_nil : last ([] : List (Nat × α)) = none := rfl

@[simp] theorem last_concat (c : Nat × α) : last (cs ++ [c]) = some c.1 := by
  rw [last, List.getLast?_concat]
  rfl

theorem first_eq_none : first cs = none ↔ cs = [] := by
  cases cs <;> simp

theorem last_eq_none : last cs = none ↔ cs = [] := by
  rw [last, Option.map_eq_none_iff, List.getLast?_eq_none_iff]

theorem last_cons (c : Nat × α) : last (c :: cs) = (last cs).or (some c.1) := by
  rw [last, last, List.getLast?_cons]
  cases cs.getLast? <;> rfl

theorem first_append : first (xs ++ ys) = (first xs).or (first ys) := by
  cases xs <;> rfl

theorem last_append : last (xs ++ ys) = (last ys).or (last xs) := by
  rw [last, last, last, List.getLast?_append]
  cases ys.getLast? <;> rfl

theorem last_append_cons (xs : List (Nat × α)) (c : Nat × α) (ys : List (Nat × α)) :
    last (xs ++ c :: ys) = last (c :: ys) := by
  rw [last_append, last_cons]
  cases last ys <;> rfl

theorem mem_of_first (hp : first cs = some p) : p ∈ ptrs cs := by
  cases cs with
  | nil => cases hp
  | cons c cs =>
    cases hp
    exact List.mem_cons_self

theorem mem_of_last (hp : last cs = some p) : p ∈ ptrs cs := by
  obtain ⟨c, hc, rfl⟩ := Option.map_eq_some_iff.mp hp
  exact List.mem_map_of_mem (List.mem_of_getLast? hc)

/-- The nodes `cs`, each pointing to its neighbours; `b` stands before the first
and `a` behind the last. -/
def Seg (h : Heap (Node α)) : Ptr → List (Nat × α) → Ptr → Prop
  | _, [], _ => True
  | b, (p, v) :: cs, a => h.get p = some ⟨v, b, (first cs).or a⟩ ∧ Seg h (some p) cs a

theorem seg_append : Seg h b (xs ++ ys) a ↔
    Seg h b xs ((first ys).or a) ∧ Seg h ((last xs).or b) ys a := by
  induction xs generalizing b with
  | nil => exact ⟨fun hs => ⟨trivial, hs⟩, fun hs => hs.2⟩
  | cons c xs ih =>
    obtain ⟨p, v⟩ := c
    have hlast : (last ((p, v) :: xs)).or b = (last xs).or (some p) := by
      rw [last_cons]
      cases last xs <;> rfl
    rw [List.cons_append, Seg, Seg, ih, first_append, Option.or_assoc, hlast, and_assoc]

/-- Only the nodes themselves matter. -/
theorem Seg.congr (hs : Seg h b cs a) (hget : ∀ q ∈ ptrs cs, h'.get q = h.get q) :
    Seg h' b cs a := by
  induction cs generalizing b with
  | nil => exact trivial
  | cons c cs ih =>
    obtain ⟨p, v⟩ := c
    refine ⟨(hget p List.mem_cons_self).trans hs.1, ih hs.2 fun q hq => ?_⟩
    exact hget q (List.mem_cons_of_mem _ hq)

/-- The last node is made to point elsewhere. -/
theorem Seg.setLast (hs : Seg h b cs a) (hnd : (ptrs cs).Nodup) {a' : Ptr}
    (hget : ∀ q ∈ ptrs cs, h'.get q =
      if last cs = some q then (h.get q).map fun n => { n with next := a' } else h.get q) :
    Seg h' b cs a' := by
  induction cs generalizing b with
  | nil => exact trivial
  | cons c cs ih =>
    obtain ⟨p, v⟩ := c
    obtain ⟨hp, hs⟩ := hs
    obtain ⟨hmem, hnd⟩ := List.nodup_cons.mp hnd
    have hhead := hget p List.mem_cons_self
    cases cs with
    | nil =>
      have hlast : last [(p, v)] = some p := rfl
      rw [hlast, if_pos rfl, hp] at hhead
      exact ⟨hhead, trivial⟩
    | cons d cs =>
      have hlast : last ((p, v) :: d :: cs) = last (d :: cs) := by
        rw [last_cons, last_cons d]
        cases last cs <;> rfl
      rw [hlast] at hget hhead
      rw [if_neg fun heq => hmem (mem_of_last heq)] at hhead
      exact ⟨hhead.trans hp, ih hs hnd fun q hq => hget q (List.mem_cons_of_mem _ hq)⟩

/-- The first node is made to point elsewhere. -/
theorem Seg.setFirst (hs : Seg h b cs a) (hnd : (ptrs cs).Nodup) {b' : Ptr}
    (hget : ∀ q ∈ ptrs cs, h'.get q =
      if first cs = some q then (h.get q).map fun n => { n with prev := b' } else h.get q) :
    Seg h' b' cs a := by
  cases cs with
  | nil => exact trivial
  | cons c cs =>
    obtain ⟨p, v⟩ := c
    obtain ⟨hp, hs⟩ := hs
    obtain ⟨hmem, hnd⟩ := List.nodup_cons.mp hnd
    have hhead := hget p List.mem_cons_self
    rw [first_cons, if_pos rfl, hp] at hhead
    refine ⟨hhead, hs.congr fun q hq => ?_⟩
    have hne : first ((p, v) :: cs) ≠ some q := fun heq =>
      hmem (Option.some.inj heq ▸ hq)
    rw [hget q (List.mem_cons_of_mem _ hq), if_neg hne]

/-- A node and its neighbours. -/
theorem Seg.get (hs : Seg h b (xs ++ (p, v) :: ys) a) :
    h.get p = some ⟨v, (last xs).or b, (first ys).or a⟩ :=
  (seg_append.mp hs).2.1

/-! ## Lists -/

/-- The list with these ends has the nodes `cs`. -/
structure Linked (h : Heap (Node α)) (l : Ends) (cs : List (Nat × α)) : Prop where
  head : l.head = first cs
  tail : l.tail = last cs
  nodup : (ptrs cs).Nodup
  seg : Seg h none cs none

theorem Linked.get (hl : Linked h l (xs ++ (p, v) :: ys)) :
    h.get p = some ⟨v, last xs, first ys⟩ := by
  have hget := hl.seg.get
  rwa [Option.or_none, Option.or_none] at hget

theorem Linked.get_of_mem {l : Ends} (hl : Linked h l cs) (hp : p ∈ ptrs cs) :
    ∃ n, h.get p = some n := by
  obtain ⟨c, hc, rfl⟩ := List.mem_map.mp hp
  obtain ⟨xs, ys, rfl⟩ := List.append_of_mem hc
  exact ⟨_, hl.get⟩

/-- Another node of the list is elsewhere. -/
theorem Linked.ne {l : Ends} (hl : Linked h l (xs ++ (p, v) :: ys))
    (hq : q ∈ ptrs xs ∨ q ∈ ptrs ys) : q ≠ p := by
  have hnd := hl.nodup
  rw [ptrs_append, ptrs_cons, List.nodup_append] at hnd
  obtain ⟨-, hys, hdisj⟩ := hnd
  rintro rfl
  rcases hq with hq | hq
  · exact hdisj _ hq _ List.mem_cons_self rfl
  · exact (List.nodup_cons.mp hys).1 hq

/-- A node is the head when there is none before it. -/
theorem Linked.head_eq_iff {l : Ends} (hl : Linked h l (xs ++ (p, v) :: ys)) :
    l.head = some p ↔ xs = [] := by
  rw [hl.head]
  constructor
  · intro hp
    cases xs with
    | nil => rfl
    | cons c xs => exact absurd (Option.some.inj hp) (hl.ne (.inl List.mem_cons_self))
  · rintro rfl
    rfl

/-- A node is the tail when there is none behind it. -/
theorem Linked.tail_eq_iff {l : Ends} (hl : Linked h l (xs ++ (p, v) :: ys)) :
    l.tail = some p ↔ ys = [] := by
  rw [hl.tail]
  constructor
  · intro hp
    cases hy : last ys with
    | none => exact last_eq_none.mp hy
    | some t =>
      rw [last_append, last_cons, hy] at hp
      exact absurd (Option.some.inj hp) (hl.ne (.inr (mem_of_last hy)))
  · rintro rfl
    exact last_concat _

theorem Linked.congr {l : Ends} (hl : Linked h l cs) (hget : ∀ q ∈ ptrs cs, h'.get q = h.get q) :
    Linked h' l cs :=
  ⟨hl.head, hl.tail, hl.nodup, hl.seg.congr hget⟩

/-- What appending a node makes of the pointers. -/
theorem Linked.append {l : Ends} (hl : Linked h l cs) (hp : p ∉ ptrs cs)
    (hnew : h'.get p = some ⟨v, last cs, none⟩)
    (hget : ∀ q ∈ ptrs cs, h'.get q =
      if last cs = some q then (h.get q).map fun n => { n with next := some p } else h.get q) :
    Linked h' ⟨(first cs).or (some p), some p⟩ (cs ++ [(p, v)]) := by
  refine ⟨?_, ?_, ?_, ?_⟩
  · rw [first_append]
    rfl
  · rw [last_concat]
  · rw [ptrs_append, List.nodup_append]
    refine ⟨hl.nodup, List.nodup_singleton p, fun q hq r hr heq => hp ?_⟩
    obtain rfl := List.mem_singleton.mp hr
    exact heq ▸ hq
  · refine seg_append.mpr ⟨hl.seg.setLast hl.nodup hget, ?_, trivial⟩
    rw [Option.or_none]
    exact hnew

/-- What unlinking a node makes of the pointers. -/
theorem Linked.unlink {l : Ends} (hl : Linked h l (xs ++ (p, v) :: ys))
    (hget : ∀ q ∈ ptrs (xs ++ ys), h'.get q =
      if last xs = some q then (h.get q).map fun n => { n with next := first ys }
      else if first ys = some q then (h.get q).map fun n => { n with prev := last xs }
      else h.get q) :
    Linked h' ⟨first (xs ++ ys), last (xs ++ ys)⟩ (xs ++ ys) := by
  have hnd := hl.nodup
  rw [ptrs_append, ptrs_cons, List.nodup_append] at hnd
  obtain ⟨hxs, hys, hdisj⟩ := hnd
  obtain ⟨hp, hys⟩ := List.nodup_cons.mp hys
  have hne : ∀ q ∈ ptrs xs, q ∉ ptrs ys := fun q hq hq' =>
    hdisj q hq q (List.mem_cons_of_mem _ hq') rfl
  obtain ⟨hsx, -, hsy⟩ := seg_append.mp hl.seg
  refine ⟨rfl, rfl, ?_, seg_append.mpr ⟨?_, ?_⟩⟩
  · rw [ptrs_append, List.nodup_append]
    exact ⟨hxs, hys, fun q hq r hr heq => hne q hq (heq ▸ hr)⟩
  · refine hsx.setLast hxs fun q hq => ?_
    rw [hget q (by rw [ptrs_append]; exact List.mem_append_left _ hq), Option.or_none]
    by_cases hlast : last xs = some q
    · rw [if_pos hlast, if_pos hlast]
    · rw [if_neg hlast, if_neg hlast, if_neg fun heq => hne q hq (mem_of_first heq)]
  · refine hsy.setFirst hys fun q hq => ?_
    rw [hget q (by rw [ptrs_append]; exact List.mem_append_right _ hq), Option.or_none,
      if_neg fun heq => hne q (mem_of_last heq) hq]

/-! ## Loops -/

/-- A loop that starts at a pointer and follows `step` until `NULL` visits these
nodes. -/
inductive Walk (h : Heap (Node α)) (step : Node α → Ptr) : Ptr → List Nat → Prop where
  | nil : Walk h step none []
  | cons {p : Nat} {n : Node α} {ps : List Nat} (hp : h.get p = some n)
      (hw : Walk h step (step n) ps) : Walk h step (some p) (p :: ps)

theorem Seg.forward (hs : Seg h b cs none) : Walk h Node.next (first cs) (ptrs cs) := by
  induction cs generalizing b with
  | nil => exact .nil
  | cons c cs ih =>
    obtain ⟨p, v⟩ := c
    obtain ⟨hp, hs⟩ := hs
    rw [Option.or_none] at hp
    exact .cons hp (ih hs)

theorem Seg.backward (hs : Seg h none cs a) : Walk h Node.prev (last cs) (ptrs cs).reverse := by
  induction cs using List.reverseRecOn generalizing a with
  | nil => exact .nil
  | append_singleton cs c ih =>
    obtain ⟨p, v⟩ := c
    obtain ⟨hs, hp, -⟩ := seg_append.mp hs
    rw [Option.or_none] at hp
    rw [last_concat, ptrs_append, List.reverse_append]
    exact .cons hp (ih hs)

theorem Walk.eq_head? {step : Node α → Ptr} {ps : List Nat} (hw : Walk h step a ps) :
    a = ps.head? := by
  cases hw <;> rfl

/-- Where a loop goes from a node it visits. -/
theorem Walk.split {step : Node α → Ptr} {ps qs : List Nat}
    (hw : Walk h step a (ps ++ p :: qs)) : ∃ n, h.get p = some n ∧ step n = qs.head? := by
  induction ps generalizing a with
  | nil =>
    cases hw with
    | cons hp hw => exact ⟨_, hp, hw.eq_head?⟩
  | cons q ps ih =>
    cases hw with
    | cons _ hw => exact ih hw

/-- A loop visits the same nodes each time. -/
theorem Walk.unique {step : Node α → Ptr} {ps qs : List Nat} (hw : Walk h step a ps)
    (hw' : Walk h step a qs) : ps = qs := by
  induction hw generalizing qs with
  | nil =>
    cases hw'
    rfl
  | cons hp _ ih =>
    cases hw' with
    | cons hp' hw' =>
      obtain rfl := Option.some.inj (hp.symm.trans hp')
      rw [ih hw']

/-- The rest of a loop. -/
theorem Walk.drop {step : Node α → Ptr} {ps qs : List Nat} (hw : Walk h step a (ps ++ p :: qs)) :
    Walk h step (some p) (p :: qs) := by
  induction ps generalizing a with
  | nil =>
    cases hw with
    | cons hp hw => exact .cons hp hw
  | cons q ps ih =>
    cases hw with
    | cons _ hw => exact ih hw

/-- A loop that ends visits no node twice. -/
theorem Walk.nodup {step : Node α → Ptr} {ps : List Nat} (hw : Walk h step a ps) : ps.Nodup := by
  induction hw with
  | nil => exact List.nodup_nil
  | @cons p n ps hp hw ih =>
    refine List.nodup_cons.mpr ⟨fun hmem => ?_, ih⟩
    -- the loop from the second visit would be as long as from the first
    obtain ⟨qs, rs, rfl⟩ := List.append_of_mem hmem
    have heq := (Walk.cons hp hw).unique hw.drop
    have hlen := congrArg List.length heq
    simp only [List.length_cons, List.length_append] at hlen
    omega

/-- The list with these ends, as loops see it: forward from `head` and backward
from `tail` the same nodes, the last of which is the other end. -/
structure IsList (h : Heap (Node α)) (l : Ends) (ps : List Nat) : Prop where
  forward : Walk h Node.next l.head ps
  forward_end : ps.getLast? = l.tail
  backward : Walk h Node.prev l.tail ps.reverse
  backward_end : ps.reverse.getLast? = l.head

theorem Linked.isList {l : Ends} (hl : Linked h l cs) : IsList h l (ptrs cs) := by
  refine ⟨?_, ?_, ?_, ?_⟩
  · rw [hl.head]
    exact hl.seg.forward
  · rw [hl.tail, ptrs, last, List.getLast?_map]
  · rw [hl.tail]
    exact hl.seg.backward
  · rw [hl.head, ptrs, first, List.getLast?_reverse, List.head?_map]

/-- **Both loops together determine the pointers.** -/
theorem IsList.linked {l : Ends} {ps : List Nat} (hl : IsList h l ps) :
    ∃ cs, ptrs cs = ps ∧ Linked h l cs := by
  have hnode : ∀ qs p rs, ps = qs ++ p :: rs →
      ∃ v, h.get p = some ⟨v, qs.getLast?, rs.head?⟩ := by
    rintro qs p rs rfl
    obtain ⟨n, hn, hnext⟩ := hl.forward.split
    have hback := hl.backward
    rw [List.reverse_append, List.reverse_cons, List.append_assoc, List.singleton_append] at hback
    obtain ⟨n', hn', hprev⟩ := hback.split
    obtain rfl := Option.some.inj (hn.symm.trans hn')
    rw [List.head?_reverse] at hprev
    exact ⟨n.val, by rw [hn, ← hnext, ← hprev]⟩
  -- from the right end of a suffix to its left end
  have hseg : ∀ rs qs, ps = qs ++ rs → ∃ cs, ptrs cs = rs ∧ Seg h qs.getLast? cs none := by
    intro rs
    induction rs with
    | nil => exact fun _ _ => ⟨[], rfl, trivial⟩
    | cons p rs ih =>
      intro qs hqs
      obtain ⟨v, hv⟩ := hnode qs p rs hqs
      obtain ⟨cs, rfl, hs⟩ := ih (qs ++ [p]) (by rw [hqs, List.append_assoc]; rfl)
      rw [List.getLast?_concat] at hs
      refine ⟨(p, v) :: cs, rfl, ?_, hs⟩
      rw [hv, Option.or_none, ptrs, List.head?_map]
      rfl
  obtain ⟨cs, rfl, hs⟩ := hseg ps [] rfl
  refine ⟨cs, rfl, ?_, ?_, hl.forward.nodup, hs⟩
  · rw [← hl.backward_end, ptrs, first, List.getLast?_reverse, List.head?_map]
  · rw [← hl.forward_end, ptrs, last, List.getLast?_map]

/-- The same nodes with the same values; pointers differ in the given ones only. -/
structure Relinked (h h' : Heap (Node α)) (ps : List Nat) : Prop where
  vals : ∀ q, (h'.get q).map Node.val = (h.get q).map Node.val
  others : ∀ q, q ∉ ps → h'.get q = h.get q

/-- Appending changes pointers only. -/
theorem Relinked.append {n : Node α} {ps : List Nat} (hp : h.get p = some n)
    (hnew : h'.get p = some { n with prev := b, next := a })
    (hlast : ∀ q, last cs = some q → q ∈ ps)
    (hget : ∀ q, q ≠ p → h'.get q =
      if last cs = some q then (h.get q).map fun n => { n with next := some p } else h.get q) :
    Relinked h h' (ps ++ [p]) := by
  constructor
  · intro q
    by_cases hqp : q = p
    · subst hqp
      rw [hnew, hp]
      rfl
    · rw [hget q hqp]
      split
      · rw [Option.map_map]
        rfl
      · rfl
  · intro q hq
    rw [List.mem_append, not_or, List.mem_singleton] at hq
    rw [hget q hq.2, if_neg (mt (hlast q) hq.1)]

/-- Unlinking changes pointers only. -/
theorem Relinked.unlink (hget : ∀ q, h'.get q =
      if last xs = some q then (h.get q).map fun n => { n with next := first ys }
      else if first ys = some q then (h.get q).map fun n => { n with prev := last xs }
      else h.get q) : Relinked h h' (ptrs (xs ++ ys)) := by
  constructor
  · intro q
    rw [hget]
    split
    · rw [Option.map_map]
      rfl
    · split
      · rw [Option.map_map]
        rfl
      · rfl
  · intro q hq
    rw [ptrs_append, List.mem_append, not_or] at hq
    rw [hget, if_neg (mt mem_of_last hq.1), if_neg (mt mem_of_first hq.2)]

/-! ## Ownership -/

/-- The records of the heap are the nodes of lists without common nodes, and some
loose nodes. -/
structure Owned (h : Heap (Node α)) (ends : κ → Ends) (cells : κ → List (Nat × α))
    (loose : List (Nat × α)) : Prop where
  linked : ∀ k, Linked h (ends k) (cells k)
  disjoint : ∀ k k' p, p ∈ ptrs (cells k) → p ∈ ptrs (cells k') → k = k'
  loose_get : ∀ c ∈ loose, ∃ b a, h.get c.1 = some ⟨c.2, b, a⟩
  loose_nodup : (ptrs loose).Nodup
  apart : ∀ k, ∀ p ∈ ptrs loose, p ∉ ptrs (cells k)
  all : ∀ p n, h.get p = some n → (∃ k, p ∈ ptrs (cells k)) ∨ p ∈ ptrs loose

namespace Owned

variable {ends : κ → Ends} {cells : κ → List (Nat × α)} {loose : List (Nat × α)} {k : κ}

/-- A list is no longer than the heap. -/
theorem length_le (ho : Owned h ends cells loose) (k : κ) : (cells k).length ≤ h.next := by
  have hsub : ptrs (cells k) ⊆ List.range h.next := by
    intro q hq
    obtain ⟨n, hn⟩ := (ho.linked _).get_of_mem hq
    exact List.mem_range.mpr (Heap.lt_length_of_get hn)
  have hle := ((ho.linked k).nodup.subperm hsub).length_le
  rwa [ptrs, List.length_map, List.length_range] at hle

/-- The order of the loose nodes does not matter. -/
theorem perm (ho : Owned h ends cells loose) {loose' : List (Nat × α)} (hp : loose'.Perm loose) :
    Owned h ends cells loose' := by
  have hptrs : (ptrs loose').Perm (ptrs loose) := hp.map _
  exact ⟨ho.linked, ho.disjoint, fun c hc => ho.loose_get c (hp.mem_iff.mp hc),
    hptrs.nodup_iff.mpr ho.loose_nodup, fun k q hq => ho.apart k q (hptrs.mem_iff.mp hq),
    fun q n hq => (ho.all q n hq).imp_right hptrs.mem_iff.mpr⟩

/-- Nothing was allocated. -/
theorem empty :
    Owned (Heap.empty : Heap (Node α)) (fun _ : κ => ⟨none, none⟩) (fun _ => []) [] where
  linked _ := ⟨rfl, rfl, List.nodup_nil, trivial⟩
  disjoint _ _ _ hp := absurd hp List.not_mem_nil
  loose_get _ hc := absurd hc List.not_mem_nil
  loose_nodup := List.nodup_nil
  apart _ _ hp := absurd hp List.not_mem_nil
  all p n hp := by
    rw [Heap.get_eq_some] at hp
    cases hp

/-- A node is allocated. -/
theorem alloc (ho : Owned h ends cells loose) (v : α) (b a : Ptr) :
    Owned (h.alloc ⟨v, b, a⟩) ends cells ((h.next, v) :: loose) := by
  have hold : ∀ q n, h.get q = some n → (h.alloc ⟨v, b, a⟩).get q = h.get q := by
    intro q n hq
    rw [Heap.get_alloc, if_neg]
    rintro rfl
    rw [Heap.get_next] at hq
    cases hq
  have hnew : ∀ q n, h.get q = some n → q ≠ h.next := by
    rintro q n hq rfl
    rw [Heap.get_next] at hq
    cases hq
  refine ⟨fun k => (ho.linked k).congr fun q hq => ?_, ho.disjoint, ?_, ?_, ?_, ?_⟩
  · obtain ⟨n, hn⟩ := (ho.linked _).get_of_mem hq
    exact hold q n hn
  · intro c hc
    rcases List.mem_cons.mp hc with rfl | hc
    · exact ⟨b, a, by rw [Heap.get_alloc, if_pos rfl]⟩
    · obtain ⟨b', a', hget⟩ := ho.loose_get c hc
      exact ⟨b', a', (hold _ _ hget).trans hget⟩
  · refine List.nodup_cons.mpr ⟨fun hmem => ?_, ho.loose_nodup⟩
    obtain ⟨c, hc, hcp⟩ := List.mem_map.mp hmem
    obtain ⟨b', a', hget⟩ := ho.loose_get c hc
    exact hnew _ _ hget hcp
  · intro k q hq hmem
    rcases List.mem_cons.mp hq with rfl | hq
    · obtain ⟨n, hn⟩ := (ho.linked _).get_of_mem hmem
      exact hnew _ _ hn rfl
    · exact ho.apart k q hq hmem
  · intro q n hq
    rw [Heap.get_alloc] at hq
    by_cases hqn : q = h.next
    · exact .inr (hqn ▸ List.mem_cons_self)
    · rw [if_neg hqn] at hq
      exact (ho.all q n hq).imp_right (List.mem_cons_of_mem _)

/-- A loose node is freed. -/
theorem remove (ho : Owned h ends cells ((p, v) :: loose)) :
    Owned (h.remove p) ends cells loose := by
  obtain ⟨b, a, hp⟩ := ho.loose_get _ List.mem_cons_self
  obtain ⟨hmem, hnd⟩ := List.nodup_cons.mp ho.loose_nodup
  have hother : ∀ q, q ≠ p → (h.remove p).get q = h.get q := fun q hq => by
    rw [Heap.get_remove hp, if_neg hq]
  refine ⟨fun k => (ho.linked k).congr fun q hq => hother q ?_, ho.disjoint, ?_, hnd, ?_, ?_⟩
  · rintro rfl
    exact ho.apart k _ List.mem_cons_self hq
  · intro c hc
    obtain ⟨b', a', hget⟩ := ho.loose_get c (List.mem_cons_of_mem _ hc)
    have hin := List.mem_map_of_mem (f := Prod.fst) hc
    refine ⟨b', a', (hother _ fun heq => ?_).trans hget⟩
    rw [heq] at hin
    exact hmem hin
  · exact fun k q hq => ho.apart k q (List.mem_cons_of_mem _ hq)
  · intro q n hq
    rw [Heap.get_remove hp] at hq
    by_cases hqp : q = p
    · rw [if_pos hqp] at hq
      cases hq
    · rw [if_neg hqp] at hq
      exact (ho.all q n hq).imp_right fun hmem => (List.mem_cons.mp hmem).resolve_left hqp

/-- The value of a loose node changes. -/
theorem setLoose (ho : Owned h ends cells ((p, v) :: loose)) (hp : h.get p = some ⟨v, b, a⟩)
    (w : α) : Owned (h.put p ⟨w, b, a⟩) ends cells ((p, w) :: loose) := by
  obtain ⟨hmem, hnd⟩ := List.nodup_cons.mp ho.loose_nodup
  refine ⟨fun k => (ho.linked k).congr fun q hq => Heap.get_put_of_ne ?_ _, ho.disjoint, ?_,
    ho.loose_nodup, ho.apart, ?_⟩
  · rintro rfl
    exact ho.apart k _ List.mem_cons_self hq
  · intro c hc
    rcases List.mem_cons.mp hc with rfl | hc
    · exact ⟨b, a, Heap.get_put_self hp _⟩
    · obtain ⟨b', a', hget⟩ := ho.loose_get c (List.mem_cons_of_mem _ hc)
      have hin := List.mem_map_of_mem (f := Prod.fst) hc
      refine ⟨b', a', (Heap.get_put_of_ne (fun heq => ?_) _).trans hget⟩
      rw [heq] at hin
      exact hmem hin
  · intro q n hq
    by_cases hqp : q = p
    · subst hqp
      exact ho.all q _ hp
    · rw [Heap.get_put_of_ne hqp] at hq
      exact ho.all q n hq

variable [DecidableEq κ]

/-- One list is replaced, its nodes and the loose ones being the same as before. -/
theorem replace (ho : Owned h ends cells loose) (k : κ) {l : Ends} {loose' : List (Nat × α)}
    (hk : Linked h' l cs) (hother : ∀ k', k' ≠ k → ∀ q ∈ ptrs (cells k'), h'.get q = h.get q)
    (hperm : (ptrs cs ++ ptrs loose').Perm (ptrs (cells k) ++ ptrs loose))
    (hloose : ∀ c ∈ loose', ∃ b a, h'.get c.1 = some ⟨c.2, b, a⟩)
    (hlive : ∀ q n, h'.get q = some n → ∃ n', h.get q = some n') :
    Owned h' (Function.update ends k l) (Function.update cells k cs) loose' := by
  have hmem : ∀ q, q ∈ ptrs cs ∨ q ∈ ptrs loose' ↔ q ∈ ptrs (cells k) ∨ q ∈ ptrs loose := by
    intro q
    rw [← List.mem_append, ← List.mem_append]
    exact hperm.mem_iff
  have hnd : (ptrs cs ++ ptrs loose').Nodup := by
    refine hperm.nodup_iff.mpr (List.nodup_append.mpr ⟨(ho.linked k).nodup, ho.loose_nodup, ?_⟩)
    rintro q hq r hr rfl
    exact ho.apart k q hr hq
  obtain ⟨-, hnd', hdisj⟩ := List.nodup_append.mp hnd
  -- the nodes of the other lists are elsewhere
  have hfar : ∀ k', k' ≠ k → ∀ q ∈ ptrs (cells k'), q ∉ ptrs cs ∧ q ∉ ptrs loose' := by
    intro k' hne q hq
    have hold : ¬(q ∈ ptrs (cells k) ∨ q ∈ ptrs loose) := by
      rintro (hin | hin)
      · exact hne (ho.disjoint k' k q hq hin)
      · exact ho.apart k' q hin hq
    exact not_or.mp (mt (hmem q).mp hold)
  refine ⟨fun k' => ?_, ?_, hloose, hnd', ?_, ?_⟩
  · by_cases hkk : k' = k
    · subst hkk
      rw [Function.update_self, Function.update_self]
      exact hk
    · rw [Function.update_of_ne hkk, Function.update_of_ne hkk]
      exact (ho.linked k').congr (hother k' hkk)
  · intro k₁ k₂ q h₁ h₂
    by_cases hk₁ : k₁ = k
    · by_cases hk₂ : k₂ = k
      · rw [hk₁, hk₂]
      · rw [hk₁, Function.update_self] at h₁
        rw [Function.update_of_ne hk₂] at h₂
        exact absurd h₁ (hfar k₂ hk₂ q h₂).1
    · rw [Function.update_of_ne hk₁] at h₁
      by_cases hk₂ : k₂ = k
      · rw [hk₂, Function.update_self] at h₂
        exact absurd h₂ (hfar k₁ hk₁ q h₁).1
      · rw [Function.update_of_ne hk₂] at h₂
        exact ho.disjoint k₁ k₂ q h₁ h₂
  · intro k' q hq hin
    by_cases hkk : k' = k
    · rw [hkk, Function.update_self] at hin
      exact hdisj q hin q hq rfl
    · rw [Function.update_of_ne hkk] at hin
      exact (hfar k' hkk q hin).2 hq
  · intro q n hq
    obtain ⟨n', hn'⟩ := hlive q n hq
    have hk' : q ∈ ptrs cs ∨ q ∈ ptrs loose' → (∃ k', q ∈ ptrs (Function.update cells k cs k')) ∨
        q ∈ ptrs loose' := fun hor =>
      hor.imp_left fun hin => ⟨k, by rw [Function.update_self]; exact hin⟩
    rcases ho.all q n' hn' with ⟨k', hin⟩ | hin
    · by_cases hkk : k' = k
      · exact hk' ((hmem q).mpr (.inl (hkk ▸ hin)))
      · exact .inl ⟨k', by rw [Function.update_of_ne hkk]; exact hin⟩
    · exact hk' ((hmem q).mpr (.inr hin))

/-- **A loose node is appended** to a list. -/
theorem append (ho : Owned h ends cells ((p, v) :: loose)) (k : κ)
    (hnew : h'.get p = some ⟨v, last (cells k), none⟩)
    (hget : ∀ q, q ≠ p → h'.get q =
      if last (cells k) = some q then (h.get q).map fun n => { n with next := some p }
      else h.get q) :
    Owned h' (Function.update ends k ⟨(first (cells k)).or (some p), some p⟩)
      (Function.update cells k (cells k ++ [(p, v)])) loose := by
  have hp := ho.apart k p List.mem_cons_self
  obtain ⟨hmem, -⟩ := List.nodup_cons.mp ho.loose_nodup
  refine ho.replace k ((ho.linked k).append hp hnew fun q hq => hget q ?_) ?_ ?_ ?_ ?_
  · rintro rfl
    exact hp hq
  · intro k' hne q hq
    have hqp : q ≠ p := by
      rintro rfl
      exact ho.apart k' _ List.mem_cons_self hq
    rw [hget q hqp, if_neg]
    exact fun hlast => hne (ho.disjoint k' k q hq (mem_of_last hlast))
  · rw [ptrs_append, List.append_assoc]
    exact List.Perm.refl _
  · intro c hc
    obtain ⟨b', a', hold⟩ := ho.loose_get c (List.mem_cons_of_mem _ hc)
    have hmemc := List.mem_map_of_mem (f := Prod.fst) hc
    have hcp : c.1 ≠ p := by
      rintro rfl
      exact hmem hmemc
    refine ⟨b', a', ?_⟩
    rw [hget _ hcp, if_neg, hold]
    exact fun hlast => ho.apart k _ (List.mem_cons_of_mem _ hmemc) (mem_of_last hlast)
  · intro q n hq
    by_cases hqp : q = p
    · subst hqp
      obtain ⟨b', a', hold⟩ := ho.loose_get _ List.mem_cons_self
      exact ⟨_, hold⟩
    · rw [hget q hqp] at hq
      split at hq
      · obtain ⟨n', hn', -⟩ := Option.map_eq_some_iff.mp hq
        exact ⟨n', hn'⟩
      · exact ⟨n, hq⟩

/-- **A node is unlinked** from a list and becomes loose. -/
theorem unlink (ho : Owned h ends cells loose) (hk : cells k = xs ++ (p, v) :: ys)
    (hget : ∀ q, h'.get q =
      if last xs = some q then (h.get q).map fun n => { n with next := first ys }
      else if first ys = some q then (h.get q).map fun n => { n with prev := last xs }
      else h.get q) :
    Owned h' (Function.update ends k ⟨first (xs ++ ys), last (xs ++ ys)⟩)
      (Function.update cells k (xs ++ ys)) ((p, v) :: loose) := by
  have hl := ho.linked k
  rw [hk] at hl
  have hnd := hl.nodup
  rw [ptrs_append, ptrs_cons, List.nodup_append] at hnd
  obtain ⟨hxs, hys, hdisj⟩ := hnd
  obtain ⟨hpy, hys⟩ := List.nodup_cons.mp hys
  -- nodes that are not in the list stay as they are
  have hfar : ∀ q, q ∉ ptrs xs → q ∉ ptrs ys → h'.get q = h.get q := by
    intro q hqx hqy
    rw [hget, if_neg fun heq => hqx (mem_of_last heq), if_neg fun heq => hqy (mem_of_first heq)]
  have hmemx : ∀ q ∈ ptrs xs, q ∈ ptrs (cells k) := fun q hq => by
    rw [hk, ptrs_append]
    exact List.mem_append_left _ hq
  have hmemy : ∀ q ∈ ptrs ys, q ∈ ptrs (cells k) := fun q hq => by
    rw [hk, ptrs_append, ptrs_cons]
    exact List.mem_append_right _ (List.mem_cons_of_mem _ hq)
  refine ho.replace k (hl.unlink fun q _ => hget q) ?_ ?_ ?_ ?_
  · exact fun k' hne q hq => hfar q (fun hqx => hne (ho.disjoint k' k q hq (hmemx q hqx)))
      fun hqy => hne (ho.disjoint k' k q hq (hmemy q hqy))
  · rw [hk, ptrs_append, ptrs_append, ptrs_cons, ptrs_cons, List.append_assoc, List.append_assoc]
    exact List.Perm.append_left _ List.perm_middle
  · intro c hc
    rcases List.mem_cons.mp hc with rfl | hc
    · refine ⟨_, _, (hfar p (fun hpx => ?_) hpy).trans hl.get⟩
      exact hdisj p hpx p List.mem_cons_self rfl
    · obtain ⟨b', a', hold⟩ := ho.loose_get c hc
      have hfree := ho.apart k _ (List.mem_map_of_mem (f := Prod.fst) hc)
      exact ⟨b', a', (hfar _ (mt (hmemx _) hfree) (mt (hmemy _) hfree)).trans hold⟩
  · intro q n hq
    rw [hget] at hq
    split at hq
    · obtain ⟨n', hn', -⟩ := Option.map_eq_some_iff.mp hq
      exact ⟨n', hn'⟩
    · split at hq
      · obtain ⟨n', hn', -⟩ := Option.map_eq_some_iff.mp hq
        exact ⟨n', hn'⟩
      · exact ⟨n, hq⟩

/-- The value of a node of a list changes. -/
theorem setCell (ho : Owned h ends cells loose) (hk : cells k = xs ++ (p, v) :: ys) (w : α) :
    Owned (h.put p ⟨w, last xs, first ys⟩) ends
      (Function.update cells k (xs ++ (p, w) :: ys)) loose := by
  have hl := ho.linked k
  rw [hk] at hl
  have hnd := hl.nodup
  rw [ptrs_append, ptrs_cons, List.nodup_append] at hnd
  obtain ⟨-, hys, hdisj⟩ := hnd
  obtain ⟨hpy, -⟩ := List.nodup_cons.mp hys
  have hpx : p ∉ ptrs xs := fun hmem => hdisj p hmem p List.mem_cons_self rfl
  have hpk : p ∈ ptrs (cells k) := by
    rw [hk, ptrs_append, ptrs_cons]
    exact List.mem_append_right _ List.mem_cons_self
  have hne : ∀ {qs : List (Nat × α)}, p ∉ ptrs qs → ∀ q ∈ ptrs qs,
      (h.put p ⟨w, last xs, first ys⟩).get q = h.get q := by
    intro qs hp q hq
    refine Heap.get_put_of_ne ?_ _
    rintro rfl
    exact hp hq
  have hsame : ptrs (xs ++ (p, w) :: ys) = ptrs (cells k) := by
    rw [hk, ptrs_append, ptrs_append]
    rfl
  obtain ⟨hsx, hp, hsy⟩ := seg_append.mp hl.seg
  have hnew : Linked (h.put p ⟨w, last xs, first ys⟩) (ends k) (xs ++ (p, w) :: ys) := by
    refine ⟨?_, ?_, ?_, seg_append.mpr ⟨hsx.congr (hne hpx), ?_, hsy.congr (hne hpy)⟩⟩
    · rw [hl.head, first_append, first_append]
      rfl
    · rw [hl.tail, last_append, last_append, last_cons, last_cons]
    · rw [hsame]
      exact (ho.linked k).nodup
    · rw [Heap.get_put_self hl.get, Option.or_none, Option.or_none]
  rw [← Function.update_eq_self k ends]
  refine ho.replace k hnew ?_ ?_ ?_ ?_
  · intro k' hkk q hq
    refine Heap.get_put_of_ne ?_ _
    rintro rfl
    exact hkk (ho.disjoint k' k q hq hpk)
  · rw [hsame]
  · intro c hc
    obtain ⟨b', a', hold⟩ := ho.loose_get c hc
    refine ⟨b', a', (Heap.get_put_of_ne (fun heq => ?_) _).trans hold⟩
    exact ho.apart k _ (List.mem_map_of_mem (f := Prod.fst) hc) (heq ▸ hpk)
  · intro q n hq
    by_cases hqp : q = p
    · subst hqp
      exact ⟨_, hl.get⟩
    · rw [Heap.get_put_of_ne hqp] at hq
      exact ⟨n, hq⟩

end Owned

end DoublyLinked
