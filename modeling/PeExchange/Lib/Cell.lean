import Mathlib.Data.List.InsertIdx

/-!
# Nodes of a linked list

A linked list is the `List` of the values its nodes hold. A pointer to a node is
a `Cell`: the node's position together with the value read through it. `Cell.In`
says that the pointer is valid for a list. Unlinking a node and writing through
a pointer are `delete` and `store`; `locate` is the traversal from the head that
stops at the first node satisfying a test.

`Cell.In.split` gives the two halves of the list around the node, in terms of
which the operations are read off. `Cell.map` is the same node when all values are
replaced.
-/

namespace LinkedList

universe u

variable {α : Type u}

/-- A pointer to a node: its position and the value it holds. -/
structure Cell (α : Type u) where
  idx : Nat
  val : α
deriving DecidableEq, Repr

namespace Cell

/-- The pointer points into the list. -/
def In (c : Cell α) (l : List α) : Prop :=
  l[c.idx]? = some c.val

/-- Unlink the node. -/
def delete (c : Cell α) (l : List α) : List α :=
  l.eraseIdx c.idx

/-- Write through the pointer. -/
def store (c : Cell α) (v : α) (l : List α) : List α :=
  l.set c.idx v

theorem In.mem {c : Cell α} {l : List α} (h : c.In l) : c.val ∈ l :=
  List.mem_of_getElem? h

theorem in_append {pre post : List α} {a : α} : In ⟨pre.length, a⟩ (pre ++ a :: post) := by
  simp [In]

/-- The list around a node, and what the operations make of it. -/
theorem In.split {c : Cell α} {l : List α} (h : c.In l) :
    ∃ pre post, l = pre ++ c.val :: post ∧ pre.length = c.idx ∧
      c.delete l = pre ++ post ∧ ∀ v, c.store v l = pre ++ v :: post := by
  obtain ⟨i, a⟩ := c
  obtain ⟨hi, hv⟩ := List.getElem?_eq_some_iff.mp h
  simp only at hi hv
  refine ⟨l.take i, l.drop (i + 1), ?_, ?_, ?_, fun v => ?_⟩
  · rw [← hv, List.getElem_cons_drop, List.take_append_drop]
  · simp [Nat.le_of_lt hi]
  · exact List.eraseIdx_eq_take_drop_succ _ _
  · exact List.set_eq_take_append_cons_drop.trans (if_pos hi)

/-- In a list without repetitions a pointer is determined by the value it reads. -/
theorem In.eq_of_nodup {c c' : Cell α} {l : List α} (hnd : l.Nodup) (h : c.In l) (h' : c'.In l)
    (hv : c.val = c'.val) : c = c' := by
  obtain ⟨i, a⟩ := c
  obtain ⟨j, b⟩ := c'
  obtain ⟨hi, ha⟩ := List.getElem?_eq_some_iff.mp h
  obtain ⟨hj, hb⟩ := List.getElem?_eq_some_iff.mp h'
  simp only at hi hj ha hb hv
  obtain rfl : i = j := (List.getElem_inj hnd).mp (ha.trans (hv.trans hb.symm))
  rw [hv]

end Cell

/-- The first node satisfying `p`, searched from position `i` on. -/
def locateFrom (p : α → Bool) : Nat → List α → Option (Cell α)
  | _, [] => none
  | i, a :: rest => if p a then some ⟨i, a⟩ else locateFrom p (i + 1) rest

/-- The first node satisfying `p`. -/
def locate (p : α → Bool) (l : List α) : Option (Cell α) :=
  locateFrom p 0 l

theorem locateFrom_some {p : α → Bool} {c : Cell α} :
    ∀ {i : Nat} {l : List α}, locateFrom p i l = some c →
      i ≤ c.idx ∧ l[c.idx - i]? = some c.val ∧ p c.val = true
  | _, [], h => by cases h
  | i, a :: rest, h => by
    rw [locateFrom] at h
    by_cases ha : p a = true
    · rw [if_pos ha] at h
      cases h
      exact ⟨Nat.le_refl _, by simp, ha⟩
    · rw [if_neg ha] at h
      obtain ⟨hle, hget, hp⟩ := locateFrom_some h
      refine ⟨by omega, ?_, hp⟩
      rw [show c.idx - i = (c.idx - (i + 1)) + 1 by omega, List.getElem?_cons_succ]
      exact hget

theorem locateFrom_none {p : α → Bool} :
    ∀ {i : Nat} {l : List α}, locateFrom p i l = none ↔ ∀ a ∈ l, p a = false
  | _, [] => by simp [locateFrom]
  | i, a :: rest => by
    rw [locateFrom]
    by_cases ha : p a = true
    · simp [ha]
    · rw [if_neg ha, locateFrom_none]
      simp [ha]

theorem locate_some {p : α → Bool} {c : Cell α} {l : List α} (h : locate p l = some c) :
    c.In l ∧ p c.val = true := by
  obtain ⟨-, hget, hp⟩ := locateFrom_some h
  exact ⟨by simpa [Cell.In] using hget, hp⟩

theorem locate_none {p : α → Bool} {l : List α} :
    locate p l = none ↔ ∀ a ∈ l, p a = false :=
  locateFrom_none

/-! ## Other values in the nodes -/

section Map

variable {β : Type u} (g : α → β)

/-- The same node of a list with other values. -/
def Cell.map (c : Cell α) : Cell β :=
  ⟨c.idx, g c.val⟩

theorem Cell.delete_map (c : Cell α) (l : List α) :
    (c.map g).delete (l.map g) = (c.delete l).map g :=
  List.eraseIdx_map ..

theorem Cell.store_map (c : Cell α) (v : α) (l : List α) :
    (c.map g).store (g v) (l.map g) = (c.store v l).map g :=
  List.map_set.symm

theorem locate_map (p : β → Bool) (l : List α) :
    locate p (l.map g) = (locate (fun a => p (g a)) l).map (Cell.map g) := by
  have hfrom : ∀ i, locateFrom p i (l.map g) =
      (locateFrom (fun a => p (g a)) i l).map (Cell.map g) := by
    induction l with
    | nil => exact fun _ => rfl
    | cons a rest ih =>
      intro i
      rw [List.map_cons, locateFrom, locateFrom, ih]
      split <;> rfl
  exact hfrom 0

end Map

end LinkedList
