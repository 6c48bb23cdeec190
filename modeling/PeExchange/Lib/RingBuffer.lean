/-!
# Circular buffers

An array used as a queue: `front` is the index of the oldest entry, `back` the
index the next one is stored at, and `len` counts the entries. The two indices
return to 0 when they reach `wrap`, which need not be the size of the array.

- `RingBuffer.Holds wrap r xs`: the buffer holds the entries `xs`, oldest first. At
  most `wrap` entries can be held.
- `Holds.push` and `Holds.pop`: appending and taking are those of a list, for as
  long as there is room.
- `RingBuffer.Has wrap r x`: `x` is one of the entries.
- `Holds.push_full`: with `wrap` entries held, one more replaces the oldest.

Slots that hold no entry may contain anything.
-/

universe u

variable {α : Type u}

/-- An array with the variables that make a queue of it. -/
structure RingBuffer (α : Type u) where
  slots : List α
  len : Int
  front : Nat
  back : Nat
deriving DecidableEq, Repr

namespace RingBuffer

/-- The index after `i`. -/
def advance (wrap i : Nat) : Nat :=
  if i + 1 = wrap then 0 else i + 1

/-- Store an entry at the back. -/
def push (wrap : Nat) (r : RingBuffer α) (x : α) : RingBuffer α :=
  { r with slots := r.slots.set r.back x, back := advance wrap r.back, len := r.len + 1 }

/-- The entry at the front. -/
def peek (r : RingBuffer α) : Option α :=
  r.slots[r.front]?

/-- Drop the entry at the front, leaving `blank` in its slot. -/
def pop (wrap : Nat) (blank : α) (r : RingBuffer α) : RingBuffer α :=
  { r with slots := r.slots.set r.front blank, front := advance wrap r.front, len := r.len - 1 }

/-- A buffer of `size` slots without entries. -/
def empty (size : Nat) (blank : α) : RingBuffer α :=
  { slots := List.replicate size blank, len := 0, front := 0, back := 0 }

section Fields

variable (wrap : Nat) (blank x : α) (r : RingBuffer α)

@[simp] theorem push_len : (r.push wrap x).len = r.len + 1 := rfl
@[simp] theorem push_front : (r.push wrap x).front = r.front := rfl
@[simp] theorem pop_len : (r.pop wrap blank).len = r.len - 1 := rfl
@[simp] theorem pop_back : (r.pop wrap blank).back = r.back := rfl

end Fields

/-! ## Indices -/

/-- The index `k` places behind `front`. -/
def index (wrap front k : Nat) : Nat :=
  if front + k < wrap then front + k else front + k - wrap

variable {wrap front k l : Nat}

theorem index_lt (hf : front < wrap) (hk : k ≤ wrap) : index wrap front k < wrap := by
  unfold index
  split <;> omega

@[simp] theorem index_zero (hf : front < wrap) : index wrap front 0 = front :=
  if_pos hf

/-- One turn leads back to the front. -/
theorem index_wrap : index wrap front wrap = front := by
  unfold index
  split <;> omega

theorem advance_lt (hf : front < wrap) : advance wrap front < wrap := by
  unfold advance
  split <;> omega

theorem advance_index (hf : front < wrap) (hk : k < wrap) :
    advance wrap (index wrap front k) = index wrap front (k + 1) := by
  unfold advance index
  split <;> split <;> split <;> omega

theorem index_advance (hk : k < wrap) :
    index wrap (advance wrap front) k = index wrap front (k + 1) := by
  unfold advance index
  split <;> split <;> split <;> omega

/-- Entries less than a turn apart have different slots. -/
theorem index_ne (hkl : k < l) (hl : l < wrap) :
    index wrap front k ≠ index wrap front l := by
  unfold index
  split <;> split <;> omega

/-! ## The queue in the buffer -/

/-- The buffer holds `xs`, oldest first. -/
structure Holds (wrap : Nat) (r : RingBuffer α) (xs : List α) : Prop where
  room : wrap ≤ r.slots.length
  front_lt : r.front < wrap
  fits : xs.length ≤ wrap
  len_eq : r.len = xs.length
  back_eq : r.back = index wrap r.front xs.length
  entry : ∀ k, k < xs.length → r.slots[index wrap r.front k]? = xs[k]?

theorem Holds.empty {size : Nat} (blank : α) (hw : 0 < wrap) (hs : wrap ≤ size) :
    Holds wrap (RingBuffer.empty size blank) [] where
  room := by simpa [RingBuffer.empty] using hs
  front_lt := hw
  fits := Nat.zero_le _
  len_eq := rfl
  back_eq := (index_zero hw).symm
  entry k hk := absurd hk (Nat.not_lt_zero k)

variable {r : RingBuffer α} {x : α} {xs : List α}

/-- `x` is one of the entries. -/
def Has (wrap : Nat) (r : RingBuffer α) (x : α) : Prop :=
  ∃ k : Nat, k < r.len ∧ r.slots[index wrap r.front k]? = some x

theorem Holds.has (h : Holds wrap r xs) : r.Has wrap x ↔ x ∈ xs := by
  unfold Has
  rw [h.len_eq, List.mem_iff_getElem?]
  constructor
  · rintro ⟨k, hk, hx⟩
    rw [h.entry k (Int.ofNat_lt.mp hk)] at hx
    exact ⟨k, hx⟩
  · rintro ⟨k, hx⟩
    obtain ⟨hk, -⟩ := List.getElem?_eq_some_iff.mp hx
    exact ⟨k, Int.ofNat_lt.mpr hk, (h.entry k hk).trans hx⟩

/-- What stands at the front is the oldest entry. -/
theorem Holds.peek (h : Holds wrap r (x :: xs)) : r.peek = some x := by
  have hfirst := h.entry 0 (Nat.succ_pos _)
  rw [index_zero h.front_lt] at hfirst
  exact hfirst

theorem Holds.back_lt (h : Holds wrap r xs) : r.back < wrap := by
  rw [h.back_eq]
  exact index_lt h.front_lt h.fits

/-- While fewer than `wrap` entries are held, one more goes behind them. -/
theorem Holds.push (h : Holds wrap r xs) (hlt : xs.length < wrap) (x : α) :
    Holds wrap (r.push wrap x) (xs ++ [x]) where
  room := by simpa [RingBuffer.push] using h.room
  front_lt := h.front_lt
  fits := by simpa using Nat.succ_le_of_lt hlt
  len_eq := by simp [h.len_eq]
  back_eq := by
    show advance wrap r.back = _
    rw [h.back_eq, advance_index h.front_lt hlt, List.length_append]
    rfl
  entry k hk := by
    show (r.slots.set r.back x)[index wrap r.front k]? = _
    rw [List.length_append, List.length_singleton] at hk
    rcases Nat.lt_succ_iff_lt_or_eq.mp hk with hold | rfl
    · have hne : r.back ≠ index wrap r.front k := by
        rw [h.back_eq]
        exact (index_ne hold hlt).symm
      rw [List.getElem?_set_ne hne, h.entry k hold, List.getElem?_append_left hold]
    · have hback : r.back < r.slots.length := Nat.lt_of_lt_of_le h.back_lt h.room
      rw [← h.back_eq, List.getElem?_set_self hback, List.getElem?_concat_length]

/-- Dropping the front leaves the other entries. -/
theorem Holds.pop (h : Holds wrap r (x :: xs)) (blank : α) :
    Holds wrap (r.pop wrap blank) xs where
  room := by simpa [RingBuffer.pop] using h.room
  front_lt := advance_lt h.front_lt
  fits := Nat.le_of_succ_le h.fits
  len_eq := by simp [h.len_eq]
  back_eq := by
    show r.back = index wrap (advance wrap r.front) xs.length
    rw [index_advance h.fits, h.back_eq, List.length_cons]
  entry k hk := by
    show (r.slots.set r.front blank)[index wrap (advance wrap r.front) k]? = _
    have hlt : k + 1 < wrap := Nat.lt_of_lt_of_le (Nat.succ_lt_succ hk) h.fits
    have hne : r.front ≠ index wrap r.front (k + 1) := by
      have hzero : index wrap r.front 0 ≠ index wrap r.front (k + 1) :=
        index_ne (Nat.succ_pos k) hlt
      rwa [index_zero h.front_lt] at hzero
    rw [index_advance (by omega), List.getElem?_set_ne hne,
      h.entry (k + 1) (Nat.succ_lt_succ hk), List.getElem?_cons_succ]

/-- With `wrap` entries held, one more is stored over the oldest. -/
theorem Holds.push_full (h : Holds wrap r xs) (hfull : xs.length = wrap) (x : α) :
    (r.push wrap x).peek = some x := by
  have hback : r.back = r.front := by rw [h.back_eq, hfull, index_wrap]
  show (r.slots.set r.back x)[r.front]? = some x
  rw [hback, List.getElem?_set_self (Nat.lt_of_lt_of_le h.front_lt h.room)]

/-! ## Any buffer -/

/-- The front is a slot and the length a length, whatever the buffer has lost. -/
structure Within (wrap : Nat) (r : RingBuffer α) : Prop where
  room : wrap ≤ r.slots.length
  front_lt : r.front < wrap
  len_nonneg : 0 ≤ r.len

theorem Within.empty {size : Nat} (blank : α) (hw : 0 < wrap) (hs : wrap ≤ size) :
    (RingBuffer.empty size blank).Within wrap where
  room := by simpa [RingBuffer.empty] using hs
  front_lt := hw
  len_nonneg := Int.le_refl 0

theorem Within.push (h : r.Within wrap) (x : α) : (r.push wrap x).Within wrap where
  room := by simpa [RingBuffer.push] using h.room
  front_lt := h.front_lt
  len_nonneg := Int.add_nonneg h.len_nonneg (by decide)

theorem Within.pop (h : r.Within wrap) (hlen : 0 < r.len) (blank : α) :
    (r.pop wrap blank).Within wrap where
  room := by simpa [RingBuffer.pop] using h.room
  front_lt := advance_lt h.front_lt
  len_nonneg := Int.sub_nonneg_of_le hlen

end RingBuffer
