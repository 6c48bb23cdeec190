import Mathlib.Algebra.BigOperators.Group.List.Basic
import Mathlib.Algebra.Order.Group.Abs

/-!
# Accumulators

A variable that amounts are added to, one after the other, and that stores of every sum
what its type can hold.

- `Wraps store`: to store a sum, it is enough to know what was stored of its first term.
- `accumulate_eq`: such a variable holds what it would store of the exact total.
- `accumulate_exact`: that is the exact total as long as there are few enough amounts.
-/

namespace Accumulator

universe u

section Wrapping

variable {G : Type u} [AddMonoid G] {store : G → G}

/-- Storing in the middle of a sum makes no difference to what is stored of it. -/
def Wraps (store : G → G) : Prop :=
  ∀ x y, store (store x + y) = store (x + y)

/-- The variable after the amounts have been added to it. -/
def accumulate (store : G → G) (x : G) (amounts : List G) : G :=
  amounts.foldl (fun x d => store (x + d)) x

/-- **The variable holds what it stores of the exact total.** -/
theorem accumulate_eq (h : Wraps store) (x : G) (amounts : List G) :
    accumulate store (store x) amounts = store (x + amounts.sum) := by
  induction amounts generalizing x with
  | nil =>
    rw [List.sum_nil, add_zero]
    rfl
  | cons d amounts ih =>
    rw [List.sum_cons, ← add_assoc, ← ih (x + d), ← h x d]
    rfl

end Wrapping

section Bounds

variable {G : Type u} [AddCommGroup G] [LinearOrder G] [IsOrderedAddMonoid G] {store : G → G}
  {m : G} {amounts : List G}

/-- A total of amounts of bounded size. -/
theorem abs_sum_le (h : ∀ d ∈ amounts, |d| ≤ m) : |amounts.sum| ≤ amounts.length • m := by
  induction amounts with
  | nil => simp
  | cons d amounts ih =>
    rw [List.sum_cons, List.length_cons, succ_nsmul, add_comm (_ • m)]
    exact (abs_add_le _ _).trans (add_le_add (h d List.mem_cons_self)
      (ih fun d' hd' => h d' (List.mem_cons_of_mem _ hd')))

/-- **While the amounts are few enough, it is the exact total.** -/
theorem accumulate_exact {b : G} (hstore : ∀ x, |x| ≤ b → store x = x) (hw : Wraps store)
    (h : ∀ d ∈ amounts, |d| ≤ m) (hb : amounts.length • m ≤ b) :
    accumulate store (store 0) amounts = amounts.sum := by
  rw [accumulate_eq hw, zero_add]
  exact hstore _ ((abs_sum_le h).trans hb)

end Bounds

end Accumulator
