import PeExchange.Lib.PriorityFill

/-!
# Offers kept in order of service

The list a demand is served from can be searched each time, or be kept sorted so
that its head is always next. This file has the sorted list and connects it to
the search of `PriorityFill`.

- `arrange` sorts a list kept by age: best rank first, and the oldest first at the
  same rank.
- `enqueue` inserts behind everything that is served no later. `arrange_concat`:
  a newcomer at the end of the list is enqueued.
- `arrange_middle`: the first best offer comes to the front; `filter_arrange`:
  offers that leave do not disturb the others.
- `consume` serves a demand from the front. `consume_of_serves`: it does in one pass
  what repeated search does on the unsorted list, fills, remainder and offers left.
-/

namespace SortedQueue

open PriorityFill

universe u v

variable {α : Type u} {β : Type v} [LinearOrder β]

/-! ## The sorted list -/

section Arrange

variable (rank : α → β)

/-- The offers in order of service. -/
def arrange (offers : List α) : List α :=
  offers.insertionSort fun a b => rank a ≤ rank b

/-- Behind everything that is served no later. -/
def enqueue (a : α) : List α → List α
  | [] => [a]
  | b :: l => if rank b ≤ rank a then b :: enqueue a l else a :: b :: l

variable {rank}

theorem mem_arrange {offers : List α} {a : α} : a ∈ arrange rank offers ↔ a ∈ offers :=
  List.mem_insertionSort _

theorem arrange_pairwise (offers : List α) :
    (arrange rank offers).Pairwise fun a b => rank a ≤ rank b := by
  have : Std.Total fun a b : α => rank a ≤ rank b := ⟨fun a b => le_total (rank a) (rank b)⟩
  have : IsTrans α fun a b : α => rank a ≤ rank b := ⟨fun _ _ _ => le_trans⟩
  exact List.pairwise_insertionSort _ _

/-- An older offer stays in front of a newcomer of the same rank. -/
theorem orderedInsert_enqueue (a b : α) (l : List α) :
    (enqueue rank a l).orderedInsert (fun a b => rank a ≤ rank b) b =
      enqueue rank a (l.orderedInsert (fun a b => rank a ≤ rank b) b) := by
  induction l with
  | nil =>
    rw [enqueue, List.orderedInsert_nil, List.orderedInsert_cons, enqueue]
    split
    · rfl
    · rfl
  | cons c l ih =>
    rw [enqueue, List.orderedInsert_cons]
    by_cases hca : rank c ≤ rank a
    · rw [if_pos hca, List.orderedInsert_cons]
      by_cases hbc : rank b ≤ rank c
      · rw [if_pos hbc, if_pos hbc, enqueue, if_pos (hbc.trans hca), enqueue, if_pos hca]
      · rw [if_neg hbc, if_neg hbc, enqueue, if_pos hca, ih]
    · -- the newcomer is served before `c`
      rw [if_neg hca, List.orderedInsert_cons, List.orderedInsert_cons]
      by_cases hba : rank b ≤ rank a
      · rw [if_pos hba, if_pos (hba.trans (not_le.mp hca).le), enqueue, if_pos hba, enqueue,
          if_neg hca]
      · rw [if_neg hba]
        by_cases hbc : rank b ≤ rank c
        · rw [if_pos hbc, enqueue, if_neg hba]
        · rw [if_neg hbc, enqueue, if_neg hca]

/-- **A newcomer at the end of the list is enqueued.** -/
theorem arrange_concat (offers : List α) (a : α) :
    arrange rank (offers ++ [a]) = enqueue rank a (arrange rank offers) := by
  induction offers with
  | nil => rfl
  | cons b l ih =>
    show (arrange rank (l ++ [a])).orderedInsert _ b = _
    rw [ih, orderedInsert_enqueue]
    rfl

/-- **The first best offer comes to the front.** -/
theorem arrange_middle {pre post : List α} {c : α} (hpre : ∀ a ∈ pre, rank c < rank a)
    (hpost : ∀ a ∈ post, rank c ≤ rank a) :
    arrange rank (pre ++ c :: post) = c :: arrange rank (pre ++ post) := by
  induction pre with
  | nil => exact List.insertionSort_cons_of_forall_rel _ hpost
  | cons b pre ih =>
    show (arrange rank (pre ++ c :: post)).orderedInsert _ b = _
    rw [ih fun a ha => hpre a (List.mem_cons_of_mem _ ha), List.orderedInsert_cons,
      if_neg (not_le.mpr (hpre b List.mem_cons_self))]
    rfl

/-- Inserting an offer that is left out does nothing. -/
theorem filter_orderedInsert_of_neg {p : α → Bool} {a : α} (ha : p a = false) (l : List α) :
    (l.orderedInsert (fun a b => rank a ≤ rank b) a).filter p = l.filter p := by
  induction l with
  | nil => simp [ha]
  | cons b l ih =>
    rw [List.orderedInsert_cons]
    split
    · rw [List.filter_cons_of_neg (by simp [ha])]
    · rw [List.filter_cons, List.filter_cons, ih]

theorem filter_orderedInsert_of_pos {p : α → Bool} {a : α} (ha : p a = true) {l : List α}
    (hl : l.Pairwise fun a b => rank a ≤ rank b) :
    (l.orderedInsert (fun a b => rank a ≤ rank b) a).filter p =
      (l.filter p).orderedInsert (fun a b => rank a ≤ rank b) a := by
  induction l with
  | nil => simp [ha]
  | cons b l ih =>
    obtain ⟨hb, hl⟩ := List.pairwise_cons.mp hl
    rw [List.orderedInsert_cons]
    by_cases hab : rank a ≤ rank b
    · -- everything from `b` on is served after `a`
      rw [if_pos hab, List.filter_cons_of_pos ha]
      cases hf : (b :: l).filter p with
      | nil => rfl
      | cons c l' =>
        have hc : c ∈ (b :: l).filter p := by
          rw [hf]
          exact List.mem_cons_self
        have hbc : rank b ≤ rank c := by
          rcases List.mem_cons.mp (List.mem_filter.mp hc).1 with rfl | hc
          · exact le_refl _
          · exact hb c hc
        rw [List.orderedInsert_cons, if_pos (hab.trans hbc)]
    · rw [if_neg hab, List.filter_cons, List.filter_cons, ih hl]
      split
      · rw [List.orderedInsert_cons, if_neg hab]
      · rfl

/-- **Offers that leave do not disturb the others.** -/
theorem filter_arrange (p : α → Bool) (offers : List α) :
    (arrange rank offers).filter p = arrange rank (offers.filter p) := by
  induction offers with
  | nil => rfl
  | cons a l ih =>
    show ((arrange rank l).orderedInsert _ a).filter p = _
    cases ha : p a with
    | false => rw [filter_orderedInsert_of_neg ha, ih, List.filter_cons_of_neg (by simp [ha])]
    | true =>
      rw [filter_orderedInsert_of_pos ha (arrange_pairwise l), ih, List.filter_cons_of_pos ha]
      rfl

end Arrange

/-! ## Serving from the front -/

section Consume

variable (p : α → Bool) (quantity : α → Int) (reduce : α → Int → α)

/-- Serve `q` units from the front of a sorted list while its head is admissible:
the fills, what is left of the demand, and the offers left. -/
def consume : Int → List α → List (α × Int) × Int × List α
  | q, [] => ([], q, [])
  | q, a :: l =>
    if p a then
      if quantity a < q then
        ((a, quantity a) :: (consume (q - quantity a) l).1, (consume (q - quantity a) l).2)
      else if quantity a = q then ([(a, q)], 0, l)
      else ([(a, q)], 0, reduce a (quantity a - q) :: l)
    else ([], q, a :: l)

variable {p quantity reduce} {rank : α → β}

/-- Nothing is served when nothing is admissible. -/
theorem consume_of_none {q : Int} {l : List α} (h : ∀ a ∈ l, p a = false) :
    consume p quantity reduce q l = ([], q, l) := by
  cases l with
  | nil => rfl
  | cons a l => rw [consume, if_neg (by simp [h a List.mem_cons_self])]

/-- **One pass over the sorted list does what repeated search does.** -/
theorem consume_of_serves {q r : Int} {offers left : List α} {fs : List (α × Int)}
    (h : Serves rank p quantity reduce q offers fs r left)
    (hred : ∀ a n, rank (reduce a n) = rank a) :
    consume p quantity reduce q (arrange rank offers) = (fs, r, arrange rank left) := by
  induction h with
  | stop _ hno => exact consume_of_none fun a ha => hno a (mem_arrange.mp ha)
  | @exact offers pre post c hb =>
    rw [hb.split, arrange_middle hb.before hb.after, SortedQueue.consume, if_pos hb.admissible,
      if_neg (lt_irrefl _), if_pos rfl]
  | @part q offers pre post c _ hlt hb =>
    -- the reduced offer keeps its place
    have hkeep : arrange rank (pre ++ reduce c (quantity c - q) :: post) =
        reduce c (quantity c - q) :: arrange rank (pre ++ post) :=
      arrange_middle (fun a ha => by rw [hred]; exact hb.before a ha)
        fun a ha => by rw [hred]; exact hb.after a ha
    rw [hb.split, arrange_middle hb.before hb.after, SortedQueue.consume, if_pos hb.admissible,
      if_neg (not_lt.mpr hlt.le), if_neg hlt.ne', hkeep]
  | @more q r offers pre post left c fs hlt hb _ ih =>
    rw [hb.split, arrange_middle hb.before hb.after, SortedQueue.consume, if_pos hb.admissible,
      if_pos hlt, ih]

end Consume

end SortedQueue
