import Mathlib.Data.List.Sort
import Mathlib.Algebra.BigOperators.Group.List.Basic
import Mathlib.Algebra.Order.Group.Int
import Mathlib.Tactic.Linarith

/-!
# Filling a demand from offers in priority order

A demand of `q` units is served from a list of offers kept in order of age,
oldest first. Two descriptions of the same service are given and connected.

- **Declarative.** `queue` selects the admissible offers and sorts them by rank
  and, at equal rank, by age; `fill` walks that queue and takes
  `min remaining available` from each offer until nothing remains; `settle` is
  what becomes of the offers.
- **Operational.** `Serves` is a loop that searches the unsorted list for its
  first best admissible offer, takes from it, and starts again on what is left.

`Serves.eq_fill` says that the loop performs exactly the fills of the sorted
queue, `Serves.residual` that the demand it leaves is the demand minus those
fills, and `Serves.eq_settle` that the offers it leaves are the ones `settle`
describes: exhausted offers are gone, an offer that was only partly used keeps
its position with the reduced quantity, the others are untouched.

The rank takes values in any linear order; ages are natural numbers, the older
offer having the larger one; `reduce a n` is offer `a` with quantity `n`.
-/

namespace PriorityFill

universe u v

variable {α : Type u} {β : Type v} [LinearOrder β]

/-! ## The queue -/

section Queue

variable (rank : α → β) (age : α → Nat)

/-- Offer `a` is served no later than offer `b`: better rank, or the same rank
and at least as old. -/
def Prior (a b : α) : Prop :=
  rank a < rank b ∨ rank a = rank b ∧ age b ≤ age a

instance : DecidableRel (Prior rank age) := fun _ _ => inferInstanceAs (Decidable (_ ∨ _))

instance : Std.Total (Prior rank age) where
  total a b := by
    rcases lt_trichotomy (rank a) (rank b) with h | h | h
    · exact .inl (.inl h)
    · rcases Nat.le_total (age a) (age b) with h' | h'
      · exact .inr (.inr ⟨h.symm, h'⟩)
      · exact .inl (.inr ⟨h, h'⟩)
    · exact .inr (.inl h)

instance : IsTrans α (Prior rank age) where
  trans a b c := by
    rintro (hab | ⟨hab, hab'⟩) (hbc | ⟨hbc, hbc'⟩)
    · exact .inl (hab.trans hbc)
    · exact .inl (hbc ▸ hab)
    · exact .inl (hab ▸ hbc)
    · exact .inr ⟨hab.trans hbc, hbc'.trans hab'⟩

/-- The admissible offers in the order in which they are to be served. -/
def queue (p : α → Bool) (offers : List α) : List α :=
  (offers.filter p).insertionSort (Prior rank age)

/-- Offers listed by age, oldest first. -/
def Aged (offers : List α) : Prop :=
  offers.Pairwise fun a b => age b < age a

variable {rank age} {p : α → Bool}

/-- In an aged list an offer is determined by its age. -/
theorem Aged.eq_of_age_eq {offers : List α} (h : Aged age offers) {a b : α}
    (ha : a ∈ offers) (hb : b ∈ offers) (hab : age a = age b) : a = b := by
  have hpw : offers.Pairwise fun a b => age a = age b → a = b :=
    h.imp fun hlt heq => absurd heq (Nat.ne_of_lt hlt).symm
  have hwp : offers.Pairwise fun a b => age b = age a → b = a :=
    h.imp fun hlt heq => absurd heq (Nat.ne_of_lt hlt)
  exact hpw.forall_of_forall_of_flip (fun _ _ _ => rfl) hwp ha hb hab

theorem Aged.nodup {offers : List α} (h : Aged age offers) : offers.Nodup :=
  h.imp fun hlt heq => absurd (congrArg age heq) (Nat.ne_of_lt hlt).symm

theorem Aged.sublist {offers offers' : List α} (h : Aged age offers)
    (hs : offers'.Sublist offers) : Aged age offers' :=
  List.Pairwise.sublist hs h

theorem mem_queue {offers : List α} {a : α} :
    a ∈ queue rank age p offers ↔ a ∈ offers ∧ p a = true := by
  rw [queue, List.mem_insertionSort, List.mem_filter]

theorem queue_pairwise (offers : List α) :
    (queue rank age p offers).Pairwise (Prior rank age) :=
  List.pairwise_insertionSort _ _

theorem queue_eq_nil {offers : List α} (h : ∀ a ∈ offers, p a = false) :
    queue rank age p offers = [] := by
  have hf : offers.filter p = [] := List.filter_eq_nil_iff.mpr fun a ha => by simp [h a ha]
  rw [queue, hf]
  rfl

/-- `c` is the first best admissible offer: every offer before it is strictly
worse, no offer after it is better. -/
structure FirstBest (rank : α → β) (p : α → Bool) (offers : List α) (c : α)
    (pre post : List α) : Prop where
  split : offers = pre ++ c :: post
  admissible : p c = true
  before : ∀ a ∈ pre, rank c < rank a
  after : ∀ a ∈ post, rank c ≤ rank a

theorem FirstBest.mem {offers pre post : List α} {c : α}
    (hb : FirstBest rank p offers c pre post) : c ∈ offers := by
  rw [hb.split]
  exact List.mem_append_right _ List.mem_cons_self

theorem FirstBest.sublist {offers pre post : List α} {c : α}
    (hb : FirstBest rank p offers c pre post) : (pre ++ post).Sublist offers := by
  rw [hb.split]
  exact (List.Sublist.refl pre).append (List.sublist_cons_self c post)

/-- In an aged list the first best offer occurs once. -/
theorem FirstBest.not_mem {offers pre post : List α} {c : α}
    (hb : FirstBest rank p offers c pre post) (ha : Aged age offers) : c ∉ pre ++ post := by
  have hnd := ha.nodup
  rw [hb.split, List.nodup_middle] at hnd
  exact (List.nodup_cons.mp hnd).1

/-- No offer of the list is better than its first best. -/
theorem FirstBest.rank_le {offers pre post : List α} {c a : α}
    (hb : FirstBest rank p offers c pre post) (ha : a ∈ offers) : rank c ≤ rank a := by
  rw [hb.split] at ha
  rcases List.mem_append.mp ha with h | h
  · exact (hb.before a h).le
  · rcases List.mem_cons.mp h with rfl | h
    · exact le_refl _
    · exact hb.after a h

/-- In an aged list the first best offer is the head of the queue. -/
theorem FirstBest.queue_eq {offers pre post : List α} {c : α}
    (hb : FirstBest rank p offers c pre post) (ha : Aged age offers) :
    queue rank age p offers = c :: queue rank age p (pre ++ post) := by
  obtain ⟨rfl, hc, hpre, hpost⟩ := hb
  have hold : ∀ a ∈ post, age a < age c := by
    intro a hin
    have h := List.pairwise_append.mp ha
    exact (List.pairwise_cons.mp h.2.1).1 a hin
  refine @List.Perm.eq_of_pairwise _ (Prior rank age) _ _ ?_ (queue_pairwise _) ?_ ?_
  · -- two offers of the same rank and age are the same element of the list
    intro a b hain hbin hab hba
    have hain' : a ∈ pre ++ c :: post := (mem_queue.mp hain).1
    have hbin' : b ∈ pre ++ c :: post := by
      rcases List.mem_cons.mp hbin with rfl | hbin
      · simp
      · have := (mem_queue.mp hbin).1
        simp only [List.mem_append, List.mem_cons] at this ⊢
        tauto
    have hage : age a = age b := by
      rcases hab with h | ⟨h, h'⟩ <;> rcases hba with k | ⟨k, k'⟩
      · exact absurd (h.trans k) (lt_irrefl _)
      · exact absurd (k ▸ h) (lt_irrefl _)
      · exact absurd (h ▸ k) (lt_irrefl _)
      · exact Nat.le_antisymm k' h'
    exact ha.eq_of_age_eq hain' hbin' hage
  · refine List.pairwise_cons.mpr ⟨fun b hbin => ?_, queue_pairwise _⟩
    rcases List.mem_append.mp (mem_queue.mp hbin).1 with h | h
    · exact .inl (hpre b h)
    · rcases lt_or_eq_of_le (hpost b h) with h' | h'
      · exact .inl h'
      · exact .inr ⟨h', (hold b h).le⟩
  · have hperm : ((pre ++ c :: post).filter p).Perm (c :: (pre ++ post).filter p) := by
      rw [List.filter_append, List.filter_cons_of_pos hc, List.filter_append]
      exact List.perm_middle
    exact (List.perm_insertionSort _ _).trans
      (hperm.trans ((List.perm_insertionSort _ _).symm.cons c))

end Queue

/-! ## Fills, residual and settlement -/

section Fill

variable (quantity : α → Int) (reduce : α → Int → α)

/-- Serve `q` units from `offers` in the given order. -/
def fill : Int → List α → List (α × Int)
  | _, [] => []
  | q, a :: rest =>
    if q ≤ 0 then [] else
      (a, min q (quantity a)) :: fill (q - min q (quantity a)) rest

/-- What `fills` took in all. -/
def total (fills : List (α × Int)) : Int :=
  (fills.map Prod.snd).sum

/-- What `fills` took from offer `a`. -/
def taken [DecidableEq α] (fills : List (α × Int)) (a : α) : Int :=
  total (fills.filter fun f => f.1 = a)

/-- What becomes of an offer once `fills` have been executed: it disappears when
nothing is left of it. -/
def remaining [DecidableEq α] (fills : List (α × Int)) (a : α) : Option α :=
  if quantity a - taken fills a = 0 then none
  else some (reduce a (quantity a - taken fills a))

/-- What becomes of a list of offers. -/
def settle [DecidableEq α] (fills : List (α × Int)) (offers : List α) : List α :=
  offers.filterMap (remaining quantity reduce fills)

variable {quantity reduce}

@[simp] theorem total_nil : total ([] : List (α × Int)) = 0 := rfl

@[simp] theorem total_cons (a : α) (n : Int) (fs : List (α × Int)) :
    total ((a, n) :: fs) = n + total fs := by
  simp [total]

@[simp] theorem taken_nil [DecidableEq α] (a : α) : taken [] a = 0 := rfl

theorem taken_cons [DecidableEq α] (a b : α) (n : Int) (fs : List (α × Int)) :
    taken ((a, n) :: fs) b = (if a = b then n else 0) + taken fs b := by
  by_cases h : a = b
  · simp [taken, h]
  · simp [taken, h]

theorem taken_eq_zero [DecidableEq α] {fs : List (α × Int)} {a : α} (h : ∀ f ∈ fs, f.1 ≠ a) :
    taken fs a = 0 := by
  have hf : (fs.filter fun f => f.1 = a) = [] :=
    List.filter_eq_nil_iff.mpr fun f hin => by simpa using h f hin
  rw [taken, hf, total_nil]

theorem taken_single_of_ne [DecidableEq α] {a b : α} {n : Int} (h : a ≠ b) :
    taken [(a, n)] b = 0 := by
  rw [taken_cons, if_neg h, taken_nil, add_zero]

theorem settle_append [DecidableEq α] (fs : List (α × Int)) (l l' : List α) :
    settle quantity reduce fs (l ++ l') =
      settle quantity reduce fs l ++ settle quantity reduce fs l' :=
  List.filterMap_append

/-- Offers that no fill touches stay as they are. -/
theorem settle_untouched [DecidableEq α] {fs : List (α × Int)} {offers : List α}
    (hpos : ∀ a ∈ offers, 0 < quantity a) (hred : ∀ a, reduce a (quantity a) = a)
    (h : ∀ a ∈ offers, taken fs a = 0) : settle quantity reduce fs offers = offers := by
  have hmap : settle quantity reduce fs offers = offers.filterMap some :=
    List.filterMap_congr fun a hin => by
      rw [remaining, h a hin, sub_zero, if_neg (hpos a hin).ne', hred]
  rw [hmap, List.filterMap_some]

theorem fill_of_nonpos {q : Int} (hq : q ≤ 0) : ∀ offers : List α, fill quantity q offers = []
  | [] => rfl
  | _ :: _ => if_pos hq

theorem fill_cons {q : Int} (hq : 0 < q) (a : α) (rest : List α) :
    fill quantity q (a :: rest) =
      (a, min q (quantity a)) :: fill quantity (q - min q (quantity a)) rest :=
  if_neg (not_le.mpr hq)

/-- Fills come from the offers they are taken from. -/
theorem mem_of_mem_fill {f : α × Int} :
    ∀ {q : Int} {offers : List α}, f ∈ fill quantity q offers → f.1 ∈ offers
  | _, [], h => absurd h List.not_mem_nil
  | q, a :: rest, h => by
    by_cases hq : q ≤ 0
    · rw [fill_of_nonpos hq] at h
      exact absurd h List.not_mem_nil
    · rw [fill_cons (not_le.mp hq)] at h
      rcases List.mem_cons.mp h with rfl | h
      · exact List.mem_cons_self
      · exact List.mem_cons_of_mem _ (mem_of_mem_fill h)

end Fill

/-! ## The searching loop -/

section Serves

variable {rank : α → β} {age : α → Nat} {p : α → Bool}
  {quantity : α → Int} {reduce : α → Int → α}

/-- The loop that serves a demand by repeated search: the demand, the offers,
the fills it performs, the demand left and the offers left. -/
inductive Serves (rank : α → β) (p : α → Bool) (quantity : α → Int)
    (reduce : α → Int → α) : Int → List α → List (α × Int) → Int → List α → Prop where
  /-- No admissible offer is left. -/
  | stop {q : Int} {offers : List α} (hq : 0 < q) (hno : ∀ a ∈ offers, p a = false) :
      Serves rank p quantity reduce q offers [] q offers
  /-- The best offer covers the demand and is used up by it. -/
  | exact {offers pre post : List α} {c : α} (hb : FirstBest rank p offers c pre post) :
      Serves rank p quantity reduce (quantity c) offers [(c, quantity c)] 0 (pre ++ post)
  /-- The best offer covers the demand and stays with what it has left. -/
  | part {q : Int} {offers pre post : List α} {c : α} (hq : 0 < q)
      (hlt : q < quantity c) (hb : FirstBest rank p offers c pre post) :
      Serves rank p quantity reduce q offers [(c, q)] 0
        (pre ++ reduce c (quantity c - q) :: post)
  /-- The best offer is used up and the demand is not met yet. -/
  | more {q r : Int} {offers pre post left : List α} {c : α} {fs : List (α × Int)}
      (hlt : quantity c < q) (hb : FirstBest rank p offers c pre post)
      (hs : Serves rank p quantity reduce (q - quantity c) (pre ++ post) fs r left) :
      Serves rank p quantity reduce q offers ((c, quantity c) :: fs) r left

/-- **The loop performs the fills of the sorted queue.** -/
theorem Serves.eq_fill {q r : Int} {offers left : List α} {fs : List (α × Int)}
    (h : Serves rank p quantity reduce q offers fs r left) (ha : Aged age offers)
    (hpos : ∀ a ∈ offers, 0 < quantity a) :
    fs = fill quantity q (queue rank age p offers) := by
  induction h with
  | stop _ hno => rw [queue_eq_nil hno, fill]
  | exact hb =>
    -- the fill takes all of the offer, and nothing is left to serve
    rw [hb.queue_eq ha, fill_cons (hpos _ hb.mem), min_self, sub_self, fill_of_nonpos (le_refl 0)]
  | part hq hlt hb =>
    rw [hb.queue_eq ha, fill_cons hq, min_eq_left hlt.le, sub_self, fill_of_nonpos (le_refl 0)]
  | more hlt hb _ ih =>
    -- the rest of the queue is the queue of the offers that are left
    rw [hb.queue_eq ha, fill_cons ((hpos _ hb.mem).trans hlt), min_eq_right hlt.le,
      ih (ha.sublist hb.sublist) fun a hin => hpos a (hb.sublist.subset hin)]

/-- **The demand left is the demand minus the fills**; it is positive unless the
demand was met. -/
theorem Serves.residual {q r : Int} {offers left : List α} {fs : List (α × Int)}
    (h : Serves rank p quantity reduce q offers fs r left) :
    r = q - total fs ∧ 0 ≤ r := by
  induction h with
  | stop hq _ => simp [hq.le]
  | exact _ => simp
  | part _ _ _ => simp
  | more _ _ _ ih =>
    obtain ⟨hr, hpos⟩ := ih
    exact ⟨by rw [hr, total_cons]; omega, hpos⟩

/-- **The offers left are the settled ones.** -/
theorem Serves.eq_settle [DecidableEq α] {q r : Int} {offers left : List α} {fs : List (α × Int)}
    (h : Serves rank p quantity reduce q offers fs r left) (ha : Aged age offers)
    (hpos : ∀ a ∈ offers, 0 < quantity a) (hred : ∀ a, reduce a (quantity a) = a) :
    left = settle quantity reduce fs offers := by
  induction h with
  | stop _ _ => exact (settle_untouched hpos hred fun _ _ => taken_nil _).symm
  | @exact offers pre post c hb =>
    have hc := hb.not_mem ha
    obtain ⟨rfl, -, -, -⟩ := hb
    have hdrop : remaining quantity reduce [(c, quantity c)] c = none := by
      rw [remaining, taken_cons, if_pos rfl, taken_nil, add_zero, sub_self, if_pos rfl]
    rw [settle, List.filterMap_append, List.filterMap_cons_none hdrop, ← List.filterMap_append]
    refine (settle_untouched (fun a hin => hpos a (by simp at hin ⊢; tauto)) hred fun a hin =>
      taken_single_of_ne ?_).symm
    rintro rfl
    exact hc hin
  | @part q offers pre post c hq hlt hb =>
    have hc := hb.not_mem ha
    obtain ⟨rfl, -, -, -⟩ := hb
    -- the offers before and after `c` keep their places around it
    have hpre : settle quantity reduce [(c, q)] pre = pre :=
      settle_untouched (fun a hin => hpos a (List.mem_append_left _ hin)) hred fun a hin =>
        taken_single_of_ne fun h => hc (h ▸ List.mem_append_left _ hin)
    have hpost : settle quantity reduce [(c, q)] post = post :=
      settle_untouched
        (fun a hin => hpos a (List.mem_append_right _ (List.mem_cons_of_mem _ hin))) hred
        fun a hin => taken_single_of_ne fun h => hc (h ▸ List.mem_append_right _ hin)
    have hcr : remaining quantity reduce [(c, q)] c = some (reduce c (quantity c - q)) := by
      rw [remaining, taken_cons, if_pos rfl, taken_nil, add_zero, if_neg (by omega)]
    rw [settle_append, hpre, settle, List.filterMap_cons_some hcr]
    exact congrArg _ (congrArg _ hpost.symm)
  | @more q r offers pre post left c fs hlt hb hs ih =>
    have hc := hb.not_mem ha
    have hsub := hb.sublist
    obtain ⟨rfl, -, -, -⟩ := hb
    have hpos' : ∀ a ∈ pre ++ post, 0 < quantity a := fun a hin => hpos a (hsub.subset hin)
    have hfs := hs.eq_fill (ha.sublist hsub) hpos'
    -- the later fills never come back to `c`
    have htc : taken fs c = 0 := taken_eq_zero fun f hin heq => by
      rw [hfs] at hin
      have := (mem_queue.mp (mem_of_mem_fill hin)).1
      exact hc (heq ▸ this)
    have hrest : settle quantity reduce ((c, quantity c) :: fs) (pre ++ post) =
        settle quantity reduce fs (pre ++ post) :=
      List.filterMap_congr fun a hin => by
        simp only [remaining, taken_cons, if_neg (fun h : c = a => hc (h ▸ hin)), zero_add]
    rw [ih (ha.sublist hsub) hpos', ← hrest, settle, settle, List.filterMap_append,
      List.filterMap_append, List.filterMap_cons_none]
    simp [remaining, taken_cons, htc]

end Serves

end PriorityFill
