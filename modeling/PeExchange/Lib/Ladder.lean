import Mathlib.Algebra.BigOperators.Group.List.Basic
import Mathlib.Algebra.Order.Group.Int
import Mathlib.Algebra.Ring.Int.Defs
import Mathlib.Order.Basic

/-!
# Ladders: items aggregated by key

A ladder is a list in strictly descending order of a key, each of whose levels
shows the total weight and the number of the items with its key.

- `sumAt key w l k`: the total of `w` over the members of `l` with key `k`.
- `upsert`, `adjust`: changing one level in place. `sumAt_upsert` and
  `sumAt_adjust` say what they add to the totals, and both keep the order.
- `Aggregates`: the ladder shows the items. It is stated with totals on both
  sides, so adding and removing an item are two sums (`Aggregates.insert`,
  `Aggregates.remove`); `Aggregates.exists_level` and `Aggregates.level` are the
  reading: a level for each key that occurs, with the right numbers. There is only
  one such ladder (`Aggregates.unique`).

All weights are positive, so a level is empty exactly when its weight is 0.
-/

namespace Ladder

universe u v w

variable {α : Type u} {β : Type v} {κ : Type w} [LinearOrder κ]

/-! ## Totals -/

section SumAt

variable (key : α → κ) (weight : α → Int)

/-- The total weight of the members with key `k`. -/
def sumAt (l : List α) (k : κ) : Int :=
  ((l.filter fun a => key a = k).map weight).sum

variable {key weight}

@[simp] theorem sumAt_nil (k : κ) : sumAt key weight [] k = 0 := rfl

theorem sumAt_cons (a : α) (l : List α) (k : κ) :
    sumAt key weight (a :: l) k = (if key a = k then weight a else 0) + sumAt key weight l k := by
  by_cases h : key a = k
  · simp [sumAt, h]
  · simp [sumAt, h]

theorem sumAt_append (l l' : List α) (k : κ) :
    sumAt key weight (l ++ l') k = sumAt key weight l k + sumAt key weight l' k := by
  simp [sumAt]

/-- Taking a member out of a list. -/
theorem sumAt_middle (pre post : List α) (a : α) (k : κ) :
    sumAt key weight (pre ++ a :: post) k =
      sumAt key weight (pre ++ post) k + if key a = k then weight a else 0 := by
  rw [sumAt_append, sumAt_append, sumAt_cons]
  omega

theorem sumAt_eq_zero {l : List α} {k : κ} (h : ∀ a ∈ l, key a ≠ k) :
    sumAt key weight l k = 0 := by
  induction l with
  | nil => rfl
  | cons a l ih =>
    rw [sumAt_cons, if_neg (h a List.mem_cons_self),
      ih fun b hb => h b (List.mem_cons_of_mem _ hb)]
    rfl

theorem sumAt_nonneg {l : List α} (hpos : ∀ a ∈ l, 0 < weight a) (k : κ) :
    0 ≤ sumAt key weight l k := by
  induction l with
  | nil => exact le_refl 0
  | cons a l ih =>
    have ha := hpos a List.mem_cons_self
    have hl := ih fun b hb => hpos b (List.mem_cons_of_mem _ hb)
    rw [sumAt_cons]
    split <;> omega

/-- With positive weights the total tells whether a key occurs. -/
theorem sumAt_pos_iff {l : List α} (hpos : ∀ a ∈ l, 0 < weight a) {k : κ} :
    0 < sumAt key weight l k ↔ ∃ a ∈ l, key a = k := by
  constructor
  · intro h
    by_contra hno
    rw [sumAt_eq_zero fun a ha heq => hno ⟨a, ha, heq⟩] at h
    exact lt_irrefl _ h
  · rintro ⟨a, ha, rfl⟩
    obtain ⟨pre, post, rfl⟩ := List.append_of_mem ha
    have ha := hpos a ha
    have hrest : 0 ≤ sumAt key weight (pre ++ post) (key a) :=
      sumAt_nonneg (fun b hb => hpos b (by simp at hb ⊢; tauto)) _
    rw [sumAt_middle, if_pos rfl]
    omega

/-- With positive weights there are no more members than their total. -/
theorem sumAt_one_le {l : List α} (hpos : ∀ a ∈ l, 0 < weight a) (k : κ) :
    sumAt key (fun _ => 1) l k ≤ sumAt key weight l k := by
  induction l with
  | nil => exact le_refl 0
  | cons a l ih =>
    have ha := hpos a List.mem_cons_self
    have hl := ih fun b hb => hpos b (List.mem_cons_of_mem _ hb)
    rw [sumAt_cons, sumAt_cons]
    split <;> omega

end SumAt

/-! ## Descending lists -/

section Descending

variable (key : α → κ)

/-- Strictly descending in `key`. -/
def Descending (l : List α) : Prop :=
  l.Pairwise fun a b => key b < key a

/-- Change the level with key `k`, or make a new one at its place. -/
def upsert (k : κ) (fresh : α) (bump : α → α) : List α → List α
  | [] => [fresh]
  | a :: l =>
    if key a < k then fresh :: a :: l
    else if key a = k then bump a :: l
    else a :: upsert k fresh bump l

/-- Change or drop the level with key `k`. -/
def adjust (k : κ) (change : α → Option α) : List α → List α
  | [] => []
  | a :: l => if key a = k then (change a).toList ++ l else a :: adjust k change l

variable {key} {k : κ} {fresh : α} {bump : α → α} {change : α → Option α} {l : List α}

/-- In a descending list the total at a level's key is its own weight. -/
theorem Descending.sumAt_eq (h : Descending key l) (weight : α → Int) {a : α} (ha : a ∈ l) :
    sumAt key weight l (key a) = weight a := by
  obtain ⟨pre, post, rfl⟩ := List.append_of_mem ha
  have hpw := List.pairwise_append.mp h
  have hzero : sumAt key weight (pre ++ post) (key a) = 0 := by
    refine sumAt_eq_zero fun b hb => ?_
    rcases List.mem_append.mp hb with hb | hb
    · exact (hpw.2.2 b hb a List.mem_cons_self).ne'
    · exact ((List.pairwise_cons.mp hpw.2.1).1 b hb).ne
  rw [sumAt_middle, if_pos rfl, hzero, zero_add]

/-- Only the change of the level with key `k` matters. -/
theorem upsert_congr {bump' : α → α} (h : ∀ a ∈ l, key a = k → bump a = bump' a) :
    upsert key k fresh bump l = upsert key k fresh bump' l := by
  induction l with
  | nil => rfl
  | cons a l ih =>
    rw [upsert, upsert, ih fun b hb => h b (List.mem_cons_of_mem _ hb)]
    split
    · rfl
    · split
      · rename_i ha
        rw [h a List.mem_cons_self ha]
      · rfl

theorem adjust_congr {change' : α → Option α}
    (h : ∀ a ∈ l, key a = k → change a = change' a) :
    adjust key k change l = adjust key k change' l := by
  induction l with
  | nil => rfl
  | cons a l ih =>
    rw [adjust, adjust, ih fun b hb => h b (List.mem_cons_of_mem _ hb)]
    split
    · rename_i ha
      rw [h a List.mem_cons_self ha]
    · rfl

/-- Without a level of key `k` there is nothing to change. -/
theorem adjust_of_forall_ne (h : ∀ a ∈ l, key a ≠ k) : adjust key k change l = l := by
  induction l with
  | nil => rfl
  | cons a l ih =>
    rw [adjust, if_neg (h a List.mem_cons_self), ih fun b hb => h b (List.mem_cons_of_mem _ hb)]

/-- The first level of key `k` is the one that is changed. -/
theorem adjust_middle {a : α} {l' : List α} (h : ∀ b ∈ l, key b ≠ k) (ha : key a = k) :
    adjust key k change (l ++ a :: l') = l ++ ((change a).toList ++ l') := by
  induction l with
  | nil => exact if_pos ha
  | cons b l ih =>
    rw [List.cons_append, adjust, if_neg (h b List.mem_cons_self),
      ih fun c hc => h c (List.mem_cons_of_mem _ hc)]
    rfl

theorem mem_upsert {b : α} (hb : b ∈ upsert key k fresh bump l) :
    b = fresh ∨ b ∈ l ∨ ∃ a ∈ l, b = bump a := by
  induction l with
  | nil => exact .inl (List.mem_singleton.mp hb)
  | cons a l ih =>
    rw [upsert] at hb
    split at hb
    · rcases List.mem_cons.mp hb with rfl | hb
      · exact .inl rfl
      · exact .inr (.inl hb)
    · split at hb
      · rcases List.mem_cons.mp hb with rfl | hb
        · exact .inr (.inr ⟨a, List.mem_cons_self, rfl⟩)
        · exact .inr (.inl (List.mem_cons_of_mem _ hb))
      · rcases List.mem_cons.mp hb with rfl | hb
        · exact .inr (.inl List.mem_cons_self)
        · rcases ih hb with h | h | ⟨c, hc, h⟩
          · exact .inl h
          · exact .inr (.inl (List.mem_cons_of_mem _ h))
          · exact .inr (.inr ⟨c, List.mem_cons_of_mem _ hc, h⟩)

theorem Descending.upsert (h : Descending key l) (hfresh : key fresh = k)
    (hbump : ∀ a, key (bump a) = key a) : Descending key (upsert key k fresh bump l) := by
  induction l with
  | nil => exact List.pairwise_singleton _ _
  | cons a l ih =>
    obtain ⟨ha, hl⟩ := List.pairwise_cons.mp h
    rw [Ladder.upsert]
    split
    · rename_i hlt
      -- a new level in front
      refine List.pairwise_cons.mpr ⟨fun b hb => ?_, h⟩
      rw [hfresh]
      rcases List.mem_cons.mp hb with rfl | hb
      · exact hlt
      · exact (ha b hb).trans hlt
    · split
      · -- the level of `k` keeps its key
        refine List.pairwise_cons.mpr ⟨fun b hb => ?_, hl⟩
        rw [hbump]
        exact ha b hb
      · rename_i hnlt hne
        refine List.pairwise_cons.mpr ⟨fun b hb => ?_, ih hl⟩
        rcases mem_upsert hb with rfl | hb | ⟨c, hc, rfl⟩
        · rw [hfresh]
          exact lt_of_le_of_ne (not_lt.mp hnlt) (Ne.symm hne)
        · exact ha b hb
        · rw [hbump]
          exact ha c hc

/-- A change of one level by `x` changes the total at its key by `x`. -/
theorem sumAt_upsert {weight : α → Int} {x : Int} (hfresh : key fresh = k)
    (hbump : ∀ a, key (bump a) = key a) (hx : weight fresh = x)
    (hadd : ∀ a, weight (bump a) = weight a + x) (k' : κ) :
    sumAt key weight (upsert key k fresh bump l) k' =
      sumAt key weight l k' + if k = k' then x else 0 := by
  induction l with
  | nil =>
    rw [upsert, sumAt_cons, hfresh, hx, sumAt_nil, add_comm]
  | cons a l ih =>
    rw [upsert]
    split
    · rw [sumAt_cons, hfresh, hx, add_comm]
    · split
      · rename_i ha
        rw [sumAt_cons, sumAt_cons, hbump, hadd, ha]
        split <;> omega
      · rw [sumAt_cons, sumAt_cons, ih]
        omega

theorem mem_adjust {b : α} (hb : b ∈ adjust key k change l) :
    b ∈ l ∨ ∃ a ∈ l, key a = k ∧ b ∈ change a := by
  induction l with
  | nil => exact absurd hb List.not_mem_nil
  | cons a l ih =>
    rw [adjust] at hb
    split at hb
    · rename_i ha
      rcases List.mem_append.mp hb with hb | hb
      · exact .inr ⟨a, List.mem_cons_self, ha, Option.mem_toList.mp hb⟩
      · exact .inl (List.mem_cons_of_mem _ hb)
    · rcases List.mem_cons.mp hb with rfl | hb
      · exact .inl List.mem_cons_self
      · rcases ih hb with hb | ⟨c, hc, hk, hb⟩
        · exact .inl (List.mem_cons_of_mem _ hb)
        · exact .inr ⟨c, List.mem_cons_of_mem _ hc, hk, hb⟩

theorem adjust_keys (hkey : ∀ a, ∀ a' ∈ change a, key a' = key a) :
    ((adjust key k change l).map key).Sublist (l.map key) := by
  induction l with
  | nil => exact List.Sublist.refl _
  | cons a l ih =>
    rw [adjust]
    split
    · cases hc : change a with
      | none => exact List.sublist_cons_self _ _
      | some a' =>
        show ((key a' :: l.map key)).Sublist _
        rw [hkey a a' hc]
        exact List.Sublist.refl _
    · exact ih.cons_cons _

theorem Descending.adjust (h : Descending key l)
    (hkey : ∀ a, ∀ a' ∈ change a, key a' = key a) : Descending key (adjust key k change l) := by
  have hmap : (l.map key).Pairwise fun a b => b < a := List.pairwise_map.mpr h
  exact List.pairwise_map.mp (hmap.sublist (adjust_keys hkey))

theorem sumAt_adjust {weight : α → Int} {x : Int} (hex : ∃ a ∈ l, key a = k)
    (hkey : ∀ a, ∀ a' ∈ change a, key a' = key a)
    (hsub : ∀ a ∈ l, key a = k → ((change a).map weight).getD 0 = weight a - x) (k' : κ) :
    sumAt key weight (adjust key k change l) k' =
      sumAt key weight l k' - if k = k' then x else 0 := by
  induction l with
  | nil =>
    obtain ⟨a, ha, -⟩ := hex
    exact absurd ha List.not_mem_nil
  | cons a l ih =>
    rw [adjust]
    split
    · rename_i ha
      -- only the first level can have this key
      have hs := hsub a List.mem_cons_self ha
      cases hc : change a with
      | none =>
        rw [hc] at hs
        show sumAt key weight l k' = _
        rw [sumAt_cons, ha]
        simp only [Option.map_none, Option.getD_none] at hs
        split <;> omega
      | some a' =>
        rw [hc] at hs
        show sumAt key weight (a' :: l) k' = _
        simp only [Option.map_some, Option.getD_some] at hs
        rw [sumAt_cons, sumAt_cons, hkey a a' hc, ha, hs]
        split <;> omega
    · rename_i ha
      -- the level of `k` is further down
      have hex' : ∃ b ∈ l, key b = k := by
        obtain ⟨b, hb, hk⟩ := hex
        rcases List.mem_cons.mp hb with rfl | hb
        · exact absurd hk ha
        · exact ⟨b, hb, hk⟩
      rw [sumAt_cons, sumAt_cons, ih hex' fun b hb => hsub b (List.mem_cons_of_mem _ hb)]
      omega

end Descending

/-! ## Aggregation -/

section Aggregates

variable (lkey : β → κ) (lweight lcount : β → Int) (key : α → κ) (weight : α → Int)

/-- The ladder `levels` shows the `items`: in descending order, without empty
levels, with the total weight and the number of items at each key. -/
structure Aggregates (levels : List β) (items : List α) : Prop where
  descending : Descending lkey levels
  weights : ∀ k, sumAt lkey lweight levels k = sumAt key weight items k
  counts : ∀ k, sumAt lkey lcount levels k = sumAt key (fun _ => 1) items k
  positive : ∀ l ∈ levels, 0 < lweight l

/-- Drop a level that becomes empty. -/
def unlessEmpty (reduce : β → β) (l : β) : Option β :=
  if lweight (reduce l) = 0 then none else some (reduce l)

variable {lkey lweight lcount key weight} {levels : List β} {items pre post : List α} {a : α}

theorem sumAt_one (l : List α) (k : κ) :
    sumAt key (fun _ => 1) l k = ((l.filter fun a => key a = k).length : Int) := by
  induction l with
  | nil => rfl
  | cons a l ih =>
    rw [sumAt_cons, ih, List.filter_cons]
    by_cases h : key a = k
    · simp [h, add_comm]
    · simp [h]

/-- **There is a level for each key that occurs**, and no other. -/
theorem Aggregates.exists_level (h : Aggregates lkey lweight lcount key weight levels items)
    (hpos : ∀ a ∈ items, 0 < weight a) (k : κ) :
    (∃ l ∈ levels, lkey l = k) ↔ ∃ a ∈ items, key a = k := by
  rw [← sumAt_pos_iff h.positive, ← sumAt_pos_iff hpos, h.weights]

/-- **A level shows the total weight and the number of the items at its key.** -/
theorem Aggregates.level (h : Aggregates lkey lweight lcount key weight levels items) {l : β}
    (hl : l ∈ levels) :
    lweight l = ((items.filter fun a => key a = lkey l).map weight).sum ∧
      lcount l = ((items.filter fun a => key a = lkey l).length : Int) := by
  rw [← h.descending.sumAt_eq lweight hl, ← h.descending.sumAt_eq lcount hl, h.weights, h.counts,
    sumAt_one]
  exact ⟨rfl, rfl⟩

theorem Aggregates.nil : Aggregates lkey lweight lcount key weight [] [] :=
  ⟨List.Pairwise.nil, fun _ => rfl, fun _ => rfl, fun _ h => absurd h List.not_mem_nil⟩

/-- One more item. -/
theorem Aggregates.insert {fresh : β} {bump : β → β}
    (h : Aggregates lkey lweight lcount key weight levels (pre ++ post)) (ha : 0 < weight a)
    (hfresh : lkey fresh = key a ∧ lweight fresh = weight a ∧ lcount fresh = 1)
    (hbump : ∀ l, lkey (bump l) = lkey l ∧ lweight (bump l) = lweight l + weight a ∧
      lcount (bump l) = lcount l + 1) :
    Aggregates lkey lweight lcount key weight (upsert lkey (key a) fresh bump levels)
      (pre ++ a :: post) where
  descending := h.descending.upsert hfresh.1 fun l => (hbump l).1
  weights k := by
    rw [sumAt_upsert hfresh.1 (fun l => (hbump l).1) hfresh.2.1 fun l => (hbump l).2.1,
      sumAt_middle, h.weights]
  counts k := by
    rw [sumAt_upsert hfresh.1 (fun l => (hbump l).1) hfresh.2.2 fun l => (hbump l).2.2,
      sumAt_middle, h.counts]
  positive l hl := by
    rcases mem_upsert hl with rfl | hl | ⟨l', hl', rfl⟩
    · rw [hfresh.2.1]
      exact ha
    · exact h.positive l hl
    · have hl' := h.positive l' hl'
      rw [(hbump l').2.1]
      omega

/-- What the level of an item shows besides the item itself. -/
theorem Aggregates.level_middle {l : β}
    (h : Aggregates lkey lweight lcount key weight levels (pre ++ a :: post)) (hl : l ∈ levels)
    (hk : lkey l = key a) :
    lweight l = weight a + sumAt key weight (pre ++ post) (key a) ∧
      lcount l = 1 + sumAt key (fun _ => 1) (pre ++ post) (key a) := by
  -- the totals at this key are this level and, on the other side, `a` and its rest
  have hw := h.weights (key a)
  have hc := h.counts (key a)
  rw [← hk, h.descending.sumAt_eq _ hl, hk, sumAt_middle, if_pos rfl] at hw hc
  omega

/-- One item less. -/
theorem Aggregates.remove {reduce : β → β}
    (h : Aggregates lkey lweight lcount key weight levels (pre ++ a :: post))
    (hpos : ∀ b ∈ pre ++ a :: post, 0 < weight b)
    (hreduce : ∀ l, lkey (reduce l) = lkey l ∧ lweight (reduce l) = lweight l - weight a ∧
      lcount (reduce l) = lcount l - 1) :
    Aggregates lkey lweight lcount key weight
      (adjust lkey (key a) (unlessEmpty lweight reduce) levels) (pre ++ post) := by
  have hrest : ∀ b ∈ pre ++ post, 0 < weight b := fun b hb =>
    hpos b (by simp at hb ⊢; tauto)
  have hkey : ∀ l, ∀ l' ∈ unlessEmpty lweight reduce l, lkey l' = lkey l := by
    intro l l' hl'
    rw [unlessEmpty] at hl'
    split at hl'
    · cases hl'
    · obtain rfl := Option.some.inj hl'
      exact (hreduce l).1
  have hex : ∃ l ∈ levels, lkey l = key a :=
    (h.exists_level hpos _).mpr ⟨a, by simp, rfl⟩
  refine { descending := h.descending.adjust hkey, weights := fun k => ?_,
           counts := fun k => ?_, positive := fun l hl => ?_ }
  · rw [sumAt_adjust (x := weight a) hex hkey, h.weights, sumAt_middle]
    · omega
    · intro l _ _
      rw [unlessEmpty]
      have hr := (hreduce l).2.1
      split
      · simp only [Option.map_none, Option.getD_none]
        omega
      · exact hr
  · rw [sumAt_adjust (x := 1) hex hkey, h.counts, sumAt_middle]
    · omega
    · intro l hl hk
      obtain ⟨hw, hc⟩ := h.level_middle hl hk
      have hr := (hreduce l).2.1
      rw [unlessEmpty]
      split
      · -- an empty level held no other item
        have hnone : ∀ b ∈ pre ++ post, key b ≠ key a := by
          intro b hb hkb
          have := (sumAt_pos_iff hrest).mpr ⟨b, hb, hkb⟩
          omega
        rw [sumAt_eq_zero hnone] at hc
        simp only [Option.map_none, Option.getD_none]
        omega
      · exact (hreduce l).2.2
  · rcases mem_adjust hl with hl | ⟨l', hl', hk, hl⟩
    · exact h.positive l hl
    · obtain ⟨hw, -⟩ := h.level_middle hl' hk
      have hnn : 0 ≤ sumAt key weight (pre ++ post) (key a) := sumAt_nonneg hrest _
      have hr := (hreduce l').2.1
      rw [unlessEmpty] at hl
      split at hl
      · cases hl
      · obtain rfl := Option.some.inj hl
        omega

/-- **The items determine the ladder**, where a level is what it shows. -/
theorem Aggregates.unique {levels' : List β}
    (h : Aggregates lkey lweight lcount key weight levels items)
    (h' : Aggregates lkey lweight lcount key weight levels' items)
    (hpos : ∀ a ∈ items, 0 < weight a)
    (hext : ∀ l l', lkey l = lkey l' → lweight l = lweight l' → lcount l = lcount l' → l = l') :
    levels = levels' := by
  -- a level of one is the level of the other with its key
  have hsub : ∀ {xs ys : List β}, Aggregates lkey lweight lcount key weight xs items →
      Aggregates lkey lweight lcount key weight ys items → ∀ l ∈ xs, l ∈ ys := by
    intro xs ys hx hy l hl
    obtain ⟨l', hl', hk⟩ := (hy.exists_level hpos _).mpr ((hx.exists_level hpos _).mp ⟨l, hl, rfl⟩)
    obtain ⟨hw, hc⟩ := hx.level hl
    obtain ⟨hw', hc'⟩ := hy.level hl'
    rw [hk] at hw' hc'
    rw [hext l l' hk.symm (hw.trans hw'.symm) (hc.trans hc'.symm)]
    exact hl'
  have hnodup : ∀ {xs : List β}, Descending lkey xs → xs.Nodup := fun hd =>
    List.Pairwise.imp (fun hlt heq => by subst heq; exact lt_irrefl _ hlt) hd
  have hperm : levels.Perm levels' :=
    (List.perm_ext_iff_of_nodup (hnodup h.descending) (hnodup h'.descending)).mpr fun l =>
      ⟨hsub h h' l, hsub h' h l⟩
  exact hperm.eq_of_pairwise (fun _ _ _ _ hlt hlt' => absurd hlt' (lt_asymm hlt)) h.descending
    h'.descending

end Aggregates

end Ladder
