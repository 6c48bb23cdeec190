import PeExchange.HeapModel
import PeExchange.Theory.Outcome

/-!
# add_to_tail and delete_order

What the two functions make of a linked list and of the pointers in the heap
(`addToTail_spec`, `deleteOrder_spec`): the first appends a node that is not in the
list, the second takes a node out. Neither follows a bad pointer.

The same for lists as loops see them, and for the lists of a heap all of whose
nodes are owned, where a node that is in no list is loose.
-/

namespace PeExchange

open Memory DoublyLinked

variable {P T : Nat} {h : Heap (OrderNode P T)} {list : Orderbook}
  {cs xs ys : List (Nat × Order P T)} {p : Nat} {o : Order P T}

namespace Orderbook

/-! ## add_to_tail -/

theorem addToTail_spec {b a : Ptr} (hl : Linked h list cs) (hp : h.get p = some ⟨o, b, a⟩)
    (hnotin : p ∉ ptrs cs) :
    ∃ h', list.addToTail h (some p) = .ok (h', ⟨(first cs).or (some p), some p⟩) ∧
      h'.get p = some ⟨o, last cs, none⟩ ∧ ∀ q, q ≠ p → h'.get q =
        if last cs = some q then (h.get q).map fun n => { n with next := some p }
        else h.get q := by
  rw [addToTail, hl.tail]
  cases ht : last cs with
  | none =>
    -- the list is empty
    obtain rfl := last_eq_none.mp ht
    obtain ⟨h₁, heq₁, hget₁⟩ := setPrev_spec hp none
    have hp₁ : h₁.get p = some ⟨o, none, a⟩ := by
      rw [hget₁, if_pos rfl, hp]
      rfl
    obtain ⟨h₂, heq₂, hget₂⟩ := setNext_spec hp₁ none
    refine ⟨h₂, ?_, ?_, fun q hq => ?_⟩
    · rw [bind_ok heq₁, bind_ok heq₂]
      rfl
    · rw [hget₂, if_pos rfl, hp₁]
      rfl
    · have hpq : some p ≠ some q := fun heq => hq (Option.some.inj heq).symm
      rw [if_neg nofun, hget₂, if_neg hpq, hget₁, if_neg hpq]
  | some t =>
    have htp : t ≠ p := by
      rintro rfl
      exact hnotin (mem_of_last ht)
    obtain ⟨n, hn⟩ := hl.get_of_mem (mem_of_last ht)
    obtain ⟨h₁, heq₁, hget₁⟩ := setPrev_spec hp (some t)
    have hn₁ : h₁.get t = some n := by
      rw [hget₁, if_neg (fun heq => htp (Option.some.inj heq).symm), hn]
    obtain ⟨h₂, heq₂, hget₂⟩ := setNext_spec hn₁ (some p)
    have hp₂ : h₂.get p = some ⟨o, some t, a⟩ := by
      rw [hget₂, if_neg (mt Option.some.inj htp), hget₁, if_pos rfl, hp]
      rfl
    obtain ⟨h₃, heq₃, hget₃⟩ := setNext_spec hp₂ none
    obtain ⟨f, hf⟩ : ∃ f, first cs = some f := by
      rw [← Option.ne_none_iff_exists']
      intro hnone
      rw [first_eq_none.mp hnone] at ht
      cases ht
    refine ⟨h₃, ?_, ?_, fun q hq => ?_⟩
    · show (setPrev h (some p) (some t) >>= _) = _
      rw [bind_ok heq₁, bind_ok heq₂, bind_ok heq₃, hl.head, hf]
      rfl
    · rw [hget₃, if_pos rfl, hp₂]
      rfl
    · have hpq : some p ≠ some q := fun heq => hq (Option.some.inj heq).symm
      rw [hget₃, if_neg hpq, hget₂, hget₁, if_neg hpq]

/-! ## delete_order -/

/-- What `delete_order` makes of the list and of its neighbours' pointers. -/
def Deletes (h : Heap (OrderNode P T)) (list : Orderbook) (p : Nat)
    (xs ys : List (Nat × Order P T)) : Prop :=
  ∃ h', list.deleteOrder h (some p) = .ok (h', ⟨first (xs ++ ys), last (xs ++ ys)⟩) ∧
    ∀ q, h'.get q =
      if last xs = some q then (h.get q).map fun n => { n with next := first ys }
      else if first ys = some q then (h.get q).map fun n => { n with prev := last xs }
      else h.get q

/-- The only node of a list. -/
theorem deleteOrder_only (hl : Linked h list [(p, o)]) : Deletes h list p [] [] := by
  refine ⟨h, ?_, fun q => ?_⟩
  · rw [deleteOrder, if_pos ⟨hl.tail.trans hl.head.symm, hl.head⟩]
    rfl
  · rw [last_nil, first_nil, if_neg nofun, if_neg nofun]

/-- The first node of a longer list. -/
theorem deleteOrder_head {c : Nat × Order P T} (hl : Linked h list ([] ++ (p, o) :: c :: ys)) :
    Deletes h list p [] (c :: ys) := by
  obtain ⟨f, w⟩ := c
  have hhead : list.head = some p := hl.head
  have htail : list.tail ≠ some p := mt hl.tail_eq_iff.mp (List.cons_ne_nil _ _)
  have hlast : list.tail = last ((f, w) :: ys) :=
    hl.tail.trans (last_append_cons [(p, o)] (f, w) ys)
  obtain ⟨n, hf⟩ := hl.get_of_mem (List.mem_cons_of_mem p List.mem_cons_self)
  obtain ⟨h', heq, hget⟩ := setPrev_spec hf none
  refine ⟨h', ?_, fun q => ?_⟩
  · rw [deleteOrder, if_neg fun hc => htail (hc.1.trans hhead), if_pos hhead,
      bind_ok (Heap.load_eq hl.get)]
    show (setPrev h (some f) none >>= _) = _
    rw [bind_ok heq, hlast]
    rfl
  · rw [last_nil, first_cons, if_neg nofun]
    exact hget q

/-- The last node of a longer list. -/
theorem deleteOrder_tail {c : Nat × Order P T} (hl : Linked h list (xs ++ [c] ++ [(p, o)])) :
    Deletes h list p (xs ++ [c]) [] := by
  obtain ⟨l, w⟩ := c
  have hhead : list.head ≠ some p :=
    mt hl.head_eq_iff.mp (List.append_ne_nil_of_right_ne_nil _ (List.cons_ne_nil _ _))
  have htail : list.tail = some p := hl.tail_eq_iff.mpr rfl
  have hfirst : list.head = first (xs ++ [(l, w)]) := by
    rw [hl.head]
    cases xs <;> rfl
  have hget := hl.get
  rw [last_concat, first_nil] at hget
  obtain ⟨n, hn⟩ := hl.get_of_mem (show l ∈ _ by simp)
  obtain ⟨h', heq, hget'⟩ := setNext_spec hn none
  refine ⟨h', ?_, fun q => ?_⟩
  · rw [deleteOrder, if_neg fun hc => hhead hc.2, if_neg hhead, if_pos htail,
      bind_ok (Heap.load_eq hget)]
    show (setNext h (some l) none >>= _) = _
    rw [bind_ok heq, hfirst, List.append_nil, last_concat]
    rfl
  · have hne : (none : Ptr) ≠ some q := nofun
    rw [last_concat, first_nil, if_neg hne]
    exact hget' q

/-- A node between two others. -/
theorem deleteOrder_between {c d : Nat × Order P T}
    (hl : Linked h list (xs ++ [c] ++ (p, o) :: d :: ys)) :
    Deletes h list p (xs ++ [c]) (d :: ys) := by
  obtain ⟨l, w⟩ := c
  obtain ⟨g, x⟩ := d
  have hhead : list.head ≠ some p :=
    mt hl.head_eq_iff.mp (List.append_ne_nil_of_right_ne_nil _ (List.cons_ne_nil _ _))
  have htail : list.tail ≠ some p := mt hl.tail_eq_iff.mp (List.cons_ne_nil _ _)
  have hget := hl.get
  rw [last_concat, first_cons] at hget
  have hlp : l ≠ p := hl.ne (.inl (by simp))
  have hlg : l ≠ g := by
    have hnd := hl.nodup
    rw [ptrs_append, List.nodup_append] at hnd
    exact hnd.2.2 l (by simp) g (by simp)
  obtain ⟨n, hn⟩ := hl.get_of_mem (show l ∈ _ by simp)
  obtain ⟨m, hm⟩ := hl.get_of_mem (show g ∈ _ by simp)
  obtain ⟨h₁, heq₁, hget₁⟩ := setNext_spec hn (some g)
  have hp₁ : h₁.get p = some ⟨o, some l, some g⟩ := by
    rw [hget₁, if_neg (mt Option.some.inj hlp), hget]
  have hm₁ : h₁.get g = some m := by
    rw [hget₁, if_neg (mt Option.some.inj hlg), hm]
  obtain ⟨h₂, heq₂, hget₂⟩ := setPrev_spec hm₁ (some l)
  -- the ends are those of the list without the node
  have hends : list = ⟨first (xs ++ [(l, w)] ++ (g, x) :: ys),
      last (xs ++ [(l, w)] ++ (g, x) :: ys)⟩ := by
    have hfirst : list.head = first (xs ++ [(l, w)] ++ (g, x) :: ys) := by
      rw [hl.head]
      cases xs <;> rfl
    have hlast : list.tail = last (xs ++ [(l, w)] ++ (g, x) :: ys) := by
      rw [hl.tail, last_append_cons, last_append_cons]
      exact last_append_cons [(p, o)] (g, x) ys
    rw [← hfirst, ← hlast]
  refine ⟨h₂, ?_, fun q => ?_⟩
  · rw [deleteOrder, if_neg fun hc => hhead hc.2, if_neg hhead, if_neg htail,
      bind_ok (Heap.load_eq hget)]
    show (setNext h (some l) (some g) >>= _) = _
    rw [bind_ok heq₁, bind_ok (Heap.load_eq hp₁)]
    show (setPrev h₁ (some g) (some l) >>= _) = _
    rw [bind_ok heq₂, ← hends]
    rfl
  · rw [last_concat, first_cons, hget₂, hget₁]
    by_cases hlq : some l = some q
    · rw [if_pos hlq, if_neg fun heq => hlg (Option.some.inj (hlq.trans heq.symm)), if_pos hlq]
    · rw [if_neg hlq, if_neg hlq]

theorem deleteOrder_spec (hl : Linked h list (xs ++ (p, o) :: ys)) : Deletes h list p xs ys := by
  rcases List.eq_nil_or_concat xs with rfl | ⟨xs, c, rfl⟩
  · cases ys with
    | nil => exact deleteOrder_only hl
    | cons d ys => exact deleteOrder_head hl
  · rw [List.concat_eq_append] at hl ⊢
    cases ys with
    | nil => exact deleteOrder_tail hl
    | cons d ys => exact deleteOrder_between hl

/-! ## On the lists of a heap -/

section Owned

variable {κ : Type} [DecidableEq κ] {ends : κ → Orderbook} {cells : κ → List (Nat × Order P T)}
  {loose : List (Nat × Order P T)} {k : κ}

/-- **add_to_tail appends** a loose node. -/
theorem addToTail_owned (ho : Owned h ends cells ((p, o) :: loose)) (k : κ) :
    ∃ h' list, (ends k).addToTail h (some p) = .ok (h', list) ∧
      Owned h' (Function.update ends k list) (Function.update cells k (cells k ++ [(p, o)]))
        loose := by
  obtain ⟨b, a, hp⟩ : ∃ b a, h.get p = some ⟨o, b, a⟩ := ho.loose_get _ List.mem_cons_self
  obtain ⟨h', heq, hnew, hget⟩ :=
    addToTail_spec (ho.linked k) hp (ho.apart k p List.mem_cons_self)
  exact ⟨h', _, heq, ho.append k hnew hget⟩

/-- **delete_order takes the node out**, and the order of the rest stays. -/
theorem deleteOrder_owned (ho : Owned h ends cells loose) (hk : cells k = xs ++ (p, o) :: ys) :
    ∃ h' list, (ends k).deleteOrder h (some p) = .ok (h', list) ∧
      Owned h' (Function.update ends k list) (Function.update cells k (xs ++ ys))
        ((p, o) :: loose) := by
  obtain ⟨h', heq, hget⟩ := deleteOrder_spec (hk ▸ ho.linked k)
  exact ⟨h', _, heq, ho.unlink hk hget⟩

end Owned

end Orderbook

end PeExchange
