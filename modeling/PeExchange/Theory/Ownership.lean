import PeExchange.Theory.HeapRefinement

/-!
# The order lists are well formed and orders owned once

The exchange with its orders in a heap goes through the same states as the
exchange with lists (`HeapReachable.refines`, `Reachable.exists_heap`). What is
known of the lists of the latter is so known of the nodes of the former, and no
run follows a bad pointer.

`OwnedOnce` says it without the refinement, in terms of the loops along the lists
and of the addresses that were allocated and freed.
-/

namespace PeExchange

open CArith Memory DoublyLinked

variable {P T : Nat} {A : Arith} {vp : ValidProducts P} {h : HeapExchange P T}
  {s : Exchange P T}

/-! ## Runs -/

theorem Refines.initial : Refines (initialHeap : HeapExchange P T) PeExchange.initial
    (fun _ => []) [] :=
  ⟨Owned.empty, rfl⟩

/-- Every state with nodes refines a reachable state with lists. -/
theorem HeapReachable.refines (hreach : HeapReachable A vp h) :
    ∃ (s : Exchange P T) (cells : Bool × Fin P → List (Nat × Order P T)),
      Reachable A vp s ∧ Refines h s cells [] := by
  refine Transition.Reachable.invariant (I := fun h => ∃ (s : Exchange P T)
    (cells : Bool × Fin P → List (Nat × Order P T)), Reachable A vp s ∧ Refines h s cells [])
    ⟨initial, _, Transition.Reachable.init, Refines.initial⟩ (fun h a h' _ hi hs => ?_) hreach
  obtain ⟨s, cells, hr, href⟩ := hi
  cases hs with
  | command hp =>
    obtain ⟨s', hs', cells', href'⟩ := (href.parseMsg hr.wellFormed _ _).exists_right hp
    exact ⟨s', cells', Transition.Reachable.step hr (.command hs'), href'⟩
  | @died i =>
    exact ⟨s.traderDied i, cells, Transition.Reachable.step hr .died, href.onData fun _ _ => rfl⟩

/-- Every reachable state with lists is refined by one with nodes. -/
theorem Reachable.exists_heap (hreach : Reachable A vp s) :
    ∃ (h : HeapExchange P T) (cells : Bool × Fin P → List (Nat × Order P T)),
      HeapReachable A vp h ∧ Refines h s cells [] := by
  refine Transition.Reachable.invariant (I := fun s => ∃ (h : HeapExchange P T)
    (cells : Bool × Fin P → List (Nat × Order P T)), HeapReachable A vp h ∧ Refines h s cells [])
    ⟨initialHeap, _, Transition.Reachable.init, Refines.initial⟩ (fun s a s' hr hi hs => ?_) hreach
  obtain ⟨h, cells, hh, href⟩ := hi
  cases hs with
  | command hp =>
    have hw := Reachable.wellFormed hr
    obtain ⟨h', hh', cells', href'⟩ := (href.parseMsg hw _ _).exists_left hp
    exact ⟨h', cells', Transition.Reachable.step hh (.command hh'), href'⟩
  | @died i =>
    exact ⟨h.onData (·.traderDied i), cells, Transition.Reachable.step hh .died,
      href.onData fun _ _ => rfl⟩

theorem HeapReachable.runCommands {cmds : List (Fin T × List Char)} {h h' : HeapExchange P T}
    (hreach : HeapReachable A vp h) (heq : HeapExchange.runCommands A vp cmds h = .ok h') :
    HeapReachable A vp h' := by
  induction cmds generalizing h with
  | nil =>
    cases heq
    exact hreach
  | cons c cmds ih =>
    obtain ⟨h₁, hp, heq⟩ := bind_eq_ok heq
    exact ih (Transition.Reachable.step hreach (.command hp)) heq

/-! ## Ownership -/

/-- The order lists have these nodes, and every order that was allocated is in
one list or was freed once. -/
structure OwnedOnce (h : HeapExchange P T) (nodes : Bool × Fin P → List Nat) : Prop where
  isList : ∀ k, IsList h.heap (h.books k) (nodes k)
  null : ∀ k, (h.books k).head = none ↔ (h.books k).tail = none
  disjoint : ∀ k k' p, p ∈ nodes k → p ∈ nodes k' → k = k'
  once : ∀ p < h.heap.next,
    (∃! k, p ∈ nodes k) ∧ h.heap.frees.count p = 0 ∨
      (∀ k, p ∉ nodes k) ∧ h.heap.frees.count p = 1

theorem OwnedOnce.of_refines {cells : Bool × Fin P → List (Nat × Order P T)}
    (hr : Refines h s cells []) : OwnedOnce h fun k => ptrs (cells k) := by
  refine ⟨fun k => (hr.owned.linked k).isList, fun k => ?_, hr.owned.disjoint, fun p hp => ?_⟩
  · rw [(hr.owned.linked k).head, (hr.owned.linked k).tail, first_eq_none, last_eq_none]
  · rcases Heap.lt_length_iff.mp hp with ⟨n, hn⟩ | hfree
    · -- a node that is there is in a list, as none is loose
      obtain ⟨k, hk⟩ := (hr.owned.all p n hn).resolve_right List.not_mem_nil
      refine .inl ⟨⟨k, hk, fun k' hk' => hr.owned.disjoint k' k p hk' hk⟩, ?_⟩
      exact List.count_eq_zero.mpr (Heap.not_mem_frees hn)
    · refine .inr ⟨fun k hk => ?_, List.count_eq_one_of_mem h.heap.nodup hfree⟩
      obtain ⟨n, hn⟩ := (hr.owned.linked k).get_of_mem hk
      exact Heap.not_mem_frees hn hfree

/-- No command follows a bad pointer. -/
theorem HeapReachable.parseMsg_ne (hreach : HeapReachable A vp h) (msg : List Char) (ind : Fin T)
    (m : MemFault) : h.parseMsg A vp msg ind ≠ .error (.memory m) := by
  obtain ⟨s, cells, hr, href⟩ := hreach.refines
  intro heq
  have hagree := href.parseMsg (A := A) hr.wellFormed msg ind
  rw [heq] at hagree
  cases hagree

/-! ## Appending and removing -/

namespace Orderbook

variable {heap : Heap (OrderNode P T)} {list : Orderbook} {nodes : List Nat} {p : Nat}

/-- **add_to_tail refines appending.** -/
theorem addToTail_isList (hl : IsList heap list nodes) {n : OrderNode P T}
    (hp : heap.get p = some n) (hnotin : p ∉ nodes) :
    ∃ heap' list', list.addToTail heap (some p) = .ok (heap', list') ∧
      IsList heap' list' (nodes ++ [p]) ∧ Relinked heap heap' (nodes ++ [p]) := by
  obtain ⟨cs, rfl, hlinked⟩ := hl.linked
  obtain ⟨heap', heq, hnew, hget⟩ := addToTail_spec hlinked hp hnotin
  have happ := hlinked.append hnotin hnew fun q hq => hget q (ne_of_mem_of_not_mem hq hnotin)
  refine ⟨heap', _, heq, ?_, Relinked.append hp hnew (fun _ => mem_of_last) hget⟩
  have hlist := happ.isList
  rwa [ptrs_append] at hlist

/-- **delete_order refines removing** the element, and the rest keeps its order. -/
theorem deleteOrder_isList (hl : IsList heap list nodes) (hp : p ∈ nodes) :
    ∃ heap' list', list.deleteOrder heap (some p) = .ok (heap', list') ∧
      IsList heap' list' (nodes.erase p) ∧ Relinked heap heap' (nodes.erase p) := by
  obtain ⟨cs, rfl, hlinked⟩ := hl.linked
  obtain ⟨⟨p, o⟩, hc, rfl⟩ := List.mem_map.mp hp
  obtain ⟨xs, ys, rfl⟩ := List.append_of_mem hc
  obtain ⟨heap', heq, hget⟩ := deleteOrder_spec hlinked
  have hpx : p ∉ ptrs xs := fun hmem => hlinked.ne (.inl hmem) rfl
  have herase : (ptrs (xs ++ (p, o) :: ys)).erase p = ptrs (xs ++ ys) := by
    rw [ptrs_append, ptrs_append, ptrs_cons, List.erase_append_right _ hpx, List.erase_cons_head]
  refine ⟨heap', _, heq, ?_, ?_⟩
  · rw [herase]
    exact (hlinked.unlink fun q _ => hget q).isList
  · rw [herase]
    exact Relinked.unlink hget

end Orderbook

/-- **The order lists are well formed and orders owned once** in every reachable
state, no command follows a bad pointer, and on lists as loops see them the two
functions append and remove a node. -/
theorem HeapReachable.ownedOnce (hreach : HeapReachable A vp h) :
    (∃ nodes, OwnedOnce h nodes) ∧
    (∀ msg ind m, h.parseMsg A vp msg ind ≠ .error (.memory m)) ∧
    ∀ (heap : Heap (OrderNode P T)) (list : Orderbook) (nodes : List Nat),
      IsList heap list nodes →
      (∀ p n, heap.get p = some n → p ∉ nodes →
        ∃ heap' list', list.addToTail heap (some p) = .ok (heap', list') ∧
          IsList heap' list' (nodes ++ [p]) ∧ Relinked heap heap' (nodes ++ [p])) ∧
      ∀ p ∈ nodes, ∃ heap' list', list.deleteOrder heap (some p) = .ok (heap', list') ∧
        IsList heap' list' (nodes.erase p) ∧ Relinked heap heap' (nodes.erase p) := by
  refine ⟨?_, hreach.parseMsg_ne, fun heap list nodes hl => ⟨?_, ?_⟩⟩
  · obtain ⟨s, cells, -, href⟩ := hreach.refines
    exact ⟨_, .of_refines href⟩
  · exact fun p n hp hnotin => Orderbook.addToTail_isList hl hp hnotin
  · exact fun p hp => Orderbook.deleteOrder_isList hl hp

/-- Four orders: the second trade leaves what is left of one of them, an
amendment and a cancellation free one each. -/
theorem ownedOnce_gpu :
    ∃ h : HeapExchange 2 2, h.heap.next = 4 ∧ h.heap.frees = [1, 0, 3] ∧
      (∃ nodes, OwnedOnce h nodes) ∧
      ∀ msg ind m, h.parseMsg .machine testProducts msg ind ≠ .error (.memory m) := by
  have hrun : okAnd (HeapExchange.runCommands .machine testProducts
      [(0, "BUY 0 GPU 5 30;".toList), (1, "SELL 0 GPU 3 30;".toList),
        (0, "AMEND 0 4 20;".toList), (1, "BUY 1 GPU 7 10;".toList), (1, "CANCEL 1;".toList)]
      (initialHeap : HeapExchange 2 2))
      (fun h => decide (h.heap.next = 4 ∧ h.heap.frees = [1, 0, 3])) := by
    decide +kernel
  obtain ⟨h, heq, hfacts⟩ := exists_of_okAnd hrun
  have hreach : HeapReachable .machine testProducts h :=
    HeapReachable.runCommands Transition.Reachable.init heq
  obtain ⟨hnext, hfrees⟩ := of_decide_eq_true hfacts
  exact ⟨h, hnext, hfrees, hreach.ownedOnce.1, hreach.ownedOnce.2.1⟩

end PeExchange
