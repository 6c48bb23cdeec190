import PeExchange.Theory.Levels
import PeExchange.Theory.Ownership

/-!
# Levels over whole runs, and free_all

- `levels_ownedOnce`: in every state the level lists of the heap are those of the
  exchange with lists, every level that was allocated is in one of them or was
  freed once, and a command's calls find no bad pointer.
- `freeAll_frees`: in every state `free_all` walks the lists of orders and of
  levels without touching what it has freed, and nothing is left of either.
-/

namespace PeExchange

open Memory
open DoublyLinked (ptrs vals first)

variable {P T : Nat} {A : Arith} {vp : ValidProducts P} {s : Levelled P T}
  {h : HeapExchange P T}

/-! ## Runs -/

theorem LevelReachable.draws (hreach : LevelReachable A vp s) :
    Reachable A vp s.exchange ∧ Tidy s.exchange.printedOrders ∧
      ∃ cells, Draws s.levels s.exchange.printedOrders cells := by
  refine Transition.Reachable.invariant (I := fun s => Reachable A vp s.exchange ∧
    Tidy s.exchange.printedOrders ∧ ∃ cells, Draws s.levels s.exchange.printedOrders cells)
    ?_ (fun s a s' _ hi hs => ?_) hreach
  · exact ⟨Transition.Reachable.init, Tidy.initial, _, Draws.initial⟩
  · obtain ⟨hr, ht, cells, hd⟩ := hi
    cases hs with
    | @command s' l' ind msg hp hl =>
      obtain ⟨l₂, cells', hl₂, hd', ht'⟩ :=
        hd.runPrints (A := A) ht (s.exchange.printCalls A vp msg ind)
      obtain rfl := Except.ok.inj (hl₂.symm.trans hl)
      rw [← Exchange.parseMsg_prints hp] at hd' ht'
      exact ⟨Transition.Reachable.step hr (.command hp), ht', cells', hd'⟩
    | died => exact ⟨Transition.Reachable.step hr .died, ht, cells, hd⟩

/-- What the exchange with lists does can be done with nodes. -/
theorem LevelReachable.step (hreach : LevelReachable A vp s) {s' : Exchange P T}
    {msg : List Char} {ind : Fin T} (hp : s.exchange.parseMsg A vp msg ind = .ok s') :
    ∃ l', LevelHeap.runPrints A (s.exchange.printCalls A vp msg ind) s.levels = .ok l' ∧
      LevelReachable A vp ⟨s', l'⟩ := by
  obtain ⟨-, ht, cells, hd⟩ := hreach.draws
  obtain ⟨l', -, hl', -⟩ := hd.runPrints (A := A) ht (s.exchange.printCalls A vp msg ind)
  exact ⟨l', hl', Transition.Reachable.step hreach (.command hp hl')⟩

theorem Reachable.exists_levels {s : Exchange P T} (hreach : Reachable A vp s) :
    ∃ l, LevelReachable A vp ⟨s, l⟩ := by
  refine Transition.Reachable.invariant (I := fun s => ∃ l, LevelReachable A vp ⟨s, l⟩)
    ⟨initialLevels, Transition.Reachable.init⟩ (fun s a s' _ hi hs => ?_) hreach
  obtain ⟨l, hl⟩ := hi
  cases hs with
  | command hp =>
    obtain ⟨l', -, hl'⟩ := hl.step hp
    exact ⟨l', hl'⟩
  | died => exact ⟨l, Transition.Reachable.step hl .died⟩

/-! ## Ownership -/

/-- The level lists have these nodes and values, their cached lengths are current,
and every level that was allocated is in one list or was freed once. -/
structure LevelsOwnedOnce (l : LevelHeap P) (b : Fin P → PrintedOrderbook)
    (nodes : Bool × Fin P → List Nat) : Prop where
  chain : ∀ k, l.heap.Chain SinglyLinked.Node.next (l.head k) (nodes k)
  vals : ∀ k, ((nodes k).filterMap fun p => (l.heap.get p).map SinglyLinked.Node.val) =
    (b k.2).head k.1
  len : ∀ k, l.len k = (nodes k).length
  once : ∀ p < l.heap.next,
    (∃! k, p ∈ nodes k) ∧ l.heap.frees.count p = 0 ∨
      (∀ k, p ∉ nodes k) ∧ l.heap.frees.count p = 1

/-- The values of a list are read through its pointers. -/
theorem filterMap_val {heap : Heap LevelNode} {cs : List (Nat × PrintedOrder)} {a : Ptr}
    (hs : SinglyLinked.Seg heap cs a) :
    ((ptrs cs).filterMap fun p => (heap.get p).map SinglyLinked.Node.val) = vals cs := by
  induction cs with
  | nil => rfl
  | cons c cs ih =>
    obtain ⟨p, v⟩ := c
    show (p :: ptrs cs).filterMap _ = v :: vals cs
    rw [List.filterMap_cons, hs.1]
    exact congrArg (v :: ·) (ih hs.2)

theorem LevelsOwnedOnce.of_draws {l : LevelHeap P} {b : Fin P → PrintedOrderbook}
    {cells : Bool × Fin P → List (Nat × PrintedOrder)} (hd : Draws l b cells) (ht : Tidy b) :
    LevelsOwnedOnce l b fun k => ptrs (cells k) := by
  refine ⟨fun k => ?_, fun k => ?_, fun k => ?_, fun p hp => ?_⟩
  · rw [hd.owned.head]
    exact (hd.owned.seg k).chain
  · rw [hd.head]
    exact filterMap_val (hd.owned.seg k)
  · rw [hd.len, ht.len, hd.head]
    exact (List.length_map _).trans (List.length_map _).symm
  · rcases Heap.lt_length_iff.mp hp with ⟨n, hn⟩ | hfree
    · obtain ⟨k, hk⟩ := hd.owned.all p n hn
      refine .inl ⟨⟨k, hk, fun k' hk' => hd.owned.disjoint k' k p hk' hk⟩, ?_⟩
      exact List.count_eq_zero.mpr (Heap.not_mem_frees hn)
    · refine .inr ⟨fun k hk => ?_, List.count_eq_one_of_mem l.heap.nodup hfree⟩
      obtain ⟨n, hn⟩ := (hd.owned.seg k).get_of_mem hk
      exact Heap.not_mem_frees hn hfree

/-- **The level lists in the heap.** In every state the heap draws the levels of the
exchange with lists, every level node is in one list or was freed once, and the
functions that handle levels never follow a bad pointer. -/
theorem levels_ownedOnce (hreach : LevelReachable A vp s) :
    (∃ nodes, LevelsOwnedOnce s.levels s.exchange.printedOrders nodes) ∧
      ∀ (msg : List Char) (ind : Fin T) (s' : Exchange P T),
        s.exchange.parseMsg A vp msg ind = .ok s' →
          ∃ l', LevelHeap.runPrints A (s.exchange.printCalls A vp msg ind) s.levels = .ok l' := by
  obtain ⟨-, ht, cells, hd⟩ := hreach.draws
  refine ⟨⟨_, LevelsOwnedOnce.of_draws hd ht⟩, fun msg ind s' hp => ?_⟩
  obtain ⟨l', hl', -⟩ := hreach.step hp
  exact ⟨l', hl'⟩

theorem levels_ownedOnce_gpu :
    ∃ s l, (initial : Exchange 2 2).runCommands .machine testProducts
        [(0, "SELL 0 GPU 10 30;".toList), (0, "SELL 1 GPU 5 40;".toList),
          (1, "BUY 0 GPU 12 40;".toList), (0, "AMEND 1 3 50;".toList)] = .ok s ∧
      (∃ nodes, LevelsOwnedOnce l s.printedOrders nodes) ∧
      ∀ (msg : List Char) (ind : Fin 2) (s' : Exchange 2 2),
        s.parseMsg .machine testProducts msg ind = .ok s' →
          ∃ l', LevelHeap.runPrints .machine (s.printCalls .machine testProducts msg ind) l =
            .ok l' := by
  have hrun : okAnd ((initial : Exchange 2 2).runCommands .machine testProducts
      [(0, "SELL 0 GPU 10 30;".toList), (0, "SELL 1 GPU 5 40;".toList),
        (1, "BUY 0 GPU 12 40;".toList), (0, "AMEND 1 3 50;".toList)]) (fun _ => true) := by
    decide +kernel
  obtain ⟨s, hs, -⟩ := exists_of_okAnd hrun
  obtain ⟨l, hl⟩ := (Reachable.runCommands Transition.Reachable.init hs).exists_levels
  exact ⟨s, l, hs, levels_ownedOnce hl⟩

/-! ## free_all -/

theorem mem_sides (k : Bool × Fin P) : k ∈ sides P := by
  obtain ⟨side, i⟩ := k
  refine List.mem_flatMap.mpr ⟨i, List.mem_finRange i, ?_⟩
  cases side <;> simp

theorem sides_nodup (P : Nat) : (sides P).Nodup := by
  refine List.nodup_flatMap.mpr ⟨fun i _ => by simp, ?_⟩
  refine (List.nodup_finRange P).imp fun {i j} hij => ?_
  simp [Function.onFun, hij.symm]

/-- Lists without a common node, one after the other. -/
theorem flatMap_sides_nodup {nodes : Bool × Fin P → List Nat} (hnd : ∀ k, (nodes k).Nodup)
    (hdis : ∀ k k' p, p ∈ nodes k → p ∈ nodes k' → k = k') :
    ((sides P).flatMap nodes).Nodup := by
  refine List.nodup_flatMap.mpr ⟨fun k _ => hnd k, (sides_nodup P).imp fun {k k'} hk => ?_⟩
  exact fun p hp hp' => hk (hdis k k' p hp hp')

/-- Freeing the lists of a heap leaves no record, when they hold all of them. -/
theorem freeChains_sides {β : Type} {heap : Heap β} {next : β → Ptr}
    (heads : Bool × Fin P → Ptr) (nodes : Bool × Fin P → List Nat)
    (hc : ∀ k, heap.Chain next (heads k) (nodes k)) (hnd : ∀ k, (nodes k).Nodup)
    (hdis : ∀ k k' p, p ∈ nodes k → p ∈ nodes k' → k = k')
    (hall : ∀ p v, heap.get p = some v → ∃ k, p ∈ nodes k) :
    ∃ heap', Heap.freeChains next HeapFault.freeing ((sides P).map heads) heap = .ok heap' ∧
      heap'.next = heap.next ∧ ∀ p < heap.next, heap'.frees.count p = 1 := by
  have hflat := flatMap_sides_nodup hnd hdis
  refine ⟨_, Heap.freeChains_eq (sides P) (fun k _ => hc k) hflat, Heap.next_removeAll _ _,
    fun p hp => ?_⟩
  refine Heap.count_frees_eq_one (fun q => ?_) (lt_of_lt_of_eq hp (Heap.next_removeAll _ _).symm)
  have hget : ∀ p ∈ (sides P).flatMap nodes, ∃ v, heap.get p = some v := by
    intro p hp
    obtain ⟨k, -, hk⟩ := List.mem_flatMap.mp hp
    exact (hc k).get hk
  rw [Heap.get_removeAll hget hflat]
  by_cases hq : q ∈ (sides P).flatMap nodes
  · rw [if_pos hq]
  · rw [if_neg hq]
    cases hv : heap.get q with
    | none => rfl
    | some v =>
      obtain ⟨k, hk⟩ := hall q v hv
      exact absurd (List.mem_flatMap.mpr ⟨k, mem_sides k, hk⟩) hq

/-- The loop forward along a list of orders. -/
theorem chain_of_walk {heap : Heap (OrderNode P T)} {a : Ptr} {ps : List Nat}
    (hw : DoublyLinked.Walk heap DoublyLinked.Node.next a ps) :
    heap.Chain DoublyLinked.Node.next a ps := by
  induction hw with
  | nil => exact .nil
  | cons hp _ ih => exact .cons hp ih

/-- **free_all frees everything once.** From every state of the orders and every state of
the levels it ends without having followed a bad pointer, and every order and every
level that was ever allocated has then been freed exactly once. -/
theorem freeAll_frees (hh : HeapReachable A vp h) (hs : LevelReachable A vp s) :
    ∃ h' l', freeAll h s.levels = .ok (h', l') ∧
      h'.heap.next = h.heap.next ∧ l'.heap.next = s.levels.heap.next ∧
      (∀ p < h.heap.next, h'.heap.frees.count p = 1) ∧
      ∀ p < s.levels.heap.next, l'.heap.frees.count p = 1 := by
  obtain ⟨x, cells, -, href⟩ := hh.refines
  obtain ⟨-, -, cells', hd⟩ := hs.draws
  obtain ⟨heap, hfree, hnext, hcount⟩ := freeChains_sides (fun k => (h.books k).head)
    (fun k => ptrs (cells k)) (fun k => chain_of_walk (href.owned.linked k).isList.forward)
    (fun k => (href.owned.linked k).nodup) href.owned.disjoint
    fun p v hv => (href.owned.all p v hv).resolve_right List.not_mem_nil
  obtain ⟨heap', hfree', hnext', hcount'⟩ := freeChains_sides s.levels.head
    (fun k => ptrs (cells' k)) (fun k => by
      rw [hd.owned.head]
      exact (hd.owned.seg k).chain)
    hd.owned.nodup hd.owned.disjoint hd.owned.all
  refine ⟨{ h with heap := heap }, { s.levels with heap := heap' }, ?_, hnext, hnext', hcount,
    hcount'⟩
  have horders : h.freeOrders = .ok { h with heap := heap } := (bind_ok hfree _).trans rfl
  have hlevels : s.levels.freePrintedOrders = .ok { s.levels with heap := heap' } :=
    (bind_ok hfree' _).trans rfl
  rw [freeAll, bind_ok horders, bind_ok hlevels]
  rfl

theorem freeAll_frees_gpu :
    ∃ (h : HeapExchange 2 2) (l : LevelHeap 2) (h' : HeapExchange 2 2) (l' : LevelHeap 2),
      HeapExchange.runCommands .machine testProducts
        [(0, "SELL 0 GPU 10 30;".toList), (0, "SELL 1 GPU 5 40;".toList),
          (1, "BUY 0 GPU 12 40;".toList)] initialHeap = .ok h ∧
      freeAll h l = .ok (h', l') ∧ h'.heap.next = h.heap.next ∧ l'.heap.next = l.heap.next ∧
      (∀ p < h.heap.next, h'.heap.frees.count p = 1) ∧
      ∀ p < l.heap.next, l'.heap.frees.count p = 1 := by
  have hrun : okAnd (HeapExchange.runCommands .machine testProducts
      [(0, "SELL 0 GPU 10 30;".toList), (0, "SELL 1 GPU 5 40;".toList),
        (1, "BUY 0 GPU 12 40;".toList)] (initialHeap : HeapExchange 2 2)) (fun _ => true) := by
    decide +kernel
  obtain ⟨h, hh, -⟩ := exists_of_okAnd hrun
  have hreach : HeapReachable .machine testProducts h :=
    HeapReachable.runCommands Transition.Reachable.init hh
  obtain ⟨s, -, hs, -⟩ := hreach.refines
  obtain ⟨l, hl⟩ := hs.exists_levels
  obtain ⟨h', l', hfree⟩ := freeAll_frees hreach hl
  exact ⟨h, l, h', l', hh, hfree⟩

end PeExchange
