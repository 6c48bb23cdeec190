import PeExchange.LevelHeap
import PeExchange.Theory.Depth

/-!
# The level lists are well formed and levels owned once

What the functions for levels make of nodes and pointers is what those of
`Orderbook` make of lists.

- `Draws`: the nodes of a heap are those of the level lists and there are no
  others. `Tidy`: the lists are descending and their cached lengths current. Every
  call keeps both (`Draws.print`, `Tidy.print`), whatever the order it is for and
  whatever the accumulators hold, and follows no bad pointer.
- The search of `remove_from_products` is by price and starts from the head; that
  it ends before the node to unlink rests on the lists being descending, and that
  the only level is unlinked on the cached length.
-/

namespace PeExchange

open Memory LinkedList Ladder
open DoublyLinked (ptrs vals first vals_append first_append)
open SinglyLinked (Owned)

variable {P T : Nat} {A : Arith} {l : LevelHeap P}
  {cells : Bool × Fin P → List (Nat × PrintedOrder)} {k : Bool × Fin P} {o : Order P T}
  {xs ys zs ws cs : List (Nat × PrintedOrder)} {c : Nat × PrintedOrder} {p : Nat}
  {v : PrintedOrder}

namespace LevelHeap

/-! ## Loops -/

theorem load_eq (ho : Owned l.heap l.head cells) (hk : cells k = xs ++ c :: ys) :
    l.load (some c.1) = .ok ⟨c.2, first ys⟩ := by
  rw [load, Heap.load_eq (ho.get hk)]
  rfl

/-- The loop of `set_len` from a node on. -/
theorem countFrom_eq (ho : Owned l.heap l.head cells) {fuel ctr : Nat} (hk : cells k = xs ++ ys)
    (hfuel : ys.length ≤ fuel) : l.countFrom fuel ctr (first ys) = .ok (ctr + ys.length) := by
  induction ys generalizing xs fuel ctr with
  | nil => cases fuel <;> rfl
  | cons c ys ih =>
    cases fuel with
    | zero => exact absurd hfuel (Nat.not_succ_le_zero _)
    | succ fuel =>
      have hk' : cells k = xs ++ [c] ++ ys := by rw [hk, List.append_assoc]; rfl
      show l.countFrom (fuel + 1) ctr (some c.1) = _
      rw [countFrom, bind_ok (load_eq ho hk)]
      show l.countFrom fuel (ctr + 1) (first ys) = _
      rw [ih hk' (Nat.le_of_succ_le_succ hfuel), List.length_cons, Nat.add_right_comm]
      rfl

theorem setLen_eq (ho : Owned l.heap l.head cells) (k : Bool × Fin P) :
    l.setLen k = .ok { l with len := Function.update l.len k (cells k).length } := by
  have hk : cells k = [] ++ cells k := rfl
  rw [setLen, ho.head, bind_ok (countFrom_eq ho hk (ho.length_le k)), Nat.zero_add]
  rfl

/-- A search stops at `c` when the levels between its first and `c` let it go on and
the one behind `c` does not. -/
theorem searchFrom_eq (ho : Owned l.heap l.head cells) (goOn : Int → Bool) {fuel : Nat}
    (hk : cells k = xs ++ (zs ++ c :: ws))
    (hgo : ∀ d ∈ (zs ++ [c]).tail, goOn d.2.price = true)
    (hstop : ∀ d ∈ ws.head?, goOn d.2.price = false) (hfuel : zs.length < fuel) :
    l.searchFrom goOn fuel (first (zs ++ c :: ws)) = .ok (some c.1) := by
  induction zs generalizing xs fuel with
  | nil =>
    cases fuel with
    | zero => exact absurd hfuel (Nat.not_lt_zero _)
    | succ fuel =>
      show l.searchFrom goOn (fuel + 1) (some c.1) = _
      rw [searchFrom, bind_ok (load_eq ho hk)]
      cases ws with
      | nil => rfl
      | cons d ws =>
        have hk' : cells k = xs ++ [c] ++ d :: ws := by rw [hk, List.append_assoc]; rfl
        show (l.load (some d.1) >>= _) = _
        rw [bind_ok (load_eq ho hk'), if_neg (by rw [hstop d rfl]; exact Bool.false_ne_true)]
        rfl
  | cons z zs ih =>
    cases fuel with
    | zero => exact absurd hfuel (Nat.not_lt_zero _)
    | succ fuel =>
      have hk' : cells k = xs ++ [z] ++ (zs ++ c :: ws) := by rw [hk, List.append_assoc]; rfl
      -- the next level is in front of `c` or is `c`
      obtain ⟨d, rest, hd, hmem⟩ : ∃ d rest, zs ++ c :: ws = d :: rest ∧ d ∈ zs ++ [c] := by
        cases zs with
        | nil => exact ⟨c, ws, rfl, List.mem_cons_self⟩
        | cons d zs => exact ⟨d, _, rfl, List.mem_cons_self⟩
      have hrest := ih hk' (fun e he => hgo e (List.mem_of_mem_tail he))
        (Nat.lt_of_succ_lt_succ hfuel)
      rw [hd] at hk' hrest
      show l.searchFrom goOn (fuel + 1) (some z.1) = _
      have hkz : cells k = xs ++ z :: d :: rest := by rw [hk, ← hd]; rfl
      rw [searchFrom, bind_ok (load_eq ho hkz)]
      show (l.load (some d.1) >>= _) = _
      rw [bind_ok (load_eq ho hk'), if_pos (hgo d hmem)]
      exact hrest

/-- Where a search stops that starts at `c`. -/
theorem exists_stop (goOn : Int → Bool) (c : Nat × PrintedOrder)
    (ys : List (Nat × PrintedOrder)) :
    ∃ zs d ws, c :: ys = zs ++ d :: ws ∧ (∀ e ∈ (zs ++ [d]).tail, goOn e.2.price = true) ∧
      ∀ e ∈ ws.head?, goOn e.2.price = false := by
  induction ys generalizing c with
  | nil =>
    refine ⟨[], c, [], rfl, fun e he => absurd he List.not_mem_nil, fun e he => ?_⟩
    cases he
  | cons d ys ih =>
    by_cases hd : goOn d.2.price = true
    · obtain ⟨zs, e, ws, heq, hgo, hstop⟩ := ih d
      refine ⟨c :: zs, e, ws, congrArg (c :: ·) heq, fun x hx => ?_, hstop⟩
      have hsplit : zs ++ [e] = d :: (zs ++ [e]).tail := by
        cases zs with
        | nil =>
          obtain ⟨rfl, -⟩ := List.cons.inj heq
          rfl
        | cons z zs =>
          obtain ⟨rfl, -⟩ := List.cons.inj heq
          rfl
      have hx : x ∈ zs ++ [e] := hx
      rw [hsplit] at hx
      rcases List.mem_cons.mp hx with rfl | hx
      · exact hd
      · exact hgo x hx
    · refine ⟨[], c, d :: ys, rfl, fun e he => absurd he List.not_mem_nil, fun e he => ?_⟩
      obtain rfl := Option.mem_some.mp he
      exact Bool.eq_false_iff.mpr hd

/-! ## Adding -/

theorem addInFront_spec (ho : Owned l.heap l.head cells) (k : Bool × Fin P) (o : Order P T) :
    ∃ l' q, l.addInFront k o = .ok l' ∧ l'.len = l.len ∧ Owned l'.heap l'.head
      (Function.update cells k ((q, createPrintedOrder o) :: cells k)) := by
  have hnew : (l.heap.alloc ⟨createPrintedOrder o, none⟩).get l.heap.next =
      some ⟨createPrintedOrder o, none⟩ := by
    rw [Heap.get_alloc, if_pos rfl]
  refine ⟨⟨Function.update l.head k (some l.heap.next), l.len,
    (l.heap.alloc ⟨createPrintedOrder o, none⟩).put l.heap.next ⟨createPrintedOrder o, l.head k⟩⟩,
    l.heap.next, ?_, rfl, ho.insertFront k (createPrintedOrder o)⟩
  rw [addInFront, create]
  show (onHeap _ (SinglyLinked.setNext _ (some l.heap.next) (l.head k)) >>= _) = _
  rw [SinglyLinked.setNext_eq hnew]
  rfl

theorem addBehind_spec (ho : Owned l.heap l.head cells) (hk : cells k = xs ++ c :: ys)
    (o : Order P T) :
    ∃ l' q, l.addBehind (some c.1) o = .ok l' ∧ l'.len = l.len ∧ Owned l'.heap l'.head
      (Function.update cells k (xs ++ c :: (q, createPrintedOrder o) :: ys)) := by
  obtain ⟨p, v⟩ := c
  have hget := ho.get hk
  have hne : p ≠ l.heap.next := by
    rintro rfl
    rw [Heap.get_next] at hget
    cases hget
  have hnew : (l.heap.alloc ⟨createPrintedOrder o, none⟩).get l.heap.next =
      some ⟨createPrintedOrder o, none⟩ := by
    rw [Heap.get_alloc, if_pos rfl]
  have hget₁ : (l.heap.alloc ⟨createPrintedOrder o, none⟩).get p = some ⟨v, first ys⟩ := by
    rw [Heap.get_alloc, if_neg hne, hget]
  have hget₂ : ((l.heap.alloc ⟨createPrintedOrder o, none⟩).put l.heap.next
      ⟨createPrintedOrder o, first ys⟩).get p = some ⟨v, first ys⟩ := by
    rw [Heap.get_put_of_ne hne, hget₁]
  refine ⟨⟨l.head, l.len, ((l.heap.alloc ⟨createPrintedOrder o, none⟩).put l.heap.next
    ⟨createPrintedOrder o, first ys⟩).put p ⟨v, some l.heap.next⟩⟩, l.heap.next, ?_, rfl,
    ho.insertAfter hk (createPrintedOrder o)⟩
  rw [addBehind, create]
  show ((Heap.load _ (some p)).mapError HeapFault.memory >>= _) = _
  rw [Heap.load_eq hget₁]
  show (onHeap _ (SinglyLinked.setNext _ (some l.heap.next) (first ys)) >>= _) = _
  rw [SinglyLinked.setNext_eq hnew]
  show onHeap _ (SinglyLinked.setNext _ (some p) (some l.heap.next)) = _
  rw [SinglyLinked.setNext_eq hget₂]
  rfl

/-- What `add_to_prints` does where its search stops. -/
theorem addAt_spec (ho : Owned l.heap l.head cells) (hk : cells k = xs ++ c :: ys)
    (o : Order P T) :
    ∃ l' cs, l.addAt A (some c.1) o = .ok l' ∧ l'.len = l.len ∧
      vals cs = vals xs ++ PeExchange.addAt A o c.2 (vals ys) ∧
      Owned l'.heap l'.head (Function.update cells k cs) := by
  obtain ⟨p, v⟩ := c
  rw [addAt, bind_ok (load_eq ho hk), PeExchange.addAt]
  by_cases heq : v.price = o.price
  · rw [if_pos heq, if_pos heq, SinglyLinked.setVal_eq (ho.get hk)]
    exact ⟨_, _, rfl, rfl, vals_append, ho.setVal hk _⟩
  · rw [if_neg heq, if_neg heq]
    by_cases hgt : v.price > o.price
    · rw [if_pos hgt, if_pos hgt]
      obtain ⟨l', q, hl', hlen, ho'⟩ := addBehind_spec ho hk o
      exact ⟨l', _, hl', hlen, vals_append, ho'⟩
    · rw [if_neg hgt, if_neg hgt]
      refine ⟨l, cells k, rfl, rfl, ?_, ?_⟩
      · rw [hk, vals_append]
        rfl
      · rwa [Function.update_eq_self]

/-- The search of `add_to_prints` on lists stops at the same place. -/
theorem addFrom_split (goOn : PrintedOrder → Prop) (o : Order P T)
    (hgoOn : ∀ e, goOn e ↔ e.price ≥ o.price) {v d : PrintedOrder} {vs us ts : List PrintedOrder}
    (hsplit : v :: vs = us ++ d :: ts) (hgo : ∀ e ∈ (us ++ [d]).tail, goOn e)
    (hstop : ∀ e ∈ ts.head?, ¬goOn e) : addFrom A o v vs = us ++ PeExchange.addAt A o d ts := by
  induction us generalizing v vs with
  | nil =>
    obtain ⟨rfl, rfl⟩ := List.cons.inj hsplit
    cases vs with
    | nil => rfl
    | cons e vs =>
      rw [addFrom, if_neg (mt (hgoOn e).mpr (hstop e rfl))]
      rfl
  | cons u us ih =>
    obtain ⟨rfl, rfl⟩ := List.cons.inj hsplit
    obtain ⟨e, rest, he, hmem⟩ : ∃ e rest, us ++ d :: ts = e :: rest ∧ e ∈ us ++ [d] := by
      cases us with
      | nil => exact ⟨d, ts, rfl, List.mem_cons_self⟩
      | cons e us => exact ⟨e, _, rfl, List.mem_cons_self⟩
    have hrest := ih he.symm fun e he => hgo e (List.mem_of_mem_tail he)
    show addFrom A o v (us ++ d :: ts) = _
    rw [he, addFrom, if_pos ((hgoOn e).mp (hgo e hmem)), hrest]
    rfl

/-- **add_to_prints on nodes does what it does on lists.** -/
theorem addToPrints_spec (ho : Owned l.heap l.head cells) (k : Bool × Fin P) (o : Order P T) :
    ∃ l' cs, l.addToPrints A k o = .ok l' ∧ l'.len = l.len ∧
      vals cs = PeExchange.addToPrints A (vals (cells k)) o ∧
      Owned l'.heap l'.head (Function.update cells k cs) := by
  rw [addToPrints, ho.head]
  cases hk : cells k with
  | nil =>
    obtain ⟨l', q, hl', hlen, ho'⟩ := addInFront_spec ho k o
    exact ⟨l', _, hl', hlen, by rw [hk]; rfl, ho'⟩
  | cons c ys =>
    have hk' : cells k = [] ++ c :: ys := hk
    show ∃ l' cs, (l.load (some c.1) >>= _) = _ ∧ _ ∧ vals cs =
      (if c.2.price < o.price then _ else addFrom A o c.2 (vals ys)) ∧ _
    rw [bind_ok (load_eq ho hk')]
    by_cases hlt : c.2.price < o.price
    · rw [if_pos hlt, if_pos hlt]
      obtain ⟨l', q, hl', hlen, ho'⟩ := addInFront_spec ho k o
      exact ⟨l', _, hl', hlen, by rw [hk]; rfl, ho'⟩
    · rw [if_neg hlt, if_neg hlt]
      obtain ⟨zs, d, ws, hsplit, hgo, hstop⟩ :=
        exists_stop (fun price => price ≥ o.price) c ys
      have hfuel : zs.length < l.heap.next := by
        have hle := ho.length_le k
        rw [hk, hsplit, List.length_append, List.length_cons] at hle
        omega
      have hkz : cells k = [] ++ (zs ++ d :: ws) := hk.trans hsplit
      have hsearch := searchFrom_eq ho (fun price => price ≥ o.price) hkz hgo hstop hfuel
      rw [← hsplit] at hsearch
      show ∃ l' cs, (l.searchFrom (fun price => price ≥ o.price) l.heap.next (first (c :: ys)) >>=
        _) = _ ∧ _
      rw [bind_ok hsearch]
      obtain ⟨l', cs, hl', hlen, hcs, ho'⟩ := addAt_spec (A := A) ho hkz o
      refine ⟨l', cs, hl', hlen, hcs.trans ?_, ho'⟩
      have hvals : c.2 :: vals ys = vals zs ++ d.2 :: vals ws := by
        have hmap := congrArg vals hsplit
        rwa [vals_append] at hmap
      refine (addFrom_split (fun e => e.price ≥ o.price) o (fun e => Iff.rfl) hvals
        (fun e he => ?_) fun e he => ?_).symm
      · have htail : (vals zs ++ [d.2]).tail = (zs ++ [d]).tail.map Prod.snd := by
          rw [List.map_tail, List.map_append]
          rfl
        rw [htail] at he
        obtain ⟨x, hx, rfl⟩ := List.mem_map.mp he
        exact of_decide_eq_true (hgo x hx)
      · have hhead : (vals ws).head? = ws.head?.map Prod.snd := List.head?_map
        rw [hhead] at he
        obtain ⟨x, hx, rfl⟩ := Option.mem_map.mp he
        exact of_decide_eq_false (hstop x hx)

/-! ## Taking out -/

/-- **remove_from_products unlinks the node**, which is then freed. -/
theorem removeFromProducts_spec (ho : Owned l.heap l.head cells)
    (hk : cells k = xs ++ (p, v) :: ys) (hlen : l.len k = (cells k).length)
    (hother : ∀ d ∈ xs, d.2.price ≠ v.price) :
    ∃ l₁ l', l.removeFromProducts (some p) k = .ok l₁ ∧
      l₁.onHeap (l₁.heap.free (some p)) = .ok l' ∧ l'.len = l.len ∧
      Owned l'.heap l'.head (Function.update cells k (xs ++ ys)) := by
  have hget := ho.get hk
  have hhead := ho.head k
  rcases List.eq_nil_or_concat xs with rfl | ⟨zs, d, rfl⟩
  · -- the first level, which may be the only one
    have hhead : l.head k = some p := hhead.trans (congrArg first hk)
    refine ⟨l.setHead k (first ys), ⟨Function.update l.head k (first ys), l.len,
      l.heap.remove p⟩, ?_, ?_, rfl, ho.removeFront hk⟩
    · rw [removeFromProducts]
      by_cases hone : l.len k = 1
      · have hys : ys = [] := by
          rw [hlen, hk] at hone
          exact List.length_eq_zero_iff.mp (Nat.succ.inj hone)
        rw [if_pos hone, hys]
        rfl
      · rw [if_neg hone, if_pos hhead.symm, hhead, bind_ok (load_eq ho hk)]
        rfl
    · show LevelHeap.onHeap _ (l.heap.free (some p)) = _
      rw [Heap.free_eq hget]
      rfl
  · -- the search ends at the level in front
    rw [List.concat_eq_append] at hk hother ⊢
    obtain ⟨q, u⟩ := d
    have hk' : cells k = zs ++ (q, u) :: (p, v) :: ys := by
      rw [hk, List.append_assoc]
      rfl
    have hone : l.len k ≠ 1 := by
      rw [hlen, hk', List.length_append, List.length_cons, List.length_cons]
      omega
    have hnot : some p ≠ l.head k := by
      intro heq
      have hnd := ho.nodup k
      have hnotin := SinglyLinked.not_mem_of_nodup (hk ▸ hnd)
      rw [hhead, hk'] at heq
      cases zs with
      | nil => exact hnotin (by simp [Option.some.inj heq])
      | cons z zs => exact hnotin (by simp [Option.some.inj heq])
    have hfuel : zs.length < l.heap.next := by
      have hle := ho.length_le k
      rw [hk', List.length_append, List.length_cons] at hle
      omega
    have hkz : cells k = [] ++ (zs ++ (q, u) :: (p, v) :: ys) := hk'
    have hsearch := searchFrom_eq ho (fun price => price ≠ v.price) hkz
      (fun d hd => decide_eq_true (hother d (List.mem_of_mem_tail hd)))
      (fun d hd => by
        obtain rfl := Option.mem_some.mp hd
        exact decide_eq_false (not_not.mpr rfl)) hfuel
    have hqget := ho.get hk'
    have hqp : p ≠ q := by
      intro heq
      have hnotin := SinglyLinked.not_mem_of_nodup (hk ▸ ho.nodup k)
      exact hnotin (by simp [heq])
    refine ⟨{ l with heap := l.heap.put q ⟨u, first ys⟩ },
      { l with heap := (l.heap.put q ⟨u, first ys⟩).remove p }, ?_, ?_, rfl, ?_⟩
    · rw [removeFromProducts, if_neg hone, if_neg hnot, bind_ok (load_eq ho hk), hhead, hk']
      show (l.searchFrom (fun price => price ≠ v.price) l.heap.next
        (first (zs ++ (q, u) :: (p, v) :: ys)) >>= _) = _
      rw [bind_ok hsearch, SinglyLinked.setNext_eq hqget]
      rfl
    · have hpget : (l.heap.put q ⟨u, first ys⟩).get p = some ⟨v, first ys⟩ := by
        rw [Heap.get_put_of_ne hqp, hget]
      show LevelHeap.onHeap _ ((l.heap.put q ⟨u, first ys⟩).free (some p)) = _
      rw [Heap.free_eq hpget]
      rfl
    · have hrem := ho.removeAfter hk'
      rwa [List.append_assoc]

/-- The loop of `delete_order_prints` passes levels with other prices. -/
theorem deleteFrom_skip (ho : Owned l.heap l.head cells) (fuel : Nat)
    (hk : cells k = zs ++ (xs ++ ys)) (hother : ∀ d ∈ xs, d.2.price ≠ o.price) :
    deleteFrom A o k (xs.length + fuel) l (first (xs ++ ys)) =
      deleteFrom A o k fuel l (first ys) := by
  induction xs generalizing zs with
  | nil => rw [List.length_nil, Nat.zero_add, List.nil_append]
  | cons d xs ih =>
    have hk' : cells k = zs ++ [d] ++ (xs ++ ys) := by rw [hk, List.append_assoc]; rfl
    rw [List.length_cons, Nat.add_right_comm]
    show deleteFrom A o k (xs.length + fuel + 1) l (some d.1) = _
    rw [deleteFrom, bind_ok (load_eq ho hk), if_neg (hother d List.mem_cons_self).symm]
    exact ih hk' fun e he => hother e (List.mem_cons_of_mem _ he)

theorem deleteFrom_none (fuel : Nat) : deleteFrom A o k fuel l none = .ok l := by
  cases fuel <;> rfl

/-- **delete_order_prints on nodes changes the level of the order**, and drops it when
nothing is left in it. -/
theorem deleteOrderPrints_spec (ho : Owned l.heap l.head cells) (o : Order P T)
    (hlen : l.len k = (cells k).length) (hd : Descending PrintedOrder.price (vals (cells k))) :
    ∃ l' cs, l.deleteOrderPrints A k o = .ok l' ∧ l'.len = l.len ∧
      vals cs = adjust PrintedOrder.price o.price
        (unlessEmpty PrintedOrder.quantity fun v => storedIn A (lessened o v))
        (vals (cells k)) ∧
      Owned l'.heap l'.head (Function.update cells k cs) := by
  have hle := ho.length_le k
  rw [deleteOrderPrints, ho.head]
  by_cases hex : ∃ d ∈ cells k, d.2.price = o.price
  · obtain ⟨⟨p, v⟩, hmem, hv⟩ := hex
    obtain ⟨xs, ys, hk⟩ := List.append_of_mem hmem
    have hv : v.price = o.price := hv
    -- no other level has the price
    obtain ⟨hxs, hys⟩ : (∀ d ∈ xs, d.2.price ≠ o.price) ∧ ∀ d ∈ ys, d.2.price ≠ o.price := by
      rw [hk, vals_append] at hd
      obtain ⟨-, hd₂, hd₁⟩ := List.pairwise_append.mp hd
      obtain ⟨hd₂, -⟩ := List.pairwise_cons.mp hd₂
      constructor
      · intro d hmem
        have := hd₁ d.2 (List.mem_map_of_mem hmem) v List.mem_cons_self
        omega
      · intro d hmem
        have : d.2.price < v.price := hd₂ d.2 (List.mem_map_of_mem hmem)
        omega
    have hadjust : adjust PrintedOrder.price o.price
        (unlessEmpty PrintedOrder.quantity fun v => storedIn A (lessened o v)) (vals (cells k)) =
        vals xs ++ ((unlessEmpty PrintedOrder.quantity
          (fun v => storedIn A (lessened o v)) v).toList ++ vals ys) := by
      rw [hk, vals_append]
      exact adjust_middle (fun u hu => by
        obtain ⟨d, hd, rfl⟩ := List.mem_map.mp hu
        exact hxs d hd) hv
    obtain ⟨fuel, hfuel⟩ : ∃ fuel, l.heap.next = xs.length + (fuel + 1) := by
      rw [hk, List.length_append, List.length_cons] at hle
      exact ⟨l.heap.next - xs.length - 1, by omega⟩
    have hfuel' : ys.length ≤ fuel := by
      rw [hk, List.length_append, List.length_cons] at hle
      omega
    have hkx : cells k = [] ++ (xs ++ (p, v) :: ys) := hk
    rw [hadjust, hk, hfuel, deleteFrom_skip ho _ hkx hxs]
    show ∃ l' cs, deleteFrom A o k (fuel + 1) l (some p) = _ ∧ _
    rw [deleteFrom, bind_ok (load_eq ho hk), if_pos hv.symm]
    show ∃ l' cs, (l.onHeap (SinglyLinked.setVal l.heap (some p) (storedIn A (lessened o v))) >>=
      _) = _ ∧ _
    rw [SinglyLinked.setVal_eq (ho.get hk)]
    have ho₁ := ho.setVal hk (storedIn A (lessened o v))
    have hk₁ : Function.update cells k (xs ++ (p, storedIn A (lessened o v)) :: ys) k =
        xs ++ (p, storedIn A (lessened o v)) :: ys := Function.update_self _ _ _
    rw [unlessEmpty]
    show ∃ l' cs, (if (storedIn A (lessened o v)).quantity = 0 then _ else _) = _ ∧ _
    by_cases hzero : (storedIn A (lessened o v)).quantity = 0
    · -- the level goes and the loop ends
      rw [if_pos hzero, if_pos hzero]
      have hlen₁ : l.len k =
          (Function.update cells k (xs ++ (p, storedIn A (lessened o v)) :: ys) k).length := by
        rw [hlen, hk₁, hk, List.length_append, List.length_append]
        rfl
      obtain ⟨l₂, l', hl₂, hl', hlen', ho'⟩ := removeFromProducts_spec
        (l := { l with heap := l.heap.put p ⟨storedIn A (lessened o v), first ys⟩ }) ho₁ hk₁ hlen₁
        fun d hd => hv ▸ hxs d hd
      refine ⟨l', xs ++ ys, ?_, hlen', ?_, ?_⟩
      · exact (bind_ok hl₂ _).trans hl'
      · exact vals_append
      · rwa [Function.update_idem] at ho'
    · -- the loop goes on and changes nothing
      rw [if_neg hzero, if_neg hzero]
      refine ⟨{ l with heap := l.heap.put p ⟨storedIn A (lessened o v), first ys⟩ },
        xs ++ (p, storedIn A (lessened o v)) :: ys, ?_, rfl, vals_append, ho₁⟩
      · have hload := load_eq
          (l := { l with heap := l.heap.put p ⟨storedIn A (lessened o v), first ys⟩ }) ho₁ hk₁
        have hk₂ : Function.update cells k (xs ++ (p, storedIn A (lessened o v)) :: ys) k =
            (xs ++ [(p, storedIn A (lessened o v))]) ++ (ys ++ []) := by
          rw [hk₁, List.append_assoc, List.append_nil]
          rfl
        obtain ⟨rest, rfl⟩ := Nat.exists_eq_add_of_le hfuel'
        have hskip := deleteFrom_skip (A := A)
          (l := { l with heap := l.heap.put p ⟨storedIn A (lessened o v), first ys⟩ }) ho₁ rest hk₂
          hys
        rw [List.append_nil] at hskip
        exact (bind_ok hload _).trans (hskip.trans (deleteFrom_none rest))
  · -- no level has the price
    have hne : ∀ d ∈ cells k, d.2.price ≠ o.price := fun d hd hp => hex ⟨d, hd, hp⟩
    obtain ⟨rest, hrest⟩ := Nat.exists_eq_add_of_le hle
    have hk : cells k = [] ++ (cells k ++ []) := by rw [List.append_nil]; rfl
    refine ⟨l, cells k, ?_, rfl, ?_, ?_⟩
    · have hskip := deleteFrom_skip (A := A) ho rest hk hne
      rw [List.append_nil] at hskip
      rw [hrest, hskip]
      exact deleteFrom_none rest
    · refine (adjust_of_forall_ne fun u hu => ?_).symm
      obtain ⟨d, hd, rfl⟩ := List.mem_map.mp hu
      exact hne d hd
    · rwa [Function.update_eq_self]

end LevelHeap

/-! ## Calls -/

/-- The lists are descending and the cached lengths current. -/
structure Tidy (b : Fin P → PrintedOrderbook) : Prop where
  descending : ∀ k : Bool × Fin P, Descending PrintedOrder.price ((b k.2).head k.1)
  len : ∀ k : Bool × Fin P, (b k.2).len k.1 = ((b k.2).head k.1).length

/-- The levels of the heap are those of the lists. -/
structure Draws (l : LevelHeap P) (b : Fin P → PrintedOrderbook)
    (cells : Bool × Fin P → List (Nat × PrintedOrder)) : Prop where
  owned : Owned l.heap l.head cells
  head : ∀ k : Bool × Fin P, (b k.2).head k.1 = vals (cells k)
  len : ∀ k : Bool × Fin P, l.len k = (b k.2).len k.1

variable {b : Fin P → PrintedOrderbook}

theorem Tidy.initial : Tidy (initial : Exchange P T).printedOrders where
  descending _ := List.Pairwise.nil
  len _ := rfl

theorem Draws.initial :
    Draws initialLevels (PeExchange.initial : Exchange P T).printedOrders fun _ => [] where
  owned := Owned.empty
  head _ := rfl
  len _ := rfl

/-- One side of a product gets another list and its length. -/
def withLevels (b : Fin P → PrintedOrderbook) (k : Bool × Fin P) (levels : List PrintedOrder) :
    Fin P → PrintedOrderbook :=
  Function.update b k.2 (((b k.2).setHead k.1 levels).setLen k.1)

theorem withLevels_self (b : Fin P → PrintedOrderbook) (k : Bool × Fin P)
    (levels : List PrintedOrder) :
    (withLevels b k levels k.2).head k.1 = levels ∧
      (withLevels b k levels k.2).len k.1 = levels.length := by
  rw [withLevels, Function.update_self]
  exact ⟨by simp [PrintedOrderbook.setLen], by simp [PrintedOrderbook.setLen]⟩

theorem withLevels_of_ne (b : Fin P → PrintedOrderbook) {k k' : Bool × Fin P} (hk : k' ≠ k)
    (levels : List PrintedOrder) :
    (withLevels b k levels k'.2).head k'.1 = (b k'.2).head k'.1 ∧
      (withLevels b k levels k'.2).len k'.1 = (b k'.2).len k'.1 := by
  obtain ⟨side, i⟩ := k
  obtain ⟨side', i'⟩ := k'
  rw [withLevels]
  simp only
  by_cases hi : i' = i
  · subst hi
    have hs : side' ≠ side := fun hs => hk (congrArg (·, i') hs)
    rw [Function.update_self]
    exact ⟨by simp [PrintedOrderbook.setLen, hs], by simp [PrintedOrderbook.setLen, hs]⟩
  · rw [Function.update_of_ne hi]
    exact ⟨rfl, rfl⟩

theorem Tidy.change (ht : Tidy b) (k : Bool × Fin P) {levels : List PrintedOrder}
    (hd : Descending PrintedOrder.price levels) : Tidy (withLevels b k levels) := by
  constructor
  · intro k'
    by_cases hk : k' = k
    · subst hk
      rw [(withLevels_self b k' levels).1]
      exact hd
    · rw [(withLevels_of_ne b hk levels).1]
      exact ht.descending k'
  · intro k'
    by_cases hk : k' = k
    · subst hk
      obtain ⟨hhead, hlen⟩ := withLevels_self b k' levels
      rw [hhead, hlen]
    · obtain ⟨hhead, hlen⟩ := withLevels_of_ne b hk levels
      rw [hhead, hlen]
      exact ht.len k'

/-- A list of nodes takes the place of another one, and its length is set. -/
theorem Draws.change (hd : Draws l b cells) {l' : LevelHeap P} {k : Bool × Fin P}
    (hlen : l'.len = l.len) (ho : Owned l'.heap l'.head (Function.update cells k cs)) :
    ∃ l₂, l'.setLen k = .ok l₂ ∧
      Draws l₂ (withLevels b k (vals cs)) (Function.update cells k cs) := by
  refine ⟨_, LevelHeap.setLen_eq ho k, ho, fun k' => ?_, fun k' => ?_⟩
  · by_cases hk : k' = k
    · subst hk
      rw [(withLevels_self b k' _).1, Function.update_self]
    · rw [(withLevels_of_ne b hk _).1, Function.update_of_ne hk]
      exact hd.head k'
  · show Function.update l'.len k (Function.update cells k cs k).length k' = _
    by_cases hk : k' = k
    · subst hk
      rw [(withLevels_self b k' _).2, Function.update_self, Function.update_self]
      exact (List.length_map _).symm
    · rw [(withLevels_of_ne b hk _).2, Function.update_of_ne hk, hlen]
      exact hd.len k'

/-- What a call makes of the lists. -/
theorem addOrderPrints_withLevels (A : Arith) (s : Exchange P T) (o : Order P T) :
    (s.addOrderPrints A o).printedOrders = withLevels s.printedOrders (o.isBuy, o.productID)
      (addToPrints A ((s.printedOrders o.productID).head o.isBuy) o) := rfl

theorem cancelOrderPrints_withLevels (A : Arith) {s : Exchange P T} (ht : Tidy s.printedOrders)
    (o : Order P T) :
    (s.cancelOrderPrints A o).printedOrders = withLevels s.printedOrders (o.isBuy, o.productID)
      (adjust PrintedOrder.price o.price
        (unlessEmpty PrintedOrder.quantity fun v => storedIn A (lessened o v))
        ((s.printedOrders o.productID).head o.isBuy)) := by
  show Function.update s.printedOrders o.productID
    ((deleteOrderPrints A (s.printedOrders o.productID) o).setLen o.isBuy) = _
  rw [deleteOrderPrints_eq A o (ht.len (o.isBuy, o.productID))
    (ht.descending (o.isBuy, o.productID))]
  rfl

/-- **Every call keeps the lists descending and their lengths current.** -/
theorem Tidy.print {s : Exchange P T} (ht : Tidy s.printedOrders) (c : PrintCall P T) :
    Tidy (s.print A c).printedOrders := by
  cases c with
  | add o =>
    have hdesc := ht.descending (o.isBuy, o.productID)
    rw [Exchange.print, addOrderPrints_withLevels]
    refine ht.change _ ?_
    rw [addToPrints_eq A o hdesc]
    exact hdesc.upsert rfl fun _ => rfl
  | cancel o =>
    rw [Exchange.print, cancelOrderPrints_withLevels A ht]
    refine ht.change _ ((ht.descending (o.isBuy, o.productID)).adjust fun v v' hv' => ?_)
    rw [unlessEmpty] at hv'
    split at hv'
    · cases hv'
    · obtain rfl := Option.some.inj hv'
      rfl

/-- **Every call does on nodes what it does on lists.** -/
theorem Draws.print {s : Exchange P T} (hd : Draws l s.printedOrders cells)
    (ht : Tidy s.printedOrders) (c : PrintCall P T) :
    ∃ l' cells', l.print A c = .ok l' ∧ Draws l' (s.print A c).printedOrders cells' := by
  cases c with
  | add o =>
    obtain ⟨l₁, cs, hl₁, hlen, hcs, ho⟩ :=
      LevelHeap.addToPrints_spec (A := A) hd.owned (o.isBuy, o.productID) o
    obtain ⟨l₂, hl₂, hdraws⟩ := hd.change hlen ho
    rw [hcs, ← hd.head (o.isBuy, o.productID)] at hdraws
    exact ⟨l₂, _, (bind_ok hl₁ _).trans hl₂, hdraws⟩
  | cancel o =>
    have hlen₀ : l.len (o.isBuy, o.productID) = (cells (o.isBuy, o.productID)).length := by
      rw [hd.len, ht.len (o.isBuy, o.productID), hd.head (o.isBuy, o.productID)]
      exact List.length_map _
    have hdesc := ht.descending (o.isBuy, o.productID)
    rw [hd.head (o.isBuy, o.productID)] at hdesc
    obtain ⟨l₁, cs, hl₁, hlen, hcs, ho⟩ :=
      LevelHeap.deleteOrderPrints_spec (A := A) hd.owned o hlen₀ hdesc
    obtain ⟨l₂, hl₂, hdraws⟩ := hd.change hlen ho
    rw [hcs, ← hd.head (o.isBuy, o.productID)] at hdraws
    rw [Exchange.print, cancelOrderPrints_withLevels A ht]
    exact ⟨l₂, _, (bind_ok hl₁ _).trans hl₂, hdraws⟩

/-- Some calls one after the other, on lists. -/
def Exchange.prints (A : Arith) (s : Exchange P T) (calls : List (PrintCall P T)) :
    Exchange P T :=
  calls.foldl (Exchange.print A) s

/-- **Calls follow no bad pointer**, for whatever orders they are made. -/
theorem Draws.runPrints {s : Exchange P T} (hd : Draws l s.printedOrders cells)
    (ht : Tidy s.printedOrders) (calls : List (PrintCall P T)) :
    ∃ l' cells', LevelHeap.runPrints A calls l = .ok l' ∧
      Draws l' (s.prints A calls).printedOrders cells' ∧
      Tidy (s.prints A calls).printedOrders := by
  induction calls generalizing s l cells with
  | nil => exact ⟨l, cells, rfl, hd, ht⟩
  | cons c calls ih =>
    obtain ⟨l₁, cells₁, hl₁, hd₁⟩ := hd.print (A := A) ht c
    obtain ⟨l₂, cells₂, hl₂, h₂⟩ := ih hd₁ (ht.print c)
    exact ⟨l₂, cells₂, (bind_ok hl₁ _).trans hl₂, h₂⟩

/-! ## The calls of a command -/

namespace Exchange

variable {vp : ValidProducts P} {s s' s₁ : Exchange P T} {o' : Order P T} {ind : Fin T}
  {msg : List Char} {c : Cell (Order P T)}

/-- Calls change nothing but the levels and read nothing else. -/
theorem prints_congr (h : s.printedOrders = s'.printedOrders) (calls : List (PrintCall P T)) :
    (s.prints A calls).printedOrders = (s'.prints A calls).printedOrders := by
  induction calls generalizing s s' with
  | nil => exact h
  | cons c calls ih =>
    refine ih ?_
    cases c with
    | add o =>
      show Function.update s.printedOrders _ _ = Function.update s'.printedOrders _ _
      rw [h]
    | cancel o =>
      show Function.update s.printedOrders _ _ = Function.update s'.printedOrders _ _
      rw [h]

theorem prints_append (s : Exchange P T) (calls calls' : List (PrintCall P T)) :
    s.prints A (calls ++ calls') = (s.prints A calls).prints A calls' :=
  List.foldl_append

/-- The calls of one match. -/
theorem matchNew_prints (s : Exchange P T) (o : Order P T) (c : Cell (Order P T)) :
    (s.matchNew A o c).1.printedOrders = (s.prints A (matchCalls o c.val)).printedOrders := by
  have hexec : (s.matchNew A o c).1 = s.execMatch A o c := by
    rw [matchNew_eq]
    split <;> rfl
  rw [hexec, execMatch, matchCalls]
  by_cases hle : c.val.quantity ≤ o.quantity
  · rw [if_pos hle, if_neg (not_lt.mpr hle)]
    rfl
  · rw [if_neg hle, if_pos (not_le.mp hle)]
    rfl

/-- The calls of the matching loop. -/
theorem checkLoop_prints {fuel : Nat} {ret : Int}
    (h : checkLoop A fuel s o = .ok (s', o', ret)) :
    s'.printedOrders = (s.prints A (loopCalls A fuel s o)).printedOrders := by
  induction fuel generalizing s o with
  | zero => cases h
  | succ fuel ih =>
    rw [checkLoop] at h
    rw [loopCalls]
    by_cases hq : o.quantity > 0
    · rw [if_pos hq] at h
      rw [if_pos hq]
      cases hf : s.findBest o with
      | none =>
        rw [hf] at h
        cases h
        rfl
      | some c =>
        rw [hf] at h
        have hmatch := matchNew_prints (A := A) s o c
        by_cases hret : (s.matchNew A o c).2.2 = 0
        · simp only [hret, if_true] at h ⊢
          cases h
          rw [List.append_nil]
          exact hmatch
        · simp only [hret, if_false] at h ⊢
          rw [ih h, prints_append]
          exact prints_congr hmatch _
    · rw [if_neg hq] at h
      rw [if_neg hq]
      cases h
      rfl

theorem matchAndInsert_prints (h : s.matchAndInsert A o = .ok s') :
    s'.printedOrders = (s.prints A (s.insertCalls A o)).printedOrders := by
  obtain ⟨⟨s₁, o₁, ret⟩, hcheck, h⟩ := bind_eq_ok h
  have hloop := checkLoop_prints hcheck
  rw [insertCalls, hcheck, prints_append]
  by_cases hret : ret = 1
  · simp only [hret, if_true] at h ⊢
    cases h
    exact prints_congr hloop [.add o₁]
  · simp only [hret, if_false] at h ⊢
    cases h
    exact hloop

theorem amendOrderMsg_prints (h : s.amendOrderMsg A msg ind = .ok (some (s₁, o))) :
    s₁.printedOrders = (s.prints A (s.amendCalls msg ind)).printedOrders := by
  obtain ⟨args, hargs, h⟩ := bind_eq_ok h
  split at h
  · obtain ⟨r, hr, h⟩ := bind_eq_ok h
    cases r with
    | none => cases h
    | some c =>
      cases h
      rw [amendCalls, hargs]
      simp only
      rw [hr]
      rfl
  · cases h

theorem incoming_prints (h : s.incoming A vp msg ind = .ok (some (s₁, o))) :
    s₁.printedOrders = (s.prints A (s.incomingCalls msg ind)).printedOrders := by
  unfold incoming at h
  split at h
  · obtain ⟨-, -, -, rfl⟩ := newOrderMsg_some h
    rfl
  · obtain ⟨-, -, -, rfl⟩ := newOrderMsg_some h
    rfl
  · exact amendOrderMsg_prints h
  · cases h

theorem cancelMsg_prints {r : Option (Exchange P T)} (h : s.cancelMsg A msg ind = .ok r) :
    (r.getD (s.writeInvalid ind)).printedOrders =
      (s.prints A (s.cancelCalls msg ind)).printedOrders := by
  rw [cancelMsg] at h
  rw [cancelCalls]
  by_cases hs : spaceCount msg ≠ 1
  · rw [if_pos hs] at h ⊢
    cases h
    rfl
  · rw [if_neg hs] at h ⊢
    obtain ⟨args, hargs, h⟩ := bind_eq_ok h
    rw [hargs]
    split at h
    · rename_i id
      simp only
      by_cases hid : id < 0 ∨ id > 999999
      · rw [if_pos hid] at h ⊢
        cases h
        rfl
      · rw [if_neg hid] at h ⊢
        cases hf : s.findOrder ind id with
        | none =>
          rw [hf] at h
          cases h
          rfl
        | some c =>
          rw [hf] at h
          cases h
          rfl
    · rename_i hne
      cases h
      split
      · rename_i id heq
        exact absurd (Except.ok.inj heq) (hne id)
      · rfl

/-- The calls of a command that cancels nothing. -/
theorem printCalls_of_ne (hne : ∀ cs, msg ≠ 'C' :: cs) :
    s.printCalls A vp msg ind =
      match s.incoming A vp msg ind with
      | .ok (some (s', currOrder)) => s.incomingCalls msg ind ++ s'.insertCalls A currOrder
      | _ => [] := by
  unfold printCalls
  split
  · exact absurd rfl (hne _)
  · rfl

/-- **The levels after a command** are those after its calls. -/
theorem parseMsg_prints (h : s.parseMsg A vp msg ind = .ok s') :
    s'.printedOrders = (s.prints A (s.printCalls A vp msg ind)).printedOrders := by
  unfold parseMsg at h
  split at h
  · obtain ⟨r, hr, h⟩ := bind_eq_ok h
    have hcancel := cancelMsg_prints hr
    cases r <;> cases h <;> exact hcancel
  · rename_i hne
    obtain ⟨r, hr, h⟩ := bind_eq_ok h
    rw [printCalls_of_ne hne, hr]
    cases r with
    | none =>
      cases h
      rfl
    | some r =>
      obtain ⟨s₁, o⟩ := r
      rw [matchAndInsert_prints h]
      simp only
      rw [prints_append]
      exact prints_congr (incoming_prints hr) _

end Exchange

end PeExchange
