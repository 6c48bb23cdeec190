import PeExchange.Theory.Orderbooks
import PeExchange.Theory.Books

/-!
# The heap refines the lists

The exchange with its orders in a heap does what the exchange with lists does, as
long as the lists are those of the heap: `Refines`. The nodes in flight between
two statements are its loose ones.

Each function of `HeapModel` has a lemma saying that it has a result whenever its
counterpart has, and what becomes of the nodes. So it never follows a bad pointer.
-/

namespace PeExchange

open CArith CFormat LinkedList Memory DoublyLinked Exchange

variable {P T : Nat} {A : Arith} {vp : ValidProducts P}

/-- The state `h` with nodes stands for the state `s` with lists. -/
structure Refines (h : HeapExchange P T) (s : Exchange P T)
    (cells : Bool × Fin P → List (Nat × Order P T)) (loose : List (Nat × Order P T)) : Prop where
  owned : Owned h.heap h.books cells loose
  data : s = { h.data with orders := fun b i => vals (cells (b, i)) }

namespace Refines

variable {h : HeapExchange P T} {s : Exchange P T}
  {cells : Bool × Fin P → List (Nat × Order P T)} {loose xs ys : List (Nat × Order P T)}
  {b : Bool} {i : Fin P} {k : Bool × Fin P} {p : Nat} {o : Order P T}

/-- A list of the heap, read from its head, is the list. -/
theorem orders_eq (hr : Refines h s cells loose) (b : Bool) (i : Fin P) :
    s.orders b i = vals (cells (b, i)) := by
  rw [hr.data]

theorem traders_eq (hr : Refines h s cells loose) : h.data.traders = s.traders := by
  rw [hr.data]

/-! ## Access -/

theorem read_eq {n : OrderNode P T} (hp : h.heap.get p = some n) :
    h.read (some p) = .ok n.val := by
  rw [HeapExchange.read, HeapExchange.load, Heap.load_eq hp]
  rfl

theorem read_loose (hr : Refines h s cells loose) (hp : (p, o) ∈ loose) :
    h.read (some p) = .ok o := by
  obtain ⟨b, a, hget⟩ := hr.owned.loose_get _ hp
  exact read_eq hget

theorem load_cell (hr : Refines h s cells loose) (hk : cells k = xs ++ (p, o) :: ys) :
    h.load (some p) = .ok ⟨o, last xs, first ys⟩ := by
  have hl := hr.owned.linked k
  rw [hk] at hl
  rw [HeapExchange.load, Heap.load_eq hl.get]
  rfl

theorem read_cell (hr : Refines h s cells loose) (hk : cells k = xs ++ (p, o) :: ys) :
    h.read (some p) = .ok o := by
  rw [HeapExchange.read, bind_ok (hr.load_cell hk)]
  rfl

theorem perm (hr : Refines h s cells loose) {loose' : List (Nat × Order P T)}
    (hp : loose'.Perm loose) : Refines h s cells loose' :=
  ⟨hr.owned.perm hp, hr.data⟩

/-- What does not touch the lists is the same on both sides. -/
theorem onData (hr : Refines h s cells loose) {f : Exchange P T → Exchange P T}
    (hf : ∀ (d : Exchange P T) orders, f { d with orders := orders } =
      { f d with orders := orders }) : Refines (h.onData f) (f s) cells loose :=
  ⟨hr.owned, by rw [hr.data, hf]; rfl⟩

theorem alloc (hr : Refines h s cells loose) (o : Order P T) :
    Refines (h.alloc o).1 s cells ((h.heap.next, o) :: loose) :=
  ⟨hr.owned.alloc o none none, hr.data⟩

theorem free (hr : Refines h s cells ((p, o) :: loose)) :
    ∃ h', h.free (some p) = .ok h' ∧ Refines h' s cells loose := by
  obtain ⟨b, a, hget⟩ := hr.owned.loose_get _ List.mem_cons_self
  refine ⟨{ h with heap := h.heap.remove p }, ?_, hr.owned.remove, hr.data⟩
  rw [HeapExchange.free, Heap.free_eq hget]
  rfl

/-- Changing one list. -/
theorem setOrders_eq (hr : Refines h s cells loose) (b : Bool) (i : Fin P)
    (cs : List (Nat × Order P T)) : s.setOrders b i (vals cs) =
      { h.data with orders := fun b' i' => vals (Function.update cells (b, i) cs (b', i')) } := by
  have horders : (fun b' i' => if b' = b ∧ i' = i then vals cs else s.orders b' i') =
      fun b' i' => vals (Function.update cells (b, i) cs (b', i')) := by
    funext b' i'
    by_cases hk : b' = b ∧ i' = i
    · obtain ⟨rfl, rfl⟩ := hk
      rw [if_pos ⟨rfl, rfl⟩, Function.update_self]
    · rw [if_neg hk, Function.update_of_ne fun heq => hk (Prod.mk.inj heq), hr.orders_eq]
  rw [Exchange.setOrders, horders, hr.data]

theorem setQuantity_loose (hr : Refines h s cells ((p, o) :: loose)) (q : Int) :
    ∃ h', h.setQuantity (some p) q = .ok h' ∧
      Refines h' s cells ((p, { o with quantity := q }) :: loose) := by
  obtain ⟨b, a, hget⟩ : ∃ b a, h.heap.get p = some ⟨o, b, a⟩ :=
    hr.owned.loose_get _ List.mem_cons_self
  refine ⟨{ h with heap := h.heap.put p ⟨{ o with quantity := q }, b, a⟩ }, ?_,
    hr.owned.setLoose hget _, hr.data⟩
  rw [HeapExchange.setQuantity, bind_ok (read_eq hget), setVal_eq hget]
  rfl

/-- The quantity of an order in a list changes, and nothing else. -/
theorem setQuantity_cell (hr : Refines h s cells loose)
    (hk : cells (b, i) = xs ++ (p, o) :: ys) (q : Int) :
    ∃ h', h.setQuantity (some p) q = .ok h' ∧
      Refines h' (s.storeOrder ⟨xs.length, o⟩ b i { o with quantity := q })
        (Function.update cells (b, i) (xs ++ (p, { o with quantity := q }) :: ys)) loose := by
  have hl := hr.owned.linked (b, i)
  rw [hk] at hl
  have hget := hl.get
  refine ⟨{ h with heap := h.heap.put p ⟨{ o with quantity := q }, last xs, first ys⟩ }, ?_,
    hr.owned.setCell hk _, ?_⟩
  · rw [HeapExchange.setQuantity, bind_ok (read_eq hget), setVal_eq hget]
    rfl
  · rw [Exchange.storeOrder, ← hr.setOrders_eq, hr.orders_eq, hk]
    simp [Cell.store, vals]

/-- **`add_order`** links the order behind the last one. -/
theorem addOrder (hr : Refines h s cells ((p, o) :: loose)) :
    ∃ h', h.addOrder (some p) = .ok h' ∧ Refines h' (s.addOrder o)
      (Function.update cells (o.isBuy, o.productID) (cells (o.isBuy, o.productID) ++ [(p, o)]))
      loose := by
  obtain ⟨heap, list, heq, ho⟩ := Orderbook.addToTail_owned hr.owned (o.isBuy, o.productID)
  refine ⟨h.setBook (o.isBuy, o.productID) (heap, list), ?_, ho, ?_⟩
  · rw [HeapExchange.addOrder, bind_ok (hr.read_loose List.mem_cons_self), heq]
    rfl
  · rw [Exchange.addOrder, hr.orders_eq]
    have hset := hr.setOrders_eq o.isBuy o.productID (cells (o.isBuy, o.productID) ++ [(p, o)])
    rw [vals_append] at hset
    exact hset

/-- **`delete_order`** closes the gap. -/
theorem deleteOrder (hr : Refines h s cells loose) (hk : cells (b, i) = xs ++ (p, o) :: ys) :
    ∃ h', h.deleteOrder (some p) b i = .ok h' ∧ Refines h' (s.deleteOrder ⟨xs.length, o⟩ b i)
      (Function.update cells (b, i) (xs ++ ys)) ((p, o) :: loose) := by
  obtain ⟨heap, list, heq, ho⟩ := Orderbook.deleteOrder_owned hr.owned hk
  refine ⟨h.setBook (b, i) (heap, list), ?_, ho, ?_⟩
  · rw [HeapExchange.deleteOrder, heq]
    rfl
  · rw [Exchange.deleteOrder, hr.orders_eq, hk]
    have hset := hr.setOrders_eq b i (xs ++ ys)
    have hdel : (⟨xs.length, o⟩ : Cell (Order P T)).delete (vals (xs ++ (p, o) :: ys)) =
        vals (xs ++ ys) := by
      simp [Cell.delete, vals, List.eraseIdx_append_of_length_le]
    rw [hdel]
    exact hset

/-- What reads an order and then does not touch the lists. -/
theorem withOrder (hr : Refines h s cells loose) (hread : h.read (some p) = .ok o)
    {f : Order P T → Exchange P T → Exchange P T}
    (hf : ∀ (d : Exchange P T) orders, f o { d with orders := orders } =
      { f o d with orders := orders }) :
    ∃ h', (do pure (h.onData (f (← h.read (some p)))) : Except HeapFault (HeapExchange P T)) =
      .ok h' ∧ Refines h' (f o s) cells loose := by
  refine ⟨h.onData (f o), ?_, hr.onData hf⟩
  rw [bind_ok hread]
  rfl

theorem addOrderPrints (hr : Refines h s cells loose) (hread : h.read (some p) = .ok o) :
    ∃ h', h.addOrderPrints A (some p) = .ok h' ∧ Refines h' (s.addOrderPrints A o) cells loose :=
  hr.withOrder hread fun _ _ => rfl

theorem cancelOrderPrints (hr : Refines h s cells loose) (hread : h.read (some p) = .ok o) :
    ∃ h', h.cancelOrderPrints A (some p) = .ok h' ∧
      Refines h' (s.cancelOrderPrints A o) cells loose :=
  hr.withOrder hread fun _ _ => rfl

theorem writeAccepted (hr : Refines h s cells loose) (hread : h.read (some p) = .ok o)
    (ind : Fin T) : ∃ h', h.writeAccepted (some p) ind = .ok h' ∧
      Refines h' (s.writeAccepted o ind) cells loose :=
  hr.withOrder hread fun _ _ => rfl

theorem writeAmended (hr : Refines h s cells loose) (hread : h.read (some p) = .ok o)
    (ind : Fin T) : ∃ h', h.writeAmended (some p) ind = .ok h' ∧
      Refines h' (s.writeAmended o ind) cells loose :=
  hr.withOrder hread fun _ _ => rfl

theorem cancelOrder (hr : Refines h s cells loose) (hk : cells (b, i) = xs ++ (p, o) :: ys) :
    ∃ h', h.cancelOrder (some p) b i = .ok h' ∧ Refines h' (s.deleteOrder ⟨xs.length, o⟩ b i)
      (Function.update cells (b, i) (xs ++ ys)) loose := by
  obtain ⟨h₁, heq₁, hr₁⟩ := hr.deleteOrder hk
  obtain ⟨h₂, heq₂, hr₂⟩ := hr₁.free
  exact ⟨h₂, by rw [HeapExchange.cancelOrder, bind_ok heq₁, heq₂], hr₂⟩

/-! ## Searching -/

/-- The pointer `r` is to the node at the position of the cell, if there is one. -/
def PointsTo (cs : List (Nat × Order P T)) : Option (Cell (Order P T)) → Ptr → Prop
  | none, r => r = none
  | some c, r => ∃ p, r = some p ∧ cs[c.idx]? = some (p, c.val)

theorem exists_split {cs : List (Nat × Order P T)} {c : Cell (Order P T)}
    (hc : cs[c.idx]? = some (p, c.val)) :
    ∃ xs ys, cs = xs ++ (p, c.val) :: ys ∧ c = ⟨xs.length, c.val⟩ := by
  obtain ⟨xs, ys, heq, hlen, -⟩ := (show Cell.In ⟨c.idx, (p, c.val)⟩ cs from hc).split
  refine ⟨xs, ys, heq, ?_⟩
  obtain ⟨idx, v⟩ := c
  have hidx : xs.length = idx := hlen
  rw [hidx]

theorem getElem?_split (xs : List (Nat × Order P T)) (c : Nat × Order P T) (ys) :
    (xs ++ c :: ys)[xs.length]? = some c := by
  rw [List.getElem?_append_right (Nat.le_refl _), Nat.sub_self]
  rfl

/-- The loop of `find_best_sell` and `find_best_buy` from a node on. -/
theorem searchBest (hr : Refines h s cells loose) (improves : Int → Int → Bool) {fuel : Nat}
    {best : Option (Cell (Order P T))} {r : Ptr} {price : Int} (hk : cells k = xs ++ ys)
    (hfuel : ys.length ≤ fuel) (hbest : PointsTo (cells k) best r) :
    ∃ r', h.searchBest improves fuel r price (first ys) =
        .ok (r', (PeExchange.searchBest improves xs.length best price (vals ys)).2) ∧
      PointsTo (cells k) (PeExchange.searchBest improves xs.length best price (vals ys)).1 r' := by
  induction ys generalizing xs fuel best r price with
  | nil =>
    refine ⟨r, ?_, hbest⟩
    cases fuel <;> rfl
  | cons c ys ih =>
    obtain ⟨p, o⟩ := c
    cases fuel with
    | zero => exact absurd hfuel (Nat.not_succ_le_zero _)
    | succ fuel =>
      have hk' : cells k = xs ++ [(p, o)] ++ ys := by rw [hk, List.append_assoc]; rfl
      have hlen : (xs ++ [(p, o)]).length = xs.length + 1 := List.length_append
      have hfuel' : ys.length ≤ fuel := Nat.le_of_succ_le_succ hfuel
      show ∃ r', h.searchBest improves (fuel + 1) r price (some p) = _ ∧ _
      rw [HeapExchange.searchBest, bind_ok (hr.load_cell hk)]
      show ∃ r', _ = Except.ok (r', (PeExchange.searchBest improves xs.length best price
        (o :: vals ys)).2) ∧ PointsTo _ (PeExchange.searchBest improves xs.length best price
          (o :: vals ys)).1 r'
      rw [PeExchange.searchBest]
      by_cases himp : improves o.price price = true
      · rw [if_pos himp, if_pos himp, ← hlen]
        refine ih hk' hfuel' ⟨p, rfl, ?_⟩
        rw [hk]
        exact getElem?_split xs _ ys
      · rw [if_neg himp, if_neg himp, ← hlen]
        exact ih hk' hfuel' hbest

/-- The loop of `find_order` from a node on. -/
theorem findFrom (hr : Refines h s cells loose) (trader : Fin T) (id : Int) {fuel : Nat}
    (hk : cells k = xs ++ ys) (hfuel : ys.length ≤ fuel) :
    ∃ r, h.findFrom trader id fuel (first ys) = .ok r ∧ PointsTo (cells k)
      (locateFrom (fun o => o.orderID = id && o.traderID = trader) xs.length (vals ys)) r := by
  induction ys generalizing xs fuel with
  | nil =>
    refine ⟨none, ?_, rfl⟩
    cases fuel <;> rfl
  | cons c ys ih =>
    obtain ⟨p, o⟩ := c
    cases fuel with
    | zero => exact absurd hfuel (Nat.not_succ_le_zero _)
    | succ fuel =>
      have hk' : cells k = xs ++ [(p, o)] ++ ys := by rw [hk, List.append_assoc]; rfl
      have hlen : (xs ++ [(p, o)]).length = xs.length + 1 := List.length_append
      show ∃ r, h.findFrom trader id (fuel + 1) (some p) = _ ∧
        PointsTo _ (locateFrom _ _ (o :: vals ys)) r
      rw [HeapExchange.findFrom, bind_ok (hr.load_cell hk), locateFrom]
      by_cases htest : (o.orderID = id && o.traderID = trader) = true
      · rw [if_pos htest, if_pos htest]
        refine ⟨some p, rfl, p, rfl, ?_⟩
        rw [hk]
        exact getElem?_split xs _ ys
      · rw [if_neg htest, if_neg htest, ← hlen]
        exact ih hk' (Nat.le_of_succ_le_succ hfuel)

/-- The search for an order of a trader, from the head of a list. -/
theorem findFrom_head (hr : Refines h s cells loose) (trader : Fin T) (id : Int) (b : Bool)
    (i : Fin P) : ∃ r, h.findFrom trader id h.heap.next (h.books (b, i)).head = .ok r ∧
      PointsTo (cells (b, i))
        (locate (fun o => o.orderID = id && o.traderID = trader) (s.orders b i)) r := by
  rw [(hr.owned.linked (b, i)).head, hr.orders_eq]
  have hk : cells (b, i) = [] ++ cells (b, i) := rfl
  exact hr.findFrom trader id hk (hr.owned.length_le _)

/-- The pointer `r` is to the node at the position of the cell in some list. -/
def Found (cells : Bool × Fin P → List (Nat × Order P T)) :
    Option (Cell (Order P T)) → Ptr → Prop
  | none, r => r = none
  | some c, r => ∃ p b i, r = some p ∧ (cells (b, i))[c.idx]? = some (p, c.val)

/-- `find_order` over some products. -/
theorem findOrderIn (hr : Refines h s cells loose) (trader : Fin T) (id : Int)
    (products : List (Fin P)) :
    ∃ r, h.findOrderIn trader id products = .ok r ∧ Found cells (products.findSome? fun i =>
      (locate (fun o => o.orderID = id && o.traderID = trader) (s.orders true i)).or
        (locate (fun o => o.orderID = id && o.traderID = trader) (s.orders false i))) r := by
  induction products with
  | nil => exact ⟨none, rfl, rfl⟩
  | cons i products ih =>
    obtain ⟨r₁, heq₁, hp₁⟩ := hr.findFrom_head trader id true i
    obtain ⟨r₂, heq₂, hp₂⟩ := hr.findFrom_head trader id false i
    rw [HeapExchange.findOrderIn, bind_ok heq₁, List.findSome?_cons]
    cases hbuy : locate (fun o => o.orderID = id && o.traderID = trader) (s.orders true i) with
    | some c =>
      rw [hbuy] at hp₁
      obtain ⟨p, rfl, hc⟩ := hp₁
      exact ⟨some p, rfl, p, true, i, rfl, hc⟩
    | none =>
      rw [hbuy] at hp₁
      obtain rfl : r₁ = none := hp₁
      rw [bind_ok heq₂]
      cases hsell : locate (fun o => o.orderID = id && o.traderID = trader) (s.orders false i) with
      | some c =>
        rw [hsell] at hp₂
        obtain ⟨p, rfl, hc⟩ := hp₂
        exact ⟨some p, rfl, p, false, i, rfl, hc⟩
      | none =>
        rw [hsell] at hp₂
        obtain rfl : r₂ = none := hp₂
        exact ih

/-- `find_order` finds the node of the order that it finds. -/
theorem findOrder (hr : Refines h s cells loose) (trader : Fin T) (id : Int) :
    ∃ r, h.findOrder trader id = .ok r ∧ Found cells (s.findOrder trader id) r :=
  hr.findOrderIn trader id _

/-- The result of a search that may be dropped. -/
theorem PointsTo.ite {cs : List (Nat × Order P T)} {c : Option (Cell (Order P T))} {r : Ptr}
    (hc : PointsTo cs c r) (keep : Prop) [Decidable keep] :
    ∃ r', (if keep then pure r else pure none : Except HeapFault Ptr) = .ok r' ∧
      PointsTo cs (if keep then c else none) r' := by
  by_cases hkeep : keep
  · exact ⟨r, if_pos hkeep, by rwa [if_pos hkeep]⟩
  · exact ⟨none, if_neg hkeep, by rw [if_neg hkeep]; rfl⟩

/-- The cheapest sell order, and the first of these. -/
theorem findBestSell (hr : Refines h s cells loose) (ho : (p, o) ∈ loose) :
    ∃ r, h.findBestSell (some p) = .ok r ∧ PointsTo (cells (false, o.productID))
      (PeExchange.findBestSell o (s.orders false o.productID)) r := by
  have hread := hr.read_loose ho
  have hlen := hr.owned.length_le (false, o.productID)
  rw [HeapExchange.findBestSell, bind_ok hread, (hr.owned.linked _).head, hr.orders_eq]
  cases hk : cells (false, o.productID) with
  | nil => exact ⟨none, rfl, rfl⟩
  | cons c cs =>
    obtain ⟨q, v⟩ := c
    have hk' : cells (false, o.productID) = [] ++ (q, v) :: cs := hk
    have hfirst : PointsTo (cells (false, o.productID)) (some ⟨0, v⟩) (some q) :=
      ⟨q, rfl, by rw [hk]; rfl⟩
    rw [hk] at hlen
    obtain ⟨r, heq, hbest⟩ := hr.searchBest (fun p q => p < q) hk' hlen hfirst
    show ∃ r, (h.read (some q) >>= _) = _ ∧ _
    rw [bind_ok (hr.read_cell hk')]
    show ∃ r, (h.searchBest (fun p q => p < q) h.heap.next (some q) v.price
      (first ((q, v) :: cs)) >>= _) = _ ∧ _
    rw [hk] at hbest
    rw [bind_ok heq, bind_ok hread]
    exact hbest.ite ((PeExchange.searchBest (fun p q => p < q) 0 (some ⟨0, v⟩) v.price
      (v :: vals cs)).2 ≤ o.price)

theorem findBestBuy (hr : Refines h s cells loose) (ho : (p, o) ∈ loose) :
    ∃ r, h.findBestBuy (some p) = .ok r ∧ PointsTo (cells (true, o.productID))
      (PeExchange.findBestBuy o (s.orders true o.productID)) r := by
  have hread := hr.read_loose ho
  have hlen := hr.owned.length_le (true, o.productID)
  have hk : cells (true, o.productID) = [] ++ cells (true, o.productID) := rfl
  have hnone : PointsTo (cells (true, o.productID)) none none := rfl
  obtain ⟨r, heq, hbest⟩ := hr.searchBest (fun p q => p > q) hk hlen hnone
  rw [HeapExchange.findBestBuy, bind_ok hread, (hr.owned.linked _).head, hr.orders_eq, bind_ok heq,
    bind_ok hread]
  exact hbest.ite _

/-- The search finds the node of the order that it finds. -/
theorem findBest (hr : Refines h s cells loose) (ho : (p, o) ∈ loose) :
    ∃ r, h.findBest (some p) = .ok r ∧
      PointsTo (cells (!o.isBuy, o.productID)) (s.findBest o) r := by
  rw [HeapExchange.findBest, bind_ok (hr.read_loose ho), Exchange.findBest]
  cases hside : o.isBuy with
  | true => exact hr.findBestSell ho
  | false => exact hr.findBestBuy ho

/-! ## Matching -/

/-- What a match leaves: the new order, unless it is freed. -/
def left (p : Nat) (loose : List (Nat × Order P T)) (o : Order P T) (ret : Int) :
    List (Nat × Order P T) :=
  if ret = 0 then loose else (p, o) :: loose

section Match

variable {q : Nat} {v : Order P T}

/-- Both orders are filled: the resting one is unlinked and both are freed. -/
theorem fillBoth (hr : Refines h s cells ((p, o) :: loose))
    (hk : cells (b, i) = xs ++ (q, v) :: ys) : ∃ h₁ h₂ h₃ h₄,
      h.cancelOrderPrints A (some q) = .ok h₁ ∧ h₁.deleteOrder (some q) b i = .ok h₂ ∧
      h₂.free (some q) = .ok h₃ ∧ h₃.free (some p) = .ok h₄ ∧
      Refines h₄ ((s.cancelOrderPrints A v).deleteOrder ⟨xs.length, v⟩ b i)
        (Function.update cells (b, i) (xs ++ ys)) loose := by
  obtain ⟨h₁, heq₁, hr₁⟩ := hr.cancelOrderPrints (A := A) (hr.read_cell hk)
  obtain ⟨h₂, heq₂, hr₂⟩ := hr₁.deleteOrder hk
  obtain ⟨h₃, heq₃, hr₃⟩ := hr₂.free
  obtain ⟨h₄, heq₄, hr₄⟩ := hr₃.free
  exact ⟨h₁, h₂, h₃, h₄, heq₁, heq₂, heq₃, heq₄, hr₄⟩

/-- The resting order is filled: it is unlinked, still read, and then freed. -/
theorem fillResting (hr : Refines h s cells ((p, o) :: loose))
    (hk : cells (b, i) = xs ++ (q, v) :: ys) (n : Int) : ∃ h₁ h₂ h₃ h₄,
      h.cancelOrderPrints A (some q) = .ok h₁ ∧ h₁.deleteOrder (some q) b i = .ok h₂ ∧
      h₂.read (some p) = .ok o ∧ h₂.read (some q) = .ok v ∧
      h₂.setQuantity (some p) n = .ok h₃ ∧ h₃.free (some q) = .ok h₄ ∧
      Refines h₄ ((s.cancelOrderPrints A v).deleteOrder ⟨xs.length, v⟩ b i)
        (Function.update cells (b, i) (xs ++ ys)) ((p, { o with quantity := n }) :: loose) := by
  obtain ⟨h₁, heq₁, hr₁⟩ := hr.cancelOrderPrints (A := A) (hr.read_cell hk)
  obtain ⟨h₂, heq₂, hr₂⟩ := hr₁.deleteOrder hk
  have hp := hr₂.read_loose (List.mem_cons_of_mem _ List.mem_cons_self)
  have hq := hr₂.read_loose List.mem_cons_self
  obtain ⟨h₃, heq₃, hr₃⟩ := (hr₂.perm (List.Perm.swap _ _ _)).setQuantity_loose n
  obtain ⟨h₄, heq₄, hr₄⟩ := (hr₃.perm (List.Perm.swap _ _ _)).free
  exact ⟨h₁, h₂, h₃, h₄, heq₁, heq₂, hp, hq, heq₃, heq₄, hr₄⟩

/-- The new order is filled: the resting one stays with what is left of it. -/
theorem fillNew (hr : Refines h s cells ((p, o) :: loose))
    (hk : cells (b, i) = xs ++ (q, v) :: ys) (n : Int) : ∃ h₁ h₂ h₃ h₄,
      h.cancelOrderPrints A (some q) = .ok h₁ ∧
      h₁.read (some p) = .ok o ∧ h₁.read (some q) = .ok v ∧
      h₁.setQuantity (some q) n = .ok h₂ ∧ h₂.addOrderPrints A (some q) = .ok h₃ ∧
      h₃.free (some p) = .ok h₄ ∧
      Refines h₄ (((s.cancelOrderPrints A v).storeOrder ⟨xs.length, v⟩ b i
          { v with quantity := n }).addOrderPrints A { v with quantity := n })
        (Function.update cells (b, i) (xs ++ (q, { v with quantity := n }) :: ys)) loose := by
  obtain ⟨h₁, heq₁, hr₁⟩ := hr.cancelOrderPrints (A := A) (hr.read_cell hk)
  have hp := hr₁.read_loose List.mem_cons_self
  have hq := hr₁.read_cell hk
  obtain ⟨h₂, heq₂, hr₂⟩ := hr₁.setQuantity_cell hk n
  have hq₂ := hr₂.read_cell (Function.update_self (b, i) _ cells)
  obtain ⟨h₃, heq₃, hr₃⟩ := hr₂.addOrderPrints (A := A) hq₂
  obtain ⟨h₄, heq₄, hr₄⟩ := hr₃.free
  exact ⟨h₁, h₂, h₃, h₄, heq₁, hp, hq, heq₂, heq₃, heq₄, hr₄⟩

/-- **A match of a buy order**, with the nodes it frees. -/
theorem matchNewBuy (hr : Refines h s cells ((p, o) :: loose))
    (hk : cells (false, o.productID) = xs ++ (q, v) :: ys) :
    ∃ h' cells', h.matchNewBuy A (some p) (some q) =
        .ok (h', (s.matchNewBuy A o ⟨xs.length, v⟩).2.2) ∧
      Refines h' (s.matchNewBuy A o ⟨xs.length, v⟩).1 cells'
        (left p loose (s.matchNewBuy A o ⟨xs.length, v⟩).2.1
          (s.matchNewBuy A o ⟨xs.length, v⟩).2.2) := by
  have hp : h.read (some p) = .ok o := hr.read_loose List.mem_cons_self
  have hq : h.read (some q) = .ok v := hr.read_cell hk
  have hsettle : ∀ n rate, h.settleNewBuy A (some p) (some q) n rate =
      .ok (h.onData (·.settleNewBuy A o v n rate)) := by
    intro n rate
    rw [HeapExchange.settleNewBuy, bind_ok hp, bind_ok hq]
    rfl
  have hr₀ : ∀ n rate, Refines (h.onData (·.settleNewBuy A o v n rate))
      (s.settleNewBuy A o v n rate) cells ((p, o) :: loose) :=
    fun n rate => hr.onData fun _ _ => rfl
  rw [HeapExchange.matchNewBuy, bind_ok hp, bind_ok hq, Exchange.matchNewBuy]
  by_cases heq : o.quantity = v.quantity
  · simp only [if_pos heq]
    obtain ⟨h₁, h₂, h₃, h₄, heq₁, heq₂, heq₃, heq₄, hr₄⟩ :=
      (hr₀ v.quantity (feePercentage * (1 / 100))).fillBoth (A := A) hk
    rw [bind_ok (hsettle _ _), bind_ok heq₁, HeapExchange.cancelOrder, bind_ok heq₂, bind_ok heq₃,
      bind_ok heq₄]
    exact ⟨h₄, _, rfl, hr₄⟩
  · simp only [if_neg heq]
    by_cases hgt : o.quantity > v.quantity
    · simp only [if_pos hgt]
      obtain ⟨h₁, h₂, h₃, h₄, heq₁, heq₂, hp₂, hq₂, heq₃, heq₄, hr₄⟩ :=
        (hr₀ v.quantity (1 / 100)).fillResting (A := A) hk (o.quantity - v.quantity)
      rw [bind_ok (hsettle _ _), bind_ok heq₁, bind_ok heq₂, bind_ok hp₂, bind_ok hq₂,
        bind_ok heq₃, bind_ok heq₄]
      exact ⟨h₄, _, rfl, hr₄⟩
    · simp only [if_neg hgt]
      obtain ⟨h₁, h₂, h₃, h₄, heq₁, hp₁, hq₁, heq₂, heq₃, heq₄, hr₄⟩ :=
        (hr₀ o.quantity (1 / 100)).fillNew (A := A) hk (v.quantity - o.quantity)
      rw [bind_ok (hsettle _ _), bind_ok heq₁, bind_ok hp₁, bind_ok hq₁, bind_ok heq₂,
        bind_ok heq₃, bind_ok heq₄]
      exact ⟨h₄, _, rfl, hr₄⟩

/-- **A match of a sell order.** -/
theorem matchNewSell (hr : Refines h s cells ((p, o) :: loose))
    (hk : cells (true, o.productID) = xs ++ (q, v) :: ys) :
    ∃ h' cells', h.matchNewSell A (some p) (some q) =
        .ok (h', (s.matchNewSell A o ⟨xs.length, v⟩).2.2) ∧
      Refines h' (s.matchNewSell A o ⟨xs.length, v⟩).1 cells'
        (left p loose (s.matchNewSell A o ⟨xs.length, v⟩).2.1
          (s.matchNewSell A o ⟨xs.length, v⟩).2.2) := by
  have hp : h.read (some p) = .ok o := hr.read_loose List.mem_cons_self
  have hq : h.read (some q) = .ok v := hr.read_cell hk
  have hsettle : ∀ n rate, h.settleNewSell A (some p) (some q) n rate =
      .ok (h.onData (·.settleNewSell A o v n rate)) := by
    intro n rate
    rw [HeapExchange.settleNewSell, bind_ok hp, bind_ok hq]
    rfl
  have hr₀ : ∀ n rate, Refines (h.onData (·.settleNewSell A o v n rate))
      (s.settleNewSell A o v n rate) cells ((p, o) :: loose) :=
    fun n rate => hr.onData fun _ _ => rfl
  rw [HeapExchange.matchNewSell, bind_ok hp, bind_ok hq, Exchange.matchNewSell]
  by_cases heq : v.quantity = o.quantity
  · simp only [if_pos heq]
    obtain ⟨h₁, h₂, h₃, h₄, heq₁, heq₂, heq₃, heq₄, hr₄⟩ :=
      (hr₀ o.quantity (1 / 100)).fillBoth (A := A) hk
    rw [bind_ok (hsettle _ _), bind_ok heq₁, bind_ok heq₂, bind_ok heq₃, bind_ok heq₄]
    exact ⟨h₄, _, rfl, hr₄⟩
  · simp only [if_neg heq]
    by_cases hgt : v.quantity > o.quantity
    · simp only [if_pos hgt]
      obtain ⟨h₁, h₂, h₃, h₄, heq₁, hp₁, hq₁, heq₂, heq₃, heq₄, hr₄⟩ :=
        (hr₀ o.quantity (1 / 100)).fillNew (A := A) hk (v.quantity - o.quantity)
      rw [bind_ok (hsettle _ _), bind_ok heq₁, bind_ok hq₁, bind_ok hp₁, bind_ok heq₂,
        bind_ok heq₃, bind_ok heq₄]
      exact ⟨h₄, _, rfl, hr₄⟩
    · simp only [if_neg hgt]
      obtain ⟨h₁, h₂, h₃, h₄, heq₁, heq₂, hp₂, hq₂, heq₃, heq₄, hr₄⟩ :=
        (hr₀ v.quantity (1 / 100)).fillResting (A := A) hk (o.quantity - v.quantity)
      rw [bind_ok (hsettle _ _), bind_ok heq₁, bind_ok heq₂, bind_ok hp₂, bind_ok hq₂,
        bind_ok heq₃, bind_ok heq₄]
      exact ⟨h₄, _, rfl, hr₄⟩

/-- A match has the result that it has, and frees what it fills. -/
theorem matchNew (hr : Refines h s cells ((p, o) :: loose))
    (hk : cells (!o.isBuy, o.productID) = xs ++ (q, v) :: ys) :
    ∃ h' cells', h.matchNew A (some p) (some q) =
        .ok (h', (s.matchNew A o ⟨xs.length, v⟩).2.2) ∧
      Refines h' (s.matchNew A o ⟨xs.length, v⟩).1 cells'
        (left p loose (s.matchNew A o ⟨xs.length, v⟩).2.1
          (s.matchNew A o ⟨xs.length, v⟩).2.2) := by
  rw [HeapExchange.matchNew, bind_ok (hr.read_loose List.mem_cons_self), Exchange.matchNew]
  cases hside : o.isBuy with
  | true =>
    rw [hside] at hk
    exact hr.matchNewBuy hk
  | false =>
    rw [hside] at hk
    exact hr.matchNewSell hk

end Match

/-- The loop of `check_for_match`, with at least as many steps allowed. -/
theorem checkLoop {n m : Nat} (hr : Refines h s cells ((p, o) :: loose)) (hn : n ≤ m)
    {r : Exchange P T × Order P T × Int} (hl : Exchange.checkLoop A n s o = .ok r) :
    ∃ h' cells', HeapExchange.checkLoop A m h (some p) = .ok (h', r.2.2) ∧
      Refines h' r.1 cells' (left p loose r.2.1 r.2.2) := by
  induction n generalizing m h s o cells with
  | zero => cases hl
  | succ n ih =>
    cases m with
    | zero => exact absurd hn (Nat.not_succ_le_zero n)
    | succ m =>
      rw [HeapExchange.checkLoop, bind_ok (hr.read_loose List.mem_cons_self)]
      rw [Exchange.checkLoop] at hl
      by_cases hq : o.quantity > 0
      · rw [if_pos hq] at hl ⊢
        obtain ⟨b, hb, hbest⟩ := hr.findBest List.mem_cons_self
        rw [bind_ok hb]
        cases hf : s.findBest o with
        | none =>
          rw [hf] at hl hbest
          obtain rfl : b = none := hbest
          obtain rfl := Except.ok.inj hl
          exact ⟨h, cells, rfl, hr⟩
        | some c =>
          rw [hf] at hl hbest
          obtain ⟨q, rfl, hc⟩ := hbest
          obtain ⟨xs, ys, hk, hcell⟩ := exists_split hc
          obtain ⟨h₁, cells₁, heq₁, hr₁⟩ := hr.matchNew (A := A) hk
          rw [← hcell] at heq₁ hr₁
          show ∃ h' cells', (h.matchNew A (some p) (some q) >>= _) = _ ∧ _
          rw [bind_ok heq₁]
          change (if (s.matchNew A o c).2.2 = 0 then _ else _) = _ at hl
          by_cases hret : (s.matchNew A o c).2.2 = 0
          · rw [if_pos hret] at hl
            obtain rfl := Except.ok.inj hl
            rw [left, if_pos hret] at hr₁
            exact ⟨h₁, cells₁, by rw [if_pos hret]; rfl, hr₁⟩
          · rw [if_neg hret] at hl
            rw [left, if_neg hret] at hr₁
            rw [if_neg hret]
            exact ih hr₁ (Nat.le_of_succ_le_succ hn) hl
      · rw [if_neg hq] at hl ⊢
        obtain rfl := Except.ok.inj hl
        exact ⟨h, cells, rfl, hr⟩

/-- `check_for_match` returns 0 or 1. -/
theorem checkLoop_ret {n : Nat} {r : Exchange P T × Order P T × Int}
    (hl : Exchange.checkLoop A n s o = .ok r) : r.2.2 = 0 ∨ r.2.2 = 1 := by
  induction n generalizing s o with
  | zero => cases hl
  | succ n ih =>
    rw [Exchange.checkLoop] at hl
    split at hl
    · split at hl
      · cases hl
        exact .inr rfl
      · change (if _ then _ else _) = _ at hl
        split at hl
        · cases hl
          exact .inl rfl
        · exact ih hl
    · cases hl
      exact .inr rfl

/-- What is left of the new order is linked into its list. -/
theorem matchAndInsert (hr : Refines h s cells ((p, o) :: loose)) {s' : Exchange P T}
    (hl : s.matchAndInsert A o = .ok s') :
    ∃ h' cells', h.matchAndInsert A (some p) = .ok h' ∧ Refines h' s' cells' loose := by
  obtain ⟨⟨s₁, o', ret⟩, hcheck, hl⟩ := bind_eq_ok hl
  have hbound : (s.orders (!o.isBuy) o.productID).length + 1 ≤ h.heap.next + 1 := by
    rw [hr.orders_eq, vals, List.length_map]
    exact Nat.succ_le_succ (hr.owned.length_le _)
  obtain ⟨h₁, cells₁, heq₁, hr₁⟩ := hr.checkLoop hbound hcheck
  rw [HeapExchange.matchAndInsert, HeapExchange.checkForMatch, bind_ok heq₁]
  show ∃ h' cells', (if ret = 1 then _ else _) = _ ∧ _
  change (if ret = 1 then _ else _) = _ at hl
  change Refines h₁ s₁ cells₁ (left p loose o' ret) at hr₁
  by_cases hret : ret = 1
  · rw [if_pos hret] at hl ⊢
    rw [left, if_neg (by omega)] at hr₁
    obtain rfl := Except.ok.inj hl
    obtain ⟨h₂, heq₂, hr₂⟩ := hr₁.addOrderPrints (A := A) (hr₁.read_loose List.mem_cons_self)
    obtain ⟨h₃, heq₃, hr₃⟩ := hr₂.addOrder
    exact ⟨h₃, _, by rw [bind_ok heq₂, heq₃], hr₃⟩
  · rw [if_neg hret] at hl ⊢
    rw [left, if_pos ((checkLoop_ret hcheck).resolve_right hret)] at hr₁
    obtain rfl := Except.ok.inj hl
    exact ⟨h₁, cells₁, rfl, hr₁⟩

end Refines

/-! ## Commands -/

/-- Both sides have a result, and these are related, or both end with the same
fault, which is not one of memory. -/
inductive Agree {α β : Type} (R : α → β → Prop) : Except HeapFault α → Except Fault β → Prop where
  | ok {a : α} {b : β} (hr : R a b) : Agree R (.ok a) (.ok b)
  | error (f : Fault) : Agree R (.error (.other f)) (.error f)

/-- Two computations that agree go on to agree. -/
theorem Agree.bind {α β γ δ : Type} {R : α → β → Prop} {R' : γ → δ → Prop}
    {x : Except HeapFault α} {y : Except Fault β} {f : α → Except HeapFault γ}
    {g : β → Except Fault δ} (hxy : Agree R x y)
    (hfg : ∀ a b, R a b → y = .ok b → Agree R' (f a) (g b)) : Agree R' (x >>= f) (y >>= g) := by
  cases hxy with
  | ok hr => exact hfg _ _ hr rfl
  | error e => exact .error e

/-- What the heap computes, the lists compute. -/
theorem Agree.exists_right {α β : Type} {R : α → β → Prop} {x : Except HeapFault α}
    {y : Except Fault β} {a : α} (hxy : Agree R x y) (hx : x = .ok a) : ∃ b, y = .ok b ∧ R a b := by
  cases hxy with
  | ok hr =>
    cases hx
    exact ⟨_, rfl, hr⟩
  | error e => cases hx

theorem Agree.exists_left {α β : Type} {R : α → β → Prop} {x : Except HeapFault α}
    {y : Except Fault β} {b : β} (hxy : Agree R x y) (hy : y = .ok b) : ∃ a, x = .ok a ∧ R a b := by
  cases hxy with
  | ok hr =>
    cases hy
    exact ⟨_, rfl, hr⟩
  | error e => cases hy

/-- What does not use the heap. -/
theorem Agree.lift {α : Type} (x : Except Fault α) : Agree Eq (x.mapError .other) x := by
  cases x with
  | ok a => exact .ok rfl
  | error e => exact .error e

namespace Refines

variable {h : HeapExchange P T} {s : Exchange P T}
  {cells : Bool × Fin P → List (Nat × Order P T)} {ind : Fin T}

/-- The command is rejected on both sides, or goes on with the same new order. -/
inductive Enters : Option (HeapExchange P T × Ptr) → Option (Exchange P T × Order P T) →
    Prop where
  | none : Enters none none
  | some {h : HeapExchange P T} {s : Exchange P T}
      {cells : Bool × Fin P → List (Nat × Order P T)} {p : Nat} {o : Order P T}
      (hr : Refines h s cells [(p, o)]) : Enters (some (h, some p)) (some (s, o))

/-- A new order that is accepted is in no list yet. -/
theorem newOrderMsg (hr : Refines h s cells []) (msg : List Char) (ind : Fin T) :
    Agree Enters (h.newOrderMsg vp msg ind) (s.newOrderMsg vp msg ind) := by
  rw [HeapExchange.newOrderMsg, Exchange.newOrderMsg, hr.traders_eq]
  by_cases hspace : spaceCount msg ≠ 4
  · rw [if_pos hspace, if_pos hspace]
    exact .ok .none
  · rw [if_neg hspace, if_neg hspace]
    refine (Agree.lift _).bind ?_
    rintro created _ rfl -
    cases created with
    | none => exact .ok .none
    | some r =>
      obtain ⟨o, trader⟩ := r
      have hr₁ : Refines (h.onData (·.setTrader ind trader)) (s.setTrader ind trader) cells [] :=
        hr.onData fun _ _ => rfl
      have hr₂ := hr₁.alloc o
      obtain ⟨h₃, heq₃, hr₃⟩ := hr₂.writeAccepted (hr₂.read_loose List.mem_cons_self) ind
      show Agree Enters (((h.onData (·.setTrader ind trader)).alloc o).1.writeAccepted (some _)
        ind >>= _) _
      rw [bind_ok heq₃]
      exact .ok (.some hr₃)

theorem checkAmendArgs (hr : Refines h s cells []) (ind : Fin T) (args : AmendArgs) :
    ∃ r, h.checkAmendArgs ind args = .ok r ∧ Found cells (s.checkAmendArgs ind args) r := by
  rw [HeapExchange.checkAmendArgs, Exchange.checkAmendArgs]
  split
  · exact ⟨none, rfl, rfl⟩
  · split
    · exact ⟨none, rfl, rfl⟩
    · split
      · exact ⟨none, rfl, rfl⟩
      · exact hr.findOrder ind args.id

theorem checkValidAmend (hr : Refines h s cells []) (quantity price : Int) (ind : Fin T)
    (msg : List Char) : Agree (fun r c => Found cells c r)
      (h.checkValidAmend quantity price ind msg) (s.checkValidAmend quantity price ind msg) := by
  rw [HeapExchange.checkValidAmend, Exchange.checkValidAmend]
  by_cases hspace : spaceCount msg ≠ 3
  · rw [if_pos hspace, if_pos hspace]
    exact .ok rfl
  · rw [if_neg hspace, if_neg hspace]
    refine (Agree.lift _).bind ?_
    rintro args _ rfl -
    obtain ⟨r, heq, hfound⟩ := hr.checkAmendArgs ind (amendArgs quantity price args)
    rw [heq]
    exact .ok hfound

/-- In the lists of a well-formed state an order that is found is where its side
and product say. -/
theorem Found.exists_split (hr : Refines h s cells []) (hw : s.WellFormed vp) {c : Cell (Order P T)}
    {r : Ptr} (hc : Found cells (some c) r) : ∃ p xs ys, r = some p ∧
      cells (c.val.isBuy, c.val.productID) = xs ++ (p, c.val) :: ys ∧ c = ⟨xs.length, c.val⟩ := by
  obtain ⟨p, b, i, rfl, hget⟩ := hc
  obtain ⟨xs, ys, hk, hcell⟩ := Refines.exists_split hget
  have hmem : c.val ∈ s.orders b i := by
    rw [hr.orders_eq, hk, vals_append]
    exact List.mem_append_right _ List.mem_cons_self
  obtain ⟨rfl, rfl⟩ := hw.placed b i c.val hmem
  exact ⟨p, xs, ys, rfl, hk, hcell⟩

/-- An amended order takes the place of the old one, which is freed. -/
theorem replaceOrder (hr : Refines h s cells []) {o : Order P T} {p : Nat}
    {xs ys : List (Nat × Order P T)} (hk : cells (o.isBuy, o.productID) = xs ++ (p, o) :: ys)
    (newPrice newQuantity : Int) (ind : Fin T) :
    ∃ h' cells' q, h.replaceOrder A newPrice newQuantity (some p) ind = .ok (h', some q) ∧
      Refines h' (((s.writeAmended (createAmendedOrder newPrice newQuantity o)
        ind).cancelOrderPrints A o).deleteOrder ⟨xs.length, o⟩ o.isBuy o.productID) cells'
          [(q, createAmendedOrder newPrice newQuantity o)] := by
  have hr₁ := hr.alloc (createAmendedOrder newPrice newQuantity o)
  obtain ⟨h₂, heq₂, hr₂⟩ := hr₁.writeAmended (hr₁.read_loose List.mem_cons_self) ind
  have hp₂ := hr₂.read_cell hk
  obtain ⟨h₃, heq₃, hr₃⟩ := hr₂.cancelOrderPrints (A := A) hp₂
  obtain ⟨h₄, heq₄, hr₄⟩ := hr₃.deleteOrder hk
  obtain ⟨h₅, heq₅, hr₅⟩ := hr₄.free
  refine ⟨h₅, _, h.heap.next, ?_, hr₅⟩
  rw [HeapExchange.replaceOrder, bind_ok (hr.read_cell hk)]
  show ((h.alloc (createAmendedOrder newPrice newQuantity o)).1.writeAmended (some _) ind >>= _) = _
  rw [bind_ok heq₂, bind_ok hp₂, bind_ok heq₃, bind_ok heq₄, bind_ok heq₅]
  rfl

/-- The order that replaces an amended one is in no list yet. -/
theorem amendOrderMsg (hr : Refines h s cells []) (hw : s.WellFormed vp) (msg : List Char)
    (ind : Fin T) : Agree Enters (h.amendOrderMsg A msg ind) (s.amendOrderMsg A msg ind) := by
  refine (Agree.lift _).bind ?_
  rintro args _ rfl -
  by_cases hargs : ∃ newQuantity newPrice, args = [.int newQuantity, .int newPrice]
  · obtain ⟨newQuantity, newPrice, rfl⟩ := hargs
    refine (hr.checkValidAmend newQuantity newPrice ind msg).bind fun r c hc _ => ?_
    cases c with
    | none =>
      obtain rfl : r = none := hc
      exact .ok .none
    | some c =>
      obtain ⟨p, xs, ys, rfl, hk, hcell⟩ := Found.exists_split hr hw hc
      obtain ⟨h', cells', q, heq, hr'⟩ := hr.replaceOrder (A := A) hk newPrice newQuantity ind
      rw [← hcell] at hr'
      show Agree Enters (some <$> h.replaceOrder A newPrice newQuantity (some p) ind) _
      rw [heq]
      exact .ok (.some hr')
  · -- `sscanf` has not converted both numbers
    rcases args with _ | ⟨_ | _, _ | ⟨_ | _, _ | _⟩⟩
    all_goals first | exact .ok .none | exact absurd ⟨_, _, rfl⟩ hargs

/-- A cancelled order is unlinked and freed. -/
theorem removeOrder (hr : Refines h s cells []) {o : Order P T} {p : Nat}
    {xs ys : List (Nat × Order P T)} (hk : cells (o.isBuy, o.productID) = xs ++ (p, o) :: ys)
    (id : Int) (ind : Fin T) : ∃ h' cells', h.removeOrder A id (some p) ind = .ok h' ∧
      Refines h' ((((s.emit [.cancelled o]).writeCancelled id o.product ind
        o.isBuy).cancelOrderPrints A o).deleteOrder ⟨xs.length, o⟩ o.isBuy o.productID) cells'
          [] := by
  have hr₁ : Refines (h.onData fun d => (d.emit [.cancelled o]).writeCancelled id o.product ind
      o.isBuy) ((s.emit [.cancelled o]).writeCancelled id o.product ind o.isBuy) cells [] :=
    hr.onData fun _ _ => rfl
  have hp₁ := hr₁.read_cell hk
  obtain ⟨h₂, heq₂, hr₂⟩ := hr₁.cancelOrderPrints (A := A) hp₁
  obtain ⟨h₃, heq₃, hr₃⟩ := hr₂.cancelOrder hk
  refine ⟨h₃, _, ?_, hr₃⟩
  rw [HeapExchange.removeOrder, bind_ok (hr.read_cell hk)]
  show (HeapExchange.read _ (some p) >>= _) = _
  rw [bind_ok hp₁, bind_ok heq₂, heq₃]

/-- The command is rejected on both sides, or carried out. -/
inductive Cancels : Option (HeapExchange P T) → Option (Exchange P T) → Prop where
  | none : Cancels none none
  | some {h : HeapExchange P T} {s : Exchange P T}
      {cells : Bool × Fin P → List (Nat × Order P T)} (hr : Refines h s cells []) :
      Cancels (some h) (some s)

/-- A cancellation frees the order. -/
theorem cancelMsg (hr : Refines h s cells []) (hw : s.WellFormed vp) (msg : List Char)
    (ind : Fin T) : Agree Cancels (h.cancelMsg A msg ind) (s.cancelMsg A msg ind) := by
  rw [HeapExchange.cancelMsg, Exchange.cancelMsg]
  by_cases hspace : spaceCount msg ≠ 1
  · rw [if_pos hspace, if_pos hspace]
    exact .ok .none
  · rw [if_neg hspace, if_neg hspace]
    refine (Agree.lift _).bind ?_
    rintro args _ rfl -
    by_cases hargs : ∃ id, args = [.int id]
    · obtain ⟨id, rfl⟩ := hargs
      show Agree Cancels (if id < 0 ∨ id > 999999 then _ else _) (if _ then _ else _)
      by_cases hid : id < 0 ∨ id > 999999
      · rw [if_pos hid, if_pos hid]
        exact .ok .none
      · rw [if_neg hid, if_neg hid]
        obtain ⟨r, heq, hfound⟩ := hr.findOrder ind id
        rw [bind_ok heq]
        cases hc : s.findOrder ind id with
        | none =>
          rw [hc] at hfound
          obtain rfl : r = none := hfound
          exact .ok .none
        | some c =>
          rw [hc] at hfound
          obtain ⟨p, xs, ys, rfl, hk, hcell⟩ := Found.exists_split hr hw hfound
          obtain ⟨h', cells', heq', hr'⟩ := hr.removeOrder (A := A) hk id ind
          rw [← hcell] at hr'
          show Agree Cancels (some <$> h.removeOrder A id (some p) ind) _
          rw [heq']
          exact .ok (.some hr')
    · -- `sscanf` has not converted the number
      rcases args with _ | ⟨_ | _, _ | _⟩
      all_goals first | exact .ok .none | exact absurd ⟨_, rfl⟩ hargs

/-- What neither places nor amends an order. -/
theorem incoming_other (A : Arith) (vp : ValidProducts P) (h : HeapExchange P T)
    (s : Exchange P T) {c : Char} (hbuy : c ≠ 'B') (hsell : c ≠ 'S') (hamend : c ≠ 'A')
    (rest : List Char) (ind : Fin T) :
    h.incoming A vp (c :: rest) ind = pure none ∧ s.incoming A vp (c :: rest) ind = pure none := by
  constructor
  · unfold HeapExchange.incoming
    split
    · exact absurd (List.cons.inj ‹_›).1 hbuy
    · exact absurd (List.cons.inj ‹_›).1 hsell
    · exact absurd (List.cons.inj ‹_›).1 hamend
    · rfl
  · unfold Exchange.incoming
    split
    · exact absurd (List.cons.inj ‹_›).1 hbuy
    · exact absurd (List.cons.inj ‹_›).1 hsell
    · exact absurd (List.cons.inj ‹_›).1 hamend
    · rfl

/-- All that comes before matching. -/
theorem incoming (hr : Refines h s cells []) (hw : s.WellFormed vp) (msg : List Char)
    (ind : Fin T) : Agree Enters (h.incoming A vp msg ind) (s.incoming A vp msg ind) := by
  cases msg with
  | nil => exact .ok .none
  | cons c rest =>
    by_cases hbuy : c = 'B'
    · subst hbuy
      exact hr.newOrderMsg _ ind
    · by_cases hsell : c = 'S'
      · subst hsell
        exact hr.newOrderMsg _ ind
      · by_cases hamend : c = 'A'
        · subst hamend
          exact hr.amendOrderMsg hw _ ind
        · obtain ⟨hh, hs⟩ := incoming_other A vp h s hbuy hsell hamend rest ind
          rw [hh, hs]
          exact .ok .none

/-- What does not cancel an order. -/
theorem parseMsg_other (A : Arith) (vp : ValidProducts P) (h : HeapExchange P T)
    (s : Exchange P T) {msg : List Char} (hcancel : ∀ rest, msg ≠ 'C' :: rest) (ind : Fin T) :
    h.parseMsg A vp msg ind = (h.incoming A vp msg ind >>= fun r =>
        r.elim (pure (h.onData (·.writeInvalid ind))) fun e => e.1.matchAndInsert A e.2) ∧
      s.parseMsg A vp msg ind = (s.incoming A vp msg ind >>= fun r =>
        r.elim (pure (s.writeInvalid ind)) fun e => e.1.matchAndInsert A e.2) := by
  constructor
  · unfold HeapExchange.parseMsg
    split
    · exact absurd rfl (hcancel _)
    · congr 1
      funext r
      cases r <;> rfl
  · unfold Exchange.parseMsg
    split
    · exact absurd rfl (hcancel _)
    · congr 1
      funext r
      cases r <;> rfl

/-- **`parse_msg` refines its counterpart**: it leads to a state that refines the
other or ends with the same fault. -/
theorem parseMsg (hr : Refines h s cells []) (hw : s.WellFormed vp) (msg : List Char)
    (ind : Fin T) : Agree (fun h' s' => ∃ cells', Refines h' s' cells' [])
      (h.parseMsg A vp msg ind) (s.parseMsg A vp msg ind) := by
  have hinvalid : Refines (h.onData (·.writeInvalid ind)) (s.writeInvalid ind) cells [] :=
    hr.onData fun _ _ => rfl
  by_cases hcancel : ∃ rest, msg = 'C' :: rest
  · obtain ⟨rest, rfl⟩ := hcancel
    show Agree _ (h.cancelMsg A _ ind >>= _) (s.cancelMsg A _ ind >>= _)
    refine (hr.cancelMsg hw _ ind).bind fun r c hc _ => ?_
    cases hc with
    | none => exact .ok ⟨cells, hinvalid⟩
    | some hr' => exact .ok ⟨_, hr'⟩
  · obtain ⟨hh, hs⟩ := parseMsg_other A vp h s (not_exists.mp hcancel) ind
    rw [hh, hs]
    refine (hr.incoming hw _ ind).bind fun r c hc hin => ?_
    cases hc with
    | none => exact .ok ⟨cells, hinvalid⟩
    | some hr₁ =>
      -- the loop ends on lists, so it does on the heap
      obtain ⟨ms, s₂, o', ret, -, heq⟩ := matchAndInsert_trades (A := A)
        (incoming_enters hin).quantity_pos
      obtain ⟨h', cells', heq', hr'⟩ := hr₁.matchAndInsert heq
      show Agree _ (HeapExchange.matchAndInsert A _ _) (Exchange.matchAndInsert A _ _)
      rw [heq, heq']
      exact .ok ⟨cells', hr'⟩

end Refines

end PeExchange
