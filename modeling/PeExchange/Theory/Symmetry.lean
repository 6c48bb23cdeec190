import PeExchange.Theory.Client
import PeExchange.Theory.Commuting

/-!
# Traders are treated alike

Traders are known by numbers, and the exchange goes through them in the order of these
numbers. Nothing depends on it: give the traders other numbers, and put others among
them who send nothing, and every order, match and account is the same but for the
numbers, and every trader gets the same messages in the same order.

- `renamed`: an order whose trader has another number.
- `Renumbered`: one exchange is the other with other numbers, and maybe more traders.
- `parseMsg_renumbered`: a command, sent by the trader with the new number, does the same.
- `traders_alike`: the same for runs.
-/

namespace PeExchange

open CFormat LinkedList

variable {P T U : Nat}

/-- The order of a trader with another number. -/
def renamed (f : Fin T → Fin U) (o : Order P T) : Order P U :=
  ⟨o.product, o.quantity, o.price, o.orderID, o.productID, f o.traderID, o.isBuy⟩

/-! ## Searches and levels -/

section Renamed

variable (f : Fin T → Fin U) (o : Order P T)

/-- The search for the best offer looks at no names. -/
theorem searchBest_renamed (improves : Int → Int → Bool) (l : List (Order P T)) (i : Nat)
    (best : Option (Cell (Order P T))) (price : Int) :
    searchBest improves i (best.map (Cell.map (renamed f))) price (l.map (renamed f)) =
      ((searchBest improves i best price l).1.map (Cell.map (renamed f)),
        (searchBest improves i best price l).2) := by
  induction l generalizing i best price with
  | nil => rfl
  | cons curr next ih =>
    rw [List.map_cons, searchBest, searchBest]
    show (if improves curr.price price then _ else _) = _
    split
    · exact ih (i + 1) (some ⟨i, curr⟩) curr.price
    · exact ih (i + 1) best price

theorem findBestSell_renamed (l : List (Order P T)) :
    findBestSell (renamed f o) (l.map (renamed f)) =
      (findBestSell o l).map (Cell.map (renamed f)) := by
  cases l with
  | nil => rfl
  | cons head rest =>
    have hsearch : searchBest (fun p q => p < q) 0 (some ⟨0, renamed f head⟩)
        (renamed f head).price (renamed f head :: rest.map (renamed f)) = _ :=
      searchBest_renamed f (fun p q => p < q) (head :: rest) 0 (some ⟨0, head⟩) head.price
    rw [List.map_cons, findBestSell, findBestSell, hsearch]
    dsimp only
    show (if _ ≤ o.price then _ else _) = _
    split <;> rfl

theorem findBestBuy_renamed (l : List (Order P T)) :
    findBestBuy (renamed f o) (l.map (renamed f)) =
      (findBestBuy o l).map (Cell.map (renamed f)) := by
  have hsearch := searchBest_renamed f (fun p q => p > q) l 0 none 0
  unfold findBestBuy
  rw [show (none : Option (Cell (Order P U))) =
    (none : Option (Cell (Order P T))).map (Cell.map (renamed f)) from rfl, hsearch]
  dsimp only
  show (if _ ≥ o.price then _ else _) = _
  split <;> rfl

/-- Levels have no names on them. -/
theorem addFrom_renamed (A : Arith) (temp : PrintedOrder) (l : List PrintedOrder) :
    addFrom A (renamed f o) temp l = addFrom A o temp l := by
  induction l generalizing temp with
  | nil => rfl
  | cons next rest ih =>
    rw [addFrom, addFrom, ih]
    rfl

theorem addToPrints_renamed (A : Arith) (l : List PrintedOrder) :
    addToPrints A l (renamed f o) = addToPrints A l o := by
  cases l with
  | nil => rfl
  | cons head rest =>
    rw [addToPrints, addToPrints, addFrom_renamed]
    rfl

theorem deleteOrderPrints_renamed (A : Arith) (b : PrintedOrderbook) :
    deleteOrderPrints A b (renamed f o) = deleteOrderPrints A b o := by
  have hfrom : ∀ l seen, deleteFrom A b (renamed f o) seen l = deleteFrom A b o seen l := by
    intro l
    induction l with
    | nil => exact fun _ => rfl
    | cons temp next ih =>
      intro seen
      rw [deleteFrom, deleteFrom]
      dsimp only
      rw [ih, ih]
      rfl
  exact hfrom _ _

end Renamed

/-! ## Output -/

/-- Output entries that look the same to every trader, whatever its number, and report
the same matches. -/
structure Seen (f : Fin T → Fin U) (es : List (Event P T)) (es' : List (Event P U)) : Prop where
  messages : ∀ t, messagesTo (f t) es' = messagesTo t es
  matched : matchesOf es' = (matchesOf es).map fun m => (renamed f m.1, renamed f m.2)

namespace Seen

variable {f : Fin T → Fin U} {es es₁ : List (Event P T)} {es' es₁' : List (Event P U)}

theorem append (h : Seen f es es') (h₁ : Seen f es₁ es₁') : Seen f (es ++ es₁) (es' ++ es₁') where
  messages t := by
    rw [Exchange.messagesTo_append, Exchange.messagesTo_append, h.messages, h₁.messages]
  matched := by rw [matchesOf_append, matchesOf_append, h.matched, h₁.matched, List.map_append]

theorem nil (f : Fin T → Fin U) : Seen f ([] : List (Event P T)) ([] : List (Event P U)) :=
  ⟨fun _ => rfl, rfl⟩

/-- A message to a trader. -/
theorem message (hf : Function.Injective f) (d : Fin T) (m : Msg) :
    Seen f [(.message d m : Event P T)] [(.message (f d) m : Event P U)] where
  messages t := by
    rw [Exchange.messagesTo_message, Exchange.messagesTo_message]
    simp only [hf.eq_iff]
    rfl
  matched := rfl

/-- The messages of a loop over all traders. -/
theorem loop {p : Fin T → Bool} {q : Fin U → Bool} (hpq : ∀ t, q (f t) = p t) (m : Msg) :
    Seen f (((List.finRange T).filter p).map fun i => (.message i m : Event P T))
      (((List.finRange U).filter q).map fun i => (.message i m : Event P U)) := by
  have hcount : ∀ {n : Nat} (t : Fin n) (l : List (Fin n)),
      messagesTo t (l.map fun i => (.message i m : Event P n)) = List.replicate (l.count t) m := by
    intro n t l
    induction l with
    | nil => rfl
    | cons i l ih =>
      rw [List.map_cons, Exchange.messagesTo_message, ih, List.count_cons]
      by_cases h : i = t <;> simp [h, List.replicate_succ]
  -- each trader is met once
  have honce : ∀ {n : Nat} (r : Fin n → Bool) (t : Fin n),
      messagesTo t (((List.finRange n).filter r).map fun i => (.message i m : Event P n)) =
        if r t then [m] else [] := by
    intro n r t
    rw [hcount, ((List.nodup_finRange n).filter r).count]
    simp only [List.mem_filter, List.mem_finRange, true_and]
    split <;> rfl
  constructor
  · intro t
    rw [honce, honce, hpq]
  · have hnone : ∀ {n : Nat} (r : Fin n → Bool),
        matchesOf (((List.finRange n).filter r).map fun i => (.message i m : Event P n)) = [] := by
      intro n r
      rw [matchesOf, List.filterMap_map]
      exact List.filterMap_eq_nil_iff.mpr fun _ _ => rfl
    rw [hnone, hnone]
    rfl

end Seen

/-! ## The exchange -/

namespace Exchange

variable {f : Fin T → Fin U} {A : Arith} {vp : ValidProducts P} {s s' s₁ : Exchange P T}
  {e : Exchange P U} {ind : Fin T} {o o' : Order P T} {c : Cell (Order P T)}
  {ms : List (Order P T × Order P T)} {ret : Int} {msg : List Char}

/-- The traders of `s` have other numbers in `e`, where there may be more traders. -/
structure Renumbered (f : Fin T → Fin U) (s : Exchange P T) (e : Exchange P U) : Prop where
  orders : ∀ b i, e.orders b i = (s.orders b i).map (renamed f)
  printedOrders : e.printedOrders = s.printedOrders
  traders : ∀ t, e.traders (f t) = s.traders t
  exchangeFees : e.exchangeFees = s.exchangeFees
  out : Seen f s.out e.out

namespace Renumbered

theorem emit (h : Renumbered f s e) {es : List (Event P T)} {es' : List (Event P U)}
    (hes : Seen f es es') : Renumbered f (s.emit es) (e.emit es') :=
  ⟨h.orders, h.printedOrders, h.traders, h.exchangeFees, h.out.append hes⟩

/-- The others of a renumbered trader are told the same. -/
theorem toOthers (h : Renumbered f s e) (hf : Function.Injective f) (ind : Fin T) (m : Msg) :
    Seen f (s.toOthers ind m) (e.toOthers (f ind) m) := by
  refine Seen.loop (fun t => ?_) m
  rw [h.traders]
  simp only [ne_eq, hf.eq_iff]

/-- A message to a trader that may have gone. -/
theorem ifAlive (h : Renumbered f s e) (hf : Function.Injective f) (t : Fin T) (m : Msg) :
    Seen f (s.ifAlive t m) (e.ifAlive (f t) m) := by
  unfold Exchange.ifAlive
  rw [h.traders]
  split
  · exact .message hf t m
  · exact .nil f

theorem buyOf_renamed (f : Fin T → Fin U) (o r : Order P T) :
    buyOf (renamed f o) (renamed f r) = renamed f (buyOf o r) := by
  unfold buyOf
  show (if o.isBuy then _ else _) = _
  split <;> rfl

theorem sellOf_renamed (f : Fin T → Fin U) (o r : Order P T) :
    sellOf (renamed f o) (renamed f r) = renamed f (sellOf o r) := by
  unfold sellOf
  show (if o.isBuy then _ else _) = _
  split <;> rfl

/-- A match is reported alike. -/
theorem matchEvents (h : Renumbered f s e) (hf : Function.Injective f) (o r : Order P T) :
    Seen f (s.matchEvents o r) (e.matchEvents (renamed f o) (renamed f r)) := by
  have hfill : Seen f [(.fill (buyOf o r) (sellOf o r) (tradedQuantity o r) : Event P T)]
      [.fill (renamed f (buyOf o r)) (renamed f (sellOf o r)) (tradedQuantity o r)] :=
    ⟨fun _ => rfl, rfl⟩
  have hreport : Seen f [(.matched o r (totalPrice o r) (feeOf o r) : Event P T)]
      [.matched (renamed f o) (renamed f r) (totalPrice o r) (feeOf o r)] :=
    ⟨fun _ => rfl, rfl⟩
  unfold Exchange.matchEvents
  rw [buyOf_renamed, sellOf_renamed]
  exact hfill.append (((h.ifAlive hf _ _).append (h.ifAlive hf _ _)).append hreport)

/-- The accounts of a trader after a payment. -/
theorem settle_traders (h : Renumbered f s e) (hf : Function.Injective f) (A : Arith)
    (o r : Order P T) (t : Fin T) :
    (e.settle A (renamed f o) (renamed f r)).traders (f t) = (s.settle A o r).traders t := by
  refine trader_eq ?_ (fun j => ?_) ?_
  · rw [settle_orderID, settle_orderID, h.traders]
  · rw [settle_prodInfo, settle_prodInfo, buyOf_renamed, sellOf_renamed, h.traders]
    show (if j = o.productID ∧ (f t = f _ ∨ f t = f _) then
      (⟨A.int (_ + (if f t = f _ then _ else 0) - (if f t = f _ then _ else 0)),
        A.longLong (_ - (if f t = f _ then _ else 0) - (if f t = f _ then _ else 0) +
          (if f t = f _ then _ else 0))⟩ : TraderBalances) else _) = _
    simp only [hf.eq_iff]
    rfl
  · rw [settle_alive, settle_alive, h.traders]

/-- The accounts of the two parties change alike. -/
theorem settle (h : Renumbered f s e) (hf : Function.Injective f) (A : Arith) (o r : Order P T) :
    Renumbered f (s.settle A o r) (e.settle A (renamed f o) (renamed f r)) where
  orders := h.orders
  printedOrders := h.printedOrders
  traders := h.settle_traders hf A o r
  exchangeFees := by
    rw [settle_exchangeFees, settle_exchangeFees, h.exchangeFees]
    rfl
  out := by
    rw [settle_out, settle_out]
    exact h.out.append (h.matchEvents hf o r)

theorem setOrders (h : Renumbered f s e) (b : Bool) (i : Fin P) (l : List (Order P T)) :
    Renumbered f (s.setOrders b i l) (e.setOrders b i (l.map (renamed f))) := by
  refine ⟨fun b' i' => ?_, h.printedOrders, h.traders, h.exchangeFees, h.out⟩
  rw [setOrders_orders, setOrders_orders]
  split
  · rfl
  · exact h.orders b' i'

/-- Orders are taken off the same places. -/
theorem deleteOrder (h : Renumbered f s e) (c : Cell (Order P T)) (b : Bool) (i : Fin P) :
    Renumbered f (s.deleteOrder c b i) (e.deleteOrder (c.map (renamed f)) b i) := by
  unfold Exchange.deleteOrder
  rw [h.orders, Cell.delete_map]
  exact h.setOrders b i _

theorem storeOrder (h : Renumbered f s e) (c : Cell (Order P T)) (b : Bool) (i : Fin P)
    (v : Order P T) :
    Renumbered f (s.storeOrder c b i v) (e.storeOrder (c.map (renamed f)) b i (renamed f v)) := by
  unfold Exchange.storeOrder
  rw [h.orders, Cell.store_map]
  exact h.setOrders b i _

theorem addOrder (h : Renumbered f s e) (o : Order P T) :
    Renumbered f (s.addOrder o) (e.addOrder (renamed f o)) := by
  have hlist : e.orders o.isBuy o.productID ++ [renamed f o] =
      (s.orders o.isBuy o.productID ++ [o]).map (renamed f) := by
    rw [h.orders, List.map_append]
    rfl
  have hset := h.setOrders o.isBuy o.productID (s.orders o.isBuy o.productID ++ [o])
  rw [← hlist] at hset
  exact hset

/-- The levels change alike. -/
theorem cancelOrderPrints (h : Renumbered f s e) (A : Arith) (o : Order P T) :
    Renumbered f (s.cancelOrderPrints A o) (e.cancelOrderPrints A (renamed f o)) := by
  refine ⟨h.orders, ?_, h.traders, h.exchangeFees, h.out⟩
  show Function.update e.printedOrders o.productID ((deleteOrderPrints A
    (e.printedOrders o.productID) (renamed f o)).setLen o.isBuy) = _
  rw [deleteOrderPrints_renamed, h.printedOrders]
  rfl

theorem addOrderPrints (h : Renumbered f s e) (A : Arith) (o : Order P T) :
    Renumbered f (s.addOrderPrints A o) (e.addOrderPrints A (renamed f o)) := by
  refine ⟨h.orders, ?_, h.traders, h.exchangeFees, h.out⟩
  show Function.update e.printedOrders o.productID (((e.printedOrders o.productID).setHead o.isBuy
    (addToPrints A _ (renamed f o))).setLen o.isBuy) = _
  rw [addToPrints_renamed, h.printedOrders]
  rfl

/-- **One match** keeps the two exchanges alike. -/
theorem execMatch (h : Renumbered f s e) (hf : Function.Injective f) (A : Arith) (o : Order P T)
    (c : Cell (Order P T)) :
    Renumbered f (s.execMatch A o c) (e.execMatch A (renamed f o) (c.map (renamed f))) := by
  have hgone := (h.settle hf A o c.val).cancelOrderPrints A c.val
  unfold Exchange.execMatch
  show Renumbered f _ (if c.val.quantity ≤ o.quantity then _ else _)
  split
  · exact hgone.deleteOrder c _ _
  · exact (hgone.storeOrder c _ _ (withQuantity c.val (c.val.quantity - o.quantity))).addOrderPrints
      A (withQuantity c.val (c.val.quantity - o.quantity))

/-- Storing what is left of an order keeps them alike. -/
theorem afterInsert (h : Renumbered f s e) (A : Arith) (o : Order P T) (ret : Int) :
    Renumbered f (Exchange.afterInsert A s o ret) (Exchange.afterInsert A e (renamed f o) ret) := by
  unfold Exchange.afterInsert
  split
  · exact (h.addOrderPrints A o).addOrder o
  · exact h

/-- The same best offer is found. -/
theorem findBest (h : Renumbered f s e) (o : Order P T) :
    e.findBest (renamed f o) = (s.findBest o).map (Cell.map (renamed f)) := by
  unfold Exchange.findBest
  show (if o.isBuy then findBestSell (renamed f o) (e.orders false o.productID)
    else findBestBuy (renamed f o) (e.orders true o.productID)) = _
  rw [h.orders, h.orders, findBestSell_renamed, findBestBuy_renamed]
  split <;> rfl

/-- The search for a trader's order finds the same one under the new number. -/
theorem findOrder (h : Renumbered f s e) (hf : Function.Injective f) (t : Fin T) (id : Int) :
    e.findOrder (f t) id = (s.findOrder t id).map (Cell.map (renamed f)) := by
  have hlocate : ∀ l : List (Order P T),
      locate (fun o => o.orderID = id && o.traderID = f t) (l.map (renamed f)) =
        (locate (fun o => o.orderID = id && o.traderID = t) l).map (Cell.map (renamed f)) := by
    intro l
    have htest : (fun o : Order P T => (decide ((renamed f o).orderID = id) &&
        decide ((renamed f o).traderID = f t))) = fun o => o.orderID = id && o.traderID = t := by
      funext o
      show (decide (o.orderID = id) && decide (f o.traderID = f t)) = _
      simp only [hf.eq_iff]
    rw [locate_map, htest]
  unfold Exchange.findOrder
  rw [List.map_findSome?]
  congr 1
  funext i
  show _ = Option.map _ (Option.or _ _)
  rw [h.orders, h.orders, hlocate, hlocate, Option.map_or]

theorem setTrader (h : Renumbered f s e) (hf : Function.Injective f) (ind : Fin T) (tr : Trader P) :
    Renumbered f (s.setTrader ind tr) (e.setTrader (f ind) tr) := by
  refine ⟨h.orders, h.printedOrders, fun t => ?_, h.exchangeFees, h.out⟩
  rw [setTrader_traders, setTrader_traders]
  by_cases ht : t = ind
  · subst ht
    rw [Function.update_self, Function.update_self]
  · rw [Function.update_of_ne ht, Function.update_of_ne fun heq => ht (hf heq), h.traders]

/-- What is written when a command is answered: to its trader, then to the others. -/
theorem answer (h : Renumbered f s e) (hf : Function.Injective f) (ind : Fin T) (m m' : Msg)
    {ev : Event P T} {ev' : Event P U} (hev : Seen f [ev] [ev']) :
    Seen f (ev :: .message ind m :: s.toOthers ind m')
      (ev' :: .message (f ind) m :: e.toOthers (f ind) m') :=
  hev.append ((Seen.message hf ind m).append (h.toOthers hf ind m'))

/-- The answer to a new order, and `MARKET` to the others. -/
theorem writeAccepted (h : Renumbered f s e) (hf : Function.Injective f) (ind : Fin T)
    (o : Order P T) :
    Renumbered f (s.writeAccepted o ind) (e.writeAccepted (renamed f o) (f ind)) :=
  h.emit (h.answer hf ind _ _ ⟨fun _ => rfl, rfl⟩)

/-- A resting order goes, and so does what is shown of it. -/
theorem unlink (h : Renumbered f s e) (A : Arith) (c : Cell (Order P T)) :
    Renumbered f ((s.cancelOrderPrints A c.val).deleteOrder c c.val.isBuy c.val.productID)
      ((e.cancelOrderPrints A (renamed f c.val)).deleteOrder (c.map (renamed f)) c.val.isBuy
        c.val.productID) :=
  (h.cancelOrderPrints A c.val).deleteOrder c _ _

/-- An order is amended alike. -/
theorem replaced (h : Renumbered f s e) (hf : Function.Injective f) (A : Arith) (ind : Fin T)
    (c : Cell (Order P T)) (o : Order P T) :
    Renumbered f (s.replaced A ind c o)
      (e.replaced A (f ind) (c.map (renamed f)) (renamed f o)) := by
  have hwritten : Renumbered f (s.writeAmended o ind) (e.writeAmended (renamed f o) (f ind)) :=
    h.emit (h.answer hf ind _ _ ⟨fun _ => rfl, rfl⟩)
  exact hwritten.unlink A c

/-- An order is cancelled alike. -/
theorem afterCancel (h : Renumbered f s e) (hf : Function.Injective f) (A : Arith) (ind : Fin T)
    (c : Cell (Order P T)) :
    Renumbered f (s.afterCancel A ind c) (e.afterCancel A (f ind) (c.map (renamed f))) := by
  have hrecord : Renumbered f (s.emit [.cancelled c.val]) (e.emit [.cancelled (renamed f c.val)]) :=
    h.emit ⟨fun _ => rfl, rfl⟩
  have hwritten : Renumbered f
      ((s.emit [.cancelled c.val]).writeCancelled c.val.orderID c.val.product ind c.val.isBuy)
      ((e.emit [.cancelled (renamed f c.val)]).writeCancelled c.val.orderID c.val.product (f ind)
        c.val.isBuy) :=
    hrecord.emit ((Seen.message hf ind _).append (hrecord.toOthers hf ind _))
  exact hwritten.unlink A c

/-- A trader is disconnected alike. -/
theorem traderDied (h : Renumbered f s e) (hf : Function.Injective f) (i : Fin T) :
    Renumbered f (s.traderDied i) (e.traderDied (f i)) := by
  unfold Exchange.traderDied
  rw [h.traders]
  exact h.setTrader hf i _

end Renumbered

/-! ## A command -/

/-- The matching loop makes the same matches. -/
theorem Trades.renumbered (ht : Trades A s o ms s' o' ret) (h : Renumbered f s e)
    (hf : Function.Injective f) :
    ∃ ms' e', Trades A e (renamed f o) ms' e' (renamed f o') ret ∧ Renumbered f s' e' := by
  have hfound : ∀ {s : Exchange P T} {e : Exchange P U} {o : Order P T} {c : Cell (Order P T)},
      Renumbered f s e → s.findBest o = some c →
        e.findBest (renamed f o) = some (c.map (renamed f)) := by
    intro s e o c h hbest
    rw [h.findBest, hbest]
    rfl
  induction ht generalizing e with
  | @stop s o hq hbest =>
    have hnone : e.findBest (renamed f o) = none := by
      rw [h.findBest, hbest]
      rfl
    exact ⟨[], e, .stop hq hnone, h⟩
  | @last s o c hq hbest hle =>
    have hlast : Trades A e (renamed f o) _ _ (renamed f o) 0 :=
      .last (c := c.map (renamed f)) hq (hfound h hbest) hle
    exact ⟨_, _, hlast, h.execMatch hf A o c⟩
  | @more s _ o _ c _ _ hq hbest hlt _ ih =>
    obtain ⟨ms', e', ht', h'⟩ := ih (h.execMatch hf A o c)
    have hmore : Trades A e (renamed f o) _ e' _ _ :=
      .more (c := c.map (renamed f)) hq (hfound h hbest) hlt ht'
    exact ⟨_, e', hmore, h'⟩

/-- The checks of an order look at no names. -/
theorem checkOrder_renamed (f : Fin T → Fin U) (vp : ValidProducts P) (ind : Fin T)
    (tr : Trader P) (isBuy : Bool) (id : Int) (product : List Char) (q p : Int) :
    checkOrder vp (f ind) tr isBuy id product q p =
      (checkOrder vp ind tr isBuy id product q p).map fun r => (renamed f r.1, r.2) := by
  unfold checkOrder
  cases findProduct vp product with
  | none => rfl
  | some prod =>
    simp only
    split
    · rfl
    · split
      · rfl
      · split <;> rfl

/-- The order made of a text has the number of the trader who sent it. -/
theorem createBuySellOrder_renamed (f : Fin T → Fin U) (vp : ValidProducts P) (ind : Fin T)
    (tr : Trader P) (str : List Char) :
    createBuySellOrder vp str (f ind) tr =
      (createBuySellOrder vp str ind tr).map (Option.map fun r => (renamed f r.1, r.2)) := by
  have hcreate : ∀ isBuy, createOrder vp str (f ind) tr isBuy =
      (createOrder vp str ind tr isBuy).map (Option.map fun r => (renamed f r.1, r.2)) := by
    intro isBuy
    unfold createOrder
    cases scan orderFormat str with
    | error _ => rfl
    | ok args =>
      simp only [bind, Except.bind]
      split
      · exact congrArg Except.ok (checkOrder_renamed f vp ind tr isBuy _ _ _ _)
      · rfl
  unfold createBuySellOrder
  cases scan sideFormat str with
  | error _ => rfl
  | ok args =>
    simp only [bind, Except.bind]
    split
    · split
      · exact hcreate false
      · split
        · exact hcreate true
        · rfl
    · rfl

/-- A new order is refused on both sides or entered on both. -/
theorem newOrderMsg_renumbered (h : Renumbered f s e) (hf : Function.Injective f)
    (vp : ValidProducts P) (msg : List Char) :
    (∃ x y, s.newOrderMsg vp msg ind = .error x ∧ e.newOrderMsg vp msg (f ind) = .error y) ∨
    (s.newOrderMsg vp msg ind = .ok none ∧ e.newOrderMsg vp msg (f ind) = .ok none) ∨
    ∃ s₁ e₁ o, s.newOrderMsg vp msg ind = .ok (some (s₁, o)) ∧
      e.newOrderMsg vp msg (f ind) = .ok (some (e₁, renamed f o)) ∧ Renumbered f s₁ e₁ := by
  unfold newOrderMsg
  split
  · exact .inr (.inl ⟨rfl, rfl⟩)
  · rw [h.traders, createBuySellOrder_renamed]
    cases createBuySellOrder vp msg ind (s.traders ind) with
    | error x => exact .inl ⟨x, x, rfl, rfl⟩
    | ok r =>
      cases r with
      | none => exact .inr (.inl ⟨rfl, rfl⟩)
      | some r =>
        exact .inr (.inr ⟨_, _, r.1, rfl, rfl, (h.setTrader hf ind r.2).writeAccepted hf ind r.1⟩)

/-- An amendment is refused on both sides or made on both. -/
theorem amendOrderMsg_renumbered (h : Renumbered f s e) (hf : Function.Injective f) (A : Arith)
    (msg : List Char) :
    (s.amendOrderMsg A msg ind = .ok none ∧ e.amendOrderMsg A msg (f ind) = .ok none) ∨
    ∃ s₁ e₁ o, s.amendOrderMsg A msg ind = .ok (some (s₁, o)) ∧
      e.amendOrderMsg A msg (f ind) = .ok (some (e₁, renamed f o)) ∧ Renumbered f s₁ e₁ := by
  obtain ⟨args, hargs⟩ := @scan_ok amendFormat (by unfold amendFormat; simp) msg
  by_cases hint : ∃ q p, args = [.int q, .int p]
  · obtain ⟨q, p, rfl⟩ := hint
    have hvalid : e.checkValidAmend q p (f ind) msg =
        (s.checkValidAmend q p ind msg).map (Option.map (Cell.map (renamed f))) := by
      unfold checkValidAmend
      split
      · rfl
      · cases scan amendIdFormat msg with
        | error _ => rfl
        | ok args =>
          show Except.ok (e.checkAmendArgs (f ind) _) = Except.ok ((s.checkAmendArgs ind _).map _)
          unfold checkAmendArgs
          rw [h.findOrder hf]
          split
          · rfl
          · split
            · rfl
            · split <;> rfl
    obtain ⟨r, hr⟩ := amendOrderMsg_ok A s ind msg
    rw [amendOrderMsg_eq hargs] at hr ⊢
    rw [amendOrderMsg_eq hargs, hvalid]
    cases hc : s.checkValidAmend q p ind msg with
    | error _ =>
      rw [hc] at hr
      cases hr
    | ok found =>
      cases found with
      | none => exact .inl ⟨rfl, rfl⟩
      | some c =>
        exact .inr ⟨_, _, createAmendedOrder p q c.val, rfl, rfl, h.replaced hf A ind c _⟩
  · exact .inl ⟨amendOrderMsg_none hargs hint, amendOrderMsg_none hargs hint⟩

/-- What is done before matching. -/
theorem incoming_renumbered (h : Renumbered f s e) (hf : Function.Injective f) (A : Arith)
    (vp : ValidProducts P) (msg : List Char) (ind : Fin T) :
    (∃ x y, s.incoming A vp msg ind = .error x ∧ e.incoming A vp msg (f ind) = .error y) ∨
    (s.incoming A vp msg ind = .ok none ∧ e.incoming A vp msg (f ind) = .ok none) ∨
    ∃ s₁ e₁ o, s.incoming A vp msg ind = .ok (some (s₁, o)) ∧
      e.incoming A vp msg (f ind) = .ok (some (e₁, renamed f o)) ∧ Renumbered f s₁ e₁ := by
  unfold incoming
  split
  · exact newOrderMsg_renumbered h hf vp _
  · exact newOrderMsg_renumbered h hf vp _
  · exact .inr (amendOrderMsg_renumbered h hf A _)
  · exact .inr (.inl ⟨rfl, rfl⟩)

/-- A cancellation is refused on both sides or made on both. -/
theorem cancelMsg_renumbered (h : Renumbered f s e) (hf : Function.Injective f) (A : Arith)
    (msg : List Char) (ind : Fin T) :
    (s.cancelMsg A msg ind = .ok none ∧ e.cancelMsg A msg (f ind) = .ok none) ∨
    ∃ s₁ e₁, s.cancelMsg A msg ind = .ok (some s₁) ∧
      e.cancelMsg A msg (f ind) = .ok (some e₁) ∧ Renumbered f s₁ e₁ := by
  by_cases htext : ∃ id, CancelText msg id
  · obtain ⟨id, hid⟩ := htext
    rw [cancelMsg_eq hid, cancelMsg_eq hid, h.findOrder hf]
    cases s.findOrder ind id with
    | none => exact .inl ⟨rfl, rfl⟩
    | some c => exact .inr ⟨_, _, rfl, rfl, h.afterCancel hf A ind c⟩
  · exact .inl ⟨cancelMsg_none htext, cancelMsg_none htext⟩

/-- **A command does the same, whatever the number of its trader.** -/
theorem parseMsg_renumbered (h : Renumbered f s e) (hf : Function.Injective f)
    (hp : s.parseMsg A vp msg ind = .ok s') :
    ∃ e', e.parseMsg A vp msg (f ind) = .ok e' ∧ Renumbered f s' e' := by
  have hcancel := cancelMsg_renumbered h hf A msg ind
  have hincoming := incoming_renumbered h hf A vp msg ind
  have hinvalid : Renumbered f (s.writeInvalid ind) (e.writeInvalid (f ind)) :=
    h.emit (.message hf ind .invalid)
  unfold parseMsg at hp ⊢
  split at hp
  · rcases hcancel with ⟨hnone, hnone'⟩ | ⟨s₁, e₁, hs₁, he₁, h₁⟩
    · rw [hnone] at hp
      rw [hnone']
      cases hp
      exact ⟨_, rfl, hinvalid⟩
    · rw [hs₁] at hp
      rw [he₁]
      cases hp
      exact ⟨e₁, rfl, h₁⟩
  · rcases hincoming with ⟨x, y, herr, -⟩ | ⟨hnone, hnone'⟩ | ⟨s₁, e₁, o, ho, ho', h₁⟩
    · rw [herr] at hp
      cases hp
    · rw [hnone] at hp
      rw [hnone']
      cases hp
      exact ⟨_, rfl, hinvalid⟩
    · have hq := (incoming_enters ho).quantity_pos
      obtain ⟨ms, s₂, o', ret, ht, heq⟩ := matchAndInsert_trades (A := A) (s := s₁) hq
      obtain ⟨ms', e₂, ht', h₂⟩ := ht.renumbered h₁ hf
      rw [ho] at hp
      rw [ho']
      obtain rfl := Except.ok.inj (heq.symm.trans hp)
      exact ⟨_, ht'.matchAndInsert hq, h₂.afterInsert A o' ret⟩

end Exchange

/-! ## Runs -/

open Exchange

variable {A : Arith} {vp : ValidProducts P} {s : Exchange P T} {as : List (Action T)}

/-- The same event, with the new number of its trader. -/
def Action.renamed (f : Fin T → Fin U) : Action T → Action U
  | .command ind msg => .command (f ind) msg
  | .died i => .died (f i)

/-- Everybody is told that the market is open. -/
theorem renumbered_initial (f : Fin T → Fin U) :
    Renumbered f (initial : Exchange P T) initial where
  orders _ _ := rfl
  printedOrders := rfl
  traders _ := rfl
  exchangeFees := rfl
  out := by
    have hout : ∀ n : Nat, (initial : Exchange P n).out =
        ((List.finRange n).filter fun _ => true).map fun i => .message i .marketOpen := by
      intro n
      rw [List.filter_true]
      exact List.flatMap_pure_eq_map _ _
    rw [hout, hout]
    exact Seen.loop (p := fun _ => true) (q := fun _ => true) (fun _ => rfl) .marketOpen

/-- **Traders are treated alike.** Give the traders of a run other numbers, and put
others among them who send nothing: the run is still one, the orders, levels, accounts
and fees are the same, every trader is sent the same messages, and the same matches are
reported. -/
theorem traders_alike {f : Fin T → Fin U} (hf : Function.Injective f)
    (hr : Transition.Run (Step A vp) initial as s) :
    ∃ e, Transition.Run (Step A vp) initial (as.map (Action.renamed f)) e ∧ Renumbered f s e := by
  refine hr.simulate (renumbered_initial f) fun h hs => ?_
  cases hs with
  | command hp =>
    obtain ⟨e', hp', h'⟩ := parseMsg_renumbered h hf hp
    exact ⟨e', .command hp', h'⟩
  | died => exact ⟨_, .died, h.traderDied hf _⟩

/-- Trader 1 becomes trader 0 of three, and trader 0 becomes trader 2. -/
theorem traders_alike_gpu :
    ∃ (s : Exchange 2 2) (e : Exchange 2 3),
      (initial : Exchange 2 2).runCommands .machine testProducts
        [(1, "SELL 0 GPU 10 30;".toList), (0, "BUY 0 GPU 15 40;".toList)] = .ok s ∧
      Transition.Run (Step .machine testProducts) initial
        [.command 0 "SELL 0 GPU 10 30;".toList, .command 2 "BUY 0 GPU 15 40;".toList] e ∧
      Renumbered (fun t => if t = 0 then 2 else 0) s e := by
  have hrun : okAnd ((initial : Exchange 2 2).parseMsg .machine testProducts
      "SELL 0 GPU 10 30;".toList 1) (fun s₁ =>
        okAnd (s₁.parseMsg .machine testProducts "BUY 0 GPU 15 40;".toList 0) fun _ => true) := by
    decide +kernel
  obtain ⟨s₁, hp₁, hrun⟩ := exists_of_okAnd hrun
  obtain ⟨s₂, hp₂, -⟩ := exists_of_okAnd hrun
  have hinj : Function.Injective fun t : Fin 2 => if t = 0 then (2 : Fin 3) else 0 := by decide
  obtain ⟨e, he, h⟩ := traders_alike hinj
    ((Transition.Run.nil.snoc (.command hp₁)).snoc (.command hp₂))
  refine ⟨s₂, e, ?_, he, h⟩
  rw [runCommands, hp₁]
  show runCommands _ _ s₁ _ = _
  rw [runCommands, hp₂]
  rfl

end PeExchange
