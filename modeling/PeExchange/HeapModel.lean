import PeExchange.System
import PeExchange.Lib.DoublyLinked

/-!
# The exchange with its orders in a heap (pe_orderbook.c, pe_pipes.c)

The functions that handle orders, once more, with pointers: an order is a node
`struct order` that is allocated, linked into a list by its `prev` and `next`,
read and written through pointers, and freed. Each function of `Orderbook`,
`Matching` and `Commands` that takes an order has its counterpart of the same name
here, which reads the order where the source does.

- `HeapExchange.data` is everything but the order lists, which are empty in it.
- A run ends with a `MemFault` when it follows `NULL` or reads, writes or frees an
  order that was freed. The other faults are those of the model with lists.
- A loop along a list may take as many steps as there are orders in the heap.
-/

namespace PeExchange

open CArith CFormat Memory DoublyLinked

variable {P T : Nat}

/-- Why a run has no result. -/
inductive HeapFault where
  | memory (m : MemFault)
  | other (f : Fault)
deriving DecidableEq, Repr

/-- `struct order`. -/
abbrev OrderNode (P T : Nat) := Node (Order P T)

/-- `struct orderbook`. -/
abbrev Orderbook := Ends

/-- The exchange. `books` are `buy_orders` and `sell_orders`, by side and product. -/
structure HeapExchange (P T : Nat) where
  data : Exchange P T
  books : Bool × Fin P → Orderbook
  heap : Heap (OrderNode P T)

/-! ## Order lists -/

namespace Orderbook

/-- `add_to_tail` (pe_orderbook.c:208–221). -/
def addToTail (list : Orderbook) (heap : Heap (OrderNode P T)) (currOrder : Ptr) :
    Except MemFault (Heap (OrderNode P T) × Orderbook) :=
  match list.tail with
  | none => do
    let heap ← setPrev heap currOrder none
    let heap ← setNext heap currOrder none
    pure (heap, ⟨currOrder, currOrder⟩)
  | some tail => do
    let heap ← setPrev heap currOrder (some tail)
    let heap ← setNext heap (some tail) currOrder
    let heap ← setNext heap currOrder none
    pure (heap, { list with tail := currOrder })

/-- `delete_order` (pe_orderbook.c:332–353). -/
def deleteOrder (list : Orderbook) (heap : Heap (OrderNode P T)) (currOrder : Ptr) :
    Except MemFault (Heap (OrderNode P T) × Orderbook) :=
  if list.tail = list.head ∧ list.head = currOrder then pure (heap, ⟨none, none⟩)
  else if list.head = currOrder then do
    let order ← heap.load currOrder
    let heap ← setPrev heap order.next none
    pure (heap, { list with head := order.next })
  else if list.tail = currOrder then do
    let order ← heap.load currOrder
    let heap ← setNext heap order.prev none
    pure (heap, { list with tail := order.prev })
  else do
    let order ← heap.load currOrder
    let heap ← setNext heap order.prev order.next
    -- both pointers are read again behind the assignment
    let order ← heap.load currOrder
    let heap ← setPrev heap order.next order.prev
    pure (heap, list)

end Orderbook

namespace HeapExchange

variable (A : Arith) (vp : ValidProducts P) (s : HeapExchange P T)

/-! ## Access -/

/-- The node a pointer refers to. -/
def load (p : Ptr) : Except HeapFault (OrderNode P T) :=
  (s.heap.load p).mapError .memory

/-- The order a pointer refers to, without the pointers in it. -/
def read (p : Ptr) : Except HeapFault (Order P T) := do
  pure (← s.load p).val

/-- `calloc` of an order that is then filled in. -/
def alloc (o : Order P T) : HeapExchange P T × Ptr :=
  ({ s with heap := s.heap.alloc ⟨o, none, none⟩ }, some s.heap.next)

/-- `free`. -/
def free (p : Ptr) : Except HeapFault (HeapExchange P T) := do
  pure { s with heap := ← (s.heap.free p).mapError .memory }

/-- Assignment to `p->quantity`. -/
def setQuantity (p : Ptr) (quantity : Int) : Except HeapFault (HeapExchange P T) := do
  let o ← s.read p
  pure { s with heap := ← (setVal s.heap p { o with quantity := quantity }).mapError .memory }

/-- What does not touch an order list. -/
def onData (f : Exchange P T → Exchange P T) : HeapExchange P T :=
  { s with data := f s.data }

def setBook (k : Bool × Fin P) (r : Heap (OrderNode P T) × Orderbook) : HeapExchange P T :=
  { s with heap := r.1, books := Function.update s.books k r.2 }

/-! ## Orders in lists -/

/-- `add_order` (pe_orderbook.c:224–235). -/
def addOrder (currOrder : Ptr) : Except HeapFault (HeapExchange P T) := do
  let o ← s.read currOrder
  let r ← (Orderbook.addToTail (s.books (o.isBuy, o.productID)) s.heap currOrder).mapError .memory
  pure (s.setBook (o.isBuy, o.productID) r)

/-- `delete_order` from the list of side `isBuy` of product `prod`. -/
def deleteOrder (currOrder : Ptr) (isBuy : Bool) (prod : Fin P) :
    Except HeapFault (HeapExchange P T) := do
  let r ← (Orderbook.deleteOrder (s.books (isBuy, prod)) s.heap currOrder).mapError .memory
  pure (s.setBook (isBuy, prod) r)

/-- `cancel_order` (pe_orderbook.c:356–362). -/
def cancelOrder (currOrder : Ptr) (isBuy : Bool) (prod : Fin P) :
    Except HeapFault (HeapExchange P T) := do
  let s ← s.deleteOrder currOrder isBuy prod
  s.free currOrder

/-- `add_order_prints` (pe_orderbook.c:194–204). -/
def addOrderPrints (currOrder : Ptr) : Except HeapFault (HeapExchange P T) := do
  let o ← s.read currOrder
  pure (s.onData (·.addOrderPrints A o))

/-- `cancel_order_prints` (pe_orderbook.c:319–329). -/
def cancelOrderPrints (currOrder : Ptr) : Except HeapFault (HeapExchange P T) := do
  let o ← s.read currOrder
  pure (s.onData (·.cancelOrderPrints A o))

/-- The loop of `find_order` along one list. -/
def findFrom (trader : Fin T) (id : Int) : Nat → Ptr → Except HeapFault Ptr
  | _, none => pure none
  | 0, some _ => throw (.other .noFuel)
  | fuel + 1, some currOrder => do
    let order ← s.load (some currOrder)
    if order.val.orderID = id && order.val.traderID = trader then pure (some currOrder)
    else findFrom trader id fuel order.next

/-- The loop of `find_order` over the products. -/
def findOrderIn (trader : Fin T) (id : Int) : List (Fin P) → Except HeapFault Ptr
  | [] => pure none
  | i :: products => do
    match ← s.findFrom trader id s.heap.next (s.books (true, i)).head with
    | some currOrder => pure (some currOrder)
    | none =>
      match ← s.findFrom trader id s.heap.next (s.books (false, i)).head with
      | some currOrder => pure (some currOrder)
      | none => findOrderIn trader id products

/-- `find_order` (pe_orderbook.c:368–394). -/
def findOrder (trader : Fin T) (id : Int) : Except HeapFault Ptr :=
  s.findOrderIn trader id (List.finRange P)

/-! ## Matching -/

/-- The loop of `find_best_sell` and `find_best_buy`. -/
def searchBest (improves : Int → Int → Bool) :
    Nat → Ptr → Int → Ptr → Except HeapFault (Ptr × Int)
  | _, best, price, none => pure (best, price)
  | 0, _, _, some _ => throw (.other .noFuel)
  | fuel + 1, best, price, some currOrder => do
    let order ← s.load (some currOrder)
    if improves order.val.price price then
      searchBest improves fuel (some currOrder) order.val.price order.next
    else searchBest improves fuel best price order.next

/-- `find_best_sell` (pe_orderbook.c:420–439). -/
def findBestSell (buyOrder : Ptr) : Except HeapFault Ptr := do
  let buy ← s.read buyOrder
  let head := (s.books (false, buy.productID)).head
  match head with
  | none => pure none
  | some _ =>
    let curr ← s.read head
    let best ← s.searchBest (fun p q => p < q) s.heap.next head curr.price head
    let buy ← s.read buyOrder
    if best.2 ≤ buy.price then pure best.1 else pure none

/-- `find_best_buy` (pe_orderbook.c:442–459). -/
def findBestBuy (sellOrder : Ptr) : Except HeapFault Ptr := do
  let sell ← s.read sellOrder
  let head := (s.books (true, sell.productID)).head
  let best ← s.searchBest (fun p q => p > q) s.heap.next none 0 head
  let sell ← s.read sellOrder
  if best.2 ≥ sell.price then pure best.1 else pure none

/-- What the branches of `match_new_buy` have in common. -/
def settleNewBuy (buyOrder sellOrder : Ptr) (quantity : Int) (rate : ℚ) :
    Except HeapFault (HeapExchange P T) := do
  let buy ← s.read buyOrder
  let sell ← s.read sellOrder
  pure (s.onData (·.settleNewBuy A buy sell quantity rate))

/-- `match_new_buy` (pe_orderbook.c:462–532). -/
def matchNewBuy (buyOrder sellOrder : Ptr) : Except HeapFault (HeapExchange P T × Int) := do
  let buy ← s.read buyOrder
  let sell ← s.read sellOrder
  let prodInd := buy.productID
  if buy.quantity = sell.quantity then
    let s ← s.settleNewBuy A buyOrder sellOrder sell.quantity (feePercentage * (1 / 100))
    let s ← s.cancelOrderPrints A sellOrder
    let s ← s.cancelOrder sellOrder false prodInd
    let s ← s.free buyOrder
    pure (s, 0)
  else if buy.quantity > sell.quantity then
    let s ← s.settleNewBuy A buyOrder sellOrder sell.quantity (1 / 100)
    let s ← s.cancelOrderPrints A sellOrder
    let s ← s.deleteOrder sellOrder false prodInd
    -- the unlinked order is still read
    let buy ← s.read buyOrder
    let sell ← s.read sellOrder
    let s ← s.setQuantity buyOrder (buy.quantity - sell.quantity)
    let s ← s.free sellOrder
    pure (s, 1)
  else
    let s ← s.settleNewBuy A buyOrder sellOrder buy.quantity (1 / 100)
    let s ← s.cancelOrderPrints A sellOrder
    let buy ← s.read buyOrder
    let sell ← s.read sellOrder
    let s ← s.setQuantity sellOrder (sell.quantity - buy.quantity)
    let s ← s.addOrderPrints A sellOrder
    let s ← s.free buyOrder
    pure (s, 0)

/-- What the branches of `match_new_sell` have in common. -/
def settleNewSell (sellOrder buyOrder : Ptr) (quantity : Int) (rate : ℚ) :
    Except HeapFault (HeapExchange P T) := do
  let sell ← s.read sellOrder
  let buy ← s.read buyOrder
  pure (s.onData (·.settleNewSell A sell buy quantity rate))

/-- `match_new_sell` (pe_orderbook.c:535–594). -/
def matchNewSell (sellOrder buyOrder : Ptr) : Except HeapFault (HeapExchange P T × Int) := do
  let sell ← s.read sellOrder
  let buy ← s.read buyOrder
  let prodInd := sell.productID
  if buy.quantity = sell.quantity then
    let s ← s.settleNewSell A sellOrder buyOrder sell.quantity (1 / 100)
    let s ← s.cancelOrderPrints A buyOrder
    let s ← s.deleteOrder buyOrder true prodInd
    let s ← s.free buyOrder
    let s ← s.free sellOrder
    pure (s, 0)
  else if buy.quantity > sell.quantity then
    let s ← s.settleNewSell A sellOrder buyOrder sell.quantity (1 / 100)
    let s ← s.cancelOrderPrints A buyOrder
    let buy ← s.read buyOrder
    let sell ← s.read sellOrder
    let s ← s.setQuantity buyOrder (buy.quantity - sell.quantity)
    let s ← s.addOrderPrints A buyOrder
    let s ← s.free sellOrder
    pure (s, 0)
  else
    let s ← s.settleNewSell A sellOrder buyOrder buy.quantity (1 / 100)
    let s ← s.cancelOrderPrints A buyOrder
    let s ← s.deleteOrder buyOrder true prodInd
    let sell ← s.read sellOrder
    let buy ← s.read buyOrder
    let s ← s.setQuantity sellOrder (sell.quantity - buy.quantity)
    let s ← s.free buyOrder
    pure (s, 1)

/-- `find_best_sell` or `find_best_buy`, by the side of the new order. -/
def findBest (newOrder : Ptr) : Except HeapFault Ptr := do
  let o ← s.read newOrder
  if o.isBuy then s.findBestSell newOrder else s.findBestBuy newOrder

/-- `match_new_buy` or `match_new_sell`, by the side of the new order. -/
def matchNew (newOrder oldOrder : Ptr) : Except HeapFault (HeapExchange P T × Int) := do
  let o ← s.read newOrder
  if o.isBuy then s.matchNewBuy A newOrder oldOrder else s.matchNewSell A newOrder oldOrder

/-- The loops of `check_for_match`. -/
def checkLoop : Nat → HeapExchange P T → Ptr → Except HeapFault (HeapExchange P T × Int)
  | 0, _, _ => throw (.other .noFuel)
  | fuel + 1, s, newOrder => do
    let o ← s.read newOrder
    if o.quantity > 0 then
      match ← s.findBest newOrder with
      | none => pure (s, 1)
      | some matched =>
        let r ← s.matchNew A newOrder (some matched)
        if r.2 = 0 then pure (r.1, 0) else checkLoop fuel r.1 newOrder
    else pure (s, 1)

/-- `check_for_match` (pe_orderbook.c:597–646). -/
def checkForMatch (newOrder : Ptr) : Except HeapFault (HeapExchange P T × Int) :=
  checkLoop A (s.heap.next + 1) s newOrder

/-! ## Commands -/

/-- The end of `buy_sell_msg` and of `amend_msg` (pe_pipes.c:176–182, 251–258). -/
def matchAndInsert (currOrder : Ptr) : Except HeapFault (HeapExchange P T) := do
  let (s, ret) ← s.checkForMatch A currOrder
  if ret = 1 then
    let s ← s.addOrderPrints A currOrder
    s.addOrder currOrder
  else pure s

/-- `write_accepted` (pe_pipes.c:20–41). -/
def writeAccepted (currOrder : Ptr) (ind : Fin T) : Except HeapFault (HeapExchange P T) := do
  let o ← s.read currOrder
  pure (s.onData (·.writeAccepted o ind))

/-- `write_amended` (pe_pipes.c:45–65). -/
def writeAmended (currOrder : Ptr) (ind : Fin T) : Except HeapFault (HeapExchange P T) := do
  let o ← s.read currOrder
  pure (s.onData (·.writeAmended o ind))

/-- `buy_sell_msg` up to `check_for_match` (pe_pipes.c:156–174). -/
def newOrderMsg (msg : List Char) (ind : Fin T) :
    Except HeapFault (Option (HeapExchange P T × Ptr)) :=
  if spaceCount msg ≠ 4 then pure none
  else do
    match ← (createBuySellOrder vp msg ind (s.data.traders ind)).mapError .other with
    | none => pure none
    | some (o, trader) =>
      let (s, currOrder) := (s.onData (·.setTrader ind trader)).alloc o
      let s ← s.writeAccepted currOrder ind
      pure (some (s, currOrder))

/-- The checks of `check_valid_amend` and its search (pe_pipes.c:207–219). -/
def checkAmendArgs (ind : Fin T) (args : AmendArgs) : Except HeapFault Ptr :=
  if args.quantity < 1 ∨ args.quantity > 999999 then pure none
  else if args.price < 1 ∨ args.price > 999999 then pure none
  else if args.id < 0 ∨ args.id > 999999 then pure none
  else s.findOrder ind args.id

/-- `check_valid_amend` (pe_pipes.c:189–220). -/
def checkValidAmend (quantity price : Int) (ind : Fin T) (msg : List Char) :
    Except HeapFault Ptr :=
  if spaceCount msg ≠ 3 then pure none
  else do
    let args ← (scan amendIdFormat msg).mapError .other
    s.checkAmendArgs ind (amendArgs quantity price args)

/-- `amend_msg` from `create_amended_order` up to `check_for_match` (pe_pipes.c:240–249). -/
def replaceOrder (newPrice newQuantity : Int) (currOrder : Ptr) (ind : Fin T) :
    Except HeapFault (HeapExchange P T × Ptr) := do
  let o ← s.read currOrder
  let (s, newOrder) := s.alloc (createAmendedOrder newPrice newQuantity o)
  let s ← s.writeAmended newOrder ind
  -- `find_list`
  let o ← s.read currOrder
  let s ← s.cancelOrderPrints A currOrder
  let s ← s.deleteOrder currOrder o.isBuy o.productID
  let s ← s.free currOrder
  pure (s, newOrder)

/-- `amend_msg` up to `check_for_match` (pe_pipes.c:223–249). -/
def amendOrderMsg (msg : List Char) (ind : Fin T) :
    Except HeapFault (Option (HeapExchange P T × Ptr)) := do
  match ← (scan amendFormat msg).mapError .other with
  | [.int newQuantity, .int newPrice] =>
    match ← s.checkValidAmend newQuantity newPrice ind msg with
    | none => pure none
    | some currOrder => some <$> s.replaceOrder A newPrice newQuantity (some currOrder) ind
  | _ => pure none

/-- `cancel_msg` from `write_cancelled` on (pe_pipes.c:290–299). -/
def removeOrder (id : Int) (currOrder : Ptr) (ind : Fin T) :
    Except HeapFault (HeapExchange P T) := do
  let o ← s.read currOrder
  let s := s.onData fun d => (d.emit [.cancelled o]).writeCancelled id o.product ind o.isBuy
  -- `find_list`
  let o ← s.read currOrder
  let s ← s.cancelOrderPrints A currOrder
  s.cancelOrder currOrder o.isBuy o.productID

/-- `cancel_msg` (pe_pipes.c:264–301). -/
def cancelMsg (msg : List Char) (ind : Fin T) : Except HeapFault (Option (HeapExchange P T)) :=
  if spaceCount msg ≠ 1 then pure none
  else do
    match ← (scan cancelFormat msg).mapError .other with
    | [.int id] =>
      if id < 0 ∨ id > 999999 then pure none
      else
        match ← s.findOrder ind id with
        | none => pure none
        | some currOrder => some <$> s.removeOrder A id (some currOrder) ind
    | _ => pure none

/-- The state and the order with which a command calls `check_for_match`. -/
def incoming (msg : List Char) (ind : Fin T) :
    Except HeapFault (Option (HeapExchange P T × Ptr)) :=
  match msg with
  | 'B' :: _ => s.newOrderMsg vp msg ind
  | 'S' :: _ => s.newOrderMsg vp msg ind
  | 'A' :: _ => s.amendOrderMsg A msg ind
  | _ => pure none

/-- `parse_msg` (pe_pipes.c:304–336). -/
def parseMsg (msg : List Char) (ind : Fin T) : Except HeapFault (HeapExchange P T) := do
  match msg with
  | 'C' :: _ =>
    match ← s.cancelMsg A msg ind with
    | none => pure (s.onData (·.writeInvalid ind))
    | some s' => pure s'
  | _ =>
    match ← s.incoming A vp msg ind with
    | none => pure (s.onData (·.writeInvalid ind))
    | some (s', currOrder) => s'.matchAndInsert A currOrder

/-- The commands of some traders one after the other. -/
def runCommands : List (Fin T × List Char) → HeapExchange P T →
    Except HeapFault (HeapExchange P T)
  | [], s => pure s
  | (ind, msg) :: rest, s => do
    let s ← s.parseMsg A vp msg ind
    runCommands rest s

end HeapExchange

/-! ## The transition system -/

/-- The exchange when trading starts: no order was allocated. -/
def initialHeap : HeapExchange P T where
  data := initial
  books := fun _ => ⟨none, none⟩
  heap := Heap.empty

/-- The transitions, as in `Step`. -/
inductive HeapStep (A : Arith) (vp : ValidProducts P) :
    HeapExchange P T → Action T → HeapExchange P T → Prop where
  | command {s s' : HeapExchange P T} {ind : Fin T} {msg : List Char}
      (h : s.parseMsg A vp msg ind = .ok s') : HeapStep A vp s (.command ind msg) s'
  | died {s : HeapExchange P T} {i : Fin T} :
      HeapStep A vp s (.died i) (s.onData (·.traderDied i))

/-- The states the exchange can be in. -/
def HeapReachable (A : Arith) (vp : ValidProducts P) (s : HeapExchange P T) : Prop :=
  Transition.Reachable (HeapStep A vp) initialHeap s

end PeExchange
