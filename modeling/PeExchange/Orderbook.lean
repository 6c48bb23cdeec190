import PeExchange.Messages
import PeExchange.Lib.Cell

/-!
# The order book (pe_orderbook.c:1–404)

Creating orders, the level lists shown to the user, and the order lists.

- `createOrder` is cut in two: the conversion of the message and the checks on
  the converted values, `checkOrder`.
- The branches for buy and sell orders in `add_to_prints`,
  `remove_from_products`, `delete_order_prints` and `set_len` are the same code
  on `head_buy`/`buy_len` and on `head_sell`/`sell_len`; the model has one
  definition that is given the list.
- `prints` below stands for `printed_orders[curr_order->product_ID]`.
-/

namespace PeExchange

open CFormat LinkedList

variable {P T : Nat}

/-! ## Creating orders -/

/-- `"%*s %d %s %d %d;"` (pe_orderbook.c:14). -/
def orderFormat : List Directive :=
  [.skipStr, .space, .int true, .space, .str maxProd, .space, .int true, .space, .int true,
    .lit ';']

/-- `"%s %*d %*s %*d %*d;"` (pe_orderbook.c:64). -/
def sideFormat : List Directive :=
  [.str maxLine, .space, .int false, .space, .skipStr, .space, .int false, .space, .int false,
    .lit ';']

/-- `sscanf`, an overflow being a fault of the program. -/
def scan (fmt : List Directive) (str : List Char) : Except Fault (List Arg) :=
  (sscanf fmt str).mapError .overflow

/-- The search for the product index of an order (pe_orderbook.c:20–30). -/
def findProduct (vp : ValidProducts P) (product : List Char) : Option (Fin P) :=
  (List.finRange P).find? fun i => product = vp.name i

/-- The checks of `create_order` on the converted values and the order it makes,
with the trader's counter moved on (pe_orderbook.c:19–54). -/
def checkOrder (vp : ValidProducts P) (ind : Fin T) (currTrader : Trader P) (isBuy : Bool)
    (orderID : Int) (product : List Char) (quantity price : Int) :
    Option (Order P T × Trader P) :=
  match findProduct vp product with
  | none => none
  | some prodInd =>
    if quantity > 999999 ∨ quantity < 1 then none
    else if orderID ≠ currTrader.orderID ∨ orderID < 0 ∨ orderID > 999999 then none
    else if price > 999999 ∨ price < 1 then none
    else some (⟨product, quantity, price, orderID, prodInd, ind, isBuy⟩,
      { currTrader with orderID := currTrader.orderID + 1 })

/-- `create_order` (pe_orderbook.c:6–55). -/
def createOrder (vp : ValidProducts P) (str : List Char) (ind : Fin T) (currTrader : Trader P)
    (isBuy : Bool) : Except Fault (Option (Order P T × Trader P)) := do
  match ← scan orderFormat str with
  | [.int orderID, .str product, .int quantity, .int price] =>
    pure (checkOrder vp ind currTrader isBuy orderID product quantity price)
  | _ => pure none

/-- `create_buy_sell_order` (pe_orderbook.c:58–86). -/
def createBuySellOrder (vp : ValidProducts P) (str : List Char) (ind : Fin T)
    (currTrader : Trader P) : Except Fault (Option (Order P T × Trader P)) := do
  match ← scan sideFormat str with
  | .str sellOrBuy :: _ =>
    -- the verb is compared here and skipped by `orderFormat`
    if sellOrBuy = "SELL".toList then createOrder vp str ind currTrader false
    else if sellOrBuy = "BUY".toList then createOrder vp str ind currTrader true
    else pure none
  -- nothing was assigned: the verb is compared without having been set
  | _ => throw .uninitialised

/-- `create_printed_order` (pe_orderbook.c:89–96). -/
def createPrintedOrder (currOrder : Order P T) : PrintedOrder :=
  ⟨currOrder.quantity, currOrder.price, 1⟩

/-- `create_amended_order` (pe_orderbook.c:99–112). -/
def createAmendedOrder (newPrice newQuantity : Int) (currOrder : Order P T) : Order P T :=
  { currOrder with price := newPrice, quantity := newQuantity }

/-! ## Level lists -/

namespace PrintedOrderbook

def setHead (b : PrintedOrderbook) (isBuy : Bool) (levels : List PrintedOrder) :
    PrintedOrderbook :=
  { b with head := Function.update b.head isBuy levels }

/-- `set_len` (pe_orderbook.c:115–133). -/
def setLen (b : PrintedOrderbook) (isBuy : Bool) : PrintedOrderbook :=
  { b with len := Function.update b.len isBuy (b.head isBuy).length }

end PrintedOrderbook

/-- What `add_to_prints` does at the node `temp` where its search stops
(pe_orderbook.c:154–164). -/
def addAt (A : Arith) (currOrder : Order P T) (temp : PrintedOrder)
    (next : List PrintedOrder) : List PrintedOrder :=
  if temp.price = currOrder.price then
    { temp with
      quantity := A.int (temp.quantity + currOrder.quantity)
      numOrders := A.int (temp.numOrders + 1) } :: next
  else if temp.price > currOrder.price then
    temp :: createPrintedOrder currOrder :: next
  -- not reached: the search stops at a level priced no lower than the order
  else temp :: next

/-- The search of `add_to_prints` for the last level priced no lower than the
order (pe_orderbook.c:150–153). -/
def addFrom (A : Arith) (currOrder : Order P T) (temp : PrintedOrder) :
    List PrintedOrder → List PrintedOrder
  | [] => addAt A currOrder temp []
  | next :: rest =>
    if next.price ≥ currOrder.price then temp :: addFrom A currOrder next rest
    else addAt A currOrder temp (next :: rest)

/-- `add_to_prints` (pe_orderbook.c:138–191) on one side's levels. -/
def addToPrints (A : Arith) (levels : List PrintedOrder) (currOrder : Order P T) :
    List PrintedOrder :=
  match levels with
  | [] => [createPrintedOrder currOrder]
  | head :: rest =>
    if head.price < currOrder.price then createPrintedOrder currOrder :: head :: rest
    else addFrom A currOrder head rest

/-- The search of `remove_from_products` for the node before the one to unlink,
whose price is `price` and whose successors are `next` (pe_orderbook.c:255–260). -/
def unlinkFrom (price : Int) (next : List PrintedOrder) :
    List PrintedOrder → List PrintedOrder
  | [] => []
  | [temp] => temp :: next
  | temp :: succ :: rest =>
    if succ.price ≠ price then temp :: unlinkFrom price next (succ :: rest)
    else temp :: next

/-- `remove_from_products` (pe_orderbook.c:241–277); `node` points to position
`node.idx` of the level list. -/
def removeFromProducts (node : Cell PrintedOrder) (b : PrintedOrderbook) (isBuy : Bool) :
    PrintedOrderbook :=
  if b.len isBuy = 1 then b.setHead isBuy []
  else if node.idx = 0 then b.setHead isBuy (b.head isBuy).tail
  else b.setHead isBuy
    (unlinkFrom node.val.price ((b.head isBuy).drop (node.idx + 1)) (b.head isBuy))

/-- The loop of `delete_order_prints`: `seen` are the levels before `temp`. A
level whose quantity does not become 0 does not end the loop. -/
def deleteFrom (A : Arith) (b : PrintedOrderbook) (currOrder : Order P T)
    (seen : List PrintedOrder) : List PrintedOrder → PrintedOrderbook
  | [] => b.setHead currOrder.isBuy seen
  | temp :: next =>
    if currOrder.price = temp.price then
      let temp' : PrintedOrder := { temp with
        quantity := A.int (temp.quantity - currOrder.quantity)
        numOrders := A.int (temp.numOrders - 1) }
      if temp'.quantity = 0 then
        removeFromProducts ⟨seen.length, temp'⟩
          (b.setHead currOrder.isBuy (seen ++ temp' :: next)) currOrder.isBuy
      else deleteFrom A b currOrder (seen ++ [temp']) next
    else deleteFrom A b currOrder (seen ++ [temp]) next

/-- `delete_order_prints` (pe_orderbook.c:280–316). -/
def deleteOrderPrints (A : Arith) (b : PrintedOrderbook) (currOrder : Order P T) :
    PrintedOrderbook :=
  deleteFrom A b currOrder [] (b.head currOrder.isBuy)

namespace Exchange

variable (s : Exchange P T)

/-- `add_order_prints` (pe_orderbook.c:194–204). -/
def addOrderPrints (A : Arith) (currOrder : Order P T) : Exchange P T :=
  let prints := s.printedOrders currOrder.productID
  s.setPrints currOrder.productID
    ((prints.setHead currOrder.isBuy
      (addToPrints A (prints.head currOrder.isBuy) currOrder)).setLen currOrder.isBuy)

/-- `cancel_order_prints` (pe_orderbook.c:319–329). -/
def cancelOrderPrints (A : Arith) (currOrder : Order P T) : Exchange P T :=
  let prints := s.printedOrders currOrder.productID
  s.setPrints currOrder.productID
    ((deleteOrderPrints A prints currOrder).setLen currOrder.isBuy)

/-! ## Order lists -/

/-- `add_order` with `add_to_tail` (pe_orderbook.c:208–235). -/
def addOrder (currOrder : Order P T) : Exchange P T :=
  s.setOrders currOrder.isBuy currOrder.productID
    (s.orders currOrder.isBuy currOrder.productID ++ [currOrder])

/-- `delete_order` from the list of side `isBuy` of product `prod`
(pe_orderbook.c:332–353); `cancel_order` is the same followed by `free`. -/
def deleteOrder (currOrder : Cell (Order P T)) (isBuy : Bool) (prod : Fin P) :
    Exchange P T :=
  s.setOrders isBuy prod (currOrder.delete (s.orders isBuy prod))

/-- Assignment to a resting order through its pointer. -/
def storeOrder (currOrder : Cell (Order P T)) (isBuy : Bool) (prod : Fin P)
    (o : Order P T) : Exchange P T :=
  s.setOrders isBuy prod (currOrder.store o (s.orders isBuy prod))

/-- `find_order` (pe_orderbook.c:368–394): product by product, the buy list
before the sell list. -/
def findOrder (trader : Fin T) (id : Int) : Option (Cell (Order P T)) :=
  (List.finRange P).findSome? fun i =>
    (locate (fun o => o.orderID = id && o.traderID = trader) (s.orders true i)).or
      (locate (fun o => o.orderID = id && o.traderID = trader) (s.orders false i))

section Frame

variable (A : Arith) (o v : Order P T) (c : Cell (Order P T)) (b : Bool) (prod : Fin P)

@[simp] theorem addOrderPrints_traders : (s.addOrderPrints A o).traders = s.traders := rfl
@[simp] theorem addOrderPrints_orders : (s.addOrderPrints A o).orders = s.orders := rfl
@[simp] theorem addOrderPrints_exchangeFees :
    (s.addOrderPrints A o).exchangeFees = s.exchangeFees := rfl
@[simp] theorem addOrderPrints_out : (s.addOrderPrints A o).out = s.out := rfl

@[simp] theorem cancelOrderPrints_traders :
    (s.cancelOrderPrints A o).traders = s.traders := rfl
@[simp] theorem cancelOrderPrints_orders : (s.cancelOrderPrints A o).orders = s.orders := rfl
@[simp] theorem cancelOrderPrints_exchangeFees :
    (s.cancelOrderPrints A o).exchangeFees = s.exchangeFees := rfl
@[simp] theorem cancelOrderPrints_out : (s.cancelOrderPrints A o).out = s.out := rfl

@[simp] theorem addOrder_traders : (s.addOrder o).traders = s.traders := rfl
@[simp] theorem addOrder_printedOrders : (s.addOrder o).printedOrders = s.printedOrders := rfl
@[simp] theorem addOrder_exchangeFees : (s.addOrder o).exchangeFees = s.exchangeFees := rfl
@[simp] theorem addOrder_out : (s.addOrder o).out = s.out := rfl

@[simp] theorem deleteOrder_traders : (s.deleteOrder c b prod).traders = s.traders := rfl
@[simp] theorem deleteOrder_printedOrders :
    (s.deleteOrder c b prod).printedOrders = s.printedOrders := rfl
@[simp] theorem deleteOrder_exchangeFees :
    (s.deleteOrder c b prod).exchangeFees = s.exchangeFees := rfl
@[simp] theorem deleteOrder_out : (s.deleteOrder c b prod).out = s.out := rfl

@[simp] theorem storeOrder_traders : (s.storeOrder c b prod v).traders = s.traders := rfl
@[simp] theorem storeOrder_printedOrders :
    (s.storeOrder c b prod v).printedOrders = s.printedOrders := rfl
@[simp] theorem storeOrder_exchangeFees :
    (s.storeOrder c b prod v).exchangeFees = s.exchangeFees := rfl
@[simp] theorem storeOrder_out : (s.storeOrder c b prod v).out = s.out := rfl

end Frame

end Exchange

end PeExchange
