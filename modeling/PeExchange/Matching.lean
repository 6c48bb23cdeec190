import PeExchange.Orderbook

/-!
# Matching (pe_orderbook.c:407–646)

- `findBestSell` and `findBestBuy` scan the opposite list once; they share the
  loop `searchBest` and differ in where it starts.
- `matchNewBuy` and `matchNewSell` execute one match. In each, the statements
  common to its three branches are gathered in a `settle` function: the fill
  messages, the fee, the inventory and the report. The two differ in the width
  of `total_price` and `fee`: `long long` for a new buy order, `int` for a new
  sell order. The hundredth of `total_price` is a rational number.
- `checkForMatch` repeats search and match. Its loop takes a step bound; the
  bound it is given is one more than the number of orders it can consume.

A match returns the new state, the new order with what is left of it, and the
return value of the C function, 1 when the new order still has quantity.
-/

namespace PeExchange

open CArith LinkedList

variable {P T : Nat}

/-! ## Searching -/

/-- The scanning loop of `find_best_sell` and `find_best_buy`: `improves p q`
tells whether price `p` replaces the best price `q` so far. -/
def searchBest (improves : Int → Int → Bool) :
    Nat → Option (Cell (Order P T)) → Int → List (Order P T) →
      Option (Cell (Order P T)) × Int
  | _, best, price, [] => (best, price)
  | i, best, price, curr :: next =>
    if improves curr.price price then
      searchBest improves (i + 1) (some ⟨i, curr⟩) curr.price next
    else searchBest improves (i + 1) best price next

/-- `find_best_sell` (pe_orderbook.c:420–439): the oldest of the cheapest. -/
def findBestSell (buyOrder : Order P T) (list : List (Order P T)) :
    Option (Cell (Order P T)) :=
  match list with
  | [] => none
  | head :: _ =>
    let best := searchBest (fun p q => p < q) 0 (some ⟨0, head⟩) head.price list
    if best.2 ≤ buyOrder.price then best.1 else none

/-- `find_best_buy` (pe_orderbook.c:442–459): the oldest of the dearest. -/
def findBestBuy (sellOrder : Order P T) (list : List (Order P T)) :
    Option (Cell (Order P T)) :=
  let best := searchBest (fun p q => p > q) 0 none 0 list
  if best.2 ≥ sellOrder.price then best.1 else none

namespace Exchange

variable (A : Arith) (s : Exchange P T)

/-! ## Executing one match -/

/-- `balance -= fee`. -/
def chargeFee (trader : Fin T) (prodInd : Fin P) (fee : Int) : Exchange P T :=
  s.modifyInfo trader prodInd fun i => { i with balance := A.longLong (i.balance - fee) }

/-- `update_inventory` (pe_orderbook.c:410–416). -/
def updateInventory (buyTrader sellTrader : Fin T) (totalPrice quantity : Int)
    (prodInd : Fin P) : Exchange P T :=
  (((s.modifyInfo buyTrader prodInd fun i =>
        { i with quantity := A.int (i.quantity + quantity) }).modifyInfo buyTrader prodInd
      fun i => { i with balance := A.longLong (i.balance - totalPrice) }).modifyInfo
      sellTrader prodInd fun i =>
        { i with quantity := A.int (i.quantity - quantity) }).modifyInfo sellTrader prodInd
    fun i => { i with balance := A.longLong (i.balance + totalPrice) }

/-- What the branches of `match_new_buy` have in common: `total_price` and `fee`
are `long long`. -/
def settleNewBuy (buyOrder sellOrder : Order P T) (quantity : Int) (rate : ℚ) :
    Exchange P T :=
  let totalPrice := narrow 64 (sellOrder.price * quantity)
  let fee := roundInt (totalPrice * rate)
  ((((s.writeFill buyOrder sellOrder quantity).chargeFee A buyOrder.traderID
    buyOrder.productID fee).updateInventory A buyOrder.traderID sellOrder.traderID totalPrice
      quantity buyOrder.productID).printMatch A buyOrder sellOrder totalPrice fee)

/-- `match_new_buy` (pe_orderbook.c:462–532). -/
def matchNewBuy (buyOrder : Order P T) (sellOrder : Cell (Order P T)) :
    Exchange P T × Order P T × Int :=
  let prodInd := buyOrder.productID
  let sell := sellOrder.val
  if buyOrder.quantity = sell.quantity then
    (((s.settleNewBuy A buyOrder sell sell.quantity (feePercentage * (1 / 100))).cancelOrderPrints
      A sell).deleteOrder sellOrder false prodInd, buyOrder, 0)
  else if buyOrder.quantity > sell.quantity then
    (((s.settleNewBuy A buyOrder sell sell.quantity (1 / 100)).cancelOrderPrints A
      sell).deleteOrder sellOrder false prodInd,
      { buyOrder with quantity := buyOrder.quantity - sell.quantity }, 1)
  else
    let sell' := { sell with quantity := sell.quantity - buyOrder.quantity }
    ((((s.settleNewBuy A buyOrder sell buyOrder.quantity (1 / 100)).cancelOrderPrints A
      sell).storeOrder sellOrder false prodInd sell').addOrderPrints A sell', buyOrder, 0)

/-- What the branches of `match_new_sell` have in common: `total_price` and
`fee` are `int`. -/
def settleNewSell (sellOrder buyOrder : Order P T) (quantity : Int) (rate : ℚ) :
    Exchange P T :=
  let totalPrice := narrow 32 (narrow 64 (buyOrder.price * quantity))
  let fee := narrow 32 (roundInt (totalPrice * rate))
  ((((s.writeFill buyOrder sellOrder quantity).chargeFee A sellOrder.traderID
    sellOrder.productID fee).updateInventory A buyOrder.traderID sellOrder.traderID totalPrice
      quantity sellOrder.productID).printMatch A sellOrder buyOrder totalPrice fee)

/-- `match_new_sell` (pe_orderbook.c:535–594). -/
def matchNewSell (sellOrder : Order P T) (buyOrder : Cell (Order P T)) :
    Exchange P T × Order P T × Int :=
  let prodInd := sellOrder.productID
  let buy := buyOrder.val
  if buy.quantity = sellOrder.quantity then
    (((s.settleNewSell A sellOrder buy sellOrder.quantity (1 / 100)).cancelOrderPrints A
      buy).deleteOrder buyOrder true prodInd, sellOrder, 0)
  else if buy.quantity > sellOrder.quantity then
    let buy' := { buy with quantity := buy.quantity - sellOrder.quantity }
    ((((s.settleNewSell A sellOrder buy sellOrder.quantity (1 / 100)).cancelOrderPrints A
      buy).storeOrder buyOrder true prodInd buy').addOrderPrints A buy', sellOrder, 0)
  else
    (((s.settleNewSell A sellOrder buy buy.quantity (1 / 100)).cancelOrderPrints A
      buy).deleteOrder buyOrder true prodInd,
      { sellOrder with quantity := sellOrder.quantity - buy.quantity }, 1)

/-! ## The matching loop -/

/-- `find_best_sell` or `find_best_buy`, by the side of the new order. -/
def findBest (newOrder : Order P T) : Option (Cell (Order P T)) :=
  if newOrder.isBuy then findBestSell newOrder (s.orders false newOrder.productID)
  else findBestBuy newOrder (s.orders true newOrder.productID)

/-- `match_new_buy` or `match_new_sell`, by the side of the new order. -/
def matchNew (newOrder : Order P T) (oldOrder : Cell (Order P T)) :
    Exchange P T × Order P T × Int :=
  if newOrder.isBuy then s.matchNewBuy A newOrder oldOrder
  else s.matchNewSell A newOrder oldOrder

/-- The loops of `check_for_match`, which differ in the two functions above. -/
def checkLoop : Nat → Exchange P T → Order P T → Except Fault (Exchange P T × Order P T × Int)
  | 0, _, _ => .error .noFuel
  | fuel + 1, s, newOrder =>
    if newOrder.quantity > 0 then
      match s.findBest newOrder with
      | none => .ok (s, newOrder, 1)
      | some matched =>
        let r := s.matchNew A newOrder matched
        if r.2.2 = 0 then .ok (r.1, r.2.1, 0) else checkLoop fuel r.1 r.2.1
    else .ok (s, newOrder, 1)

/-- `check_for_match` (pe_orderbook.c:597–646): the state, what is left of the
new order, and the return value. -/
def checkForMatch (newOrder : Order P T) : Except Fault (Exchange P T × Order P T × Int) :=
  checkLoop A ((s.orders (!newOrder.isBuy) newOrder.productID).length + 1) s newOrder

end Exchange

end PeExchange
