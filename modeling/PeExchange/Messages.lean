import PeExchange.Common

/-!
# Writing to traders (pe_pipes.c:1–113) and reporting matches

The `write_*` functions, each as an extension of the output. A message to a
trader is written whatever its `alive` flag for the sender of a command
(`write_invalid` and the first message of `write_accepted`, `write_amended` and
`write_cancelled`), and only when the flag is set for the recipients of `MARKET`
and `FILL`. `write_accepted` and `write_amended` differ in the first message
only.

`round_int` (pe_setup.c:30) and `print_match` (pe_printing.c:92) are here
because the matching functions need nothing else of their files.
-/

namespace PeExchange

open CArith

variable {P T : Nat}

/-- `round_int` (pe_setup.c:30–33). -/
def roundInt (n : ℚ) : Int :=
  narrow 64 (roundHalfAway n)

namespace Exchange

variable (s : Exchange P T)

/-- `write_invalid` (pe_pipes.c:12–16). -/
def writeInvalid (trader : Fin T) : Exchange P T :=
  s.emit [.message trader .invalid]

/-- The loop that sends `msg` to every other trader that is alive. -/
def toOthers (ind : Fin T) (msg : Msg) : List (Event P T) :=
  ((List.finRange T).filter fun i => i ≠ ind && (s.traders i).alive).map fun i =>
    .message i msg

/-- The message announcing an order to the market. -/
def marketMsg (o : Order P T) : Msg :=
  .market o.isBuy o.product o.quantity o.price

/-- `write_accepted` (pe_pipes.c:20–41). -/
def writeAccepted (currOrder : Order P T) (ind : Fin T) : Exchange P T :=
  s.emit (.entered currOrder :: .message ind (.accepted currOrder.orderID) ::
    s.toOthers ind (marketMsg currOrder))

/-- `write_amended` (pe_pipes.c:45–65). -/
def writeAmended (currOrder : Order P T) (ind : Fin T) : Exchange P T :=
  s.emit (.entered currOrder :: .message ind (.amended currOrder.orderID) ::
    s.toOthers ind (marketMsg currOrder))

/-- `write_cancelled` (pe_pipes.c:69–87). -/
def writeCancelled (id : Int) (product : List Char) (ind : Fin T) (isBuy : Bool) :
    Exchange P T :=
  s.emit (.message ind (.cancelled id) :: s.toOthers ind (.market isBuy product 0 0))

/-- A message sent only when the trader is alive. -/
def ifAlive (trader : Fin T) (msg : Msg) : List (Event P T) :=
  if (s.traders trader).alive then [.message trader msg] else []

/-- `write_fill` (pe_pipes.c:91–102). -/
def writeFill (buyOrder sellOrder : Order P T) (quantity : Int) : Exchange P T :=
  s.emit (.fill buyOrder sellOrder quantity ::
    (s.ifAlive buyOrder.traderID (.fill buyOrder.orderID quantity) ++
      s.ifAlive sellOrder.traderID (.fill sellOrder.orderID quantity)))

/-- `write_market_open` (pe_pipes.c:105–113). -/
def writeMarketOpen : Exchange P T :=
  s.emit ((List.finRange T).flatMap fun i => s.ifAlive i .marketOpen)

/-- `print_match` (pe_printing.c:92–97). The fee enters `exchange_fees` here. -/
def printMatch (A : Arith) (newOrder oldOrder : Order P T) (totalPrice fee : Int) :
    Exchange P T :=
  { s.emit [.matched newOrder oldOrder totalPrice fee] with
    exchangeFees := A.longLong (s.exchangeFees + fee) }

section Frame

variable (A : Arith) (new old : Order P T) (total fee : Int)

@[simp] theorem printMatch_traders :
    (s.printMatch A new old total fee).traders = s.traders := rfl
@[simp] theorem printMatch_orders :
    (s.printMatch A new old total fee).orders = s.orders := rfl
@[simp] theorem printMatch_printedOrders :
    (s.printMatch A new old total fee).printedOrders = s.printedOrders := rfl
@[simp] theorem printMatch_exchangeFees :
    (s.printMatch A new old total fee).exchangeFees =
      A.longLong (s.exchangeFees + fee) := rfl
@[simp] theorem printMatch_out :
    (s.printMatch A new old total fee).out = s.out ++ [.matched new old total fee] := rfl

@[simp] theorem writeFill_traders (b s' : Order P T) (q : Int) :
    (s.writeFill b s' q).traders = s.traders := rfl
@[simp] theorem writeFill_orders (b s' : Order P T) (q : Int) :
    (s.writeFill b s' q).orders = s.orders := rfl
@[simp] theorem writeFill_printedOrders (b s' : Order P T) (q : Int) :
    (s.writeFill b s' q).printedOrders = s.printedOrders := rfl
@[simp] theorem writeFill_exchangeFees (b s' : Order P T) (q : Int) :
    (s.writeFill b s' q).exchangeFees = s.exchangeFees := rfl

end Frame

end Exchange

end PeExchange
