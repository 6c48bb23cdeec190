import Mathlib.Data.Fintype.Basic
import PeExchange.Lib.CArith
import PeExchange.Lib.Scanf

/-!
# The exchange's data (pe_common.h)

The records of `pe_common.h` and the state of the exchange process between two
system calls. `P` is `num_products` and `T` is `num_traders`, both fixed once
`main` has read its arguments; a product index is a `Fin P`, a trader index a
`Fin T`.

- A linked list is the `List` of its nodes from `head` to `tail`; the node a
  pointer refers to is a position in that list.
- `is_buy` is a `Bool`. The arrays `buy_orders` and `sell_orders` are the two
  values of `Exchange.orders`, the lists `head_buy` and `head_sell` those of
  `PrintedOrderbook.head`.
- C strings are `List Char`, one `Char` for each `char`, without terminator.
- `Arith` says how the accumulators (level quantities and counts, positions,
  balances, fees) are computed: as C does, or in exact integers. Local variables
  always have their declared width.
- `Exchange.out` is what the process has written so far.
-/

namespace PeExchange

open CArith

/-- `MAX_LINE` (pe_common.h:24). -/
def maxLine : Nat := 50

/-- `MAX_PROD`: size of a product name, terminator included (pe_common.h:26). -/
def maxProd : Nat := 17

/-- `FEE_PERCENTAGE` (pe_common.h:23). -/
def feePercentage : Int := 1

/-- Reasons for which the C program has no defined behaviour, and the loop bound
of the model. -/
inductive Fault where
  /-- A `%s` conversion wrote past its buffer. -/
  | overflow (o : CFormat.Overflow)
  /-- A local variable was read before it was set. -/
  | uninitialised
  /-- `free_all` was called and the exchange used after it. -/
  | freed
  /-- The matching loop did not end within the steps it was given. -/
  | noFuel
deriving DecidableEq, Repr

/-! ## Accumulators -/

/-- Arithmetic of the accumulators. -/
inductive Arith where
  /-- Exact integers. -/
  | exact
  /-- The declared C types, wrapping around. -/
  | machine
deriving DecidableEq, Repr

/-- Store in an `int` accumulator. -/
def Arith.int : Arith → Int → Int
  | .exact, x => x
  | .machine, x => narrow 32 x

/-- Store in a `long long` accumulator. -/
def Arith.longLong : Arith → Int → Int
  | .exact, x => x
  | .machine, x => narrow 64 x

@[simp] theorem Arith.int_exact (x : Int) : Arith.exact.int x = x := rfl

@[simp] theorem Arith.longLong_exact (x : Int) : Arith.exact.longLong x = x := rfl

/-- Consecutive updates of an accumulator are one update by their sum. -/
@[simp] theorem Arith.int_int_sub (A : Arith) (x y : Int) :
    A.int (A.int x - y) = A.int (x - y) := by
  cases A <;> simp [Arith.int]

@[simp] theorem Arith.longLong_longLong_sub (A : Arith) (x y : Int) :
    A.longLong (A.longLong x - y) = A.longLong (x - y) := by
  cases A <;> simp [Arith.longLong]

@[simp] theorem Arith.longLong_longLong_add (A : Arith) (x y : Int) :
    A.longLong (A.longLong x + y) = A.longLong (x + y) := by
  cases A <;> simp [Arith.longLong]

/-! ## Records -/

/-- `struct order`; `prev` and `next` are the neighbours in the list. -/
structure Order (P T : Nat) where
  product : List Char
  quantity : Int
  price : Int
  orderID : Int
  productID : Fin P
  traderID : Fin T
  isBuy : Bool
deriving DecidableEq, Repr

/-- `struct printed_order`: one price level. -/
structure PrintedOrder where
  quantity : Int
  price : Int
  numOrders : Int
deriving DecidableEq, Repr

/-- `struct printed_orderbook`: the levels of one product and their cached number. -/
structure PrintedOrderbook where
  head : Bool → List PrintedOrder
  len : Bool → Nat

/-- `struct trader_balances`. -/
structure TraderBalances where
  quantity : Int
  balance : Int
deriving DecidableEq, Repr

/-- `struct trader`. `trader_list[i]->ID` is `i` throughout; a trader's process
and pipe are known by its index. -/
structure Trader (P : Nat) where
  orderID : Int
  prodInfo : Fin P → TraderBalances
  alive : Bool

/-- `valid_products` as `get_products` fills it: alphanumeric names that fit
`MAX_PROD`. -/
structure ValidProducts (P : Nat) where
  name : Fin P → List Char
  alnum : ∀ i, ∀ c ∈ name i, c.isAlphanum = true
  fits : ∀ i, (name i).length < maxProd

/-! ## Output -/

/-- The messages the exchange sends. -/
inductive Msg where
  | invalid
  | accepted (orderID : Int)
  | amended (orderID : Int)
  | cancelled (orderID : Int)
  | market (isBuy : Bool) (product : List Char) (quantity price : Int)
  | fill (orderID quantity : Int)
  | marketOpen
deriving DecidableEq, Repr

/-- What `sprintf` makes of a message (pe_pipes.c:14, 23, 28–33, 48, 72, 77–80,
94, 98, 107). -/
def Msg.text : Msg → List Char
  | .invalid => "INVALID;".toList
  | .accepted id => "ACCEPTED ".toList ++ CFormat.decimal id ++ ";".toList
  | .amended id => "AMENDED ".toList ++ CFormat.decimal id ++ ";".toList
  | .cancelled id => "CANCELLED ".toList ++ CFormat.decimal id ++ ";".toList
  | .market true product quantity price =>
    "MARKET BUY ".toList ++ product ++ " ".toList ++ CFormat.decimal quantity ++ " ".toList ++
      CFormat.decimal price ++ ";".toList
  | .market false product quantity price =>
    "MARKET SELL ".toList ++ product ++ " ".toList ++ CFormat.decimal quantity ++ " ".toList ++
      CFormat.decimal price ++ ";".toList
  | .fill id quantity =>
    "FILL ".toList ++ CFormat.decimal id ++ " ".toList ++ CFormat.decimal quantity ++ ";".toList
  | .marketOpen => "MARKET OPEN;".toList

/-- One entry of the exchange's output. The first three record that a function
was called and with which orders; they are not seen outside. -/
inductive Event (P T : Nat) where
  /-- `write_accepted` or `write_amended` was called for this order. -/
  | entered (order : Order P T)
  /-- `write_cancelled` was called for this order. -/
  | cancelled (order : Order P T)
  /-- `write_fill` was called for these orders and this quantity. -/
  | fill (buyOrder sellOrder : Order P T) (quantity : Int)
  /-- `print_match` printed a match. -/
  | matched (newOrder oldOrder : Order P T) (totalPrice fee : Int)
  /-- A message was written to the pipe of `dest`, which was then sent `SIGUSR1`. -/
  | message (dest : Fin T) (msg : Msg)
deriving DecidableEq, Repr

/-! ## State -/

/-- The exchange: `trader_list`, `buy_orders` and `sell_orders`,
`printed_orders`, `exchange_fees`, and the output so far. -/
structure Exchange (P T : Nat) where
  traders : Fin T → Trader P
  orders : Bool → Fin P → List (Order P T)
  printedOrders : Fin P → PrintedOrderbook
  exchangeFees : Int
  out : List (Event P T)

namespace Exchange

variable {P T : Nat} (s : Exchange P T)

def emit (es : List (Event P T)) : Exchange P T :=
  { s with out := s.out ++ es }

def setTrader (i : Fin T) (t : Trader P) : Exchange P T :=
  { s with traders := Function.update s.traders i t }

def setOrders (isBuy : Bool) (prod : Fin P) (list : List (Order P T)) : Exchange P T :=
  { s with orders := fun b i => if b = isBuy ∧ i = prod then list else s.orders b i }

def setPrints (prod : Fin P) (book : PrintedOrderbook) : Exchange P T :=
  { s with printedOrders := Function.update s.printedOrders prod book }

/-- Update `trader_list[i]->trader_prod_info[prod]`. -/
def modifyInfo (i : Fin T) (prod : Fin P) (f : TraderBalances → TraderBalances) :
    Exchange P T :=
  s.setTrader i { s.traders i with
    prodInfo := Function.update (s.traders i).prodInfo prod (f ((s.traders i).prodInfo prod)) }

section Frame

variable (es : List (Event P T)) (i : Fin T) (t : Trader P) (b : Bool) (prod : Fin P)
  (list : List (Order P T)) (book : PrintedOrderbook) (f : TraderBalances → TraderBalances)

@[simp] theorem emit_traders : (s.emit es).traders = s.traders := rfl
@[simp] theorem emit_orders : (s.emit es).orders = s.orders := rfl
@[simp] theorem emit_printedOrders : (s.emit es).printedOrders = s.printedOrders := rfl
@[simp] theorem emit_exchangeFees : (s.emit es).exchangeFees = s.exchangeFees := rfl
@[simp] theorem emit_out : (s.emit es).out = s.out ++ es := rfl

@[simp] theorem setTrader_traders :
    (s.setTrader i t).traders = Function.update s.traders i t := rfl
@[simp] theorem setTrader_orders : (s.setTrader i t).orders = s.orders := rfl
@[simp] theorem setTrader_printedOrders :
    (s.setTrader i t).printedOrders = s.printedOrders := rfl
@[simp] theorem setTrader_exchangeFees : (s.setTrader i t).exchangeFees = s.exchangeFees := rfl
@[simp] theorem setTrader_out : (s.setTrader i t).out = s.out := rfl

@[simp] theorem setOrders_traders : (s.setOrders b prod list).traders = s.traders := rfl
@[simp] theorem setOrders_orders (b' : Bool) (i' : Fin P) :
    (s.setOrders b prod list).orders b' i' =
      if b' = b ∧ i' = prod then list else s.orders b' i' := rfl
@[simp] theorem setOrders_printedOrders :
    (s.setOrders b prod list).printedOrders = s.printedOrders := rfl
@[simp] theorem setOrders_exchangeFees :
    (s.setOrders b prod list).exchangeFees = s.exchangeFees := rfl
@[simp] theorem setOrders_out : (s.setOrders b prod list).out = s.out := rfl

@[simp] theorem setPrints_traders : (s.setPrints prod book).traders = s.traders := rfl
@[simp] theorem setPrints_orders : (s.setPrints prod book).orders = s.orders := rfl
@[simp] theorem setPrints_printedOrders :
    (s.setPrints prod book).printedOrders = Function.update s.printedOrders prod book := rfl
@[simp] theorem setPrints_exchangeFees :
    (s.setPrints prod book).exchangeFees = s.exchangeFees := rfl
@[simp] theorem setPrints_out : (s.setPrints prod book).out = s.out := rfl

@[simp] theorem modifyInfo_orders : (s.modifyInfo i prod f).orders = s.orders := rfl
@[simp] theorem modifyInfo_printedOrders :
    (s.modifyInfo i prod f).printedOrders = s.printedOrders := rfl
@[simp] theorem modifyInfo_exchangeFees :
    (s.modifyInfo i prod f).exchangeFees = s.exchangeFees := rfl
@[simp] theorem modifyInfo_out : (s.modifyInfo i prod f).out = s.out := rfl

@[simp] theorem modifyInfo_orderID (j : Fin T) :
    ((s.modifyInfo i prod f).traders j).orderID = (s.traders j).orderID := by
  by_cases h : j = i
  · subst h; simp [modifyInfo]
  · simp [modifyInfo, h]

@[simp] theorem modifyInfo_alive (j : Fin T) :
    ((s.modifyInfo i prod f).traders j).alive = (s.traders j).alive := by
  by_cases h : j = i
  · subst h; simp [modifyInfo]
  · simp [modifyInfo, h]

theorem modifyInfo_prodInfo (j : Fin T) (k : Fin P) :
    ((s.modifyInfo i prod f).traders j).prodInfo k =
      if j = i ∧ k = prod then f ((s.traders j).prodInfo k)
      else (s.traders j).prodInfo k := by
  by_cases h : j = i
  · subst h
    by_cases hk : k = prod
    · subst hk; simp [modifyInfo]
    · simp [modifyInfo, hk]
  · simp [modifyInfo, h]

end Frame

end Exchange

end PeExchange
