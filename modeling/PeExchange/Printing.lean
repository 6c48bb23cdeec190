import PeExchange.System

/-!
# What the exchange prints (pe_printing.c, pe_exchange.c:176–179, pe_setup.c:119–145)

The text on the standard output from the first command on. `print_match` prints
while a command is matched and the book follows, so the lines of a command are
read off the output it adds; a command that is answered with `INVALID` is printed
as it was read and no more.
-/

namespace PeExchange

open CFormat

variable {P T : Nat}

/-- `LOG_PREFIX` (pe_common.h:27). -/
def logPrefix : List Char := "[PEX]".toList

/-- How the line of a level begins. -/
def levelWord (isBuy : Bool) : List Char :=
  logPrefix ++ if isBuy then "\t\tBUY ".toList else "\t\tSELL ".toList

/-- The line of a level (pe_printing.c:39–46, 51–59). -/
def printLevel (isBuy : Bool) (temp : PrintedOrder) : List Char :=
  if temp.numOrders > 1 then
    levelWord isBuy ++ decimal temp.quantity ++ " @ $".toList ++ decimal temp.price ++
      " (".toList ++ decimal temp.numOrders ++ " orders)\n".toList
  else if temp.numOrders = 1 then
    levelWord isBuy ++ decimal temp.quantity ++ " @ $".toList ++ decimal temp.price ++
      " (".toList ++ decimal temp.numOrders ++ " order)\n".toList
  else []

/-- The lines of a product (pe_printing.c:33–61): sell orders first. -/
def printProduct (product : List Char) (book : PrintedOrderbook) : List Char :=
  logPrefix ++ "\tProduct: ".toList ++ product ++ "; Buy levels: ".toList ++
    decimal (book.len true) ++ "; Sell levels: ".toList ++ decimal (book.len false) ++
    "\n".toList ++ (book.head false).flatMap (printLevel false) ++
    (book.head true).flatMap (printLevel true)

/-- `print_orderbook` (pe_printing.c:29–63). -/
def printOrderbook (vp : ValidProducts P) (s : Exchange P T) : List Char :=
  logPrefix ++ "\t--ORDERBOOK--\n".toList ++
    (List.finRange P).flatMap fun i => printProduct (vp.name i) (s.printedOrders i)

/-- A trader's position in a product, and what follows it (pe_printing.c:72–78). -/
def printPosition (vp : ValidProducts P) (t : Trader P) (j : Fin P) : List Char :=
  vp.name j ++ " ".toList ++ decimal (t.prodInfo j).quantity ++ " ($".toList ++
    decimal (t.prodInfo j).balance ++ ")".toList ++
    if j.val + 1 ≠ P then ", ".toList else []

/-- `print_positions` (pe_printing.c:66–82). -/
def printPositions (vp : ValidProducts P) (s : Exchange P T) : List Char :=
  logPrefix ++ "\t--POSITIONS--\n".toList ++ (List.finRange T).flatMap fun i =>
    logPrefix ++ "\tTrader ".toList ++ decimal i.val ++ ": ".toList ++
      (List.finRange P).flatMap (printPosition vp (s.traders i)) ++ "\n".toList

/-- `print_bk_pos` (pe_printing.c:85–89). -/
def printBkPos (vp : ValidProducts P) (s : Exchange P T) : List Char :=
  printOrderbook vp s ++ printPositions vp s

/-- What `print_match` prints (pe_printing.c:94–95). -/
def matchLine (newOrder oldOrder : Order P T) (totalPrice fee : Int) : List Char :=
  logPrefix ++ " Match: Order ".toList ++ decimal oldOrder.orderID ++ " [T".toList ++
    decimal oldOrder.traderID.val ++ "], New Order ".toList ++ decimal newOrder.orderID ++
    " [T".toList ++ decimal newOrder.traderID.val ++ "], value: $".toList ++
    decimal totalPrice ++ ", fee: $".toList ++ decimal fee ++ ".\n".toList

/-- The part of the output that is printed. -/
def Event.printed : Event P T → List Char
  | .matched newOrder oldOrder totalPrice fee => matchLine newOrder oldOrder totalPrice fee
  | _ => []

/-- The command as `main` prints it: without its last character
(pe_exchange.c:176–179). -/
def printCommand (ind : Fin T) (msg : List Char) : List Char :=
  logPrefix ++ " [T".toList ++ decimal ind.val ++ "] Parsing command: <".toList ++
    msg.dropLast ++ ">\n".toList

/-- What `trader_died` prints (pe_setup.c:122). -/
def printDied (i : Fin T) : List Char :=
  logPrefix ++ " Trader ".toList ++ decimal i.val ++ " disconnected\n".toList

/-- What `all_traders_died` prints (pe_setup.c:142–143). -/
def printClosing (fees : Int) : List Char :=
  logPrefix ++ " Trading completed\n".toList ++ logPrefix ++
    " Exchange fees collected: $".toList ++ decimal fees ++ "\n".toList

namespace Exchange

variable (A : Arith) (vp : ValidProducts P) (s : Exchange P T)

/-- The functions that `parse_msg` calls return 1. -/
def accepts (msg : List Char) (ind : Fin T) : Bool :=
  match msg with
  | 'C' :: _ =>
    match s.cancelMsg A msg ind with
    | .ok (some _) => true
    | _ => false
  | _ =>
    match s.incoming A vp msg ind with
    | .ok (some _) => true
    | _ => false

/-- What is printed when a transition leads to `s'`. -/
def stdout (s' : Exchange P T) : Action T → List Char
  | .command ind msg =>
    printCommand ind msg ++ (s'.out.drop s.out.length).flatMap Event.printed ++
      if s.accepts A vp msg ind then printBkPos vp s' else []
  | .died i => printDied i

end Exchange

end PeExchange
