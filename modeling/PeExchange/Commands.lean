import PeExchange.Matching

/-!
# Commands (pe_pipes.c:150–336)

`parse_msg` and the functions it dispatches to. `buy_sell_msg` and `amend_msg`
end in the same statements, `check_for_match` and the insertion of what is left
of the order; the model cuts both in two at that call. `newOrderMsg` and
`amendOrderMsg` give the state and the order that `check_for_match` is called
with, `none` when the message is rejected before; `matchAndInsert` is the rest.

The C functions return 0 for a message to be answered with `INVALID`; here that
is `none`. Printing of the book and the positions is left out.
-/

namespace PeExchange

open CFormat LinkedList

variable {P T : Nat}

/-- `"AMEND %*d %d %d"` (pe_pipes.c:229). -/
def amendFormat : List Directive :=
  "AMEND".toList.map .lit ++ [.space, .int false, .space, .int true, .space, .int true]

/-- `"AMEND %d %d %d"` (pe_pipes.c:205). -/
def amendIdFormat : List Directive :=
  "AMEND".toList.map .lit ++ [.space, .int true, .space, .int true, .space, .int true]

/-- `"CANCEL %d"` (pe_pipes.c:279). -/
def cancelFormat : List Directive :=
  "CANCEL".toList.map .lit ++ [.space, .int true]

/-- The number of spaces in a message. -/
def spaceCount (msg : List Char) : Nat :=
  msg.count ' '

/-- The variables `id`, `quantity` and `price` of `check_valid_amend`. -/
structure AmendArgs where
  id : Int
  quantity : Int
  price : Int
deriving DecidableEq, Repr

/-- Those variables after the scan: the ones it does not reach keep 0 and the
values of the parameters (pe_pipes.c:204–205). -/
def amendArgs (quantity price : Int) : List Arg → AmendArgs
  | [.int id, .int quantity, .int price] => ⟨id, quantity, price⟩
  | [.int id, .int quantity] => ⟨id, quantity, price⟩
  | [.int id] => ⟨id, quantity, price⟩
  | _ => ⟨0, quantity, price⟩

namespace Exchange

variable (A : Arith) (vp : ValidProducts P) (s : Exchange P T)

/-- The end of `buy_sell_msg` and of `amend_msg` (pe_pipes.c:176–182, 251–258). -/
def matchAndInsert (currOrder : Order P T) : Except Fault (Exchange P T) := do
  let (s, currOrder, ret) ← s.checkForMatch A currOrder
  if ret = 1 then pure ((s.addOrderPrints A currOrder).addOrder currOrder) else pure s

/-- `buy_sell_msg` up to `check_for_match` (pe_pipes.c:156–174). -/
def newOrderMsg (msg : List Char) (ind : Fin T) :
    Except Fault (Option (Exchange P T × Order P T)) :=
  if spaceCount msg ≠ 4 then .ok none
  else do
    match ← createBuySellOrder vp msg ind (s.traders ind) with
    | none => pure none
    | some (currOrder, trader) =>
      pure (some ((s.setTrader ind trader).writeAccepted currOrder ind, currOrder))

/-- The checks of `check_valid_amend` and its search (pe_pipes.c:207–219). -/
def checkAmendArgs (ind : Fin T) (args : AmendArgs) : Option (Cell (Order P T)) :=
  if args.quantity < 1 ∨ args.quantity > 999999 then none
  else if args.price < 1 ∨ args.price > 999999 then none
  else if args.id < 0 ∨ args.id > 999999 then none
  else s.findOrder ind args.id

/-- `check_valid_amend` (pe_pipes.c:189–220). -/
def checkValidAmend (quantity price : Int) (ind : Fin T) (msg : List Char) :
    Except Fault (Option (Cell (Order P T))) :=
  if spaceCount msg ≠ 3 then .ok none
  else do
    let args ← scan amendIdFormat msg
    pure (s.checkAmendArgs ind (amendArgs quantity price args))

/-- `amend_msg` up to `check_for_match` (pe_pipes.c:223–249). -/
def amendOrderMsg (msg : List Char) (ind : Fin T) :
    Except Fault (Option (Exchange P T × Order P T)) := do
  match ← scan amendFormat msg with
  | [.int newQuantity, .int newPrice] =>
    -- the message is scanned a second time, for the identifier
    match ← s.checkValidAmend newQuantity newPrice ind msg with
    | none => pure none
    | some currOrder =>
      let newOrder := createAmendedOrder newPrice newQuantity currOrder.val
      pure (some (((s.writeAmended newOrder ind).cancelOrderPrints A currOrder.val).deleteOrder
        currOrder currOrder.val.isBuy currOrder.val.productID, newOrder))
  | _ => pure none

/-- `cancel_msg` (pe_pipes.c:264–301). -/
def cancelMsg (msg : List Char) (ind : Fin T) : Except Fault (Option (Exchange P T)) :=
  if spaceCount msg ≠ 1 then .ok none
  else do
    match ← scan cancelFormat msg with
    | [.int id] =>
      -- one value was assigned: `id`
      if id < 0 ∨ id > 999999 then pure none
      else match s.findOrder ind id with
        | none => pure none
        | some currOrder =>
          let o := currOrder.val
          pure (some ((((s.emit [.cancelled o]).writeCancelled id o.product ind
            o.isBuy).cancelOrderPrints A o).deleteOrder currOrder o.isBuy o.productID))
    | _ => pure none

/-- The state and the order with which a command calls `check_for_match`. -/
def incoming (msg : List Char) (ind : Fin T) :
    Except Fault (Option (Exchange P T × Order P T)) :=
  match msg with
  | 'B' :: _ => s.newOrderMsg vp msg ind
  | 'S' :: _ => s.newOrderMsg vp msg ind
  | 'A' :: _ => s.amendOrderMsg A msg ind
  | _ => .ok none

/-- `parse_msg` (pe_pipes.c:304–336). -/
def parseMsg (msg : List Char) (ind : Fin T) : Except Fault (Exchange P T) := do
  match msg with
  -- a cancelled order meets no other: the only command that is not matched
  | 'C' :: _ =>
    match ← s.cancelMsg A msg ind with
    | none => pure (s.writeInvalid ind)
    | some s' => pure s'
  | _ =>
    match ← s.incoming A vp msg ind with
    | none => pure (s.writeInvalid ind)
    | some (s', currOrder) => s'.matchAndInsert A currOrder

end Exchange

end PeExchange
