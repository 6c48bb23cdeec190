import PeExchange.Reader
import PeExchange.Lib.Transition

/-!
# The auto-trader (pe_trader.c)

`pe_trader` answers each offer it is told of with an order to buy what is
offered, and leaves at the first offer of 1000 units or more.

- `BuyOrder` has the fields of `struct order` that the program uses.
- `main` is a transition system. A step is a statement, or several that no
  signal can tell apart; the handler may run between any two steps.
- The pipe from the exchange holds whole messages, each written by one call of
  `write`. `SIGUSR1` is not queued: one that is sent while another is pending is
  lost.
- Names of the pipes and what is done after the loop are left out.
-/

namespace PeExchange

open CFormat

namespace PeTrader

/-- `struct order` as `pe_trader` uses it. -/
structure BuyOrder where
  product : List Char
  quantity : Int
  price : Int
  orderID : Int
deriving DecidableEq, Repr

/-- `struct order curr_buy = {0}` (pe_trader.c:144). -/
def BuyOrder.zero : BuyOrder :=
  ⟨[], 0, 0, 0⟩

/-! ## Reading -/

/-- The loop of `process_msg` (pe_trader.c:13–36). Unlike that of the exchange it
takes an interrupted `read` for an error, and a complete message returns 0. -/
def processMsgFrom (count : Nat) (msg : List Char) : List ReadResult → Received
  | [] => .blocked
  | .interrupted :: rest => .returned 1 msg rest
  | .failed :: rest => .returned 1 msg rest
  | .closed :: rest => .returned 0 msg rest
  | .byte c :: rest =>
    let count := count + 1
    if c = ';' then
      if count < msg.length then
        .returned 0 ((msg.set (count - 1) c).set count '\x00') rest
      else .overrun
    else if count - 1 < msg.length then processMsgFrom count (msg.set (count - 1) c) rest
    else .overrun

/-- `process_msg` (pe_trader.c:12–37). `msg` still holds the message before. -/
def processMsg (msg : List Char) (reads : List ReadResult) : Received :=
  processMsgFrom 0 msg reads

/-! ## Offers and orders -/

/-- `strlen_digit` (pe_trader.c:40–47): the loop runs once at least. -/
def strlenDigit (x : Int) : Nat :=
  if h : x.tdiv 10 = 0 then 1 else strlenDigit (x.tdiv 10) + 1
termination_by x.natAbs
decreasing_by
  rw [Int.natAbs_tdiv]
  have hx : x ≠ 0 := by
    rintro rfl
    exact h rfl
  exact Nat.div_lt_self (Int.natAbs_pos.mpr hx) (by decide)

/-- `find_buy_str_len` (pe_trader.c:50–58). -/
def findBuyStrLen (currOrder : BuyOrder) : Nat :=
  4 + (strlenDigit currOrder.orderID + 1) + (currOrder.product.length + 1) +
    (strlenDigit currOrder.quantity + 1) + (strlenDigit currOrder.price + 1) + 1

/-- `"%s %s %s %d %d;"` (pe_trader.c:64). -/
def offerFormat : List Directive :=
  [.str maxLine, .space, .str maxLine, .space, .str maxProd, .space, .int true, .space,
    .int true, .lit ';']

/-- `curr_buy` after the scan: fields it does not reach are left alone. -/
def assignBuy (currBuy : BuyOrder) : List Arg → BuyOrder
  | [.str product, .int quantity, .int price] =>
    { currBuy with product := product, quantity := quantity, price := price }
  | [.str product, .int quantity] => { currBuy with product := product, quantity := quantity }
  | [.str product] => { currBuy with product := product }
  | _ => currBuy

/-- `create_buy_order` (pe_trader.c:61–80) with `trader_order_ID`: the order and
the identifier after it, or `none` when it returns 0. -/
def createBuyOrder (traderOrderID : Int) (sellStr : List Char) (currBuy : BuyOrder) :
    Except Fault (Option (BuyOrder × Int)) := do
  match ← scan offerFormat sellStr with
  | .str market :: args =>
    if market = "MARKET".toList then
      match args with
      | .str sell :: args =>
        if sell = "SELL".toList then
          pure (some ({ assignBuy currBuy args with orderID := traderOrderID },
            traderOrderID + 1))
        else pure none
      -- `sell` is compared without having been set
      | _ => throw .uninitialised
    else pure none
  | _ => throw .uninitialised

/-- What `create_buy_str` prints (pe_trader.c:84–90). -/
def createBuyStr (currOrder : BuyOrder) : List Char :=
  "BUY ".toList ++ decimal currOrder.orderID ++ " ".toList ++ currOrder.product ++ " ".toList ++
    decimal currOrder.quantity ++ " ".toList ++ decimal currOrder.price ++ ";".toList

/-! ## The event loop -/

/-- Where `main` is; `wait` tells the loop that waits for the answer from the loop
around it. -/
inductive Loc where
  /-- Before `pause` (pe_trader.c:137). -/
  | loop
  /-- In `pause`. -/
  | paused
  /-- Before `signal_received` is tested (pe_trader.c:139, 163). -/
  | test (wait : Bool)
  /-- Before it is set to 0 (pe_trader.c:140, 164). -/
  | clear (wait : Bool)
  /-- Before `process_msg` is called (pe_trader.c:142, 165). -/
  | read (wait : Bool)
  /-- Before `SIGUSR1` is sent to the exchange (pe_trader.c:95, 171). -/
  | kill
  /-- In `nanosleep` (pe_trader.c:162). -/
  | sleep
  /-- Behind the loop (pe_trader.c:177). -/
  | stopped
deriving DecidableEq, Repr

/-- The program, its pipe and its signal. -/
structure State where
  /-- What the exchange has written and the program not read. -/
  pipe : List Msg
  /-- The number of messages written whose signal has not been sent. -/
  unsignalled : Nat
  /-- A signal has been sent and the handler has not run. -/
  pending : Bool
  signalReceived : Bool
  traderOrderID : Int
  msg : List Char
  loc : Loc
  /-- What the program has written to the exchange. -/
  bought : List (List Char)
  /-- The messages read, and for each whether the waiting loop read it. -/
  received : List (Bool × Msg)

/-- The program when it enters its loop. What `msg` contains is not looked at
before a message is read into it. -/
def initial : State where
  pipe := []
  unsignalled := 0
  pending := false
  signalReceived := false
  traderOrderID := 0
  msg := List.replicate maxLine '\x00'
  loc := .loop
  bought := []
  received := []

/-- What is done with a message once it has been read (pe_trader.c:144–156). -/
def State.handleMsg (s : State) : Except Fault State := do
  match ← createBuyOrder s.traderOrderID (cString s.msg) .zero with
  | none => pure { s with loc := .loop }
  | some (currBuy, traderOrderID) =>
    if currBuy.quantity ≥ 1000 then
      pure { s with traderOrderID := traderOrderID, loc := .stopped }
    else
      pure { s with
        traderOrderID := traderOrderID
        bought := s.bought ++ [createBuyStr currBuy]
        loc := .kill }

/-- The bytes in the pipe. -/
def bytes (pipe : List Msg) : List ReadResult :=
  (pipe.flatMap Msg.text).map .byte

/-- The messages of the exchange: names as `get_products` admits them, not empty,
and numbers in the range of the command checks. -/
def Sendable : Msg → Prop
  | .invalid => True
  | .marketOpen => True
  | .accepted id => 0 ≤ id ∧ id ≤ 999999
  | .amended id => 0 ≤ id ∧ id ≤ 999999
  | .cancelled id => 0 ≤ id ∧ id ≤ 999999
  | .fill id quantity => (0 ≤ id ∧ id ≤ 999999) ∧ 0 ≤ quantity ∧ quantity ≤ 999999
  | .market _ product quantity price =>
    (product ≠ [] ∧ (∀ c ∈ product, c.isAlphanum = true) ∧ product.length < maxProd) ∧
      (0 ≤ quantity ∧ quantity ≤ 999999) ∧ 0 ≤ price ∧ price ≤ 999999

/-- What happens. -/
inductive Action where
  /-- The exchange writes a message. -/
  | write (m : Msg)
  /-- The exchange sends the signal of a message it has written. -/
  | signal
  /-- `handler` runs (pe_trader.c:7–9). -/
  | handler
  /-- The program takes its next step. -/
  | next
deriving DecidableEq, Repr

/-- The transitions. -/
inductive Step : State → Action → State → Prop where
  | write {s : State} {m : Msg} (hm : Sendable m) :
      Step s (.write m) { s with pipe := s.pipe ++ [m], unsignalled := s.unsignalled + 1 }
  | signal {s : State} (h : 0 < s.unsignalled) :
      Step s .signal { s with unsignalled := s.unsignalled - 1, pending := true }
  | handler {s : State} (h : s.pending = true) :
      -- `pause` returns when a handler has run
      Step s .handler { s with
        pending := false
        signalReceived := true
        loc := if s.loc = .paused then .test false else s.loc }
  | pause {s : State} (h : s.loc = .loop) : Step s .next { s with loc := .paused }
  | received {s : State} {wait : Bool} (h : s.loc = .test wait) (hr : s.signalReceived = true) :
      Step s .next { s with loc := .clear wait }
  | notReceived {s : State} {wait : Bool} (h : s.loc = .test wait)
      (hr : s.signalReceived = false) :
      Step s .next { s with loc := if wait then .kill else .loop }
  | clear {s : State} {wait : Bool} (h : s.loc = .clear wait) :
      Step s .next { s with signalReceived := false, loc := .read wait }
  | read {s s' : State} {m : Msg} {pipe : List Msg} {msg : List Char} (h : s.loc = .read false)
      (hpipe : s.pipe = m :: pipe)
      (hmsg : processMsg s.msg (bytes s.pipe) = .returned 0 msg (bytes pipe))
      (hs' : ({ s with
        pipe := pipe
        msg := msg
        received := s.received ++ [(false, m)] } : State).handleMsg = .ok s') :
      Step s .next s'
  | readWaiting {s : State} {m : Msg} {pipe : List Msg} {msg : List Char}
      (h : s.loc = .read true) (hpipe : s.pipe = m :: pipe)
      (hmsg : processMsg s.msg (bytes s.pipe) = .returned 0 msg (bytes pipe)) :
      -- the message is not looked at
      Step s .next { s with
        pipe := pipe
        msg := msg
        loc := .loop
        received := s.received ++ [(true, m)] }
  | kill {s : State} (h : s.loc = .kill) : Step s .next { s with loc := .sleep }
  -- after 0.3 s or when a handler has run
  | wake {s : State} (h : s.loc = .sleep) : Step s .next { s with loc := .test true }

end PeTrader

end PeExchange
