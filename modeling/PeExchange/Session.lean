import PeExchange.System
import PeExchange.Trader

/-!
# The exchange and an auto-trader

The exchange with `pe_trader` as trader `t`, and the two pipes between them. The
other traders are not modelled: they may send any command at any time.

- A command is executed at once, but its messages reach the pipe of `pe_trader`
  one by one (`outbox`), and `pe_trader` may run in between.
- The exchange takes the commands of `pe_trader` from the pipe whole.
- Anyone may be found dead at any time.
-/

namespace PeExchange

variable {P T : Nat}

/-- The messages among output entries that go to trader `t`. -/
def messagesTo (t : Fin T) (es : List (Event P T)) : List Msg :=
  es.filterMap fun
    | .message dest m => if dest = t then some m else none
    | _ => none

/-- The exchange, `pe_trader`, and what is on its way between them. -/
structure Session (P T : Nat) where
  exchange : Exchange P T
  /-- Messages to `pe_trader` that have not been written yet. -/
  outbox : List Msg
  trader : PeTrader.State
  /-- Commands of `pe_trader` that have not been read yet. -/
  inFlight : List (List Char)

namespace Session

/-- Trading starts: `MARKET OPEN` is to be written, and `pe_trader` enters its loop. -/
def initial (t : Fin T) : Session P T where
  exchange := PeExchange.initial
  outbox := messagesTo t (PeExchange.initial : Exchange P T).out
  trader := PeTrader.initial
  inFlight := []

/-- The exchange has executed a command. -/
def execute (w : Session P T) (t : Fin T) (s : Exchange P T) : Session P T :=
  { w with
    exchange := s
    outbox := w.outbox ++ messagesTo t (s.out.drop w.exchange.out.length) }

/-- A message is written to the pipe of `pe_trader`. -/
def write (w : Session P T) (m : Msg) (outbox : List Msg) : Session P T :=
  { w with
    outbox := outbox
    trader := { w.trader with
      pipe := w.trader.pipe ++ [m], unsignalled := w.trader.unsignalled + 1 } }

/-- `pe_trader` has taken a step, in which it may have written a command. -/
def run (w : Session P T) (tr : PeTrader.State) : Session P T :=
  { w with
    trader := tr
    inFlight := w.inFlight ++ tr.bought.drop w.trader.bought.length }

end Session

/-- What happens. -/
inductive SessionAction (T : Nat) where
  /-- The exchange executes a command of another trader. -/
  | command (ind : Fin T) (msg : List Char)
  /-- It reads and executes the next command of `pe_trader`. -/
  | consume
  /-- It finds a trader dead. -/
  | died (i : Fin T)
  /-- It writes the next message to `pe_trader`. -/
  | write
  /-- `pe_trader` takes a step, or a signal for it goes its way. -/
  | trader (a : PeTrader.Action)
deriving DecidableEq, Repr

/-- The transitions. -/
inductive SessionStep (A : Arith) (vp : ValidProducts P) (t : Fin T) :
    Session P T → SessionAction T → Session P T → Prop where
  | command {w : Session P T} {ind : Fin T} {msg : List Char} {s : Exchange P T} (hne : ind ≠ t)
      (h : w.exchange.parseMsg A vp msg ind = .ok s) :
      SessionStep A vp t w (.command ind msg) (w.execute t s)
  | consume {w : Session P T} {text : List Char} {rest : List (List Char)} {s : Exchange P T}
      (hf : w.inFlight = text :: rest) (h : w.exchange.parseMsg A vp text t = .ok s) :
      SessionStep A vp t w .consume { w.execute t s with inFlight := rest }
  | died {w : Session P T} {i : Fin T} :
      SessionStep A vp t w (.died i) { w with exchange := w.exchange.traderDied i }
  | write {w : Session P T} {m : Msg} {outbox : List Msg} (ho : w.outbox = m :: outbox) :
      SessionStep A vp t w .write (w.write m outbox)
  | trader {w : Session P T} {a : PeTrader.Action} {tr : PeTrader.State} (ha : ∀ m, a ≠ .write m)
      (h : PeTrader.Step w.trader a tr) : SessionStep A vp t w (.trader a) (w.run tr)

end PeExchange
