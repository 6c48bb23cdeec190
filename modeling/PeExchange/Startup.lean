import Mathlib.Logic.Function.Basic
import PeExchange.Lib.Rendezvous
import PeExchange.Lib.Transition
import PeExchange.ProductFile

/-!
# Starting up (pe_setup.c:223–275, pe_exchange.c:101–136, pe_trader.c:93–127)

The exchange makes two named pipes for each trader, forks it and opens both, one
trader after the other; a trader sets its signal handler and opens them in the same
order. When all are connected the exchange writes `MARKET OPEN` and sends `SIGUSR1`
to each.

- `open` waits until the other end is opened too. No handler is set to restart it:
  while the exchange waits, `SIGCHLD` makes it fail. The signal of a trader that dies
  at any other moment leaves nothing behind that `open` would look at.
- A trader may die at any time. That `execlp` or an `open` of its own fails is such a
  death: the child returns from `main`.
- `mkfifo`, `fork`, `open` and `epoll_create` may fail for other reasons, and an `open`
  that waits may be interrupted by another signal.

`MARKET OPEN` and its signal go out in one step. What is printed, the memory that is
allocated and the calls of `epoll_ctl`, whose results nobody looks at, are left out.
-/

namespace PeExchange

namespace Startup

open CFormat Rendezvous

variable {T : Nat}

/-- `FIFO_EXCHANGE` with a number. -/
def exName (id : Int) : List Char :=
  "/tmp/pe_exchange_".toList ++ decimal id

/-- `FIFO_TRADER` with a number. -/
def trName (id : Int) : List Char :=
  "/tmp/pe_trader_".toList ++ decimal id

/-- `trader_id` of the `k`-th trader: its argument is what `sprintf` made of `k`. -/
def traderID (k : Fin T) : Int :=
  atoi (decimal k.val)

/-- Where the exchange is. -/
inductive Phase (T : Nat) where
  /-- At the top of the loop of `fork_and_pipes`. -/
  | making (i : Nat)
  /-- After `fork`. -/
  | forked (i : Fin T)
  /-- In `open` of the pipe it writes to. -/
  | opensEx (i : Fin T)
  /-- In `open` of the pipe it reads from. -/
  | opensTr (i : Fin T)
  /-- In the loop of `write_market_open`. -/
  | telling (i : Nat)
  | trading
  /-- `fork_and_pipes` has returned `i`, or all are connected and `epoll_create` has
  failed. -/
  | failed (i : Nat)
  /-- The process was ended by `SIGPIPE`. -/
  | killed
deriving DecidableEq, Repr

/-- Where a trader is. -/
inductive Stage where
  | unborn
  /-- Before its signal handler is set. -/
  | forked
  | ready
  /-- In `open` of the pipe it reads from. -/
  | opensEx
  /-- In `open` of the pipe it writes to. -/
  | opensTr
  /-- In its loop. -/
  | running
  | dead
deriving DecidableEq, Repr

/-- The processes, the pipes by name, and the traders that have been sent
`MARKET OPEN`. -/
structure State (T : Nat) where
  phase : Phase T
  stage : Fin T → Stage
  pipes : List Char → Fifo
  told : List (Fin T)

namespace State

/-- Nothing has been made yet. -/
def initial : State T where
  phase := .making 0
  stage := fun _ => .unborn
  pipes := fun _ => .made
  told := []

variable (s : State T)

def setStage (k : Fin T) (stage : Stage) : State T :=
  { s with stage := Function.update s.stage k stage }

def setPipe (name : List Char) (f : Fifo) : State T :=
  { s with pipes := Function.update s.pipes name f }

def setPhase (phase : Phase T) : State T :=
  { s with phase := phase }

/-- What the exchange does next, unless it waits or has come to an end. -/
def exchangeStep : Option (State T) :=
  match s.phase with
  | .making i =>
    if h : i < T then
      some ((((s.setPipe (exName i) .made).setPipe (trName i) .made).setStage ⟨i, h⟩
        .forked).setPhase (.forked ⟨i, h⟩))
    else some (s.setPhase (.telling 0))
  | .forked i =>
    some ((s.setPipe (exName i.val) (s.pipes (exName i.val)).openWrite).setPhase (.opensEx i))
  | .opensEx i =>
    if (s.pipes (exName i.val)).writer = .through then
      some ((s.setPipe (trName i.val) (s.pipes (trName i.val)).openRead).setPhase (.opensTr i))
    else none
  | .opensTr i =>
    if (s.pipes (trName i.val)).reader = .through then some (s.setPhase (.making (i.val + 1)))
    else none
  | .telling i =>
    if h : i < T then
      -- nobody reads the pipe any more
      if (s.pipes (exName i)).reader = .away then some (s.setPhase .killed)
      else some { s with phase := .telling (i + 1), told := s.told ++ [⟨i, h⟩] }
    else some (s.setPhase .trading)
  | _ => none

/-- What a trader does next. -/
def traderStep (k : Fin T) : Option (State T) :=
  match s.stage k with
  | .forked => some (s.setStage k .ready)
  | .ready =>
    some ((s.setPipe (exName (traderID k)) (s.pipes (exName (traderID k))).openRead).setStage k
      .opensEx)
  | .opensEx =>
    if (s.pipes (exName (traderID k))).reader = .through then
      some ((s.setPipe (trName (traderID k)) (s.pipes (trName (traderID k))).openWrite).setStage k
        .opensTr)
    else none
  | .opensTr =>
    if (s.pipes (trName (traderID k))).writer = .through then some (s.setStage k .running)
    else none
  | _ => none

/-- Where `SIGCHLD` leaves the exchange: an `open` in which it waits fails. -/
def sigchld : Phase T :=
  match s.phase with
  | .opensEx i =>
    if (s.pipes (exName i.val)).writer = .waiting then .failed i.val else .opensEx i
  | .opensTr i =>
    if (s.pipes (trName i.val)).reader = .waiting then .failed i.val else .opensTr i
  | phase => phase

/-- For how many traders all has gone well, where a call can fail for a reason of its
own. -/
def refusal : Option Nat :=
  match s.phase with
  -- `mkfifo` or `fork`, and `epoll_create` behind the loop
  | .making i => some i
  | .forked i => some i.val
  -- this `open`, or the next
  | .opensEx i => some i.val
  | .opensTr i => if (s.pipes (trName i.val)).reader = .through then none else some i.val
  | _ => none

/-- A trader dies. -/
def die (k : Fin T) : State T :=
  (((s.setPipe (exName (traderID k)) (s.pipes (exName (traderID k))).closeRead).setPipe
    (trName (traderID k)) (s.pipes (trName (traderID k))).closeWrite).setStage k .dead).setPhase
      s.sigchld

/-- Nobody can go on. -/
def Idle : Prop :=
  s.exchangeStep = none ∧ ∀ k, s.traderStep k = none

end State

/-- What happens. -/
inductive Action (T : Nat) where
  | exchange
  | trader (k : Fin T)
  | died (k : Fin T)
  /-- A call of the exchange fails for a reason of its own. -/
  | refused
deriving DecidableEq, Repr

/-- The transitions. -/
inductive Step : State T → Action T → State T → Prop where
  | exchange {s s' : State T} (h : s.exchangeStep = some s') : Step s .exchange s'
  | trader {s s' : State T} {k : Fin T} (h : s.traderStep k = some s') : Step s (.trader k) s'
  | died {s : State T} {k : Fin T} (hborn : s.stage k ≠ .unborn) (hlive : s.stage k ≠ .dead) :
      Step s (.died k) (s.die k)
  | refused {s : State T} {i : Nat} (h : s.refusal = some i) :
      Step s .refused (s.setPhase (.failed i))

end Startup

end PeExchange
