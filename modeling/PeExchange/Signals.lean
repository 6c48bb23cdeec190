import PeExchange.Lib.RingBuffer
import PeExchange.Lib.Transition

/-!
# The signal queues (pe_exchange.c:11–63)

The handlers of `SIGUSR1` and `SIGCHLD` store the sender's process identifier,
the loop of `main` takes the identifiers off again. The two queues are the same
code on different variables. A handler runs between two statements of `main`,
and the model takes it, like each pop, as one step.

- The arrays have `QUEUE_LEN` slots; the indices return to 0 at 50 in all four
  functions.
- `waitpid` in `sigchld_handler` changes nothing here.
-/

namespace PeExchange

/-- `QUEUE_LEN` (pe_common.h:25). -/
def queueLen : Nat := 100

/-- Where the indices return to 0 (pe_exchange.c:28, 38, 49, 59). -/
def queueWrap : Nat := 50

/-- `sigusr_queue` and `sigchld_queue` with their lengths and indices. -/
structure Signals where
  sigusr : RingBuffer Int
  sigchld : RingBuffer Int
deriving DecidableEq, Repr

namespace Signals

/-- The variables as they are declared (pe_exchange.c:12–20). -/
def initial : Signals where
  sigusr := .empty queueLen 0
  sigchld := .empty queueLen 0

variable (s : Signals) (pid : Int)

/-- `sigusr_handler` (pe_exchange.c:25–32). -/
def sigusrHandler : Signals :=
  { s with sigusr := s.sigusr.push queueWrap pid }

/-- `sigchld_handler` (pe_exchange.c:35–43). -/
def sigchldHandler : Signals :=
  { s with sigchld := s.sigchld.push queueWrap pid }

/-- `pop_sigusr` (pe_exchange.c:46–53). -/
def popSigusr : Signals :=
  { s with sigusr := s.sigusr.pop queueWrap 0 }

/-- `pop_sigchld` (pe_exchange.c:56–63). -/
def popSigchld : Signals :=
  { s with sigchld := s.sigchld.pop queueWrap 0 }

@[simp] theorem sigusrHandler_sigchld : (s.sigusrHandler pid).sigchld = s.sigchld := rfl
@[simp] theorem sigchldHandler_sigusr : (s.sigchldHandler pid).sigusr = s.sigusr := rfl
@[simp] theorem popSigusr_sigchld : s.popSigusr.sigchld = s.sigchld := rfl
@[simp] theorem popSigchld_sigusr : s.popSigchld.sigusr = s.sigusr := rfl

end Signals

/-- The two queues. -/
inductive Queue where
  | sigusr
  | sigchld
deriving DecidableEq, Repr

/-- The variables of a queue. -/
def Signals.ring (s : Signals) : Queue → RingBuffer Int
  | .sigusr => s.sigusr
  | .sigchld => s.sigchld

/-- What happens to the queues. -/
inductive QueueAction where
  /-- The handler of the queue's signal runs, for a signal sent by `pid`. -/
  | handler (q : Queue) (pid : Int)
  /-- `main` reads `pid` at the front and pops it (pe_exchange.c:156, 188). -/
  | pop (q : Queue) (pid : Int)
deriving DecidableEq, Repr

/-- The queues under handlers and pops, in any order; `main` pops only while the
length is positive (pe_exchange.c:152, 187). -/
inductive QueueStep : Signals → QueueAction → Signals → Prop where
  | sigusrHandler {s : Signals} {pid : Int} :
      QueueStep s (.handler .sigusr pid) (s.sigusrHandler pid)
  | sigchldHandler {s : Signals} {pid : Int} :
      QueueStep s (.handler .sigchld pid) (s.sigchldHandler pid)
  | popSigusr {s : Signals} {pid : Int} (hlen : 0 < s.sigusr.len)
      (hpid : s.sigusr.peek = some pid) : QueueStep s (.pop .sigusr pid) s.popSigusr
  | popSigchld {s : Signals} {pid : Int} (hlen : 0 < s.sigchld.len)
      (hpid : s.sigchld.peek = some pid) : QueueStep s (.pop .sigchld pid) s.popSigchld

end PeExchange
