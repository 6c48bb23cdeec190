import PeExchange.Reader
import PeExchange.Signals
import PeExchange.System

/-!
# The event loop (pe_exchange.c:145–244)

`main` as a transition system around the functions of the other modules. What
the operating system decides is in the label of a step: which signals come, what
`read` and `epoll_wait` return, and which of the calls in between fail.

- A step is a piece of the loop that a handler cannot tell from one statement;
  handlers run between any two steps. `pop_sigusr` and `pop_sigchld` are one step each:
  a handler in the middle of a decrement, whose own increment would be lost, is left out.
- `pause` returns when a handler has run and sets `errno` to `EINTR`; a call that
  fails sets `errno`, one that succeeds leaves it alone. Writing to a pipe nobody
  reads ends the process: `SIGPIPE` has no handler.
- `log` records in order what was done to the traders and to the memory, and how
  `epoll_wait` returned; `failed` has the errors of the calls that failed since
  `pause` or `epoll_wait` returned with `EINTR`. The program sees neither.
- Where the C program has no defined behaviour the model stops (`MainLoc.undefined`).
- `num_returned` is at most 1, the number of events asked for.
-/

namespace PeExchange

variable {P T : Nat}

/-- The values of `errno`. -/
inductive Errno where
  | zero
  | eintr
  | enoent
  | epipe
  | other (code : Nat)
deriving DecidableEq, Repr

/-- The errors of the calls that failed. -/
def errors (calls : List (Option Errno)) : List Errno :=
  calls.filterMap id

/-- `errno` after some calls. -/
def afterCalls (errno : Errno) (calls : List (Option Errno)) : Errno :=
  (errors calls).getLast?.getD errno

/-- Where `main` is. -/
inductive MainLoc (T : Nat) where
  /-- At the head of the loop (pe_exchange.c:145). -/
  | top
  /-- In `pause` (pe_exchange.c:148). -/
  | pausing
  /-- At the head of the loop over `SIGUSR1` (pe_exchange.c:152). -/
  | sigusr
  /-- In `process_msg`, called for trader `ind` (pe_exchange.c:165). -/
  | reading (ind : Fin T)
  /-- At the head of the loop over `SIGCHLD` (pe_exchange.c:187). -/
  | sigchld
  /-- In `epoll_wait` (pe_exchange.c:211). -/
  | polling
  /-- The process has ended with this status. -/
  | exited (status : Nat)
  /-- The process was ended by `SIGPIPE`. -/
  | killed
  /-- Nothing is known of the process. -/
  | undefined
deriving DecidableEq, Repr

/-- What `main` does. -/
inductive Act (T : Nat) where
  /-- `trader_list` is indexed and that trader's pipe read (pe_exchange.c:165). -/
  | read (ind : Int)
  /-- The character of `printing_msg` at `offset` is overwritten
  (pe_exchange.c:177). -/
  | strip (offset : Int)
  /-- `parse_msg` is called with `msg` for trader `ind`, after `reads`. -/
  | parse (ind : Fin T) (reads : List ReadResult) (msg : List Char)
  /-- A message is written to trader `dest`. -/
  | message (dest : Fin T) (msg : Msg)
  /-- `trader_died` is called. -/
  | died (i : Fin T)
  /-- `all_traders_died` is called. -/
  | allDied
  /-- `free_all` is called. -/
  | freeAll
  /-- `epoll_wait` returned -1 with this error. -/
  | pollFailed (e : Errno)
  /-- `epoll_wait` returned 0; `last` is the error of the last call that failed. -/
  | timedOut (last : Errno)
  /-- A write raised `SIGPIPE`. -/
  | sigpipe
deriving DecidableEq, Repr

/-- What `epoll_wait` returns. -/
inductive EpollResult (T : Nat) where
  /-- 0, after a second without event. -/
  | timeout
  /-- -1. -/
  | failed (e : Errno)
  /-- 1, with `EPOLLHUP` for a trader; `calls` are made by `trader_died`. -/
  | hup (ind : Fin T) (calls : List (Option Errno))
deriving DecidableEq, Repr

/-- What happens to the process. `calls` are the results of the calls a step
makes, `none` for success. -/
inductive MainAction (T : Nat) where
  /-- `sigusr_handler` runs, for a signal of `pid`. -/
  | sigusr (pid : Int)
  /-- `sigchld_handler` runs; `calls` has the result of its `waitpid`. -/
  | sigchld (pid : Int) (calls : List (Option Errno))
  /-- `main` goes on. -/
  | next
  /-- `process_msg` returns, having read `reads`, and the command is executed. -/
  | serve (reads : List ReadResult) (calls : List (Option Errno))
  /-- An entry of the `SIGCHLD` queue is taken. -/
  | reap (calls : List (Option Errno))
  /-- `epoll_wait` returns. -/
  | poll (result : EpollResult T)
deriving DecidableEq, Repr

/-- The process between two steps. -/
structure MainState (P T : Nat) where
  exchange : Exchange P T
  signals : Signals
  numActive : Int
  eintrEpoll : Bool
  errno : Errno
  loc : MainLoc T
  failed : List Errno
  log : List (Act T)

/-- The process at the head of the loop for the first time. -/
def MainState.initial : MainState P T where
  exchange := PeExchange.initial
  signals := .initial
  numActive := T
  eintrEpoll := false
  errno := .zero
  loc := .top
  failed := []
  log := []

namespace MainState

variable (s : MainState P T)

/-- The error of the last call that failed since `pause` or `epoll_wait` returned
with `EINTR`; that error if none did. -/
def lastError : Errno :=
  s.failed.getLast?.getD .eintr

/-- The process has neither ended nor lost its meaning. -/
def Running : Prop :=
  match s.loc with
  | .exited _ => False
  | .killed => False
  | .undefined => False
  | _ => True

/-- Some calls are made. -/
def call (calls : List (Option Errno)) : MainState P T :=
  { s with errno := afterCalls s.errno calls, failed := s.failed ++ errors calls }

def record (acts : List (Act T)) : MainState P T :=
  { s with log := s.log ++ acts }

def goto (loc : MainLoc T) : MainState P T :=
  { s with loc := loc }

/-- `pause` or `epoll_wait` returns -1 with `EINTR`. -/
def interrupted : MainState P T :=
  { s with errno := .eintr, failed := [] }

/-- A handler has run, which interrupts `pause`. `eintr_epoll` is 0 then
(pe_exchange.c:147–150). -/
def handled : MainState P T :=
  if s.loc = .pausing then s.interrupted.goto .sigusr else s

/-- The search for the trader of a process (pe_exchange.c:158–163). -/
def findTrader (pids : Fin T → Int) (pid : Int) : Option (Fin T) :=
  (List.finRange T).find? fun i => pid = pids i

/-! ## The loop over SIGUSR1 -/

/-- The messages among output entries, as acts. -/
def sent (es : List (Event P T)) : List (Act T) :=
  es.filterMap fun
    | .message dest msg => some (.message dest msg)
    | _ => none

/-- What follows `process_msg` when it returns `ret` and leaves the string `text`
in `msg` (pe_exchange.c:166–184). -/
def execute (A : Arith) (vp : ValidProducts P) (ind : Fin T) (reads : List ReadResult)
    (ret : Nat) (text : List Char) : MainState P T :=
  let offset : Int := text.length - 1
  if ret = 1 ∨ ret = 0 then
    -- the returns are commented out: what was freed is used
    (s.record [.freeAll, .strip offset, .parse ind reads text]).goto .undefined
  else if text = [] then (s.record [.strip offset]).goto .undefined
  else
    match s.exchange.parseMsg A vp text ind with
    | .error _ => (s.record [.strip offset, .parse ind reads text]).goto .undefined
    | .ok exchange =>
      { (s.record (.strip offset :: .parse ind reads text ::
          sent (exchange.out.drop s.exchange.out.length))).goto .sigusr with
        exchange := exchange }

/-! ## Disconnecting traders -/

/-- `trader_died` and the decrement next to it, whose order differs in the two
places (pe_exchange.c:194–196, 232–234). -/
def disconnect (i : Fin T) : MainState P T :=
  { s.record [.died i] with
    exchange := s.exchange.traderDied i
    numActive := s.numActive - 1 }

/-- The loop over the traders for a pid of the `SIGCHLD` queue
(pe_exchange.c:191–199). -/
def reapFrom (pids : Fin T → Int) (pid : Int) (s : MainState P T) :
    List (Fin T) → MainState P T
  | [] => s
  | i :: rest =>
    if pid = pids i ∧ (s.exchange.traders i).alive then reapFrom pids pid (s.disconnect i) rest
    else reapFrom pids pid s rest

/-- `all_traders_died` (pe_setup.c:133–145). -/
def allTradersDied : MainState P T :=
  (s.record [.allDied, .freeAll]).goto (.exited 0)

/-- `if (num_active == 0)` (pe_exchange.c:202, 235), and where `main` goes on. -/
def checkActive (loc : MainLoc T) : MainState P T :=
  if s.numActive = 0 then s.allTradersDied else s.goto loc

/-- The branch on `errno` after `epoll_wait` (pe_exchange.c:214–225). -/
def checkErrno : MainState P T :=
  if s.errno = .eintr then { s.goto .top with eintrEpoll := true }
  else (s.record [.freeAll]).goto (.exited 1)

end MainState

open MainState in
/-- The transitions. -/
inductive MainStep (A : Arith) (vp : ValidProducts P) (pids : Fin T → Int) :
    MainState P T → MainAction T → MainState P T → Prop where
  | sigusrHandler {s : MainState P T} {pid : Int} (h : s.Running) :
      MainStep A vp pids s (.sigusr pid)
        { s with signals := s.signals.sigusrHandler pid }.handled
  | sigchldHandler {s : MainState P T} {pid : Int} {calls : List (Option Errno)}
      (h : s.Running) :
      MainStep A vp pids s (.sigchld pid calls)
        ({ s with signals := s.signals.sigchldHandler pid }.call calls).handled
  | pause {s : MainState P T} (h : s.loc = .top) (he : s.eintrEpoll = false) :
      MainStep A vp pids s .next (s.goto .pausing)
  | resume {s : MainState P T} (h : s.loc = .top) (he : s.eintrEpoll = true) :
      MainStep A vp pids s .next { s.goto .sigusr with eintrEpoll := false }
  | take {s : MainState P T} {pid : Int} {ind : Fin T} (h : s.loc = .sigusr)
      (hlen : 0 < s.signals.sigusr.len) (hpid : s.signals.sigusr.peek = some pid)
      (hind : findTrader pids pid = some ind) :
      MainStep A vp pids s .next
        { (s.record [.read ind]).goto (.reading ind) with signals := s.signals.popSigusr }
  | takeUnknown {s : MainState P T} {pid : Int} (h : s.loc = .sigusr)
      (hlen : 0 < s.signals.sigusr.len) (hpid : s.signals.sigusr.peek = some pid)
      (hind : findTrader pids pid = none) :
      -- `trader_ind` is still -1
      MainStep A vp pids s .next
        { (s.record [.read (-1)]).goto .undefined with signals := s.signals.popSigusr }
  | serve {s : MainState P T} {ind : Fin T} {reads : List ReadResult} {ret : Nat}
      {msg : List Char} {calls : List (Option Errno)} (h : s.loc = .reading ind)
      (hmsg : processMsg reads = .returned ret msg []) (hcalls : some .epipe ∉ calls) :
      MainStep A vp pids s (.serve reads calls)
        ((s.execute A vp ind reads ret (cString msg)).call calls)
  | overrun {s : MainState P T} {ind : Fin T} {reads : List ReadResult}
      (h : s.loc = .reading ind) (hmsg : processMsg reads = .overrun) :
      MainStep A vp pids s (.serve reads []) (s.goto .undefined)
  | noSigusr {s : MainState P T} (h : s.loc = .sigusr) (hlen : ¬0 < s.signals.sigusr.len) :
      MainStep A vp pids s .next (s.goto .sigchld)
  | reap {s : MainState P T} {pid : Int} {calls : List (Option Errno)} (h : s.loc = .sigchld)
      (hlen : 0 < s.signals.sigchld.len ∧ s.signals.sigusr.len = 0)
      (hpid : s.signals.sigchld.peek = some pid) (hcalls : some .epipe ∉ calls) :
      MainStep A vp pids s (.reap calls)
        ((reapFrom pids pid { s with signals := s.signals.popSigchld }
          (List.finRange T)).call calls |>.checkActive .sigchld)
  | noSigchld {s : MainState P T} (h : s.loc = .sigchld)
      (hlen : ¬(0 < s.signals.sigchld.len ∧ s.signals.sigusr.len = 0)) :
      MainStep A vp pids s .next (s.goto .polling)
  | timeout {s : MainState P T} (h : s.loc = .polling) :
      MainStep A vp pids s (.poll .timeout) (s.record [.timedOut s.lastError]).checkErrno
  | pollFailed {s : MainState P T} {e : Errno} (h : s.loc = .polling) (he : e ≠ .eintr) :
      MainStep A vp pids s (.poll (.failed e))
        ((s.call [some e]).record [.pollFailed e]).checkErrno
  | pollInterrupted {s : MainState P T} (h : s.loc = .polling) :
      MainStep A vp pids s (.poll (.failed .eintr))
        (s.interrupted.record [.pollFailed .eintr]).checkErrno
  | hup {s : MainState P T} {ind : Fin T} {calls : List (Option Errno)} (h : s.loc = .polling)
      (halive : (s.exchange.traders ind).alive = true) (hcalls : some .epipe ∉ calls) :
      MainStep A vp pids s (.poll (.hup ind calls))
        (((s.disconnect ind).call calls).checkActive .top)
  | hupDead {s : MainState P T} {ind : Fin T} (h : s.loc = .polling)
      (halive : (s.exchange.traders ind).alive = false) :
      MainStep A vp pids s (.poll (.hup ind [])) (s.goto .top)
  | sigpipe {s : MainState P T} {ind : Fin T} {reads : List ReadResult} {ret : Nat}
      {msg : List Char} {calls : List (Option Errno)} {acts : List (Act T)}
      (h : s.loc = .reading ind) (hmsg : processMsg reads = .returned ret msg [])
      (hcalls : some .epipe ∈ calls)
      (hacts : s.log ++ acts <+: (s.execute A vp ind reads ret (cString msg)).log) :
      -- some of the messages have been written
      MainStep A vp pids s (.serve reads calls) ((s.record (acts ++ [.sigpipe])).goto .killed)

end PeExchange
