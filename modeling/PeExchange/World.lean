import PeExchange.Lib.Framing
import PeExchange.MainLoop

/-!
# The exchange and its traders

The event loop with what stands around it: the processes of the traders, the
pipes they write to, and the signals the kernel holds for the exchange.

- A trader writes complete commands, sends `SIGUSR1`, closes its pipe and exits,
  in any order and at any time. `exit` closes the pipe and raises `SIGCHLD`.
- Processes that are no traders may send the two signals as well.
- The two signals are standard ones: while one is pending, another of its kind is
  dropped. A pending signal reaches its handler at any time later.
- `read` gives the bytes of the pipe one by one. From an empty pipe it returns 0
  when the trader has closed its end, and is interrupted or waits when it has not;
  from a pipe that `trader_died` has closed it returns an error.
- `EPOLLHUP` is reported for a trader that has closed its end.
-/

namespace PeExchange

variable {P T : Nat}

/-- What the calls of `read` take from a pipe, and the bytes that stay in it. -/
inductive PipeReads (isOpen : Bool) : List Char → List ReadResult → List Char → Prop where
  | done {pipe : List Char} : PipeReads isOpen pipe [] pipe
  | byte {c : Char} {pipe pipe' : List Char} {reads : List ReadResult}
      (h : PipeReads isOpen pipe reads pipe') :
      PipeReads isOpen (c :: pipe) (.byte c :: reads) pipe'
  | interrupted {pipe' : List Char} {reads : List ReadResult} (ho : isOpen = true)
      (h : PipeReads isOpen [] reads pipe') : PipeReads isOpen [] (.interrupted :: reads) pipe'
  | closed {pipe' : List Char} {reads : List ReadResult} (ho : isOpen = false)
      (h : PipeReads isOpen [] reads pipe') : PipeReads isOpen [] (.closed :: reads) pipe'

/-- The process of a trader and its pipe to the exchange. -/
structure TraderEnd where
  /-- The commands it has written. -/
  written : List (List Char)
  /-- The bytes of these that have not been read. -/
  pipe : List Char
  /-- The number of signals it has sent. -/
  sent : Nat
  /-- The number of commands it has signalled before it closed its pipe: each
  signal is for the next one of the commands written before it. -/
  announced : Nat
  isOpen : Bool
  running : Bool

namespace TraderEnd

def initial : TraderEnd where
  written := []
  pipe := []
  sent := 0
  announced := 0
  isOpen := true
  running := true

/-- A command is written. -/
def write (e : TraderEnd) (c : List Char) : TraderEnd :=
  { e with written := e.written ++ [c], pipe := e.pipe ++ c }

/-- Bytes are read, and `pipe` is left. -/
def take (e : TraderEnd) (pipe : List Char) : TraderEnd :=
  { e with pipe := pipe }

def close (e : TraderEnd) : TraderEnd :=
  { e with isOpen := false }

def exit (e : TraderEnd) : TraderEnd :=
  { e with isOpen := false, running := false }

/-- A signal is sent. -/
def signal (e : TraderEnd) : TraderEnd :=
  { e with
    sent := e.sent + 1
    announced := if e.isOpen ∧ e.announced < e.written.length then e.announced + 1
      else e.announced }

end TraderEnd

/-- The exchange, its traders and the pending signals with the processes they come from. -/
structure World (P T : Nat) where
  main : MainState P T
  ends : Fin T → TraderEnd
  sigusr : Option Int
  sigchld : Option Int

namespace World

def initial : World P T where
  main := .initial
  ends _ := .initial
  sigusr := none
  sigchld := none

def setEnd (w : World P T) (i : Fin T) (e : TraderEnd) : World P T :=
  { w with ends := Function.update w.ends i e }

/-- A signal of process `pid` becomes pending, unless one is pending already. -/
def raise (pid : Int) (pending : Option Int) : Option Int :=
  pending.or (some pid)

end World

/-- What happens. -/
inductive WorldAction (T : Nat) where
  /-- Trader `i` writes a command. -/
  | write (i : Fin T) (c : List Char)
  /-- Trader `i` sends `SIGUSR1`. -/
  | signal (i : Fin T)
  /-- Trader `i` closes its pipe. -/
  | close (i : Fin T)
  /-- Trader `i` exits. -/
  | exit (i : Fin T)
  /-- Process `pid`, which is no trader, sends `SIGUSR1`. -/
  | strayUsr (pid : Int)
  /-- It sends `SIGCHLD`. -/
  | strayChld (pid : Int)
  /-- The exchange takes a step. -/
  | main (a : MainAction T)
deriving DecidableEq, Repr

/-- The step of the exchange concerns no signal, pipe or `epoll` event. -/
def MainAction.inner : MainAction T → Bool
  | .next => true
  | .reap _ => true
  | .poll .timeout => true
  | .poll (.failed _) => true
  | _ => false

/-- The transitions. -/
inductive WorldStep (A : Arith) (vp : ValidProducts P) (pids : Fin T → Int) :
    World P T → WorldAction T → World P T → Prop where
  | write {w : World P T} {i : Fin T} {c : List Char} (ho : (w.ends i).isOpen = true)
      (hc : Framing.Terminated ';' c) :
      WorldStep A vp pids w (.write i c) (w.setEnd i ((w.ends i).write c))
  | signal {w : World P T} {i : Fin T} (hr : (w.ends i).running = true) :
      WorldStep A vp pids w (.signal i)
        { w.setEnd i (w.ends i).signal with sigusr := World.raise (pids i) w.sigusr }
  | close {w : World P T} {i : Fin T} (hr : (w.ends i).running = true) :
      WorldStep A vp pids w (.close i) (w.setEnd i (w.ends i).close)
  | exit {w : World P T} {i : Fin T} (hr : (w.ends i).running = true) :
      WorldStep A vp pids w (.exit i)
        { w.setEnd i (w.ends i).exit with sigchld := World.raise (pids i) w.sigchld }
  | strayUsr {w : World P T} {pid : Int} (hpid : ∀ i, pid ≠ pids i) :
      WorldStep A vp pids w (.strayUsr pid) { w with sigusr := World.raise pid w.sigusr }
  | strayChld {w : World P T} {pid : Int} (hpid : ∀ i, pid ≠ pids i) :
      WorldStep A vp pids w (.strayChld pid) { w with sigchld := World.raise pid w.sigchld }
  | sigusr {w : World P T} {pid : Int} {m : MainState P T} (hp : w.sigusr = some pid)
      (h : MainStep A vp pids w.main (.sigusr pid) m) :
      WorldStep A vp pids w (.main (.sigusr pid)) { w with main := m, sigusr := none }
  | sigchld {w : World P T} {pid : Int} {calls : List (Option Errno)} {m : MainState P T}
      (hp : w.sigchld = some pid) (h : MainStep A vp pids w.main (.sigchld pid calls) m) :
      WorldStep A vp pids w (.main (.sigchld pid calls)) { w with main := m, sigchld := none }
  | serve {w : World P T} {ind : Fin T} {reads : List ReadResult} {pipe : List Char}
      {calls : List (Option Errno)} {m : MainState P T} (hloc : w.main.loc = .reading ind)
      (halive : (w.main.exchange.traders ind).alive = true)
      (hreads : PipeReads (w.ends ind).isOpen (w.ends ind).pipe reads pipe)
      (h : MainStep A vp pids w.main (.serve reads calls) m) :
      WorldStep A vp pids w (.main (.serve reads calls))
        { w.setEnd ind ((w.ends ind).take pipe) with main := m }
  | serveDead {w : World P T} {ind : Fin T} {calls : List (Option Errno)} {m : MainState P T}
      (hloc : w.main.loc = .reading ind)
      (hdead : (w.main.exchange.traders ind).alive = false)
      (h : MainStep A vp pids w.main (.serve [.failed] calls) m) :
      WorldStep A vp pids w (.main (.serve [.failed] calls)) { w with main := m }
  | hup {w : World P T} {ind : Fin T} {calls : List (Option Errno)} {m : MainState P T}
      (ho : (w.ends ind).isOpen = false)
      (h : MainStep A vp pids w.main (.poll (.hup ind calls)) m) :
      WorldStep A vp pids w (.main (.poll (.hup ind calls))) { w with main := m }
  | inner {w : World P T} {a : MainAction T} {m : MainState P T} (ha : a.inner = true)
      (h : MainStep A vp pids w.main a m) :
      WorldStep A vp pids w (.main a) { w with main := m }

end PeExchange
