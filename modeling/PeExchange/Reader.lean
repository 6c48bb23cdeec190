import PeExchange.Commands

/-!
# Reading commands (pe_pipes.c:117–147, pe_exchange.c:152–185)

`process_msg` takes a command from a trader's pipe one byte at a time, and the
loop of `main` hands what it left in `msg` to `parse_msg`.

- The pipe is the list of what the calls of `read` return, one after the other.
  A signal may arrive between any two bytes; the handlers are installed without
  `SA_RESTART` (pe_exchange.c:66–74), so an interrupted `read` returns -1.
- `msg` is an array of `MAX_LINE` characters that `main` zeroes before each call
  (pe_exchange.c:141, 183). As a string it ends at its first `NUL`.
- `main` calls `process_msg` once for each `SIGUSR1`; here it does so for as
  long as there is something to read. `num_active` and printing are left out.
-/

namespace PeExchange

variable {P T : Nat}

/-- What a call of `read` for one byte returns. -/
inductive ReadResult where
  /-- 1, with the byte. -/
  | byte (c : Char)
  /-- -1 with `EINTR`. -/
  | interrupted
  /-- -1 with another error. -/
  | failed
  /-- 0: the trader closed its end. -/
  | closed
deriving DecidableEq, Repr

/-- How a call of `process_msg` ends. -/
inductive Received where
  /-- It returns `ret`, with `msg` filled and the rest not read yet. -/
  | returned (ret : Nat) (msg : List Char) (rest : List ReadResult)
  /-- It waits for the trader. -/
  | blocked
  /-- It stores past the end of `msg`. -/
  | overrun
deriving DecidableEq, Repr

/-- The loop of `process_msg` (pe_pipes.c:120–145). -/
def processMsgFrom (count : Nat) (msg : List Char) : List ReadResult → Received
  | [] => .blocked
  -- `break`: what has been read so far is returned as if complete
  | .interrupted :: rest => .returned count msg rest
  | .failed :: rest => .returned 1 msg rest
  | .closed :: rest => .returned 0 msg rest
  | .byte c :: rest =>
    let count := count + 1
    if c = ';' then
      -- the terminator is stored behind the last byte
      if count < msg.length then
        .returned count ((msg.set (count - 1) c).set count '\x00') rest
      else .overrun
    else if count - 1 < msg.length then processMsgFrom count (msg.set (count - 1) c) rest
    else .overrun

/-- `process_msg` (pe_pipes.c:117–147) on a zeroed `msg`. -/
def processMsg (reads : List ReadResult) : Received :=
  processMsgFrom 0 (List.replicate maxLine '\x00') reads

/-- A character array read as a string. -/
def cString (msg : List Char) : List Char :=
  msg.takeWhile fun c => c ≠ '\x00'

/-- What `main` has after a call of `process_msg`: the string to execute and the
value returned. -/
structure Delivery where
  text : List Char
  ret : Nat
deriving DecidableEq, Repr

/-- The delivery of a call, and those of the calls after it. -/
def Received.deliver (next : List ReadResult → List Delivery) : Received → List Delivery
  | .returned ret msg rest => ⟨cString msg, ret⟩ :: next rest
  | .blocked => []
  | .overrun => []

/-- The deliveries of at most `n` calls. -/
def deliveriesWithin : Nat → List ReadResult → List Delivery
  | 0, _ => []
  | n + 1, reads => (processMsg reads).deliver (deliveriesWithin n)

/-- Everything `process_msg` delivers: each call takes a read at least. -/
def deliveries (reads : List ReadResult) : List Delivery :=
  deliveriesWithin reads.length reads

/-- The loop of `main` for the deliveries of a trader. When `process_msg`
returns 1 or 0 everything is freed and then used all the same: the returns are
commented out (pe_exchange.c:165–182). -/
def Exchange.serve (A : Arith) (vp : ValidProducts P) (s : Exchange P T) (ind : Fin T) :
    List Delivery → Except Fault (Exchange P T)
  | [] => .ok s
  | d :: rest =>
    if d.ret = 1 ∨ d.ret = 0 then .error .freed
    else do (← s.parseMsg A vp d.text ind).serve A vp ind rest

end PeExchange
