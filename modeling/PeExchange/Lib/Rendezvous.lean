/-!
# Opening named pipes

`open` waits at a named pipe until the other end is opened too. Two processes that
open the same pipes in the same order meet at each of them.

- `Fifo`: a pipe whose ends are away, waiting in `open`, or through it. `openRead`
  and `openWrite` are the arrivals; the second one lets both through.
- `pipeAt`: the pipe a reader and a writer are to open as their `j`-th, after so many
  arrivals of each. `openRead_pipeAt`, `openWrite_pipeAt`: an arrival is one arrival
  more.
-/

namespace Rendezvous

/-- One end of a pipe, as far as its process has come. -/
inductive EndState where
  | away
  | waiting
  | through
deriving DecidableEq, Repr

@[ext] structure Fifo where
  reader : EndState
  writer : EndState
deriving DecidableEq, Repr

namespace Fifo

/-- `mkfifo`. -/
def made : Fifo :=
  ⟨.away, .away⟩

/-- Both ends when a process comes to one of them: its own and the other. -/
def meet : EndState → EndState × EndState
  | .away => (.waiting, .away)
  | _ => (.through, .through)

/-- A process comes to `open` for reading. -/
def openRead (f : Fifo) : Fifo :=
  ⟨(meet f.writer).1, (meet f.writer).2⟩

/-- A process comes to `open` for writing. -/
def openWrite (f : Fifo) : Fifo :=
  ⟨(meet f.reader).2, (meet f.reader).1⟩

/-- The reader is gone. -/
def closeRead (f : Fifo) : Fifo :=
  { f with reader := .away }

/-- The writer is gone. -/
def closeWrite (f : Fifo) : Fifo :=
  { f with writer := .away }

end Fifo

open Fifo

/-! ## Pipes by arrivals -/

/-- The end of a process that has come to `own` pipes, at the `j`-th of them. -/
def endAt (own other j : Nat) : EndState :=
  if own < j then .away else if other < j then .waiting else .through

/-- The `j`-th pipe. -/
def pipeAt (reads writes j : Nat) : Fifo :=
  ⟨endAt reads writes j, endAt writes reads j⟩

variable {r w j : Nat}

theorem pipeAt_zero (h : 0 < j) : pipeAt 0 0 j = made := by
  rw [pipeAt, endAt, if_pos h]
  rfl

theorem meet_endAt (h : r + 1 = j) :
    meet (endAt w r j) = (endAt (r + 1) w j, endAt w (r + 1) j) := by
  subst h
  unfold endAt
  by_cases hw : w < r + 1
  · simp [hw, meet]
  · simp [hw, meet]

/-- **One more arrival of the reader**, which comes to this pipe. -/
theorem openRead_pipeAt (h : r + 1 = j) : (pipeAt r w j).openRead = pipeAt (r + 1) w j := by
  rw [openRead, pipeAt, meet_endAt h]
  rfl

/-- The same for the writer. -/
theorem openWrite_pipeAt (h : w + 1 = j) : (pipeAt r w j).openWrite = pipeAt r (w + 1) j := by
  rw [openWrite, pipeAt, meet_endAt h]
  rfl

/-- An arrival at another pipe. -/
theorem endAt_of_ne (h : r + 1 ≠ j) :
    endAt (r + 1) w j = endAt r w j ∧ endAt w (r + 1) j = endAt w r j := by
  have hlt : r + 1 < j ↔ r < j := by omega
  unfold endAt
  simp only [hlt, and_self]

theorem pipeAt_read_of_ne (h : r + 1 ≠ j) : pipeAt (r + 1) w j = pipeAt r w j := by
  rw [pipeAt, (endAt_of_ne h).1, (endAt_of_ne h).2, pipeAt]

theorem pipeAt_write_of_ne (h : w + 1 ≠ j) : pipeAt r (w + 1) j = pipeAt r w j := by
  rw [pipeAt, (endAt_of_ne h).1, (endAt_of_ne h).2, pipeAt]

/-- A process is through when both have come. -/
theorem endAt_through : endAt r w j = .through ↔ j ≤ r ∧ j ≤ w := by
  unfold endAt
  by_cases hr : r < j
  · simp [hr, Nat.not_le.mpr hr]
  · by_cases hw : w < j
    · simp [hr, hw, Nat.not_le.mpr hw]
    · simp [hr, hw, Nat.not_lt.mp hr, Nat.not_lt.mp hw]

/-- A process that has not come to the pipe is away. -/
theorem endAt_away : endAt r w j = .away ↔ r < j := by
  unfold endAt
  by_cases hr : r < j
  · simp [hr]
  · by_cases hw : w < j <;> simp [hr, hw]

end Rendezvous
