import PeExchange.Theory.Iterations
import PeExchange.World

/-!
# The last commands of a trader

Between the run of a signal's handler and the execution of the command it is for,
the signal is in the queue or its command is being read. So long as no signal is
dropped and the queue has room, the signals of a living trader are those executed,
queued, pending and in reading (`Tally`). The loop over `SIGCHLD` starts with an
empty queue and after the last signal of a trader that has exited; the branch on
`epoll_wait` does not look.
-/

namespace PeExchange

open RingBuffer

variable {P T : Nat} {A : Arith} {vp : ValidProducts P} {pids : Fin T → Int}

/-! ## Reading from a pipe -/

section Reading

variable {isOpen : Bool} {body rest pipe msg msg' : List Char} {reads : List ReadResult}
  {count ret : Nat}

/-- The bytes of a command can be read one after the other. -/
theorem pipeReads_bytes (c rest : List Char) :
    PipeReads isOpen (c ++ rest) (c.map .byte) rest := by
  induction c with
  | nil => exact .done
  | cons c cs ih => exact .byte ih

/-- A call that finds a whole command at the front of the pipe takes just that. -/
theorem PipeReads.command (hreads : PipeReads isOpen (body ++ ';' :: rest) reads pipe)
    (hbody : ';' ∉ body) (hmsg : processMsgFrom count msg reads = .returned ret msg' []) :
    reads = (body ++ [';']).map .byte ∧ pipe = rest := by
  induction body generalizing reads count msg with
  | nil =>
    cases hreads with
    | done => cases hmsg
    | byte h =>
      rw [processMsgFrom, if_pos rfl] at hmsg
      split at hmsg
      · obtain ⟨-, -, rfl⟩ := Received.returned.inj hmsg
        cases h
        exact ⟨rfl, rfl⟩
      · cases hmsg
  | cons c body ih =>
    have hc : c ≠ ';' := fun heq => hbody (heq ▸ List.mem_cons_self)
    cases hreads with
    | done => cases hmsg
    | byte h =>
      rw [processMsgFrom, if_neg hc] at hmsg
      split at hmsg
      · obtain ⟨rfl, hpipe⟩ := ih h (fun hmem => hbody (List.mem_cons_of_mem _ hmem)) hmsg
        exact ⟨rfl, hpipe⟩
      · cases hmsg

/-- A call that finds nothing returns 0. -/
theorem PipeReads.nothing (hreads : PipeReads isOpen [] reads pipe)
    (hmsg : processMsg reads = .returned ret msg []) : ret = 0 := by
  cases hreads with
  | done => cases hmsg
  | interrupted => exact (Received.returned.inj hmsg).1.symm
  | closed => exact (Received.returned.inj hmsg).1.symm

/-- A call that returns another value has taken the first command of the pipe. -/
theorem PipeReads.first {unread : List (List Char)}
    (hreads : PipeReads isOpen unread.flatten reads pipe)
    (hunread : ∀ c ∈ unread, Framing.Terminated ';' c)
    (hmsg : processMsg reads = .returned ret msg []) (hret : ret ≠ 0) :
    ∃ c rest, unread = c :: rest ∧ reads = c.map .byte ∧ pipe = rest.flatten ∧
      cString msg = cString c := by
  cases unread with
  | nil => exact absurd (hreads.nothing hmsg) hret
  | cons c rest =>
    have hc := hunread c List.mem_cons_self
    obtain ⟨rfl, rfl⟩ : reads = c.map .byte ∧ pipe = rest.flatten := by
      obtain ⟨body, hbody, rfl⟩ := hc
      rw [List.flatten_cons, List.append_assoc, List.singleton_append] at hreads
      exact hreads.command hbody hmsg
    have hcommand := command_of_returned hc hmsg
    rw [processMsg_command hcommand] at hmsg
    obtain ⟨-, rfl, -⟩ := Received.returned.inj hmsg
    exact ⟨c, rest, rfl, rfl, rfl, cString_buffer c⟩

end Reading

/-! ## Executed commands -/

/-- The text of a command of trader `i` that is executed. -/
def Act.textOf (i : Fin T) : Act T → Option (List Char)
  | .parse ind _ msg => if ind = i then some msg else none
  | _ => none

/-- The commands of trader `i` that have been executed. -/
def executedOf (log : List (Act T)) (i : Fin T) : List (List Char) :=
  log.filterMap (Act.textOf i)

theorem textOf_of_parsing {act : Act T} (h : act.parsing = none) (i : Fin T) :
    act.textOf i = none := by
  cases act with
  | parse => cases h
  | _ => rfl

namespace MainState

variable {s s' : MainState P T}

theorem executedOf_records (h : Records (fun act => act.parsing = none) s s') (i : Fin T) :
    executedOf s'.log i = executedOf s.log i := by
  obtain ⟨acts, hlog, hacts⟩ := h
  have hnone : acts.filterMap (Act.textOf i) = [] :=
    List.filterMap_eq_nil_iff.mpr fun act hact => textOf_of_parsing (hacts act hact) i
  unfold executedOf
  rw [hlog, List.filterMap_append, hnone, List.append_nil]

/-- What `main` does between two readings, apart from signals: nobody comes back to
life, the queues and the place stay, no command is executed. -/
structure Rests (s s' : MainState P T) : Prop where
  signals : s'.signals = s.signals
  loc : s'.loc = s.loc
  log : Records (fun act => act.parsing = none) s s'
  alive : ∀ i, (s'.exchange.traders i).alive = true → (s.exchange.traders i).alive = true

theorem rests_call (s : MainState P T) (calls : List (Option Errno)) : Rests s (s.call calls) :=
  ⟨rfl, rfl, records_of_eq rfl, fun _ => id⟩

theorem Rests.trans {s s' s'' : MainState P T} (h : Rests s s') (h' : Rests s' s'') :
    Rests s s'' :=
  ⟨h'.signals.trans h.signals, h'.loc.trans h.loc, h.log.trans h'.log,
    fun i hi => h.alive i (h'.alive i hi)⟩

theorem disconnect_alive {s : MainState P T} {i j : Fin T} :
    ((s.disconnect i).exchange.traders j).alive = true ↔
      j ≠ i ∧ (s.exchange.traders j).alive = true := by
  rw [← Exchange.mem_living, ← Exchange.mem_living]
  show j ∈ (s.exchange.traderDied i).living ↔ _
  rw [Exchange.living_traderDied]
  exact List.Nodup.mem_erase_iff ((List.nodup_finRange T).filter _)

theorem rests_disconnect (s : MainState P T) (i : Fin T) : Rests s (s.disconnect i) :=
  ⟨rfl, rfl, records_one rfl rfl, fun _ hj => (disconnect_alive.mp hj).2⟩

/-- The program goes on after a test of `num_active` or `errno`. -/
theorem checkActive_running {s : MainState P T} {loc : MainLoc T}
    (h : (s.checkActive loc).Running) : s.checkActive loc = s.goto loc := by
  unfold checkActive at h ⊢
  split at h
  · exact h.elim
  · rename_i hne
    exact if_neg hne

theorem checkErrno_running {s : MainState P T} (h : s.checkErrno.Running) :
    s.checkErrno = { s.goto .top with eintrEpoll := true } := by
  unfold checkErrno at h ⊢
  split at h
  · rename_i heq
    exact if_pos heq
  · exact h.elim

/-- The traders that are disconnected for an entry of the `SIGCHLD` queue have its
process. -/
theorem rests_reapFrom (pid : Int) (is : List (Fin T)) :
    ∀ s : MainState P T, Rests s (reapFrom pids pid s is) ∧
      ∀ i, (s.exchange.traders i).alive = true →
        ((reapFrom pids pid s is).exchange.traders i).alive = false → pid = pids i := by
  induction is with
  | nil =>
    exact fun s => ⟨⟨rfl, rfl, records_of_eq rfl, fun _ => id⟩, fun i h h' =>
      absurd (h.symm.trans h') nofun⟩
  | cons j is ih =>
    intro s
    unfold reapFrom
    split
    · rename_i hj
      obtain ⟨hrests, hpid⟩ := ih (s.disconnect j)
      refine ⟨(rests_disconnect s j).trans hrests, fun i hi hdead => ?_⟩
      by_cases hij : i = j
      · rw [hij]
        exact hj.1
      · exact hpid i (disconnect_alive.mpr ⟨hij, hi⟩) hdead
    · exact ih s

end MainState

/-! ## The tally -/

namespace World

variable {w w' : World P T} {a : WorldAction T} {i : Fin T}

/-- The commands trader `i` has written and signalled before it closed its pipe have
been executed, as the strings they are, and in order. -/
def Passed (w : World P T) (i : Fin T) : Prop :=
  ((w.ends i).written.take (w.ends i).announced).map cString <+: executedOf w.main.log i

/-- Where the commands and the signals of trader `i` are, `q` being the queue. -/
structure Tally (pids : Fin T → Int) (w : World P T) (q : List Int) (i : Fin T) : Prop where
  commands : ∃ finished unread, (w.ends i).written = finished ++ unread ∧
    executedOf w.main.log i = finished.map cString ∧ (w.ends i).pipe = unread.flatten
  signals : (w.ends i).sent = (executedOf w.main.log i).length + q.count (pids i) +
    (if w.sigusr = some (pids i) then 1 else 0) + if w.main.loc = .reading i then 1 else 0

/-- What a trader keeps to, and what the kernel and the `SIGCHLD` queue have of it. -/
structure Fair (pid : Int) (slots : List Int) (sigusr sigchld : Option Int) (e : TraderEnd) :
    Prop where
  terminated : ∀ c ∈ e.written, Framing.Terminated ';' c
  announced_le : e.announced ≤ e.sent
  announced_written : e.announced ≤ e.written.length
  /-- A trader whose exit is in the queue sends no more and has nothing pending. -/
  gone : pid ∈ slots → e.running = false ∧ sigusr ≠ some pid
  exited : sigchld = some pid → e.running = false

/-- What holds between two steps. -/
structure Settled (pids : Fin T → Int) (w : World P T) : Prop where
  queue : ∃ q, w.main.signals.sigusr.Holds queueWrap q ∧
    ∀ i, (w.main.exchange.traders i).alive = true → w.Tally pids q i
  fair : ∀ i, Fair (pids i) w.main.signals.sigchld.slots w.sigusr w.sigchld (w.ends i)

/-- When no signal of a trader is under way, its commands have been executed. -/
theorem Tally.passed {q : List Int} (h : w.Tally pids q i)
    (hle : (w.ends i).announced ≤ (w.ends i).sent) (hq : pids i ∉ q)
    (husr : w.sigusr ≠ some (pids i)) (hloc : w.main.loc ≠ .reading i) : w.Passed i := by
  obtain ⟨finished, unread, hwritten, hexecuted, -⟩ := h.commands
  have hsent := h.signals
  rw [List.count_eq_zero.mpr hq, if_neg husr, if_neg hloc, hexecuted, List.length_map] at hsent
  unfold Passed
  rw [hwritten, hexecuted, List.take_append_of_le_length (by omega), List.map_take]
  exact List.take_prefix _ _

/-- As many signals of a trader are under way as before, and its commands are where
they were. -/
theorem Tally.congr {q q' : List Int} (h : w.Tally pids q i) (hends : w'.ends i = w.ends i)
    (hexecuted : executedOf w'.main.log i = executedOf w.main.log i)
    (hsignals : q'.count (pids i) + (if w'.sigusr = some (pids i) then 1 else 0) +
      (if w'.main.loc = .reading i then 1 else 0) = q.count (pids i) +
      (if w.sigusr = some (pids i) then 1 else 0) +
      if w.main.loc = .reading i then 1 else 0) : w'.Tally pids q' i := by
  refine ⟨?_, ?_⟩ <;> rw [hends, hexecuted]
  · exact h.commands
  · rw [h.signals]
    omega

/-! ## Steps of the traders -/

@[simp] theorem setEnd_main (e : TraderEnd) : (w.setEnd i e).main = w.main := rfl

@[simp] theorem setEnd_sigusr (e : TraderEnd) : (w.setEnd i e).sigusr = w.sigusr := rfl

@[simp] theorem setEnd_sigchld (e : TraderEnd) : (w.setEnd i e).sigchld = w.sigchld := rfl

@[simp] theorem setEnd_self (e : TraderEnd) : (w.setEnd i e).ends i = e :=
  Function.update_self ..

theorem setEnd_other {j : Fin T} (h : j ≠ i) (e : TraderEnd) :
    (w.setEnd i e).ends j = w.ends j :=
  Function.update_of_ne h ..

/-- What holds of an end that was changed and of the others holds of all. -/
theorem forall_setEnd {e : TraderEnd} {p : Fin T → TraderEnd → Prop} (hi : p i e)
    (h : ∀ j, p j (w.ends j)) (j : Fin T) : p j ((w.setEnd i e).ends j) := by
  by_cases hj : j = i
  · subst hj
    rw [setEnd_self]
    exact hi
  · rw [setEnd_other hj]
    exact h j

theorem Tally.other {q : List Int} {j : Fin T} (h : w.Tally pids q j) (hj : j ≠ i)
    (e : TraderEnd) : (w.setEnd i e).Tally pids q j :=
  h.congr (setEnd_other hj e) rfl rfl

/-- One end changes. -/
theorem Settled.setEnd (h : w.Settled pids) {e : TraderEnd}
    (hfair : Fair (pids i) w.main.signals.sigchld.slots w.sigusr w.sigchld e)
    (htally : ∀ q, w.Tally pids q i → (w.setEnd i e).Tally pids q i) :
    (w.setEnd i e).Settled pids := by
  obtain ⟨q, hholds, hall⟩ := h.queue
  refine ⟨⟨q, hholds, ?_⟩, forall_setEnd
    (p := fun j => Fair (pids j) w.main.signals.sigchld.slots w.sigusr w.sigchld) hfair h.fair⟩
  intro j hj
  by_cases hji : j = i
  · subst hji
    exact htally q (hall j hj)
  · exact (hall j hj).other hji e

/-- A trader writes a command. -/
theorem Settled.write (h : w.Settled pids) {c : List Char} (hc : Framing.Terminated ';' c) :
    (w.setEnd i ((w.ends i).write c)).Settled pids := by
  have hfair := h.fair i
  refine h.setEnd ⟨?_, hfair.announced_le, ?_, hfair.gone, hfair.exited⟩ fun q ht => ?_
  · exact List.forall_mem_append.mpr ⟨hfair.terminated, List.forall_mem_singleton.mpr hc⟩
  · show (w.ends i).announced ≤ ((w.ends i).written ++ [c]).length
    rw [List.length_append]
    exact Nat.le_add_right_of_le hfair.announced_written
  · obtain ⟨finished, unread, hwritten, hexecuted, hpipe⟩ := ht.commands
    refine ⟨⟨finished, unread ++ [c], ?_, hexecuted, ?_⟩, ?_⟩ <;> rw [setEnd_self]
    · show (w.ends i).written ++ [c] = _
      rw [hwritten, List.append_assoc]
    · show (w.ends i).pipe ++ c = _
      rw [hpipe, List.flatten_append, List.flatten_singleton]
    · exact ht.signals

/-- A trader closes its pipe. -/
theorem Settled.close (h : w.Settled pids) :
    (w.setEnd i (w.ends i).close).Settled pids := by
  have hfair := h.fair i
  refine h.setEnd ⟨hfair.terminated, hfair.announced_le, hfair.announced_written, hfair.gone,
    hfair.exited⟩ fun q ht => ⟨?_, ?_⟩ <;> rw [setEnd_self]
  · exact ht.commands
  · exact ht.signals

theorem signal_announced {e : TraderEnd} (h : e.announced ≤ e.sent)
    (hw : e.announced ≤ e.written.length) :
    e.signal.announced ≤ e.signal.sent ∧ e.signal.announced ≤ e.signal.written.length := by
  unfold TraderEnd.signal
  simp only
  split <;> omega

/-- A trader sends a signal that is not dropped. -/
theorem Settled.signal (h : w.Settled pids) (hpids : Function.Injective pids)
    (hr : (w.ends i).running = true) (hnone : w.sigusr = none) :
    ({ w.setEnd i (w.ends i).signal with sigusr := raise (pids i) w.sigusr }).Settled pids := by
  obtain ⟨q, hholds, hall⟩ := h.queue
  have hraise : raise (pids i) w.sigusr = some (pids i) := by rw [hnone]; rfl
  rw [hraise]
  -- the trader is running, so its exit is not in the queue
  have hslots : ∀ j, pids j ∈ w.main.signals.sigchld.slots → some (pids i) ≠ some (pids j) := by
    intro j hj heq
    obtain rfl := hpids (Option.some.inj heq)
    rw [((h.fair i).gone hj).1] at hr
    cases hr
  refine ⟨⟨q, hholds, ?_⟩, ?_⟩
  · intro j hj
    have ht := (hall j hj).signals
    rw [hnone, if_neg nofun] at ht
    by_cases hji : j = i
    · subst hji
      refine ⟨?_, ?_⟩ <;> rw [setEnd_self]
      · exact (hall j hj).commands
      · show (w.ends j).sent + 1 = _
        rw [if_pos rfl, ht, setEnd_main]
        omega
    · have hne : some (pids i) ≠ some (pids j) :=
        fun heq => hji (hpids (Option.some.inj heq)).symm
      have hnot : (none : Option Int) ≠ some (pids j) := nofun
      refine (hall j hj).congr (setEnd_other hji _) rfl ?_
      rw [hnone, if_neg hne, if_neg hnot, setEnd_main]
  · intro j
    by_cases hji : j = i
    · subst hji
      have hfair := h.fair j
      obtain ⟨hsent, hwritten⟩ := signal_announced hfair.announced_le hfair.announced_written
      rw [setEnd_self]
      exact ⟨hfair.terminated, hsent, hwritten,
        fun hmem => ⟨(hfair.gone hmem).1, hslots j hmem⟩, hfair.exited⟩
    · have hfair := h.fair j
      rw [setEnd_other hji]
      exact ⟨hfair.terminated, hfair.announced_le, hfair.announced_written,
        fun hmem => ⟨(hfair.gone hmem).1, hslots j hmem⟩, hfair.exited⟩

/-- A trader exits. -/
theorem Settled.exit (h : w.Settled pids) (hpids : Function.Injective pids) :
    ({ w.setEnd i (w.ends i).exit with
      sigchld := raise (pids i) w.sigchld }).Settled pids := by
  have hfair := h.fair i
  have hset : (w.setEnd i (w.ends i).exit).Settled pids := by
    refine h.setEnd ⟨hfair.terminated, hfair.announced_le, hfair.announced_written,
      fun hmem => ⟨rfl, (hfair.gone hmem).2⟩, fun _ => rfl⟩ fun q ht => ⟨?_, ?_⟩ <;>
        rw [setEnd_self]
    · exact ht.commands
    · exact ht.signals
  obtain ⟨q, hholds, hall⟩ := hset.queue
  refine ⟨⟨q, hholds, fun j hj => ⟨(hall j hj).commands, (hall j hj).signals⟩⟩, ?_⟩
  intro j
  have hj := hset.fair j
  refine ⟨hj.terminated, hj.announced_le, hj.announced_written, hj.gone, ?_⟩
  intro hexit
  by_cases hji : j = i
  · subst hji
    rw [setEnd_self]
    rfl
  · refine hj.exited ?_
    have hraised : w.sigchld.or (some (pids i)) = some (pids j) := hexit
    rcases Option.or_eq_some_iff.mp hraised with h₁ | ⟨-, h₂⟩
    · exact h₁
    · exact absurd (hpids (Option.some.inj h₂)).symm hji

/-- A process that is no trader sends a signal. -/
theorem Settled.strayUsr (h : w.Settled pids) {pid : Int} (hpid : ∀ j, pid ≠ pids j) :
    ({ w with sigusr := raise pid w.sigusr }).Settled pids := by
  cases hpending : w.sigusr with
  | some old =>
    -- it is dropped
    have hraise : raise pid (some old) = w.sigusr := hpending.symm
    rw [hraise]
    exact h
  | none =>
    obtain ⟨q, hholds, hall⟩ := h.queue
    have hraise : raise pid none = some pid := rfl
    have hother : ∀ j, some pid ≠ some (pids j) := fun j heq => hpid j (Option.some.inj heq)
    rw [hraise]
    refine ⟨⟨q, hholds, fun j hj => (hall j hj).congr rfl rfl ?_⟩, fun j => ?_⟩
    · rw [hpending, if_neg (hother j), if_neg (nofun : (none : Option Int) ≠ some (pids j))]
    · have hfair := h.fair j
      exact ⟨hfair.terminated, hfair.announced_le, hfair.announced_written,
        fun hmem => ⟨(hfair.gone hmem).1, hother j⟩, hfair.exited⟩

/-- A process that is no trader sends the signal of its exit. -/
theorem Settled.strayChld (h : w.Settled pids) {pid : Int} (hpid : ∀ j, pid ≠ pids j) :
    ({ w with sigchld := raise pid w.sigchld }).Settled pids := by
  obtain ⟨q, hholds, hall⟩ := h.queue
  refine ⟨⟨q, hholds, fun j hj => ⟨(hall j hj).commands, (hall j hj).signals⟩⟩, fun j => ?_⟩
  have hfair := h.fair j
  refine ⟨hfair.terminated, hfair.announced_le, hfair.announced_written, hfair.gone, fun he => ?_⟩
  have hraised : w.sigchld.or (some pid) = some (pids j) := he
  rcases Option.or_eq_some_iff.mp hraised with h₁ | ⟨-, h₂⟩
  · exact hfair.exited h₁
  · exact absurd (Option.some.inj h₂) (hpid j)

/-! ## Steps of the exchange -/

section Main

variable {m : MainState P T}

/-- A step of the exchange that leaves the `SIGUSR1` queue alone. -/
theorem Settled.idle (h : w.Settled pids) {chld : Option Int} {signals : Signals}
    (hsignals : m.signals = signals) (hring : signals.sigusr = w.main.signals.sigusr)
    (hslots : ∀ i, pids i ∈ signals.sigchld.slots →
      (w.ends i).running = false ∧ w.sigusr ≠ some (pids i))
    (hlog : MainState.Records (fun act => act.parsing = none) w.main m)
    (halive : ∀ i, (m.exchange.traders i).alive = true →
      (w.main.exchange.traders i).alive = true)
    (hloc : ∀ i, m.loc = .reading i ↔ w.main.loc = .reading i)
    (hchld : ∀ pid, chld = some pid → w.sigchld = some pid) :
    ({ w with main := m, sigchld := chld }).Settled pids := by
  obtain ⟨q, hholds, hall⟩ := h.queue
  subst hsignals
  refine ⟨⟨q, hring ▸ hholds, ?_⟩, ?_⟩
  · intro i hi
    refine (hall i (halive i hi)).congr rfl (MainState.executedOf_records hlog i) ?_
    rw [if_congr (hloc i) rfl rfl]
  · intro i
    have hi := h.fair i
    exact ⟨hi.terminated, hi.announced_le, hi.announced_written, hslots i,
      fun he => hi.exited (hchld _ he)⟩

/-- The handler of `SIGUSR1` moves the pending signal to the queue. -/
theorem Settled.sigusrHandler (h : w.Settled pids) {pid : Int} (hp : w.sigusr = some pid)
    (hroom : w.main.signals.sigusr.len < queueWrap)
    (hring : m.signals = w.main.signals.sigusrHandler pid)
    (hexchange : m.exchange = w.main.exchange) (hlog : m.log = w.main.log)
    (hloc : ∀ i, m.loc = .reading i ↔ w.main.loc = .reading i) :
    ({ w with main := m, sigusr := none }).Settled pids := by
  obtain ⟨q, hholds, hall⟩ := h.queue
  have hlt : q.length < queueWrap := by
    rw [hholds.len_eq] at hroom
    exact Int.ofNat_lt.mp hroom
  refine ⟨⟨q ++ [pid], ?_, ?_⟩, ?_⟩
  · show m.signals.sigusr.Holds queueWrap (q ++ [pid])
    rw [hring]
    exact hholds.push hlt pid
  · intro i hi
    refine (hall i (hexchange ▸ hi)).congr rfl (by rw [hlog]) ?_
    rw [if_congr (hloc i) rfl rfl, if_neg nofun, List.count_append, hp]
    by_cases hpid : pid = pids i
    · rw [hpid, List.count_singleton_self, if_pos rfl]
    · have hcount : [pid].count (pids i) = 0 :=
        List.count_eq_zero.mpr fun hmem => hpid (List.mem_singleton.mp hmem).symm
      rw [hcount, if_neg fun heq => hpid (Option.some.inj heq)]
  · intro i
    have hi := h.fair i
    refine ⟨hi.terminated, hi.announced_le, hi.announced_written, ?_, hi.exited⟩
    intro hmem
    rw [hring] at hmem
    exact ⟨(hi.gone hmem).1, nofun⟩

/-- Taking the front of the queue. -/
theorem Settled.take (h : w.Settled pids) (hpids : Function.Injective pids) {pid : Int}
    {ind : Fin T} (hloc : w.main.loc = .sigusr) (hlen : 0 < w.main.signals.sigusr.len)
    (hpid : w.main.signals.sigusr.peek = some pid)
    (hind : MainState.findTrader pids pid = some ind) :
    ({ w with main := { (w.main.record [.read ind]).goto (.reading ind) with
      signals := w.main.signals.popSigusr } }).Settled pids := by
  obtain ⟨q, hholds, hall⟩ := h.queue
  obtain ⟨rest, rfl⟩ : ∃ rest, q = pid :: rest := by
    cases q with
    | nil => simp [hholds.len_eq] at hlen
    | cons front rest =>
      obtain rfl := Option.some.inj (hholds.peek.symm.trans hpid)
      exact ⟨rest, rfl⟩
  have hfound : pid = pids ind := by
    have := List.find?_some hind
    simpa using this
  have hnot : ∀ i, w.main.loc ≠ .reading i := by
    intro i
    rw [hloc]
    nofun
  refine ⟨⟨rest, hholds.pop 0, ?_⟩, h.fair⟩
  intro i hi
  have hlog : executedOf (w.main.log ++ [Act.read ind]) i = executedOf w.main.log i := by
    unfold executedOf
    rw [List.filterMap_append]
    exact List.append_nil _
  refine (hall i hi).congr rfl hlog ?_
  show _ + _ + (if MainLoc.reading ind = .reading i then 1 else 0) = _
  rw [if_neg (hnot i), List.count_cons, hfound]
  by_cases hi : ind = i
  · subst hi
    simp only [beq_self_eq_true, if_true]
    omega
  · have hne : pids ind ≠ pids i := fun heq => hi (hpids heq)
    simp [hne, hi]

/-- What is recorded for a command of trader `ind`. -/
theorem executedOf_command {ind : Fin T} (log : List (Act T)) (offset : Int)
    (reads : List ReadResult) (c : List Char) (ms : List (Fin T × Msg)) (i : Fin T) :
    executedOf (log ++ .strip offset :: .parse ind reads c :: ms.map fun m => .message m.1 m.2) i =
      executedOf log i ++ if ind = i then [c] else [] := by
  have hms : (ms.map fun m => Act.message m.1 m.2).filterMap (Act.textOf i) = [] :=
    List.filterMap_eq_nil_iff.mpr (List.forall_mem_map.mpr fun _ _ => rfl)
  unfold executedOf
  rw [List.filterMap_append]
  congr 1
  show ((Act.parse ind reads c :: ms.map fun m => Act.message m.1 m.2).filterMap (Act.textOf i)) = _
  by_cases hi : ind = i
  · have hone : (Act.parse ind reads c).textOf i = some c := if_pos hi
    rw [List.filterMap_cons_some hone, hms, if_pos hi]
  · have hnone : (Act.parse ind reads c).textOf i = none := if_neg hi
    rw [List.filterMap_cons_none hnone, hms, if_neg hi]

/-- The call of `process_msg` takes the first command from the pipe. -/
theorem Settled.serve (h : w.Settled pids) {ind : Fin T} {reads : List ReadResult}
    {pipe : List Char} {calls : List (Option Errno)} (hloc : w.main.loc = .reading ind)
    (halive : (w.main.exchange.traders ind).alive = true)
    (hreads : PipeReads (w.ends ind).isOpen (w.ends ind).pipe reads pipe)
    (hstep : MainStep A vp pids w.main (.serve reads calls) m) (hrun : m.Running) :
    ({ w.setEnd ind ((w.ends ind).take pipe) with main := m }).Settled pids := by
  obtain ⟨q, hholds, hall⟩ := h.queue
  have hfair := h.fair ind
  cases hstep with
  | overrun => exact hrun.elim
  | sigpipe => exact hrun.elim
  | @serve ind' _ ret msg _ hloc' hmsg =>
    obtain rfl : ind = ind' := MainLoc.reading.inj (hloc.symm.trans hloc')
    obtain ⟨hret, exchange, hok, hexecute⟩ := MainState.execute_running (s := w.main) hrun
    obtain ⟨finished, unread, hwritten, hexecuted, hpipe⟩ := (hall ind halive).commands
    have hterminated : ∀ c ∈ unread, Framing.Terminated ';' c :=
      fun c hc => hfair.terminated c (hwritten ▸ List.mem_append_right _ hc)
    obtain ⟨c, rest, rfl, rfl, rfl, htext⟩ :=
      (hpipe ▸ hreads).first hterminated hmsg fun hzero => hret (.inr hzero)
    have hlog := @executedOf_command T ind w.main.log ((cString msg).length - 1)
      (c.map .byte) (cString msg) (messages (exchange.out.drop w.main.exchange.out.length))
    rw [hexecute, MainState.sent_eq]
    refine ⟨⟨q, hholds, ?_⟩, ?_⟩
    · intro j hj
      have hj' : (w.main.exchange.traders j).alive = true :=
        (Exchange.parseMsg_alive hok j).symm.trans hj
      by_cases hji : j = ind
      · subst hji
        refine ⟨⟨finished ++ [c], rest, ?_, ?_, ?_⟩, ?_⟩
        · rw [setEnd_self]
          exact hwritten.trans (List.append_assoc _ [c] rest).symm
        · refine (hlog j).trans ?_
          rw [if_pos rfl, hexecuted, htext, List.map_append, List.map_singleton]
        · rw [setEnd_self]
          rfl
        · show ((w.setEnd j _).ends j).sent = (executedOf (w.main.log ++ _ :: _ :: _) j).length +
            q.count (pids j) + (if w.sigusr = some (pids j) then 1 else 0) + 0
          rw [hlog, setEnd_self, if_pos rfl, List.length_append, List.length_singleton]
          show (w.ends j).sent = _
          rw [(hall j hj').signals, if_pos hloc]
          omega
      · have hne : w.main.loc ≠ .reading j := by
          rw [hloc]
          exact fun heq => hji (MainLoc.reading.inj heq).symm
        refine (hall j hj').congr (setEnd_other hji _) ((hlog j).trans ?_) ?_
        · rw [if_neg (Ne.symm hji), List.append_nil]
        · rw [if_neg hne]
          rfl
    · exact forall_setEnd
        (p := fun j => Fair (pids j) w.main.signals.sigchld.slots w.sigusr w.sigchld)
        ⟨hfair.terminated, hfair.announced_le, hfair.announced_written, hfair.gone,
          hfair.exited⟩ h.fair

/-- A step that leaves the signals alone and reads from nobody. -/
theorem Settled.rests (h : w.Settled pids) (hsignals : m.signals = w.main.signals)
    (hlog : MainState.Records (fun act => act.parsing = none) w.main m)
    (halive : ∀ i, (m.exchange.traders i).alive = true →
      (w.main.exchange.traders i).alive = true)
    (hloc : ∀ i, w.main.loc ≠ .reading i) (hloc' : ∀ i, m.loc ≠ .reading i) :
    ({ w with main := m }).Settled pids :=
  h.idle hsignals rfl (fun i => (h.fair i).gone) hlog halive
    (fun i => iff_of_false (hloc' i) (hloc i)) fun _ => id

/-- The loop goes from one place to the next. -/
theorem Settled.onward (h : w.Settled pids) (hsignals : m.signals = w.main.signals)
    (hlog : m.log = w.main.log) (hexchange : m.exchange = w.main.exchange)
    (hloc : ∀ i, w.main.loc ≠ .reading i) (hloc' : ∀ i, m.loc ≠ .reading i) :
    ({ w with main := m }).Settled pids :=
  h.rests hsignals (MainState.records_of_eq hlog) (fun i hi => by rwa [hexchange] at hi) hloc hloc'

end Main

/-- What the step must find. A trader signals when no `SIGUSR1` is pending, of whatever
process. When one is put into its queue there is room for it, and when the exit of a
trader is, no signal of that trader is pending. When `epoll_wait` reports a living trader,
no signal of it is pending or in the queue. -/
def Safe (pids : Fin T → Int) (w : World P T) : WorldAction T → Prop
  | .signal _ => w.sigusr = none
  | .main (.sigusr _) => w.main.signals.sigusr.len < queueWrap
  | .main (.sigchld pid _) => (∃ i, pid = pids i) → w.sigusr ≠ some pid
  | .main (.poll (.hup ind _)) => (w.main.exchange.traders ind).alive = true →
      w.sigusr ≠ some (pids ind) ∧ ¬w.main.signals.sigusr.Has queueWrap (pids ind)
  | _ => True

end World

open World

variable {w w' : World P T} {a : WorldAction T}

/-- A handler leaves `main` in `process_msg`. -/
theorem handled_reading {s : MainState P T} (i : Fin T) :
    s.handled.loc = .reading i ↔ s.loc = .reading i := by
  unfold MainState.handled
  split
  · rename_i h
    rw [h]
    exact iff_of_false nofun nofun
  · exact Iff.rfl

theorem handled_fields (s : MainState P T) : s.handled.signals = s.signals ∧
    s.handled.exchange = s.exchange ∧ s.handled.log = s.log := by
  unfold MainState.handled
  split <;> exact ⟨rfl, rfl, rfl⟩

/-- The steps of the exchange that concern neither signals nor pipes. -/
theorem World.Settled.inner (hs : w.Settled pids) (hinj : Function.Injective pids)
    (hzero : ∀ i, pids i ≠ 0) {a : MainAction T} {m : MainState P T} (ha : a.inner = true)
    (h : MainStep A vp pids w.main a m) (hrun : m.Running) :
    ({ w with main := m }).Settled pids := by
  have hat : ∀ {loc}, w.main.loc = loc → (∀ i, loc ≠ .reading i) →
      ∀ i, w.main.loc ≠ .reading i := by
    rintro loc rfl h
    exact h
  cases h with
  | sigusrHandler => cases ha
  | sigchldHandler => cases ha
  | serve => cases ha
  | overrun => cases ha
  | hup => cases ha
  | hupDead => cases ha
  | sigpipe => cases ha
  | takeUnknown => exact hrun.elim
  | take hloc hlen hpid hind => exact hs.take hinj hloc hlen hpid hind
  | pause hloc => exact hs.onward rfl rfl rfl (hat hloc nofun) nofun
  | resume hloc => exact hs.onward rfl rfl rfl (hat hloc nofun) nofun
  | noSigusr hloc => exact hs.onward rfl rfl rfl (hat hloc nofun) nofun
  | noSigchld hloc => exact hs.onward rfl rfl rfl (hat hloc nofun) nofun
  | @reap pid calls hloc =>
    rw [MainState.checkActive_running hrun]
    obtain ⟨hrests, -⟩ := @MainState.rests_reapFrom _ _ pids pid (List.finRange T)
      { w.main with signals := w.main.signals.popSigchld }
    have hlog := (hrests.trans (MainState.rests_call _ calls)).log
    refine hs.idle hrests.signals rfl (fun i hmem => ?_) hlog hrests.alive
      (fun i => iff_of_false nofun (hat hloc nofun i)) fun _ => id
    have hslots : pids i ∈ w.main.signals.sigchld.slots.set w.main.signals.sigchld.front 0 := hmem
    exact (hs.fair i).gone ((List.mem_or_eq_of_mem_set hslots).resolve_right (hzero i))
  | timeout hloc =>
    rw [MainState.checkErrno_running hrun]
    exact hs.rests rfl (MainState.records_one rfl rfl) (fun _ => id) (hat hloc nofun) nofun
  | pollFailed hloc =>
    rw [MainState.checkErrno_running hrun]
    exact hs.rests rfl (MainState.records_one rfl rfl) (fun _ => id) (hat hloc nofun) nofun
  | pollInterrupted hloc =>
    rw [MainState.checkErrno_running hrun]
    exact hs.rests rfl (MainState.records_one rfl rfl) (fun _ => id) (hat hloc nofun) nofun

/-- **What a step keeps**, when it finds what it must. -/
theorem WorldStep.settled (h : WorldStep A vp pids w a w') (hinj : Function.Injective pids)
    (hzero : ∀ i, pids i ≠ 0) (hs : w.Settled pids) (hsafe : w.Safe pids a)
    (hrun : w'.main.Running) : w'.Settled pids := by
  cases h with
  | write _ hc => exact hs.write hc
  | signal hr => exact hs.signal hinj hr hsafe
  | close => exact hs.close
  | exit => exact hs.exit hinj
  | strayUsr hpid => exact hs.strayUsr hpid
  | strayChld hpid => exact hs.strayChld hpid
  | sigusr hp h =>
    cases h with
    | sigusrHandler =>
      obtain ⟨hsignals, hexchange, hlog⟩ :=
        handled_fields { w.main with signals := w.main.signals.sigusrHandler _ }
      exact hs.sigusrHandler hp hsafe hsignals hexchange hlog fun i => handled_reading i
  | @sigchld pid calls m hp h =>
    cases h with
    | sigchldHandler =>
      obtain ⟨hsignals, hexchange, hlog⟩ := handled_fields
        ({ w.main with signals := w.main.signals.sigchldHandler pid }.call calls)
      refine hs.idle hsignals rfl (fun i hmem => ?_) (MainState.records_of_eq hlog)
        (fun i hi => by rwa [hexchange] at hi) (fun i => handled_reading i) nofun
      have hslots : pids i ∈ w.main.signals.sigchld.slots.set w.main.signals.sigchld.back pid :=
        hmem
      rcases List.mem_or_eq_of_mem_set hslots with hold | hnew
      · exact (hs.fair i).gone hold
      · rw [hnew]
        exact ⟨(hs.fair i).exited (hnew ▸ hp), hsafe ⟨i, hnew.symm⟩⟩
  | serve hloc halive hreads h => exact hs.serve hloc halive hreads h hrun
  | serveDead hloc hdead h =>
    cases h with
    | serve _ hmsg =>
      -- the pipe is closed: `process_msg` returns 1
      obtain ⟨rfl, -, -⟩ := Received.returned.inj hmsg
      exact hrun.elim
    | overrun => exact hrun.elim
    | sigpipe => exact hrun.elim
  | @hup ind calls m ho h =>
    cases h with
    | hup hloc halive =>
      rw [MainState.checkActive_running hrun]
      have hrests := (MainState.rests_disconnect w.main ind).trans (MainState.rests_call _ calls)
      refine hs.rests rfl hrests.log hrests.alive ?_ nofun
      rw [hloc]
      nofun
    | hupDead hloc => exact hs.onward rfl rfl rfl (fun i => hloc ▸ nofun) nofun
  | inner ha h => exact hs.inner hinj hzero ha h hrun

/-! ## Disconnections -/

/-- **Who is disconnected**: a trader whose process stands at the front of the
`SIGCHLD` queue while the `SIGUSR1` queue is empty, or one that `epoll_wait` reports. -/
theorem MainStep.disconnects {s s' : MainState P T} {a : MainAction T} {i : Fin T}
    (h : MainStep A vp pids s a s') (hi : (s.exchange.traders i).alive = true)
    (hdead : (s'.exchange.traders i).alive = false) :
    s.loc = .sigchld ∧ s.signals.sigusr.len = 0 ∧ s.signals.sigchld.peek = some (pids i) ∨
      s.loc = .polling ∧ ∃ calls, a = .poll (.hup i calls) := by
  have hactive : ∀ {t : MainState P T} {loc}, ((t.checkActive loc).exchange.traders i).alive =
      false → (t.exchange.traders i).alive = false := by
    intro t loc ht
    unfold MainState.checkActive at ht
    split at ht <;> exact ht
  have hstill : ¬MainState.Unmoved s s' := by
    intro hunmoved
    rw [hunmoved.alive, hi] at hdead
    cases hdead
  have hunmoved := h.unmoved
  cases h with
  | reap hloc hlen hpid =>
    obtain ⟨-, hreaped⟩ := @MainState.rests_reapFrom _ _ pids _ (List.finRange T)
      { s with signals := s.signals.popSigchld }
    have hgone := hactive hdead
    have heq := hreaped i hi hgone
    exact .inl ⟨hloc, hlen.2, heq ▸ hpid⟩
  | @hup ind calls hloc =>
    refine .inr ⟨hloc, calls, ?_⟩
    by_cases hne : i = ind
    · rw [hne]
    · have halive := MainState.disconnect_alive.mpr ⟨hne, hi⟩
      have hgone := hactive hdead
      exact absurd (halive.symm.trans hgone) nofun
  | hupDead => exact absurd (.of_eq rfl rfl rfl) hstill
  | _ => exact absurd (hunmoved nofun nofun) hstill

namespace World

/-- Whom the step disconnects, its commands have been executed before. -/
def Served (w w' : World P T) : Prop :=
  ∀ i, (w.main.exchange.traders i).alive = true →
    (w'.main.exchange.traders i).alive = false → w.Passed i

theorem settled_initial (hzero : ∀ i, pids i ≠ 0) : (initial : World P T).Settled pids := by
  have hempty : (RingBuffer.empty queueLen (0 : Int)).Holds queueWrap [] :=
    .empty 0 (by decide) (by decide)
  refine ⟨⟨[], hempty, fun i _ => ⟨⟨[], [], rfl, rfl, rfl⟩, rfl⟩⟩,
    fun i => ⟨nofun, Nat.le_refl 0, Nat.le_refl 0, fun hmem => ?_, nofun⟩⟩
  exact absurd (List.eq_of_mem_replicate hmem) (hzero i)

end World

/-- A step of the world is one of the exchange or leaves the exchange as it is. -/
theorem WorldStep.main_step (h : WorldStep A vp pids w a w') :
    w'.main = w.main ∨ ∃ b, a = .main b ∧ MainStep A vp pids w.main b w'.main := by
  cases h with
  | write => exact .inl rfl
  | signal => exact .inl rfl
  | close => exact .inl rfl
  | exit => exact .inl rfl
  | strayUsr => exact .inl rfl
  | strayChld => exact .inl rfl
  | sigusr _ h => exact .inr ⟨_, rfl, h⟩
  | sigchld _ h => exact .inr ⟨_, rfl, h⟩
  | serve _ _ _ h => exact .inr ⟨_, rfl, h⟩
  | serveDead _ _ h => exact .inr ⟨_, rfl, h⟩
  | hup _ h => exact .inr ⟨_, rfl, h⟩
  | inner _ h => exact .inr ⟨_, rfl, h⟩

/-- Whom a step disconnects, it finds no signal of on its way. -/
theorem WorldStep.served (h : WorldStep A vp pids w a w') (hs : w.Settled pids)
    (hsafe : w.Safe pids a) : w.Served w' := by
  intro i hi hdead
  obtain ⟨q, hholds, hall⟩ := hs.queue
  have ht := hall i hi
  have hle := (hs.fair i).announced_le
  rcases h.main_step with hmain | ⟨b, rfl, hstep⟩
  · rw [hmain, hi] at hdead
    cases hdead
  rcases hstep.disconnects hi hdead with ⟨hloc, hlen, hpeek⟩ | ⟨hloc, calls, rfl⟩
  · -- the queue is empty, and the process of the trader is gone
    rw [hholds.len_eq] at hlen
    have hnil : q = [] := List.eq_nil_of_length_eq_zero (Int.ofNat_eq_zero.mp hlen)
    have hmem : pids i ∈ w.main.signals.sigchld.slots := List.mem_of_getElem? hpeek
    refine ht.passed hle (hnil ▸ List.not_mem_nil) ((hs.fair i).gone hmem).2 ?_
    rw [hloc]
    nofun
  · obtain ⟨husr, hq⟩ := hsafe hi
    refine ht.passed hle (mt hholds.has.mpr hq) husr ?_
    rw [hloc]
    nofun

/-- The branch on `epoll_wait` does not look: a trader whose signal is under way then
has a command that has not been executed. -/
theorem World.Settled.not_passed {i : Fin T} (hs : w.Settled pids)
    (hi : (w.main.exchange.traders i).alive = true)
    (hannounced : (w.ends i).announced = (w.ends i).sent)
    (hunder : w.sigusr = some (pids i) ∨ w.main.signals.sigusr.Has queueWrap (pids i)) :
    ¬w.Passed i := by
  intro hpassed
  obtain ⟨q, hholds, hall⟩ := hs.queue
  have hsent := (hall i hi).signals
  have hlen := hpassed.length_le
  rw [List.length_map, List.length_take_of_le (hs.fair i).announced_written, hannounced] at hlen
  rcases hunder with husr | hq
  · rw [if_pos husr] at hsent
    omega
  · have hpos := List.count_pos_iff.mpr (hholds.has.mp hq)
    omega

/-- The steps that meet the condition. -/
def SafeStep (A : Arith) (vp : ValidProducts P) (pids : Fin T → Int) (w : World P T)
    (a : WorldAction T) (w' : World P T) : Prop :=
  WorldStep A vp pids w a w' ∧ w.Safe pids a

/-- Whole runs: as long as the program goes on, the signals add up. -/
theorem settled_of_safe (hinj : Function.Injective pids) (hzero : ∀ i, pids i ≠ 0)
    (h : Transition.Reachable (SafeStep A vp pids) .initial w) :
    w.main.Running → w.Settled pids := by
  refine Transition.Reachable.invariant (I := fun w => w.main.Running → w.Settled pids)
    (fun _ => settled_initial hzero) (fun w a w' _ hs hstep hrun => ?_) h
  have hrun' : w.main.Running := by
    rcases hstep.1.main_step with hmain | ⟨b, -, hmain⟩
    · rwa [← hmain]
    · exact hmain.running
  exact hstep.1.settled hinj hzero (hs hrun') hstep.2 hrun

/-- **No signalled command is lost when a trader leaves**, in a run whose steps find
what they must. -/
theorem served_of_safe (hinj : Function.Injective pids) (hzero : ∀ i, pids i ≠ 0)
    (h : Transition.Reachable (SafeStep A vp pids) .initial w)
    (hstep : SafeStep A vp pids w a w') : w.Served w' := by
  rcases hstep.1.main_step with hmain | ⟨b, -, hmain⟩
  · intro i hi hdead
    rw [hmain, hi] at hdead
    cases hdead
  · exact hstep.1.served (settled_of_safe hinj hzero h hmain.running) hstep.2

theorem command_cancel : Command "CANCEL 0;".toList :=
  ⟨⟨"CANCEL 0".toList, by decide, by decide⟩, by decide⟩

theorem testPids_injective : Function.Injective testPids := by
  unfold Function.Injective
  decide

/-- Trader 0 writes a command, signals it and exits: it is disconnected when the
command has been executed. -/
theorem served_of_safe_exit : ∃ w w' : World 2 2, (w.main.exchange.traders 0).alive = true ∧
    (w'.main.exchange.traders 0).alive = false ∧ w.Served w' := by
  have hpaused : Transition.Reachable (SafeStep .machine testProducts testPids) World.initial _ :=
    Transition.Reachable.init.step ⟨.inner rfl (.pause rfl rfl), trivial⟩
  have hwritten := hpaused.step
    ⟨@WorldStep.write _ _ _ _ _ _ 0 "CANCEL 0;".toList rfl command_cancel.1, trivial⟩
  have hsignalled := hwritten.step ⟨@WorldStep.signal _ _ _ _ _ _ 0 rfl, rfl⟩
  have hexited := hsignalled.step ⟨@WorldStep.exit _ _ _ _ _ _ 0 rfl, trivial⟩
  have hwoken := hexited.step ⟨@WorldStep.sigusr _ _ _ _ _ _ 100 _ rfl (.sigusrHandler trivial),
    (by decide : (0 : Int) < queueWrap)⟩
  have hreported := hwoken.step ⟨@WorldStep.sigchld _ _ _ _ _ _ 100 [] _ rfl
    (.sigchldHandler trivial), fun _ => nofun⟩
  have htaken := hreported.step ⟨.inner rfl (@MainStep.take _ _ _ _ _ _ 100 0 rfl (by decide) rfl
    (by decide)), trivial⟩
  have hserved := htaken.step ⟨@WorldStep.serve _ _ _ _ _ _ 0 ("CANCEL 0;".toList.map .byte) [] []
    _ rfl rfl (pipeReads_bytes "CANCEL 0;".toList [])
    (@MainStep.serve _ _ _ _ _ _ 0 ("CANCEL 0;".toList.map .byte) 9 _ [] rfl
      (processMsg_command command_cancel) List.not_mem_nil), trivial⟩
  have hidle := hserved.step ⟨.inner rfl (.noSigusr rfl (by decide +kernel)), trivial⟩
  have hserved := served_of_safe testPids_injective (by decide) hidle
    ⟨.inner rfl (@MainStep.reap _ _ _ _ _ _ 100 [] rfl (by decide +kernel) rfl
      List.not_mem_nil), trivial⟩
  exact ⟨_, _, rfl, rfl, hserved⟩

/-- Between the test of the queue and `epoll_wait` trader 0 writes a command, signals
it and closes its pipe. -/
theorem not_always_served : ¬∀ (w w' : World 2 2) (a : WorldAction 2),
    Transition.Reachable (WorldStep .machine testProducts testPids) .initial w →
      WorldStep .machine testProducts testPids w a w' → w.Served w' := by
  intro hclaim
  have hexited : Transition.Reachable (WorldStep .machine testProducts testPids)
      World.initial _ := Transition.Reachable.init.step (@WorldStep.exit _ _ _ _ _ _ 1 rfl)
  have hpaused := hexited.step (.inner rfl (.pause rfl rfl))
  have hwoken := hpaused.step
    (@WorldStep.sigchld _ _ _ _ _ _ 101 [] _ rfl (.sigchldHandler trivial))
  have hidle := hwoken.step (.inner rfl (.noSigusr rfl (by decide)))
  have hreaped := hidle.step (.inner rfl (@MainStep.reap _ _ _ _ _ _ 101 [] rfl (by decide) rfl
    List.not_mem_nil))
  have hpolling := hreaped.step (.inner rfl (.noSigchld rfl (by decide)))
  have hwritten := hpolling.step
    (@WorldStep.write _ _ _ _ _ _ 0 "CANCEL 0;".toList rfl command_cancel.1)
  have hsignalled := hwritten.step (@WorldStep.signal _ _ _ _ _ _ 0 rfl)
  have hclosed := hsignalled.step (@WorldStep.close _ _ _ _ _ _ 0 rfl)
  have hqueued := hclosed.step
    (@WorldStep.sigusr _ _ _ _ _ _ 100 _ rfl (.sigusrHandler trivial))
  have hpassed := hclaim _ _ _ hqueued (@WorldStep.hup _ _ _ _ _ _ 0 [] _ rfl
    (.hup rfl rfl List.not_mem_nil)) 0 rfl rfl
  have hlost : ["CANCEL 0;".toList] <+: [] := hpassed
  exact absurd hlost (by decide)

end PeExchange
