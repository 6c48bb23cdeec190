import Mathlib.Data.List.Infix
import PeExchange.Signals

/-!
# What the signal queues lose

A signal is pending from the run of its handler until it is popped. As long as
at most `queueWrap` signals are pending in a queue, its buffer holds just these,
and every identifier is read once and in the order of the handlers
(`queues_lossless`). The array has room for `queueLen` of them, but the one
after `queueWrap` is stored over the oldest (`queues_overwrite`).
-/

namespace PeExchange

open Transition

/-! ## Histories -/

/-- The identifier an action stores in a queue. -/
def QueueAction.pushed (q : Queue) : QueueAction → Option Int
  | .handler q' pid => if q' = q then some pid else none
  | .pop _ _ => none

/-- The identifier an action reads from a queue. -/
def QueueAction.taken (q : Queue) : QueueAction → Option Int
  | .handler _ _ => none
  | .pop q' pid => if q' = q then some pid else none

/-- The identifiers stored in a queue, in order. -/
def pushed (q : Queue) (as : List QueueAction) : List Int :=
  as.filterMap (·.pushed q)

/-- The identifiers read from a queue, in order. -/
def taken (q : Queue) (as : List QueueAction) : List Int :=
  as.filterMap (·.taken q)

/-- The number of signals stored and not read yet. -/
def pending (q : Queue) (as : List QueueAction) : Int :=
  (pushed q as).length - (taken q as).length

/-- At no time are more than `n` signals pending in a queue. -/
def PendingWithin (n : Nat) (as : List QueueAction) : Prop :=
  ∀ bs, bs <+: as → ∀ q, pending q bs ≤ n

/-- The queue has lost and reordered nothing: what has been read is what was
stored first, and the length counts the rest. -/
def Lossless (q : Queue) (as : List QueueAction) (s : Signals) : Prop :=
  taken q as <+: pushed q as ∧ (s.ring q).len = pending q as

variable {as bs : List QueueAction} {a : QueueAction} {s s' : Signals} {q : Queue}

@[simp] theorem pushed_snoc : pushed q (as ++ [a]) = pushed q as ++ (a.pushed q).toList := by
  cases h : a.pushed q <;> simp [pushed, h]

@[simp] theorem taken_snoc : taken q (as ++ [a]) = taken q as ++ (a.taken q).toList := by
  cases h : a.taken q <;> simp [taken, h]

theorem PendingWithin.init {n : Nat} (h : PendingWithin n (as ++ [a])) : PendingWithin n as :=
  fun _ hbs => h _ (hbs.trans (List.prefix_append as [a]))

theorem PendingWithin.now {n : Nat} (h : PendingWithin n as) (q : Queue) : pending q as ≤ n :=
  h as (List.prefix_refl as) q

/-! ## One step -/

/-- What a step does to a queue. -/
theorem QueueStep.ring (h : QueueStep s a s') (q : Queue) :
    (∃ pid, a.pushed q = some pid ∧ a.taken q = none ∧
      s'.ring q = (s.ring q).push queueWrap pid) ∨
    (∃ pid, a.pushed q = none ∧ a.taken q = some pid ∧ 0 < (s.ring q).len ∧
      (s.ring q).peek = some pid ∧ s'.ring q = (s.ring q).pop queueWrap 0) ∨
    (a.pushed q = none ∧ a.taken q = none ∧ s'.ring q = s.ring q) := by
  cases h with
  | sigusrHandler =>
    cases q
    · exact .inl ⟨_, rfl, rfl, rfl⟩
    · exact .inr (.inr ⟨rfl, rfl, rfl⟩)
  | sigchldHandler =>
    cases q
    · exact .inr (.inr ⟨rfl, rfl, rfl⟩)
    · exact .inl ⟨_, rfl, rfl, rfl⟩
  | popSigusr hlen hpid =>
    cases q
    · exact .inr (.inl ⟨_, rfl, rfl, hlen, hpid, rfl⟩)
    · exact .inr (.inr ⟨rfl, rfl, rfl⟩)
  | popSigchld hlen hpid =>
    cases q
    · exact .inr (.inr ⟨rfl, rfl, rfl⟩)
    · exact .inr (.inl ⟨_, rfl, rfl, hlen, hpid, rfl⟩)

/-- The buffer of a queue holds `rest`, the signals not read yet. -/
def Pending (q : Queue) (as : List QueueAction) (s : Signals) (rest : List Int) : Prop :=
  pushed q as = taken q as ++ rest ∧ (s.ring q).Holds queueWrap rest

theorem Pending.length {rest : List Int} (h : Pending q as s rest) :
    pending q as = rest.length := by
  rw [pending, h.1, List.length_append]
  push_cast
  omega

/-- A step with at most `queueWrap` signals pending after it loses none. -/
theorem Pending.step {rest : List Int} (h : Pending q as s rest) (hs : QueueStep s a s')
    (hle : pending q (as ++ [a]) ≤ queueWrap) : ∃ rest', Pending q (as ++ [a]) s' rest' := by
  obtain ⟨heq, hholds⟩ := h
  rcases hs.ring q with ⟨pid, hpush, htake, hring⟩ | ⟨pid, hpush, htake, hlen, hpeek, hring⟩ |
    ⟨hpush, htake, hring⟩
  · have heq' : pushed q (as ++ [a]) = taken q (as ++ [a]) ++ (rest ++ [pid]) := by
      simp [hpush, htake, heq]
    have hlt : rest.length < queueWrap := by
      rw [pending, heq', List.length_append, List.length_append] at hle
      push_cast at hle
      simp only [List.length_singleton] at hle
      omega
    exact ⟨rest ++ [pid], heq', hring ▸ hholds.push hlt pid⟩
  · cases rest with
    | nil => simp [hholds.len_eq] at hlen
    | cons front rest =>
      obtain rfl : front = pid := Option.some.inj (hholds.peek.symm.trans hpeek)
      exact ⟨rest, by simp [hpush, htake, heq], hring ▸ hholds.pop 0⟩
  · exact ⟨rest, by simp [hpush, htake, heq], hring ▸ hholds⟩

/-! ## Whole runs -/

/-- In a run in which at most `queueWrap` signals are pending, the buffers hold
the pending ones. -/
theorem run_pending (h : Run QueueStep .initial as s) (hw : PendingWithin queueWrap as)
    (q : Queue) : ∃ rest, Pending q as s rest := by
  induction h with
  | nil =>
    have hempty : (RingBuffer.empty queueLen (0 : Int)).Holds queueWrap [] :=
      .empty 0 (by decide) (by decide)
    exact ⟨[], rfl, by cases q <;> exact hempty⟩
  | snoc _ hs ih =>
    obtain ⟨rest, hrest⟩ := ih hw.init
    exact hrest.step hs (hw.now q)

theorem pending_le_pushed : pending q as ≤ (pushed q as).length := by
  unfold pending
  omega

/-- Few enough handlers leave few enough signals pending. -/
theorem pendingWithin_of_pushed {n : Nat} (h : ∀ q, (pushed q as).length ≤ n) :
    PendingWithin n as := by
  intro bs hbs q
  have hsub : (pushed q bs).length ≤ (pushed q as).length :=
    (hbs.sublist.filterMap _).length_le
  have hpend : pending q bs ≤ (pushed q bs).length := pending_le_pushed
  have hn := h q
  omega

theorem pendingWithin_of_inits {n : Nat} (h : ∀ q, ∀ bs ∈ as.inits, pending q bs ≤ n) :
    PendingWithin n as :=
  fun bs hbs q => h q bs ((List.mem_inits bs as).mpr hbs)

/-- Each signal is taken before the next one comes. -/
def inTurn (pids : List Int) : List QueueAction :=
  pids.flatMap fun pid => [.handler .sigusr pid, .pop .sigusr pid]

theorem run_inTurn : ∀ (pids : List Int) {as : List QueueAction} {s : Signals},
    Run QueueStep .initial as s → s.sigusr.Holds queueWrap [] →
      ∃ s', Run QueueStep .initial (as ++ inTurn pids) s' ∧ s'.sigusr.Holds queueWrap []
  | [], as, s, h, hempty => ⟨s, by rwa [inTurn, List.flatMap_nil, List.append_nil], hempty⟩
  | pid :: pids, as, s, h, hempty => by
    have hone : (s.sigusrHandler pid).sigusr.Holds queueWrap [pid] :=
      hempty.push (by decide) pid
    have hlen : 0 < (s.sigusrHandler pid).sigusr.len := by
      rw [hone.len_eq]
      exact Int.zero_lt_one
    have hrun := (h.snoc .sigusrHandler).snoc (.popSigusr hlen hone.peek)
    obtain ⟨s', hrun', hempty'⟩ := run_inTurn pids hrun (hone.pop 0)
    refine ⟨s', ?_, hempty'⟩
    simpa [inTurn] using hrun'

/-- 48 signals of one process, and three more of others, which are pending together. -/
def mixed : List QueueAction :=
  inTurn (List.replicate 48 1) ++ [.handler .sigusr 2, .handler .sigusr 3, .handler .sigusr 4,
    .pop .sigusr 2, .pop .sigusr 3]

/-- **The queues lose nothing** as long as at most `queueWrap` signals are pending. -/
theorem queues_lossless (h : Run QueueStep .initial as s) (hw : PendingWithin queueWrap as)
    (q : Queue) : Lossless q as s := by
  obtain ⟨rest, hrest⟩ := run_pending h hw q
  refine ⟨⟨rest, hrest.1.symm⟩, ?_⟩
  rw [hrest.length, hrest.2.len_eq]

/-- The last signals are stored across the end of the array, and the first of them are
read. -/
theorem queues_lossless_mixed : ∃ s, Run QueueStep .initial mixed s ∧
    Lossless .sigusr mixed s ∧ (s.ring .sigusr).len = 1 := by
  have hstart : Signals.initial.sigusr.Holds queueWrap [] := .empty 0 (by decide) (by decide)
  obtain ⟨s, hrun, hempty⟩ := run_inTurn (List.replicate 48 1) .nil hstart
  have hthree := ((hempty.push (by decide) 2).push (by decide) 3).push (by decide) 4
  have htwo := hthree.pop 0
  have hpushed := ((hrun.snoc (@QueueStep.sigusrHandler _ 2)).snoc
    (@QueueStep.sigusrHandler _ 3)).snoc (@QueueStep.sigusrHandler _ 4)
  have hlen₃ := hthree.len_eq
  have hlen₂ := htwo.len_eq
  have htaken := (hpushed.snoc (.popSigusr (hlen₃ ▸ by decide) hthree.peek)).snoc
    (.popSigusr (hlen₂ ▸ by decide) htwo.peek)
  obtain ⟨s', hmixed⟩ : ∃ s', Run QueueStep .initial mixed s' :=
    ⟨_, by simpa [mixed] using htaken⟩
  have hwithin : PendingWithin queueWrap mixed :=
    pendingWithin_of_inits fun q => by cases q <;> decide +kernel
  have hlossless := queues_lossless hmixed hwithin .sigusr
  exact ⟨s', hmixed, hlossless, hlossless.2⟩

/-! ## Losing a signal -/

/-- The signal that comes while `queueWrap` are pending takes the place of the
oldest: it is the next to be read. -/
theorem queues_overwrite {pid : Int} (h : Run QueueStep .initial as s)
    (hw : PendingWithin queueWrap as) (hfull : pending q as = queueWrap)
    (hs : QueueStep s (.handler q pid) s') : (s'.ring q).peek = some pid := by
  obtain ⟨rest, hrest⟩ := run_pending h hw q
  have hlen : rest.length = queueWrap := by
    have := hrest.length
    omega
  rcases hs.ring q with ⟨_, hpush, -, hring⟩ | ⟨_, -, htake, -⟩ | ⟨hpush, -⟩
  · obtain rfl : pid = _ := by simpa [QueueAction.pushed] using hpush
    rw [hring]
    exact hrest.2.push_full hlen pid
  · cases htake
  · simp [QueueAction.pushed] at hpush

/-- Handlers that run one after the other. -/
theorem run_sigusrHandlers :
    ∀ (pids : List Int) {as : List QueueAction} {s : Signals}, Run QueueStep .initial as s →
      Run QueueStep .initial (as ++ pids.map (.handler .sigusr))
        (pids.foldl Signals.sigusrHandler s)
  | [], _, _, h => by simpa using h
  | pid :: pids, _, _, h => by
    have hrest := run_sigusrHandlers pids (h.snoc (@QueueStep.sigusrHandler _ pid))
    simpa using hrest

/-- Fifty signals of one process. -/
def burst : List QueueAction :=
  (List.replicate 50 1).map (.handler .sigusr)

def afterBurst : Signals :=
  (List.replicate 50 1).foldl Signals.sigusrHandler .initial

theorem run_burst : Run QueueStep .initial burst afterBurst :=
  run_sigusrHandlers (List.replicate 50 1) .nil

/-- With one more signal, of another process, the first identifier read is the
last that came. -/
theorem not_queues_lossless :
    ¬ ∀ (as : List QueueAction) (s : Signals), Run QueueStep .initial as s →
      PendingWithin queueLen as → ∀ q, Lossless q as s := by
  intro hall
  have hwithin : PendingWithin queueWrap burst :=
    pendingWithin_of_pushed fun q => by cases q <;> decide
  have hnext : QueueStep afterBurst (.handler .sigusr 2) (afterBurst.sigusrHandler 2) :=
    .sigusrHandler
  have hpeek := queues_overwrite (q := .sigusr) run_burst hwithin (by decide) hnext
  have hrun := (run_burst.snoc hnext).snoc (.popSigusr (by decide) hpeek)
  have hlost := (hall _ _ hrun (pendingWithin_of_pushed fun q => by cases q <;> decide) .sigusr).1
  exact absurd hlost (by decide)

end PeExchange
