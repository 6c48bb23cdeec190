import PeExchange.Theory.Record

/-!
# Every trader is disconnected once

`num_active` counts the traders whose `alive` flag is set, whichever of the two
detectors finds a trader gone first: the flag is tested before each decrement,
and no command touches it. So `all_traders_died` is called by the step that
disconnects the last living trader, and by no other.
-/

namespace PeExchange

variable {P T : Nat} {A : Arith} {vp : ValidProducts P} {pids : Fin T → Int}

namespace Exchange

variable {s s' : Exchange P T} {msg : List Char} {ind : Fin T}

/-- The traders whose flag is set. -/
def living (s : Exchange P T) : List (Fin T) :=
  (List.finRange T).filter fun i => (s.traders i).alive

theorem mem_living {i : Fin T} : i ∈ s.living ↔ (s.traders i).alive = true := by
  simp [living]

/-- Who lives depends on the flags only. -/
theorem living_congr (h : ∀ t, (s'.traders t).alive = (s.traders t).alive) :
    s'.living = s.living := by
  unfold living
  simp only [h]

/-- `trader_died` clears one flag. -/
theorem living_traderDied (i : Fin T) : (s.traderDied i).living = s.living.erase i := by
  have hnodup : s.living.Nodup := (List.nodup_finRange T).filter _
  rw [hnodup.erase_eq_filter, living, living, List.filter_filter]
  refine List.filter_congr fun j _ => ?_
  by_cases h : j = i
  · subst h
    simp [traderDied]
  · simp [traderDied, h]

end Exchange

/-! ## Steps that disconnect nobody -/

/-- The act is a disconnection or the end of trading. -/
def Act.departure : Act T → Bool
  | .died _ => true
  | .allDied => true
  | _ => false

namespace MainState

variable {s s' s'' : MainState P T} {a : MainAction T}

/-- From `s` to `s'` the flags and `num_active` stay, and what is recorded is no
departure. -/
structure Unmoved (s s' : MainState P T) : Prop where
  living : s'.exchange.living = s.exchange.living
  numActive : s'.numActive = s.numActive
  log : Records (fun act => act.departure = false) s s'

theorem Unmoved.of_eq (hexchange : s'.exchange = s.exchange) (hactive : s'.numActive = s.numActive)
    (hlog : s'.log = s.log) : Unmoved s s' :=
  ⟨by rw [hexchange], hactive, records_of_eq hlog⟩

theorem Unmoved.trans (h : Unmoved s s') (h' : Unmoved s' s'') : Unmoved s s'' :=
  ⟨h'.living.trans h.living, h'.numActive.trans h.numActive, h.log.trans h'.log⟩

theorem unmoved_call (calls : List (Option Errno)) : Unmoved s (s.call calls) :=
  .of_eq rfl rfl rfl

/-- A handler disconnects nobody. -/
theorem unmoved_handled : Unmoved s s.handled := by
  unfold handled
  split <;> exact .of_eq rfl rfl rfl

theorem unmoved_checkErrno : Unmoved s s.checkErrno := by
  unfold checkErrno
  split
  · exact .of_eq rfl rfl rfl
  · exact ⟨rfl, rfl, records_one rfl rfl⟩

theorem departure_of_serving {act : Act T} (h : act.serving = true) : act.departure = false := by
  cases act <;> first | rfl | cases h

/-- Executing a command leaves the flags and `num_active`. -/
theorem execute_living (A : Arith) (vp : ValidProducts P) (ind : Fin T)
    (reads : List ReadResult) (ret : Nat) (text : List Char) :
    (s.execute A vp ind reads ret text).exchange.living = s.exchange.living ∧
      (s.execute A vp ind reads ret text).numActive = s.numActive := by
  unfold execute
  split
  · exact ⟨rfl, rfl⟩
  · split
    · exact ⟨rfl, rfl⟩
    · split
      · exact ⟨rfl, rfl⟩
      · rename_i exchange hparse
        exact ⟨Exchange.living_congr (Exchange.parseMsg_alive hparse), rfl⟩

/-- Executing a command disconnects nobody. -/
theorem unmoved_execute {ind : Fin T} {reads : List ReadResult} {ret : Nat} {text : List Char} :
    Unmoved s (s.execute A vp ind reads ret text) := by
  obtain ⟨hliving, hactive⟩ := execute_living (s := s) A vp ind reads ret text
  exact ⟨hliving, hactive, (records_execute A vp ind reads ret text).mono
    fun _ => departure_of_serving⟩

/-! ## Steps that disconnect -/

/-- `num_active` and the record agree with the flags. -/
structure Balanced (s : MainState P T) : Prop where
  active : s.numActive = s.exchange.living.length
  once : ∀ i, s.log.count (.died i) = if (s.exchange.traders i).alive then 0 else 1

/-- Departures are as many as before. -/
theorem Unmoved.count (h : Unmoved s s') {act : Act T} (hact : act.departure = true) :
    s'.log.count act = s.log.count act :=
  h.log.count fun hfalse => Bool.false_ne_true (hfalse.symm.trans hact)

/-- Each flag stays as it was. -/
theorem Unmoved.alive (h : Unmoved s s') (i : Fin T) :
    (s'.exchange.traders i).alive = (s.exchange.traders i).alive := by
  have hmem : i ∈ s'.exchange.living ↔ i ∈ s.exchange.living := by rw [h.living]
  rw [Exchange.mem_living, Exchange.mem_living] at hmem
  exact Bool.eq_iff_iff.mpr hmem

/-- A step that disconnects nobody keeps the balance. -/
theorem Balanced.unmoved (hb : Balanced s) (h : Unmoved s s') : Balanced s' := by
  constructor
  · rw [h.numActive, h.living, hb.active]
  · intro i
    rw [h.count rfl, hb.once, h.alive]

/-- Disconnecting a living trader keeps the balance. -/
theorem Balanced.disconnect (hb : Balanced s) {i : Fin T}
    (hi : (s.exchange.traders i).alive = true) : Balanced (s.disconnect i) := by
  have hmem := Exchange.mem_living.mpr hi
  constructor
  · show s.numActive - 1 = ((s.exchange.traderDied i).living.length : Int)
    have hpos := List.length_pos_of_mem hmem
    rw [Exchange.living_traderDied, List.length_erase_of_mem hmem, hb.active]
    omega
  · intro j
    show (s.log ++ [Act.died i]).count (Act.died j) =
      if ((s.exchange.traderDied i).traders j).alive then 0 else 1
    rw [List.count_append, hb.once]
    by_cases hj : j = i
    · subst hj
      simp [hi, Exchange.traderDied]
    · simp [hj, Ne.symm hj, Exchange.traderDied]

/-- From `s` to `s'` living traders may be disconnected. -/
inductive Departs : MainState P T → MainState P T → Prop where
  | unmoved {s s' : MainState P T} (h : Unmoved s s') : Departs s s'
  | disconnect {s : MainState P T} {i : Fin T} (hi : (s.exchange.traders i).alive = true) :
      Departs s (s.disconnect i)
  | trans {s s' s'' : MainState P T} (h : Departs s s') (h' : Departs s' s'') : Departs s s''

/-- Disconnecting living traders, one after the other, keeps the balance. -/
theorem Departs.balanced (h : Departs s s') (hb : Balanced s) : Balanced s' := by
  induction h with
  | unmoved h => exact hb.unmoved h
  | disconnect hi => exact hb.disconnect hi
  | trans _ _ ih ih' => exact ih' (ih hb)

/-- Disconnections do not end the program by themselves. -/
theorem Departs.count_allDied (h : Departs s s') :
    s'.log.count .allDied = s.log.count .allDied := by
  induction h with
  | unmoved h => exact h.count rfl
  | @disconnect s i hi =>
    show (s.log ++ [Act.died i]).count Act.allDied = _
    simp
  | trans _ _ ih ih' => exact ih'.trans ih

/-- For a pid of the `SIGCHLD` queue only living traders are disconnected. -/
theorem departs_reapFrom (pid : Int) (is : List (Fin T)) :
    ∀ s : MainState P T, Departs s (reapFrom pids pid s is) := by
  induction is with
  | nil => exact fun s => .unmoved (.of_eq rfl rfl rfl)
  | cons i is ih =>
    intro s
    unfold reapFrom
    split
    · rename_i h
      exact .trans (.disconnect h.2) (ih _)
    · exact ih s

end MainState

open MainState

variable {s s' : MainState P T} {a : MainAction T}

/-- A step disconnects nobody unless it takes an entry of the `SIGCHLD` queue or
`epoll_wait` reports a trader. -/
theorem MainStep.unmoved (h : MainStep A vp pids s a s') (hreap : ∀ calls, a ≠ .reap calls)
    (hhup : ∀ ind calls, a ≠ .poll (.hup ind calls)) : Unmoved s s' := by
  cases h with
  | sigusrHandler =>
    refine .trans ?_ unmoved_handled
    exact .of_eq rfl rfl rfl
  | sigchldHandler =>
    refine .trans ?_ unmoved_handled
    exact .of_eq rfl rfl rfl
  | pause => exact .of_eq rfl rfl rfl
  | resume => exact .of_eq rfl rfl rfl
  | take => exact ⟨rfl, rfl, records_one rfl rfl⟩
  | takeUnknown => exact ⟨rfl, rfl, records_one rfl rfl⟩
  | serve => exact unmoved_execute.trans (.of_eq rfl rfl rfl)
  | overrun => exact .of_eq rfl rfl rfl
  | noSigusr => exact .of_eq rfl rfl rfl
  | reap => exact absurd rfl (hreap _)
  | noSigchld => exact .of_eq rfl rfl rfl
  | timeout =>
    refine .trans ?_ unmoved_checkErrno
    exact ⟨rfl, rfl, records_one rfl rfl⟩
  | pollFailed =>
    refine .trans ?_ unmoved_checkErrno
    exact ⟨rfl, rfl, records_one rfl rfl⟩
  | pollInterrupted =>
    refine .trans ?_ unmoved_checkErrno
    exact ⟨rfl, rfl, records_one rfl rfl⟩
  | hup => exact absurd rfl (hhup _ _)
  | hupDead => exact absurd rfl (hhup _ _)
  | sigpipe _ _ _ hacts =>
    refine ⟨rfl, rfl, records_record
      (List.forall_mem_append.mpr ⟨?_, by simp [Act.departure]⟩)⟩
    exact unmoved_execute.log.killed hacts

/-- **What a step does to the traders**: nothing, or it disconnects some of them
and tests `num_active`. -/
theorem MainStep.departs (h : MainStep A vp pids s a s') :
    Unmoved s s' ∨ ∃ t loc, Departs s t ∧ s' = t.checkActive loc := by
  have hunmoved := h.unmoved
  cases h with
  | @reap pid calls =>
    have hpop : Departs s { s with signals := s.signals.popSigchld } :=
      .unmoved (.of_eq rfl rfl rfl)
    exact .inr ⟨_, .sigchld, (hpop.trans (departs_reapFrom pid _ _)).trans
      (.unmoved (unmoved_call calls)), rfl⟩
  | hup h halive =>
    exact .inr ⟨_, .top, .trans (.disconnect halive) (.unmoved (unmoved_call _)), rfl⟩
  | hupDead => exact .inl (.of_eq rfl rfl rfl)
  | _ => exact .inl (hunmoved nofun nofun)

/-! ## Whole runs -/

/-- The states of the event loop. -/
def MainReachable (A : Arith) (vp : ValidProducts P) (pids : Fin T → Int) (s : MainState P T) :
    Prop :=
  Transition.Reachable (MainStep A vp pids) .initial s

namespace MainState

theorem living_initial : (PeExchange.initial : Exchange P T).living = List.finRange T :=
  List.filter_eq_self.mpr fun _ _ => rfl

theorem balanced_initial : (initial : MainState P T).Balanced := by
  refine ⟨?_, fun i => rfl⟩
  show (T : Int) = (PeExchange.initial : Exchange P T).living.length
  rw [living_initial, List.length_finRange]

/-- The test of `num_active` disconnects nobody. -/
theorem Balanced.checkActive {t : MainState P T} (hb : t.Balanced) (loc : MainLoc T) :
    (t.checkActive loc).Balanced := by
  unfold MainState.checkActive
  split
  · constructor
    · exact hb.active
    · intro i
      show (t.log ++ [Act.allDied, Act.freeAll]).count (Act.died i) = _
      rw [List.count_append, hb.once]
      rfl
  · exact ⟨hb.active, hb.once⟩

/-- What holds between two steps. -/
structure Counted (s : MainState P T) : Prop where
  balanced : s.Balanced
  running : s.Running → s.exchange.living ≠ []
  ended : s.log.count .allDied = if s.exchange.living = [] then 1 else 0

/-- `main` does not start without a trader (pe_exchange.c:78). -/
theorem counted_initial (hT : 0 < T) : (initial : MainState P T).Counted := by
  have hne : List.finRange T ≠ [] := List.ne_nil_of_length_pos (by simpa using hT)
  refine ⟨balanced_initial, fun _ => ?_, ?_⟩
  · exact living_initial (P := P) ▸ hne
  · exact (if_neg (living_initial (P := P) ▸ hne)).symm

/-- The test of `num_active` ends the program when nobody is left. -/
theorem Balanced.counted_checkActive {t : MainState P T} (hb : t.Balanced)
    (hend : t.log.count .allDied = 0) (loc : MainLoc T) : (t.checkActive loc).Counted := by
  have hzero : t.numActive = 0 ↔ t.exchange.living = [] := by
    rw [hb.active, ← List.length_eq_zero_iff, Int.natCast_eq_zero]
  have hbalanced := hb.checkActive loc
  unfold MainState.checkActive at hbalanced ⊢
  split
  · rename_i h
    rw [if_pos h] at hbalanced
    refine ⟨hbalanced, False.elim, ?_⟩
    show (t.log ++ [Act.allDied, Act.freeAll]).count Act.allDied =
      if t.exchange.living = [] then 1 else 0
    rw [List.count_append, hend, if_pos (hzero.mp h)]
    rfl
  · rename_i h
    rw [if_neg h] at hbalanced
    exact ⟨hbalanced, fun _ => mt hzero.mpr h, hend.trans (if_neg (mt hzero.mpr h)).symm⟩

end MainState

/-- **The step lemma** for the balance. -/
theorem MainStep.balanced (h : MainStep A vp pids s a s') (hb : s.Balanced) : s'.Balanced := by
  rcases h.departs with hq | ⟨t, loc, ht, rfl⟩
  · exact hb.unmoved hq
  · exact (ht.balanced hb).checkActive loc

/-- Whole runs keep the balance. -/
theorem MainReachable.balanced (h : MainReachable A vp pids s) : s.Balanced :=
  Transition.Reachable.invariant balanced_initial (fun _ _ _ _ hb hs => hs.balanced hb) h

/-- **The step lemma**: the program goes on while somebody is left, and ends once. -/
theorem MainStep.counted (h : MainStep A vp pids s a s') (hc : s.Counted) : s'.Counted := by
  have hne := hc.running h.running
  have hzero : s.log.count .allDied = 0 := hc.ended.trans (if_neg hne)
  rcases h.departs with hq | ⟨t, loc, ht, rfl⟩
  · refine ⟨hc.balanced.unmoved hq, fun _ => hq.living ▸ hne, ?_⟩
    rw [hq.count rfl, hq.living, hc.ended]
  · exact (ht.balanced hc.balanced).counted_checkActive (ht.count_allDied.trans hzero) loc

/-- Whole runs. -/
theorem MainReachable.counted (hT : 0 < T) (h : MainReachable A vp pids s) : s.Counted :=
  Transition.Reachable.invariant (counted_initial hT) (fun _ _ _ _ hc hs => hs.counted hc) h

/-! ## A trader that exits -/

/-- Two traders' processes. -/
def testPids : Fin 2 → Int
  | 0 => 100
  | 1 => 101

/-- The exit of the first of two traders is taken from the `SIGCHLD` queue, with
these results of the calls in `trader_died`. -/
def reaped (calls : List (Option Errno)) : MainState 2 2 :=
  { (MainState.initial : MainState 2 2) with
    exchange := PeExchange.initial.traderDied ⟨0, Nat.zero_lt_two⟩
    signals := (Signals.initial.sigchldHandler 100).popSigchld
    numActive := 1
    errno := afterCalls .eintr calls
    loc := .sigchld
    failed := errors calls
    log := [.died ⟨0, Nat.zero_lt_two⟩] }

theorem reachable_reaped {calls : List (Option Errno)} (hcalls : some .epipe ∉ calls) :
    MainReachable .machine testProducts testPids (reaped calls) := by
  have hpaused : MainReachable .machine testProducts testPids
      (MainState.initial.goto .pausing) := Transition.Reachable.init.step (.pause rfl rfl)
  have hwoken := hpaused.step (@MainStep.sigchldHandler _ _ _ _ _ _ 100 [none] trivial)
  have hidle := hwoken.step (.noSigusr rfl (by decide))
  have hreap := hidle.step (@MainStep.reap _ _ _ _ _ _ 100 calls rfl (by decide) rfl hcalls)
  exact hreap

/-! ## One disconnection each -/

/-- **Every trader is disconnected once.** In every state `num_active` is the
number of living traders and `trader_died` has been called once for each of the
others; `all_traders_died` is called by a step exactly when somebody is alive
before it and nobody after it, and was called never before. -/
theorem disconnected_once (hT : 0 < T) (h : MainReachable A vp pids s) :
    s.numActive = s.exchange.living.length ∧
    (∀ i, s.log.count (.died i) = if (s.exchange.traders i).alive then 0 else 1) ∧
    (s.log.count .allDied = if s.exchange.living = [] then 1 else 0) ∧
    ∀ a s', MainStep A vp pids s a s' →
      (s'.log.count .allDied = s.log.count .allDied + 1 ↔
        s.exchange.living ≠ [] ∧ s'.exchange.living = []) := by
  have hc := h.counted hT
  refine ⟨hc.balanced.active, hc.balanced.once, hc.ended, ?_⟩
  intro a s' hs
  have hne := hc.running hs.running
  rw [hc.ended, (hs.counted hc).ended, if_neg hne]
  by_cases hlast : s'.exchange.living = []
  · simp [hlast, hne]
  · simp [hlast]

/-- After the first of two exits one trader has been disconnected. -/
theorem disconnected_once_exit :
    (reaped []).log.count (.died 0) = 1 ∧ (reaped []).log.count .allDied = 0 := by
  obtain ⟨-, honce, hall, -⟩ := disconnected_once (by decide) (reachable_reaped List.not_mem_nil)
  exact ⟨honce 0, hall⟩

end PeExchange
