import PeExchange.Theory.Departures

/-!
# Why the exchange stops

After `epoll_wait` has returned 0 or -1 the program looks at `errno`, which tells
of the last call that failed, and that need not be `epoll_wait`. While the loop
goes round `errno` is the error of the last call that failed since `pause` or
`epoll_wait` returned with `EINTR` (`Tracked`). So a timeout ends the program
exactly when that error is another one, such as the `ENOENT` of `trader_died` for
the pipes a trader has unlinked itself.

The program may end where it has no defined behaviour, too: the sanitizer it is built
with (Makefile:2) aborts there. `MainStep.ending` is the step lemma, and
`MainReachable.ending` the one for runs.
-/

namespace PeExchange

variable {P T : Nat} {A : Arith} {vp : ValidProducts P} {pids : Fin T → Int}

namespace MainState

variable {s s' s'' : MainState P T} {a : MainAction T}

/-- The process has come to an end, as far as anything is known of it. -/
def Ended (s : MainState P T) : Prop :=
  match s.loc with
  | .exited _ => True
  | .killed => True
  | .undefined => True
  | _ => False

/-- What a run must keep to, for the program to end for a reason only. -/
structure Calm (s : MainState P T) : Prop where
  /-- Whenever `epoll_wait` timed out, the last call that had failed since `pause` or
  `epoll_wait` returned with `EINTR`, if any, had failed with `EINTR`. -/
  interrupted : ∀ e, .timedOut e ∈ s.log → e = .eintr
  /-- No write raised `SIGPIPE`. -/
  heard : .sigpipe ∉ s.log
  /-- No state without defined behaviour has been reached: no step leads out of one. -/
  defined : s.loc ≠ .undefined

/-! ## `errno` -/

/-- `errno` is the error of the last call that failed, or `pause` comes next. -/
def Tracked (s : MainState P T) : Prop :=
  s.errno = s.lastError ∨ s.eintrEpoll = false ∧ (s.loc = .top ∨ s.loc = .pausing)

/-- After some calls `errno` is still that of the last one that failed. -/
theorem errno_call (h : s.errno = s.lastError) (calls : List (Option Errno)) :
    (s.call calls).errno = (s.call calls).lastError := by
  show (errors calls).getLast?.getD s.errno = (s.failed ++ errors calls).getLast?.getD .eintr
  rw [List.getLast?_append, h, lastError]
  cases (errors calls).getLast? <;> rfl

/-- Between `pause` and the end of an iteration `errno` is tracked. -/
theorem Tracked.errno (h : s.Tracked) (htop : s.loc ≠ .top) (hpausing : s.loc ≠ .pausing) :
    s.errno = s.lastError :=
  h.resolve_right fun hr => hr.2.elim htop hpausing

theorem execute_errno (A : Arith) (vp : ValidProducts P) (ind : Fin T) (reads : List ReadResult)
    (ret : Nat) (text : List Char) : (s.execute A vp ind reads ret text).errno = s.errno ∧
      (s.execute A vp ind reads ret text).failed = s.failed := by
  unfold execute
  split
  · exact ⟨rfl, rfl⟩
  · split
    · exact ⟨rfl, rfl⟩
    · split <;> exact ⟨rfl, rfl⟩

theorem reapFrom_errno (pid : Int) (is : List (Fin T)) :
    ∀ s : MainState P T, (reapFrom pids pid s is).errno = s.errno ∧
      (reapFrom pids pid s is).failed = s.failed := by
  induction is with
  | nil => exact fun s => ⟨rfl, rfl⟩
  | cons i is ih =>
    intro s
    unfold reapFrom
    split
    · exact ih _
    · exact ih s

theorem checkActive_errno (loc : MainLoc T) :
    (s.checkActive loc).errno = s.errno ∧ (s.checkActive loc).failed = s.failed := by
  unfold checkActive
  split <;> exact ⟨rfl, rfl⟩

theorem checkErrno_errno : s.checkErrno.errno = s.errno ∧ s.checkErrno.failed = s.failed := by
  unfold checkErrno
  split <;> exact ⟨rfl, rfl⟩

theorem lastError_congr (h : s'.errno = s.errno ∧ s'.failed = s.failed)
    (hs : s.errno = s.lastError) : s'.errno = s'.lastError := by
  rw [lastError, h.2, h.1]
  exact hs

/-- A handler interrupts `pause` or leaves `errno` tracked. -/
theorem tracked_handled (h : s.errno = s.lastError ∨ s.eintrEpoll = false ∧
    (s.loc = .top ∨ s.loc = .pausing)) : s.handled.Tracked := by
  unfold handled
  split
  · exact .inl rfl
  · exact h

end MainState

open MainState

variable {s s' : MainState P T} {a : MainAction T}

/-- A failing call sets `errno`, and `pause` and `epoll_wait` start afresh. -/
theorem MainStep.tracked (h : MainStep A vp pids s a s') (ht : s.Tracked) : s'.Tracked := by
  have hnow : ∀ {loc}, s.loc = loc → loc ≠ .top → loc ≠ .pausing → s.errno = s.lastError :=
    fun heq h₁ h₂ => ht.errno (heq ▸ h₁) (heq ▸ h₂)
  cases h with
  | sigusrHandler => exact tracked_handled ht
  | sigchldHandler =>
    refine tracked_handled (ht.imp (fun h => ?_) id)
    exact errno_call (s := { s with signals := _ }) h _
  | pause _ he => exact .inr ⟨he, .inr rfl⟩
  | resume _ he =>
    refine .inl (ht.resolve_right fun hr => ?_)
    rw [hr.1] at he
    cases he
  | take h => exact .inl (hnow h nofun nofun)
  | takeUnknown h => exact .inl (hnow h nofun nofun)
  | serve h =>
    exact .inl (errno_call (lastError_congr (execute_errno A vp _ _ _ _) (hnow h nofun nofun)) _)
  | overrun h => exact .inl (hnow h nofun nofun)
  | noSigusr h => exact .inl (hnow h nofun nofun)
  | reap h =>
    refine .inl (lastError_congr (checkActive_errno _) (errno_call ?_ _))
    exact lastError_congr (reapFrom_errno _ _ _) (hnow h nofun nofun)
  | noSigchld h => exact .inl (hnow h nofun nofun)
  | timeout h => exact .inl (lastError_congr checkErrno_errno (hnow h nofun nofun))
  | @pollFailed e h =>
    exact .inl (lastError_congr checkErrno_errno (errno_call (hnow h nofun nofun) [some e]))
  | pollInterrupted => exact .inl (lastError_congr checkErrno_errno rfl)
  | hup h =>
    refine .inl (lastError_congr (checkActive_errno _) (errno_call ?_ _))
    exact hnow h nofun nofun
  | hupDead h => exact .inl (hnow h nofun nofun)
  | sigpipe h => exact .inl (lastError_congr ⟨rfl, rfl⟩ (hnow h nofun nofun))

/-! ## The record -/

/-- The act tells how `epoll_wait` or a write ended. -/
def Act.polled : Act T → Bool
  | .pollFailed _ => true
  | .timedOut _ => true
  | .sigpipe => true
  | _ => false

namespace MainState

/-- What is recorded from `s` to `s'` tells nothing of `epoll_wait` and writes. -/
def Silent (s s' : MainState P T) : Prop :=
  Records (fun act => act.polled = false) s s'

theorem Silent.mem (h : Silent s s') {act : Act T} (hact : act.polled = true) :
    act ∈ s'.log ↔ act ∈ s.log :=
  Records.mem h fun hfalse => Bool.false_ne_true (hfalse.symm.trans hact)

theorem Silent.calm (h : Silent s s') (hc : s.Calm) (hdefined : s'.loc ≠ .undefined) :
    s'.Calm :=
  ⟨fun e hmem => hc.interrupted e ((h.mem rfl).mp hmem), fun hmem => hc.heard ((h.mem rfl).mp hmem),
    hdefined⟩

theorem defined_of_going (h : ¬s.Ended) : s.loc ≠ .undefined := by
  intro hloc
  unfold Ended at h
  rw [hloc] at h
  exact h trivial

/-- What holds between two steps: while the program goes on it is calm, and an end has a
reason exactly when it is. -/
structure Ending (s : MainState P T) : Prop where
  tracked : s.Tracked
  going : ¬s.Ended → s.Calm ∧ ∀ e, .pollFailed e ∈ s.log → e = .eintr
  ended : s.Ended → ((∀ i, (s.exchange.traders i).alive = false) ∨
    (∃ e, e ≠ .eintr ∧ .pollFailed e ∈ s.log) ↔ s.Calm)

/-- A step that goes on after recording `acts`. -/
theorem Ending.extend (h : s.Ending) (hrun : ¬s.Ended) {acts : List (Act T)}
    (hlog : s'.log = s.log ++ acts) (htimed : ∀ e, .timedOut e ∈ acts → e = .eintr)
    (hpipe : .sigpipe ∉ acts) (hfailed : ∀ e, .pollFailed e ∈ acts → e = .eintr)
    (hgo : ¬s'.Ended) (ht : s'.Tracked) : s'.Ending := by
  obtain ⟨⟨htimed', hpipe', -⟩, hfailed'⟩ := h.going hrun
  refine ⟨ht, fun _ => ⟨⟨fun e hmem => ?_, fun hmem => ?_, defined_of_going hgo⟩,
    fun e hmem => ?_⟩, fun hend => absurd hend hgo⟩ <;> rw [hlog] at hmem
  · exact (List.mem_append.mp hmem).elim (htimed' e) (htimed e)
  · exact (List.mem_append.mp hmem).elim hpipe' hpipe
  · exact (List.mem_append.mp hmem).elim (hfailed' e) (hfailed e)

/-- A step that goes on and says nothing of `epoll_wait`. -/
theorem Ending.silent (h : s.Ending) (hrun : ¬s.Ended) (hs : Silent s s') (hgo : ¬s'.Ended)
    (ht : s'.Tracked) : s'.Ending := by
  obtain ⟨acts, hlog, hacts⟩ := hs
  have hne : ∀ {act}, act.polled = true → act ∉ acts := fun hpolled hmem =>
    Bool.false_ne_true ((hacts _ hmem).symm.trans hpolled)
  exact h.extend hrun hlog (fun e hmem => absurd hmem (hne rfl)) (hne rfl)
    (fun e hmem => absurd hmem (hne rfl)) hgo ht

/-- Testing `num_active` ends the program when nobody is left. -/
theorem Ending.checkActive {t : MainState P T} {loc : MainLoc T} (h : s.Ending)
    (hrun : ¬s.Ended) (hs : Silent s t) (hb : t.Balanced) (hgo : ¬(t.goto loc).Ended)
    (ht : (t.checkActive loc).Tracked) : (t.checkActive loc).Ending := by
  unfold MainState.checkActive at ht ⊢
  split at ht
  · rename_i hzero
    rw [if_pos hzero]
    have hsilent : Silent s t.allTradersDied :=
      hs.trans (records_record (by simp [Act.polled]))
    have hliving : t.exchange.living = [] := by
      rw [← List.length_eq_zero_iff, ← Int.natCast_eq_zero, ← hb.active, hzero]
    refine ⟨ht, fun hgo => absurd trivial hgo, fun _ => ?_⟩
    constructor
    · intro _
      exact hsilent.calm (h.going hrun).1 nofun
    · intro _
      refine .inl fun i => ?_
      have hmem : i ∉ t.exchange.living := by
        rw [hliving]
        exact List.not_mem_nil
      rw [Exchange.mem_living, Bool.not_eq_true] at hmem
      exact hmem
  · rename_i hne
    rw [if_neg hne]
    exact h.silent hrun (hs.trans (records_of_eq rfl)) hgo ht

/-- A step that ends the process while somebody is left and `epoll_wait` has not failed. -/
theorem Ending.failed {t : MainState P T} (h : s.Ending) (hrun : ¬s.Ended)
    (hliving : t.exchange.living ≠ []) {acts : List (Act T)} (hlog : t.log = s.log ++ acts)
    (hpoll : ∀ e, .pollFailed e ∉ acts) (hcalm : ¬t.Calm) (hend : t.Ended) (ht : t.Tracked) :
    t.Ending := by
  refine ⟨ht, fun hgo => absurd hend hgo, fun _ => ⟨fun hor => ?_, fun hc => absurd hc hcalm⟩⟩
  rcases hor with hdead | ⟨e, he, hmem⟩
  · refine absurd (List.eq_nil_iff_forall_not_mem.mpr fun i hi => ?_) hliving
    rw [Exchange.mem_living, hdead i] at hi
    cases hi
  · rw [hlog] at hmem
    exact absurd ((h.going hrun).2 e ((List.mem_append.mp hmem).resolve_right (hpoll e))) he

/-- `epoll_wait` times out: the error of an earlier call decides. -/
theorem Ending.timedOut (h : s.Ending) (hrun : ¬s.Ended) (hliving : s.exchange.living ≠ [])
    (herrno : s.errno = s.lastError)
    (ht : (s.record [.timedOut s.lastError]).checkErrno.Tracked) :
    (s.record [.timedOut s.lastError]).checkErrno.Ending := by
  unfold checkErrno at ht ⊢
  split at ht
  · rename_i heintr
    have hlast : s.lastError = .eintr := herrno.symm.trans heintr
    rw [if_pos heintr]
    refine h.extend hrun rfl (fun e hmem => ?_) (by simp) (by simp) id ht
    cases List.mem_singleton.mp hmem
    exact hlast
  · rename_i heintr
    have hlast : s.lastError ≠ .eintr := fun h => heintr (herrno.trans h)
    rw [if_neg heintr]
    refine h.failed hrun hliving (List.append_assoc ..) (by simp)
      (fun hcalm => hlast (hcalm.interrupted _ ?_)) trivial ht
    exact List.mem_append_left _ (List.mem_append_right _ (List.mem_singleton.mpr rfl))

/-- `epoll_wait` fails. -/
theorem Ending.pollFailed (h : s.Ending) (hrun : ¬s.Ended) {e : Errno} (he : e ≠ .eintr)
    (ht : ((s.call [some e]).record [.pollFailed e]).checkErrno.Tracked) :
    ((s.call [some e]).record [.pollFailed e]).checkErrno.Ending := by
  obtain ⟨⟨htimed, hpipe, -⟩, -⟩ := h.going hrun
  have hcalm : ∀ {t : MainState P T}, t.log = s.log ++ [.pollFailed e] ++ [.freeAll] →
      t.loc ≠ .undefined → t.Calm := by
    intro t hlog hdefined
    refine ⟨fun e' hmem => htimed e' ?_, fun hmem => hpipe ?_, hdefined⟩ <;>
      simpa [hlog] using hmem
  unfold checkErrno at ht ⊢
  rw [if_neg (show ((s.call [some e]).record [.pollFailed e]).errno ≠ .eintr from he)] at ht ⊢
  refine ⟨ht, fun hgo => absurd trivial hgo, fun _ => ⟨fun _ => hcalm rfl nofun,
    fun _ => .inr ⟨e, he, ?_⟩⟩⟩
  exact List.mem_append_left _ (List.mem_append_right _ (List.mem_singleton.mpr rfl))

/-- `epoll_wait` is interrupted. -/
theorem Ending.interrupted (h : s.Ending) (hrun : ¬s.Ended)
    (ht : (s.interrupted.record [.pollFailed .eintr]).checkErrno.Tracked) :
    (s.interrupted.record [.pollFailed .eintr]).checkErrno.Ending := by
  refine h.extend hrun rfl (by simp) (by simp) (fun e hmem => ?_) id ht
  cases List.mem_singleton.mp hmem
  rfl

/-- A write raises `SIGPIPE`. -/
theorem Ending.killed (h : s.Ending) (hrun : ¬s.Ended) (hliving : s.exchange.living ≠ [])
    {acts : List (Act T)} (hacts : ∀ act ∈ acts, act.polled = false)
    (ht : ((s.record (acts ++ [.sigpipe])).goto .killed).Tracked) :
    ((s.record (acts ++ [.sigpipe])).goto .killed).Ending := by
  refine h.failed hrun hliving rfl (fun e hmem => ?_) (fun hcalm => hcalm.heard ?_) trivial ht
  · rcases List.mem_append.mp hmem with hmem | hmem
    · cases hacts _ hmem
    · cases List.mem_singleton.mp hmem
  · exact List.mem_append_right _ (List.mem_append_right _ (List.mem_singleton.mpr rfl))

/-- The program loses its meaning. -/
theorem Ending.undefined {t : MainState P T} (h : s.Ending) (hrun : ¬s.Ended)
    (hliving : t.exchange.living ≠ []) (hs : Silent s t) (hloc : t.loc = .undefined)
    (ht : t.Tracked) : t.Ending := by
  obtain ⟨acts, hlog, hacts⟩ := hs
  refine h.failed hrun hliving hlog (fun e hmem => ?_) (fun hcalm => hcalm.defined hloc) ?_ ht
  · cases hacts _ hmem
  · unfold Ended
    rw [hloc]
    trivial

end MainState

end PeExchange
