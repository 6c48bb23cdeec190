import PeExchange.Theory.Departures

/-!
# Disconnected traders

A message goes to the sender of a command or to a trader whose flag is set, so
nobody else hears of a command. The pipe that is read and the sender that is
answered are those of the signal taken from the queue, and there the flag is not
tested: `TakesLiving` is what the program leaves to chance.
-/

namespace PeExchange

variable {P T : Nat} {A : Arith} {vp : ValidProducts P} {pids : Fin T → Int}

namespace Exchange

variable {s s' : Exchange P T} {msg : List Char} {ind : Fin T}

theorem notify_alive {trader : Fin T} {msg : Msg} :
    ∀ m ∈ s.notify trader msg, (s.traders m.1).alive = true := by
  intro m hm
  unfold notify at hm
  split at hm
  · rename_i halive
    cases List.mem_singleton.mp hm
    exact halive
  · exact absurd hm List.not_mem_nil

theorem others_alive {msg : Msg} :
    ∀ m ∈ (s.others ind).map fun i => (i, msg), (s.traders m.1).alive = true := by
  refine List.forall_mem_map.mpr fun i hi => ?_
  simp only [others, List.mem_filter, Bool.and_eq_true] at hi
  exact hi.2.2

/-- **Who hears of a command**: its sender, and traders that are alive. -/
theorem parseMsg_recipients (h : s.parseMsg A vp msg ind = .ok s') :
    ∀ m ∈ messages (s.written s'), m.1 = ind ∨ (s.traders m.1).alive = true := by
  intro m hm
  cases parseMsg_outcome h with
  | rejected =>
    rw [written_append rfl] at hm
    cases List.mem_singleton.mp hm
    exact .inl rfl
  | traded hin ht =>
    rw [messages_traded hin ht] at hm
    rcases List.mem_append.mp hm with hm | hm
    · rcases List.mem_cons.mp hm with rfl | hm
      · exact .inl rfl
      · exact .inr (others_alive m hm)
    · obtain ⟨pair, -, hm⟩ := List.mem_flatMap.mp hm
      exact .inr ((List.mem_append.mp hm).elim (notify_alive m) (notify_alive m))
  | cancelled =>
    rw [messages_cancelled] at hm
    rcases List.mem_cons.mp hm with rfl | hm
    · exact .inl rfl
    · exact .inr (others_alive m hm)

end Exchange

/-- The act reads from the pipe of trader `i` or writes to it. -/
def Act.With (i : Fin T) : Act T → Prop
  | .read ind => ind = i
  | .message dest _ => dest = i
  | _ => False

namespace MainState

variable {s s' : MainState P T} {a : MainAction T}

/-- Once a trader has been disconnected, nothing is read from it or written to it. -/
def Severed (s : MainState P T) : Prop :=
  s.log.Pairwise fun act later => ∀ i, act = .died i → ¬later.With i

/-- If the step takes a signal from the `SIGUSR1` queue, the trader it is of is alive. -/
def TakesLiving (pids : Fin T → Int) (s : MainState P T) (a : MainAction T) : Prop :=
  a = .next → s.loc = .sigusr → 0 < s.signals.sigusr.len → ∀ pid ind,
    s.signals.sigusr.peek = some pid → findTrader pids pid = some ind →
      (s.exchange.traders ind).alive = true

/-- The trader whose command is being read is alive. -/
def ReadsLiving (s : MainState P T) : Prop :=
  match s.loc with
  | .reading ind => (s.exchange.traders ind).alive = true
  | _ => True

/-- The act is no disconnection and concerns living traders. -/
def Meets (s : MainState P T) (act : Act T) : Prop :=
  act.departure = false ∧ ∀ i, act.With i → (s.exchange.traders i).alive = true

theorem Balanced.died_mem (hb : s.Balanced) (i : Fin T) :
    .died i ∈ s.log ↔ (s.exchange.traders i).alive = false := by
  rw [← List.count_pos_iff, hb.once]
  cases (s.exchange.traders i).alive <;> simp

/-- Meeting the living is allowed. -/
theorem Severed.meets (hs : s.Severed) (hb : s.Balanced) (h : Records s.Meets s s') :
    s'.Severed := by
  obtain ⟨acts, hlog, hacts⟩ := h
  unfold Severed
  rw [hlog, List.pairwise_append]
  refine ⟨hs, List.pairwise_of_forall_mem_list fun act hact _ _ i hi => ?_,
    fun act hact later hlater i hi hwith => ?_⟩
  · have hdeparture := (hacts act hact).1
    rw [hi] at hdeparture
    cases hdeparture
  · have hdead := (hb.died_mem i).mp (hi ▸ hact)
    rw [(hacts later hlater).2 i hwith] at hdead
    cases hdead

/-- Disconnecting meets nobody. -/
theorem Severed.apart (hs : s.Severed) (h : Records (fun act => ∀ i, ¬act.With i) s s') :
    s'.Severed := by
  obtain ⟨acts, hlog, hacts⟩ := h
  unfold Severed
  rw [hlog, List.pairwise_append]
  refine ⟨hs, List.pairwise_of_forall_mem_list fun _ _ later hlater i _ => hacts later hlater i,
    fun _ _ later hlater i _ => hacts later hlater i⟩

/-- A command of a living trader concerns living traders only. -/
theorem meets_execute {ind : Fin T} (hind : (s.exchange.traders ind).alive = true) (A : Arith)
    (vp : ValidProducts P) (reads : List ReadResult) (ret : Nat) (text : List Char) :
    Records s.Meets s (s.execute A vp ind reads ret text) := by
  have hsilent : ∀ {act : Act T}, act.serving = true → (∀ i, ¬act.With i) → s.Meets act :=
    fun hserving hapart => ⟨departure_of_serving hserving, fun i hi => absurd hi (hapart i)⟩
  have hstrip : s.Meets (.strip (text.length - 1)) := hsilent rfl fun _ => id
  have hparse : s.Meets (.parse ind reads text) := hsilent rfl fun _ => id
  unfold execute
  split
  · refine ⟨_, rfl, List.forall_mem_cons.mpr ⟨hsilent rfl fun _ => id, ?_⟩⟩
    exact List.forall_mem_cons.mpr ⟨hstrip, List.forall_mem_singleton.mpr hparse⟩
  · split
    · exact records_one rfl hstrip
    · split
      · exact ⟨_, rfl, List.forall_mem_cons.mpr ⟨hstrip, List.forall_mem_singleton.mpr hparse⟩⟩
      · rename_i exchange hok
        refine ⟨_, rfl, List.forall_mem_cons.mpr ⟨hstrip, List.forall_mem_cons.mpr ⟨hparse, ?_⟩⟩⟩
        rw [sent_eq]
        refine List.forall_mem_map.mpr fun m hm => ⟨rfl, ?_⟩
        rintro i rfl
        rcases Exchange.parseMsg_recipients hok m hm with heq | halive
        · rw [heq]
          exact hind
        · exact halive

theorem apart_reapFrom (pid : Int) (is : List (Fin T)) :
    ∀ s : MainState P T, Records (fun act => ∀ i, ¬act.With i) s (reapFrom pids pid s is) := by
  induction is with
  | nil => exact fun s => records_of_eq rfl
  | cons i is ih =>
    intro s
    unfold reapFrom
    split
    · exact .trans (records_one rfl fun _ => id) (ih _)
    · exact ih s

theorem apart_checkActive (loc : MainLoc T) :
    Records (fun act => ∀ i, ¬act.With i) s (s.checkActive loc) := by
  unfold checkActive
  split
  · exact records_record (by simp [Act.With])
  · exact records_of_eq rfl

theorem apart_checkErrno : Records (fun act => ∀ i, ¬act.With i) s s.checkErrno := by
  unfold checkErrno
  split
  · exact records_of_eq rfl
  · exact records_one rfl fun _ => id

end MainState

open MainState

variable {s s' : MainState P T} {a : MainAction T}

theorem MainStep.severed (h : MainStep A vp pids s a s') (hb : s.Balanced) (hr : s.ReadsLiving)
    (hs : s.Severed) (ht : s.TakesLiving pids a) : s'.Severed := by
  have hreading : ∀ {ind}, s.loc = .reading ind → (s.exchange.traders ind).alive = true := by
    intro ind hloc
    unfold ReadsLiving at hr
    rw [hloc] at hr
    exact hr
  cases h with
  | sigusrHandler => exact hs.apart (records_handled rfl)
  | sigchldHandler => exact hs.apart (records_handled rfl)
  | pause => exact hs
  | resume => exact hs
  | @take pid ind hloc hlen hpid hind =>
    refine hs.meets hb (records_one rfl ⟨rfl, fun i hi => ?_⟩)
    obtain rfl : ind = i := Fin.ext (Int.ofNat.inj hi)
    exact ht rfl hloc hlen pid ind hpid hind
  | takeUnknown => exact hs.apart (records_one rfl fun i hi => by simp [Act.With] at hi)
  | serve hloc => exact hs.meets hb ((meets_execute (hreading hloc) ..).trans (records_of_eq rfl))
  | overrun => exact hs
  | noSigusr => exact hs
  | @reap pid calls =>
    have hpop : Records (fun act : Act T => ∀ i, ¬act.With i) s
        { s with signals := s.signals.popSigchld } := records_of_eq rfl
    refine hs.apart (.trans ?_ (apart_checkActive .sigchld))
    exact (hpop.trans (apart_reapFrom pid _ _)).trans (records_of_eq rfl)
  | noSigchld => exact hs
  | timeout => exact hs.apart (.trans (records_one rfl fun _ => id) apart_checkErrno)
  | pollFailed => exact hs.apart (.trans (records_one rfl fun _ => id) apart_checkErrno)
  | pollInterrupted => exact hs.apart (.trans (records_one rfl fun _ => id) apart_checkErrno)
  | @hup ind =>
    have hdied : Records (fun act : Act T => ∀ i, ¬act.With i) s (s.disconnect ind) :=
      records_one rfl fun _ => id
    exact hs.apart (.trans (hdied.trans (records_of_eq rfl)) (apart_checkActive .top))
  | hupDead => exact hs
  | sigpipe hloc _ _ hacts =>
    refine hs.meets hb (records_record (List.forall_mem_append.mpr ⟨?_, ?_⟩))
    · exact (meets_execute (hreading hloc) ..).killed hacts
    · exact List.forall_mem_singleton.mpr ⟨rfl, fun _ h => h.elim⟩

theorem MainStep.readsLiving (h : MainStep A vp pids s a s') (hr : s.ReadsLiving)
    (ht : s.TakesLiving pids a) : s'.ReadsLiving := by
  have hhandled : ∀ {t : MainState P T}, t.exchange = s.exchange → t.loc = s.loc →
      t.handled.ReadsLiving := by
    intro t hexchange hloc
    unfold handled
    split
    · trivial
    · unfold ReadsLiving at hr ⊢
      rw [hexchange, hloc]
      exact hr
  have hactive : ∀ {t : MainState P T} {loc}, (t.goto loc).ReadsLiving →
      (t.checkActive loc).ReadsLiving := by
    intro t loc hgo
    unfold checkActive
    split
    · trivial
    · exact hgo
  have herrno : ∀ t : MainState P T, t.checkErrno.ReadsLiving := by
    intro t
    unfold checkErrno
    split <;> trivial
  cases h with
  | sigusrHandler => exact hhandled rfl rfl
  | sigchldHandler => exact hhandled rfl rfl
  | take hloc hlen hpid hind => exact ht rfl hloc hlen _ _ hpid hind
  | serve =>
    unfold execute
    split
    · trivial
    · split
      · trivial
      · split <;> trivial
  | reap => exact hactive trivial
  | timeout => exact herrno _
  | pollFailed => exact herrno _
  | pollInterrupted => exact herrno _
  | hup => exact hactive trivial
  | _ => trivial

/-- The steps that take signals of living traders only. -/
def AttentiveStep (A : Arith) (vp : ValidProducts P) (pids : Fin T → Int) (s : MainState P T)
    (a : MainAction T) (s' : MainState P T) : Prop :=
  MainStep A vp pids s a s' ∧ s.TakesLiving pids a

theorem reachable_of_attentive (h : Transition.Reachable (AttentiveStep A vp pids) .initial s) :
    MainReachable A vp pids s :=
  Transition.Reachable.invariant Transition.Reachable.init
    (fun _ _ _ _ hr hs => hr.step hs.1) h

theorem AttentiveStep.severed (h : Transition.Reachable (AttentiveStep A vp pids) .initial s) :
    s.Severed ∧ s.ReadsLiving := by
  refine Transition.Reachable.invariant (I := fun s => s.Severed ∧ s.ReadsLiving)
    ⟨List.Pairwise.nil, trivial⟩ (fun s a s' hr hi hs => ?_) h
  have hb := (reachable_of_attentive hr).balanced
  exact ⟨hs.1.severed hb hi.2 hi.1 hs.2, hs.1.readsLiving hi.2 hs.2⟩

/-- Taking the signal of a disconnected trader reads from its pipe. -/
theorem MainStep.takesLiving (h : MainStep A vp pids s a s') (hb : s.Balanced)
    (hs : s'.Severed) : s.TakesLiving pids a := by
  rintro rfl hloc hlen pid ind hpid hind
  cases h with
  | pause h => cases hloc.symm.trans h
  | resume h => cases hloc.symm.trans h
  | @take pid' ind' _ _ hpid' hind' =>
    obtain rfl := Option.some.inj (hpid.symm.trans hpid')
    obtain rfl := Option.some.inj (hind.symm.trans hind')
    by_contra hdead
    have hdied := (hb.died_mem ind).mpr (Bool.eq_false_iff.mpr hdead)
    exact (List.pairwise_append.mp hs).2.2 _ hdied _ (List.mem_singleton.mpr rfl) ind rfl rfl
  | takeUnknown _ _ hpid' hind' =>
    obtain rfl := Option.some.inj (hpid.symm.trans hpid')
    cases hind.symm.trans hind'
  | noSigusr _ hnone => exact absurd hlen hnone
  | noSigchld h => cases hloc.symm.trans h

/-- A command of trader 1 has been rejected, and trader 0 has closed its pipe. -/
theorem attentive_closed : ∃ s : MainState 2 2,
    Transition.Reachable (AttentiveStep .machine testProducts testPids) .initial s ∧
      s.loc = .top ∧ s.eintrEpoll = false ∧ (s.exchange.traders 0).alive = false ∧
      (s.exchange.traders 1).alive = true ∧
      s.signals = (Signals.initial.sigusrHandler 101).popSigusr := by
  have hpaused : Transition.Reachable (AttentiveStep .machine testProducts testPids)
      .initial ((MainState.initial : MainState 2 2).goto .pausing) :=
    Transition.Reachable.init.step ⟨.pause rfl rfl, nofun⟩
  have hwoken := hpaused.step ⟨@MainStep.sigusrHandler _ _ _ _ _ _ 101 trivial, nofun⟩
  have htaken := hwoken.step ⟨@MainStep.take _ _ _ _ _ _ 101 1 rfl (by decide) rfl (by decide),
    fun _ _ _ _ _ _ _ => rfl⟩
  have hserved := htaken.step ⟨@MainStep.serve _ _ _ _ _ _ 1 [.byte 'X', .byte ';'] 2 _ [] rfl
    rfl List.not_mem_nil, nofun⟩
  have hidle := hserved.step ⟨.noSigusr rfl (by decide +kernel),
    fun _ _ hlen => absurd hlen (by decide +kernel)⟩
  have hpolling := hidle.step ⟨.noSigchld rfl (by decide +kernel), fun _ h => nomatch h⟩
  have hclosed := hpolling.step ⟨@MainStep.hup _ _ _ _ _ _ 0 [] rfl (by decide +kernel)
    List.not_mem_nil, nofun⟩
  exact ⟨_, hclosed, rfl, rfl, rfl, rfl, rfl⟩

/-- **Nothing is exchanged with a disconnected trader** in a run that takes
signals of living traders only, and the first other signal that is taken breaks it. -/
theorem severed_iff (h : Transition.Reachable (AttentiveStep A vp pids) .initial s) :
    s.Severed ∧ ∀ a s', MainStep A vp pids s a s' → (s'.Severed ↔ s.TakesLiving pids a) := by
  have hb := (reachable_of_attentive h).balanced
  obtain ⟨hs, hr⟩ := AttentiveStep.severed h
  exact ⟨hs, fun a s' hstep => ⟨hstep.takesLiving hb, hstep.severed hb hr hs⟩⟩

/-- Trader 0 has been disconnected, and a signal of trader 1 is taken. -/
theorem severed_iff_taken : ∃ s : MainState 2 2, s.loc = .reading 1 ∧
    (s.exchange.traders 0).alive = false ∧ .died 0 ∈ s.log ∧ s.Severed := by
  obtain ⟨s, hclosed, htop, heintr, hdead, halive, hsignals⟩ := attentive_closed
  have hpaused := hclosed.step ⟨.pause htop heintr, fun _ h => absurd (htop.symm.trans h) nofun⟩
  have hwoken := hpaused.step ⟨@MainStep.sigusrHandler _ _ _ _ _ _ 101 trivial, nofun⟩
  have hlen : 0 < (s.signals.sigusrHandler 101).sigusr.len := by
    rw [hsignals]
    decide
  have hring : (s.signals.sigusrHandler 101).sigusr.peek = some 101 := by
    rw [hsignals]
    rfl
  have hind : findTrader testPids 101 = some 1 := by decide
  have htaken := hwoken.step ⟨.take rfl hlen hring hind, fun _ _ _ pid ind hpid hfind => by
    obtain rfl := Option.some.inj (hring.symm.trans hpid)
    obtain rfl := Option.some.inj (hind.symm.trans hfind)
    exact halive⟩
  have hdied := ((reachable_of_attentive htaken).balanced.died_mem 0).mpr hdead
  refine ⟨_, ?_, ?_, hdied, (severed_iff htaken).1⟩
  · rfl
  · exact hdead

/-- A queued signal of a disconnected trader is taken like any other. -/
theorem MainReachable.not_severed {pid : Int} {ind : Fin T} (h : MainReachable A vp pids s)
    (hloc : s.loc = .sigusr) (hlen : 0 < s.signals.sigusr.len)
    (hpid : s.signals.sigusr.peek = some pid) (hind : findTrader pids pid = some ind)
    (hdead : (s.exchange.traders ind).alive = false) :
    ∃ s', MainReachable A vp pids s' ∧ ¬s'.Severed := by
  have hstep : MainStep A vp pids s .next _ := .take hloc hlen hpid hind
  refine ⟨_, Transition.Reachable.step h hstep, ?_⟩
  intro hs
  have halive := hstep.takesLiving h.balanced hs rfl hloc hlen pid ind hpid hind
  rw [hdead] at halive
  cases halive

/-- The process of trader 0 goes on and signals. -/
theorem not_always_severed :
    ¬∀ s, MainReachable .machine testProducts testPids s → s.Severed := by
  intro hclaim
  obtain ⟨s, hattentive, htop, heintr, hdead, -, hsignals⟩ := attentive_closed
  have hclosed := reachable_of_attentive hattentive
  have hpaused := Transition.Reachable.step hclosed (.pause htop heintr)
  have hwoken := hpaused.step (@MainStep.sigusrHandler _ _ _ _ _ _ 100 trivial)
  have hring : (s.signals.sigusrHandler 100).sigusr.peek = some 100 := by
    rw [hsignals]
    rfl
  have hlen : 0 < (s.signals.sigusrHandler 100).sigusr.len := by
    rw [hsignals]
    decide
  obtain ⟨s', hs', hbroken⟩ := MainReachable.not_severed hwoken rfl hlen hring
    (by decide : findTrader testPids 100 = some 0) hdead
  exact hbroken (hclaim s' hs')

end PeExchange
