import PeExchange.Theory.Delivery
import PeExchange.Theory.Departures
import PeExchange.Theory.Parsing

/-!
# What an iteration executes

The loop over `SIGUSR1` takes it for granted that a signal comes from a trader
and that a whole command is in the trader's pipe. `Sound` says what a run keeps
while that is so: the exchange is what the recorded commands and disconnections
make of it, every command recorded is one the signalling trader sent, and nothing
happens after `free_all`.
-/

namespace PeExchange

variable {P T : Nat} {A : Arith} {vp : ValidProducts P} {pids : Fin T → Int}

/-- `c` is a command, and `process_msg` has read just its bytes. -/
def Whole (c : List Char) (reads : List ReadResult) : Prop :=
  Framing.Terminated ';' c ∧ reads = c.map .byte

namespace Act

/-- `trader_list` is indexed within its bounds, `printing_msg` is not written in
front of its start, and a whole command is executed. -/
def Proper : Act T → Prop
  | .read ind => 0 ≤ ind ∧ ind < T
  | .strip offset => 0 ≤ offset
  | .parse _ reads msg => Whole msg reads
  | _ => True

/-- The trader whose pipe is read. -/
def reading : Act T → Option Int
  | .read ind => some ind
  | _ => none

/-- The trader whose command is executed. -/
def parsing : Act T → Option Int
  | .parse ind _ _ => some ind
  | _ => none

/-- The act is none of the loop over `SIGUSR1` but messages, and nothing is freed. -/
def aside : Act T → Bool
  | .read _ => false
  | .strip _ => false
  | .parse _ _ _ => false
  | .freeAll => false
  | _ => true

/-- The exchange is changed. -/
def changing : Act T → Bool
  | .parse _ _ _ => true
  | .died _ => true
  | _ => false

theorem aside_spec {act : Act T} (h : act.aside = true) :
    act.Proper ∧ act.reading = none ∧ act.parsing = none ∧ act ≠ .freeAll := by
  cases act with
  | read => cases h
  | strip => cases h
  | parse => cases h
  | freeAll => cases h
  | _ => exact ⟨trivial, rfl, rfl, nofun⟩

/-- What an act does to the exchange. -/
def exec (A : Arith) (vp : ValidProducts P) (s : Exchange P T) :
    Act T → Except Fault (Exchange P T)
  | .parse ind _ msg => s.parseMsg A vp msg ind
  | .died i => .ok (s.traderDied i)
  | _ => .ok s

end Act

/-- The exchange after these acts. -/
def Exchange.execAll (A : Arith) (vp : ValidProducts P) (s : Exchange P T) (acts : List (Act T)) :
    Except Fault (Exchange P T) :=
  acts.foldlM (Act.exec A vp) s

theorem Exchange.execAll_append {s s' : Exchange P T} {acts : List (Act T)}
    (h : s.execAll A vp acts = .ok s') (acts' : List (Act T)) :
    s.execAll A vp (acts ++ acts') = s'.execAll A vp acts' := by
  unfold execAll at h ⊢
  rw [List.foldlM_append, h]
  rfl

/-- Acts that are no commands and no disconnections leave the exchange as it is. -/
theorem Exchange.execAll_still {acts : List (Act T)} (h : ∀ act ∈ acts, act.changing = false)
    (s : Exchange P T) : s.execAll A vp acts = .ok s := by
  induction acts with
  | nil => rfl
  | cons act acts ih =>
    have hact := h act List.mem_cons_self
    have hone : act.exec A vp s = .ok s := by
      cases act with
      | parse => cases hact
      | died => cases hact
      | _ => rfl
    unfold execAll at ih ⊢
    rw [List.foldlM_cons, hone]
    exact ih fun act' h' => h act' (List.mem_cons_of_mem _ h')

namespace MainState

variable {s s' s'' : MainState P T} {a : MainAction T}

/-- The trader whose command is being read. -/
def pending (s : MainState P T) : List Int :=
  match s.loc with
  | .reading ind => [(ind : Int)]
  | _ => []

/-- The exchange has been used as it should be. A process ended by `SIGPIPE` has
left its last command unfinished. -/
structure Sound (A : Arith) (vp : ValidProducts P) (s : MainState P T) : Prop where
  /-- The program has kept a meaning. -/
  defined : s.loc ≠ .undefined
  proper : ∀ act ∈ s.log, act.Proper
  /-- Nothing is done after `free_all`. -/
  freed : s.log.Pairwise fun act _ => act ≠ .freeAll
  /-- After each reading of a pipe one command of that trader is executed. -/
  served : s.loc ≠ .killed →
    s.log.filterMap Act.reading = s.log.filterMap Act.parsing ++ s.pending
  /-- The commands and disconnections recorded have made the exchange what it is. -/
  executed : s.loc ≠ .killed → PeExchange.initial.execAll A vp s.log = .ok s.exchange

/-- What holds between two steps. -/
structure Steady (A : Arith) (vp : ValidProducts P) (s : MainState P T) : Prop where
  sound : s.Sound A vp
  running : s.Running → .freeAll ∉ s.log

theorem pending_reading {ind : Fin T} (hloc : s.loc = .reading ind) :
    s.pending = [(ind : Int)] := by
  unfold pending
  rw [hloc]

/-- Outside of `process_msg` no command is being read. -/
theorem pending_eq_nil (hloc : ∀ ind, s.loc ≠ .reading ind) : s.pending = [] := by
  unfold pending
  split
  · rename_i ind hreading
    exact absurd hreading (hloc ind)
  · rfl

theorem pending_congr (hloc : s'.loc = s.loc) : s'.pending = s.pending := by
  unfold pending
  rw [hloc]

theorem Running.loc_ne (h : s.Running) : s.loc ≠ .killed ∧ s.loc ≠ .undefined := by
  unfold Running at h
  constructor <;> intro heq <;> rw [heq] at h <;> exact h

/-- From `s` to `s'` no pipe is read, no command executed and nothing freed. -/
def Aside (A : Arith) (vp : ValidProducts P) (s s' : MainState P T) : Prop :=
  ∃ acts, s'.log = s.log ++ acts ∧ (∀ act ∈ acts, act.aside = true) ∧
    s.exchange.execAll A vp acts = .ok s'.exchange

theorem aside_of_eq (hlog : s'.log = s.log) (hexchange : s'.exchange = s.exchange) :
    Aside A vp s s' :=
  ⟨[], by rw [hlog, List.append_nil], nofun, by rw [hexchange]; rfl⟩

theorem Aside.trans (h : Aside A vp s s') (h' : Aside A vp s' s'') : Aside A vp s s'' := by
  obtain ⟨acts, hlog, hacts, hexec⟩ := h
  obtain ⟨acts', hlog', hacts', hexec'⟩ := h'
  refine ⟨acts ++ acts', ?_, List.forall_mem_append.mpr ⟨hacts, hacts'⟩, ?_⟩
  · rw [hlog', hlog, List.append_assoc]
  · rw [Exchange.execAll_append hexec, hexec']

/-- What a step has to see to when it adds `acts` to the record. -/
theorem Steady.extend (h : s.Steady A vp) (hrun : s.Running) {acts : List (Act T)}
    (hlog : s'.log = s.log ++ acts) (hdefined : s'.loc ≠ .undefined)
    (hproper : ∀ act ∈ acts, act.Proper) (hfreed : acts.Pairwise fun act _ => act ≠ .freeAll)
    (hrunning : s'.Running → .freeAll ∉ acts)
    (hserved : s'.loc ≠ .killed →
      s.pending ++ acts.filterMap Act.reading = acts.filterMap Act.parsing ++ s'.pending)
    (hexecuted : s'.loc ≠ .killed → s.exchange.execAll A vp acts = .ok s'.exchange) :
    s'.Steady A vp := by
  have hfree := h.running hrun
  refine ⟨⟨hdefined, ?_, ?_, fun hloc => ?_, fun hloc => ?_⟩, fun hrun' => ?_⟩ <;> rw [hlog]
  · exact List.forall_mem_append.mpr ⟨h.sound.proper, hproper⟩
  · exact List.pairwise_append.mpr ⟨h.sound.freed, hfreed, fun act hact _ _ heq =>
      hfree (heq ▸ hact)⟩
  · rw [List.filterMap_append, List.filterMap_append, h.sound.served hrun.loc_ne.1,
      List.append_assoc, hserved hloc, List.append_assoc]
  · rw [Exchange.execAll_append (h.sound.executed hrun.loc_ne.1), hexecuted hloc]
  · exact fun hmem => (List.mem_append.mp hmem).elim hfree (hrunning hrun')

/-- Acts aside from the loop ask for nothing and answer nothing. -/
theorem filterMap_aside {acts : List (Act T)} (h : ∀ act ∈ acts, act.aside = true) :
    acts.filterMap Act.reading = [] ∧ acts.filterMap Act.parsing = [] :=
  ⟨List.filterMap_eq_nil_iff.mpr fun act hact => (Act.aside_spec (h act hact)).2.1,
    List.filterMap_eq_nil_iff.mpr fun act hact => (Act.aside_spec (h act hact)).2.2.1⟩

/-- Such a piece of the program keeps what was. -/
theorem Steady.aside (h : s.Steady A vp) (hrun : s.Running) (ha : Aside A vp s s')
    (hdefined : s'.loc ≠ .undefined) (hpending : s'.pending = s.pending) :
    s'.Steady A vp := by
  obtain ⟨acts, hlog, hacts, hexec⟩ := ha
  have hfree : ∀ act ∈ acts, act ≠ .freeAll :=
    fun act hact => (Act.aside_spec (hacts act hact)).2.2.2
  obtain ⟨hreading, hparsing⟩ := filterMap_aside hacts
  refine h.extend hrun hlog hdefined (fun act hact => (Act.aside_spec (hacts act hact)).1)
    (List.pairwise_of_forall_mem_list fun act hact _ _ => hfree act hact)
    (fun _ hmem => hfree _ hmem rfl) (fun _ => ?_) fun _ => hexec
  rw [hreading, hparsing, hpending, List.append_nil, List.nil_append]

/-- The program frees everything and ends. -/
theorem Steady.exits (h : s.Steady A vp) (hrun : s.Running) (hpending : s.pending = [])
    {acts : List (Act T)} (hacts : ∀ act ∈ acts, act.aside = true ∧ act.changing = false)
    (hlog : s'.log = s.log ++ (acts ++ [.freeAll])) (hexchange : s'.exchange = s.exchange)
    {status : Nat} (hloc : s'.loc = .exited status) : s'.Steady A vp := by
  have haside : ∀ act ∈ acts, act.aside = true := fun act hact => (hacts act hact).1
  have hfree : ∀ act ∈ acts, act ≠ .freeAll :=
    fun act hact => (Act.aside_spec (haside act hact)).2.2.2
  obtain ⟨hreading, hparsing⟩ := filterMap_aside haside
  have hpending' : s'.pending = [] := pending_eq_nil (by rw [hloc]; nofun)
  refine h.extend hrun hlog (by rw [hloc]; nofun) ?_ ?_ (fun hrunning => ?_) (fun _ => ?_)
    fun _ => ?_
  · exact List.forall_mem_append.mpr ⟨fun act hact => (Act.aside_spec (haside act hact)).1,
      List.forall_mem_singleton.mpr trivial⟩
  · exact List.pairwise_append.mpr
      ⟨List.pairwise_of_forall_mem_list fun act hact _ _ => hfree act hact,
        List.pairwise_singleton _ _, fun act hact _ _ => hfree act hact⟩
  · unfold Running at hrunning
    rw [hloc] at hrunning
    exact hrunning.elim
  · rw [List.filterMap_append, List.filterMap_append, hreading, hparsing, hpending, hpending']
    rfl
  · rw [hexchange]
    exact Exchange.execAll_still (List.forall_mem_append.mpr
      ⟨fun act hact => (hacts act hact).2, List.forall_mem_singleton.mpr rfl⟩) _

/-- The test of `num_active` reads and parses nothing. -/
theorem Steady.checkActive (h : s.Steady A vp) (hrun : s.Running) (hpending : s.pending = [])
    {loc : MainLoc T} (hdefined : loc ≠ .undefined) (hgo : (s.goto loc).pending = []) :
    (s.checkActive loc).Steady A vp := by
  unfold MainState.checkActive
  split
  · exact @Steady.exits _ _ _ _ _ _ h hrun hpending [.allDied] (by simp [Act.aside, Act.changing])
      rfl rfl _ rfl
  · exact h.aside hrun (aside_of_eq rfl rfl) hdefined (hgo.trans hpending.symm)

theorem Steady.checkErrno (h : s.Steady A vp) (hrun : s.Running) (hpending : s.pending = []) :
    s.checkErrno.Steady A vp := by
  unfold MainState.checkErrno
  split
  · exact h.aside hrun (aside_of_eq rfl rfl) nofun hpending.symm
  · exact @Steady.exits _ _ _ _ _ _ h hrun hpending [] nofun rfl rfl _ rfl

theorem aside_reapFrom (pid : Int) (is : List (Fin T)) :
    ∀ s : MainState P T, Aside A vp s (reapFrom pids pid s is) ∧
      (reapFrom pids pid s is).loc = s.loc := by
  induction is with
  | nil => exact fun s => ⟨aside_of_eq rfl rfl, rfl⟩
  | cons i is ih =>
    intro s
    unfold reapFrom
    split
    · obtain ⟨haside, hloc⟩ := ih (s.disconnect i)
      have hdied : Aside A vp s (s.disconnect i) :=
        ⟨[.died i], rfl, by simp [Act.aside], rfl⟩
      exact ⟨hdied.trans haside, hloc⟩
    · exact ih s

/-! ## Commands -/

/-- The step takes the signal of a trader, and `process_msg` reads one command and
no more: one that `msg` has room for, that is not a lone `;`, has no `NUL` and no
product name too long for `create_order`. -/
def Clean (pids : Fin T → Int) (s : MainState P T) : MainAction T → Prop
  | .next => s.loc = .sigusr → 0 < s.signals.sigusr.len → ∀ pid,
      s.signals.sigusr.peek = some pid → findTrader pids pid ≠ none
  | .serve reads _ =>
    ∃ c, Command c ∧ c ≠ [';'] ∧ '\x00' ∉ c ∧ ¬Exchange.Overlong c ∧ reads = c.map .byte
  | _ => True

/-- The program goes on after a command that it has executed. -/
theorem execute_running {ind : Fin T} {reads : List ReadResult} {ret : Nat} {text : List Char}
    (h : (s.execute A vp ind reads ret text).Running) :
    ¬(ret = 1 ∨ ret = 0) ∧ ∃ exchange, s.exchange.parseMsg A vp text ind = .ok exchange ∧
      s.execute A vp ind reads ret text =
        { (s.record (.strip (text.length - 1) :: .parse ind reads text ::
          sent (exchange.out.drop s.exchange.out.length))).goto .sigusr with
          exchange := exchange } := by
  unfold execute at h ⊢
  split at h
  · exact h.elim
  rename_i hret
  split at h
  · exact h.elim
  rename_i htext
  split at h
  · exact h.elim
  rename_i exchange hok
  refine ⟨hret, exchange, hok, ?_⟩
  rw [if_neg hret, if_neg htext]

/-- What `main` does with a whole command. -/
theorem execute_command {c : List Char} (hc : Command c) (hsemi : c ≠ [';'])
    (hlong : ¬Exchange.Overlong c) (A : Arith) (vp : ValidProducts P) (ind : Fin T)
    (reads : List ReadResult) :
    ∃ exchange, s.exchange.parseMsg A vp c ind = .ok exchange ∧
      s.execute A vp ind reads c.length c =
        { (s.record (.strip (c.length - 1) :: .parse ind reads c ::
          sent (exchange.out.drop s.exchange.out.length))).goto .sigusr with
          exchange := exchange } := by
  have hpos := hc.1.length_pos
  have hone : c.length ≠ 1 := fun h => hsemi (hc.1.length_eq_one.mp h)
  have hlen : c.length < maxLine := Nat.lt_succ_of_le hc.2
  have hdefined : ∃ exchange, s.exchange.parseMsg A vp c ind = .ok exchange :=
    (Exchange.parseMsg_ok_iff hlen).mpr hlong
  obtain ⟨exchange, hok⟩ := hdefined
  refine ⟨exchange, hok, ?_⟩
  unfold execute
  rw [if_neg (by omega), if_neg (List.ne_nil_of_length_pos hpos), hok]

/-- The acts of a command. -/
theorem command_acts {c : List Char} (hc : Command c) (ind : Fin T) (ms : List (Fin T × Msg)) :
    ∀ act ∈ .strip (c.length - 1) :: .parse ind (c.map .byte) c ::
      ms.map fun m => Act.message m.1 m.2, act.Proper ∧ act ≠ .freeAll := by
  have hpos := hc.1.length_pos
  refine List.forall_mem_cons.mpr ⟨⟨by show (0 : Int) ≤ c.length - 1; omega, nofun⟩, ?_⟩
  exact List.forall_mem_cons.mpr ⟨⟨⟨hc.1, rfl⟩, nofun⟩,
    List.forall_mem_map.mpr fun m _ => ⟨trivial, nofun⟩⟩

/-- A command leaves the loop ready for the next one. -/
theorem Steady.execute (h : s.Steady A vp) {ind : Fin T} (hloc : s.loc = .reading ind)
    {c : List Char} (hc : Command c) (hsemi : c ≠ [';']) (hlong : ¬Exchange.Overlong c) :
    (s.execute A vp ind (c.map .byte) c.length c).Steady A vp := by
  obtain ⟨exchange, hok, heq⟩ := execute_command (s := s) hc hsemi hlong A vp ind (c.map .byte)
  have hpending := pending_reading hloc
  have hrun : s.Running := by
    unfold Running
    rw [hloc]
    trivial
  have hacts := command_acts hc ind (messages (exchange.out.drop s.exchange.out.length))
  have hmessages : ∀ act ∈ (messages (exchange.out.drop s.exchange.out.length)).map
      fun m => Act.message m.1 m.2, act.aside = true := List.forall_mem_map.mpr fun _ _ => rfl
  have hstill : ∀ act ∈ (messages (exchange.out.drop s.exchange.out.length)).map
      fun m => Act.message m.1 m.2, act.changing = false := List.forall_mem_map.mpr fun _ _ => rfl
  obtain ⟨hreading, hparsing⟩ := filterMap_aside hmessages
  rw [heq, sent_eq]
  refine h.extend hrun rfl nofun (fun act hact => (hacts act hact).1)
    (List.pairwise_of_forall_mem_list fun act hact _ _ => (hacts act hact).2)
    (fun _ hmem => (hacts _ hmem).2 rfl) (fun _ => ?_) fun _ => ?_
  · rw [hpending]
    show [(ind : Int)] ++ List.filterMap Act.reading (List.map _ _) =
      (ind : Int) :: List.filterMap Act.parsing (List.map _ _) ++ []
    rw [hreading, hparsing]
  · show ((s.exchange.parseMsg A vp c ind).bind fun s' => s'.execAll A vp (List.map _ _)) = _
    rw [hok]
    exact Exchange.execAll_still hstill exchange

theorem Steady.call (h : s.Steady A vp) (calls : List (Option Errno)) :
    (s.call calls).Steady A vp :=
  ⟨⟨h.sound.defined, h.sound.proper, h.sound.freed, h.sound.served, h.sound.executed⟩, h.running⟩

/-- One thing is done aside from the loop. -/
theorem Steady.one (h : s.Steady A vp) (hrun : s.Running) {act : Act T}
    (haside : act.aside = true) (hexec : act.exec A vp s.exchange = .ok s'.exchange)
    (hlog : s'.log = s.log ++ [act]) (hloc : s'.loc = s.loc) : s'.Steady A vp := by
  have hall : s.exchange.execAll A vp [act] = .ok s'.exchange := by
    unfold Exchange.execAll
    rw [List.foldlM_cons, hexec]
    rfl
  refine h.aside hrun ⟨[act], hlog, List.forall_mem_singleton.mpr haside, hall⟩
    (hloc ▸ hrun.loc_ne.2) (pending_congr hloc)

theorem steady_initial : (initial : MainState P T).Steady A vp :=
  ⟨⟨nofun, nofun, List.Pairwise.nil, fun _ => rfl, fun _ => rfl⟩, fun _ => List.not_mem_nil⟩

theorem Steady.handled (h : s.Steady A vp) (hrun : s.Running) (hlog : s'.log = s.log)
    (hexchange : s'.exchange = s.exchange) (hloc : s'.loc = s.loc) : s'.handled.Steady A vp := by
  have hpending := pending_congr hloc
  unfold MainState.handled
  split
  · rename_i hpausing
    have hnone : s'.pending = [] := pending_eq_nil (by rw [hpausing]; nofun)
    exact h.aside hrun (aside_of_eq hlog hexchange) nofun (hnone.symm.trans hpending)
  · exact h.aside hrun (aside_of_eq hlog hexchange) (hloc ▸ hrun.loc_ne.2) hpending

/-- The loop goes from one place to the next. -/
theorem Steady.onward (h : s.Steady A vp) (hrun : s.Running)
    (hloc : ∀ ind, s.loc ≠ .reading ind) (hlog : s'.log = s.log)
    (hexchange : s'.exchange = s.exchange) (hdefined : s'.loc ≠ .undefined)
    (hpending : s'.pending = []) : s'.Steady A vp :=
  h.aside hrun (aside_of_eq hlog hexchange) hdefined (hpending.trans (pending_eq_nil hloc).symm)

/-- The exit of a process is dealt with. -/
theorem Steady.reaped (h : s.Steady A vp) (hrun : s.Running) (hloc : ∀ ind, s.loc ≠ .reading ind)
    (pid : Int) (calls : List (Option Errno)) :
    ((reapFrom pids pid { s with signals := s.signals.popSigchld }
      (List.finRange T)).call calls |>.checkActive .sigchld).Steady A vp := by
  have hpop : Aside A vp s { s with signals := s.signals.popSigchld } := aside_of_eq rfl rfl
  obtain ⟨haside, hloc'⟩ := @aside_reapFrom _ _ A vp pids pid (List.finRange T)
    { s with signals := s.signals.popSigchld }
  have hsame := pending_congr hloc'
  have hreaped := h.aside hrun (hpop.trans haside) (by rw [hloc']; exact hrun.loc_ne.2) hsame
  have hrun' : (reapFrom pids pid { s with signals := s.signals.popSigchld }
      (List.finRange T)).Running := by
    unfold Running
    rw [hloc']
    exact hrun
  exact (hreaped.call calls).checkActive hrun' (hsame.trans (pending_eq_nil hloc)) nofun rfl

/-- `SIGPIPE` ends the process in the middle of a command. -/
theorem Steady.killed (h : s.Steady A vp) (hrun : s.Running) {c : List Char} (hc : Command c)
    (hsemi : c ≠ [';']) (hlong : ¬Exchange.Overlong c) {ind : Fin T} {acts : List (Act T)}
    (hacts : s.log ++ acts <+: (s.execute A vp ind (c.map .byte) c.length c).log) :
    ((s.record (acts ++ [.sigpipe])).goto .killed).Steady A vp := by
  obtain ⟨exchange, -, heq⟩ := execute_command (s := s) hc hsemi hlong A vp ind (c.map .byte)
  have hrecords : Records (fun act => act.Proper ∧ act ≠ .freeAll) s
      (s.execute A vp ind (c.map .byte) c.length c) := by
    rw [heq, sent_eq]
    exact ⟨_, rfl, command_acts hc ind _⟩
  have hall : ∀ act ∈ acts ++ [Act.sigpipe], act.Proper ∧ act ≠ .freeAll :=
    List.forall_mem_append.mpr ⟨hrecords.killed hacts,
      List.forall_mem_singleton.mpr ⟨trivial, nofun⟩⟩
  exact h.extend hrun rfl nofun (fun act hact => (hall act hact).1)
    (List.pairwise_of_forall_mem_list fun act hact _ _ => (hall act hact).2)
    (fun h => h.elim) (fun h => absurd rfl h) fun h => absurd rfl h

end MainState

open MainState

variable {s s' : MainState P T} {a : MainAction T}

/-- **The step lemma.** -/
theorem MainStep.steady (h : MainStep A vp pids s a s') (hs : s.Steady A vp)
    (hclean : s.Clean pids a) : s'.Steady A vp := by
  have hrun := h.running
  have hat : ∀ {loc}, s.loc = loc → (∀ ind, loc ≠ .reading ind) → ∀ ind, s.loc ≠ .reading ind :=
    fun hloc hne => hloc ▸ hne
  cases h with
  | sigusrHandler => exact hs.handled hrun rfl rfl rfl
  | sigchldHandler => exact hs.handled hrun rfl rfl rfl
  | pause hloc => exact hs.onward hrun (hat hloc nofun) rfl rfl nofun rfl
  | resume hloc => exact hs.onward hrun (hat hloc nofun) rfl rfl nofun rfl
  | @take pid ind hloc =>
    refine hs.extend hrun rfl nofun (List.forall_mem_singleton.mpr ?_)
      (List.pairwise_singleton _ _) (fun _ hmem => ?_) (fun _ => ?_) fun _ => rfl
    · exact ⟨Int.natCast_nonneg _, Int.ofNat_lt.mpr ind.isLt⟩
    · cases List.mem_singleton.mp hmem
    · rw [pending_eq_nil (hat hloc nofun)]
      rfl
  | takeUnknown hloc hlen hpid hind => exact absurd hind (hclean hloc hlen _ hpid)
  | @serve ind reads ret msg calls hloc hmsg =>
    obtain ⟨c, hc, hsemi, hnul, hlong, rfl⟩ := hclean
    rw [processMsg_command hc] at hmsg
    obtain ⟨rfl, rfl, -⟩ := Received.returned.inj hmsg
    rw [cString_buffer, cString_eq_self.mpr hnul]
    exact (hs.execute hloc hc hsemi hlong).call calls
  | overrun hloc hmsg =>
    obtain ⟨c, hc, -, -, -, rfl⟩ := hclean
    rw [processMsg_command hc] at hmsg
    cases hmsg
  | noSigusr hloc => exact hs.onward hrun (hat hloc nofun) rfl rfl nofun rfl
  | reap hloc => exact hs.reaped hrun (hat hloc nofun) _ _
  | noSigchld hloc => exact hs.onward hrun (hat hloc nofun) rfl rfl nofun rfl
  | @timeout hloc =>
    have hone : (s.record [.timedOut s.lastError]).Steady A vp := hs.one hrun rfl rfl rfl rfl
    exact hone.checkErrno hrun (pending_eq_nil (hat hloc nofun))
  | @pollFailed e hloc =>
    have hone : ((s.call [some e]).record [.pollFailed e]).Steady A vp :=
      hs.one hrun rfl rfl rfl rfl
    exact hone.checkErrno hrun (pending_eq_nil (hat hloc nofun))
  | pollInterrupted hloc =>
    have hone : (s.interrupted.record [.pollFailed .eintr]).Steady A vp :=
      hs.one hrun rfl rfl rfl rfl
    exact hone.checkErrno hrun (pending_eq_nil (hat hloc nofun))
  | @hup ind calls hloc =>
    have hone : ((s.disconnect ind).call calls).Steady A vp := hs.one hrun rfl rfl rfl rfl
    exact hone.checkActive hrun (pending_eq_nil (hat hloc nofun)) nofun rfl
  | hupDead hloc => exact hs.onward hrun (hat hloc nofun) rfl rfl nofun rfl
  | @sigpipe ind reads ret msg calls acts hloc hmsg _ hacts =>
    obtain ⟨c, hc, hsemi, hnul, hlong, rfl⟩ := hclean
    rw [processMsg_command hc] at hmsg
    obtain ⟨rfl, rfl, -⟩ := Received.returned.inj hmsg
    rw [cString_buffer, cString_eq_self.mpr hnul] at hacts
    exact hs.killed hrun hc hsemi hlong hacts

/-- What `process_msg` must have read when the exchange is used as it should be. -/
theorem clean_of_execute {ind : Fin T} {reads : List ReadResult} {ret : Nat} {msg : List Char}
    {calls : List (Option Errno)} (hmsg : processMsg reads = .returned ret msg [])
    (hs : ((s.execute A vp ind reads ret (cString msg)).call calls).Sound A vp) :
    s.Clean pids (.serve reads calls) := by
  have hdefined := hs.defined
  have hproper := hs.proper
  unfold execute at hdefined hproper
  split at hdefined
  · exact absurd rfl hdefined
  rename_i hret
  rw [if_neg hret] at hproper
  split at hdefined
  · exact absurd rfl hdefined
  rename_i htext
  rw [if_neg htext] at hproper
  split at hdefined
  · exact absurd rfl hdefined
  rename_i exchange hok
  rw [hok] at hproper
  obtain ⟨hwhole, hreads⟩ : Whole (cString msg) reads := hproper (.parse ind reads (cString msg))
    (by simp [MainState.call, MainState.record, MainState.goto])
  have hc : Command (cString msg) := command_of_returned hwhole (hreads ▸ hmsg)
  have hsemi : cString msg ≠ [';'] := by
    intro hsemi
    rw [hreads, processMsg_command hc] at hmsg
    obtain ⟨rfl, -, -⟩ := Received.returned.inj hmsg
    exact hret (.inl (hc.1.length_eq_one.mpr hsemi))
  have hlen : (cString msg).length < maxLine := Nat.lt_succ_of_le hc.2
  exact ⟨cString msg, hc, hsemi, nul_not_mem_cString msg,
    (Exchange.parseMsg_ok_iff hlen).mp ⟨exchange, hok⟩, hreads⟩

/-- A step that does not meet the condition is the end of proper use, unless the
process ends with it. -/
theorem MainStep.clean (h : MainStep A vp pids s a s') (hs : s'.Sound A vp)
    (hloc : s'.loc ≠ .killed) : s.Clean pids a := by
  cases h with
  | serve _ hmsg => exact clean_of_execute hmsg hs
  | overrun => exact absurd rfl hs.defined
  | sigpipe => exact absurd rfl hloc
  | takeUnknown => exact absurd rfl hs.defined
  | take _ _ hpid hind =>
    intro _ _ pid hpid'
    obtain rfl := Option.some.inj (hpid.symm.trans hpid')
    rw [hind]
    nofun
  | pause h => exact fun hsigusr => nomatch h.symm.trans hsigusr
  | resume h => exact fun hsigusr => nomatch h.symm.trans hsigusr
  | noSigusr _ hnone => exact fun _ hlen => absurd hlen hnone
  | noSigchld h => exact fun hsigusr => nomatch h.symm.trans hsigusr
  | _ => trivial

/-- The steps that meet the condition. -/
def CleanStep (A : Arith) (vp : ValidProducts P) (pids : Fin T → Int) (s : MainState P T)
    (a : MainAction T) (s' : MainState P T) : Prop :=
  MainStep A vp pids s a s' ∧ s.Clean pids a

/-- **The exchange is used as it should be** in every run in which signals come
from traders and every call of `process_msg` finds one proper command; any other step,
unless the process ends with it, is the end of proper use. -/
theorem sound_of_clean (h : Transition.Reachable (CleanStep A vp pids) .initial s) :
    s.Sound A vp ∧ ∀ a s', MainStep A vp pids s a s' → s'.loc ≠ .killed →
      (s'.Sound A vp ↔ s.Clean pids a) := by
  have hsteady : s.Steady A vp :=
    Transition.Reachable.invariant steady_initial
      (fun _ _ _ _ hs hstep => hstep.1.steady hs hstep.2) h
  exact ⟨hsteady.sound, fun a s' hstep hloc =>
    ⟨fun hs => hstep.clean hs hloc, fun hclean => (hstep.steady hsteady hclean).sound⟩⟩

/-- A command of trader 1 is read and executed. -/
theorem sound_of_clean_command : ∃ s : MainState 2 2, s.Sound .machine testProducts ∧
    .parse 1 ("CANCEL 0;".toList.map .byte) "CANCEL 0;".toList ∈ s.log := by
  have hpaused : Transition.Reachable (CleanStep .machine testProducts testPids)
      .initial ((MainState.initial : MainState 2 2).goto .pausing) :=
    Transition.Reachable.init.step ⟨.pause rfl rfl, nofun⟩
  have hwoken := hpaused.step ⟨@MainStep.sigusrHandler _ _ _ _ _ _ 101 trivial, trivial⟩
  have htaken := hwoken.step ⟨@MainStep.take _ _ _ _ _ _ 101 1 rfl (by decide) rfl (by decide),
    fun _ _ pid hpid => by cases hpid; decide⟩
  have hcommand : Command "CANCEL 0;".toList :=
    ⟨⟨"CANCEL 0".toList, by decide, by decide⟩, by decide⟩
  have hlong : ¬Exchange.Overlong "CANCEL 0;".toList :=
    fun ⟨_, _, _, _, _, hspace, _⟩ => absurd hspace (by decide)
  have hserved := htaken.step ⟨@MainStep.serve _ _ _ _ _ _ 1 ("CANCEL 0;".toList.map .byte) 9 _ []
    rfl (processMsg_command hcommand) List.not_mem_nil,
    "CANCEL 0;".toList, hcommand, by decide, by decide, hlong, rfl⟩
  refine ⟨_, (sound_of_clean hserved).1, List.mem_append_right _ (List.mem_cons_of_mem _ ?_)⟩
  exact List.mem_cons_self

/-- Trader 1 signals its command twice (pe_trader.c:158–173) and closes its pipe:
`free_all` is called, and a string of length 0 stripped. -/
theorem not_always_sound : ¬∀ s, MainReachable .machine testProducts testPids s →
    s.Sound .machine testProducts := by
  intro hclaim
  have hpaused : MainReachable .machine testProducts testPids
      (MainState.initial.goto .pausing) := Transition.Reachable.init.step (.pause rfl rfl)
  have hwoken := hpaused.step (@MainStep.sigusrHandler _ _ _ _ _ _ 101 trivial)
  have hagain := hwoken.step (@MainStep.sigusrHandler _ _ _ _ _ _ 101 trivial)
  have htaken := hagain.step (@MainStep.take _ _ _ _ _ _ 101 1 rfl (by decide) rfl (by decide))
  have hserved := htaken.step (@MainStep.serve _ _ _ _ _ _ 1 [.byte 'X', .byte ';'] 2 _ [] rfl
    rfl List.not_mem_nil)
  have hsecond := hserved.step (@MainStep.take _ _ _ _ _ _ 101 1 rfl (by decide +kernel)
    (by decide +kernel) (by decide))
  have hended := hsecond.step (@MainStep.serve _ _ _ _ _ _ 1 [.closed] 0 _ [] rfl rfl
    List.not_mem_nil)
  have hstrip : (0 : Int) ≤ -1 := (hclaim _ hended).proper (.strip (-1))
    (List.mem_append_right _ (List.mem_cons_of_mem _ List.mem_cons_self))
  exact absurd hstrip (by decide)

end PeExchange
