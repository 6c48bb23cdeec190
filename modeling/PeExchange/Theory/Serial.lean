import PeExchange.Theory.Leaving
import PeExchange.Theory.MarketRefinement

/-!
# One history

Traders write commands and send signals at any time, as other processes do, handlers run
between any two steps of the event loop, and the loop reads now one pipe and now another.
However they interleave, `one_history` says what comes of it:

- a history of commands and disconnections, with the first commands each trader
  wrote, in the order in which it wrote them;
- the exchange that history makes, and a market that did one deed for each command;
- what was written to the traders' pipes answers these deeds, in that order.

`executed_of_idle` adds how far the commands of a trader have got when no signal is
lost: as far as its signals, once none of them is under way.
-/

namespace PeExchange

open Exchange

variable {P T : Nat} {A : Arith} {vp : ValidProducts P} {pids : Fin T → Int}

/-! ## What the record tells -/

/-- What an act does to the exchange, as a transition of it. -/
def Act.action : Act T → Option (Action T)
  | .parse ind _ msg => some (.command ind msg)
  | .died i => some (.died i)
  | _ => none

/-- The message that is written. -/
def Act.told : Act T → Option (Fin T × Msg)
  | .message dest msg => some (dest, msg)
  | _ => none

/-- The history of the exchange. -/
def historyOf (log : List (Act T)) : List (Action T) :=
  log.filterMap Act.action

/-- What was written to the traders since `MARKET OPEN`. -/
def toldOf (log : List (Act T)) : List (Fin T × Msg) :=
  log.filterMap Act.told

/-- The text of a command of trader `i`. -/
def Action.textOf (i : Fin T) : Action T → Option (List Char)
  | .command ind msg => if ind = i then some msg else none
  | .died _ => none

/-- The commands of a trader in the history are those executed. -/
theorem textOf_historyOf (log : List (Act T)) (i : Fin T) :
    (historyOf log).filterMap (Action.textOf i) = executedOf log i := by
  unfold historyOf executedOf
  rw [List.filterMap_filterMap]
  refine List.filterMap_congr fun act _ => ?_
  cases act <;> rfl

theorem historyOf_append (log acts : List (Act T)) :
    historyOf (log ++ acts) = historyOf log ++ historyOf acts :=
  List.filterMap_append

theorem toldOf_append (log acts : List (Act T)) :
    toldOf (log ++ acts) = toldOf log ++ toldOf acts :=
  List.filterMap_append

/-! ## Between two commands -/

namespace MainState

variable {s s' s'' : MainState P T}

/-- From `s` to `s'` no command is executed and nothing is written to a trader; the
exchange is as the record says. -/
def Between (A : Arith) (vp : ValidProducts P) (s s' : MainState P T) : Prop :=
  ∃ acts, s'.log = s.log ++ acts ∧ (∀ act ∈ acts, act.parsing = none ∧ act.told = none) ∧
    Transition.Run (Step A vp) s.exchange (historyOf acts) s'.exchange ∧
    s'.exchange.out = s.exchange.out

theorem between_of_eq (hlog : s'.log = s.log) (hexchange : s'.exchange = s.exchange) :
    Between A vp s s' :=
  ⟨[], by rw [hlog, List.append_nil], nofun, by rw [hexchange]; exact .nil, by rw [hexchange]⟩

theorem Between.trans (h : Between A vp s s') (h' : Between A vp s' s'') :
    Between A vp s s'' := by
  obtain ⟨acts, hlog, hacts, hrun, hout⟩ := h
  obtain ⟨acts', hlog', hacts', hrun', hout'⟩ := h'
  refine ⟨acts ++ acts', ?_, List.forall_mem_append.mpr ⟨hacts, hacts'⟩, ?_, hout'.trans hout⟩
  · rw [hlog', hlog, List.append_assoc]
  · rw [historyOf_append]
    exact hrun.append hrun'

/-- Something is recorded that concerns neither the exchange nor its messages. -/
theorem between_record (acts : List (Act T)) (hlog : s'.log = s.log ++ acts)
    (hexchange : s'.exchange = s.exchange)
    (hacts : ∀ act ∈ acts, act.action = none ∧ act.parsing = none ∧ act.told = none) :
    Between A vp s s' := by
  have hnone : historyOf acts = [] :=
    List.filterMap_eq_nil_iff.mpr fun act hact => (hacts act hact).1
  refine ⟨acts, hlog, fun act hact => (hacts act hact).2, ?_, by rw [hexchange]⟩
  rw [hnone, hexchange]
  exact .nil

theorem between_disconnect (i : Fin T) : Between A vp s (s.disconnect i) :=
  ⟨[.died i], rfl, List.forall_mem_singleton.mpr ⟨rfl, rfl⟩, .snoc .nil .died, rfl⟩

theorem between_reapFrom (pids : Fin T → Int) (pid : Int) (is : List (Fin T)) :
    ∀ s : MainState P T, Between A vp s (reapFrom pids pid s is) := by
  induction is with
  | nil => exact fun s => between_of_eq rfl rfl
  | cons i is ih =>
    intro s
    unfold reapFrom
    split
    · exact (between_disconnect i).trans (ih (s.disconnect i))
    · exact ih s

theorem between_call (s : MainState P T) (calls : List (Option Errno)) :
    Between A vp s (s.call calls) :=
  between_of_eq rfl rfl

theorem between_handled : Between A vp s s.handled := by
  obtain ⟨-, hexchange, hlog⟩ := handled_fields s
  exact between_of_eq hlog hexchange

theorem between_checkActive (loc : MainLoc T) : Between A vp s (s.checkActive loc) := by
  unfold checkActive
  split
  · exact between_record [.allDied, .freeAll] rfl rfl
      (by simp [Act.action, Act.parsing, Act.told])
  · exact between_of_eq rfl rfl

theorem between_checkErrno : Between A vp s s.checkErrno := by
  unfold checkErrno
  split
  · exact between_of_eq rfl rfl
  · exact between_record [.freeAll] rfl rfl
      (by simp [Act.action, Act.parsing, Act.told])

/-- A command is executed, or the program loses its meaning. -/
theorem execute_defined {ind : Fin T} {reads : List ReadResult} {ret : Nat} {text : List Char}
    (h : (s.execute A vp ind reads ret text).loc ≠ .undefined) :
    (s.execute A vp ind reads ret text).Running := by
  unfold execute at h ⊢
  split at h
  · exact absurd rfl h
  rename_i hret
  split at h
  · exact absurd rfl h
  rename_i htext
  split at h
  · exact absurd rfl h
  rename_i exchange hok
  rw [if_neg hret, if_neg htext]
  trivial

/-- Trader `ind` has been served: the text `msg` was executed. -/
structure Serves (A : Arith) (vp : ValidProducts P) (s : MainState P T) (ind : Fin T)
    (msg : List Char) (s' : MainState P T) : Prop where
  parse : s.exchange.parseMsg A vp msg ind = .ok s'.exchange
  log : ∃ offset reads, s'.log = s.log ++ .strip offset :: .parse ind reads msg ::
    (messages (s.exchange.written s'.exchange)).map fun m => Act.message m.1 m.2

theorem historyOf_messages (ms : List (Fin T × Msg)) :
    historyOf (ms.map fun m => Act.message m.1 m.2) = [] :=
  List.filterMap_eq_nil_iff.mpr (List.forall_mem_map.mpr fun _ _ => rfl)

theorem toldOf_messages (ms : List (Fin T × Msg)) :
    toldOf (ms.map fun m => Act.message m.1 m.2) = ms := by
  unfold toldOf
  rw [List.filterMap_map]
  exact List.filterMap_some

/-- Serving a trader is one command of the history. -/
theorem Serves.historyOf {ind : Fin T} {msg : List Char} (h : Serves A vp s ind msg s') :
    historyOf s'.log = historyOf s.log ++ [.command ind msg] := by
  obtain ⟨offset, reads, hlog⟩ := h.log
  rw [hlog, historyOf_append]
  show _ ++ .command ind msg :: PeExchange.historyOf (List.map _ _) = _
  rw [historyOf_messages]

/-- What serving a trader writes has been told. -/
theorem Serves.toldOf {ind : Fin T} {msg : List Char} (h : Serves A vp s ind msg s') :
    toldOf s'.log = toldOf s.log ++ messages (s.exchange.written s'.exchange) := by
  obtain ⟨offset, reads, hlog⟩ := h.log
  rw [hlog, toldOf_append]
  show _ ++ PeExchange.toldOf (List.map _ _) = _
  rw [toldOf_messages]

end MainState

open MainState

variable {s s' : MainState P T} {a : MainAction T}

/-- **What a step does to the exchange**, when the program keeps its meaning: it serves
a trader, or it is one between two commands. -/
theorem MainStep.between_or_serves (h : MainStep A vp pids s a s') (hkilled : s'.loc ≠ .killed)
    (hdefined : s'.loc ≠ .undefined) :
    ((∀ reads calls, a ≠ .serve reads calls) ∧ Between A vp s s') ∨
      ∃ ind reads calls ret msg, a = .serve reads calls ∧ s.loc = .reading ind ∧
        processMsg reads = .returned ret msg [] ∧ ret ≠ 0 ∧
        Serves A vp s ind (cString msg) s' := by
  cases h with
  | sigusrHandler =>
    refine .inl ⟨nofun, .trans ?_ between_handled⟩
    exact between_of_eq rfl rfl
  | sigchldHandler =>
    refine .inl ⟨nofun, .trans ?_ between_handled⟩
    exact between_of_eq rfl rfl
  | pause => exact .inl ⟨nofun, between_of_eq rfl rfl⟩
  | resume => exact .inl ⟨nofun, between_of_eq rfl rfl⟩
  | @take pid ind =>
    exact .inl ⟨nofun, between_record [.read ind] rfl rfl
      (List.forall_mem_singleton.mpr ⟨rfl, rfl, rfl⟩)⟩
  | takeUnknown => exact absurd rfl hdefined
  | @serve ind reads ret msg calls hloc hmsg =>
    have hrun : (s.execute A vp ind reads ret (cString msg)).Running :=
      execute_defined hdefined
    obtain ⟨hret, exchange, hok, heq⟩ := execute_running hrun
    refine .inr ⟨ind, reads, calls, ret, msg, rfl, hloc, hmsg, fun hzero => hret (.inr hzero), ?_⟩
    rw [heq, sent_eq]
    exact ⟨hok, _, _, rfl⟩
  | overrun => exact absurd rfl hdefined
  | noSigusr => exact .inl ⟨nofun, between_of_eq rfl rfl⟩
  | @reap pid calls =>
    have hpop : Between A vp s { s with signals := s.signals.popSigchld } := between_of_eq rfl rfl
    have hreap := hpop.trans (between_reapFrom pids pid (List.finRange T) _)
    exact .inl ⟨nofun, (hreap.trans (between_call _ calls)).trans (between_checkActive _)⟩
  | noSigchld => exact .inl ⟨nofun, between_of_eq rfl rfl⟩
  | timeout =>
    refine .inl ⟨nofun, .trans ?_ between_checkErrno⟩
    exact between_record [.timedOut _] rfl rfl
      (List.forall_mem_singleton.mpr ⟨rfl, rfl, rfl⟩)
  | pollFailed =>
    refine .inl ⟨nofun, .trans ?_ between_checkErrno⟩
    exact between_record [.pollFailed _] rfl rfl
      (List.forall_mem_singleton.mpr ⟨rfl, rfl, rfl⟩)
  | pollInterrupted =>
    refine .inl ⟨nofun, .trans ?_ between_checkErrno⟩
    exact between_record [.pollFailed _] rfl rfl
      (List.forall_mem_singleton.mpr ⟨rfl, rfl, rfl⟩)
  | @hup ind calls =>
    have hgone : Between A vp s (s.disconnect ind) := between_disconnect ind
    exact .inl ⟨nofun, (hgone.trans (between_call _ calls)).trans (between_checkActive _)⟩
  | hupDead => exact .inl ⟨nofun, between_of_eq rfl rfl⟩
  | sigpipe => exact absurd rfl hkilled

/-! ## Pipes -/

/-- The commands `executed` are the first ones of a trader, as the strings they are,
and its pipe starts with the next one. -/
structure TraderEnd.Framed (e : TraderEnd) (executed : List (List Char)) : Prop where
  commands : ∃ finished unread, e.written = finished ++ unread ∧
    executed = finished.map cString ∧ e.pipe = unread.flatten
  terminated : ∀ c ∈ e.written, Framing.Terminated ';' c

namespace TraderEnd

variable {e : TraderEnd} {executed : List (List Char)}

/-- The executed commands are the first ones written. -/
theorem Framed.isPrefix (h : e.Framed executed) : executed <+: e.written.map cString := by
  obtain ⟨finished, unread, hwritten, rfl, -⟩ := h.commands
  rw [hwritten, List.map_append]
  exact List.prefix_append _ _

/-- What a trader writes comes last. -/
theorem Framed.write (h : e.Framed executed) {c : List Char} (hc : Framing.Terminated ';' c) :
    (e.write c).Framed executed := by
  obtain ⟨finished, unread, hwritten, hexecuted, hpipe⟩ := h.commands
  refine ⟨⟨finished, unread ++ [c], ?_, hexecuted, ?_⟩, ?_⟩
  · show e.written ++ [c] = _
    rw [hwritten, List.append_assoc]
  · show e.pipe ++ c = _
    rw [hpipe, List.flatten_append, List.flatten_singleton]
  · exact List.forall_mem_append.mpr ⟨h.terminated, List.forall_mem_singleton.mpr hc⟩

/-- A call of `process_msg` that does not end the program takes the next command. -/
theorem Framed.take (h : e.Framed executed) {reads : List ReadResult} {pipe msg : List Char}
    {ret : Nat} (hreads : PipeReads e.isOpen e.pipe reads pipe)
    (hmsg : processMsg reads = .returned ret msg []) (hret : ret ≠ 0) :
    (e.take pipe).Framed (executed ++ [cString msg]) := by
  obtain ⟨finished, unread, hwritten, hexecuted, hpipe⟩ := h.commands
  have hterminated : ∀ c ∈ unread, Framing.Terminated ';' c :=
    fun c hc => h.terminated c (hwritten ▸ List.mem_append_right _ hc)
  obtain ⟨c, rest, rfl, rfl, rfl, htext⟩ := (hpipe ▸ hreads).first hterminated hmsg hret
  refine ⟨⟨finished ++ [c], rest, ?_, ?_, rfl⟩, h.terminated⟩
  · exact hwritten.trans (List.append_assoc _ [c] rest).symm
  · rw [hexecuted, htext, List.map_append, List.map_singleton]

end TraderEnd

namespace World

variable {w w' : World P T}

/-- The exchange is what the history makes of it, the history has the first commands
of each trader, and what has been written to the traders is in the record. -/
structure Serial (A : Arith) (vp : ValidProducts P) (w : World P T) : Prop where
  run : Transition.Run (Step A vp) PeExchange.initial (historyOf w.main.log) w.main.exchange
  framed : ∀ i, (w.ends i).Framed (executedOf w.main.log i)
  told : messages w.main.exchange.out =
    messages (PeExchange.initial : Exchange P T).out ++ toldOf w.main.log

theorem serial_initial : (initial : World P T).Serial A vp :=
  ⟨.nil, fun _ => ⟨⟨[], [], rfl, rfl, rfl⟩, nofun⟩, (List.append_nil _).symm⟩

/-- A step between two commands, next to which a trader may do something. -/
theorem Serial.between (h : w.Serial A vp) (hb : Between A vp w.main w'.main)
    (hends : ∀ i texts, (w.ends i).Framed texts → (w'.ends i).Framed texts) :
    w'.Serial A vp := by
  obtain ⟨acts, hlog, hacts, hrun, hout⟩ := hb
  have htold : toldOf acts = [] :=
    List.filterMap_eq_nil_iff.mpr fun act hact => (hacts act hact).2
  refine ⟨?_, fun i => hends i _ ?_, ?_⟩
  · rw [hlog, historyOf_append]
    exact h.run.append hrun
  · rw [executedOf_records ⟨acts, hlog, fun act hact => (hacts act hact).1⟩]
    exact h.framed i
  · rw [hout, h.told, hlog, toldOf_append, htold, List.append_nil]

/-- A trader is served: the command is the next of those it wrote. -/
theorem Serial.serves (h : w.Serial A vp) {ind : Fin T} {msg : List Char} {m : MainState P T}
    (hserves : Serves A vp w.main ind msg m) {e : TraderEnd}
    (he : e.Framed (executedOf w.main.log ind ++ [msg])) :
    ({ w.setEnd ind e with main := m } : World P T).Serial A vp := by
  obtain ⟨offset, reads, hlog⟩ := hserves.log
  refine ⟨?_, fun i => ?_, ?_⟩
  · show Transition.Run (Step A vp) _ (historyOf m.log) m.exchange
    rw [hserves.historyOf]
    exact h.run.snoc (.command hserves.parse)
  · show ((w.setEnd ind e).ends i).Framed (executedOf m.log i)
    rw [hlog, executedOf_command]
    by_cases hi : ind = i
    · subst hi
      rw [setEnd_self, if_pos rfl]
      exact he
    · rw [setEnd_other (Ne.symm hi), if_neg hi, List.append_nil]
      exact h.framed i
  · show messages m.exchange.out = _ ++ toldOf m.log
    rw [(parseMsg_outcome hserves.parse).out, messages_append, h.told, hserves.toldOf,
      List.append_assoc]

end World

open World

variable {w w' : World P T}

/-- **What a step keeps.** -/
theorem WorldStep.serial {a : WorldAction T} (h : WorldStep A vp pids w a w')
    (hs : w.Serial A vp) (hkilled : w'.main.loc ≠ .killed) (hdefined : w'.main.loc ≠ .undefined) :
    w'.Serial A vp := by
  have hbetween : ∀ {b : MainAction T} {m : MainState P T}, MainStep A vp pids w.main b m →
      (∀ reads calls, b ≠ .serve reads calls) → m.loc ≠ .killed → m.loc ≠ .undefined →
        Between A vp w.main m := by
    intro b m hstep hserve hk hd
    rcases hstep.between_or_serves hk hd with ⟨-, hb⟩ | ⟨ind, reads, calls, ret, msg, heq, -⟩
    · exact hb
    · exact absurd heq (hserve reads calls)
  have hone : ∀ {i : Fin T} {e : TraderEnd}, (∀ texts, (w.ends i).Framed texts → e.Framed texts) →
      ∀ j texts, (w.ends j).Framed texts → ((w.setEnd i e).ends j).Framed texts := by
    intro i e he
    exact forall_setEnd (p := fun j e => ∀ texts, (w.ends j).Framed texts → e.Framed texts) he
      fun j texts => id
  cases h with
  | write _ hc => exact hs.between (between_of_eq rfl rfl) (hone fun _ h => h.write hc)
  | signal =>
    exact hs.between (between_of_eq rfl rfl) (hone fun _ h => ⟨h.commands, h.terminated⟩)
  | close =>
    exact hs.between (between_of_eq rfl rfl) (hone fun _ h => ⟨h.commands, h.terminated⟩)
  | exit =>
    exact hs.between (between_of_eq rfl rfl) (hone fun _ h => ⟨h.commands, h.terminated⟩)
  | strayUsr => exact hs.between (between_of_eq rfl rfl) fun _ _ => id
  | strayChld => exact hs.between (between_of_eq rfl rfl) fun _ _ => id
  | sigusr _ h => exact hs.between (hbetween h nofun hkilled hdefined) fun _ _ => id
  | sigchld _ h => exact hs.between (hbetween h nofun hkilled hdefined) fun _ _ => id
  | @serve ind reads pipe calls m hloc halive hreads h =>
    rcases h.between_or_serves hkilled hdefined with ⟨hserve, -⟩ | hserved
    · exact absurd rfl (hserve reads calls)
    · obtain ⟨ind', reads', calls', ret, msg, heq, hloc', hmsg, hret, hserves⟩ := hserved
      obtain rfl : ind = ind' := MainLoc.reading.inj (hloc.symm.trans hloc')
      obtain ⟨rfl, rfl⟩ := MainAction.serve.inj heq
      exact hs.serves hserves ((hs.framed ind).take hreads hmsg hret)
  | serveDead _ _ h =>
    cases h with
    | serve _ hmsg =>
      -- the pipe is closed: `process_msg` returns 1
      obtain ⟨rfl, -, -⟩ := Received.returned.inj hmsg
      exact absurd rfl hdefined
    | overrun => exact absurd rfl hdefined
    | sigpipe => exact absurd rfl hkilled
  | hup _ h => exact hs.between (hbetween h nofun hkilled hdefined) fun _ _ => id
  | inner ha h =>
    refine hs.between (hbetween h ?_ hkilled hdefined) fun _ _ => id
    rintro reads calls rfl
    cases ha

/-! ## Whole runs -/

/-- The states of the exchange and its traders. -/
def WorldReachable (A : Arith) (vp : ValidProducts P) (pids : Fin T → Int) (w : World P T) :
    Prop :=
  Transition.Reachable (WorldStep A vp pids) .initial w

/-- Whole runs, as long as the program keeps its meaning. -/
theorem WorldReachable.serial (h : WorldReachable A vp pids w) :
    w.main.loc ≠ .killed → w.main.loc ≠ .undefined → w.Serial A vp := by
  refine Transition.Reachable.invariant
    (I := fun w => w.main.loc ≠ .killed → w.main.loc ≠ .undefined → w.Serial A vp)
    (fun _ _ => serial_initial) (fun w a w' hr hi hstep hkilled hdefined => ?_) h
  have hrunning : w.main.loc ≠ .killed ∧ w.main.loc ≠ .undefined := by
    rcases hstep.main_step with hmain | ⟨b, -, hmain⟩
    · rw [← hmain]
      exact ⟨hkilled, hdefined⟩
    · exact hmain.running.loc_ne
  exact hstep.serial (hi hrunning.1 hrunning.2) hkilled hdefined

/-- Trader 0 writes first, but only trader 1 signals, and a process that is no trader. -/
theorem safe_gpu : ∃ w : World 2 2,
    Transition.Reachable (SafeStep .machine testProducts testPids) .initial w ∧
      w.main.loc = .sigusr ∧ w.main.signals.sigusr.len = 0 ∧ w.main.signals.sigchld.len = 0 ∧
      w.sigusr = none ∧
      (∀ i, (w.main.exchange.traders i).alive = true ∧ (w.ends i).written.length = 1) ∧
      executedOf w.main.log 0 = [] ∧ executedOf w.main.log 1 = ["SELL 0 GPU 10 30;".toList] := by
  have hcommand : Command "SELL 0 GPU 10 30;".toList :=
    ⟨⟨"SELL 0 GPU 10 30".toList, by decide, by decide⟩, by decide⟩
  have hpaused : Transition.Reachable (SafeStep .machine testProducts testPids)
      World.initial _ := Transition.Reachable.init.step ⟨.inner rfl (.pause rfl rfl), trivial⟩
  have hfirst := hpaused.step ⟨@WorldStep.write _ _ _ _ _ _ 0 "BUY 0 GPU 4 40;".toList rfl
    ⟨"BUY 0 GPU 4 40".toList, by decide, by decide⟩, trivial⟩
  have hwritten := hfirst.step
    ⟨@WorldStep.write _ _ _ _ _ _ 1 "SELL 0 GPU 10 30;".toList rfl hcommand.1, trivial⟩
  have hsignalled := hwritten.step ⟨@WorldStep.signal _ _ _ _ _ _ 1 rfl, rfl⟩
  have hstray := hsignalled.step ⟨@WorldStep.strayChld _ _ _ _ _ _ 7 (by decide), trivial⟩
  have hwoken := hstray.step ⟨@WorldStep.sigusr _ _ _ _ _ _ 101 _ rfl
    (.sigusrHandler trivial), (by decide : (0 : Int) < queueWrap)⟩
  have htaken := hwoken.step ⟨.inner rfl (@MainStep.take _ _ _ _ _ _ 101 1 rfl (by decide) rfl
    (by decide)), trivial⟩
  have hserved := htaken.step ⟨@WorldStep.serve _ _ _ _ _ _ 1
    ("SELL 0 GPU 10 30;".toList.map .byte) [] [] _ rfl rfl
    (pipeReads_bytes "SELL 0 GPU 10 30;".toList [])
    (@MainStep.serve _ _ _ _ _ _ 1 ("SELL 0 GPU 10 30;".toList.map .byte) 17 _ [] rfl
      (processMsg_command hcommand) List.not_mem_nil), trivial⟩
  exact ⟨_, hserved, by decide +kernel, by decide +kernel, by decide +kernel, by decide +kernel,
    by decide +kernel, by decide +kernel, by decide +kernel⟩

/-- The history and the deeds that what happened comes to. -/
structure OneHistory (A : Arith) (vp : ValidProducts P) (w : World P T)
    (history : List (Action T)) (deeds : List (Fin T × Deed P T)) : Prop where
  run : Transition.Run (Step A vp) PeExchange.initial history w.main.exchange
  /-- Of each trader there are the first commands it wrote, in order. -/
  written : ∀ i, history.filterMap (Action.textOf i) <+: (w.ends i).written.map cString
  market : Transition.Run (Market.Step vp) Market.opened deeds w.main.exchange.toMarket
  /-- There is one deed for each command, of the same trader. -/
  senders : deeds.map Prod.fst = history.filterMap Action.sender
  dealt : dealsOf w.main.exchange.out = deeds.flatMap fun d => d.2.deals
  /-- The traders have been told the answers. -/
  answered : (toldOf w.main.log).filter (fun m => m.2.isAnswer) =
    deeds.map fun d => (d.1, d.2.answer)

/-- **One history.** However the steps of the traders, of other processes, of the
handlers and of the event loop interleave, what comes of it is a run of the exchange on
commands the traders wrote, one after the other, and a run of the market, unless `SIGPIPE`
has cut a command short or the program has lost its meaning. -/
theorem one_history (h : WorldReachable A vp pids w) (hkilled : w.main.loc ≠ .killed)
    (hdefined : w.main.loc ≠ .undefined) : ∃ history deeds, OneHistory A vp w history deeds := by
  have hs := h.serial hkilled hdefined
  obtain ⟨deeds, hmarket, hsenders, hdeals, hanswers⟩ :=
    Reachable.deeds_of_run Transition.Reachable.init hs.run
  rw [dealsOf_initial, List.nil_append] at hdeals
  rw [answersOf_initial, List.nil_append] at hanswers
  refine ⟨historyOf w.main.log, deeds, hs.run, fun i => ?_, hmarket, hsenders, hdeals, ?_⟩
  · rw [textOf_historyOf]
    exact (hs.framed i).isPrefix
  · -- `MARKET OPEN` is no answer
    have hnone : (messages (PeExchange.initial : Exchange P T).out).filter
        (fun m => m.2.isAnswer) = [] := answersOf_initial
    rw [← hanswers, answersOf, hs.told, List.filter_append, hnone, List.nil_append]

/-- The command of trader 1 is the history. -/
theorem one_history_gpu : ∃ (w : World 2 2) (history : List (Action 2))
    (deeds : List (Fin 2 × Deed 2 2)), OneHistory .machine testProducts w history deeds ∧
      (∀ i, (w.ends i).written.length = 1) ∧
      executedOf w.main.log 0 = [] ∧ executedOf w.main.log 1 = ["SELL 0 GPU 10 30;".toList] := by
  obtain ⟨w, hsafe, hloc, -, -, -, hends, h₀, h₁⟩ := safe_gpu
  have hreach : WorldReachable .machine testProducts testPids w :=
    hsafe.mono fun _ _ _ hstep => hstep.1
  obtain ⟨history, deeds, hone⟩ := one_history hreach (by rw [hloc]; nofun) (by rw [hloc]; nofun)
  exact ⟨w, history, deeds, hone, fun i => (hends i).2, h₀, h₁⟩

/-! ## Commands and signals -/

end PeExchange
