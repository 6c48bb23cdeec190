import PeExchange.MainLoop
import PeExchange.Theory.Trace

/-!
# What the event loop records

The record only grows. A step adds what it did, and most facts about runs are
about the kind of things added: `Records p s s'` says that what was recorded from
`s` to `s'` satisfies `p`.
-/

namespace PeExchange

variable {P T : Nat} {A : Arith} {vp : ValidProducts P} {pids : Fin T → Int}

/-- `main` does this for a command, once it has been read. -/
def Act.serving : Act T → Bool
  | .strip _ => true
  | .parse _ _ _ => true
  | .message _ _ => true
  | .freeAll => true
  | _ => false

namespace MainState

variable {s s' s'' : MainState P T} {p q : Act T → Prop}

/-- What is recorded from `s` to `s'` satisfies `p`. -/
def Records (p : Act T → Prop) (s s' : MainState P T) : Prop :=
  ∃ acts, s'.log = s.log ++ acts ∧ ∀ act ∈ acts, p act

theorem records_of_eq (h : s'.log = s.log) : Records p s s' :=
  ⟨[], by rw [h, List.append_nil], nofun⟩

/-- A step that records these acts. -/
theorem records_record {acts : List (Act T)} (h : ∀ act ∈ acts, p act) :
    Records p s (s.record acts) :=
  ⟨acts, rfl, h⟩

theorem records_one {act : Act T} (hlog : s'.log = s.log ++ [act]) (h : p act) :
    Records p s s' :=
  ⟨[act], hlog, List.forall_mem_singleton.mpr h⟩

/-- One step after another. -/
theorem Records.trans (h : Records p s s') (h' : Records p s' s'') : Records p s s'' := by
  obtain ⟨acts, hlog, hacts⟩ := h
  obtain ⟨acts', hlog', hacts'⟩ := h'
  refine ⟨acts ++ acts', ?_, List.forall_mem_append.mpr ⟨hacts, hacts'⟩⟩
  rw [hlog', hlog, List.append_assoc]

theorem Records.mono (h : Records p s s') (hpq : ∀ act, p act → q act) : Records q s s' := by
  obtain ⟨acts, hlog, hacts⟩ := h
  exact ⟨acts, hlog, fun act hact => hpq act (hacts act hact)⟩

/-- Acts that are not of the kind recorded are those recorded before. -/
theorem Records.mem (h : Records p s s') {act : Act T} (hact : ¬p act) :
    act ∈ s'.log ↔ act ∈ s.log := by
  obtain ⟨acts, hlog, hacts⟩ := h
  rw [hlog, List.mem_append]
  exact ⟨fun hor => hor.resolve_right fun hmem => hact (hacts act hmem), .inl⟩

/-- Acts of another kind are as many as before. -/
theorem Records.count (h : Records p s s') {act : Act T} (hact : ¬p act) :
    s'.log.count act = s.log.count act := by
  obtain ⟨acts, hlog, hacts⟩ := h
  have hzero : acts.count act = 0 :=
    List.count_eq_zero.mpr fun hmem => hact (hacts act hmem)
  rw [hlog, List.count_append, hzero, Nat.add_zero]

/-- A handler records nothing. -/
theorem log_handled : s.handled.log = s.log := by
  unfold handled
  split <;> rfl

theorem records_handled (h : s'.log = s.log) : Records p s s'.handled :=
  records_of_eq (log_handled.trans h)

/-! ## Commands -/

/-- The acts for what a command writes are its messages. -/
theorem sent_eq (es : List (Event P T)) :
    sent es = (messages es).map fun m => .message m.1 m.2 := by
  unfold sent messages
  rw [List.map_filterMap]
  refine List.filterMap_congr fun e _ => ?_
  cases e <;> rfl

/-- What executing a command records belongs to serving a trader. -/
theorem records_execute (A : Arith) (vp : ValidProducts P) (ind : Fin T)
    (reads : List ReadResult) (ret : Nat) (text : List Char) :
    Records (fun act => act.serving = true) s (s.execute A vp ind reads ret text) := by
  unfold execute
  split
  · exact ⟨_, rfl, by simp [Act.serving]⟩
  · split
    · exact ⟨_, rfl, by simp [Act.serving]⟩
    · split
      · exact ⟨_, rfl, by simp [Act.serving]⟩
      · refine ⟨_, rfl, List.forall_mem_cons.mpr ⟨rfl, List.forall_mem_cons.mpr ⟨rfl, ?_⟩⟩⟩
        rw [sent_eq]
        exact List.forall_mem_map.mpr fun _ _ => rfl

/-- A write that raises `SIGPIPE` comes after some of what is recorded for the command. -/
theorem Records.killed {acts : List (Act T)} (h : Records p s s')
    (hacts : s.log ++ acts <+: s'.log) : ∀ act ∈ acts, p act := by
  obtain ⟨acts', hlog, hacts'⟩ := h
  rw [hlog, List.prefix_append_right_inj] at hacts
  exact fun act hact => hacts' act (hacts.subset hact)

end MainState

open MainState

variable {s s' : MainState P T} {a : MainAction T}

/-- A process that takes a step is running. -/
theorem MainStep.running (h : MainStep A vp pids s a s') : s.Running := by
  have hloc : ∀ loc, s.loc = loc → (∀ status, loc ≠ .exited status) → loc ≠ .killed →
      loc ≠ .undefined → s.Running := by
    intro loc heq h₁ h₂ h₃
    unfold Running
    rw [heq]
    split <;> simp_all
  cases h with
  | sigusrHandler h => exact h
  | sigchldHandler h => exact h
  | sigpipe h => exact hloc _ h nofun nofun nofun
  | pause h => exact hloc _ h nofun nofun nofun
  | resume h => exact hloc _ h nofun nofun nofun
  | take h => exact hloc _ h nofun nofun nofun
  | takeUnknown h => exact hloc _ h nofun nofun nofun
  | serve h => exact hloc _ h nofun nofun nofun
  | overrun h => exact hloc _ h nofun nofun nofun
  | noSigusr h => exact hloc _ h nofun nofun nofun
  | reap h => exact hloc _ h nofun nofun nofun
  | noSigchld h => exact hloc _ h nofun nofun nofun
  | timeout h => exact hloc _ h nofun nofun nofun
  | pollFailed h => exact hloc _ h nofun nofun nofun
  | pollInterrupted h => exact hloc _ h nofun nofun nofun
  | hup h => exact hloc _ h nofun nofun nofun
  | hupDead h => exact hloc _ h nofun nofun nofun

end PeExchange
