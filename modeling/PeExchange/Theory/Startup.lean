import Mathlib.Algebra.BigOperators.Fin
import PeExchange.Lib.Layout
import PeExchange.Startup
import PeExchange.Theory.RoundTrip

/-!
# The start-up handshake

The exchange and a trader come to the same two pipes in the same order, so neither is
ever more than one arrival ahead of the other, and each `open` ends when the other
process has come. A trader that dies too early is what the exchange waits for forever.

- `Linked`: what the exchange, a living trader and their two pipes are to each other.
  `Sound` adds who has been told. `Sound.step` is the step lemma.
- `weight`: every step uses some of it up, so there are no endless runs.
- `startup_ends`: how every start-up ends. `told_connected`: whoever is signalled has
  a handler.
-/

namespace PeExchange

namespace Startup

open CFormat Rendezvous

variable {T : Nat} {s s' : State T} {k : Fin T} {a : Action T} {as : List (Action T)}

/-! ## Names -/

theorem decimal_injective : Function.Injective decimal := by
  intro m n h
  have hscan : ∀ x : Int, scanNumeral (decimal x) = some (numeralOf x, []) := by
    intro x
    have hx := scanNumeral_text (numeralOf x) (stops_nil Char.isDigit)
    rw [numeralOf_text, List.append_nil] at hx
    exact hx
  have hm := hscan m
  rw [h, hscan n] at hm
  have heq := (Prod.mk.inj (Option.some.inj hm)).1
  rw [← numeralOf_trueValue m, ← heq, numeralOf_trueValue]

/-- No two traders share a pipe. -/
theorem exName_injective : Function.Injective exName := fun _ _ h =>
  decimal_injective (List.append_cancel_left h)

theorem trName_injective : Function.Injective trName := fun _ _ h =>
  decimal_injective (List.append_cancel_left h)

theorem exName_ne_trName (m n : Int) : exName m ≠ trName n := by
  intro h
  have hex : (exName m).take 9 = "/tmp/pe_e".toList := rfl
  have htr : (trName n).take 9 = "/tmp/pe_t".toList := rfl
  rw [h, htr] at hex
  exact absurd hex (by decide)

/-- A trader opens the pipes that were made for it. `argc` is an `int`, and so there are
fewer traders than `INT_MAX`. -/
theorem traderID_eq (hT : T ≤ 2147483647) (k : Fin T) : traderID k = k.val := by
  have hdigits : skipSpace (decimal k.val) = decimal k.val := by
    cases hd : decimal (k.val : Int) with
    | nil => rfl
    | cons c cs =>
      have hc : isSpace c = false :=
        (decimal_isDecimal (Int.natCast_nonneg k.val)).not_space c (hd ▸ List.mem_cons_self)
      exact List.dropWhile_cons_of_neg (by rw [hc]; decide)
  have hscan := scanNumeral_text (numeralOf k.val) (stops_nil Char.isDigit)
  rw [numeralOf_text, List.append_nil] at hscan
  have hk := k.isLt
  rw [traderID, atoi, hdigits, hscan]
  show (numeralOf k.val).value = _
  rw [Numeral.value_of_fits, numeralOf_trueValue]
  · rw [numeralOf_trueValue]
    omega
  · rw [numeralOf_trueValue]
    omega

/-! ## Pipes of a trader -/

namespace State

/-- The pipe the exchange writes to. -/
def exPipe (s : State T) (k : Fin T) : Fifo :=
  s.pipes (exName k.val)

/-- The pipe it reads from. -/
def trPipe (s : State T) (k : Fin T) : Fifo :=
  s.pipes (trName k.val)

section Frame

variable (s : State T) (k : Fin T) (f : Fifo) (st : Stage) (p : Phase T)

theorem exPipe_setPipe_ex (i : Int) :
    (s.setPipe (exName i) f).exPipe k = if (k.val : Int) = i then f else s.exPipe k := by
  show Function.update s.pipes (exName i) f (exName k.val) = _
  by_cases h : (k.val : Int) = i
  · rw [if_pos h, h, Function.update_self]
  · rw [if_neg h, Function.update_of_ne fun heq => h (exName_injective heq)]
    rfl

theorem trPipe_setPipe_tr (i : Int) :
    (s.setPipe (trName i) f).trPipe k = if (k.val : Int) = i then f else s.trPipe k := by
  show Function.update s.pipes (trName i) f (trName k.val) = _
  by_cases h : (k.val : Int) = i
  · rw [if_pos h, h, Function.update_self]
  · rw [if_neg h, Function.update_of_ne fun heq => h (trName_injective heq)]
    rfl

@[simp] theorem exPipe_setPipe_tr (i : Int) : (s.setPipe (trName i) f).exPipe k = s.exPipe k :=
  Function.update_of_ne (exName_ne_trName k.val i) f s.pipes

@[simp] theorem trPipe_setPipe_ex (i : Int) : (s.setPipe (exName i) f).trPipe k = s.trPipe k :=
  Function.update_of_ne (exName_ne_trName i k.val).symm f s.pipes

@[simp] theorem exPipe_setStage (j : Fin T) : (s.setStage j st).exPipe k = s.exPipe k := rfl
@[simp] theorem trPipe_setStage (j : Fin T) : (s.setStage j st).trPipe k = s.trPipe k := rfl
@[simp] theorem exPipe_setPhase : (s.setPhase p).exPipe k = s.exPipe k := rfl
@[simp] theorem trPipe_setPhase : (s.setPhase p).trPipe k = s.trPipe k := rfl
@[simp] theorem stage_setPipe (name : List Char) : (s.setPipe name f).stage = s.stage := rfl
@[simp] theorem stage_setPhase : (s.setPhase p).stage = s.stage := rfl
@[simp] theorem stage_setStage (j : Fin T) :
    (s.setStage j st).stage = Function.update s.stage j st := rfl
@[simp] theorem phase_setPhase : (s.setPhase p).phase = p := rfl

end Frame

end State

theorem val_cast_ne {i k : Fin T} (h : k ≠ i) : (k.val : Int) ≠ i.val := fun heq =>
  h (Fin.ext (Int.ofNat_inj.mp heq))

/-! ## What a step does -/

/-- The steps of the exchange. -/
inductive Proceeds (s : State T) : State T → Prop where
  | make {i : Nat} (hp : s.phase = .making i) (hi : i < T) :
      Proceeds s ((((s.setPipe (exName i) .made).setPipe (trName i) .made).setStage ⟨i, hi⟩
        .forked).setPhase (.forked ⟨i, hi⟩))
  | allMade {i : Nat} (hp : s.phase = .making i) (hi : ¬i < T) :
      Proceeds s (s.setPhase (.telling 0))
  | openEx {i : Fin T} (hp : s.phase = .forked i) :
      Proceeds s ((s.setPipe (exName i.val) (s.pipes (exName i.val)).openWrite).setPhase
        (.opensEx i))
  | openTr {i : Fin T} (hp : s.phase = .opensEx i)
      (hthrough : (s.pipes (exName i.val)).writer = .through) :
      Proceeds s ((s.setPipe (trName i.val) (s.pipes (trName i.val)).openRead).setPhase
        (.opensTr i))
  | connect {i : Fin T} (hp : s.phase = .opensTr i)
      (hthrough : (s.pipes (trName i.val)).reader = .through) :
      Proceeds s (s.setPhase (.making (i.val + 1)))
  | killed {i : Nat} (hp : s.phase = .telling i) (hi : i < T)
      (haway : (s.pipes (exName i)).reader = .away) : Proceeds s (s.setPhase .killed)
  | tell {i : Nat} (hp : s.phase = .telling i) (hi : i < T)
      (hread : (s.pipes (exName i)).reader ≠ .away) :
      Proceeds s { s with phase := .telling (i + 1), told := s.told ++ [⟨i, hi⟩] }
  | allTold {i : Nat} (hp : s.phase = .telling i) (hi : ¬i < T) : Proceeds s (s.setPhase .trading)

/-- What `exchangeStep` computes. -/
theorem proceeds_of_exchangeStep (hs : s.exchangeStep = some s') : Proceeds s s' := by
  unfold State.exchangeStep at hs
  split at hs
  · rename_i i hp
    split at hs
    · rename_i hi
      obtain rfl := Option.some.inj hs
      exact .make hp hi
    · rename_i hi
      obtain rfl := Option.some.inj hs
      exact .allMade hp hi
  · rename_i i hp
    obtain rfl := Option.some.inj hs
    exact .openEx hp
  · rename_i i hp
    rw [Option.ite_none_right_eq_some] at hs
    obtain rfl := Option.some.inj hs.2
    exact .openTr hp hs.1
  · rename_i i hp
    rw [Option.ite_none_right_eq_some] at hs
    obtain rfl := Option.some.inj hs.2
    exact .connect hp hs.1
  · rename_i i hp
    split at hs
    · rename_i hi
      split at hs
      · rename_i haway
        obtain rfl := Option.some.inj hs
        exact .killed hp hi haway
      · rename_i hread
        obtain rfl := Option.some.inj hs
        exact .tell hp hi hread
    · rename_i hi
      obtain rfl := Option.some.inj hs
      exact .allTold hp hi
  · cases hs

/-- The steps of a trader that opens the pipes of its number. -/
inductive Advances (s : State T) (k : Fin T) : State T → Prop where
  | handler (hst : s.stage k = .forked) : Advances s k (s.setStage k .ready)
  | openEx (hst : s.stage k = .ready) :
      Advances s k ((s.setPipe (exName k.val) (s.pipes (exName k.val)).openRead).setStage k
        .opensEx)
  | openTr (hst : s.stage k = .opensEx) (hthrough : (s.pipes (exName k.val)).reader = .through) :
      Advances s k ((s.setPipe (trName k.val) (s.pipes (trName k.val)).openWrite).setStage k
        .opensTr)
  | run (hst : s.stage k = .opensTr) (hthrough : (s.pipes (trName k.val)).writer = .through) :
      Advances s k (s.setStage k .running)

/-- What `traderStep` computes, where the number that is read is the trader's. -/
theorem advances_of_traderStep (hT : T ≤ 2147483647) (hs : s.traderStep k = some s') :
    Advances s k s' := by
  unfold State.traderStep at hs
  rw [traderID_eq hT] at hs
  split at hs
  · rename_i hst
    obtain rfl := Option.some.inj hs
    exact .handler hst
  · rename_i hst
    obtain rfl := Option.some.inj hs
    exact .openEx hst
  · rename_i hst
    rw [Option.ite_none_right_eq_some] at hs
    obtain rfl := Option.some.inj hs.2
    exact .openTr hst hs.1
  · rename_i hst
    rw [Option.ite_none_right_eq_some] at hs
    obtain rfl := Option.some.inj hs.2
    exact .run hst hs.1
  · cases hs

/-- Such a trader goes on where it can. -/
theorem traderStep_ne_none (hT : T ≤ 2147483647) (h : Advances s k s') :
    s.traderStep k ≠ none := by
  unfold State.traderStep
  rw [traderID_eq hT]
  cases h with
  | handler hst => rw [hst]; nofun
  | openEx hst => rw [hst]; nofun
  | openTr hst hthrough => rw [hst]; dsimp only; rw [if_pos hthrough]; nofun
  | run hst hthrough => rw [hst]; dsimp only; rw [if_pos hthrough]; nofun

/-! ## The invariant -/

/-- How many pipes of a trader the exchange has come to. -/
def Phase.arrivals (k : Fin T) : Phase T → Nat
  | .making i => if k.val < i then 2 else 0
  | .forked i => if k < i then 2 else 0
  | .opensEx i => if k < i then 2 else if k = i then 1 else 0
  | .opensTr i => if k ≤ i then 2 else 0
  | _ => 2

/-- The trader has been forked. -/
def Phase.Born (k : Fin T) : Phase T → Prop
  | .making i => k.val < i
  | .forked i => k ≤ i
  | .opensEx i => k ≤ i
  | .opensTr i => k ≤ i
  | _ => True

/-- Both pipes of the trader are open at the exchange. -/
def Phase.Done (k : Fin T) : Phase T → Prop
  | .making i => k.val < i
  | .forked i => k < i
  | .opensEx i => k < i
  | .opensTr i => k < i
  | _ => True

/-- Who has been told. -/
def Phase.Tells (told : List (Fin T)) : Phase T → Prop
  | .telling i => told = (List.finRange T).take i
  | .trading => told = List.finRange T
  | .killed => told <+: List.finRange T
  | _ => told = []

/-- How many pipes a trader has come to. -/
def Stage.arrivals : Stage → Nat
  | .opensEx => 1
  | .opensTr => 2
  | .running => 2
  | _ => 0

/-- The two pipes of a trader that lives are as the arrivals at them make them. -/
structure Link (born done : Prop) (n : Nat) (stage : Stage) (ex tr : Fifo) : Prop where
  born : stage = .unborn ↔ ¬born
  ex : ex = pipeAt stage.arrivals n 1
  tr : tr = pipeAt n stage.arrivals 2
  done : done → stage.arrivals = 2
  near : stage.arrivals = 2 → 1 ≤ n

def Linked (s : State T) (k : Fin T) : Prop :=
  Link (s.phase.Born k) (s.phase.Done k) (s.phase.arrivals k) (s.stage k) (s.exPipe k)
    (s.trPipe k)

/-- What holds throughout. -/
structure Sound (s : State T) : Prop where
  linked : (∀ i, s.phase ≠ .failed i) → ∀ k, s.stage k ≠ .dead → Linked s k
  gone : ∀ k, s.stage k = .dead → s.phase.Born k ∧ (s.exPipe k).reader = .away
  told : s.phase.Tells s.told

theorem sound_initial : Sound (State.initial : State T) where
  linked _ k _ :=
    { born := ⟨fun _ => Nat.not_lt_zero _, fun _ => rfl⟩
      ex := (pipeAt_zero (by decide)).symm
      tr := (pipeAt_zero (by decide)).symm
      done := fun h => absurd h (Nat.not_lt_zero _)
      near := nofun }
  gone _ h := nomatch h
  told := rfl

/-- A trader whom a step does not concern. -/
theorem Linked.same (h : Linked s k) (hborn : s'.phase.Born k ↔ s.phase.Born k)
    (hdone : s'.phase.Done k ↔ s.phase.Done k)
    (harr : s'.phase.arrivals k = s.phase.arrivals k) (hstage : s'.stage k = s.stage k)
    (hex : s'.exPipe k = s.exPipe k) (htr : s'.trPipe k = s.trPipe k) : Linked s' k := by
  rw [Linked, hborn, hdone, harr, hstage, hex, htr]
  exact h

/-! ## Steps of the exchange -/

/-- The pipes are made and a trader is forked. -/
theorem Sound.make (h : Sound s) {i : Nat} (hp : s.phase = .making i) (hi : i < T) :
    Sound ((((s.setPipe (exName i) .made).setPipe (trName i) .made).setStage ⟨i, hi⟩
      .forked).setPhase (.forked ⟨i, hi⟩)) := by
  have hexPipe : ∀ k : Fin T, k ≠ ⟨i, hi⟩ → (k.val : Int) ≠ i := fun k hk => val_cast_ne hk
  constructor
  · intro _ k hlive
    by_cases hk : k = ⟨i, hi⟩
    · subst hk
      refine { born := ?_, ex := ?_, tr := ?_, done := ?_, near := ?_ }
      · simp [Phase.Born]
      · simp [State.exPipe_setPipe_ex, Phase.arrivals, Stage.arrivals, pipeAt_zero]
      · simp [State.trPipe_setPipe_tr, Phase.arrivals, Stage.arrivals, pipeAt_zero]
      · intro hdone
        exact absurd hdone (lt_irrefl _)
      · simp [Stage.arrivals]
    · have hne : k.val ≠ i := fun heq => hk (Fin.ext heq)
      have hstage : Function.update s.stage ⟨i, hi⟩ .forked k = s.stage k :=
        Function.update_of_ne hk _ _
      have hlive' : s.stage k ≠ .dead := by
        rw [← hstage]
        exact hlive
      refine (h.linked (by simp [hp]) k hlive').same ?_ ?_ ?_ hstage ?_ ?_
      · simp only [State.phase_setPhase, Phase.Born, hp, Fin.le_def]
        omega
      · simp only [State.phase_setPhase, Phase.Done, hp, Fin.lt_def]
      · simp only [State.phase_setPhase, Phase.arrivals, hp, Fin.lt_def]
      · simp [State.exPipe_setPipe_ex, hexPipe k hk]
      · simp [State.trPipe_setPipe_tr, hexPipe k hk]
  · intro k hdead
    by_cases hk : k = ⟨i, hi⟩
    · subst hk
      rw [State.stage_setPhase, State.stage_setStage, Function.update_self] at hdead
      cases hdead
    · rw [State.stage_setPhase, State.stage_setStage, Function.update_of_ne hk] at hdead
      obtain ⟨hborn, haway⟩ := h.gone k hdead
      rw [hp] at hborn
      refine ⟨Fin.le_def.mpr (Nat.le_of_lt hborn), ?_⟩
      simp [State.exPipe_setPipe_ex, hexPipe k hk, haway]
  · have ht := h.told
    rw [hp] at ht
    exact ht

/-- The exchange comes to the first pipe of a trader. -/
theorem Sound.openEx (h : Sound s) {i : Fin T} (hp : s.phase = .forked i) :
    Sound ((s.setPipe (exName i.val) (s.pipes (exName i.val)).openWrite).setPhase
      (.opensEx i)) := by
  constructor
  · intro _ k hlive
    have hl := h.linked (by simp [hp]) k hlive
    by_cases hk : k = i
    · subst hk
      have harr : s.phase.arrivals k = 0 := by simp [hp, Phase.arrivals]
      have hex : s.pipes (exName k.val) = pipeAt (s.stage k).arrivals 0 1 := harr ▸ hl.ex
      have htr : s.trPipe k = pipeAt 0 (s.stage k).arrivals 2 := harr ▸ hl.tr
      have hborn := hl.born
      rw [hp] at hborn
      refine { born := hborn, ex := ?_, tr := ?_, done := ?_, near := ?_ }
      · simp [State.exPipe_setPipe_ex, Phase.arrivals, hex, openWrite_pipeAt]
      · have hne := pipeAt_read_of_ne (r := 0) (w := (s.stage k).arrivals) (j := 2) (by decide)
        simp [Phase.arrivals, htr, ← hne]
      · intro hdone
        exact absurd hdone (lt_irrefl _)
      · intro _
        simp [Phase.arrivals]
    · refine hl.same ?_ ?_ ?_ rfl ?_ rfl
      · simp [hp, Phase.Born]
      · simp [hp, Phase.Done]
      · simp [hp, Phase.arrivals, hk]
      · simp [State.exPipe_setPipe_ex, val_cast_ne hk]
  · intro k hdead
    obtain ⟨hborn, haway⟩ := h.gone k hdead
    rw [hp] at hborn
    refine ⟨hborn, ?_⟩
    by_cases hk : k = i
    · subst hk
      have haway' : (s.pipes (exName k.val)).reader = .away := haway
      simp [State.exPipe_setPipe_ex, Fifo.openWrite, haway', Fifo.meet]
    · simp [State.exPipe_setPipe_ex, val_cast_ne hk, haway]
  · have ht := h.told
    rw [hp] at ht
    exact ht

/-- It is through the first and comes to the second. -/
theorem Sound.openTr (h : Sound s) {i : Fin T} (hp : s.phase = .opensEx i) :
    Sound ((s.setPipe (trName i.val) (s.pipes (trName i.val)).openRead).setPhase
      (.opensTr i)) := by
  constructor
  · intro _ k hlive
    have hl := h.linked (by simp [hp]) k hlive
    by_cases hk : k = i
    · subst hk
      have harr : s.phase.arrivals k = 1 := by simp [hp, Phase.arrivals]
      have hex : s.exPipe k = pipeAt (s.stage k).arrivals 1 1 := harr ▸ hl.ex
      have htr : s.pipes (trName k.val) = pipeAt 1 (s.stage k).arrivals 2 := harr ▸ hl.tr
      have hborn := hl.born
      rw [hp] at hborn
      refine { born := hborn, ex := ?_, tr := ?_, done := ?_, near := ?_ }
      · have hne := pipeAt_write_of_ne (w := 1) (r := (s.stage k).arrivals) (j := 1) (by decide)
        simp [Phase.arrivals, hex, ← hne]
      · simp [State.trPipe_setPipe_tr, Phase.arrivals, htr, openRead_pipeAt]
      · intro hdone
        exact absurd hdone (lt_irrefl _)
      · intro _
        simp [Phase.arrivals]
    · refine hl.same ?_ ?_ ?_ rfl rfl ?_
      · simp [hp, Phase.Born]
      · simp [hp, Phase.Done]
      · have hle : k ≤ i ↔ k < i := ⟨fun hle => lt_of_le_of_ne hle hk, le_of_lt⟩
        simp [hp, Phase.arrivals, hk, hle]
      · simp [State.trPipe_setPipe_tr, val_cast_ne hk]
  · intro k hdead
    obtain ⟨hborn, haway⟩ := h.gone k hdead
    rw [hp] at hborn
    exact ⟨hborn, by simp [haway]⟩
  · have ht := h.told
    rw [hp] at ht
    exact ht

/-- It is through both, and so the trader has come to both. -/
theorem Sound.connect (h : Sound s) {i : Fin T} (hp : s.phase = .opensTr i)
    (hthrough : (s.pipes (trName i.val)).reader = .through) :
    Sound (s.setPhase (.making (i.val + 1))) := by
  have hlt : ∀ k : Fin T, k.val < i.val + 1 ↔ k ≤ i := fun k => by
    rw [Fin.le_def]
    omega
  constructor
  · intro _ k hlive
    have hl := h.linked (by simp [hp]) k hlive
    refine { born := ?_, ex := ?_, tr := ?_, done := ?_, near := ?_ }
    · have hborn := hl.born
      rw [hp] at hborn
      simpa [Phase.Born, hlt] using hborn
    · have hex := hl.ex
      rw [hp] at hex
      simpa [Phase.arrivals, hlt] using hex
    · have htr := hl.tr
      rw [hp] at htr
      simpa [Phase.arrivals, hlt] using htr
    · intro hdone
      by_cases hk : k = i
      · subst hk
        have harr : s.phase.arrivals k = 2 := by simp [hp, Phase.arrivals]
        have htr : s.pipes (trName k.val) = pipeAt 2 (s.stage k).arrivals 2 := harr ▸ hl.tr
        have hend : endAt 2 (s.stage k).arrivals 2 = .through := by
          rw [htr] at hthrough
          exact hthrough
        have hle := (endAt_through.mp hend).2
        show (s.stage k).arrivals = 2
        cases hs : s.stage k <;> simp [hs, Stage.arrivals] at hle ⊢
      · refine hl.done ?_
        rw [hp]
        exact lt_of_le_of_ne ((hlt k).mp hdone) hk
    · intro h2
      have hnear := hl.near h2
      rw [hp] at hnear
      simpa [Phase.arrivals, hlt] using hnear
  · intro k hdead
    obtain ⟨hborn, haway⟩ := h.gone k hdead
    rw [hp] at hborn
    exact ⟨(hlt k).mpr hborn, haway⟩
  · have ht := h.told
    rw [hp] at ht
    exact ht

/-- Once the last trader is connected, only the phase matters. -/
theorem Sound.tell {p : Phase T} {told : List (Fin T)} (h : Sound s)
    (hborn : ∀ k, s.phase.Born k) (hdone : ∀ k, s.phase.Done k)
    (harr : ∀ k, s.phase.arrivals k = 2) (hfailed : ∀ i, s.phase ≠ .failed i)
    (hborn' : ∀ k, p.Born k) (hdone' : ∀ k, p.Done k) (harr' : ∀ k, p.arrivals k = 2)
    (ht : p.Tells told) : Sound { s with phase := p, told := told } where
  linked _ k hlive := (h.linked hfailed k hlive).same ⟨fun _ => hborn k, fun _ => hborn' k⟩
    ⟨fun _ => hdone k, fun _ => hdone' k⟩ ((harr' k).trans (harr k).symm) rfl rfl rfl
  gone k hdead := ⟨hborn' k, (h.gone k hdead).2⟩
  told := ht

theorem Sound.told_moved {p : Phase T} {told : List (Fin T)} {i : Nat} (h : Sound s)
    (hp : s.phase = .telling i) (hborn : ∀ k, p.Born k) (hdone : ∀ k, p.Done k)
    (harr : ∀ k, p.arrivals k = 2) (ht : p.Tells told) :
    Sound { s with phase := p, told := told } :=
  h.tell (by simp [hp, Phase.Born]) (by simp [hp, Phase.Done]) (by simp [hp, Phase.arrivals])
    (by simp [hp]) hborn hdone harr ht

/-- **Steps of the exchange.** -/
theorem Sound.exchange (h : Sound s) (hs : s.exchangeStep = some s') : Sound s' := by
  have ht := h.told
  cases proceeds_of_exchangeStep hs with
  | make hp hi => exact h.make hp hi
  | @allMade i hp hi =>
    have hlt : ∀ k : Fin T, k.val < i := fun k => by have := k.isLt; omega
    rw [hp] at ht
    refine h.tell ?_ ?_ ?_ ?_ (fun _ => trivial) (fun _ => trivial) (fun _ => rfl) ht
    · simpa [hp, Phase.Born] using hlt
    · simpa [hp, Phase.Done] using hlt
    · simpa [hp, Phase.arrivals] using hlt
    · simp [hp]
  | openEx hp => exact h.openEx hp
  | openTr hp => exact h.openTr hp
  | connect hp hthrough => exact h.connect hp hthrough
  | killed hp =>
    rw [hp] at ht
    refine h.told_moved hp (fun _ => trivial) (fun _ => trivial) (fun _ => rfl) ?_
    show s.told <+: _
    rw [show s.told = _ from ht]
    exact List.take_prefix _ _
  | @tell i hp hi =>
    rw [hp] at ht
    refine h.told_moved hp (fun _ => trivial) (fun _ => trivial) (fun _ => rfl) ?_
    show s.told ++ _ = _
    rw [show s.told = _ from ht, List.take_add_one, List.getElem?_eq_getElem (by simpa using hi)]
    simp
  | allTold hp hi =>
    rw [hp] at ht
    refine h.told_moved hp (fun _ => trivial) (fun _ => trivial) (fun _ => rfl) ?_
    show s.told = _
    rw [show s.told = _ from ht, List.take_of_length_le (by simpa using hi)]

/-! ## Steps of a trader -/

/-- A step that concerns one trader and its pipes. -/
theorem Sound.move {st : Stage} (h : Sound s) (hphase : s'.phase = s.phase)
    (htold : s'.told = s.told) (hstage : s'.stage = Function.update s.stage k st)
    (hst : st ≠ .dead)
    (hothers : ∀ j, j ≠ k → s'.exPipe j = s.exPipe j ∧ s'.trPipe j = s.trPipe j)
    (hk : (∀ i, s.phase ≠ .failed i) → Link (s.phase.Born k) (s.phase.Done k)
      (s.phase.arrivals k) st (s'.exPipe k) (s'.trPipe k)) : Sound s' := by
  have hstage' : ∀ j, j ≠ k → s'.stage j = s.stage j := fun j hj => by
    rw [hstage, Function.update_of_ne hj]
  have hself : s'.stage k = st := by rw [hstage, Function.update_self]
  constructor
  · intro hf j hlive
    rw [hphase] at hf
    by_cases hj : j = k
    · subst hj
      rw [Linked, hphase, hself]
      exact hk hf
    · obtain ⟨hex, htr⟩ := hothers j hj
      rw [hstage' j hj] at hlive
      exact (h.linked hf j hlive).same (by rw [hphase]) (by rw [hphase]) (by rw [hphase])
        (hstage' j hj) hex htr
  · intro j hdead
    by_cases hj : j = k
    · subst hj
      exact absurd (hself.symm.trans hdead) hst
    · rw [hphase, (hothers j hj).1]
      exact h.gone j ((hstage' j hj).symm.trans hdead)
  · rw [hphase, htold]
    exact h.told

/-- **Steps of a trader.** -/
theorem Sound.trader (h : Sound s) (hs : Advances s k s') : Sound s' := by
  cases hs with
  | handler hst =>
    refine h.move rfl rfl rfl nofun (fun j _ => ⟨rfl, rfl⟩) fun hf => ?_
    have hl := h.linked hf k (by simp [hst])
    rw [Linked, hst] at hl
    exact { hl with born := ⟨nofun, fun hb => absurd (hl.born.mpr hb) nofun⟩ }
  | openEx hst =>
    refine h.move rfl rfl rfl nofun (fun j hj => ?_) fun hf => ?_
    · simp [State.exPipe_setPipe_ex, val_cast_ne hj]
    · have hl := h.linked hf k (by simp [hst])
      rw [Linked, hst] at hl
      have hex : s.pipes (exName k.val) = pipeAt 0 (s.phase.arrivals k) 1 := hl.ex
      have htr : s.trPipe k = pipeAt (s.phase.arrivals k) 0 2 := hl.tr
      have hne := pipeAt_write_of_ne (w := 0) (r := s.phase.arrivals k) (j := 2) (by decide)
      refine { born := ⟨nofun, fun hb => absurd (hl.born.mpr hb) nofun⟩, ex := ?_, tr := ?_,
               done := fun hd => absurd (hl.done hd) (by decide), near := nofun }
      · simp [State.exPipe_setPipe_ex, hex, openRead_pipeAt, Stage.arrivals]
      · simp [htr, ← hne, Stage.arrivals]
  | openTr hst hthrough =>
    refine h.move rfl rfl rfl nofun (fun j hj => ?_) fun hf => ?_
    · simp [State.trPipe_setPipe_tr, val_cast_ne hj]
    · have hl := h.linked hf k (by simp [hst])
      rw [Linked, hst] at hl
      have hex : s.exPipe k = pipeAt 1 (s.phase.arrivals k) 1 := hl.ex
      have htr : s.pipes (trName k.val) = pipeAt (s.phase.arrivals k) 1 2 := hl.tr
      have hne := pipeAt_read_of_ne (r := 1) (w := s.phase.arrivals k) (j := 1) (by decide)
      have hend : endAt 1 (s.phase.arrivals k) 1 = .through := by
        rw [show s.pipes (exName k.val) = _ from hex] at hthrough
        exact hthrough
      refine { born := ⟨nofun, fun hb => absurd (hl.born.mpr hb) nofun⟩, ex := ?_, tr := ?_,
               done := fun _ => rfl, near := fun _ => (endAt_through.mp hend).2 }
      · simp [hex, ← hne, Stage.arrivals]
      · simp [State.trPipe_setPipe_tr, htr, openWrite_pipeAt, Stage.arrivals]
  | run hst =>
    refine h.move rfl rfl rfl nofun (fun j _ => ⟨rfl, rfl⟩) fun hf => ?_
    have hl := h.linked hf k (by simp [hst])
    rw [Linked, hst] at hl
    exact { hl with born := ⟨nofun, fun hb => absurd (hl.born.mpr hb) nofun⟩ }

/-! ## Deaths and failures -/

/-- `SIGCHLD` leaves the exchange where it is, or ends an `open`. -/
theorem sigchld_cases (s : State T) : s.sigchld = s.phase ∨
    ∃ i, s.sigchld = .failed i ∧ (s.phase.Tells s.told → s.told = []) := by
  unfold State.sigchld
  split
  · rename_i i hp
    split
    · exact .inr ⟨i.val, rfl, fun ht => by rwa [hp] at ht⟩
    · exact .inl hp.symm
  · rename_i i hp
    split
    · exact .inr ⟨i.val, rfl, fun ht => by rwa [hp] at ht⟩
    · exact .inl hp.symm
  · exact .inl rfl

/-- A call can fail as long as not all are connected. -/
theorem refusal_some {i : Nat} (h : s.refusal = some i) : s.phase = .making i ∨
    ∃ j, s.phase = .forked j ∨ s.phase = .opensEx j ∨ s.phase = .opensTr j := by
  unfold State.refusal at h
  split at h
  · rename_i j hp
    obtain rfl := Option.some.inj h
    exact .inl hp
  · exact .inr ⟨_, .inl ‹_›⟩
  · exact .inr ⟨_, .inr (.inl ‹_›)⟩
  · exact .inr ⟨_, .inr (.inr ‹_›)⟩
  · cases h

/-- **Deaths.** The other traders and their pipes stay as they are. -/
theorem Sound.die (hT : T ≤ 2147483647) (h : Sound s) (hborn : s.stage k ≠ .unborn)
    (hlive : s.stage k ≠ .dead) : Sound (s.die k) := by
  have hex : ∀ j, (s.die k).exPipe j = if j = k then (s.exPipe k).closeRead else s.exPipe j := by
    intro j
    rw [State.die, traderID_eq hT, State.exPipe_setPhase, State.exPipe_setStage,
      State.exPipe_setPipe_tr, State.exPipe_setPipe_ex]
    by_cases hj : j = k
    · subst hj
      rw [if_pos rfl, if_pos rfl]
      rfl
    · rw [if_neg hj, if_neg (val_cast_ne hj)]
  have htr : ∀ j, j ≠ k → (s.die k).trPipe j = s.trPipe j := by
    intro j hj
    rw [State.die, traderID_eq hT, State.trPipe_setPhase, State.trPipe_setStage,
      State.trPipe_setPipe_tr, if_neg (val_cast_ne hj), State.trPipe_setPipe_ex]
  have hstage : ∀ j, j ≠ k → (s.die k).stage j = s.stage j := fun j hj =>
    Function.update_of_ne hj _ _
  have hphase : (s.die k).phase = s.sigchld := rfl
  constructor
  · intro hf j hlive'
    have hj : j ≠ k := by
      rintro rfl
      exact hlive' (Function.update_self ..)
    rw [hphase] at hf
    rcases sigchld_cases s with hsame | ⟨i, hfail, -⟩
    · rw [hsame] at hf
      rw [hstage j hj] at hlive'
      rw [hsame] at hphase
      exact (h.linked hf j hlive').same (by rw [hphase]) (by rw [hphase]) (by rw [hphase])
        (hstage j hj) (by rw [hex, if_neg hj]) (htr j hj)
    · exact absurd hfail (hf i)
  · intro j hdead
    have hgone : s.phase.Born j ∧ ((s.die k).exPipe j).reader = .away := by
      rw [hex]
      by_cases hj : j = k
      · subst hj
        rw [if_pos rfl]
        refine ⟨?_, rfl⟩
        by_cases hf : ∀ i, s.phase ≠ .failed i
        · exact not_not.mp fun hb => hborn ((h.linked hf j hlive).born.mpr hb)
        · obtain ⟨i, hp⟩ := not_forall.mp hf
          rw [not_not.mp hp]
          trivial
      · rw [if_neg hj]
        exact h.gone j ((hstage j hj).symm.trans hdead)
    rcases sigchld_cases s with hsame | ⟨i, hfail, -⟩
    · rw [hphase, hsame]
      exact hgone
    · rw [hphase, hfail]
      exact ⟨trivial, hgone.2⟩
  · show s.sigchld.Tells s.told
    rcases sigchld_cases s with hsame | ⟨i, hfail, hnil⟩
    · rw [hsame]
      exact h.told
    · rw [hfail]
      exact hnil h.told

/-- **The step lemma.** -/
theorem Sound.step (hT : T ≤ 2147483647) (h : Sound s) (hs : Step s a s') : Sound s' := by
  cases hs with
  | exchange hs => exact h.exchange hs
  | trader hs => exact h.trader (advances_of_traderStep hT hs)
  | died hborn hlive => exact h.die hT hborn hlive
  | @refused i hrefused =>
    refine ⟨fun hf => absurd rfl (hf i), fun k hdead => ⟨trivial, (h.gone k hdead).2⟩, ?_⟩
    have ht := h.told
    rcases refusal_some hrefused with hp | ⟨j, hp | hp | hp⟩ <;> rw [hp] at ht <;> exact ht

/-- Whole start-ups. -/
theorem sound_of_reachable (hT : T ≤ 2147483647)
    (h : Transition.Reachable Step State.initial s) : Sound s :=
  h.invariant sound_initial fun _ _ _ _ hi hs => hi.step hT hs

/-! ## No endless runs -/

/-- The steps left for the exchange. -/
def Phase.weight : Phase T → Nat
  | .making i => 4 * (T - i) + T + 2
  | .forked i => 4 * (T - i.val) + T + 1
  | .opensEx i => 4 * (T - i.val) + T
  | .opensTr i => 4 * (T - i.val) + T - 1
  | .telling i => T - i + 1
  | _ => 0

/-- The steps left for a trader. -/
def Stage.weight : Stage → Nat
  | .unborn => 5
  | .forked => 5
  | .ready => 4
  | .opensEx => 3
  | .opensTr => 2
  | .running => 1
  | .dead => 0

def State.weight (s : State T) : Nat :=
  s.phase.weight + ∑ k, (s.stage k).weight

theorem weight_setStage (k : Fin T) (st : Stage) :
    (∑ j, (Function.update s.stage k st j).weight) + (s.stage k).weight =
      (∑ j, (s.stage j).weight) + st.weight := by
  have hsplit : ∀ f : Fin T → Nat, ∑ j, f j = f k + ∑ j ∈ Finset.univ.erase k, f j :=
    fun f => (Finset.add_sum_erase _ f (Finset.mem_univ k)).symm
  have hrest : ∑ j ∈ Finset.univ.erase k, (Function.update s.stage k st j).weight =
      ∑ j ∈ Finset.univ.erase k, (s.stage j).weight := by
    refine Finset.sum_congr rfl fun j hj => ?_
    rw [Function.update_of_ne (Finset.ne_of_mem_erase hj)]
  rw [hsplit fun j => (Function.update s.stage k st j).weight, hsplit fun j => (s.stage j).weight,
    hrest, Function.update_self]
  omega

/-- The exchange has less to do after each of its steps. -/
theorem weight_exchange (h : Sound s) (hs : Proceeds s s') : s'.weight < s.weight := by
  cases hs with
  | @make i hp hi =>
    -- the trader that is forked was not born
    have hunborn : s.stage ⟨i, hi⟩ = .unborn := by
      have hnot : ¬s.phase.Born ⟨i, hi⟩ := by
        rw [hp]
        exact lt_irrefl _
      by_contra hne
      by_cases hdead : s.stage ⟨i, hi⟩ = .dead
      · exact hnot (h.gone _ hdead).1
      · exact hne ((h.linked (by simp [hp]) _ hdead).born.mpr hnot)
    have hsum := weight_setStage (s := s) ⟨i, hi⟩ .forked
    have hsame : Stage.weight .unborn = Stage.weight .forked := rfl
    rw [hunborn, hsame] at hsum
    simp only [State.weight, State.phase_setPhase, State.stage_setPhase, State.stage_setStage,
      State.stage_setPipe, hp, Phase.weight]
    omega
  | openTr hp =>
    simp only [State.weight, State.phase_setPhase, State.stage_setPhase, State.stage_setPipe, hp,
      Phase.weight]
    omega
  | @connect i hp =>
    have hi := i.isLt
    simp only [State.weight, State.phase_setPhase, State.stage_setPhase, hp, Phase.weight]
    omega
  | _ hp =>
    simp only [State.weight, State.phase_setPhase, State.stage_setPhase, State.stage_setPipe, hp,
      Phase.weight]
    omega

/-- A trader that moves on has less to do. -/
theorem weight_move (st : Stage) (hphase : s'.phase.weight ≤ s.phase.weight)
    (hstage : s'.stage = Function.update s.stage k st) (hst : st.weight < (s.stage k).weight) :
    s'.weight < s.weight := by
  have hsum := weight_setStage (s := s) k st
  rw [State.weight, State.weight, hstage]
  omega

theorem weight_trader (hs : Advances s k s') : s'.weight < s.weight := by
  cases hs with
  | handler hst =>
    refine weight_move .ready (le_refl _) rfl ?_
    rw [hst]
    decide
  | openEx hst =>
    refine weight_move .opensEx (le_refl _) rfl ?_
    rw [hst]
    decide
  | openTr hst =>
    refine weight_move .opensTr (le_refl _) rfl ?_
    rw [hst]
    decide
  | run hst =>
    refine weight_move .running (le_refl _) rfl ?_
    rw [hst]
    decide

/-- **Every step uses some of the weight up.** -/
theorem weight_lt (hT : T ≤ 2147483647) (h : Sound s) (hs : Step s a s') :
    s'.weight < s.weight := by
  cases hs with
  | exchange hs => exact weight_exchange h (proceeds_of_exchangeStep hs)
  | trader hs => exact weight_trader (advances_of_traderStep hT hs)
  | @died k hborn hlive =>
    refine weight_move (k := k) .dead ?_ rfl ?_
    · show s.sigchld.weight ≤ _
      rcases sigchld_cases s with hsame | ⟨i, hfail, -⟩
      · rw [hsame]
      · rw [hfail]
        exact Nat.zero_le _
    · cases hst : s.stage k with
      | dead => exact absurd hst hlive
      | _ => decide
  | @refused i hrefused =>
    have hpos : 0 < s.phase.weight := by
      rcases refusal_some hrefused with hp | ⟨j, hp | hp | hp⟩ <;> rw [hp, Phase.weight]
      · omega
      · omega
      · have := j.isLt
        omega
      · have := j.isLt
        omega
    have hzero : (Phase.failed i : Phase T).weight = 0 := rfl
    simp only [State.weight, State.phase_setPhase, State.stage_setPhase, hzero]
    omega

theorem weight_initial : (State.initial : State T).weight = 10 * T + 2 := by
  have hsum : ∑ k, ((State.initial : State T).stage k).weight = T * 5 := by
    rw [show (fun k => ((State.initial : State T).stage k).weight) = fun _ => 5 from rfl,
      Finset.sum_const, Finset.card_univ, Fintype.card_fin, smul_eq_mul]
  have hphase : (State.initial : State T).phase.weight = 4 * (T - 0) + T + 2 := rfl
  rw [State.weight, hsum, hphase]
  omega

/-- A start-up is no longer than the weight at its beginning. -/
theorem weight_run (hT : T ≤ 2147483647) (hr : Transition.Run Step State.initial as s) :
    as.length + s.weight ≤ 10 * T + 2 := by
  rw [← weight_initial]
  exact hr.length_add_le fun hreach hs => weight_lt hT (sound_of_reachable hT hreach) hs

/-! ## How start-ups end -/

/-- All living traders are in their loops and have been told. -/
structure Trading (s : State T) : Prop where
  phase : s.phase = .trading
  told : s.told = List.finRange T
  stage : ∀ k, s.stage k = .running ∨ s.stage k = .dead

/-- The exchange waits for a trader that is dead. -/
def Waiting (s : State T) : Prop :=
  ∃ i, (s.phase = .opensEx i ∨ s.phase = .opensTr i) ∧ s.stage i = .dead

/-- A living trader that cannot go on is in its loop or in `open`. -/
theorem stage_of_idle (hT : T ≤ 2147483647) (h : Sound s) (hidle : s.Idle)
    (hf : ∀ i, s.phase ≠ .failed i) (hborn : s.phase.Born k) (hlive : s.stage k ≠ .dead) :
    1 ≤ (s.stage k).arrivals := by
  have hl := h.linked hf k hlive
  have hstep := hidle.2 k
  cases hst : s.stage k with
  | unborn => exact absurd hborn (hl.born.mp hst)
  | forked => exact absurd hstep (traderStep_ne_none hT (.handler hst))
  | ready => exact absurd hstep (traderStep_ne_none hT (.openEx hst))
  | opensEx => exact le_refl _
  | opensTr => decide
  | running => decide
  | dead => exact absurd hst hlive

/-- The exchange does not wait at the first pipe of a living trader. -/
theorem opensEx_of_idle (hT : T ≤ 2147483647) (h : Sound s) (hidle : s.Idle) {i : Fin T}
    (hp : s.phase = .opensEx i) : s.stage i = .dead := by
  by_contra hlive
  have hf : ∀ i, s.phase ≠ .failed i := by simp [hp]
  have hborn : s.phase.Born i := by
    rw [hp]
    exact le_refl i
  have harr : s.phase.arrivals i = 1 := by simp [hp, Phase.arrivals]
  have hex : s.pipes (exName i.val) = pipeAt (s.stage i).arrivals 1 1 :=
    harr ▸ (h.linked hf i hlive).ex
  -- the trader has come to it too, so the exchange is through
  have hend : (s.pipes (exName i.val)).writer = .through := by
    rw [hex]
    exact endAt_through.mpr ⟨le_refl _, stage_of_idle hT h hidle hf hborn hlive⟩
  have hstep := hidle.1
  unfold State.exchangeStep at hstep
  rw [hp] at hstep
  dsimp only at hstep
  rw [if_pos hend] at hstep
  cases hstep

/-- Nor at the second. -/
theorem opensTr_of_idle (hT : T ≤ 2147483647) (h : Sound s) (hidle : s.Idle) {i : Fin T}
    (hp : s.phase = .opensTr i) : s.stage i = .dead := by
  by_contra hlive
  have hf : ∀ i, s.phase ≠ .failed i := by simp [hp]
  have hborn : s.phase.Born i := by
    rw [hp]
    exact le_refl i
  have harr : s.phase.arrivals i = 2 := by simp [hp, Phase.arrivals]
  have hl := h.linked hf i hlive
  have hex : s.pipes (exName i.val) = pipeAt (s.stage i).arrivals 2 1 := harr ▸ hl.ex
  have htr : s.pipes (trName i.val) = pipeAt 2 (s.stage i).arrivals 2 := harr ▸ hl.tr
  have hone := stage_of_idle hT h hidle hf hborn hlive
  -- the trader is through the first pipe
  have hthrough : (s.pipes (exName i.val)).reader = .through := by
    rw [hex]
    exact endAt_through.mpr ⟨hone, by decide⟩
  have htwo : 2 ≤ (s.stage i).arrivals := by
    cases hst : s.stage i with
    | opensEx => exact absurd (hidle.2 i) (traderStep_ne_none hT (.openTr hst hthrough))
    | opensTr => exact le_refl _
    | running => exact le_refl _
    | _ =>
      rw [hst] at hone
      exact absurd hone (by decide)
  have hend : (s.pipes (trName i.val)).reader = .through := by
    rw [htr]
    exact endAt_through.mpr ⟨le_refl _, htwo⟩
  have hstep := hidle.1
  unfold State.exchangeStep at hstep
  rw [hp] at hstep
  dsimp only at hstep
  rw [if_pos hend] at hstep
  cases hstep

/-- Once it trades, every living trader gets to its loop. -/
theorem trading_of_idle (hT : T ≤ 2147483647) (h : Sound s) (hidle : s.Idle)
    (hp : s.phase = .trading) : Trading s := by
  have ht := h.told
  rw [hp] at ht
  refine ⟨hp, ht, fun k => ?_⟩
  by_cases hdead : s.stage k = .dead
  · exact .inr hdead
  have hl := h.linked (by simp [hp]) k hdead
  have harr : s.phase.arrivals k = 2 := by
    rw [hp]
    rfl
  have htwo : (s.stage k).arrivals = 2 := hl.done (by rw [hp]; trivial)
  have htr : s.pipes (trName k.val) = pipeAt 2 2 2 := by
    have htr := hl.tr
    rw [harr, htwo] at htr
    exact htr
  have hthrough : (s.pipes (trName k.val)).writer = .through := by
    rw [htr]
    rfl
  cases hst : s.stage k with
  | running => exact .inl rfl
  | opensTr => exact absurd (hidle.2 k) (traderStep_ne_none hT (.run hst hthrough))
  | _ =>
    rw [hst] at htwo
    exact absurd htwo (by decide)

/-- **Where nobody can go on.** -/
theorem idle_cases (hT : T ≤ 2147483647) (h : Sound s) (hidle : s.Idle) :
    Trading s ∨ Waiting s ∨ s.phase = .killed ∨ ∃ i, s.phase = .failed i := by
  have hstep := hidle.1
  unfold State.exchangeStep at hstep
  cases hp : s.phase with
  | making i =>
    rw [hp] at hstep
    dsimp only at hstep
    split at hstep <;> cases hstep
  | forked i =>
    rw [hp] at hstep
    cases hstep
  | opensEx i => exact .inr (.inl ⟨i, .inl hp, opensEx_of_idle hT h hidle hp⟩)
  | opensTr i => exact .inr (.inl ⟨i, .inr hp, opensTr_of_idle hT h hidle hp⟩)
  | telling i =>
    rw [hp] at hstep
    dsimp only at hstep
    split at hstep
    · split at hstep <;> cases hstep
    · cases hstep
  | trading => exact .inl (trading_of_idle hT h hidle hp)
  | failed i => exact .inr (.inr (.inr ⟨i, rfl⟩))
  | killed => exact .inr (.inr (.inl rfl))

/-! ## Without deaths -/

/-- Nobody has died and nothing was refused. -/
def Quiet (as : List (Action T)) : Prop :=
  ∀ a ∈ as, a = .exchange ∨ ∃ k, a = .trader k

/-- Everybody lives and the exchange has not failed. -/
structure Well (s : State T) : Prop where
  live : ∀ k, s.stage k ≠ .dead
  killed : s.phase ≠ .killed
  failed : ∀ i, s.phase ≠ .failed i

/-- Where nobody is dead the exchange is not killed. -/
theorem Well.exchange (h : Well s) (hsound : Sound s) (hs : Proceeds s s') : Well s' := by
  cases hs with
  | @make i hp hi =>
    refine ⟨fun k => ?_, nofun, nofun⟩
    by_cases hk : k = ⟨i, hi⟩
    · subst hk
      simp
    · simp [hk, h.live]
  | @killed i hp hi haway =>
    -- whoever is told has come to both pipes
    have hl := hsound.linked h.failed ⟨i, hi⟩ (h.live _)
    have htwo := hl.done (by rw [hp]; trivial)
    have hex : s.pipes (exName i) = pipeAt (s.stage ⟨i, hi⟩).arrivals _ 1 := hl.ex
    rw [hex, htwo] at haway
    have hend : endAt 2 (s.phase.arrivals ⟨i, hi⟩) 1 = .away := haway
    exact absurd (endAt_away.mp hend) (by decide)
  | _ => exact ⟨h.live, nofun, nofun⟩

theorem Well.trader (h : Well s) (hs : Advances s k s') : Well s' := by
  have hset : ∀ st : Stage, st ≠ .dead → ∀ j, Function.update s.stage k st j ≠ .dead := by
    intro st hst j
    by_cases hj : j = k
    · subst hj
      rw [Function.update_self]
      exact hst
    · rw [Function.update_of_ne hj]
      exact h.live j
  cases hs with
  | handler => exact ⟨hset _ nofun, h.killed, h.failed⟩
  | openEx => exact ⟨hset _ nofun, h.killed, h.failed⟩
  | openTr => exact ⟨hset _ nofun, h.killed, h.failed⟩
  | run => exact ⟨hset _ nofun, h.killed, h.failed⟩

/-- Whole start-ups without deaths and refusals. -/
theorem well_of_quiet (hT : T ≤ 2147483647) (hr : Transition.Run Step State.initial as s)
    (hq : Quiet as) : Well s := by
  induction hr with
  | nil => exact ⟨nofun, nofun, nofun⟩
  | @snoc as a s s' hr hs ih =>
    have hwell := ih fun a ha => hq a (List.mem_append_left _ ha)
    have hsound := sound_of_reachable hT ⟨as, hr⟩
    cases hs with
    | exchange hs => exact hwell.exchange hsound (proceeds_of_exchangeStep hs)
    | trader hs => exact hwell.trader (advances_of_traderStep hT hs)
    | died =>
      rcases hq _ (List.mem_append_right _ List.mem_cons_self) with h | ⟨j, h⟩ <;> cases h
    | refused =>
      rcases hq _ (List.mem_append_right _ List.mem_cons_self) with h | ⟨j, h⟩ <;> cases h

end Startup

open Startup

/-! ## Results -/

/-- The traders are told in their order. -/
theorem Startup.Sound.told_inOrder {T : Nat} {s : Startup.State T} (h : Sound s) :
    s.told <+: List.finRange T := by
  have ht := h.told
  cases hp : s.phase with
  | telling i =>
    rw [hp] at ht
    rw [show s.told = _ from ht]
    exact List.take_prefix _ _
  | trading =>
    rw [hp] at ht
    rw [show s.told = _ from ht]
  | killed =>
    rw [hp] at ht
    exact ht
  | _ =>
    rw [hp] at ht
    rw [show s.told = [] from ht]
    exact List.nil_prefix

/-- The processes take their steps in this order. -/
def Startup.State.follow {T : Nat} : List (Startup.Action T) → Startup.State T →
    Option (Startup.State T)
  | [], s => some s
  | .exchange :: as, s => s.exchangeStep.bind (follow as)
  | .trader k :: as, s => (s.traderStep k).bind (follow as)
  | _, _ => none

/-- The steps that are followed are a run. -/
theorem run_of_follow {T : Nat} : ∀ {as : List (Startup.Action T)} {s s' : Startup.State T},
    s.follow as = some s' → Transition.Run Startup.Step s as s'
  | [], _, _, h => by
    cases h
    exact .nil
  | .exchange :: as, s, s', h => by
    obtain ⟨s₁, hs, h⟩ := Option.bind_eq_some_iff.mp h
    have hfirst := Transition.Run.nil.snoc (Startup.Step.exchange hs)
    exact hfirst.append (run_of_follow h)
  | .trader k :: as, s, s', h => by
    obtain ⟨s₁, hs, h⟩ := Option.bind_eq_some_iff.mp h
    have hfirst := Transition.Run.nil.snoc (Startup.Step.trader hs)
    exact hfirst.append (run_of_follow h)

/-- Two traders, until the first has been told. The exchange comes to its first pipe
before it, and it goes into its loop after all the others have gone on. -/
def firstTold {T : Nat} (first second : Fin T) : List (Startup.Action T) :=
  [.exchange, .exchange, .trader first, .trader first, .exchange, .trader first, .exchange,
    .exchange, .trader second, .trader second, .exchange, .exchange, .trader second,
    .trader second, .exchange, .exchange, .exchange]

/-- **Whoever is signalled is ready for it.** `MARKET OPEN` goes to the traders in their
order, to each at most once; the one that gets it lives, has set its signal handler, and
both its pipes are open at both ends. -/
theorem told_connected {T : Nat} (hT : T ≤ 2147483647) {s s' : Startup.State T}
    {a : Startup.Action T} (h : Transition.Reachable Startup.Step State.initial s)
    (hs : Startup.Step s a s') :
    s'.told <+: List.finRange T ∧ ∀ k ∈ s'.told, k ∉ s.told →
      (s.stage k = .opensTr ∨ s.stage k = .running) ∧
        s.pipes (exName k.val) = ⟨.through, .through⟩ ∧
        s.pipes (trName k.val) = ⟨.through, .through⟩ := by
  have hsound := sound_of_reachable hT h
  refine ⟨(hsound.step hT hs).told_inOrder, fun k hk hnew => ?_⟩
  cases hs with
  | exchange hs =>
    cases proceeds_of_exchangeStep hs with
    | @tell i hp hi hread =>
      have hki : k = ⟨i, hi⟩ := by
        rcases List.mem_append.mp hk with hk | hk
        · exact absurd hk hnew
        · exact List.mem_singleton.mp hk
      subst hki
      have hlive : s.stage ⟨i, hi⟩ ≠ .dead := fun hdead => hread (hsound.gone _ hdead).2
      have hl := hsound.linked (by simp [hp]) _ hlive
      have harr : s.phase.arrivals ⟨i, hi⟩ = 2 := by
        rw [hp]
        rfl
      have htwo : (s.stage ⟨i, hi⟩).arrivals = 2 := hl.done (by rw [hp]; trivial)
      refine ⟨?_, ?_, ?_⟩
      · cases hst : s.stage ⟨i, hi⟩ with
        | opensTr => exact .inl rfl
        | running => exact .inr rfl
        | _ =>
          rw [hst] at htwo
          exact absurd htwo (by decide)
      · have hex := hl.ex
        rw [harr, htwo] at hex
        exact hex
      · have htr := hl.tr
        rw [harr, htwo] at htr
        exact htr
    | _ => exact absurd hk hnew
  | trader hs =>
    cases advances_of_traderStep hT hs <;> exact absurd hk hnew
  | died => exact absurd hk hnew
  | refused => exact absurd hk hnew

/-- Trader 1 is told after trader 0. -/
theorem told_connected_two : ∃ s s' : Startup.State 2,
    Transition.Reachable Startup.Step State.initial s ∧ Startup.Step s .exchange s' ∧
      s.told = [0] ∧ s.stage 0 = .opensTr ∧ s'.told = [0, 1] ∧
      s.pipes (exName 1) = ⟨.through, .through⟩ ∧ s.pipes (trName 1) = ⟨.through, .through⟩ := by
  obtain ⟨s, hs, htold, hstage, s', hs', htold'⟩ : ∃ s : Startup.State 2,
      State.initial.follow (firstTold 0 1) = some s ∧ s.told = [0] ∧ s.stage 0 = .opensTr ∧
        ∃ s', s.exchangeStep = some s' ∧ s'.told = [0, 1] := ⟨_, rfl, rfl, rfl, _, rfl, rfl⟩
  have hreach : Transition.Reachable Startup.Step State.initial s := ⟨_, run_of_follow hs⟩
  have hnew : (1 : Fin 2) ∉ s.told := by
    rw [htold]
    decide
  have hmem : (1 : Fin 2) ∈ s'.told := by
    rw [htold']
    decide
  obtain ⟨-, hex, htr⟩ := (told_connected (by decide) hreach (.exchange hs')).2 1 hmem hnew
  exact ⟨s, s', hreach, .exchange hs', htold, hstage, htold', hex, htr⟩

/-- **How start-ups end.** Each is finite. Where nobody can go on, the exchange trades
with everybody who lives, or waits for a trader that is dead, or has failed; and if
nobody has died and nothing was refused, all traders are in their loops and have been
sent what the exchange has written when trading begins. -/
theorem startup_ends {T : Nat} (hT : T ≤ 2147483647) {as : List (Startup.Action T)}
    {s : Startup.State T} (hr : Transition.Run Startup.Step State.initial as s) :
    as.length ≤ 10 * T + 2 ∧
      (s.Idle → Trading s ∨ Waiting s ∨ s.phase = .killed ∨ ∃ i, s.phase = .failed i) ∧
      (Startup.Quiet as → s.Idle → (∀ k, s.stage k = .running) ∧ ∀ P,
        (PeExchange.initial : Exchange P T).out = s.told.map fun k => .message k .marketOpen) := by
  have hsound := sound_of_reachable hT ⟨as, hr⟩
  refine ⟨?_, idle_cases hT hsound, fun hq hidle => ?_⟩
  · have := weight_run hT hr
    omega
  · have hwell := well_of_quiet hT hr hq
    rcases idle_cases hT hsound hidle with ht | ⟨i, -, hdead⟩ | hkilled | ⟨i, hfailed⟩
    · refine ⟨fun k => (ht.stage k).resolve_right (hwell.live k), fun P => ?_⟩
      rw [ht.told]
      exact (List.flatMap_pure_eq_map _ _)
    · exact absurd hdead (hwell.live i)
    · exact absurd hkilled hwell.killed
    · exact absurd hfailed (hwell.failed i)

/-- Both are told, and then trader 0 goes into its loop. -/
theorem startup_ends_two : ∃ s : Startup.State 2,
    Transition.Run Startup.Step State.initial
        (firstTold 0 1 ++ [.exchange, .exchange, .trader 0]) s ∧
      s.Idle ∧ s.told = [0, 1] ∧ ∀ k, s.stage k = .running := by
  obtain ⟨s, hs, hidle, htold⟩ : ∃ s : Startup.State 2,
      State.initial.follow (firstTold 0 1 ++ [.exchange, .exchange, .trader 0]) = some s ∧
        s.Idle ∧ s.told = [0, 1] :=
    ⟨_, rfl, ⟨rfl, fun k => match k with | 0 => rfl | 1 => rfl⟩, rfl⟩
  have hrun := run_of_follow hs
  have hquiet : Startup.Quiet (T := 2) (firstTold 0 1 ++ [.exchange, .exchange, .trader 0]) := by
    intro a ha
    cases a with
    | exchange => exact .inl rfl
    | trader k => exact .inr ⟨k, rfl⟩
    | died => simp [firstTold] at ha
    | refused => simp [firstTold] at ha
  obtain ⟨-, -, hruns⟩ := startup_ends (by decide) hrun
  exact ⟨s, hrun, hidle, htold, (hruns hquiet hidle).1⟩

end PeExchange
