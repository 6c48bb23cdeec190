import PeExchange.Lib.Layout
import PeExchange.Theory.Agreement

/-!
# What goes over the pipes to the traders

The messages to a trader are written to its pipe one behind the other, with nothing
between them.

- `msgLayout`: the formats of the seven `write_*` functions as a layout. No format
  begins as another does, and each has its own end.
- `stream_read`: what has been written to a trader is read back as the messages to
  it, for every trader and in every reachable state.
-/

namespace PeExchange

open CFormat Layout PeTrader

variable {P T : Nat}

/-! ## The formats -/

inductive MsgTag where
  | invalid
  | accepted
  | amended
  | cancelled
  | market (isBuy : Bool)
  | fill
  | marketOpen
deriving DecidableEq, Repr

def Msg.tag : Msg → MsgTag
  | .invalid => .invalid
  | .accepted _ => .accepted
  | .amended _ => .amended
  | .cancelled _ => .cancelled
  | .market isBuy _ _ _ => .market isBuy
  | .fill _ _ => .fill
  | .marketOpen => .marketOpen

/-- How a message begins. -/
def MsgTag.word : MsgTag → List Char
  | .invalid => "INVALID;".toList
  | .accepted => "ACCEPTED ".toList
  | .amended => "AMENDED ".toList
  | .cancelled => "CANCELLED ".toList
  | .market true => "MARKET BUY ".toList
  | .market false => "MARKET SELL ".toList
  | .fill => "FILL ".toList
  | .marketOpen => "MARKET OPEN;".toList

def MsgTag.all : List MsgTag :=
  [.invalid, .accepted, .amended, .cancelled, .market true, .market false, .fill, .marketOpen]

theorem MsgTag.mem_all (k : MsgTag) : k ∈ MsgTag.all := by
  cases k with
  | market isBuy => cases isBuy <;> decide
  | _ => decide

theorem MsgTag.word_ne_nil (k : MsgTag) : k.word ≠ [] := by
  cases k with
  | market isBuy => cases isBuy <;> decide
  | _ => decide

/-- What follows the first word of a message. -/
def termsLayout : MsgTag → Layout Msg
  | .invalid =>
    (lit []).variant (fun _ => .invalid) (fun | .invalid => some () | _ => none)
      (fun m r h => by cases m <;> cases h; rfl)
  | .accepted =>
    (number ";".toList (by decide)).variant .accepted (fun | .accepted id => some id | _ => none)
      (fun m r h => by cases m <;> cases h; rfl)
  | .amended =>
    (number ";".toList (by decide)).variant .amended (fun | .amended id => some id | _ => none)
      (fun m r h => by cases m <;> cases h; rfl)
  | .cancelled =>
    (number ";".toList (by decide)).variant .cancelled
      (fun | .cancelled id => some id | _ => none) (fun m r h => by cases m <;> cases h; rfl)
  | .market isBuy =>
    (dep (word Char.isAlphanum " ".toList (by decide)) fun _ =>
      dep (number " ".toList (by decide)) fun _ => number ";".toList (by decide)).variant
      (fun r => .market isBuy r.1 r.2.1 r.2.2)
      (fun
        | .market b product q p => if b = isBuy then some (product, q, p) else none
        | _ => none)
      (fun m r h => by
        cases m with
        | market b product q p =>
          rw [Option.ite_none_right_eq_some] at h
          obtain ⟨rfl, h⟩ := h
          obtain rfl := Option.some.inj h
          rfl
        | _ => cases h)
  | .fill =>
    (dep (number " ".toList (by decide)) fun _ => number ";".toList (by decide)).variant
      (fun r => .fill r.1 r.2) (fun | .fill id q => some (id, q) | _ => none)
      (fun m r h => by cases m <;> cases h; rfl)
  | .marketOpen =>
    (lit []).variant (fun _ => .marketOpen) (fun | .marketOpen => some () | _ => none)
      (fun m r h => by cases m <;> cases h; rfl)

/-- The messages of the exchange. -/
def msgLayout : Layout Msg :=
  tagged MsgTag.all MsgTag.word Msg.tag termsLayout (by decide)

/-- **The layout prints what `sprintf` does.** -/
theorem msgLayout_text (m : Msg) : msgLayout.text m = m.text := by
  cases m with
  | invalid => rfl
  | accepted id =>
    have hparts : msgLayout.text (.accepted id) =
        "ACCEPTED ".toList ++ (decimal id ++ ";".toList) := rfl
    rw [hparts, ← List.append_assoc]
    rfl
  | amended id =>
    have hparts : msgLayout.text (.amended id) =
        "AMENDED ".toList ++ (decimal id ++ ";".toList) := rfl
    rw [hparts, ← List.append_assoc]
    rfl
  | cancelled id =>
    have hparts : msgLayout.text (.cancelled id) =
        "CANCELLED ".toList ++ (decimal id ++ ";".toList) := rfl
    rw [hparts, ← List.append_assoc]
    rfl
  | market isBuy product q p =>
    have hparts : msgLayout.text (.market isBuy product q p) = (MsgTag.market isBuy).word ++
        (product ++ " ".toList ++ (decimal q ++ " ".toList ++ (decimal p ++ ";".toList))) := by
      show _ ++ ((if isBuy = isBuy then _ else none : Option _)).elim [] _ = _
      rw [if_pos rfl]
      rfl
    rw [hparts]
    simp only [← List.append_assoc]
    cases isBuy <;> rfl
  | fill id q =>
    have hparts : msgLayout.text (.fill id q) =
        "FILL ".toList ++ (decimal id ++ " ".toList ++ (decimal q ++ ";".toList)) := rfl
    rw [hparts]
    simp only [← List.append_assoc]
    rfl
  | marketOpen => rfl

/-- A message that is sent is read back. -/
theorem msgLayout_valid {m : Msg} (h : Sendable m) : msgLayout.Valid m := by
  refine ⟨MsgTag.mem_all _, ?_⟩
  cases m with
  | invalid => exact ⟨_, rfl, trivial⟩
  | accepted id => exact ⟨_, rfl, trivial⟩
  | amended id => exact ⟨_, rfl, trivial⟩
  | cancelled id => exact ⟨_, rfl, trivial⟩
  | market isBuy product q p => exact ⟨(product, q, p), if_pos rfl, h.1.2.1, trivial, trivial⟩
  | fill id q => exact ⟨_, rfl, trivial, trivial⟩
  | marketOpen => exact ⟨_, rfl, trivial⟩

theorem msgLayout_text_ne_nil (m : Msg) : msgLayout.text m ≠ [] := by
  intro h
  exact MsgTag.word_ne_nil m.tag (List.append_eq_nil_iff.mp h).1

/-! ## The stream -/

/-- Messages written one behind the other are cut where they end. -/
theorem readAll_messages {ms : List Msg} (h : ∀ m ∈ ms, Sendable m) :
    msgLayout.readAll (ms.flatMap Msg.text) = some ms := by
  rw [← List.flatMap_congr fun m _ => msgLayout_text m]
  exact readAll_flatMap (fun m hm => msgLayout_valid (h m hm)) fun m _ => msgLayout_text_ne_nil m

/-- What has been written to the pipe of a trader. -/
def stream (t : Fin T) (s : Exchange P T) : List Char :=
  (messagesTo t s.out).flatMap Msg.text

/-- **What is written to a trader is read back** as the messages to it. -/
theorem stream_read {A : Arith} {vp : ValidProducts P} {s : Exchange P T}
    (h : Reachable A vp s) (t : Fin T) :
    msgLayout.readAll (stream t s) = some (messagesTo t s.out) :=
  readAll_messages fun m hm => h.sendable _ (mem_messagesTo.mp hm) m (List.mem_singleton_self m)

/-- No other messages have these bytes. -/
theorem stream_unique {A : Arith} {vp : ValidProducts P} {s : Exchange P T}
    (h : Reachable A vp s) {t : Fin T} {ms : List Msg} (hms : ∀ m ∈ ms, Sendable m)
    (heq : ms.flatMap Msg.text = stream t s) : ms = messagesTo t s.out := by
  have hread := readAll_messages hms
  rw [heq, stream_read h t] at hread
  exact (Option.some.inj hread).symm

end PeExchange
