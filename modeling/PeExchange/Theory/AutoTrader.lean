import PeExchange.Theory.Delivery
import PeExchange.Theory.RoundTrip

/-!
# What the auto-trader answers

The messages `pe_trader` reads in its event loop are answered, each offer below
1000 units by one order for it (`Inv.bought`). Those it reads while it waits for
the answer to an order are taken for that answer and not looked at: an offer
among them stays without order. So all offers are answered exactly when none is
read there (`answered_iff`).

Every message read has been written: `process_msg` is called once for each signal
at most, and never waits (`reachable_read`).
-/

namespace PeExchange

open CFormat Framing

namespace PeTrader

/-! ## Texts of messages -/

/-- A character of a message other than its last. -/
def Plain (c : Char) : Bool :=
  c.isAlphanum || c = ' '

theorem plain_decimal {n : Int} (h : 0 ≤ n) : ∀ c ∈ decimal n, Plain c = true := by
  intro c hc
  have hdigit := (decimal_isDecimal h).digits c hc
  simp [Plain, Char.isAlphanum, hdigit]

/-- A text of plain characters and a `;` that fits the buffer is read whole. -/
theorem command_of_plain {body : List Char} (h : ∀ c ∈ body, Plain c = true)
    (hlen : body.length ≤ 48) : Command (body ++ [';']) ∧ '\x00' ∉ body ++ [';'] := by
  have hne : ∀ c, Plain c = false → c ∉ body := fun c hc hmem => by
    rw [h c hmem] at hc
    cases hc
  refine ⟨⟨⟨body, hne ';' (by decide), rfl⟩, ?_⟩, ?_⟩
  · rw [List.length_append, List.length_singleton]
    omega
  · rw [List.mem_append, List.mem_singleton]
    rintro (hmem | hmem)
    · exact hne '\x00' (by decide) hmem
    · exact absurd hmem (by decide)

theorem plain_append {a b : List Char} (ha : ∀ c ∈ a, Plain c = true)
    (hb : ∀ c ∈ b, Plain c = true) : ∀ c ∈ a ++ b, Plain c = true :=
  List.forall_mem_append.mpr ⟨ha, hb⟩

/-- A message with one number. -/
theorem exists_plain_number {w : List Char} {n : Int} (hw : w.all Plain = true)
    (hlen : w.length ≤ 10) (hn : 0 ≤ n ∧ n ≤ 999999) :
    ∃ body, w ++ decimal n ++ [';'] = body ++ [';'] ∧ (∀ c ∈ body, Plain c = true) ∧
      body.length ≤ 48 := by
  refine ⟨w ++ decimal n, rfl, plain_append (List.all_eq_true.mp hw) (plain_decimal hn.1), ?_⟩
  have hlenn : (decimal n).length ≤ 6 := length_decimal_le hn.1 (by decide) (by omega)
  rw [List.length_append]
  omega

/-- An offer or a bid. -/
theorem exists_plain_market {w product : List Char} {q p : Int} (hw : w.all Plain = true)
    (hlen : w.length ≤ 12) (h : Sendable (.market true product q p)) :
    ∃ body, w ++ product ++ [' '] ++ decimal q ++ [' '] ++ decimal p ++ [';'] = body ++ [';'] ∧
      (∀ c ∈ body, Plain c = true) ∧ body.length ≤ 48 := by
  obtain ⟨⟨-, halnum, hfits⟩, hq, hp⟩ := h
  have hspace : ∀ c ∈ [' '], Plain c = true := List.all_eq_true.mp (by decide)
  have hprod : ∀ c ∈ product, Plain c = true := fun c hc => by simp [Plain, halnum c hc]
  refine ⟨_, rfl, plain_append (plain_append (plain_append (plain_append (plain_append
    (List.all_eq_true.mp hw) hprod) hspace) (plain_decimal hq.1)) hspace) (plain_decimal hp.1), ?_⟩
  have hlenq : (decimal q).length ≤ 6 := length_decimal_le hq.1 (by decide) (by omega)
  have hlenp : (decimal p).length ≤ 6 := length_decimal_le hp.1 (by decide) (by omega)
  unfold maxProd at hfits
  simp only [List.length_append, List.length_singleton]
  omega

/-- The text of a message is plain up to its last character. -/
theorem exists_plain {m : Msg} (h : Sendable m) :
    ∃ body, m.text = body ++ [';'] ∧ (∀ c ∈ body, Plain c = true) ∧ body.length ≤ 48 := by
  cases m with
  | invalid => exact ⟨"INVALID".toList, rfl, List.all_eq_true.mp (by decide), by decide⟩
  | marketOpen => exact ⟨"MARKET OPEN".toList, rfl, List.all_eq_true.mp (by decide), by decide⟩
  | accepted id => exact exists_plain_number (by decide) (by decide) h
  | amended id => exact exists_plain_number (by decide) (by decide) h
  | cancelled id => exact exists_plain_number (by decide) (by decide) h
  | market isBuy product q p =>
    cases isBuy with
    | true => exact exists_plain_market (by decide) (by decide) h
    | false => exact exists_plain_market (by decide) (by decide) h
  | fill id q =>
    obtain ⟨hid, hq⟩ := h
    have hfill : ∀ c ∈ "FILL ".toList, Plain c = true := List.all_eq_true.mp (by decide)
    have hspace : ∀ c ∈ [' '], Plain c = true := List.all_eq_true.mp (by decide)
    refine ⟨"FILL ".toList ++ decimal id ++ [' '] ++ decimal q, rfl, plain_append (plain_append
      (plain_append hfill (plain_decimal hid.1)) hspace) (plain_decimal hq.1), ?_⟩
    have hlenid : (decimal id).length ≤ 6 := length_decimal_le hid.1 (by decide) (by omega)
    have hlenq : (decimal q).length ≤ 6 := length_decimal_le hq.1 (by decide) (by omega)
    have hlen : "FILL ".toList.length = 5 := rfl
    simp only [List.length_append, List.length_singleton]
    omega

/-- What the exchange sends fits the buffer and is one frame. -/
theorem Sendable.command {m : Msg} (h : Sendable m) : Command m.text ∧ '\x00' ∉ m.text := by
  obtain ⟨body, hbody, hplain, hlen⟩ := exists_plain h
  rw [hbody]
  exact command_of_plain hplain hlen

/-! ## Reading a message -/

/-- `process_msg` stores a command and its terminator over what `msg` holds from
`pre` on. The induction is on the part of the command not read yet. -/
theorem processMsgFrom_command {body : List Char} (hbody : ';' ∉ body) (rest : List ReadResult)
    {pre old : List Char} (hlen : body.length + 2 ≤ old.length) :
    processMsgFrom pre.length (pre ++ old) ((body ++ [';']).map .byte ++ rest) =
      .returned 0 (pre ++ body ++ ';' :: '\x00' :: old.drop (body.length + 2)) rest := by
  induction body generalizing pre old with
  | nil =>
    obtain ⟨a, b, old, rfl⟩ : ∃ a b old', old = a :: b :: old' := by
      cases old with
      | nil => simp at hlen
      | cons a old =>
        cases old with
        | nil => simp at hlen
        | cons b old => exact ⟨a, b, old, rfl⟩
    simp [processMsgFrom]
  | cons c body ih =>
    have hc : c ≠ ';' := fun h => hbody (h ▸ List.mem_cons_self)
    cases old with
    | nil => simp at hlen
    | cons a old =>
      have ih := @ih (fun h => hbody (List.mem_cons_of_mem _ h)) (pre ++ [c]) old
        (by simpa using hlen)
      rw [List.length_append, List.length_singleton, List.append_assoc,
        List.singleton_append] at ih
      simpa [processMsgFrom, hc] using ih

/-- A string ends at its terminator, whatever is behind. -/
theorem cString_terminated {p : List Char} (hp : '\x00' ∉ p) (old : List Char) :
    cString (p ++ '\x00' :: old) = p := by
  have hpos : ∀ c ∈ p, decide (c ≠ '\x00') = true :=
    fun c hc => decide_eq_true fun h => hp (h ▸ hc)
  rw [cString, List.takeWhile_append_of_pos hpos]
  simp

/-- A message that stands at the front of the pipe is read whole. -/
theorem processMsg_text {m : Msg} (hm : Sendable m) {msg : List Char}
    (hlen : msg.length = maxLine) (pipe : List Msg) :
    ∃ msg', processMsg msg (bytes (m :: pipe)) = .returned 0 msg' (bytes pipe) ∧
      cString msg' = m.text ∧ msg'.length = maxLine := by
  obtain ⟨⟨⟨body, hbody, htext⟩, hle⟩, hnul⟩ := hm.command
  rw [htext, List.length_append, List.length_singleton] at hle
  rw [htext] at hnul
  have hroom : body.length + 2 ≤ msg.length := by rw [hlen, maxLine]; omega
  refine ⟨body ++ [';'] ++ '\x00' :: msg.drop (body.length + 2), ?_, ?_, ?_⟩
  · rw [bytes, List.flatMap_cons, List.map_append, htext]
    simpa [processMsg, bytes] using @processMsgFrom_command body hbody (bytes pipe) [] msg hroom
  · rw [htext]
    exact cString_terminated hnul _
  · simp only [List.length_append, List.length_cons, List.length_nil, List.length_drop]
    omega

/-! ## Offers -/

/-- The offer a message makes, if it is one of fewer than 1000 units. -/
def offer : Msg → Option (List Char × Int × Int)
  | .market false product quantity price =>
    if quantity < 1000 then some (product, quantity, price) else none
  | _ => none

/-- A message whose first word is not `MARKET` is not answered. -/
theorem createBuyOrder_word {w rest : List Char} (hw : IsWord w) (hlen : w.length < maxLine)
    (hstop : Stops (fun c => !isSpace c) rest) (hrest : rest.length < maxProd)
    (hne : w ≠ "MARKET".toList) (id : Int) : createBuyOrder id (w ++ rest) .zero = .ok none := by
  have hsizes : ∀ size,
      .str size ∈ fieldFormat offerConversions ++ [.lit ';'] → maxProd ≤ size := by
    intro size hsize
    simp [offerConversions, fieldFormat, Conversion.directives] at hsize
    rcases hsize with rfl | rfl <;> decide
  obtain ⟨args, hargs⟩ := sscanf_short hsizes rest hrest
  have hscan : sscanf offerFormat (w ++ rest) = .ok (.str w :: args) := by
    rw [offerFormat_eq, sscanf_word hw hlen hstop, hargs]
    rfl
  rw [createBuyOrder, scan_eq_ok.mpr hscan]
  exact if_neg hne

/-- A word and a number, as in the answers to commands. -/
theorem createBuyOrder_number {w : List Char} (hw : IsWord w) (hlen : w.length < maxLine)
    (hne : w ≠ "MARKET".toList) {n : Int} (hn : 0 ≤ n ∧ n ≤ 999999) (id : Int) :
    createBuyOrder id (w ++ [' '] ++ decimal n ++ [';']) .zero = .ok none := by
  have hlenn : (decimal n).length ≤ 6 := length_decimal_le hn.1 (by decide) (by omega)
  rw [List.append_assoc, List.append_assoc, List.singleton_append]
  refine createBuyOrder_word hw hlen (stops_cons rfl _) ?_ hne id
  rw [List.length_cons, List.length_append, List.length_singleton]
  unfold maxProd
  omega

/-- A message that is no offer is not answered. -/
theorem createBuyOrder_other {m : Msg} (hm : Sendable m)
    (hother : ∀ product q p, m ≠ .market false product q p) (id : Int) :
    createBuyOrder id m.text .zero = .ok none := by
  cases m with
  | invalid =>
    exact @createBuyOrder_word "INVALID;".toList []
      (isWord_of_any (by decide) (by decide)) (by decide) (stops_nil _) (by decide) (by decide) id
  | marketOpen => rfl
  | accepted n =>
    exact @createBuyOrder_number "ACCEPTED".toList
      (isWord_of_any (by decide) (by decide)) (by decide) (by decide) n hm id
  | amended n =>
    exact @createBuyOrder_number "AMENDED".toList
      (isWord_of_any (by decide) (by decide)) (by decide) (by decide) n hm id
  | cancelled n =>
    exact @createBuyOrder_number "CANCELLED".toList
      (isWord_of_any (by decide) (by decide)) (by decide) (by decide) n hm id
  | market isBuy product q p =>
    cases isBuy with
    | false => exact absurd rfl (hother product q p)
    | true =>
      obtain ⟨⟨hne, halnum, hfits⟩, hq, hp⟩ := hm
      have hword : IsWord product := ⟨hne, fun c hc => not_space_of_isAlphanum (halnum c hc)⟩
      rw [createBuyOrder, scan_eq_ok.mpr (sscanf_market true hword hfits hq hp)]
      rfl
  | fill n q =>
    obtain ⟨hn, hq⟩ := hm
    have hlenn : (decimal n).length ≤ 6 := length_decimal_le hn.1 (by decide) (by omega)
    have hlenq : (decimal q).length ≤ 6 := length_decimal_le hq.1 (by decide) (by omega)
    have htext : (Msg.fill n q).text =
        "FILL".toList ++ ' ' :: (decimal n ++ ' ' :: (decimal q ++ [';'])) := by
      unfold Msg.text
      simp only [List.append_assoc]
      rfl
    rw [htext]
    refine @createBuyOrder_word "FILL".toList _ (isWord_of_any (by decide) (by decide))
      (by decide) (stops_cons rfl _) ?_ (by decide) id
    simp only [List.length_cons, List.length_append, List.length_nil]
    unfold maxProd
    omega

/-- An offer of 1000 units or more ends the program. -/
theorem handleMsg_stop {s : State} {product : List Char} {q p : Int}
    (hm : Sendable (.market false product q p))
    (hmsg : cString s.msg = (Msg.market false product q p).text) (hq : 1000 ≤ q) :
    s.handleMsg = .ok { s with traderOrderID := s.traderOrderID + 1, loc := .stopped } := by
  obtain ⟨⟨hne, halnum, hfits⟩, hq', hp⟩ := hm
  have hword : IsWord product := ⟨hne, fun c hc => not_space_of_isAlphanum (halnum c hc)⟩
  rw [State.handleMsg, hmsg, createBuyOrder_offer hword hfits hq' hp]
  exact if_pos hq

/-- A smaller one is answered. -/
theorem handleMsg_buy {s : State} {product : List Char} {q p : Int}
    (hm : Sendable (.market false product q p))
    (hmsg : cString s.msg = (Msg.market false product q p).text) (hq : q < 1000) :
    s.handleMsg = .ok { s with
      traderOrderID := s.traderOrderID + 1
      bought := s.bought ++ [createBuyStr ⟨product, q, p, s.traderOrderID⟩]
      loc := .kill } := by
  obtain ⟨⟨hne, halnum, hfits⟩, hq', hp⟩ := hm
  have hword : IsWord product := ⟨hne, fun c hc => not_space_of_isAlphanum (halnum c hc)⟩
  rw [State.handleMsg, hmsg, createBuyOrder_offer hword hfits hq' hp]
  exact if_neg (Int.not_le.mpr hq)

theorem handleMsg_other {s : State} {m : Msg} (hm : Sendable m)
    (hother : ∀ product q p, m ≠ .market false product q p) (hmsg : cString s.msg = m.text) :
    s.handleMsg = .ok { s with loc := .loop } := by
  rw [State.handleMsg, hmsg, createBuyOrder_other hm hother]
  rfl

/-- What a message read in the event loop leads to. -/
theorem handleMsg_cases {s : State} {m : Msg} (hm : Sendable m) (hmsg : cString s.msg = m.text) :
    (offer m = none ∧ (s.handleMsg = .ok { s with loc := .loop } ∨
      s.handleMsg = .ok { s with traderOrderID := s.traderOrderID + 1, loc := .stopped })) ∨
    ∃ product q p, offer m = some (product, q, p) ∧ s.handleMsg = .ok { s with
      traderOrderID := s.traderOrderID + 1
      bought := s.bought ++ [createBuyStr ⟨product, q, p, s.traderOrderID⟩]
      loc := .kill } := by
  by_cases hoffer : ∃ product q p, m = .market false product q p
  · obtain ⟨product, q, p, rfl⟩ := hoffer
    by_cases hq : q < 1000
    · exact .inr ⟨product, q, p, if_pos hq, handleMsg_buy hm hmsg hq⟩
    · exact .inl ⟨if_neg hq, .inr (handleMsg_stop hm hmsg (Int.not_lt.mp hq))⟩
  · have hother : ∀ product q p, m ≠ .market false product q p :=
      fun product q p h => hoffer ⟨product, q, p, h⟩
    refine .inl ⟨?_, .inl (handleMsg_other hm hother hmsg)⟩
    unfold offer
    split
    · exact absurd rfl (hother _ _ _)
    · rfl

/-! ## The event loop -/

/-- The offers among some messages. -/
def offers (ms : List Msg) : List (List Char × Int × Int) :=
  ms.filterMap offer

/-- The messages read in the event loop. -/
def State.seen (s : State) : List Msg :=
  (s.received.filter fun r => !r.1).map Prod.snd

variable {s s' : State} {a : Action}

theorem seen_eq {t : State} {m : Msg} (h : t.received = s.received ++ [(false, m)]) :
    t.seen = s.seen ++ [m] := by
  simp [State.seen, h]

theorem seen_waiting {t : State} {m : Msg} (h : t.received = s.received ++ [(true, m)]) :
    t.seen = s.seen := by
  simp [State.seen, h]

/-- The messages read while waiting for an answer. -/
def State.unseen (s : State) : List Msg :=
  (s.received.filter fun r => r.1).map Prod.snd

/-- The orders for some offers, under consecutive identifiers. -/
def orders (os : List (List Char × Int × Int)) : List BuyOrder :=
  os.mapIdx fun k o => ⟨o.1, o.2.1, o.2.2, k⟩

/-- Their texts. -/
def answers (os : List (List Char × Int × Int)) : List (List Char) :=
  (orders os).map createBuyStr

/-- Signals on their way to a call of `process_msg`. -/
def State.signals (s : State) : Nat :=
  s.unsignalled + s.pending.toNat + s.signalReceived.toNat +
    match s.loc with
    | .read _ => 1
    | _ => 0

/-- What holds whenever the program takes a step. -/
structure Inv (s : State) : Prop where
  sendable : ∀ m ∈ s.pipe, Sendable m
  buffer : s.msg.length = maxLine
  flag : ∀ wait, s.loc = .clear wait → s.signalReceived = true
  -- a signal is sent for each message, and may be lost
  signals : s.signals ≤ s.pipe.length
  counter : s.loc ≠ .stopped → s.traderOrderID = (offers s.seen).length
  bought : s.bought = answers (offers s.seen)

theorem inv_initial : Inv initial where
  sendable := nofun
  buffer := rfl
  flag := nofun
  signals := Nat.le_refl 0
  counter _ := rfl
  bought := rfl

theorem offers_none {ms : List Msg} {m : Msg} (h : offer m = none) :
    offers (ms ++ [m]) = offers ms := by
  simp [offers, h]

theorem offers_some {ms : List Msg} {m : Msg} {o : List Char × Int × Int}
    (h : offer m = some o) : offers (ms ++ [m]) = offers ms ++ [o] := by
  simp [offers, h]

theorem answers_snoc (os : List (List Char × Int × Int)) (o : List Char × Int × Int) :
    answers (os ++ [o]) = answers os ++ [createBuyStr ⟨o.1, o.2.1, o.2.2, os.length⟩] := by
  rw [answers, orders, List.mapIdx_concat, List.map_append]
  rfl

/-- Calling `process_msg` uses up one signal and takes one message. -/
theorem Inv.read {m : Msg} {pipe : List Msg} {msg : List Char} {wait : Bool} (h : Inv s)
    (hloc : s.loc = .read wait) (hpipe : s.pipe = m :: pipe)
    (hmsg : processMsg s.msg (bytes s.pipe) = .returned 0 msg (bytes pipe)) :
    Sendable m ∧ (∀ m ∈ pipe, Sendable m) ∧ cString msg = m.text ∧ msg.length = maxLine ∧
      s.unsignalled + s.pending.toNat + s.signalReceived.toNat ≤ pipe.length := by
  have hsend := h.sendable
  rw [hpipe, List.forall_mem_cons] at hsend
  obtain ⟨msg', hread, htext, hlen⟩ := processMsg_text hsend.1 h.buffer pipe
  rw [hpipe, hread] at hmsg
  obtain ⟨-, rfl, -⟩ := Received.returned.inj hmsg
  refine ⟨hsend.1, hsend.2, htext, hlen, ?_⟩
  have hsig := h.signals
  rw [State.signals, hloc, hpipe, List.length_cons] at hsig
  simp only at hsig
  omega

/-- The program goes to another place and may set or clear the flag. -/
theorem Inv.goto (h : Inv s) (hrun : s.loc ≠ .stopped) {flag : Bool} {loc : Loc}
    (hflag : ∀ wait, loc = .clear wait → flag = true)
    (hsignals : State.signals { s with signalReceived := flag, loc := loc } ≤ s.signals) :
    Inv { s with signalReceived := flag, loc := loc } :=
  ⟨h.sendable, h.buffer, hflag, hsignals.trans h.signals, fun _ => h.counter hrun, h.bought⟩

/-- The handler runs: the signal is no longer pending, and the flag is set. -/
theorem Inv.handler (h : Inv s) (hpend : s.pending = true) : Inv { s with
    pending := false
    signalReceived := true
    loc := if s.loc = .paused then .test false else s.loc } := by
  have hsig := h.signals
  refine ⟨h.sendable, h.buffer, fun _ _ => rfl, ?_, fun hstop => ?_, h.bought⟩
  · rw [State.signals, hpend] at hsig
    rw [State.signals]
    by_cases hloc : s.loc = .paused
    · rw [hloc] at hsig
      simp only [hloc, if_true, Bool.toNat_true, Bool.toNat_false] at hsig ⊢
      omega
    · simp only [hloc, if_false, Bool.toNat_true, Bool.toNat_false] at hsig ⊢
      omega
  · refine h.counter fun heq => hstop ?_
    simp [heq]

/-- The program reads a message in the event loop and deals with it. -/
theorem Inv.handleMsg {m : Msg} {pipe : List Msg} {msg : List Char} (h : Inv s)
    (hloc : s.loc = .read false) (hpipe : s.pipe = m :: pipe)
    (hmsg : processMsg s.msg (bytes s.pipe) = .returned 0 msg (bytes pipe))
    (hs' : ({ s with
      pipe := pipe
      msg := msg
      received := s.received ++ [(false, m)] } : State).handleMsg = .ok s') : Inv s' := by
  obtain ⟨hm, hsend, htext, hlen, hle⟩ := h.read hloc hpipe hmsg
  have hcounter := h.counter (by rw [hloc]; nofun)
  have hout := @handleMsg_cases { s with
    pipe := pipe, msg := msg, received := s.received ++ [(false, m)] } m hm htext
  rcases hout with ⟨hnone, hout | hout⟩ | ⟨product, q, p, hoffer, hout⟩
  · -- no offer
    obtain rfl := Except.ok.inj (hout.symm.trans hs')
    refine ⟨hsend, hlen, nofun, hle, fun _ => ?_, ?_⟩
    · rw [seen_eq rfl, offers_none hnone]
      exact hcounter
    · rw [seen_eq rfl, offers_none hnone]
      exact h.bought
  · -- an offer that is too large
    obtain rfl := Except.ok.inj (hout.symm.trans hs')
    refine ⟨hsend, hlen, nofun, hle, fun hstop => absurd rfl hstop, ?_⟩
    rw [seen_eq rfl, offers_none hnone]
    exact h.bought
  · obtain rfl := Except.ok.inj (hout.symm.trans hs')
    refine ⟨hsend, hlen, nofun, hle, fun _ => ?_, ?_⟩
    · rw [seen_eq rfl, offers_some hoffer, List.length_append]
      show s.traderOrderID + 1 = _
      rw [hcounter]
      rfl
    · rw [seen_eq rfl, offers_some hoffer, answers_snoc, ← hcounter, ← h.bought]

/-- **Every step keeps the invariant.** -/
theorem Inv.step (h : Inv s) (hs : Step s a s') : Inv s' := by
  have hsig := h.signals
  have hat : ∀ {loc}, s.loc = loc → loc ≠ .stopped → s.loc ≠ .stopped :=
    fun hloc hne => hloc ▸ hne
  cases hs with
  | write hm =>
    refine ⟨?_, h.buffer, h.flag, ?_, h.counter, h.bought⟩
    · exact List.forall_mem_append.mpr ⟨h.sendable, List.forall_mem_singleton.mpr hm⟩
    · rw [State.signals] at hsig ⊢
      simp only [List.length_append, List.length_singleton]
      omega
  | signal hpos =>
    -- a signal that is pending already stays the only one
    refine ⟨h.sendable, h.buffer, h.flag, ?_, h.counter, h.bought⟩
    rw [State.signals] at hsig ⊢
    simp only [Bool.toNat_true]
    omega
  | handler hpend => exact h.handler hpend
  | pause hloc => exact h.goto (hat hloc nofun) nofun (by simp [State.signals, hloc])
  | received hloc hflag =>
    exact h.goto (hat hloc nofun) (fun _ _ => hflag) (by simp [State.signals, hloc])
  | @notReceived wait hloc =>
    refine h.goto (hat hloc nofun) ?_ ?_
    · cases wait <;> nofun
    · cases wait <;> simp [State.signals, hloc]
  | @clear wait hloc =>
    -- the signal the flag stood for is now on its way to `process_msg`
    refine h.goto (hat hloc nofun) nofun ?_
    simp [State.signals, hloc, h.flag wait hloc]
  | read hloc hpipe hmsg hs' => exact h.handleMsg hloc hpipe hmsg hs'
  | readWaiting hloc hpipe hmsg =>
    obtain ⟨-, hsend, -, hlen, hle⟩ := h.read hloc hpipe hmsg
    refine ⟨hsend, hlen, nofun, hle, fun _ => ?_, ?_⟩
    · rw [seen_waiting rfl]
      exact h.counter (hat hloc nofun)
    · rw [seen_waiting rfl]
      exact h.bought
  | kill hloc => exact h.goto (hat hloc nofun) nofun (by simp [State.signals, hloc])
  | wake hloc => exact h.goto (hat hloc nofun) nofun (by simp [State.signals, hloc])

/-- **The invariant holds in every state of every run.** -/
theorem reachable_inv (h : Transition.Reachable Step initial s) : Inv s :=
  Transition.Reachable.invariant inv_initial (fun _ _ _ _ hinv hs => hinv.step hs) h

/-- **The program never waits in `read`**: when it calls `process_msg`, there is a
message in the pipe and the program goes on with it. -/
theorem reachable_read {wait : Bool} (h : Transition.Reachable Step initial s)
    (hloc : s.loc = .read wait) : ∃ s', Step s .next s' := by
  have hinv := reachable_inv h
  have hsig := hinv.signals
  cases hpipe : s.pipe with
  | nil =>
    rw [State.signals, hloc, hpipe] at hsig
    simp at hsig
  | cons m pipe =>
    have hm := hinv.sendable m (hpipe ▸ List.mem_cons_self)
    obtain ⟨msg, hread, htext, -⟩ := processMsg_text hm hinv.buffer pipe
    rw [← hpipe] at hread
    cases wait with
    | true => exact ⟨_, .readWaiting hloc hpipe hread⟩
    | false =>
      have hout := @handleMsg_cases { s with
        pipe := pipe, msg := msg, received := s.received ++ [(false, m)] } m hm htext
      rcases hout with ⟨-, hout | hout⟩ | ⟨product, q, p, -, hout⟩ <;>
        exact ⟨_, .read hloc hpipe hread hout⟩

/-! ## Offers and answers -/

/-- What an order says of its product, quantity and price. -/
def BuyOrder.terms (o : BuyOrder) : List Char × Int × Int :=
  (o.product, o.quantity, o.price)

/-- The orders sent are for the offers read, one for each. -/
def AllAnswered (s : State) : Prop :=
  ∃ os : List BuyOrder, s.bought = os.map createBuyStr ∧
    (os.map BuyOrder.terms).Perm (offers (s.received.map Prod.snd))

/-- Every message is read in one of the two loops. -/
theorem received_perm (s : State) :
    (offers (s.received.map Prod.snd)).Perm (offers s.unseen ++ offers s.seen) := by
  have hsplit := (List.filter_append_perm (fun r : Bool × Msg => r.1) s.received).map Prod.snd
  rw [List.map_append] at hsplit
  have hoffers := hsplit.symm.filterMap offer
  rwa [List.filterMap_append] at hoffers

/-- The orders for some offers say what the offers say. -/
theorem orders_terms (os : List (List Char × Int × Int)) :
    (orders os).map BuyOrder.terms = os := by
  refine List.ext_getElem (by simp [orders]) fun k _ _ => ?_
  simp [orders, BuyOrder.terms]

theorem answered_iff (h : Transition.Reachable Step initial s) :
    AllAnswered s ↔ ∀ m, (true, m) ∈ s.received → offer m = none := by
  have hbought := (reachable_inv h).bought
  have hunseen : (∀ m, (true, m) ∈ s.received → offer m = none) ↔ offers s.unseen = [] := by
    rw [offers, List.filterMap_eq_nil_iff]
    simp [State.unseen]
  rw [hunseen]
  constructor
  · rintro ⟨os, hos, hperm⟩
    -- as many orders as offers read in the event loop
    have hlen := (hperm.trans (received_perm s)).length_eq
    have hlen' := congrArg List.length (hbought.symm.trans hos)
    rw [answers, orders, List.length_map, List.length_mapIdx, List.length_map] at hlen'
    rw [List.length_map, List.length_append] at hlen
    exact List.eq_nil_of_length_eq_zero (by omega)
  · intro hnil
    have hperm := received_perm s
    rw [hnil, List.nil_append] at hperm
    refine ⟨orders (offers s.seen), hbought, ?_⟩
    rw [orders_terms]
    exact hperm.symm

/-! ## An offer in place of an answer -/

/-- 5 units at 30, of one trader, and 7 at 31, of another. -/
def firstOffer : Msg := .market false "GPU".toList 5 30

def secondOffer : Msg := .market false "GPU".toList 7 31

theorem sendable_gpu {q p : Int} (hq : 0 ≤ q ∧ q ≤ 999999) (hp : 0 ≤ p ∧ p ≤ 999999) :
    Sendable (.market false "GPU".toList q p) :=
  ⟨⟨nofun, List.all_eq_true.mp (by decide), by decide⟩, hq, hp⟩

/-- The program answers the first offer and is about to signal that. -/
theorem reachable_first : ∃ msg, msg.length = maxLine ∧ Transition.Reachable Step initial
    { initial with
      traderOrderID := 1
      msg := msg
      loc := .kill
      bought := [createBuyStr ⟨"GPU".toList, 5, 30, 0⟩]
      received := [(false, firstOffer)] } := by
  have hm : Sendable firstOffer := sendable_gpu (by decide) (by decide)
  obtain ⟨msg, hread, htext, hlen⟩ := processMsg_text hm (List.length_replicate) []
  have hpaused := Transition.Reachable.init.step (Step.pause (s := initial) rfl)
  have hwritten := (hpaused.step (.write hm)).step (.signal (Nat.succ_pos _))
  have htested := (hwritten.step (.handler rfl)).step (.received rfl rfl)
  have hcleared := htested.step (.clear rfl)
  have hbuy := hcleared.step (.read rfl rfl hread (handleMsg_buy hm htext (by decide)))
  exact ⟨msg, hlen, hbuy⟩

theorem answered_iff_gpu : ∃ s, Transition.Reachable Step initial s ∧
    s.bought = ["BUY 0 GPU 5 30;".toList] ∧ AllAnswered s := by
  obtain ⟨msg, -, hreach⟩ := reachable_first
  have htext : createBuyStr ⟨"GPU".toList, 5, 30, 0⟩ = "BUY 0 GPU 5 30;".toList := by decide
  refine ⟨_, hreach, congrArg (fun text => [text]) htext, (answered_iff hreach).mpr ?_⟩
  intro m hmem
  cases List.mem_singleton.mp hmem

/-- The second offer comes while the program waits for the answer to its order. -/
theorem reachable_second : ∃ msg, Transition.Reachable Step initial
    { initial with
      traderOrderID := 1
      msg := msg
      loc := .loop
      bought := [createBuyStr ⟨"GPU".toList, 5, 30, 0⟩]
      received := [(false, firstOffer), (true, secondOffer)] } := by
  obtain ⟨msg, hlen, hfirst⟩ := reachable_first
  have hm : Sendable secondOffer := sendable_gpu (by decide) (by decide)
  obtain ⟨msg', hread, -, -⟩ := processMsg_text hm hlen []
  have hwritten := ((hfirst.step (.kill rfl)).step (.write hm)).step (.signal (Nat.succ_pos _))
  have hwoken := (hwritten.step (.handler rfl)).step (.wake rfl)
  have hcleared := (hwoken.step (.received rfl rfl)).step (.clear rfl)
  exact ⟨msg', hcleared.step (.readWaiting rfl rfl hread)⟩

/-- It stays without order. -/
theorem not_allAnswered : ¬ ∀ s, Transition.Reachable Step initial s → AllAnswered s := by
  intro hall
  obtain ⟨msg, hreach⟩ := reachable_second
  obtain ⟨os, hos, hperm⟩ := hall _ hreach
  -- one order for two offers
  have hone : 1 = (os.map createBuyStr).length := congrArg List.length hos
  have htwo : (os.map BuyOrder.terms).length = 2 := hperm.length_eq
  rw [List.length_map] at hone htwo
  omega

end PeTrader

end PeExchange
