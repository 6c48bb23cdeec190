import PeExchange.Session
import PeExchange.Theory.Identity
import PeExchange.Theory.Ranges

/-!
# Two counters for one sequence of orders

`pe_trader` numbers the orders it sends, and the exchange expects the numbers of
the orders it accepts. The two counters move at different times, and `pe_trader`
never looks at an answer, so they agree only as long as every order is accepted.

An order that answers an offer is accepted (`parse_answer`). But a cancelled sell
order is announced as an offer of 0 units, and `pe_trader` answers that as well;
the order is rejected, and its successors all come one number too late
(`not_agrees`). As long as the event loop reads no such announcement the counters
agree (`agrees_of_run`): the commands on their way are the last ones sent, under
consecutive numbers from the exchange's counter on.
-/

namespace PeExchange

open CFormat LinkedList PeTrader

variable {P T : Nat}

/-! ## Messages of the exchange -/

theorem mem_messagesTo {t : Fin T} {es : List (Event P T)} {m : Msg} :
    m ∈ messagesTo t es ↔ .message t m ∈ es := by
  rw [messagesTo, List.mem_filterMap]
  constructor
  · rintro ⟨e, he, h⟩
    split at h
    · rename_i dest m'
      rw [Option.ite_none_right_eq_some] at h
      obtain ⟨rfl, h⟩ := h
      obtain rfl := Option.some.inj h
      exact he
    · cases h
  · intro h
    exact ⟨_, h, if_pos rfl⟩

/-- What the exchange says of sell orders: its offers are for a product of the list
and, unless they announce a cancellation, at a price to be paid. -/
def Genuine (vp : ValidProducts P) (m : Msg) : Prop :=
  Sendable m ∧ ∀ product q p, m = .market false product q p →
    (∃ i, product = vp.name i) ∧ (q ≠ 0 → 1 ≤ p)

namespace Exchange

variable {A : Arith} {vp : ValidProducts P} {s s' s₁ : Exchange P T} {ind t : Fin T}
  {o : Order P T} {msg : List Char} {m : Msg}

theorem mem_messages {es : List (Event P T)} : (t, m) ∈ messages es ↔ .message t m ∈ es := by
  rw [messages, List.mem_filterMap]
  constructor
  · rintro ⟨e, he, h⟩
    split at h
    · obtain ⟨rfl, rfl⟩ := Prod.mk.inj (Option.some.inj h)
      exact he
    · cases h
  · intro h
    exact ⟨_, h, rfl⟩

/-- The messages that announce an order or a cancellation are all that tells of
sell orders. -/
theorem Outcome.offered (ho : Outcome A vp s msg ind s') (hw : WellFormed vp s)
    {product : List Char} {q p : Int}
    (h : (t, .market false product q p) ∈ messages (s.written s')) :
    (∃ i, product = vp.name i) ∧ (q ≠ 0 → 1 ≤ p) := by
  cases ho with
  | rejected =>
    rw [written_append rfl] at h
    cases (Prod.mk.inj (List.mem_singleton.mp h)).2
  | @traded s₁ s₂ o o' ms ret hin ht =>
    have hv := ((incoming_enters hin).wellFormed hw).2.valid
    rw [messages_traded hin ht] at h
    rcases List.mem_append.mp h with h | h
    · rcases List.mem_cons.mp h with h | h
      · have hack : ackOf msg o ≠ .market false product q p := by
          unfold ackOf
          split <;> exact Msg.noConfusion
        exact absurd (Prod.mk.inj h).2.symm hack
      · obtain ⟨i, -, heq⟩ := List.mem_map.mp h
        obtain ⟨-, hprod, -, hprice⟩ := Msg.market.inj (Prod.mk.inj heq).2
        exact ⟨⟨o.productID, hprod ▸ hv.product⟩, fun _ => hprice ▸ hv.price_pos⟩
    · obtain ⟨x, -, h⟩ := List.mem_flatMap.mp h
      have hno : ∀ (i : Fin T) (id n : Int),
          (t, Msg.market false product q p) ∉ s.notify i (.fill id n) := by
        intro i id n h
        unfold notify at h
        split at h
        · cases (Prod.mk.inj (List.mem_singleton.mp h)).2
        · exact List.not_mem_nil h
      rcases List.mem_append.mp h with h | h
      · exact absurd h (hno _ _ _)
      · exact absurd h (hno _ _ _)
  | @cancelled c id hmsg hc =>
    rw [messages_cancelled] at h
    rcases List.mem_cons.mp h with h | h
    · cases (Prod.mk.inj h).2
    · obtain ⟨i, -, heq⟩ := List.mem_map.mp h
      obtain ⟨-, hprod, hq, -⟩ := Msg.market.inj (Prod.mk.inj heq).2
      have hv := hw.valid _ _ _ (hw.findOrder_in hc).mem
      exact ⟨⟨c.val.productID, hprod ▸ hv.product⟩, fun hne => absurd hq.symm hne⟩

/-- Everything a command writes is genuine. -/
theorem genuine_of_parseMsg (hr : Reachable A vp s) (hp : s.parseMsg A vp msg ind = .ok s') :
    ∀ m ∈ messagesTo t (s.written s'), Genuine vp m := by
  intro m hm
  have ho := parseMsg_outcome hp
  have hmem := mem_messagesTo.mp hm
  have hreach : Reachable A vp s' := Transition.Reachable.step hr (.command hp)
  refine ⟨hreach.sendable (.message t m) ?_ m (List.mem_singleton_self m), ?_⟩
  · rw [ho.out]
    exact List.mem_append_right _ hmem
  · rintro product q p rfl
    exact ho.offered hr.wellFormed (mem_messages.mpr hmem)

/-! ## The answer to an offer -/

/-- The terms of an offer that is answered. -/
structure GoodTerms (vp : ValidProducts P) (o : List Char × Int × Int) : Prop where
  name : ∃ i, o.1 = vp.name i
  named : o.1 ≠ []
  quantity : 1 ≤ o.2.1 ∧ o.2.1 ≤ 999
  price : 1 ≤ o.2.2 ∧ o.2.2 ≤ 999999

theorem spaceCount_createBuyStr {b : BuyOrder} (hid : 0 ≤ b.orderID) (hq : 0 ≤ b.quantity)
    (hp : 0 ≤ b.price) (hprod : ∀ c ∈ b.product, isSpace c = false) :
    spaceCount (createBuyStr b) = 4 := by
  have hdec : ∀ {n : Int}, 0 ≤ n → spaceCount (decimal n) = 0 := fun hn =>
    spaceCount_eq_zero fun _ hc => (decimal_isDecimal hn).not_space _ hc
  have hword : spaceCount "BUY".toList = 0 := rfl
  have hend : spaceCount [';'] = 0 := rfl
  rw [createBuyStr_eq]
  simp only [spaceCount_append, spaceCount_space, hdec hid, hdec hq, hdec hp,
    spaceCount_eq_zero hprod, hword, hend]

/-- An answer to an offer fits the buffers. -/
theorem length_answer_lt {n : Nat} {terms : List Char × Int × Int} (hg : GoodTerms vp terms)
    (hn : n ≤ 999999) :
    (createBuyStr ⟨terms.1, terms.2.1, terms.2.2, n⟩).length < maxLine := by
  obtain ⟨product, q, p⟩ := terms
  obtain ⟨⟨i, hname⟩, hne, hq, hprice⟩ := hg
  simp only at hname hq hprice
  have hfits : product.length < maxProd := hname ▸ vp.fits i
  have hlenid : (decimal (n : Int)).length ≤ 6 :=
    length_decimal_le (by omega) (by decide) (by omega)
  have hlenq : (decimal q).length ≤ 3 := length_decimal_le (by omega) (by decide) (by omega)
  have hlenp : (decimal p).length ≤ 6 := length_decimal_le (by omega) (by decide) (by omega)
  rw [length_createBuyStr]
  unfold maxLine
  unfold maxProd at hfits
  simp only
  omega

/-- An answer to an offer enters the market when its number is the one the
exchange expects. -/
theorem newOrderMsg_answer {n : Nat} {terms : List Char × Int × Int} (hg : GoodTerms vp terms)
    (hn : n ≤ 999999) (hid : (s.traders t).orderID = n) :
    ∃ s₁ o, s.newOrderMsg vp (createBuyStr ⟨terms.1, terms.2.1, terms.2.2, n⟩) t =
      .ok (some (s₁, o)) := by
  have hlen := length_answer_lt hg hn
  obtain ⟨product, q, p⟩ := terms
  obtain ⟨⟨i, hname⟩, hne, hq, hprice⟩ := hg
  simp only at hname hne hq hprice hlen
  have halnum : ∀ c ∈ product, isSpace c = false :=
    fun c hc => not_space_of_isAlphanum (vp.alnum i c (hname ▸ hc))
  have hspaces : spaceCount (createBuyStr ⟨product, q, p, n⟩) = 4 :=
    spaceCount_createBuyStr (by simp only; omega) (by simp only; omega) (by simp only; omega) halnum
  obtain ⟨prod, hfind, hprod⟩ := findProduct_of_name i hname
  have hcreate : createBuySellOrder vp (createBuyStr ⟨product, q, p, n⟩) t (s.traders t) = _ :=
    createBuySellOrder_createBuyStr ⟨hne, halnum⟩ hfind hprod ⟨by omega, by omega⟩
      ⟨hq.1, by omega⟩ hprice hid hlen
  rw [newOrderMsg, if_neg (not_not.mpr hspaces), hcreate]
  exact ⟨_, _, rfl⟩

/-- **An order that answers an offer is accepted** when its number is the one the
exchange expects. -/
theorem parse_answer {n : Nat} {terms : List Char × Int × Int} (hg : GoodTerms vp terms)
    (hn : n ≤ 999999) (hid : (s.traders t).orderID = n)
    (hp : s.parseMsg A vp (createBuyStr ⟨terms.1, terms.2.1, terms.2.2, n⟩) t = .ok s') :
    (s'.traders t).orderID = n + 1 ∧ (t, .invalid) ∉ messages (s.written s') := by
  obtain ⟨s₁, o, hnew⟩ := newOrderMsg_answer hg hn hid
  -- the text starts with `B`
  have hin : s.incoming A vp (createBuyStr ⟨terms.1, terms.2.1, terms.2.2, n⟩) t =
      .ok (some (s₁, o)) := by
    rw [createBuyStr_eq] at hnew ⊢
    exact hnew
  obtain ⟨-, ht, hoid, hs₁⟩ := newOrderMsg_some hnew
  obtain ⟨ms, s₂, o', ret, htr, heq⟩ :=
    matchAndInsert_trades (A := A) (s := s₁) (incoming_enters hin).quantity_pos
  obtain rfl := Except.ok.inj ((heq.symm.trans (parseMsg_of_incoming hin).symm).trans hp)
  refine ⟨?_, not_invalid_traded hin htr⟩
  rw [afterInsert_orderID, htr.shrunk.counters, hs₁]
  show ((Function.update s.traders t _) t).orderID = _
  rw [Function.update_self, hoid, hid]

end Exchange

namespace PeTrader

variable {s s' : State} {a : Action}

/-! ## The steps of the auto-trader -/

theorem handleMsg_frame (h : s.handleMsg = .ok s') :
    s'.pipe = s.pipe ∧ s'.received = s.received := by
  obtain ⟨r, -, h⟩ := bind_eq_ok h
  split at h
  · obtain rfl := Except.ok.inj h
    exact ⟨rfl, rfl⟩
  · split at h
    · obtain rfl := Except.ok.inj h
      exact ⟨rfl, rfl⟩
    · obtain rfl := Except.ok.inj h
      exact ⟨rfl, rfl⟩

/-- The program only takes messages from its pipe. The event loop looks at the one
it takes. -/
theorem Step.seen (h : Step s a s') (ha : ∀ m, a ≠ .write m) :
    (∀ m ∈ s'.pipe, m ∈ s.pipe) ∧ (s'.seen = s.seen ∨
      ∃ m pipe, a = .next ∧ s.loc = .read false ∧ s.pipe = m :: pipe ∧
        s'.seen = s.seen ++ [m]) := by
  cases h with
  | write hm => exact absurd rfl (ha _)
  | @read s' m pipe msg hloc hpipe hmsg hs' =>
    obtain ⟨hpipe', hreceived⟩ := handleMsg_frame hs'
    refine ⟨fun x hx => ?_, .inr ⟨m, pipe, rfl, hloc, hpipe, seen_eq hreceived⟩⟩
    rw [hpipe'] at hx
    rw [hpipe]
    exact List.mem_cons_of_mem _ hx
  | readWaiting hloc hpipe hmsg =>
    refine ⟨fun x hx => ?_, .inl (seen_waiting rfl)⟩
    rw [hpipe]
    exact List.mem_cons_of_mem _ hx
  | signal | handler | pause | received | notReceived | clear | kill | wake =>
    exact ⟨fun _ hx => hx, .inl rfl⟩

/-- The offer that ends the program has taken a number, too. -/
theorem reachable_stopped (h : Transition.Reachable Step initial s) (hstop : s.loc = .stopped) :
    s.traderOrderID = (offers s.seen).length + 1 := by
  revert hstop
  refine Transition.Reachable.invariant
    (I := fun s => s.loc = .stopped → s.traderOrderID = ((offers s.seen).length : Int) + 1)
    (fun hstop => Loc.noConfusion hstop) (fun s a s' hr hi hs => ?_) h
  intro hstop
  cases hs with
  | write => exact hi hstop
  | signal => exact hi hstop
  | handler hpend =>
    refine hi ?_
    by_contra hne
    by_cases hloc : s.loc = .paused
    · rw [hloc] at hstop
      cases hstop
    · simp only [hloc, if_false] at hstop
      exact hne hstop
  | @notReceived wait hloc =>
    cases wait with
    | true => cases hstop
    | false => cases hstop
  | @read s' m pipe msg hloc hpipe hmsg hs' =>
    have hinv := reachable_inv hr
    obtain ⟨hm, -, htext, -⟩ := hinv.read hloc hpipe hmsg
    have hcounter := hinv.counter (by rw [hloc]; exact Loc.noConfusion)
    have hout := @handleMsg_cases { s with
      pipe := pipe, msg := msg, received := s.received ++ [(false, m)] } m hm htext
    rcases hout with ⟨hnone, hout | hout⟩ | ⟨product, q, p, -, hout⟩
    · obtain rfl := Except.ok.inj (hout.symm.trans hs')
      cases hstop
    · obtain rfl := Except.ok.inj (hout.symm.trans hs')
      rw [seen_eq rfl, offers_none hnone]
      exact congrArg (· + 1) hcounter
    · obtain rfl := Except.ok.inj (hout.symm.trans hs')
      cases hstop
  | pause | received | clear | readWaiting | kill | wake => cases hstop

/-- Behind the orders sent before are the answers to the offers seen since. -/
theorem Inv.bought_append (h : Inv s) (h' : Inv s')
    (hseen : s'.seen = s.seen ∨ ∃ m, s'.seen = s.seen ++ [m]) :
    ∃ new, s'.bought = s.bought ++ new := by
  rw [h.bought, h'.bought]
  rcases hseen with heq | ⟨m, heq⟩
  · exact ⟨[], by rw [heq, List.append_nil]⟩
  · rw [heq]
    cases hm : offer m with
    | none => exact ⟨[], by rw [offers_none hm, List.append_nil]⟩
    | some o => exact ⟨_, by rw [offers_some hm, answers_snoc]⟩

theorem getElem_answers {os : List (List Char × Int × Int)} {n : Nat}
    (hn : n < (answers os).length) : ∃ o ∈ os,
      (answers os)[n] = createBuyStr ⟨o.1, o.2.1, o.2.2, n⟩ := by
  have hn' : n < os.length := by simpa [answers, orders] using hn
  exact ⟨os[n], List.getElem_mem hn', by simp [answers, orders]⟩

end PeTrader

namespace Session

variable {A : Arith} {vp : ValidProducts P} {t : Fin T} {w w' : Session P T}
  {a : SessionAction T}

/-! ## The invariant -/

/-- The event loop is not about to look at the announcement of a cancelled sell
order. -/
def NoCancelledOffer (w : Session P T) (a : SessionAction T) : Prop :=
  a = .trader .next → w.trader.loc = .read false →
    ∀ product price, w.trader.pipe.head? ≠ some (.market false product 0 price)

/-- The commands on their way are the last ones sent, from the exchange's counter
on, and none has been rejected. -/
structure InStep (t : Fin T) (w : Session P T) : Prop where
  suffix : ∃ n : Nat, (w.exchange.traders t).orderID = n ∧ n ≤ w.trader.bought.length ∧
    w.inFlight = w.trader.bought.drop n
  valid : (t, .invalid) ∉ messages w.exchange.out

/-- What holds in a run in which no announcement of a cancellation is answered. -/
structure Inv (A : Arith) (vp : ValidProducts P) (t : Fin T) (w : Session P T) : Prop where
  exchange : Reachable A vp w.exchange
  trader : Transition.Reachable PeTrader.Step PeTrader.initial w.trader
  genuine : ∀ m, m ∈ w.outbox ∨ m ∈ w.trader.pipe → Genuine vp m
  answered : ∀ o ∈ offers w.trader.seen, Exchange.GoodTerms vp o
  inStep : w.trader.bought.length ≤ 1000000 → InStep t w

theorem inv_initial (A : Arith) (vp : ValidProducts P) (t : Fin T) : Inv A vp t (initial t) := by
  have hopen : ∀ m, m ∈ messagesTo t (PeExchange.initial : Exchange P T).out → m = .marketOpen := by
    intro m hm
    obtain ⟨i, heq⟩ := mem_initial_out (mem_messagesTo.mp hm)
    exact (Event.message.inj heq).2
  refine ⟨Transition.Reachable.init, Transition.Reachable.init, fun m hm => ?_, fun o ho => ?_,
    fun _ => ⟨⟨0, rfl, Nat.zero_le _, rfl⟩, fun hinv => ?_⟩⟩
  · rcases hm with hm | hm
    · obtain rfl := hopen m hm
      exact ⟨trivial, fun _ _ _ h => Msg.noConfusion h⟩
    · exact absurd hm List.not_mem_nil
  · exact absurd ho List.not_mem_nil
  · cases hopen _ (mem_messagesTo.mpr (Exchange.mem_messages.mp hinv))

/-- The exchange executes a command: what it writes is genuine. -/
theorem Inv.execute {msg : List Char} {ind : Fin T} {s : Exchange P T} (h : Inv A vp t w)
    (hp : w.exchange.parseMsg A vp msg ind = .ok s) :
    Reachable A vp s ∧ ∀ m, m ∈ (w.execute t s).outbox ∨ m ∈ w.trader.pipe → Genuine vp m := by
  refine ⟨Transition.Reachable.step h.exchange (.command hp), fun m hm => ?_⟩
  rcases hm with hm | hm
  · rcases List.mem_append.mp hm with hm | hm
    · exact h.genuine m (.inl hm)
    · exact Exchange.genuine_of_parseMsg h.exchange hp m hm
  · exact h.genuine m (.inr hm)

/-- A command of another trader leaves the counter of `pe_trader` alone. -/
theorem InStep.command {msg : List Char} {ind : Fin T} {s : Exchange P T} (h : InStep t w)
    (hne : ind ≠ t) (hp : w.exchange.parseMsg A vp msg ind = .ok s) :
    InStep t (w.execute t s) := by
  obtain ⟨⟨n, hn, hle, hflight⟩, hvalid⟩ := h
  have ho := Exchange.parseMsg_outcome hp
  have hcounter : (s.traders t).orderID = (w.exchange.traders t).orderID := by
    cases ho with
    | rejected => rfl
    | cancelled => rfl
    | @traded s₁ s₂ o o' ms ret hin ht =>
      rw [Exchange.afterInsert_orderID, ht.shrunk.counters]
      rcases Exchange.incoming_counter hin with ⟨-, -, hs₁⟩ | ⟨-, hs₁⟩
      · rw [hs₁, if_neg (Ne.symm hne)]
      · rw [hs₁]
  refine ⟨⟨n, hcounter.trans hn, hle, hflight⟩, ?_⟩
  show (t, .invalid) ∉ messages s.out
  rw [ho.out, messages_append, List.mem_append, not_or]
  refine ⟨hvalid, ?_⟩
  -- `INVALID` is for the sender
  cases ho with
  | rejected =>
    rw [Exchange.written_append rfl]
    intro hinv
    exact hne (Prod.mk.inj (List.mem_singleton.mp hinv)).1.symm
  | cancelled => exact Exchange.not_invalid_cancelled
  | traded hin ht => exact Exchange.not_invalid_traded hin ht

/-- The exchange reads the next command of `pe_trader`: it has the number expected,
and is accepted. -/
theorem Inv.consume {text : List Char} {rest : List (List Char)} {s : Exchange P T}
    (h : Inv A vp t w) (hlen : w.trader.bought.length ≤ 1000000)
    (hf : w.inFlight = text :: rest) (hp : w.exchange.parseMsg A vp text t = .ok s) :
    InStep t { w.execute t s with inFlight := rest } := by
  obtain ⟨⟨n, hn, hle, hflight⟩, hvalid⟩ := h.inStep hlen
  have hinv := reachable_inv h.trader
  rw [hf] at hflight
  have hlt : n < w.trader.bought.length := by
    by_contra hge
    rw [List.drop_of_length_le (Nat.not_lt.mp hge)] at hflight
    cases hflight
  rw [List.drop_eq_getElem_cons hlt] at hflight
  obtain ⟨htext, hrest⟩ := List.cons.inj hflight
  have hlt' : n < (answers (offers w.trader.seen)).length := hinv.bought ▸ hlt
  obtain ⟨o, ho, heq⟩ := getElem_answers hlt'
  have hnth : text = createBuyStr ⟨o.1, o.2.1, o.2.2, n⟩ := by
    rw [htext, ← heq]
    simp only [hinv.bought]
  rw [hnth] at hp
  obtain ⟨hcounter, hno⟩ :=
    Exchange.parse_answer (h.answered o ho) (by omega) hn hp
  refine ⟨⟨n + 1, hcounter, hlt, hrest⟩, ?_⟩
  show (t, .invalid) ∉ messages s.out
  rw [(Exchange.parseMsg_outcome hp).out, messages_append, List.mem_append, not_or]
  exact ⟨hvalid, hno⟩

/-- `pe_trader` takes a step: what it sends joins the commands on their way. -/
theorem Inv.run {b : PeTrader.Action} {tr : PeTrader.State} (h : Inv A vp t w)
    (hb : ∀ m, b ≠ .write m) (hs : PeTrader.Step w.trader b tr)
    (hno : NoCancelledOffer w (.trader b)) : Inv A vp t (w.run tr) := by
  obtain ⟨hpipe, hseen⟩ := hs.seen hb
  have htr := h.trader.step hs
  have hseen' : tr.seen = w.trader.seen ∨ ∃ m, tr.seen = w.trader.seen ++ [m] :=
    hseen.imp id fun ⟨m, _, _, _, _, heq⟩ => ⟨m, heq⟩
  obtain ⟨new, hnew⟩ := (reachable_inv h.trader).bought_append (reachable_inv htr) hseen'
  refine ⟨h.exchange, htr, fun m hm => ?_, ?_, fun hlen => ?_⟩
  · exact h.genuine m (hm.imp id (hpipe m))
  · show ∀ o ∈ offers tr.seen, _
    rcases hseen with heq | ⟨m, pipe, rfl, hloc, hcons, heq⟩
    · rw [heq]
      exact h.answered
    · rw [heq]
      cases hm : offer m with
      | none =>
        rw [offers_none hm]
        exact h.answered
      | some o =>
        rw [offers_some hm, List.forall_mem_append, List.forall_mem_singleton]
        refine ⟨h.answered, ?_⟩
        -- an offer of fewer than 1000 units, and not of none
        have hgen := h.genuine m (.inr (hcons ▸ List.mem_cons_self))
        unfold offer at hm
        split at hm
        · rename_i product q p
          rw [Option.ite_none_right_eq_some] at hm
          obtain ⟨hlt, hm⟩ := hm
          obtain rfl := Option.some.inj hm
          obtain ⟨⟨⟨hne, -, -⟩, hq, hp⟩, hmarket⟩ := hgen
          obtain ⟨hname, hprice⟩ := hmarket product q p rfl
          have hzero : q ≠ 0 := by
            rintro rfl
            exact hno rfl hloc product p (by rw [hcons]; rfl)
          exact ⟨hname, hne, ⟨by simp only; omega, by simp only; omega⟩, hprice hzero, hp.2⟩
        · cases hm
  · have hbought : (w.run tr).trader.bought = w.trader.bought ++ new := hnew
    rw [hbought, List.length_append] at hlen
    obtain ⟨⟨n, hn, hle, hflight⟩, hvalid⟩ := h.inStep (by omega)
    refine ⟨⟨n, hn, ?_, ?_⟩, hvalid⟩
    · rw [hbought, List.length_append]
      omega
    · show w.inFlight ++ tr.bought.drop w.trader.bought.length = tr.bought.drop n
      rw [hnew, List.drop_left, hflight, List.drop_append_of_le_length hle]

/-- **Every step that meets the condition keeps the invariant.** -/
theorem Inv.step (h : Inv A vp t w) (hs : SessionStep A vp t w a w')
    (hno : NoCancelledOffer w a) : Inv A vp t w' := by
  cases hs with
  | command hne hp =>
    obtain ⟨hreach, hgen⟩ := h.execute hp
    exact ⟨hreach, h.trader, hgen, h.answered, fun hlen => (h.inStep hlen).command hne hp⟩
  | consume hf hp =>
    obtain ⟨hreach, hgen⟩ := h.execute hp
    exact ⟨hreach, h.trader, hgen, h.answered, fun hlen => h.consume hlen hf hp⟩
  | died =>
    refine ⟨Transition.Reachable.step h.exchange .died, h.trader, h.genuine, h.answered,
      fun hlen => ?_⟩
    obtain ⟨⟨n, hn, hrest⟩, hvalid⟩ := h.inStep hlen
    exact ⟨⟨n, by rw [← hn]; exact traderDied_orderID _ _ _, hrest⟩, hvalid⟩
  | @write m outbox ho =>
    have hm : Genuine vp m := h.genuine m (.inl (ho ▸ List.mem_cons_self))
    refine ⟨h.exchange, h.trader.step (.write hm.1), fun x hx => ?_, h.answered, fun hlen => ?_⟩
    rcases hx with hx | hx
    · exact h.genuine x (.inl (ho ▸ List.mem_cons_of_mem _ hx))
    · rcases List.mem_append.mp hx with hx | hx
      · exact h.genuine x (.inr hx)
      · obtain rfl := List.mem_singleton.mp hx
        exact hm
    · obtain ⟨hsuffix, hvalid⟩ := h.inStep hlen
      exact ⟨hsuffix, hvalid⟩
  | trader hb hs => exact h.run hb hs hno

/-- The steps that meet the condition. -/
def CalmStep (A : Arith) (vp : ValidProducts P) (t : Fin T) (w : Session P T)
    (a : SessionAction T) (w' : Session P T) : Prop :=
  SessionStep A vp t w a w' ∧ NoCancelledOffer w a

theorem inv_of_calm (h : Transition.Reachable (CalmStep A vp t) (initial t) w) : Inv A vp t w :=
  Transition.Reachable.invariant (inv_initial A vp t)
    (fun _ _ _ _ hinv hs => hinv.step hs.1 hs.2) h

/-- The two counters agree, and what `pe_trader` has sent was accepted as far as it
has been read. -/
structure Agrees (t : Fin T) (w : Session P T) : Prop where
  counters : (w.exchange.traders t).orderID + w.inFlight.length = w.trader.bought.length
  own : w.trader.traderOrderID =
    w.trader.bought.length + if w.trader.loc = .stopped then 1 else 0
  accepted : acceptedIDs t w.exchange.out =
    (List.range (w.trader.bought.length - w.inFlight.length)).map Int.ofNat
  valid : (t, .invalid) ∉ messages w.exchange.out

/-- **The counters agree in every run** in which the event loop reads no announcement
of a cancelled sell order. -/
theorem agrees_of_run (h : Transition.Reachable (CalmStep A vp t) (initial t) w)
    (hlen : w.trader.bought.length < 1000000) : Agrees t w := by
  have hinv := inv_of_calm h
  obtain ⟨⟨n, hn, hle, hflight⟩, hvalid⟩ := hinv.inStep hlen.le
  have hbought := (reachable_inv hinv.trader).bought
  have hcount : (offers w.trader.seen).length = w.trader.bought.length := by
    rw [hbought, answers, orders, List.length_map, List.length_mapIdx]
  have hlenf : w.inFlight.length = w.trader.bought.length - n := by
    rw [hflight, List.length_drop]
  refine ⟨?_, ?_, ?_, hvalid⟩
  · rw [hn, hlenf]
    omega
  · by_cases hstop : w.trader.loc = .stopped
    · rw [if_pos hstop, reachable_stopped hinv.trader hstop, hcount]
    · rw [if_neg hstop, (reachable_inv hinv.trader).counter hstop, hcount]
      omega
  · obtain ⟨n', hn', hids⟩ := hinv.exchange.counted t
    have hnn : n' = n := by
      rw [hn] at hn'
      exact (Int.ofNat.inj hn').symm
    rw [hids, hlenf, hnn]
    congr 2
    omega

/-! ## A cancelled offer -/

section Run

variable {e : Exchange P T} {outbox : List Msg} {inFlight : List (List Char)} {m : Msg}
  {pipe : List Msg} {k : Nat} {id : Int} {msg : List Char} {bought : List (List Char)}
  {received : List (Bool × Msg)} {b : PeTrader.Action} {s s' : PeTrader.State}

/-- A step of `pe_trader` that reads and sends nothing. -/
theorem calm_quiet (h : Transition.Reachable (CalmStep A vp t) (initial t) ⟨e, outbox, s, inFlight⟩)
    (hs : PeTrader.Step s b s') (hb : ∀ m, b ≠ .write m) (hloc : s.loc ≠ .read false)
    (hbought : s'.bought = s.bought) :
    Transition.Reachable (CalmStep A vp t) (initial t) ⟨e, outbox, s', inFlight⟩ := by
  have hrun : (⟨e, outbox, s, inFlight⟩ : Session P T).run s' = ⟨e, outbox, s', inFlight⟩ := by
    rw [run, hbought, List.drop_length, List.append_nil]
  rw [← hrun]
  exact Transition.Reachable.step h ⟨.trader hb hs, fun _ hloc' => absurd hloc' hloc⟩

/-- A step in which `pe_trader` reads and may send. -/
theorem calm_read (h : Transition.Reachable (CalmStep A vp t) (initial t) ⟨e, outbox, s, inFlight⟩)
    (hs : PeTrader.Step s .next s')
    (hno : ∀ product price, s.pipe.head? ≠ some (.market false product 0 price)) :
    Transition.Reachable (CalmStep A vp t) (initial t)
      ⟨e, outbox, s', inFlight ++ s'.bought.drop s.bought.length⟩ :=
  Transition.Reachable.step h ⟨.trader (by simp) hs, fun _ _ => hno⟩

/-- `pe_trader` goes from its loop to the call of `process_msg`. -/
theorem calm_loop (h : Transition.Reachable (CalmStep A vp t) (initial t) ⟨e, outbox,
      ⟨pipe, k + 1, false, false, id, msg, .loop, bought, received⟩, inFlight⟩) :
    Transition.Reachable (CalmStep A vp t) (initial t) ⟨e, outbox,
      ⟨pipe, k, false, false, id, msg, .read false, bought, received⟩, inFlight⟩ := by
  have hpaused := calm_quiet h (.pause rfl) (by simp) (by simp) rfl
  have hsent := calm_quiet hpaused (.signal (Nat.succ_pos k)) (by simp) (by simp) rfl
  have htest := calm_quiet hsent (.handler rfl) (by simp) (by simp) rfl
  have hclear := calm_quiet htest (.received (by rfl) rfl) (by simp) (by simp) rfl
  exact calm_quiet hclear (.clear rfl) (by simp) (by simp) rfl

/-- It goes from its order to the call in the loop that waits for an answer. -/
theorem calm_wait (h : Transition.Reachable (CalmStep A vp t) (initial t) ⟨e, outbox,
      ⟨pipe, k + 1, false, false, id, msg, .kill, bought, received⟩, inFlight⟩) :
    Transition.Reachable (CalmStep A vp t) (initial t) ⟨e, outbox,
      ⟨pipe, k, false, false, id, msg, .read true, bought, received⟩, inFlight⟩ := by
  have hsleep := calm_quiet h (.kill rfl) (by simp) (by simp) rfl
  have hsent := calm_quiet hsleep (.signal (Nat.succ_pos k)) (by simp) (by simp) rfl
  have hset := calm_quiet hsent (.handler rfl) (by simp) (by simp) rfl
  have htest := calm_quiet hset (.wake rfl) (by simp) (by simp) rfl
  have hclear := calm_quiet htest (.received rfl rfl) (by simp) (by simp) rfl
  exact calm_quiet hclear (.clear rfl) (by simp) (by simp) rfl

end Run

/-- A bid for one unit, and the announcement that an offer is withdrawn. -/
def firstBid : Msg := .market true "GPU".toList 1 1

def withdrawal : Msg := .market false "GPU".toList 0 0

/-- Trader 0 offers 5 units at 30, bids for one, and cancels the offer; the two
orders of the auto-trader, which is trader 1, come after that. -/
theorem exists_withdrawal : ∃ e₁ e₂ e₃ e₄ e₅ : Exchange 2 2,
    (PeExchange.initial.parseMsg .machine testProducts "SELL 0 GPU 5 30;".toList 0 = .ok e₁ ∧
      e₁.parseMsg .machine testProducts "BUY 1 GPU 1 1;".toList 0 = .ok e₂ ∧
      e₂.parseMsg .machine testProducts "CANCEL 0;".toList 0 = .ok e₃ ∧
      e₃.parseMsg .machine testProducts (createBuyStr ⟨"GPU".toList, 5, 30, 0⟩) 1 = .ok e₄ ∧
      e₄.parseMsg .machine testProducts (createBuyStr ⟨"GPU".toList, 0, 0, 1⟩) 1 = .ok e₅) ∧
    messagesTo 1 (e₁.out.drop (PeExchange.initial : Exchange 2 2).out.length) = [firstOffer] ∧
    messagesTo 1 (e₂.out.drop e₁.out.length) = [firstBid] ∧
    messagesTo 1 (e₃.out.drop e₂.out.length) = [withdrawal] ∧ (e₅.traders 1).orderID = 1 := by
  have hrun : okAnd ((PeExchange.initial : Exchange 2 2).parseMsg .machine testProducts
      "SELL 0 GPU 5 30;".toList 0) (fun e₁ =>
    okAnd (e₁.parseMsg .machine testProducts "BUY 1 GPU 1 1;".toList 0) fun e₂ =>
    okAnd (e₂.parseMsg .machine testProducts "CANCEL 0;".toList 0) fun e₃ =>
    okAnd (e₃.parseMsg .machine testProducts (createBuyStr ⟨"GPU".toList, 5, 30, 0⟩) 1) fun e₄ =>
    okAnd (e₄.parseMsg .machine testProducts (createBuyStr ⟨"GPU".toList, 0, 0, 1⟩) 1) fun e₅ =>
    decide (messagesTo 1 (e₁.out.drop (PeExchange.initial : Exchange 2 2).out.length) =
        [firstOffer] ∧ messagesTo 1 (e₂.out.drop e₁.out.length) = [firstBid] ∧
      messagesTo 1 (e₃.out.drop e₂.out.length) = [withdrawal] ∧
      (e₅.traders 1).orderID = 1)) := by
    decide +kernel
  obtain ⟨e₁, h₁, hrun⟩ := exists_of_okAnd hrun
  obtain ⟨e₂, h₂, hrun⟩ := exists_of_okAnd hrun
  obtain ⟨e₃, h₃, hrun⟩ := exists_of_okAnd hrun
  obtain ⟨e₄, h₄, hrun⟩ := exists_of_okAnd hrun
  obtain ⟨e₅, h₅, hrun⟩ := exists_of_okAnd hrun
  exact ⟨e₁, e₂, e₃, e₄, e₅, ⟨h₁, h₂, h₃, h₄, h₅⟩, of_decide_eq_true hrun⟩

/-- The four messages to the auto-trader have been written. -/
theorem calm_written {e₁ e₂ e₃ : Exchange 2 2}
    (h₁ : PeExchange.initial.parseMsg .machine testProducts "SELL 0 GPU 5 30;".toList 0 = .ok e₁)
    (h₂ : e₁.parseMsg .machine testProducts "BUY 1 GPU 1 1;".toList 0 = .ok e₂)
    (h₃ : e₂.parseMsg .machine testProducts "CANCEL 0;".toList 0 = .ok e₃)
    (hm₁ : messagesTo 1 (e₁.out.drop (PeExchange.initial : Exchange 2 2).out.length) =
      [firstOffer])
    (hm₂ : messagesTo 1 (e₂.out.drop e₁.out.length) = [firstBid])
    (hm₃ : messagesTo 1 (e₃.out.drop e₂.out.length) = [withdrawal]) :
    Transition.Reachable (CalmStep .machine testProducts 1) (initial 1) ⟨e₃, [],
      ⟨[.marketOpen, firstOffer, firstBid, withdrawal], 4, false, false, 0,
        List.replicate maxLine '\x00', .loop, [], []⟩, []⟩ := by
  have hopen : messagesTo 1 (PeExchange.initial : Exchange 2 2).out = [.marketOpen] := by decide
  have hcalm : ∀ {w : Session 2 2} {ind : Fin 2} {msg : List Char},
      NoCancelledOffer w (.command ind msg) := by
    intro w ind msg h
    cases h
  have hwrite : ∀ {w : Session 2 2}, NoCancelledOffer w .write := by
    intro w h
    cases h
  have hstart : initial 1 = (⟨PeExchange.initial, [.marketOpen], PeTrader.initial, []⟩ :
      Session 2 2) := by
    rw [initial, hopen]
  have hr₀ : Transition.Reachable (CalmStep .machine testProducts 1) (initial 1)
      (initial 1 : Session 2 2) := Transition.Reachable.init
  have hr₁ := hr₀.step ⟨.command (by decide) h₁, hcalm⟩
  have hr₂ := hr₁.step ⟨.command (by decide) h₂, hcalm⟩
  have hr₃ := hr₂.step ⟨.command (by decide) h₃, hcalm⟩
  have hw₃ : (((initial 1).execute 1 e₁).execute 1 e₂).execute 1 e₃ =
      (⟨e₃, [.marketOpen, firstOffer, firstBid, withdrawal], PeTrader.initial, []⟩ :
        Session 2 2) := by
    rw [hstart]
    simp only [execute, hm₁, hm₂, hm₃]
    rfl
  rw [hw₃] at hr₃
  have hr₄ := hr₃.step ⟨.write rfl, hwrite⟩
  have hr₅ := hr₄.step ⟨.write rfl, hwrite⟩
  have hr₆ := hr₅.step ⟨.write rfl, hwrite⟩
  exact hr₆.step ⟨.write rfl, hwrite⟩

/-- The auto-trader has skipped `MARKET OPEN` and answered the offer. -/
theorem calm_answered {e : Exchange 2 2}
    (h : Transition.Reachable (CalmStep .machine testProducts 1) (initial 1) ⟨e, [],
      ⟨[.marketOpen, firstOffer, firstBid, withdrawal], 4, false, false, 0,
        List.replicate maxLine '\x00', .loop, [], []⟩, []⟩) :
    ∃ msg, msg.length = maxLine ∧
      Transition.Reachable (CalmStep .machine testProducts 1) (initial 1) ⟨e, [],
        ⟨[firstBid, withdrawal], 2, false, false, 1, msg, .kill,
          [createBuyStr ⟨"GPU".toList, 5, 30, 0⟩],
          [(false, .marketOpen), (false, firstOffer)]⟩,
        [createBuyStr ⟨"GPU".toList, 5, 30, 0⟩]⟩ := by
  have hopen : Sendable .marketOpen := trivial
  have hoffer : Sendable firstOffer := sendable_gpu (by decide) (by decide)
  obtain ⟨msg₁, hread₁, htext₁, hlen₁⟩ := processMsg_text hopen (List.length_replicate)
    [firstOffer, firstBid, withdrawal]
  obtain ⟨msg₂, hread₂, htext₂, hlen₂⟩ := processMsg_text hoffer hlen₁ [firstBid, withdrawal]
  have hskip := calm_read (calm_loop h)
    (.read rfl rfl hread₁ (handleMsg_other hopen (by simp) htext₁)) (by simp)
  have hanswer := calm_read (calm_loop hskip)
    (.read rfl rfl hread₂ (handleMsg_buy hoffer htext₂ (by decide))) (by simp [firstOffer])
  exact ⟨msg₂, hlen₂, hanswer⟩

/-- The counters agree after that. -/
theorem agrees_of_run_gpu : ∃ w : Session 2 2,
    Transition.Reachable (CalmStep .machine testProducts 1) (initial 1) w ∧
      w.trader.bought = ["BUY 0 GPU 5 30;".toList] ∧ Agrees 1 w := by
  obtain ⟨e₁, e₂, e₃, e₄, e₅, ⟨h₁, h₂, h₃, -, -⟩, hm₁, hm₂, hm₃, -⟩ := exists_withdrawal
  obtain ⟨msg, -, hreach⟩ := calm_answered (calm_written h₁ h₂ h₃ hm₁ hm₂ hm₃)
  have htext : createBuyStr ⟨"GPU".toList, 5, 30, 0⟩ = "BUY 0 GPU 5 30;".toList := by decide
  exact ⟨_, hreach, congrArg (fun text => [text]) htext,
    agrees_of_run hreach (show 1 < 1000000 by decide)⟩

/-- **The counters need not agree.** The auto-trader reads the bid in place of the
answer to its order, and then answers the withdrawal. -/
theorem not_agrees : ¬ ∀ w : Session 2 2,
    Transition.Reachable (SessionStep .machine testProducts 1) (initial 1) w →
      w.trader.bought.length < 1000000 → Agrees 1 w := by
  intro hall
  obtain ⟨e₁, e₂, e₃, e₄, e₅, ⟨h₁, h₂, h₃, h₄, h₅⟩, hm₁, hm₂, hm₃, hcounter⟩ :=
    exists_withdrawal
  obtain ⟨msg, hlen, hreach⟩ := calm_answered (calm_written h₁ h₂ h₃ hm₁ hm₂ hm₃)
  have hbid : Sendable firstBid :=
    ⟨⟨by decide, List.all_eq_true.mp (by decide), by decide⟩, by decide, by decide⟩
  have hwithdrawal : Sendable withdrawal := sendable_gpu (by decide) (by decide)
  obtain ⟨msg₁, hread₁, -, hlen₁⟩ := processMsg_text hbid hlen [withdrawal]
  obtain ⟨msg₂, hread₂, htext₂, -⟩ := processMsg_text hwithdrawal hlen₁ []
  have hwaited := calm_loop (calm_quiet (calm_wait hreach) (.readWaiting rfl rfl hread₁) (by simp)
    (by simp) rfl)
  -- here the condition is not met
  have hany : Transition.Reachable (SessionStep .machine testProducts 1) _ _ :=
    hwaited.mono fun _ _ _ hs => hs.1
  have hsent := hany.step (.trader (by simp)
    (.read rfl rfl hread₂ (handleMsg_buy hwithdrawal htext₂ (by decide))))
  have hconsumed := (hsent.step (.consume rfl h₄)).step (.consume rfl h₅)
  have hagrees := (hall _ hconsumed (show 2 < 1000000 by decide)).counters
  -- two orders were sent, and one was accepted
  have hone : (e₅.traders 1).orderID + 0 = 2 := hagrees
  rw [hcounter] at hone
  cases hone

end Session

end PeExchange
