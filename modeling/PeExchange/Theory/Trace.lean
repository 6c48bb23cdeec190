import PeExchange.Theory.Books

/-!
# What a command writes

The output only grows; what a command adds to it is `written`.

- `incoming_out`, `Trades.out`: the entries added when an order enters the
  market and by the matching loop. Both depend on the traders' `alive` flags
  only, which no command changes.
- `accepted_messages`: the messages of an accepted command.
-/

namespace PeExchange

open CFormat LinkedList

variable {P T : Nat}

/-- The messages among output entries, with their recipients. -/
def messages (es : List (Event P T)) : List (Fin T × Msg) :=
  es.filterMap fun
    | .message dest msg => some (dest, msg)
    | _ => none

/-- The matches reported among output entries: new order and resting order. -/
def matchesOf (es : List (Event P T)) : List (Order P T × Order P T) :=
  es.filterMap fun
    | .matched newOrder oldOrder _ _ => some (newOrder, oldOrder)
    | _ => none

@[simp] theorem messages_append (es es' : List (Event P T)) :
    messages (es ++ es') = messages es ++ messages es' :=
  List.filterMap_append

@[simp] theorem messages_cons (e : Event P T) (es : List (Event P T)) :
    messages (e :: es) = messages [e] ++ messages es :=
  messages_append [e] es

@[simp] theorem matchesOf_append (es es' : List (Event P T)) :
    matchesOf (es ++ es') = matchesOf es ++ matchesOf es' :=
  List.filterMap_append

/-- The answer to a trader whose command was accepted: an amendment starts with
`A`. -/
def ackOf (msg : List Char) (o : Order P T) : Msg :=
  match msg with
  | 'A' :: _ => .amended o.orderID
  | _ => .accepted o.orderID

namespace Exchange

/-- What was written between two states. -/
def written (s s' : Exchange P T) : List (Event P T) :=
  s'.out.drop s.out.length

theorem written_append {s s' : Exchange P T} {es : List (Event P T)} (h : s'.out = s.out ++ es) :
    s.written s' = es := by
  rw [written, h, List.drop_left]

/-- The traders other than `ind` that are alive. -/
def others (s : Exchange P T) (ind : Fin T) : List (Fin T) :=
  (List.finRange T).filter fun i => i ≠ ind && (s.traders i).alive

/-- A message to a trader that is alive. -/
def notify (s : Exchange P T) (trader : Fin T) (msg : Msg) : List (Fin T × Msg) :=
  if (s.traders trader).alive then [(trader, msg)] else []

/-- The two `FILL` messages of a match. -/
def fillNotices (s : Exchange P T) (m : Order P T × Order P T) : List (Fin T × Msg) :=
  s.notify (buyOf m.1 m.2).traderID (.fill (buyOf m.1 m.2).orderID (tradedQuantity m.1 m.2)) ++
    s.notify (sellOf m.1 m.2).traderID (.fill (sellOf m.1 m.2).orderID (tradedQuantity m.1 m.2))

variable {A : Arith} {vp : ValidProducts P} {s s' s₁ s₂ : Exchange P T} {ind : Fin T}
  {o o' : Order P T} {c : Cell (Order P T)} {ms : List (Order P T × Order P T)} {ret : Int}
  {msg : List Char}

/-! ## Entries that depend on the `alive` flags only -/

theorem ifAlive_congr (h : ∀ t, (s'.traders t).alive = (s.traders t).alive) (t : Fin T)
    (m : Msg) : s'.ifAlive t m = s.ifAlive t m := by
  unfold ifAlive
  rw [h]

theorem toOthers_congr (h : ∀ t, (s'.traders t).alive = (s.traders t).alive) (t : Fin T)
    (m : Msg) : s'.toOthers t m = s.toOthers t m := by
  unfold toOthers
  simp only [h]

theorem matchEvents_congr (h : ∀ t, (s'.traders t).alive = (s.traders t).alive) :
    s'.matchEvents = s.matchEvents := by
  funext o r
  unfold matchEvents
  rw [ifAlive_congr h, ifAlive_congr h]

theorem messages_ifAlive (s : Exchange P T) (t : Fin T) (m : Msg) :
    messages (s.ifAlive t m) = s.notify t m := by
  unfold ifAlive notify
  split <;> rfl

/-- Each of the others that is alive gets the message. -/
theorem messages_toOthers (s : Exchange P T) (ind : Fin T) (m : Msg) :
    messages (s.toOthers ind m) = (s.others ind).map fun i => (i, m) := by
  unfold messages toOthers others
  rw [List.filterMap_map]
  exact congrFun List.filterMap_eq_map _

theorem messages_matchEvents (s : Exchange P T) (o r : Order P T) :
    messages (s.matchEvents o r) = s.fillNotices (o, r) := by
  unfold matchEvents fillNotices
  rw [messages_cons, messages_append, messages_append, messages_ifAlive, messages_ifAlive]
  exact List.append_nil _

theorem matchesOf_toOthers (s : Exchange P T) (ind : Fin T) (m : Msg) :
    matchesOf (s.toOthers ind m) = [] := by
  unfold matchesOf toOthers
  rw [List.filterMap_map]
  exact List.filterMap_eq_nil_iff.mpr fun _ _ => rfl

theorem matchesOf_matchEvents (s : Exchange P T) (o r : Order P T) :
    matchesOf (s.matchEvents o r) = [(o, r)] := by
  rw [matchesOf, filterMap_matchEvents s o r fun _ _ => rfl]
  rfl

theorem messages_flatMap (s : Exchange P T) (ms : List (Order P T × Order P T)) :
    messages (ms.flatMap fun m => s.matchEvents m.1 m.2) = ms.flatMap s.fillNotices := by
  induction ms with
  | nil => rfl
  | cons m ms ih =>
    rw [List.flatMap_cons, messages_append, messages_matchEvents, ih, List.flatMap_cons]

theorem matchesOf_flatMap (s : Exchange P T) (ms : List (Order P T × Order P T)) :
    matchesOf (ms.flatMap fun m => s.matchEvents m.1 m.2) = ms := by
  induction ms with
  | nil => rfl
  | cons m ms ih =>
    rw [List.flatMap_cons, matchesOf_append, matchesOf_matchEvents, ih]
    rfl

/-! ## The matching loop -/

/-- Matching disconnects nobody. -/
theorem Trades.alive (ht : Trades A s o ms s' o' ret) (t : Fin T) :
    (s'.traders t).alive = (s.traders t).alive := by
  induction ht with
  | stop => rfl
  | last => exact execMatch_alive _ _ _ _ _
  | more _ _ _ _ ih => rw [ih, execMatch_alive]

/-- **The output of the matching loop**: the entries of its matches, in order. -/
theorem Trades.out (ht : Trades A s o ms s' o' ret) :
    s'.out = s.out ++ ms.flatMap fun m => s.matchEvents m.1 m.2 := by
  induction ht with
  | stop => simp
  | last => simp
  | @more s s' o o' c ms ret _ _ _ _ ih =>
    -- the first match changes nobody's `alive` flag
    rw [ih, execMatch_out, matchEvents_congr (execMatch_alive A s o c), List.flatMap_cons,
      List.append_assoc]

/-- Every match is between what is left of the new order and an order that
rested before the loop. -/
theorem Trades.mem_matches (ht : Trades A s o ms s' o' ret) :
    ∀ m ∈ ms, (∃ q, m.1 = withQuantity o q) ∧ m.2 ∈ s.opposite o := by
  induction ht with
  | stop => exact fun _ h => absurd h List.not_mem_nil
  | @last s o c _ hf _ =>
    intro m hm
    obtain rfl := List.mem_singleton.mp hm
    exact ⟨⟨o.quantity, rfl⟩, (findBest_in hf).mem⟩
  | @more s s' o o' c ms ret _ hf hlt _ ih =>
    intro m hm
    rcases List.mem_cons.mp hm with rfl | hm
    · exact ⟨⟨o.quantity, rfl⟩, (findBest_in hf).mem⟩
    · obtain ⟨⟨q, hq⟩, hin⟩ := ih m hm
      -- what rests after the first match rested before it
      rw [opposite_of_le hlt.le] at hin
      exact ⟨⟨q, hq⟩, (List.eraseIdx_sublist _ _).subset hin⟩

@[simp] theorem afterInsert_out (A : Arith) (s : Exchange P T) (o : Order P T) (ret : Int) :
    (afterInsert A s o ret).out = s.out :=
  afterInsert_rule (motive := fun s' => s'.out = s.out) (fun _ => rfl) fun _ => rfl

/-! ## Entering the market -/

/-- What is written for a new order. -/
theorem newOrderMsg_out (h : s.newOrderMsg vp msg ind = .ok (some (s₁, o))) :
    (∀ t, (s₁.traders t).alive = (s.traders t).alive) ∧
      s₁.out = s.out ++ .entered o :: .message ind (.accepted o.orderID) ::
        s.toOthers ind (marketMsg o) := by
  obtain ⟨-, -, -, rfl⟩ := newOrderMsg_some h
  -- the counter moves on before the messages go out
  have hal : ∀ t, ((s.setTrader ind { s.traders ind with orderID := o.orderID + 1 }).traders
      t).alive = (s.traders t).alive := by
    intro t
    by_cases ht : t = ind
    · subst ht
      simp
    · simp [ht]
  refine ⟨hal, ?_⟩
  rw [writeAccepted, emit_out, toOthers_congr hal]
  rfl

/-- **The output of a command before matching.** -/
theorem incoming_out (h : s.incoming A vp msg ind = .ok (some (s₁, o))) :
    (∀ t, (s₁.traders t).alive = (s.traders t).alive) ∧
      s₁.out = s.out ++ .entered o :: .message ind (ackOf msg o) ::
        s.toOthers ind (marketMsg o) := by
  unfold incoming at h
  split at h
  · exact newOrderMsg_out h
  · exact newOrderMsg_out h
  · obtain ⟨c, id, q, p, -, -, -, -, rfl⟩ := amendOrderMsg_some h
    exact ⟨fun _ => rfl, rfl⟩
  · cases h

/-- Commands leave the flags alone. -/
theorem parseMsg_alive (h : s.parseMsg A vp msg ind = .ok s') (t : Fin T) :
    (s'.traders t).alive = (s.traders t).alive := by
  cases parseMsg_outcome h with
  | rejected => rfl
  | @traded s₁ s₂ o o' ms ret hin ht =>
    have hinsert : ((afterInsert A s₂ o' ret).traders t).alive = (s₂.traders t).alive :=
      afterInsert_rule (motive := fun s' => (s'.traders t).alive = (s₂.traders t).alive)
        (fun _ => rfl) fun _ => rfl
    rw [hinsert, ht.alive, (incoming_out hin).1]
  | cancelled => rfl

/-! ## Accepted commands -/

/-- What a command that trades writes. -/
theorem written_traded (hin : s.incoming A vp msg ind = .ok (some (s₁, o)))
    (ht : Trades A s₁ o ms s₂ o' ret) :
    s.written (afterInsert A s₂ o' ret) =
      .entered o :: .message ind (ackOf msg o) :: s.toOthers ind (marketMsg o) ++
        ms.flatMap fun m => s.matchEvents m.1 m.2 := by
  obtain ⟨hal, hout⟩ := incoming_out hin
  refine written_append ?_
  rw [afterInsert_out, ht.out, hout, matchEvents_congr hal, List.append_assoc]

/-- The messages of an order that is entered and matched. -/
theorem messages_traded (hin : s.incoming A vp msg ind = .ok (some (s₁, o)))
    (ht : Trades A s₁ o ms s₂ o' ret) :
    messages (s.written (afterInsert A s₂ o' ret)) =
      (ind, ackOf msg o) :: (s.others ind).map (fun i => (i, marketMsg o)) ++
        ms.flatMap s.fillNotices := by
  rw [written_traded hin ht, messages_append, messages_flatMap, ← messages_toOthers]
  rfl

theorem matchesOf_traded (hin : s.incoming A vp msg ind = .ok (some (s₁, o)))
    (ht : Trades A s₁ o ms s₂ o' ret) :
    matchesOf (s.written (afterInsert A s₂ o' ret)) = ms := by
  rw [written_traded hin ht, matchesOf_append, matchesOf_flatMap]
  show matchesOf (s.toOthers ind (marketMsg o)) ++ ms = ms
  rw [matchesOf_toOthers, List.nil_append]

/-- What a cancellation writes. -/
theorem written_cancelled (A : Arith) (s : Exchange P T) (ind : Fin T) (c : Cell (Order P T)) :
    s.written (s.afterCancel A ind c) =
      .cancelled c.val :: .message ind (.cancelled c.val.orderID) ::
        s.toOthers ind (.market c.val.isBuy c.val.product 0 0) :=
  written_append (List.append_assoc _ _ _)

/-- The messages of a cancellation. -/
theorem messages_cancelled (A : Arith) (s : Exchange P T) (ind : Fin T) (c : Cell (Order P T)) :
    messages (s.written (s.afterCancel A ind c)) =
      (ind, .cancelled c.val.orderID) ::
        (s.others ind).map fun i => (i, .market c.val.isBuy c.val.product 0 0) := by
  rw [written_cancelled, ← messages_toOthers]
  rfl

/-- **The output only grows.** -/
theorem Outcome.out (ho : Outcome A vp s msg ind s') : s'.out = s.out ++ s.written s' := by
  cases ho with
  | rejected => exact (congrArg _ (written_append rfl)).symm
  | @traded s₁ s₂ o o' ms ret hin ht =>
    obtain ⟨hal, hout⟩ := incoming_out hin
    rw [written_traded hin ht, afterInsert_out, ht.out, hout, matchEvents_congr hal,
      List.append_assoc]
  | cancelled =>
    rw [written_cancelled]
    exact List.append_assoc _ _ _

/-- The messages an accepted command owes. An order entering the market is
acknowledged, announced to every other living trader, and matched with orders
that rest on the other side; each match sends a `FILL` to the living among its
two traders. A cancellation is acknowledged and announced. -/
def Notified (A : Arith) (vp : ValidProducts P) (s : Exchange P T) (msg : List Char)
    (ind : Fin T) (s' : Exchange P T) : Prop :=
  (∃ s₁ o, s.incoming A vp msg ind = .ok (some (s₁, o)) ∧
    messages (s.written s') = (ind, ackOf msg o) ::
      (s.others ind).map (fun i => (i, marketMsg o)) ++
        (matchesOf (s.written s')).flatMap s.fillNotices ∧
    ∀ m ∈ matchesOf (s.written s'), (∃ q, m.1 = withQuantity o q) ∧ m.2 ∈ s.opposite o) ∨
  ∃ c, s.cancelMsg A msg ind = .ok (some s') ∧
    s.findOrder ind c.val.orderID = some c ∧
    messages (s.written s') = (ind, .cancelled c.val.orderID) ::
      (s.others ind).map fun i => (i, .market c.val.isBuy c.val.product 0 0)

/-- **The messages of an accepted command are those it owes**, in that order, and
no others. -/
theorem accepted_messages (h : s.parseMsg A vp msg ind = .ok s')
    (hacc : (ind, .invalid) ∉ messages (s.written s')) : Notified A vp s msg ind s' := by
  cases parseMsg_outcome h with
  | rejected =>
    rw [written_append rfl] at hacc
    exact absurd List.mem_cons_self hacc
  | @traded s₁ s₂ o o' ms ret hin ht =>
    have hms := matchesOf_traded hin ht
    refine .inl ⟨s₁, o, hin, ?_, fun m hm => ?_⟩
    · rw [hms, messages_traded hin ht]
    · obtain ⟨hq, hopp⟩ := ht.mem_matches m (hms ▸ hm)
      exact ⟨hq, ((incoming_enters hin).orders_sublist _ _).subset hopp⟩
  | @cancelled c id hmsg hc =>
    obtain ⟨hid, -⟩ := (findOrder_some hc).2
    exact .inr ⟨c, hmsg, hid ▸ hc, messages_cancelled A s ind c⟩

/-- Trader 0 has an order at a better price, and trader 2 is gone. -/
theorem accepted_messages_gpu :
    ∃ s s' : Exchange 2 3,
      (initial : Exchange 2 3).runCommands .machine testProducts [(0, "SELL 0 GPU 10 30;".toList)] =
        .ok s ∧
      (s.traderDied 2).parseMsg .machine testProducts "BUY 0 GPU 30 40;".toList 1 = .ok s' ∧
      messages ((s.traderDied 2).written s') = [(1, .accepted 0),
        (0, .market true "GPU".toList 30 40), (1, .fill 0 10), (0, .fill 0 10)] ∧
      Notified .machine testProducts (s.traderDied 2) "BUY 0 GPU 30 40;".toList 1 s' := by
  have hrun : okAnd ((initial : Exchange 2 3).runCommands .machine testProducts
      [(0, "SELL 0 GPU 10 30;".toList)]) (fun s =>
    okAnd ((s.traderDied 2).parseMsg .machine testProducts "BUY 0 GPU 30 40;".toList 1) fun s' =>
    decide (messages ((s.traderDied 2).written s') = [(1, .accepted 0),
      (0, .market true "GPU".toList 30 40), (1, .fill 0 10), (0, .fill 0 10)])) := by
    decide +kernel
  obtain ⟨s, hs, hrun⟩ := exists_of_okAnd hrun
  obtain ⟨s', h, hrun⟩ := exists_of_okAnd hrun
  have hms := of_decide_eq_true hrun
  refine ⟨s, s', hs, h, hms, accepted_messages h ?_⟩
  rw [hms]
  decide

end Exchange

end PeExchange
