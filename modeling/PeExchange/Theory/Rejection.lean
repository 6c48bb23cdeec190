import PeExchange.Theory.Trace

/-!
# Rejected commands

`parse_msg` has defined behaviour on every message whose product name fits its
buffer (`parseMsg_ok`), and when it answers `INVALID` nothing else happened
(`rejected_unchanged`). The answer itself tells the two kinds of command apart,
because no message of an accepted command is `INVALID` (`Outcome.invalid`).
-/

namespace PeExchange

open CFormat LinkedList

variable {P T : Nat}

/-- The product name of a new order fits its buffer. The other `%s` conversion
has a buffer for a whole message. -/
def TokensFit (msg : List Char) : Prop :=
  ∃ args, scan orderFormat msg = .ok args

/-- The messages that are scanned for a product name. -/
def ScansOrder (msg : List Char) : Prop :=
  spaceCount msg = 4 ∧ (token msg = "SELL".toList ∨ token msg = "BUY".toList)

theorem scan_ok {fmt : List Directive} (hfmt : ∀ d ∈ fmt, ∀ size, d ≠ .str size)
    (msg : List Char) : ∃ args, scan fmt msg = .ok args := by
  obtain ⟨args, h⟩ := sscanf_ok hfmt msg
  exact ⟨args, by rw [scan, h]; rfl⟩

/-- The first word of a message that starts with a letter fits its buffer. -/
theorem scan_sideFormat {x : Char} {msg : List Char} (hlen : (x :: msg).length < maxLine)
    (hx : isSpace x = false) :
    ∃ args, scan sideFormat (x :: msg) = .ok (.str (token (x :: msg)) :: args) := by
  have hskip : skipSpace (x :: msg) = x :: msg := by simp [skipSpace, hx]
  have hne : token (x :: msg) ≠ [] := by simp [token, hx]
  -- the buffer is as long as a whole message
  have hfits : ¬maxLine < (token (x :: msg)).length + 1 := by
    have := (List.takeWhile_sublist (l := x :: msg) fun c => !isSpace c).length_le
    rw [token]
    omega
  obtain ⟨args, h⟩ := @sscanf_ok sideFormat.tail (by simp [sideFormat])
    (afterToken (x :: msg))
  refine ⟨args, ?_⟩
  have hs : sscanf sideFormat (x :: msg) = .ok (.str (token (x :: msg)) :: args) := by
    unfold sideFormat sscanf
    rw [hskip, if_neg hne, if_neg hfits]
    exact congrArg (fun r => r >>= _) h
  rw [scan, hs]
  rfl

/-- The side of a new order is its first word. -/
theorem createBuySellOrder_eq (vp : ValidProducts P) {x : Char} {msg : List Char}
    (hlen : (x :: msg).length < maxLine) (hx : isSpace x = false) (ind : Fin T) (t : Trader P) :
    createBuySellOrder vp (x :: msg) ind t =
      if token (x :: msg) = "SELL".toList then createOrder vp (x :: msg) ind t false
      else if token (x :: msg) = "BUY".toList then createOrder vp (x :: msg) ind t true
      else .ok none := by
  obtain ⟨args, hside⟩ := scan_sideFormat hlen hx
  rw [createBuySellOrder, hside]
  rfl

theorem createOrder_ok (vp : ValidProducts P) {msg : List Char} (hfit : TokensFit msg)
    (ind : Fin T) (t : Trader P) (isBuy : Bool) :
    ∃ r, createOrder vp msg ind t isBuy = .ok r := by
  refine bind_total hfit fun args _ => ?_
  split
  · exact ⟨_, rfl⟩
  · exact ⟨_, rfl⟩

namespace Exchange

variable (A : Arith) (vp : ValidProducts P) (s : Exchange P T) (ind : Fin T) {msg : List Char}

theorem newOrderMsg_ok {x : Char} (hlen : (x :: msg).length < maxLine) (hx : isSpace x = false)
    (hfit : ScansOrder (x :: msg) → TokensFit (x :: msg)) :
    ∃ r, s.newOrderMsg vp (x :: msg) ind = .ok r := by
  rw [newOrderMsg]
  by_cases hspace : spaceCount (x :: msg) = 4
  · rw [if_neg (not_not.mpr hspace), createBuySellOrder_eq vp hlen hx]
    refine bind_total ?_ fun r _ => ?_
    · split
      · rename_i hword
        exact createOrder_ok vp (hfit ⟨hspace, .inl hword⟩) ind _ false
      · split
        · rename_i hword
          exact createOrder_ok vp (hfit ⟨hspace, .inr hword⟩) ind _ true
        · exact ⟨none, rfl⟩
    · cases r with
      | none => exact ⟨none, rfl⟩
      | some r => exact ⟨_, rfl⟩
  · exact ⟨none, if_pos hspace⟩

theorem amendOrderMsg_ok (msg : List Char) : ∃ r, s.amendOrderMsg A msg ind = .ok r := by
  refine bind_total (scan_ok (by unfold amendFormat; simp) msg) fun args _ => ?_
  split
  · refine bind_total ?_ fun r _ => ?_
    · rw [checkValidAmend]
      split
      · exact ⟨none, rfl⟩
      · exact bind_total (scan_ok (by unfold amendIdFormat; simp) msg) fun args _ => ⟨_, rfl⟩
    · cases r with
      | none => exact ⟨none, rfl⟩
      | some c => exact ⟨_, rfl⟩
  · exact ⟨none, rfl⟩

theorem cancelMsg_ok (msg : List Char) : ∃ r, s.cancelMsg A msg ind = .ok r := by
  rw [cancelMsg]
  split
  · exact ⟨none, rfl⟩
  · refine bind_total (scan_ok (by unfold cancelFormat; simp) msg) fun args _ => ?_
    split
    · split
      · exact ⟨none, rfl⟩
      · split
        · exact ⟨none, rfl⟩
        · exact ⟨_, rfl⟩
    · exact ⟨none, rfl⟩

theorem incoming_ok (hlen : msg.length < maxLine) (hfit : ScansOrder msg → TokensFit msg) :
    ∃ r, s.incoming A vp msg ind = .ok r := by
  unfold incoming
  split
  · exact newOrderMsg_ok vp s ind hlen (by decide) hfit
  · exact newOrderMsg_ok vp s ind hlen (by decide) hfit
  · exact amendOrderMsg_ok A s ind _
  · exact ⟨none, rfl⟩

/-- **`parse_msg` has defined behaviour** on every message that fits. -/
theorem parseMsg_ok (hlen : msg.length < maxLine) (hfit : ScansOrder msg → TokensFit msg) :
    ∃ s', s.parseMsg A vp msg ind = .ok s' := by
  unfold parseMsg
  split
  · refine bind_total (cancelMsg_ok A s ind _) fun r _ => ?_
    cases r with
    | none => exact ⟨_, rfl⟩
    | some s' => exact ⟨_, rfl⟩
  · refine bind_total (incoming_ok A vp s ind hlen hfit) fun r hr => ?_
    cases r with
    | none => exact ⟨_, rfl⟩
    | some r =>
      -- the matching loop ends
      obtain ⟨s₁, o⟩ := r
      obtain ⟨ms, s', o', ret, -, h⟩ := matchAndInsert_trades (A := A) (s := s₁)
        (incoming_enters hr).quantity_pos
      exact ⟨_, h⟩

/-! ## Rejection -/

variable {A vp s ind} {s' s₁ s₂ : Exchange P T} {o o' : Order P T} {c : Cell (Order P T)}
  {ms : List (Order P T × Order P T)} {ret : Int} {t : Fin T}

theorem not_invalid_others (b : Bool) (prod : List Char) (q p : Int) :
    (t, Msg.invalid) ∉ (s.others ind).map fun i => (i, .market b prod q p) := by
  intro h
  obtain ⟨i, -, heq⟩ := List.mem_map.mp h
  cases heq

theorem not_invalid_notify (i : Fin T) (id q : Int) :
    (t, Msg.invalid) ∉ s.notify i (.fill id q) := by
  intro h
  rw [notify] at h
  split at h
  · cases List.mem_singleton.mp h
  · exact List.not_mem_nil h

/-- No message of an order that trades is `INVALID`. -/
theorem not_invalid_traded (hin : s.incoming A vp msg ind = .ok (some (s₁, o)))
    (ht : Trades A s₁ o ms s₂ o' ret) :
    (t, Msg.invalid) ∉ messages (s.written (afterInsert A s₂ o' ret)) := by
  rw [messages_traded hin ht]
  intro hinv
  rcases List.mem_append.mp hinv with h | h
  · rcases List.mem_cons.mp h with h | h
    · -- the acknowledgement is `ACCEPTED` or `AMENDED`
      have hack : ackOf msg o ≠ .invalid := by
        unfold ackOf
        split <;> nofun
      exact hack (Prod.mk.inj h).2.symm
    · exact not_invalid_others _ _ _ _ h
  · obtain ⟨m, -, hm⟩ := List.mem_flatMap.mp h
    rcases List.mem_append.mp hm with h | h
    · exact not_invalid_notify _ _ _ h
    · exact not_invalid_notify _ _ _ h

/-- No message of a cancellation is `INVALID`. -/
theorem not_invalid_cancelled :
    (t, Msg.invalid) ∉ messages (s.written (s.afterCancel A ind c)) := by
  rw [messages_cancelled]
  intro hinv
  rcases List.mem_cons.mp hinv with h | h
  · cases h
  · exact not_invalid_others _ _ _ _ h

/-- **A rejected command changes nothing.** When any `INVALID` is written, it is
the only message, the sender gets it, and the state is otherwise as before. -/
theorem Outcome.invalid (ho : Outcome A vp s msg ind s')
    (hinv : ∃ t, (t, Msg.invalid) ∈ messages (s.written s')) : s' = s.writeInvalid ind := by
  obtain ⟨t, hinv⟩ := hinv
  cases ho with
  | rejected => rfl
  | traded hin ht => exact absurd hinv (not_invalid_traded hin ht)
  | cancelled => exact absurd hinv not_invalid_cancelled

/-- **Rejection is atomic.** A message that fits is processed, and if the
exchange answers it with `INVALID` then that is all it does. -/
theorem rejected_unchanged (hlen : msg.length ≤ 49) (hfit : ScansOrder msg → TokensFit msg) :
    ∃ s', s.parseMsg A vp msg ind = .ok s' ∧
      ((∃ t, (t, Msg.invalid) ∈ messages (s.written s')) →
        s' = { s with out := s.out ++ [.message ind .invalid] }) := by
  obtain ⟨s', h⟩ := parseMsg_ok A vp s ind (Nat.lt_succ_of_le hlen) hfit
  exact ⟨s', h, (parseMsg_outcome h).invalid⟩

/-- There is no such product. -/
theorem rejected_unchanged_john :
    ∃ s s' : Exchange 2 3,
      (initial : Exchange 2 3).runCommands .machine testProducts [(0, "SELL 0 GPU 10 30;".toList)] =
        .ok s ∧
      s.parseMsg .machine testProducts "BUY 0 john 30 40;".toList 1 = .ok s' ∧
      s' = { s with out := s.out ++ [.message 1 .invalid] } := by
  have hrun : okAnd ((initial : Exchange 2 3).runCommands .machine testProducts
      [(0, "SELL 0 GPU 10 30;".toList)]) (fun s =>
    okAnd (s.parseMsg .machine testProducts "BUY 0 john 30 40;".toList 1) fun s' =>
    decide ((1, .invalid) ∈ messages (s.written s'))) := by decide +kernel
  obtain ⟨s, hs, hrun⟩ := exists_of_okAnd hrun
  obtain ⟨s', h, hinvalid⟩ := exists_of_okAnd hrun
  have hfit : TokensFit "BUY 0 john 30 40;".toList :=
    ⟨[.int 0, .str "john".toList, .int 30, .int 40], by decide⟩
  have hrejected : ∃ s₁, s.parseMsg .machine testProducts "BUY 0 john 30 40;".toList 1 = .ok s₁ ∧
      ((∃ t, (t, Msg.invalid) ∈ messages (s.written s₁)) →
        s₁ = { s with out := s.out ++ [.message 1 .invalid] }) :=
    rejected_unchanged (by decide) fun _ => hfit
  obtain ⟨s₁, h₁, hunchanged⟩ := hrejected
  obtain rfl : s' = s₁ := Except.ok.inj (h.symm.trans h₁)
  exact ⟨s, s', hs, h, hunchanged ⟨1, of_decide_eq_true hinvalid⟩⟩

end Exchange

end PeExchange
