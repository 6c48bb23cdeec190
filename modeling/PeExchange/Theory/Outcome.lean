import PeExchange.Theory.Trades

/-!
# What a command can do

The inversion lemmas for `parse_msg`. A command is answered with `INVALID`, or
enters an order into the market (a new one, or the replacement of a resting one)
and trades, or cancels a resting order.

- `Enters`: the states and orders that `check_for_match` can be called with.
- `Outcome`: the states a command can lead to. `parseMsg_outcome` derives it
  from the code; every invariant of the exchange is a case analysis of it.
-/

namespace PeExchange

open CFormat LinkedList

variable {P T : Nat}

/-- The ranges that are checked before an order is accepted, and its name being
the one of its product. -/
structure ValidOrder (vp : ValidProducts P) (o : Order P T) : Prop where
  quantity_pos : 1 ≤ o.quantity
  quantity_le : o.quantity ≤ 999999
  price_pos : 1 ≤ o.price
  price_le : o.price ≤ 999999
  orderID_nonneg : 0 ≤ o.orderID
  orderID_le : o.orderID ≤ 999999
  product : o.product = vp.name o.productID

/-- A computation that succeeds has succeeded in each part. -/
theorem bind_eq_ok {ε α β : Type} {x : Except ε α} {f : α → Except ε β} {b : β}
    (h : (x >>= f) = .ok b) : ∃ a, x = .ok a ∧ f a = .ok b := by
  cases x with
  | error e => cases h
  | ok a => exact ⟨a, rfl, h⟩

/-- A computation whose first part is known to succeed is the rest of it. -/
theorem bind_ok {ε α β : Type} {x : Except ε α} {a : α} (hx : x = .ok a) (f : α → Except ε β) :
    (x >>= f) = f a := by
  rw [hx]
  rfl

/-- A computation succeeds when its parts do. -/
theorem bind_total {ε α β : Type} {x : Except ε α} {f : α → Except ε β}
    (hx : ∃ a, x = .ok a) (hf : ∀ a, x = .ok a → ∃ b, f a = .ok b) :
    ∃ b, (x >>= f) = .ok b := by
  obtain ⟨a, rfl⟩ := hx
  exact hf a rfl

/-- The computation succeeds with a value that passes a check. -/
def okAnd {ε α : Type} (x : Except ε α) (p : α → Bool) : Bool :=
  match x with
  | .ok a => p a
  | .error _ => false

theorem exists_of_okAnd {ε α : Type} {x : Except ε α} {p : α → Bool} (h : okAnd x p = true) :
    ∃ a, x = .ok a ∧ p a = true := by
  cases x with
  | error e => cases h
  | ok a => exact ⟨a, rfl, h⟩

theorem findProduct_some {vp : ValidProducts P} {product : List Char} {i : Fin P}
    (h : findProduct vp product = some i) : product = vp.name i := by
  simpa using List.find?_some h

/-- An order passes the checks with its fields in range and the counter as its
identifier. -/
theorem checkOrder_some {vp : ValidProducts P} {ind : Fin T} {t t' : Trader P} {isBuy : Bool}
    {id q p : Int} {product : List Char} {o : Order P T}
    (h : checkOrder vp ind t isBuy id product q p = some (o, t')) :
    ValidOrder vp o ∧ o.traderID = ind ∧ o.orderID = t.orderID ∧ o.isBuy = isBuy ∧
      t' = { t with orderID := o.orderID + 1 } := by
  rw [checkOrder] at h
  cases hf : findProduct vp product with
  | none => rw [hf] at h; cases h
  | some i =>
    rw [hf] at h
    by_cases hq : q > 999999 ∨ q < 1
    · simp [hq] at h
    by_cases hid : id ≠ t.orderID ∨ id < 0 ∨ id > 999999
    · simp [hq, hid] at h
    by_cases hp : p > 999999 ∨ p < 1
    · simp [hq, hid, hp] at h
    simp only [hq, hid, hp, if_false, Option.some.injEq, Prod.mk.injEq] at h
    obtain ⟨rfl, rfl⟩ := h
    -- the second check compares the identifier with the counter
    have hid' : id = t.orderID := by omega
    refine ⟨⟨?_, ?_, ?_, ?_, ?_, ?_, findProduct_some hf⟩, rfl, hid', rfl, by rw [hid']⟩ <;>
      simp only <;> omega

/-- An order that is made has passed all checks. -/
theorem createOrder_some {vp : ValidProducts P} {str : List Char} {ind : Fin T}
    {t t' : Trader P} {isBuy : Bool} {o : Order P T}
    (h : createOrder vp str ind t isBuy = .ok (some (o, t'))) :
    ValidOrder vp o ∧ o.traderID = ind ∧ o.orderID = t.orderID ∧ o.isBuy = isBuy ∧
      t' = { t with orderID := o.orderID + 1 } := by
  obtain ⟨args, -, h⟩ := bind_eq_ok h
  split at h
  · exact checkOrder_some (Except.ok.inj h)
  · cases h

theorem createBuySellOrder_some {vp : ValidProducts P} {str : List Char} {ind : Fin T}
    {t t' : Trader P} {o : Order P T}
    (h : createBuySellOrder vp str ind t = .ok (some (o, t'))) :
    ValidOrder vp o ∧ o.traderID = ind ∧ o.orderID = t.orderID ∧
      t' = { t with orderID := o.orderID + 1 } := by
  obtain ⟨args, -, h⟩ := bind_eq_ok h
  split at h
  · split at h
    · -- `SELL`
      obtain ⟨h₁, h₂, h₃, -, h₄⟩ := createOrder_some h
      exact ⟨h₁, h₂, h₃, h₄⟩
    · split at h
      · -- `BUY`
        obtain ⟨h₁, h₂, h₃, -, h₄⟩ := createOrder_some h
        exact ⟨h₁, h₂, h₃, h₄⟩
      · cases h
  · cases h

namespace Exchange

variable {A : Arith} {vp : ValidProducts P} {s s' s₁ : Exchange P T} {ind : Fin T}
  {o : Order P T} {c : Cell (Order P T)} {msg : List Char} {id : Int}

/-- `find_order` returns an order of that trader with that identifier, in one of
the lists. -/
theorem findOrder_some (h : s.findOrder ind id = some c) :
    c.val.traderID = ind ∧ c.val.orderID = id ∧ ∃ b i, c.In (s.orders b i) := by
  obtain ⟨i, -, hi⟩ := List.exists_of_findSome?_eq_some h
  have key : ∀ b, locate (fun o => o.orderID = id && o.traderID = ind) (s.orders b i) = some c →
      c.val.traderID = ind ∧ c.val.orderID = id ∧ ∃ b i, c.In (s.orders b i) := by
    intro b hb
    obtain ⟨hin, hp⟩ := locate_some hb
    simp only [Bool.and_eq_true, decide_eq_true_eq] at hp
    exact ⟨hp.2, hp.1, b, i, hin⟩
  -- the buy list of a product is searched before its sell list
  rcases Option.or_eq_some_iff.mp hi with h | ⟨-, h⟩
  · exact key true h
  · exact key false h

/-- `find_order` fails only when no list holds such an order. -/
theorem findOrder_none :
    s.findOrder ind id = none ↔
      ∀ b i, ∀ o ∈ s.orders b i, ¬(o.traderID = ind ∧ o.orderID = id) := by
  rw [findOrder, List.findSome?_eq_none_iff]
  constructor
  · intro h b i o ho hk
    have hi := h i (List.mem_finRange i)
    rw [Option.or_eq_none_iff, locate_none, locate_none] at hi
    cases b with
    | true => simpa [hk.1, hk.2] using hi.1 o ho
    | false => simpa [hk.1, hk.2] using hi.2 o ho
  · intro h i _
    have key : ∀ b, ∀ o ∈ s.orders b i, (o.orderID = id && o.traderID = ind) = false := by
      intro b o ho
      have := h b i o ho
      simp only [Bool.and_eq_false_iff, decide_eq_false_iff_not]
      tauto
    rw [Option.or_eq_none_iff, locate_none, locate_none]
    exact ⟨key true, key false⟩

/-- The state and the order with which `check_for_match` is called on behalf of
a command of trader `ind`. -/
inductive Enters (A : Arith) (vp : ValidProducts P) (s : Exchange P T) (ind : Fin T) :
    Exchange P T → Order P T → Prop where
  /-- A new order under the trader's next identifier. -/
  | new {o : Order P T} (hv : ValidOrder vp o) (ht : o.traderID = ind)
      (hid : o.orderID = (s.traders ind).orderID) :
      Enters A vp s ind
        ((s.setTrader ind { s.traders ind with orderID := o.orderID + 1 }).writeAccepted o ind) o
  /-- A new version of one of the trader's resting orders, which is removed. -/
  | amended {c : Cell (Order P T)} {id q p : Int} (hc : s.findOrder ind id = some c)
      (hq : 1 ≤ q ∧ q ≤ 999999) (hp : 1 ≤ p ∧ p ≤ 999999) :
      Enters A vp s ind
        (((s.writeAmended (createAmendedOrder p q c.val) ind).cancelOrderPrints A
          c.val).deleteOrder c c.val.isBuy c.val.productID) (createAmendedOrder p q c.val)

/-- What a new order does before it is matched. -/
theorem newOrderMsg_some (h : s.newOrderMsg vp msg ind = .ok (some (s₁, o))) :
    ValidOrder vp o ∧ o.traderID = ind ∧ o.orderID = (s.traders ind).orderID ∧
      s₁ = (s.setTrader ind { s.traders ind with orderID := o.orderID + 1 }).writeAccepted o
        ind := by
  rw [newOrderMsg] at h
  by_cases hs : spaceCount msg ≠ 4
  · rw [if_pos hs] at h
    cases h
  · rw [if_neg hs] at h
    obtain ⟨r, hr, h⟩ := bind_eq_ok h
    cases r with
    | none => cases h
    | some r =>
      obtain ⟨o', t'⟩ := r
      obtain ⟨hv, ht, hid, rfl⟩ := createBuySellOrder_some hr
      cases h
      exact ⟨hv, ht, hid, rfl⟩

/-- The two scans of an `AMEND` message read the same quantity and price. -/
theorem scan_amend {q p : Int} (h : scan amendFormat msg = .ok [.int q, .int p]) :
    ∃ id, scan amendIdFormat msg = .ok [.int id, .int q, .int p] := by
  have hs : sscanf amendFormat msg = .ok [.int q, .int p] := by
    rw [scan] at h
    cases hs : sscanf amendFormat msg with
    | error e => rw [hs] at h; cases h
    | ok args => rw [hs] at h; exact congrArg _ (Except.ok.inj h)
  unfold amendFormat at hs
  unfold scan amendIdFormat
  rw [sscanf_lits] at hs ⊢
  by_cases hpre : "AMEND".toList <+: msg
  · -- `%d` in the place of `%*d` assigns one value more
    rw [if_pos hpre, sscanf_space] at hs
    obtain ⟨n, hn⟩ := sscanf_int_of_skip hs (by simp)
    exact ⟨n, by rw [if_pos hpre, sscanf_space, hn]; rfl⟩
  · rw [if_neg hpre] at hs
    cases hs

theorem checkAmendArgs_some {args : AmendArgs} (h : s.checkAmendArgs ind args = some c) :
    s.findOrder ind args.id = some c ∧ (1 ≤ args.quantity ∧ args.quantity ≤ 999999) ∧
      1 ≤ args.price ∧ args.price ≤ 999999 := by
  rw [checkAmendArgs] at h
  by_cases hq : args.quantity < 1 ∨ args.quantity > 999999
  · simp [hq] at h
  by_cases hp : args.price < 1 ∨ args.price > 999999
  · simp [hq, hp] at h
  by_cases hid : args.id < 0 ∨ args.id > 999999
  · simp [hq, hp, hid] at h
  rw [if_neg hq, if_neg hp, if_neg hid] at h
  exact ⟨h, by omega, by omega⟩

/-- `check_valid_amend` returns a resting order of the sender, and the scanned
quantity and price are in range. -/
theorem checkValidAmend_some {id q p q' p' : Int}
    (hscan : scan amendIdFormat msg = .ok [.int id, .int q, .int p])
    (h : s.checkValidAmend q' p' ind msg = .ok (some c)) :
    s.findOrder ind id = some c ∧ (1 ≤ q ∧ q ≤ 999999) ∧ 1 ≤ p ∧ p ≤ 999999 := by
  rw [checkValidAmend] at h
  by_cases hs : spaceCount msg ≠ 3
  · rw [if_pos hs] at h
    cases h
  · rw [if_neg hs] at h
    obtain ⟨args, hargs, h⟩ := bind_eq_ok h
    -- the second scan overwrites the parameters `q'` and `p'`
    obtain rfl := Except.ok.inj (hargs.symm.trans hscan)
    exact checkAmendArgs_some (Except.ok.inj h)

/-- What an amendment does before the order is matched again. -/
theorem amendOrderMsg_some (h : s.amendOrderMsg A msg ind = .ok (some (s₁, o))) :
    ∃ c id q p, s.findOrder ind id = some c ∧ (1 ≤ q ∧ q ≤ 999999) ∧ (1 ≤ p ∧ p ≤ 999999) ∧
      o = createAmendedOrder p q c.val ∧
      s₁ = ((s.writeAmended o ind).cancelOrderPrints A c.val).deleteOrder c c.val.isBuy
        c.val.productID := by
  rw [amendOrderMsg] at h
  obtain ⟨args, hargs, h⟩ := bind_eq_ok h
  split at h
  · rename_i q p
    obtain ⟨r, hr, h⟩ := bind_eq_ok h
    cases r with
    | none => cases h
    | some c =>
      obtain ⟨id, hid⟩ := scan_amend hargs
      obtain ⟨hc, hq, hp⟩ := checkValidAmend_some hid hr
      cases h
      exact ⟨c, id, q, p, hc, hq, hp, rfl, rfl⟩
  · cases h

/-- **What `check_for_match` is called with.** -/
theorem incoming_enters (h : s.incoming A vp msg ind = .ok (some (s₁, o))) :
    Enters A vp s ind s₁ o := by
  unfold incoming at h
  split at h
  · -- `B` and `S` take the same way
    obtain ⟨hv, ht, hid, rfl⟩ := newOrderMsg_some h
    exact .new hv ht hid
  · obtain ⟨hv, ht, hid, rfl⟩ := newOrderMsg_some h
    exact .new hv ht hid
  · obtain ⟨c, id, q, p, hc, hq, hp, rfl, rfl⟩ := amendOrderMsg_some h
    exact .amended hc hq hp
  · cases h

/-- The state a cancellation leads to. -/
def afterCancel (A : Arith) (s : Exchange P T) (ind : Fin T) (c : Cell (Order P T)) :
    Exchange P T :=
  (((s.emit [.cancelled c.val]).writeCancelled c.val.orderID c.val.product ind
    c.val.isBuy).cancelOrderPrints A c.val).deleteOrder c c.val.isBuy c.val.productID

/-- What a cancellation does. -/
theorem cancelMsg_some (h : s.cancelMsg A msg ind = .ok (some s')) :
    ∃ id c, s.findOrder ind id = some c ∧ s' = s.afterCancel A ind c := by
  rw [cancelMsg] at h
  by_cases hs : spaceCount msg ≠ 1
  · rw [if_pos hs] at h
    cases h
  · rw [if_neg hs] at h
    obtain ⟨args, -, h⟩ := bind_eq_ok h
    split at h
    · rename_i id
      by_cases hid : id < 0 ∨ id > 999999
      · rw [if_pos hid] at h
        cases h
      rw [if_neg hid] at h
      cases hf : s.findOrder ind id with
      | none => rw [hf] at h; cases h
      | some c =>
        rw [hf] at h
        cases h
        -- the scanned identifier is the one of the order found
        exact ⟨id, c, hf, by rw [afterCancel, (findOrder_some hf).2.1]⟩
    · cases h

/-- The states the command `msg` of trader `ind` can lead to. -/
inductive Outcome (A : Arith) (vp : ValidProducts P) (s : Exchange P T) (msg : List Char)
    (ind : Fin T) : Exchange P T → Prop where
  | rejected : Outcome A vp s msg ind (s.writeInvalid ind)
  | traded {s₁ s₂ : Exchange P T} {o o' : Order P T} {ms : List (Order P T × Order P T)}
      {ret : Int} (hin : s.incoming A vp msg ind = .ok (some (s₁, o)))
      (ht : Trades A s₁ o ms s₂ o' ret) : Outcome A vp s msg ind (afterInsert A s₂ o' ret)
  | cancelled {c : Cell (Order P T)} {id : Int}
      (hmsg : s.cancelMsg A msg ind = .ok (some (s.afterCancel A ind c)))
      (hc : s.findOrder ind id = some c) : Outcome A vp s msg ind (s.afterCancel A ind c)

theorem Enters.quantity_pos (h : Enters A vp s ind s₁ o) : 0 < o.quantity := by
  cases h with
  | new hv => exact hv.quantity_pos
  | amended _ hq _ => exact hq.1

theorem Enters.traderID (h : Enters A vp s ind s₁ o) : o.traderID = ind := by
  cases h with
  | new _ ht => exact ht
  | amended hc => exact (findOrder_some hc).1

theorem Enters.price_pos (h : Enters A vp s ind s₁ o) : 0 < o.price := by
  cases h with
  | new hv => exact hv.price_pos
  | amended _ _ hp => exact hp.1

/-- **Inversion of `parse_msg`.** -/
theorem parseMsg_outcome (h : s.parseMsg A vp msg ind = .ok s') :
    Outcome A vp s msg ind s' := by
  unfold parseMsg at h
  split at h
  · obtain ⟨r, hr, h⟩ := bind_eq_ok h
    cases r with
    | none =>
      cases h
      exact .rejected
    | some s₁ =>
      cases h
      obtain ⟨id, c, hf, rfl⟩ := cancelMsg_some hr
      exact .cancelled hr hf
  · obtain ⟨r, hr, h⟩ := bind_eq_ok h
    cases r with
    | none =>
      cases h
      exact .rejected
    | some r =>
      obtain ⟨s₁, o⟩ := r
      -- a positive quantity is what the loop needs to end
      have he := incoming_enters hr
      obtain ⟨ms, s₂, o', ret, ht, heq⟩ := matchAndInsert_trades (A := A) (s := s₁) he.quantity_pos
      obtain rfl := Except.ok.inj (heq.symm.trans h)
      exact .traded hr ht

end Exchange

end PeExchange
