import Mathlib.Algebra.BigOperators.Group.Finset.Basic
import Mathlib.Algebra.BigOperators.Group.Finset.Piecewise
import PeExchange.Theory.Outcome

/-!
# Conservation of goods and money

With exact accumulators every match moves units and money between traders and
the exchange, and nothing else touches the accounts.

- `settle_quantity`, `settle_balance`: a payment as an addition to every
  position and balance, zero for those it does not concern. The two traders of
  a match may be one and the same.
- `goods`, `money`: the totals. A payment changes neither (`settle_goods`,
  `settle_money`), whatever value `total_price` has after narrowing, because the
  same value is taken on one side and given on the other.
-/

namespace PeExchange

open LinkedList

variable {P T : Nat}

namespace Exchange

/-- All positions in a product. -/
def goods (s : Exchange P T) (j : Fin P) : Int :=
  ∑ t, ((s.traders t).prodInfo j).quantity

/-- All balances, and the fees the exchange has collected. -/
def money (s : Exchange P T) : Int :=
  (∑ t, ∑ j, ((s.traders t).prodInfo j).balance) + s.exchangeFees

/-- The accounts of two states are the same. -/
structure SameAccounts (s s' : Exchange P T) : Prop where
  prodInfo : ∀ t, (s'.traders t).prodInfo = (s.traders t).prodInfo
  fees : s'.exchangeFees = s.exchangeFees

variable {vp : ValidProducts P} {A : Arith} {s s' s₁ : Exchange P T} {ind : Fin T}
  {o o' : Order P T} {ms : List (Order P T × Order P T)} {ret : Int} {msg : List Char}

theorem SameAccounts.goods (h : SameAccounts s s') (j : Fin P) : s'.goods j = s.goods j := by
  unfold Exchange.goods
  simp only [h.prodInfo]

theorem SameAccounts.money (h : SameAccounts s s') : s'.money = s.money := by
  unfold Exchange.money
  simp only [h.prodInfo, h.fees]

/-! ## A payment -/

section Payment

variable (s : Exchange P T) (o r : Order P T)

/-- What a payment adds to positions. -/
theorem settle_quantity (t : Fin T) (j : Fin P) :
    (((s.settle .exact o r).traders t).prodInfo j).quantity =
      ((s.traders t).prodInfo j).quantity +
        if j = o.productID then
          (if t = (buyOf o r).traderID then tradedQuantity o r else 0) -
            (if t = (sellOf o r).traderID then tradedQuantity o r else 0)
        else 0 := by
  rw [settle_prodInfo]
  by_cases hj : j = o.productID
  · by_cases h : t = (buyOf o r).traderID ∨ t = (sellOf o r).traderID
    · rw [if_pos ⟨hj, h⟩, if_pos hj]
      show _ + _ - _ = _
      omega
    · obtain ⟨hb, hs⟩ := not_or.mp h
      simp [hb, hs]
  · simp [hj]

/-- What a payment adds to balances. -/
theorem settle_balance (t : Fin T) (j : Fin P) :
    (((s.settle .exact o r).traders t).prodInfo j).balance =
      ((s.traders t).prodInfo j).balance +
        if j = o.productID then
          (if t = (sellOf o r).traderID then totalPrice o r else 0) -
            (if t = (buyOf o r).traderID then totalPrice o r else 0) -
            (if t = o.traderID then feeOf o r else 0)
        else 0 := by
  rw [settle_prodInfo]
  by_cases hj : j = o.productID
  · by_cases h : t = (buyOf o r).traderID ∨ t = (sellOf o r).traderID
    · rw [if_pos ⟨hj, h⟩, if_pos hj]
      show _ - _ - _ + _ = _
      omega
    · obtain ⟨hb, hs⟩ := not_or.mp h
      -- a third trader is not charged either
      have hn : t ≠ o.traderID := by
        rintro rfl
        exact h (traderID_buyOf_or_sellOf o r)
      simp [hb, hs, hn]
  · simp [hj]

/-- The units a match takes from the seller go to the buyer. -/
theorem settle_goods (j : Fin P) : (s.settle .exact o r).goods j = s.goods j := by
  unfold goods
  simp only [settle_quantity, Finset.sum_add_distrib]
  by_cases hj : j = o.productID
  · simp [hj]
  · simp [hj]

/-- The money a match takes from the buyer goes to the seller, and the fee to the
exchange. -/
theorem settle_money : (s.settle .exact o r).money = s.money := by
  unfold money
  simp only [settle_balance, Finset.sum_add_distrib, settle_exchangeFees, Arith.longLong_exact]
  -- what is paid and what is received cancel out, whoever the two traders are
  have hadded : (∑ t : Fin T, ∑ j : Fin P, if j = o.productID then
      (if t = (sellOf o r).traderID then totalPrice o r else 0) -
        (if t = (buyOf o r).traderID then totalPrice o r else 0) -
        (if t = o.traderID then feeOf o r else 0) else 0) = -feeOf o r := by
    simp
  rw [hadded]
  omega

end Payment

/-! ## The invariant -/

/-- Nobody has gained or lost anything in sum. -/
structure Conserved (s : Exchange P T) : Prop where
  goods : ∀ j, s.goods j = 0
  money : s.money = 0

theorem Conserved.same (h : Conserved s) (hs : SameAccounts s s') : Conserved s' :=
  ⟨fun j => (hs.goods j).trans (h.goods j), hs.money.trans h.money⟩

theorem execMatch_accounts (A : Arith) (s : Exchange P T) (o : Order P T) (c : Cell (Order P T)) :
    SameAccounts (s.settle A o c.val) (s.execMatch A o c) :=
  ⟨fun t => execMatch_prodInfo A s o c t, execMatch_exchangeFees A s o c⟩

/-- **A match** moves units and money between its parties, and the fee to the exchange. -/
theorem Conserved.execMatch (h : Conserved s) (o : Order P T) (c : Cell (Order P T)) :
    Conserved (s.execMatch .exact o c) := by
  have hpaid : Conserved (s.settle .exact o c.val) :=
    ⟨fun j => (settle_goods s o c.val j).trans (h.goods j),
      (settle_money s o c.val).trans h.money⟩
  exact hpaid.same (execMatch_accounts .exact s o c)

/-- The matching loop, match by match. -/
theorem Trades.conserved (ht : Trades .exact s o ms s' o' ret) (h : Conserved s) :
    Conserved s' := by
  induction ht with
  | stop => exact h
  | last => exact h.execMatch _ _
  | more _ _ _ _ ih => exact ih (h.execMatch _ _)

/-- Entering an order moves a counter, but no account. -/
theorem Enters.accounts (he : Enters A vp s ind s₁ o) : SameAccounts s s₁ := by
  cases he with
  | new =>
    constructor
    · intro t
      show ((Function.update s.traders ind _) t).prodInfo = _
      by_cases ht : t = ind
      · subst ht
        rw [Function.update_self]
      · rw [Function.update_of_ne ht]
    · rfl
  | amended => exact ⟨fun _ => rfl, rfl⟩

theorem afterInsert_accounts (A : Arith) (s : Exchange P T) (o : Order P T) (ret : Int) :
    SameAccounts s (afterInsert A s o ret) :=
  afterInsert_rule (fun _ => ⟨fun _ => rfl, rfl⟩) fun _ => ⟨fun _ => rfl, rfl⟩

/-- The step lemma. -/
theorem Outcome.conserved (ho : Outcome .exact vp s msg ind s') (h : Conserved s) :
    Conserved s' := by
  cases ho with
  | rejected => exact h.same ⟨fun _ => rfl, rfl⟩
  | traded hin ht =>
    have h₁ := h.same (incoming_enters hin).accounts
    exact (ht.conserved h₁).same (afterInsert_accounts _ _ _ _)
  | cancelled => exact h.same ⟨fun _ => rfl, rfl⟩

end Exchange

/-- **Goods and money are conserved.** In every reachable state the positions in
each product sum to zero, and so do all balances together with the fees. -/
theorem goods_money_conserved {vp : ValidProducts P} {s : Exchange P T}
    (h : Reachable .exact vp s) :
    (∀ j, ∑ t, ((s.traders t).prodInfo j).quantity = 0) ∧
      (∑ t, ∑ j, ((s.traders t).prodInfo j).balance) + s.exchangeFees = 0 := by
  have hc : s.Conserved := by
    refine Transition.Reachable.invariant (I := Exchange.Conserved) ⟨fun j => ?_, ?_⟩
      (fun s a s' _ hi hs => ?_) h
    · show ∑ t : Fin T, (0 : Int) = 0
      exact Finset.sum_const_zero
    · show (∑ t : Fin T, ∑ j : Fin P, (0 : Int)) + 0 = 0
      simp
    · cases hs with
      | command hp => exact (Exchange.parseMsg_outcome hp).conserved hi
      | died => exact hi.same ⟨traderDied_prodInfo _ _, rfl⟩
  exact ⟨hc.goods, hc.money⟩

theorem goods_money_conserved_gpu :
    ∃ s, (initial : Exchange 2 3).runCommands .exact testProducts
        [(1, "SELL 0 GPU 10 30;".toList), (0, "BUY 0 GPU 30 40;".toList),
          (0, "SELL 1 GPU 5 40;".toList)] = .ok s ∧
      (∀ j, ∑ t, ((s.traders t).prodInfo j).quantity = 0) ∧
      (∑ t, ∑ j, ((s.traders t).prodInfo j).balance) + s.exchangeFees = 0 := by
  have hrun : okAnd ((initial : Exchange 2 3).runCommands .exact testProducts
      [(1, "SELL 0 GPU 10 30;".toList), (0, "BUY 0 GPU 30 40;".toList),
        (0, "SELL 1 GPU 5 40;".toList)]) (fun _ => true) := by decide +kernel
  obtain ⟨s, h, -⟩ := exists_of_okAnd hrun
  exact ⟨s, h, goods_money_conserved (Reachable.runCommands Transition.Reachable.init h)⟩

end PeExchange
