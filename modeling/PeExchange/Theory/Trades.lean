import PeExchange.System
import PeExchange.Lib.PriorityFill

/-!
# What one match and the matching loop do

`match_new_buy` and `match_new_sell` are six branches of hand-written code; here
they become one operation.

- `findBest_some`, `findBest_none`: the two searches find the first best
  crossing order of the opposite list, in the sense of the priority library, or
  there is none.
- `execMatch`: the effect of one match, the same for both sides but for the
  widths of its local variables. `matchNew_eq` says that the code computes it.
- `Trades`: the matching loop as a relation, one constructor for each way it can
  go on. `checkForMatch_trades` says that `check_for_match` ends, within the
  bound the model gives it, in a state related to the one it started from.

Everything proved about matching from here on is an induction over `Trades`
whose step is a fact about `execMatch`.
-/

namespace PeExchange

open CArith LinkedList PriorityFill

variable {P T : Nat}

/-! ## Crossing and rank -/

/-- A resting order can be matched with the new order `o`. -/
def crosses (o r : Order P T) : Bool :=
  if o.isBuy then r.price ≤ o.price else o.price ≤ r.price

/-- Rank of a resting order for a new order of side `newIsBuy`: sellers are
served cheapest first, buyers dearest first. -/
def rank (newIsBuy : Bool) (r : Order P T) : Int :=
  if newIsBuy then r.price else -r.price

/-- The scanning loop ends with the price it started from, or with the first
best order of the list. -/
theorem searchBest_spec {rk : Int → Int} {improves : Int → Int → Bool}
    (himp : ∀ p q, improves p q = true ↔ rk p < rk q) :
    ∀ (l : List (Order P T)) (i : Nat) (best : Option (Cell (Order P T))) (price : Int),
      ((∀ r ∈ l, rk price ≤ rk r.price) ∧ searchBest improves i best price l = (best, price)) ∨
      ∃ pre c post, FirstBest (fun r => rk r.price) (fun _ => true) l c pre post ∧
        rk c.price < rk price ∧
        searchBest improves i best price l = (some ⟨i + pre.length, c⟩, c.price)
  | [], i, best, price => .inl ⟨fun _ h => absurd h List.not_mem_nil, rfl⟩
  | curr :: next, i, best, price => by
    have hlen : ∀ pre : List (Order P T), i + 1 + pre.length = i + (curr :: pre).length :=
      fun pre => by rw [List.length_cons]; omega
    rw [searchBest]
    by_cases h : improves curr.price price = true
    · rw [if_pos h]
      -- `curr` is the best so far: either it stays so, or a later order beats it
      have hlt := (himp _ _).mp h
      rcases searchBest_spec himp next (i + 1) (some ⟨i, curr⟩) curr.price with
        ⟨hall, heq⟩ | ⟨pre, c, post, hb, hc, heq⟩
      · exact .inr ⟨[], curr, next, ⟨rfl, rfl, fun _ h => absurd h List.not_mem_nil, hall⟩,
          hlt, heq⟩
      · refine .inr ⟨curr :: pre, c, post, ⟨by rw [hb.split]; rfl, rfl, ?_, hb.after⟩,
          hc.trans hlt, by rw [heq, hlen]⟩
        rintro a (_ | ⟨_, ha⟩)
        · exact hc
        · exact hb.before a ha
    · rw [if_neg h]
      -- the best price so far is no worse than that of `curr`
      have hge : rk price ≤ rk curr.price := not_lt.mp fun k => h ((himp _ _).mpr k)
      rcases searchBest_spec himp next (i + 1) best price with
        ⟨hall, heq⟩ | ⟨pre, c, post, hb, hc, heq⟩
      · refine .inl ⟨?_, heq⟩
        rintro r (_ | ⟨_, hr⟩)
        · exact hge
        · exact hall r hr
      · refine .inr ⟨curr :: pre, c, post, ⟨by rw [hb.split]; rfl, rfl, ?_, hb.after⟩,
          hc, by rw [heq, hlen]⟩
        rintro a (_ | ⟨_, ha⟩)
        · exact hc.trans_le hge
        · exact hb.before a ha

/-- `find_best_sell`: the first best order of the list, if it crosses. -/
theorem findBestSell_spec (o : Order P T) {l : List (Order P T)} (hl : l ≠ []) :
    ∃ pre c post, FirstBest (fun r => r.price) (fun _ => true) l c pre post ∧
      findBestSell o l = if c.price ≤ o.price then some ⟨pre.length, c⟩ else none := by
  cases l with
  | nil => exact absurd rfl hl
  | cons head tl =>
    rcases @searchBest_spec _ _ id (fun p q => p < q) (by simp) (head :: tl) 0
      (some ⟨0, head⟩) head.price with ⟨hall, heq⟩ | ⟨pre, c, post, hb, -, heq⟩
    · -- nothing is cheaper than the head
      refine ⟨[], head, tl, ⟨rfl, rfl, fun _ h => absurd h List.not_mem_nil,
        fun a ha => hall a (List.mem_cons_of_mem _ ha)⟩, ?_⟩
      simp only [findBestSell, heq, List.length_nil]
    · refine ⟨pre, c, post, ⟨hb.split, hb.admissible, hb.before, hb.after⟩, ?_⟩
      simp only [findBestSell, heq, Nat.zero_add]

/-- `find_best_buy`: the first best order of the list, if it crosses; nothing
when no order has a positive price, which the search starts from. -/
theorem findBestBuy_spec (o : Order P T) (l : List (Order P T)) :
    ((∀ r ∈ l, r.price ≤ 0) ∧ findBestBuy o l = none) ∨
    ∃ pre c post, FirstBest (fun r => -r.price) (fun _ => true) l c pre post ∧
      findBestBuy o l = if o.price ≤ c.price then some ⟨pre.length, c⟩ else none := by
  rcases @searchBest_spec P T Neg.neg (fun p q => p > q) (by simp) l 0 none 0
    with ⟨hall, heq⟩ | ⟨pre, c, post, hb, -, heq⟩
  · refine .inl ⟨fun r hr => by have := hall r hr; omega, ?_⟩
    simp only [findBestBuy, heq, ite_self]
  · refine .inr ⟨pre, c, post, hb, ?_⟩
    simp only [findBestBuy, heq, Nat.zero_add, ge_iff_le]

namespace Exchange

variable {A : Arith} {s : Exchange P T} {o : Order P T} {c : Cell (Order P T)}

/-- The orders a new order can be matched with. -/
def opposite (s : Exchange P T) (o : Order P T) : List (Order P T) :=
  s.orders (!o.isBuy) o.productID

/-- What the search returns, for either side: the first best order of the
opposite list if it crosses. For a new sell order the search also fails when no
resting order has a positive price. -/
theorem findBest_cases (s : Exchange P T) (o : Order P T) :
    s.findBest o = none ∧ (s.opposite o = [] ∨ o.isBuy = false ∧
        ∀ r ∈ s.opposite o, r.price ≤ 0) ∨
    ∃ pre c post, FirstBest (rank o.isBuy) (fun _ => true) (s.opposite o) c pre post ∧
      s.findBest o = if crosses o c then some ⟨pre.length, c⟩ else none := by
  cases ho : o.isBuy with
  | true =>
    have hf : s.findBest o = findBestSell o (s.opposite o) := by
      simp [findBest, opposite, ho]
    -- the search starts from the head, so only an empty list fails
    by_cases hl : s.opposite o = []
    · exact .inl ⟨by rw [hf, hl]; rfl, .inl hl⟩
    · obtain ⟨pre, c, post, hb, heq⟩ := findBestSell_spec o hl
      refine .inr ⟨pre, c, post, ⟨hb.split, rfl, fun a ha => ?_, fun a ha => ?_⟩, ?_⟩
      · simpa [rank] using hb.before a ha
      · simpa [rank] using hb.after a ha
      · simpa [crosses, ho] using hf.trans heq
  | false =>
    have hf : s.findBest o = findBestBuy o (s.opposite o) := by
      simp [findBest, opposite, ho]
    -- the search starts from price 0, so a list without positive prices fails too
    rcases findBestBuy_spec o (s.opposite o) with ⟨hall, heq⟩ | ⟨pre, c, post, hb, heq⟩
    · exact .inl ⟨hf.trans heq, .inr ⟨rfl, hall⟩⟩
    · refine .inr ⟨pre, c, post, ⟨hb.split, rfl, fun a ha => ?_, fun a ha => ?_⟩, ?_⟩
      · simpa [rank] using hb.before a ha
      · simpa [rank] using hb.after a ha
      · simpa [crosses, ho] using hf.trans heq

/-- A better ranked order crosses if a worse one does. -/
theorem crosses_of_rank_le {o r r' : Order P T} (h : rank o.isBuy r ≤ rank o.isBuy r')
    (hr : crosses o r' = true) : crosses o r = true := by
  cases ho : o.isBuy <;> simp_all [rank, crosses] <;> omega

/-- **Search succeeds at the first best crossing order.** -/
theorem findBest_some (h : s.findBest o = some c) :
    ∃ pre post, c.idx = pre.length ∧
      FirstBest (rank o.isBuy) (crosses o) (s.opposite o) c.val pre post := by
  rcases findBest_cases s o with ⟨hnone, -⟩ | ⟨pre, r, post, hb, heq⟩
  · rw [hnone] at h
    cases h
  · rw [heq, Option.ite_none_right_eq_some] at h
    obtain ⟨hc, hr⟩ := h
    obtain rfl := Option.some.inj hr
    exact ⟨pre, post, rfl, hb.split, hc, hb.before, hb.after⟩

/-- **Search fails only when no order crosses.** -/
theorem findBest_none (hp : 0 < o.price) (h : s.findBest o = none) :
    ∀ r ∈ s.opposite o, crosses o r = false := by
  intro r hr
  rcases findBest_cases s o with ⟨-, hl | ⟨ho, hall⟩⟩ | ⟨pre, c, post, hb, heq⟩
  · rw [hl] at hr
    exact absurd hr List.not_mem_nil
  · have := hall r hr
    simp only [crosses, ho, Bool.false_eq_true, if_false, decide_eq_false_iff_not, not_le]
    omega
  · rw [heq, ite_eq_right_iff] at h
    by_contra hne
    -- an order that crosses makes the first best one cross
    have hcr := crosses_of_rank_le (hb.rank_le hr) (by simpa using hne)
    exact absurd (h hcr) (by simp)

/-- The best offer is in the list searched. -/
theorem findBest_in (h : s.findBest o = some c) : c.In (s.opposite o) := by
  obtain ⟨pre, post, hidx, hb⟩ := findBest_some h
  obtain ⟨i, r⟩ := c
  simp only at hidx hb
  rw [hidx, hb.split]
  exact Cell.in_append

end Exchange

/-! ## One match -/

/-- Units exchanged between a new order and a resting one. -/
def tradedQuantity (o r : Order P T) : Int :=
  min o.quantity r.quantity

theorem tradedQuantity_of_le {o r : Order P T} (h : o.quantity ≤ r.quantity) :
    tradedQuantity o r = o.quantity :=
  min_eq_left h

theorem tradedQuantity_of_ge {o r : Order P T} (h : r.quantity ≤ o.quantity) :
    tradedQuantity o r = r.quantity :=
  min_eq_right h

/-- `total_price`: a `long long` when the new order is a buy order, otherwise an
`int`. -/
def totalPrice (o r : Order P T) : Int :=
  if o.isBuy then narrow 64 (r.price * tradedQuantity o r)
  else narrow 32 (narrow 64 (r.price * tradedQuantity o r))

/-- `fee`, with the same widths. -/
def feeOf (o r : Order P T) : Int :=
  if o.isBuy then roundInt (totalPrice o r * (1 / 100))
  else narrow 32 (roundInt (totalPrice o r * (1 / 100)))

/-- The buy order of a match. -/
def buyOf (o r : Order P T) : Order P T :=
  if o.isBuy then o else r

/-- The sell order of a match. -/
def sellOf (o r : Order P T) : Order P T :=
  if o.isBuy then r else o

/-- The trader of the new order is one of the two. -/
theorem traderID_buyOf_or_sellOf (o r : Order P T) :
    o.traderID = (buyOf o r).traderID ∨ o.traderID = (sellOf o r).traderID := by
  cases ho : o.isBuy <;> simp [buyOf, sellOf, ho]

theorem productID_buyOf_sellOf {o r : Order P T} (h : r.productID = o.productID) :
    (buyOf o r).productID = o.productID ∧ (sellOf o r).productID = o.productID := by
  cases ho : o.isBuy <;> simp [buyOf, sellOf, ho, h]

/-- A resting order with another quantity. -/
def withQuantity (r : Order P T) (q : Int) : Order P T :=
  { r with quantity := q }

@[simp] theorem withQuantity_quantity (r : Order P T) (q : Int) :
    (withQuantity r q).quantity = q := rfl
@[simp] theorem withQuantity_price (r : Order P T) (q : Int) :
    (withQuantity r q).price = r.price := rfl
@[simp] theorem withQuantity_orderID (r : Order P T) (q : Int) :
    (withQuantity r q).orderID = r.orderID := rfl
@[simp] theorem withQuantity_productID (r : Order P T) (q : Int) :
    (withQuantity r q).productID = r.productID := rfl
@[simp] theorem withQuantity_traderID (r : Order P T) (q : Int) :
    (withQuantity r q).traderID = r.traderID := rfl
@[simp] theorem withQuantity_isBuy (r : Order P T) (q : Int) :
    (withQuantity r q).isBuy = r.isBuy := rfl
@[simp] theorem withQuantity_product (r : Order P T) (q : Int) :
    (withQuantity r q).product = r.product := rfl
@[simp] theorem withQuantity_self (r : Order P T) : withQuantity r r.quantity = r := rfl
@[simp] theorem withQuantity_withQuantity (r : Order P T) (q q' : Int) :
    withQuantity (withQuantity r q) q' = withQuantity r q' := rfl

namespace Exchange

/-- The payment for a match: everything but the order lists. -/
def settle (A : Arith) (s : Exchange P T) (o r : Order P T) : Exchange P T :=
  ((((s.writeFill (buyOf o r) (sellOf o r) (tradedQuantity o r)).chargeFee A o.traderID
    o.productID (feeOf o r)).updateInventory A (buyOf o r).traderID (sellOf o r).traderID
      (totalPrice o r) (tradedQuantity o r) o.productID).printMatch A o r (totalPrice o r)
        (feeOf o r))

/-- The effect of one match: payment, and the resting order is removed or
reduced in both of its representations. -/
def execMatch (A : Arith) (s : Exchange P T) (o : Order P T) (c : Cell (Order P T)) :
    Exchange P T :=
  if c.val.quantity ≤ o.quantity then
    ((s.settle A o c.val).cancelOrderPrints A c.val).deleteOrder c (!o.isBuy) o.productID
  else
    (((s.settle A o c.val).cancelOrderPrints A c.val).storeOrder c (!o.isBuy) o.productID
      (withQuantity c.val (c.val.quantity - o.quantity))).addOrderPrints A
        (withQuantity c.val (c.val.quantity - o.quantity))

/-- **The six branches are one operation.** -/
theorem matchNew_eq (A : Arith) (s : Exchange P T) (o : Order P T) (c : Cell (Order P T)) :
    s.matchNew A o c =
      if c.val.quantity < o.quantity then
        (s.execMatch A o c, withQuantity o (o.quantity - c.val.quantity), 1)
      else (s.execMatch A o c, o, 0) := by
  rcases lt_trichotomy c.val.quantity o.quantity with h | h | h
  · -- the resting order is used up
    have hq : tradedQuantity o c.val = c.val.quantity := tradedQuantity_of_ge h.le
    cases ho : o.isBuy with
    | true =>
      simp [matchNew, matchNewBuy, execMatch, settle, settleNewBuy, totalPrice, feeOf, buyOf,
        sellOf, withQuantity, ho, hq, h, h.ne', h.le]
    | false =>
      simp [matchNew, matchNewSell, execMatch, settle, settleNewSell, totalPrice, feeOf, buyOf,
        sellOf, withQuantity, ho, hq, h, h.ne, h.le, not_lt.mpr h.le]
  · -- both are used up; the rate is spelled differently for a new buy order
    have hq : tradedQuantity o c.val = o.quantity := tradedQuantity_of_le h.ge
    cases ho : o.isBuy with
    | true =>
      simp [matchNew, matchNewBuy, execMatch, settle, settleNewBuy, totalPrice, feeOf, buyOf,
        sellOf, ho, hq, h, feePercentage]
    | false =>
      simp [matchNew, matchNewSell, execMatch, settle, settleNewSell, totalPrice, feeOf, buyOf,
        sellOf, ho, hq, h]
  · -- the new order is used up
    have hq : tradedQuantity o c.val = o.quantity := tradedQuantity_of_le h.le
    cases ho : o.isBuy with
    | true =>
      simp [matchNew, matchNewBuy, execMatch, settle, settleNewBuy, totalPrice, feeOf, buyOf,
        sellOf, withQuantity, ho, hq, h, h.ne, not_lt.mpr h.le]
    | false =>
      simp [matchNew, matchNewSell, execMatch, settle, settleNewSell, totalPrice, feeOf, buyOf,
        sellOf, withQuantity, ho, hq, h, h.ne', not_lt.mpr h.le]

/-! ### Its fields -/

section Frame

variable (A : Arith) (s : Exchange P T) (o r : Order P T) (c : Cell (Order P T))

/-- What one match writes. -/
def matchEvents : List (Event P T) :=
  .fill (buyOf o r) (sellOf o r) (tradedQuantity o r) ::
    (s.ifAlive (buyOf o r).traderID (.fill (buyOf o r).orderID (tradedQuantity o r)) ++
      s.ifAlive (sellOf o r).traderID (.fill (sellOf o r).orderID (tradedQuantity o r)) ++
      [.matched o r (totalPrice o r) (feeOf o r)])

theorem mem_ifAlive {e : Event P T} {t : Fin T} {m : Msg} (h : e ∈ s.ifAlive t m) :
    e = .message t m := by
  rw [ifAlive] at h
  split at h
  · exact List.mem_singleton.mp h
  · exact absurd h List.not_mem_nil

theorem mem_toOthers {e : Event P T} {ind : Fin T} {m : Msg} (h : e ∈ s.toOthers ind m) :
    ∃ i, e = .message i m := by
  obtain ⟨i, -, rfl⟩ := List.mem_map.mp h
  exact ⟨i, rfl⟩

/-- A match writes its fill first; `FILL` messages and the report follow. -/
theorem matchEvents_eq :
    ∃ es, s.matchEvents o r = .fill (buyOf o r) (sellOf o r) (tradedQuantity o r) :: es ∧
      ∀ e ∈ es, (∃ t id q, e = .message t (.fill id q)) ∨
        e = .matched o r (totalPrice o r) (feeOf o r) := by
  refine ⟨_, rfl, ?_⟩
  intro e he
  rcases List.mem_append.mp he with he | he
  · rcases List.mem_append.mp he with he | he
    · exact .inl ⟨_, _, _, mem_ifAlive s he⟩
    · exact .inl ⟨_, _, _, mem_ifAlive s he⟩
  · exact .inr (List.mem_singleton.mp he)

/-- What is not a message is written whoever is alive. -/
theorem filterMap_matchEvents {β : Type} {f : Event P T → Option β}
    (hf : ∀ t m, f (.message t m) = none) :
    (s.matchEvents o r).filterMap f =
      [.fill (buyOf o r) (sellOf o r) (tradedQuantity o r),
        .matched o r (totalPrice o r) (feeOf o r)].filterMap f := by
  have hif : ∀ (t : Fin T) (m : Msg), (s.ifAlive t m).filterMap f = [] := by
    intro t m
    rw [List.filterMap_eq_nil_iff]
    intro e he
    rw [mem_ifAlive s he]
    exact hf t m
  -- both `FILL` messages drop out, sent or not
  rw [matchEvents, ← List.singleton_append, List.filterMap_append, List.filterMap_append,
    List.filterMap_append, hif, hif, List.nil_append, List.nil_append, ← List.filterMap_append]
  rfl

@[simp] theorem settle_orders : (s.settle A o r).orders = s.orders := rfl
@[simp] theorem settle_printedOrders : (s.settle A o r).printedOrders = s.printedOrders := rfl
@[simp] theorem settle_exchangeFees :
    (s.settle A o r).exchangeFees = A.longLong (s.exchangeFees + feeOf o r) := rfl

@[simp] theorem settle_out : (s.settle A o r).out = s.out ++ s.matchEvents o r := by
  show s.out ++ _ ++ _ = _
  simp [matchEvents]

@[simp] theorem settle_orderID (t : Fin T) :
    ((s.settle A o r).traders t).orderID = (s.traders t).orderID := by
  simp [settle, chargeFee, updateInventory]

@[simp] theorem settle_alive (t : Fin T) :
    ((s.settle A o r).traders t).alive = (s.traders t).alive := by
  simp [settle, chargeFee, updateInventory]

/-- **Positions and balances after a payment.** The buyer receives the units and
pays, the seller gives them and is paid, the trader of the new order is charged
the fee; one trader may be both. -/
theorem settle_prodInfo (t : Fin T) (j : Fin P) :
    ((s.settle A o r).traders t).prodInfo j =
      if j = o.productID ∧ (t = (buyOf o r).traderID ∨ t = (sellOf o r).traderID) then
        { quantity := A.int (((s.traders t).prodInfo j).quantity
            + (if t = (buyOf o r).traderID then tradedQuantity o r else 0)
            - (if t = (sellOf o r).traderID then tradedQuantity o r else 0))
          balance := A.longLong (((s.traders t).prodInfo j).balance
            - (if t = o.traderID then feeOf o r else 0)
            - (if t = (buyOf o r).traderID then totalPrice o r else 0)
            + (if t = (sellOf o r).traderID then totalPrice o r else 0)) }
      else (s.traders t).prodInfo j := by
  -- the fee is charged to one of the two parties
  have hnew := traderID_buyOf_or_sellOf o r
  simp only [settle, chargeFee, updateInventory, printMatch_traders, modifyInfo_prodInfo,
    writeFill_traders]
  by_cases hj : j = o.productID
  · -- a trader may be the buyer, the seller and the one charged, in any combination
    by_cases hb : t = (buyOf o r).traderID <;> by_cases hs : t = (sellOf o r).traderID <;>
      by_cases hn : t = o.traderID <;> simp_all
  · simp [hj]

/-- The list of resting orders a match works on, afterwards. -/
theorem execMatch_orders (b : Bool) (i : Fin P) :
    (s.execMatch A o c).orders b i =
      if b = (!o.isBuy) ∧ i = o.productID then
        if c.val.quantity ≤ o.quantity then c.delete (s.opposite o)
        else c.store (withQuantity c.val (c.val.quantity - o.quantity)) (s.opposite o)
      else s.orders b i := by
  rw [execMatch]
  by_cases h : c.val.quantity ≤ o.quantity
  · simp [h, deleteOrder, opposite]
  · simp [h, storeOrder, opposite]

@[simp] theorem execMatch_out : (s.execMatch A o c).out = s.out ++ s.matchEvents o c.val := by
  rw [execMatch]
  split <;> simp

@[simp] theorem execMatch_orderID (t : Fin T) :
    ((s.execMatch A o c).traders t).orderID = (s.traders t).orderID := by
  rw [execMatch]
  split <;> simp

@[simp] theorem execMatch_alive (t : Fin T) :
    ((s.execMatch A o c).traders t).alive = (s.traders t).alive := by
  rw [execMatch]
  split <;> simp

@[simp] theorem execMatch_prodInfo (t : Fin T) :
    ((s.execMatch A o c).traders t).prodInfo = ((s.settle A o c.val).traders t).prodInfo := by
  rw [execMatch]
  split <;> simp

@[simp] theorem execMatch_exchangeFees :
    (s.execMatch A o c).exchangeFees = A.longLong (s.exchangeFees + feeOf o c.val) := by
  rw [execMatch]
  split <;> simp

end Frame

/-! ## The matching loop -/

/-- The matching loop: from a state and a new order to a state, what is left of
the order, and the value `check_for_match` returns. The list holds the matches
in the order they are executed: the new order as it was, the resting order. -/
inductive Trades (A : Arith) :
    Exchange P T → Order P T → List (Order P T × Order P T) →
      Exchange P T → Order P T → Int → Prop where
  /-- No resting order crosses. -/
  | stop {s : Exchange P T} {o : Order P T} (hq : 0 < o.quantity)
      (hf : s.findBest o = none) : Trades A s o [] s o 1
  /-- The best resting order covers the new order. -/
  | last {s : Exchange P T} {o : Order P T} {c : Cell (Order P T)} (hq : 0 < o.quantity)
      (hf : s.findBest o = some c) (hle : o.quantity ≤ c.val.quantity) :
      Trades A s o [(o, c.val)] (s.execMatch A o c) o 0
  /-- The best resting order is used up and the loop goes on. -/
  | more {s s' : Exchange P T} {o o' : Order P T} {c : Cell (Order P T)}
      {ms : List (Order P T × Order P T)} {ret : Int}
      (hq : 0 < o.quantity) (hf : s.findBest o = some c) (hlt : c.val.quantity < o.quantity)
      (ht : Trades A (s.execMatch A o c) (withQuantity o (o.quantity - c.val.quantity)) ms
        s' o' ret) :
      Trades A s o ((o, c.val) :: ms) s' o' ret

variable {A : Arith} {s s' : Exchange P T} {o o' : Order P T} {c : Cell (Order P T)} {ret : Int}
  {ms : List (Order P T × Order P T)}

/-- A resting order that is used up leaves the list. -/
theorem opposite_of_le (hle : c.val.quantity ≤ o.quantity) (q : Int) :
    (s.execMatch A o c).opposite (withQuantity o q) = c.delete (s.opposite o) := by
  rw [opposite, withQuantity_isBuy, withQuantity_productID, execMatch_orders, if_pos ⟨rfl, rfl⟩,
    if_pos hle]

/-- A match that leaves quantity in the new order consumes a resting order. -/
theorem opposite_length_lt (hf : s.findBest o = some c) (hlt : c.val.quantity < o.quantity) :
    ((s.execMatch A o c).opposite (withQuantity o (o.quantity - c.val.quantity))).length <
      (s.opposite o).length := by
  obtain ⟨pre, post, hl, -, hdel, -⟩ := (findBest_in hf).split
  rw [opposite_of_le hlt.le, hdel, hl]
  simp

/-- The loop ends within a bound larger than the number of resting orders. -/
theorem checkLoop_trades : ∀ (fuel : Nat) {s : Exchange P T} {o : Order P T},
    0 < o.quantity → (s.opposite o).length < fuel →
      ∃ ms s' o' ret, checkLoop A fuel s o = .ok (s', o', ret) ∧ Trades A s o ms s' o' ret
  | 0, _, _, _, h => absurd h (Nat.not_lt_zero _)
  | fuel + 1, s, o, hq, hlen => by
    rw [checkLoop, if_pos hq]
    cases hf : s.findBest o with
    | none => exact ⟨[], s, o, 1, rfl, .stop hq hf⟩
    | some c =>
      by_cases hlt : c.val.quantity < o.quantity
      · have hpos : 0 < (withQuantity o (o.quantity - c.val.quantity)).quantity := by
          rw [withQuantity_quantity]
          omega
        -- the new order is not used up: the bound pays for the order consumed
        have hless := opposite_length_lt (A := A) hf hlt
        obtain ⟨ms, s', o', ret, heq, ht⟩ := checkLoop_trades fuel hpos
          (by omega : ((s.execMatch A o c).opposite _).length < fuel)
        refine ⟨_, s', o', ret, ?_, .more hq hf hlt ht⟩
        simpa [matchNew_eq, hlt] using heq
      · exact ⟨_, s.execMatch A o c, o, 0, by simp [matchNew_eq, hlt], .last hq hf (not_lt.mp hlt)⟩

/-- **`check_for_match` terminates**, and what it does is a `Trades`. -/
theorem checkForMatch_trades (hq : 0 < o.quantity) :
    ∃ ms s' o' ret, s.checkForMatch A o = .ok (s', o', ret) ∧ Trades A s o ms s' o' ret :=
  checkLoop_trades _ hq (Nat.lt_succ_self _)

/-- The state after the insertion of what `check_for_match` left. -/
def afterInsert (A : Arith) (s : Exchange P T) (o : Order P T) (ret : Int) : Exchange P T :=
  if ret = 1 then (s.addOrderPrints A o).addOrder o else s

/-- What holds with the order added and without it holds after the insertion. -/
theorem afterInsert_rule {motive : Exchange P T → Prop}
    (hadd : ret = 1 → motive ((s.addOrderPrints A o).addOrder o)) (hskip : ret ≠ 1 → motive s) :
    motive (afterInsert A s o ret) := by
  rw [afterInsert]
  split
  · exact hadd ‹_›
  · exact hskip ‹_›

/-- **Every order is matched**: the loop ends, after finitely many matches. -/
theorem matchAndInsert_trades (hq : 0 < o.quantity) :
    ∃ ms s' o' ret, Trades A s o ms s' o' ret ∧
      s.matchAndInsert A o = .ok (afterInsert A s' o' ret) := by
  obtain ⟨ms, s', o', ret, heq, ht⟩ := checkForMatch_trades (A := A) (s := s) hq
  refine ⟨ms, s', o', ret, ht, ?_⟩
  unfold matchAndInsert afterInsert
  rw [heq]
  show (if ret = 1 then _ else _) = _
  split <;> rfl

/-- The loop has one outcome. -/
theorem Trades.unique (h : Trades A s o ms s' o' ret) {ms₂ : List (Order P T × Order P T)}
    {s₂ : Exchange P T} {o₂ : Order P T} {ret₂ : Int} (h₂ : Trades A s o ms₂ s₂ o₂ ret₂) :
    s₂ = s' ∧ o₂ = o' ∧ ret₂ = ret := by
  induction h generalizing ms₂ with
  | stop _ hf =>
    cases h₂ with
    | stop => exact ⟨rfl, rfl, rfl⟩
    | last _ hf₂ => exact absurd (hf.symm.trans hf₂) nofun
    | more _ hf₂ => exact absurd (hf.symm.trans hf₂) nofun
  | last _ hf hle =>
    cases h₂ with
    | stop _ hf₂ => exact absurd (hf₂.symm.trans hf) nofun
    | last _ hf₂ =>
      obtain rfl := Option.some.inj (hf.symm.trans hf₂)
      exact ⟨rfl, rfl, rfl⟩
    | more _ hf₂ hlt =>
      obtain rfl := Option.some.inj (hf.symm.trans hf₂)
      omega
  | more _ hf hlt _ ih =>
    cases h₂ with
    | stop _ hf₂ => exact absurd (hf₂.symm.trans hf) nofun
    | last _ hf₂ hle =>
      obtain rfl := Option.some.inj (hf.symm.trans hf₂)
      omega
    | more _ hf₂ _ ht₂ =>
      obtain rfl := Option.some.inj (hf.symm.trans hf₂)
      exact ih ht₂

/-- What the matches are decides the outcome. -/
theorem Trades.matchAndInsert (h : Trades A s o ms s' o' ret) (hq : 0 < o.quantity) :
    s.matchAndInsert A o = .ok (afterInsert A s' o' ret) := by
  obtain ⟨ms₂, s₂, o₂, ret₂, ht₂, heq⟩ := matchAndInsert_trades (A := A) (s := s) hq
  obtain ⟨rfl, rfl, rfl⟩ := h.unique ht₂
  exact heq

/-- What is left of the new order differs from it in quantity only. -/
theorem Trades.left_eq (h : Trades A s o ms s' o' ret) : o' = withQuantity o o'.quantity := by
  induction h with
  | stop => rfl
  | last => rfl
  | more _ _ _ _ ih => rw [ih]; rfl

/-- The loop returns 0 or 1. When it returns 1 there is something left of the
new order and nothing it could be matched with. -/
theorem Trades.ret_cases (h : Trades A s o ms s' o' ret) :
    ret = 0 ∨ ret = 1 ∧ 0 < o'.quantity ∧ s'.findBest o' = none := by
  induction h with
  | stop hq hf => exact .inr ⟨rfl, hq, hf⟩
  | last => exact .inl rfl
  | more _ _ _ _ ih => exact ih

end Exchange

end PeExchange
