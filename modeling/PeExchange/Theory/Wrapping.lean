import PeExchange.Theory.Depth
import PeExchange.Theory.Fills
import PeExchange.Theory.Priority
import PeExchange.Theory.RoundTrip

/-!
# When the aggregates wrap

The quantity of a level and a trader's position are of type `int`, unlike balances
and fees. A position is always the exact one modulo 2^32. A level is not even
that: one that wraps to 0 is dropped while orders rest at its price.

- `ExactAggregates`: levels and positions are what they stand for.
- `HasRoom`: for the order a command enters, what will rest at its price and what
  will be the positions fit an `int`. It is a condition on the order and the lists
  and fills before it is matched.
- `SumsFit`: the same of a state. As long as it lasts the level lists are the
  ladders of the resting orders (`Outcome.depthShown`), and one step leads to exact
  aggregates exactly when it has room (`InBounds.step_iff`).
-/

namespace PeExchange

open CArith LinkedList Ladder PriorityFill

variable {P T : Nat}

/-- The value of an `int` object. -/
def FitsInt (x : Int) : Prop :=
  -2147483648 ≤ x ∧ x ≤ 2147483647

instance (x : Int) : Decidable (FitsInt x) := inferInstanceAs (Decidable (_ ∧ _))

theorem fitsInt_of_int {x : Int} (h : x = Arith.machine.int x) : FitsInt x := by
  rw [h]
  exact narrow_32_range x

theorem FitsInt.int_eq {x : Int} (h : FitsInt x) : Arith.machine.int x = x :=
  narrow_32_of_fits h.1 h.2

theorem le_of_holds {n : Int} (h : Arith.machine.Holds n) (h₀ : 0 ≤ n) : n ≤ 2147483647 := by
  have hn : narrow 32 n = n := h n h₀ (le_refl n)
  have hr := narrow_32_range n
  omega

/-- The exact position in a product. -/
def netFills (t : Fin T) (j : Fin P) (out : List (Event P T)) : Int :=
  bought t j out - sold t j out

/-- What fills of the order `o` add to a trader's position. -/
def gains (t : Fin T) (o : Order P T) (fills : List (Order P T × Int)) : Int :=
  (fills.map fun f => (if (buyOf o f.1).traderID = t then f.2 else 0) -
    (if (sellOf o f.1).traderID = t then f.2 else 0)).sum

theorem netFills_append {t : Fin T} {j : Fin P} (out es : List (Event P T)) :
    netFills t j (out ++ es) = netFills t j out + netFills t j es := by
  rw [netFills, netFills, netFills, bought_append, sold_append]
  omega

theorem netFills_quiet {out es : List (Event P T)} (hes : ∀ b r q, .fill b r q ∉ es) (t : Fin T)
    (j : Fin P) : netFills t j (out ++ es) = netFills t j out := by
  have hzero : netFills t j es = 0 := by
    rw [netFills, bought_of_no_fill hes, sold_of_no_fill hes]
    rfl
  rw [netFills_append, hzero, add_zero]

namespace Exchange

variable {vp : ValidProducts P} {s s' s₁ s₂ : Exchange P T} {ind : Fin T} {o o' : Order P T}
  {ms : List (Order P T × Order P T)} {ret : Int} {msg : List Char} {a : Action T}

/-! ## Definitions -/

/-- Every level shows the exact total of what rests at its price, there is one
exactly where an order rests, and every position is the exact total of the
trader's fills in the product. -/
structure ExactAggregates (s : Exchange P T) : Prop where
  quantity : ∀ i b, ∀ l ∈ (s.printedOrders i).head b,
    l.quantity = (((s.orders b i).filter fun o => o.price = l.price).map Order.quantity).sum
  level : ∀ i b p, (∃ l ∈ (s.printedOrders i).head b, l.price = p) ↔
    ∃ o ∈ s.orders b i, o.price = p
  position : ∀ t j, ((s.traders t).prodInfo j).quantity = bought t j s.out - sold t j s.out

/-- There is room for the order `o`, about to be matched in state `s`: what rests
at its price with what its fills leave of it fits an `int`, and so do all
positions with its fills. -/
structure HasRoom (s : Exchange P T) (o : Order P T) : Prop where
  level : restingAt (s.orders o.isBuy o.productID) o.price +
    (o.quantity - total (s.dueFills o)) ≤ 2147483647
  positions : ∀ t,
    FitsInt (netFills t o.productID s.out + gains t o (s.dueFills o))

instance (s : Exchange P T) (o : Order P T) : Decidable (HasRoom s o) :=
  decidable_of_iff (_ ∧ _) ⟨fun h => ⟨h.1, h.2⟩, fun h => ⟨h.1, h.2⟩⟩

/-- There is room for what happens next: for the order that a command enters, if it
enters one. -/
def Room (vp : ValidProducts P) (s : Exchange P T) : Action T → Prop
  | .command ind msg => ∀ s₁ o, s.incoming .machine vp msg ind = .ok (some (s₁, o)) → HasRoom s₁ o
  | .died _ => True

/-- What rests at every price and every exact position fit an `int`. -/
structure SumsFit (s : Exchange P T) : Prop where
  levels : Fits .machine s
  positions : ∀ t j, FitsInt (netFills t j s.out)

/-! ## The fills of a command -/

/-- The matching loop changes positions by the fills. -/
theorem netFills_matches (s : Exchange P T) (t : Fin T) (j : Fin P)
    (hms : ∀ m ∈ ms, (∃ q, m.1 = withQuantity o q) ∧ m.2.productID = o.productID) :
    netFills t j (ms.flatMap fun m => s.matchEvents m.1 m.2) =
      if o.productID = j then gains t o (ms.map fun m => (m.2, tradedQuantity m.1 m.2)) else 0 := by
  induction ms with
  | nil => simp [netFills, bought, sold, gains]
  | cons m ms ih =>
    obtain ⟨⟨q, hq⟩, hprod⟩ := hms m List.mem_cons_self
    have hm : m.2.productID = m.1.productID := by
      rw [hq]
      exact hprod
    -- the new order keeps trader, side and product while it is filled
    have hbuy : (buyOf m.1 m.2).traderID = (buyOf o m.2).traderID := by
      rw [hq, buyOf, buyOf, withQuantity_isBuy]
      split <;> rfl
    have hsell : (sellOf m.1 m.2).traderID = (sellOf o m.2).traderID := by
      rw [hq, sellOf, sellOf, withQuantity_isBuy]
      split <;> rfl
    have hj : m.1.productID = o.productID := by
      rw [hq]
      rfl
    rw [List.flatMap_cons, netFills_append, ih fun m' hm' => hms m' (List.mem_cons_of_mem _ hm'),
      netFills, bought_matchEvents hm, sold_matchEvents hm, hbuy, hsell, hj, gains, gains,
      List.map_cons, List.map_cons, List.sum_cons]
    by_cases h : o.productID = j
    · simp only [h, and_true, if_true]
    · simp only [h, and_false, if_false, sub_zero, add_zero]

/-- The exact positions after a command that trades. -/
theorem netFills_traded (ht : Trades .machine s₁ o ms s₂ o' ret) (hr : Reachable .machine vp s)
    (hin : s.incoming .machine vp msg ind = .ok (some (s₁, o))) (t : Fin T) (j : Fin P) :
    netFills t j (afterInsert .machine s₂ o' ret).out =
      netFills t j s₁.out + if o.productID = j then gains t o (s₁.dueFills o) else 0 := by
  obtain ⟨hw₁, -⟩ := (incoming_enters hin).wellFormed (Reachable.wellFormed hr)
  have hms : ∀ m ∈ ms, (∃ q, m.1 = withQuantity o q) ∧ m.2.productID = o.productID := by
    intro m hm
    obtain ⟨hq, hmem⟩ := ht.mem_matches m hm
    exact ⟨hq, (hw₁.placed _ _ _ hmem).2⟩
  rw [afterInsert_out, ht.out, netFills_append, netFills_matches s₁ t j hms, (ht.due hr hin).1]

theorem restingAt_addOrder (s : Exchange P T) (o : Order P T) (b : Bool) (i : Fin P) (p : Int) :
    restingAt ((s.addOrder o).orders b i) p = restingAt (s.orders b i) p +
      if b = o.isBuy ∧ i = o.productID ∧ p = o.price then o.quantity else 0 := by
  rw [addOrder, setOrders_orders]
  by_cases h : b = o.isBuy ∧ i = o.productID
  · obtain ⟨rfl, rfl⟩ := h
    rw [if_pos ⟨rfl, rfl⟩, restingAt, sumAt_append, sumAt_cons, sumAt_nil, add_zero]
    simp only [true_and, eq_comm]
  · rw [if_neg h, if_neg fun h' => h ⟨h'.1, h'.2.1⟩, add_zero]

/-- What rests after a command that trades: on the side of the new order, what its
fills leave of it is added. -/
theorem restingAt_traded (ht : Trades .machine s₁ o ms s₂ o' ret)
    (hr : Reachable .machine vp s) (hin : s.incoming .machine vp msg ind = .ok (some (s₁, o))) :
    restingAt ((afterInsert .machine s₂ o' ret).orders o.isBuy o.productID) o.price =
      restingAt (s₁.orders o.isBuy o.productID) o.price +
        (o.quantity - total (s₁.dueFills o)) := by
  have hside : s₂.orders o.isBuy o.productID = s₁.orders o.isBuy o.productID :=
    ht.orders_of_ne fun h => by simp at h
  rcases (ht.due hr hin).2.1 with ⟨rfl, htotal⟩ | ⟨rfl, -, rfl⟩
  · rw [htotal, ← hside, afterInsert, if_neg (by decide)]
    omega
  · rw [afterInsert, if_pos rfl, restingAt_addOrder, if_pos ⟨rfl, rfl, rfl⟩, addOrderPrints_orders,
      hside, withQuantity_quantity]

theorem netFills_incoming (hin : s.incoming .machine vp msg ind = .ok (some (s₁, o))) (t : Fin T)
    (j : Fin P) : netFills t j s₁.out = netFills t j s.out := by
  rw [(incoming_out hin).2, netFills_quiet (no_fill_entered s)]

/-! ## One step -/

/-- Where there is room, matching wraps nothing. -/
theorem SumsFit.traded (hf : SumsFit s) (ht : Trades .machine s₁ o ms s₂ o' ret)
    (hr : Reachable .machine vp s) (hin : s.incoming .machine vp msg ind = .ok (some (s₁, o)))
    (hroom : HasRoom s₁ o) : SumsFit (afterInsert .machine s₂ o' ret) := by
  have hw := Reachable.wellFormed hr
  have he := incoming_enters hin
  have hfit₂ : Fits .machine s₂ := (he.fits hw hf.levels).shrunk (he.wellFormed hw).1 ht.shrunk
  constructor
  · intro b i p
    by_cases h : b = o.isBuy ∧ i = o.productID ∧ p = o.price
    · obtain ⟨rfl, rfl, rfl⟩ := h
      exact Arith.holds_machine (restingAt_traded ht hr hin ▸ hroom.level)
    · -- the order joins another list, or another price of this one
      refine afterInsert_rule
        (motive := fun s' => Arith.machine.Holds (restingAt (s'.orders b i) p))
        (fun _ => ?_) fun _ => hfit₂ b i p
      rw [ht.left_eq, restingAt_addOrder, withQuantity_isBuy, withQuantity_productID,
        withQuantity_price, if_neg h, add_zero]
      exact hfit₂ b i p
  · intro t j
    rw [netFills_traded ht hr hin]
    by_cases hj : o.productID = j
    · subst hj
      rw [if_pos rfl]
      exact hroom.positions t
    · rw [if_neg hj, add_zero, netFills_incoming hin]
      exact hf.positions t j

/-- A step without new fills and orders keeps the sums in range. -/
theorem SumsFit.quiet (hf : SumsFit s) (hw : WellFormed vp s)
    (horders : ∀ b i, Remnant (s'.orders b i) (s.orders b i))
    (hnet : ∀ t j, netFills t j s'.out = netFills t j s.out) : SumsFit s' where
  levels b i p := (hf.levels b i p).mono ((horders b i).restingAt_le
    (fun r hr => (hw.valid b i r hr).quantity_pos) p)
  positions t j := by
    rw [hnet]
    exact hf.positions t j

/-- **A step that has room keeps the sums in range.** -/
theorem SumsFit.step (hf : SumsFit s) (hr : Reachable .machine vp s)
    (hs : Step .machine vp s a s') (hroom : Room vp s a) : SumsFit s' := by
  have hw := Reachable.wellFormed hr
  cases hs with
  | command hp =>
    cases parseMsg_outcome hp with
    | rejected =>
      refine hf.quiet hw (fun b i => .of_sublist (List.Sublist.refl _)) fun t j => ?_
      refine netFills_quiet (fun b r q hmem => ?_) t j
      cases List.mem_singleton.mp hmem
    | traded hin ht => exact hf.traded ht hr hin (hroom _ _ hin)
    | @cancelled c n hmsg hc =>
      refine hf.quiet hw (fun b i => .of_sublist (deleteOrder_sublist s _ _ _ b i)) fun t j => ?_
      rw [show (s.afterCancel .machine _ c).out = s.out ++ _ from List.append_assoc _ _ _]
      exact netFills_quiet (no_fill_cancelled s) t j
  | died => exact hf.quiet hw (fun b i => .of_sublist (List.Sublist.refl _)) fun _ _ => rfl

/-- The step lemma for the levels. -/
theorem DepthShown.step (hd : DepthShown s) (hr : Reachable .machine vp s)
    (hs : Step .machine vp s a s') (hf : SumsFit s) (hf' : SumsFit s') : DepthShown s' := by
  cases hs with
  | command hp =>
    exact (parseMsg_outcome hp).depthShown hd (Reachable.wellFormed hr) hf.levels hf'.levels
  | died => exact ⟨hd.shows, hd.len⟩

/-- While the sums are in range the aggregates are exact. -/
theorem SumsFit.exact (hf : SumsFit s) (hd : DepthShown s) (hr : Reachable .machine vp s) :
    ExactAggregates s where
  quantity i b _ hl := ((hd.shows i b).level hl).1
  level i b p := (hd.shows i b).exists_level
    (fun o ho => ((Reachable.wellFormed hr).valid b i o ho).quantity_pos) p
  position t j := (Reachable.storedPositions hr t j).trans (hf.positions t j).int_eq

/-- A level that `add_to_prints` leaves holds a number of type `int`. -/
theorem quantity_le_of_mem_addToPrints {levels : List PrintedOrder} {l : PrintedOrder}
    (hd : Descending PrintedOrder.price levels) (hle : ∀ l ∈ levels, l.quantity ≤ 2147483647)
    (ho : o.quantity ≤ 2147483647) (hl : l ∈ addToPrints .machine levels o) :
    l.quantity ≤ 2147483647 := by
  rw [addToPrints_eq .machine o hd] at hl
  rcases mem_upsert hl with rfl | hl | ⟨l', -, rfl⟩
  · exact ho
  · exact hle l hl
  · exact (narrow_32_range _).2

/-- **Exact aggregates after an order has been matched mean that there was room.** -/
theorem HasRoom.of_exact (hf : SumsFit s) (hd : DepthShown s) (hr : Reachable .machine vp s)
    (hin : s.incoming .machine vp msg ind = .ok (some (s₁, o)))
    (ht : Trades .machine s₁ o ms s₂ o' ret)
    (hr' : Reachable .machine vp (afterInsert .machine s₂ o' ret))
    (hexact : ExactAggregates (afterInsert .machine s₂ o' ret)) : HasRoom s₁ o := by
  have hw := Reachable.wellFormed hr
  have he := incoming_enters hin
  have hw₁ := (he.wellFormed hw).1
  have hw₂ := hw₁.shrunk ht.shrunk
  have hfit₁ := he.fits hw hf.levels
  have hfit₂ : Fits .machine s₂ := hfit₁.shrunk hw₁ ht.shrunk
  have hle₂ : ∀ b i p, restingAt (s₂.orders b i) p ≤ 2147483647 := fun b i p =>
    le_of_holds (hfit₂ b i p)
      (sumAt_nonneg (fun r hr => (hw₂.valid b i r hr).quantity_pos) p)
  constructor
  · rw [← restingAt_traded ht hr hin]
    rcases ht.ret_cases with rfl | ⟨rfl, -, -⟩
    · exact hle₂ _ _ _
    · -- the order rests, so its level is there, and its quantity is of type `int`
      have hleft := ht.left_eq
      generalize hq : o'.quantity = q at hleft
      subst hleft
      have hshows := (ht.depthShown (he.depthShown hd hw hf.levels) hw₁ hfit₁).shows
        o.productID o.isBuy
      have hmem : withQuantity o q ∈
          (afterInsert .machine s₂ (withQuantity o q) 1).orders o.isBuy o.productID :=
        mem_addOrder.mpr (.inr ⟨rfl, rfl, rfl⟩)
      have hvalid := (Reachable.wellFormed hr').valid _ _ _ hmem
      obtain ⟨l, hl, hprice⟩ := (hexact.level _ _ o.price).mpr ⟨_, hmem, rfl⟩
      have hsum : l.quantity = restingAt _ l.price := hexact.quantity _ _ l hl
      rw [hprice] at hsum
      rw [← hsum]
      refine quantity_le_of_mem_addToPrints (o := withQuantity o q) hshows.descending
        (fun l hl => ?_) (hvalid.quantity_le.trans (by decide)) ?_
      · rw [(hshows.level hl).1]
        exact hle₂ _ _ _
      · simpa [afterInsert, addOrderPrints, PrintedOrderbook.setLen] using hl
  · intro t
    have hnet := netFills_traded ht hr hin t o.productID
    rw [if_pos rfl] at hnet
    rw [← hnet]
    refine fitsInt_of_int ?_
    exact (hexact.position t o.productID).symm.trans (Reachable.storedPositions hr' t o.productID)

end Exchange

/-! ## Runs -/

open Exchange

variable {vp : ValidProducts P} {s s' : Exchange P T} {a : Action T} {as : List (Action T)}

/-- A transition of the exchange that has room. -/
def RoomyStep (vp : ValidProducts P) (s : Exchange P T) (a : Action T) (s' : Exchange P T) :
    Prop :=
  Step .machine vp s a s' ∧ Room vp s a

/-- The transition of a command for which there is room. -/
theorem roomyStep_command {ind : Fin T} {msg : List Char}
    (hin : okAnd (s.incoming .machine vp msg ind) fun r =>
      r.all fun r => decide (HasRoom r.1 r.2))
    (hp : s.parseMsg .machine vp msg ind = .ok s') : RoomyStep vp s (.command ind msg) s' := by
  refine ⟨.command hp, fun s₁ o h => ?_⟩
  obtain ⟨r, hr, hroom⟩ := exists_of_okAnd hin
  obtain rfl := Except.ok.inj (hr.symm.trans h)
  exact of_decide_eq_true hroom

/-- A transition that leads to exact aggregates. -/
def ExactStep (vp : ValidProducts P) (s : Exchange P T) (a : Action T) (s' : Exchange P T) :
    Prop :=
  Step .machine vp s a s' ∧ ExactAggregates s'

/-- What holds as long as every step has room. -/
structure InBounds (vp : ValidProducts P) (s : Exchange P T) : Prop where
  reachable : Reachable .machine vp s
  sums : SumsFit s
  depth : DepthShown s

/-- **The step lemma**: a step that has room wraps nothing. -/
theorem InBounds.step (h : InBounds vp s) (hs : RoomyStep vp s a s') : InBounds vp s' where
  reachable := h.reachable.step hs.1
  sums := h.sums.step h.reachable hs.1 hs.2
  depth := h.depth.step h.reachable hs.1 h.sums (h.sums.step h.reachable hs.1 hs.2)

theorem inBounds_initial (vp : ValidProducts P) : InBounds vp (initial : Exchange P T) where
  reachable := Transition.Reachable.init
  sums := by
    refine ⟨fun b i p => Arith.holds_machine (show (0 : Int) ≤ 2147483647 by decide),
      fun t j => ?_⟩
    have hno : ∀ b r q, .fill b r q ∉ (initial : Exchange P T).out := by
      intro b r q hmem
      obtain ⟨i, hi⟩ := mem_initial_out hmem
      cases hi
    rw [netFills, bought_of_no_fill hno, sold_of_no_fill hno]
    exact ⟨by decide, by decide⟩
  depth := ⟨fun _ _ => Aggregates.nil, fun _ _ => rfl⟩

theorem InBounds.exact (h : InBounds vp s) : ExactAggregates s :=
  h.sums.exact h.depth h.reachable

/-- **One step from bounded sums leads to exact aggregates exactly when it has
room.** -/
theorem InBounds.step_iff (h : InBounds vp s) : ExactStep vp s a s' ↔ RoomyStep vp s a s' := by
  constructor
  · rintro ⟨hs, hexact⟩
    refine ⟨hs, ?_⟩
    cases hs with
    | command hp =>
      intro s₁ o hin
      have hr' := h.reachable.step (.command hp)
      rw [parseMsg_of_incoming hin] at hp
      obtain ⟨ms, s₂, o', ret, ht, heq⟩ :=
        matchAndInsert_trades (A := .machine) (s := s₁) (incoming_enters hin).quantity_pos
      obtain rfl := Except.ok.inj (heq.symm.trans hp)
      exact .of_exact h.sums h.depth h.reachable hin ht hr' hexact
    | died => trivial
  · intro hs
    exact ⟨hs.1, (h.step hs).exact⟩

/-- Whole runs of such steps. -/
theorem inBounds_of_run (hr : Transition.Run (RoomyStep vp) initial as s) : InBounds vp s := by
  induction hr with
  | nil => exact inBounds_initial vp
  | snoc _ hs ih => exact ih.step hs

/-- **The aggregates are exact as long as there is room.** They are before the first
command, and the runs in which every step leads to exact aggregates are the runs
in which every step has room. -/
theorem exact_iff_room (vp : ValidProducts P) :
    (initial : Exchange P T).ExactAggregates ∧
    ∀ (as : List (Action T)) (s : Exchange P T),
      Transition.Run (ExactStep vp) initial as s ↔ Transition.Run (RoomyStep vp) initial as s := by
  refine ⟨(inBounds_initial vp).exact, ?_⟩
  intro as s
  constructor
  · intro h
    induction h with
    | nil => exact .nil
    | snoc _ hs ih => exact ih.snoc ((inBounds_of_run ih).step_iff.mp hs)
  · intro h
    induction h with
    | nil => exact .nil
    | snoc hr hs ih => exact ih.snoc ((inBounds_of_run hr).step_iff.mpr hs)

/-! ## A level that wraps -/

/-- The text of the `n`-th order of trader 0: 999999 units of `GPU` at 1. -/
def largeBid (n : Nat) : List Char :=
  PeTrader.createBuyStr ⟨"GPU".toList, 999999, 1, n⟩

/-- The order it is read as. -/
def largeOrder (n : Nat) : Order 2 1 :=
  ⟨"GPU".toList, 999999, 1, n, ⟨0, Nat.zero_lt_two⟩, ⟨0, Nat.zero_lt_one⟩, true⟩

theorem spaceCount_createBuyStr {product : List Char} (hprod : CFormat.IsWord product)
    {id q p : Int} (hid : 0 ≤ id) (hq : 0 ≤ q) (hp : 0 ≤ p) :
    spaceCount (PeTrader.createBuyStr ⟨product, q, p, id⟩) = 4 := by
  have hdec : ∀ {n : Int}, 0 ≤ n → spaceCount (CFormat.decimal n) = 0 := fun h =>
    spaceCount_eq_zero (decimal_isDecimal h).not_space
  rw [PeTrader.createBuyStr_eq]
  simp only [spaceCount_append, spaceCount_space, hdec hid, hdec hq, hdec hp,
    spaceCount_eq_zero hprod.2]
  rfl

/-- After `n` such orders and nothing else. -/
structure Bidding (n : Nat) (s : Exchange 2 1) : Prop where
  inBounds : InBounds testProducts s
  counter : (s.traders 0).orderID = n
  sellers : s.orders false 0 = []
  resting : restingAt (s.orders true 0) 1 = n * 999999

/-- The state in which the next one is matched. -/
def Exchange.bidEntered (s : Exchange 2 1) (n : Nat) : Exchange 2 1 :=
  (s.setTrader (largeOrder n).traderID
    { s.traders (largeOrder n).traderID with orderID := n + 1 }).writeAccepted (largeOrder n)
      (largeOrder n).traderID

variable {n : Nat} {b : Exchange 2 1}

theorem Bidding.incoming (h : Bidding n b) (hn : n ≤ 999999) :
    b.incoming .machine testProducts (largeBid n) 0 =
      .ok (some (b.bidEntered n, largeOrder n)) := by
  have hword : CFormat.IsWord "GPU".toList := CFormat.isWord_of_any nofun (by decide)
  have hid : 0 ≤ (n : Int) ∧ (n : Int) ≤ 999999 := by omega
  have hlen : (largeBid n).length < maxLine := by
    have hdec : (CFormat.decimal (n : Int)).length ≤ 6 :=
      length_decimal_le hid.1 (by decide) (by omega)
    rw [largeBid, PeTrader.length_createBuyStr]
    have hq : (CFormat.decimal 999999).length = 6 := by decide
    have hp : (CFormat.decimal 1).length = 1 := by decide
    have hw : "GPU".toList.length = 3 := rfl
    unfold maxLine
    simp only [hq, hp, hw]
    omega
  have hspaces : spaceCount (largeBid n) = 4 :=
    spaceCount_createBuyStr hword hid.1 (by decide) (by decide)
  have hcreate : createBuySellOrder testProducts (largeBid n) 0 (b.traders 0) =
      .ok (some (largeOrder n, { b.traders 0 with orderID := n + 1 })) :=
    createBuySellOrder_createBuyStr hword rfl rfl hid (by decide) (by decide) h.counter hlen
  have hcons : ∃ msg, largeBid n = 'B' :: msg := by
    rw [largeBid, PeTrader.createBuyStr_eq]
    exact ⟨_, rfl⟩
  obtain ⟨msg, hmsg⟩ := hcons
  have hnew : b.incoming .machine testProducts (largeBid n) 0 =
      b.newOrderMsg testProducts (largeBid n) 0 := by
    rw [hmsg]
    rfl
  rw [hnew, newOrderMsg, if_neg (not_not.mpr hspaces), hcreate]
  rfl

/-- Nobody sells, so nothing is due. -/
theorem Bidding.dueFills (h : Bidding n b) : (b.bidEntered n).dueFills (largeOrder n) = [] := by
  have hopp : (b.bidEntered n).opposite (largeOrder n) = [] := h.sellers
  rw [Exchange.dueFills, hopp]
  rfl

/-- There is room for the next order exactly when the total still fits. -/
theorem Bidding.hasRoom_iff (h : Bidding n b) :
    HasRoom (b.bidEntered n) (largeOrder n) ↔ n * 999999 + 999999 ≤ (2147483647 : Int) := by
  have hlevel : restingAt ((b.bidEntered n).orders (largeOrder n).isBuy (largeOrder n).productID)
      (largeOrder n).price = n * 999999 := h.resting
  have htotal : (largeOrder n).quantity - total ((b.bidEntered n).dueFills (largeOrder n)) =
      999999 := by
    rw [h.dueFills]
    rfl
  constructor
  · intro hroom
    have hle := hroom.level
    rw [hlevel, htotal] at hle
    exact hle
  · intro hle
    constructor
    · rw [hlevel, htotal]
      exact hle
    · intro t
      have hin := h.incoming (by omega)
      rw [h.dueFills, netFills_incoming hin]
      exact (add_zero (netFills t _ b.out)).symm ▸ h.inBounds.sums.positions t _

/-- The next order is accepted and joins the list. -/
theorem Bidding.parseMsg (h : Bidding n b) (hn : n ≤ 999999) :
    b.parseMsg .machine testProducts (largeBid n) 0 =
      .ok (afterInsert .machine (b.bidEntered n) (largeOrder n) 1) := by
  rw [parseMsg_of_incoming (h.incoming hn)]
  obtain ⟨ms, s₂, o', ret, ht, heq⟩ := matchAndInsert_trades (A := .machine)
    (s := b.bidEntered n) (o := largeOrder n) (show (0 : Int) < 999999 by decide)
  rw [heq]
  have hopp : (b.bidEntered n).opposite (largeOrder n) = [] := h.sellers
  cases ht with
  | stop => rfl
  | last _ hf => exact absurd (hopp ▸ (findBest_in hf).mem) List.not_mem_nil
  | more _ hf => exact absurd (hopp ▸ (findBest_in hf).mem) List.not_mem_nil

/-- The next large bid joins the others at their level. -/
theorem Bidding.next (h : Bidding n b) (hle : n * 999999 + 999999 ≤ (2147483647 : Int)) :
    Bidding (n + 1) (afterInsert .machine (b.bidEntered n) (largeOrder n) 1) := by
  have hin := h.incoming (by omega)
  have hroom : Room testProducts b (.command 0 (largeBid n)) := by
    intro s₁ o hin'
    obtain ⟨rfl, rfl⟩ := Prod.mk.inj (Option.some.inj (Except.ok.inj (hin.symm.trans hin')))
    exact h.hasRoom_iff.mpr hle
  refine ⟨h.inBounds.step ⟨.command (h.parseMsg (by omega)), hroom⟩, rfl, h.sellers, ?_⟩
  show restingAt (((b.bidEntered n).addOrderPrints .machine (largeOrder n)).addOrder
    (largeOrder n) |>.orders true 0) 1 = _
  rw [restingAt_addOrder, if_pos ⟨rfl, rfl, rfl⟩, addOrderPrints_orders,
    show restingAt ((b.bidEntered n).orders true 0) 1 = _ from h.resting]
  show (n : Int) * 999999 + 999999 = _
  push_cast
  omega

/-- The commands of trader 0. -/
def largeBids (n : Nat) : List (Fin 1 × List Char) :=
  (List.range n).map fun i => ((largeOrder i).traderID, largeBid i)

theorem largeBids_succ (n : Nat) : largeBids (n + 1) = largeBids n ++ [(0, largeBid n)] := by
  rw [largeBids, List.range_succ, List.map_append]
  rfl

/-- Up to 2147 large bids can be made. -/
theorem exists_bidding : ∀ n : Nat, n ≤ 2147 →
    ∃ b, (initial : Exchange 2 1).runCommands .machine testProducts (largeBids n) = .ok b ∧
      Bidding n b
  | 0, _ => ⟨initial, rfl, inBounds_initial _, rfl, rfl, rfl⟩
  | n + 1, hn => by
    obtain ⟨b, hrun, hb⟩ := exists_bidding n (by omega)
    refine ⟨_, ?_, hb.next (by omega)⟩
    rw [largeBids_succ]
    exact runCommands_concat hrun (hb.parseMsg (by omega))

/-- **2148 orders of 999999 units at one price** add up to 2147997852 units, more
than an `int` holds. -/
theorem not_exact_after_bids :
    ∃ b, (initial : Exchange 2 1).runCommands .machine testProducts (largeBids 2148) = .ok b ∧
      ¬b.ExactAggregates := by
  obtain ⟨b, hrun, hb⟩ := exists_bidding 2147 (le_refl _)
  have hp := hb.parseMsg (by decide)
  rw [largeBids_succ]
  refine ⟨_, runCommands_concat hrun hp, ?_⟩
  intro hexact
  -- the last step leads to exact aggregates only if it has room
  have hroom := (hb.inBounds.step_iff.mp ⟨.command hp, hexact⟩).2
  exact absurd (hb.hasRoom_iff.mp (hroom _ _ (hb.incoming (by decide)))) (by decide)

end PeExchange
