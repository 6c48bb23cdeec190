import Mathlib.Logic.Relation
import PeExchange.Theory.AutoTrader

/-!
# Ranges of live orders and sizes of messages

Quantities, prices and identifiers are checked when a command comes in and never
again. `Bounded` is what the checks give; matching, amending and inserting keep it
for the orders in the lists and for the order that is being matched, in every
round of the loop of `check_for_match` (`Round.keeps`).

Every message is formatted from the fields of such orders, so it fits a buffer of
`MAX_LINE` characters (`Reachable.sendable`). `formatted` counts a message that is
formatted and then sent to nobody.
-/

namespace PeExchange

open CFormat LinkedList PeTrader

variable {P T : Nat}

/-- The fields of an order are in the ranges that were checked, its name is the
one of its product, and it can be looked up in the product list and in
`trader_list`. -/
structure Bounded (vp : ValidProducts P) (o : Order P T) : Prop where
  valid : ValidOrder vp o
  named : o.product ≠ []
  product_index : (o.productID : Nat) < P
  trader_index : (o.traderID : Nat) < T

variable {A : Arith} {vp : ValidProducts P} {o o' : Order P T}

theorem ValidOrder.bounded (h : ValidOrder vp o) (hne : o.product ≠ []) : Bounded vp o :=
  ⟨h, hne, o.productID.isLt, o.traderID.isLt⟩

theorem Reduced.product_eq (h : Reduced o' o) : o'.product = o.product := by
  obtain ⟨q, rfl, -, -⟩ := h
  rfl

theorem createOrder_named {str : List Char} {ind : Fin T} {t t' : Trader P} {isBuy : Bool}
    (h : createOrder vp str ind t isBuy = .ok (some (o, t'))) : o.product ≠ [] := by
  obtain ⟨args, hargs, h⟩ := bind_eq_ok h
  split at h
  · rename_i orderID product quantity price
    have hne : product ≠ [] := ne_nil_of_sscanf (scan_eq_ok.mp hargs) (by simp)
    have hcheck := Except.ok.inj h
    rw [checkOrder] at hcheck
    split at hcheck
    · cases hcheck
    · -- the checks pass the name on
      split at hcheck
      · cases hcheck
      · split at hcheck
        · cases hcheck
        · split at hcheck
          · cases hcheck
          · obtain ⟨rfl, -⟩ := Prod.mk.inj (Option.some.inj hcheck)
            exact hne
  · cases h

namespace Exchange

variable {s s' s₁ s₂ : Exchange P T} {ind : Fin T} {c : Cell (Order P T)} {msg : List Char}
  {ms : List (Order P T × Order P T)} {ret : Int}

/-! ## Names -/

/-- No resting order has an empty name. -/
def Named (s : Exchange P T) : Prop :=
  ∀ b i, ∀ r ∈ s.orders b i, r.product ≠ []

/-- Fills and cancellations name no product. -/
theorem Named.shrunk (h : Named s) (hs : Shrunk s s') : Named s' := by
  intro b i r' hr'
  obtain ⟨r, hr, hred⟩ := (hs.orders b i).mem hr'
  rw [hred.product_eq]
  exact h b i r hr

theorem newOrderMsg_named (h : s.newOrderMsg vp msg ind = .ok (some (s₁, o))) :
    o.product ≠ [] := by
  rw [newOrderMsg] at h
  split at h
  · cases h
  · obtain ⟨r, hr, h⟩ := bind_eq_ok h
    cases r with
    | none => cases h
    | some r =>
      obtain ⟨o', t'⟩ := r
      cases h
      obtain ⟨args, -, hr⟩ := bind_eq_ok hr
      split at hr
      · split at hr
        · exact createOrder_named hr
        · split at hr
          · exact createOrder_named hr
          · cases hr
      · cases hr

/-- An order that enters the market has a name: it was scanned with `%s`, or it
is that of a resting order. -/
theorem incoming_named (h : s.incoming A vp msg ind = .ok (some (s₁, o))) (hn : Named s) :
    o.product ≠ [] := by
  unfold incoming at h
  split at h
  · exact newOrderMsg_named h
  · exact newOrderMsg_named h
  · obtain ⟨c, id, q, p, hc, -, -, rfl, -⟩ := amendOrderMsg_some h
    obtain ⟨-, -, b, i, hin⟩ := findOrder_some hc
    exact hn b i c.val hin.mem
  · cases h

theorem Enters.named (he : Enters A vp s ind s₁ o) (hn : Named s) : Named s₁ :=
  fun b i r hr => hn b i r ((he.orders_sublist b i).subset hr)

/-- A command leaves no order without a name. -/
theorem Outcome.named (ho : Outcome A vp s msg ind s') (hn : Named s) : Named s' := by
  cases ho with
  | rejected => exact hn
  | @traded s₁ s₂ o o' ms ret hin ht =>
    have hn₂ : Named s₂ := ((incoming_enters hin).named hn).shrunk ht.shrunk
    refine afterInsert_rule (fun _ => ?_) fun _ => hn₂
    intro b i r hr
    rcases mem_addOrder.mp hr with hr | ⟨-, -, rfl⟩
    · exact hn₂ b i r hr
    · rw [ht.left_eq]
      exact (incoming_named hin hn : o.product ≠ [])
  | cancelled =>
    intro b i r hr
    exact hn b i r ((deleteOrder_sublist s _ _ _ b i).subset hr)

end Exchange

/-- Whole runs. -/
theorem Reachable.named {s : Exchange P T} (h : Reachable A vp s) : s.Named := by
  refine Transition.Reachable.invariant ?_ (fun s a s' _ hi hs => ?_) h
  · exact fun b i r hr => absurd hr List.not_mem_nil
  · cases hs with
    | command hp => exact (Exchange.parseMsg_outcome hp).named hi
    | died => exact hi

theorem Reachable.bounded {s : Exchange P T} (h : Reachable A vp s) {b : Bool} {i : Fin P}
    {r : Order P T} (hr : r ∈ s.orders b i) : Bounded vp r :=
  (h.wellFormed.valid b i r hr).bounded (h.named b i r hr)

namespace Exchange

variable {s s' s₁ s₂ : Exchange P T} {ind : Fin T} {c : Cell (Order P T)} {msg : List Char}
  {ms : List (Order P T × Order P T)} {ret : Int}

/-! ## The rounds of the matching loop -/

/-- A round of the loop of `check_for_match` after which it goes on: the state and
the new order before and after (pe_orderbook.c:602–619, 625–642). -/
def Round (A : Arith) (x y : Exchange P T × Order P T) : Prop :=
  0 < x.2.quantity ∧ ∃ c, x.1.findBest x.2 = some c ∧
    ∃ ret, ret ≠ 0 ∧ x.1.matchNew A x.2 c = (y.1, y.2, ret)

/-- A round is an unfolding of the loop. -/
theorem Round.checkLoop {x y : Exchange P T × Order P T} (h : Round A x y) (fuel : Nat) :
    Exchange.checkLoop A (fuel + 1) x.1 x.2 = Exchange.checkLoop A fuel y.1 y.2 := by
  obtain ⟨hq, c, hf, ret, hret, hm⟩ := h
  rw [Exchange.checkLoop, if_pos hq, hf]
  simp only [hm]
  exact if_neg hret

/-- The orders before a round, and what is true of them, are there after it. -/
theorem Round.keeps {x y : Exchange P T × Order P T} (h : Round A x y)
    (hw : WellFormed vp x.1) (hi : Incoming vp x.1 x.2) (hn : Named x.1)
    (hne : x.2.product ≠ []) :
    WellFormed vp y.1 ∧ Incoming vp y.1 y.2 ∧ Named y.1 ∧ y.2.product ≠ [] := by
  obtain ⟨hq, c, hf, ret, hret, hm⟩ := h
  have hs : Shrunk x.1 (x.1.execMatch A x.2 c) := execMatch_shrunk hq hf
  rw [matchNew_eq] at hm
  split at hm
  · rename_i hlt
    obtain ⟨h₁, h₂⟩ := Prod.mk.inj hm
    obtain ⟨h₂, -⟩ := Prod.mk.inj h₂
    rw [← h₁, ← h₂]
    exact ⟨hw.shrunk hs, hi.shrunk hs (hw.left_reduced hf hlt), hn.shrunk hs, hne⟩
  · -- the loop would have ended
    obtain ⟨-, h₂⟩ := Prod.mk.inj hm
    exact absurd (Prod.mk.inj h₂).2.symm hret

/-- Each round of the matching loop keeps all of this. -/
theorem rounds_keep {x y : Exchange P T × Order P T} (h : Relation.ReflTransGen (Round A) x y)
    (hw : WellFormed vp x.1) (hi : Incoming vp x.1 x.2) (hn : Named x.1)
    (hne : x.2.product ≠ []) :
    WellFormed vp y.1 ∧ Incoming vp y.1 y.2 ∧ Named y.1 ∧ y.2.product ≠ [] := by
  induction h with
  | refl => exact ⟨hw, hi, hn, hne⟩
  | tail _ hround ih =>
    obtain ⟨hw, hi, hn, hne⟩ := ih
    exact hround.keeps hw hi hn hne

/-- The orders that are matched with each other. -/
theorem Trades.valid (ht : Trades A s o ms s' o' ret) (h : WellFormed vp s)
    (hi : Incoming vp s o) : ∀ m ∈ ms, ValidOrder vp m.1 ∧ ValidOrder vp m.2 := by
  induction ht with
  | stop => exact fun m hm => absurd hm List.not_mem_nil
  | last hq hf _ =>
    intro m hm
    obtain rfl := List.mem_singleton.mp hm
    exact ⟨hi.valid, h.valid _ _ _ (findBest_in hf).mem⟩
  | more hq hf hlt _ ih =>
    intro m hm
    have hs := execMatch_shrunk (A := A) hq hf
    rcases List.mem_cons.mp hm with rfl | hm
    · exact ⟨hi.valid, h.valid _ _ _ (findBest_in hf).mem⟩
    · exact ih (h.shrunk hs) (hi.shrunk hs (h.left_reduced hf hlt)) m hm

/-! ## The messages -/

/-- The messages that are formatted in the call an entry of the output stands for,
whether they are sent to anyone or not. -/
def formatted : Event P T → List Msg
  | .entered o => [marketMsg o]
  | .cancelled o => [.market o.isBuy o.product 0 0]
  | .fill buyOrder sellOrder quantity =>
    [.fill buyOrder.orderID quantity, .fill sellOrder.orderID quantity]
  | .matched _ _ _ _ => []
  | .message _ m => [m]

/-- Everything formatted is in range. -/
def AllSendable (es : List (Event P T)) : Prop :=
  ∀ e ∈ es, ∀ m ∈ formatted e, Sendable m

theorem AllSendable.append {es es' : List (Event P T)} (h : AllSendable es)
    (h' : AllSendable es') : AllSendable (es ++ es') :=
  List.forall_mem_append.mpr ⟨h, h'⟩

theorem AllSendable.cons {e : Event P T} {es : List (Event P T)}
    (he : ∀ m ∈ formatted e, Sendable m) (h : AllSendable es) : AllSendable (e :: es) :=
  List.forall_mem_cons.mpr ⟨he, h⟩

theorem AllSendable.nil : AllSendable ([] : List (Event P T)) :=
  fun _ he => absurd he List.not_mem_nil

/-- An offer or a bid for a product of the list. -/
theorem sendable_market (h : ValidOrder vp o) (hne : o.product ≠ []) {q p : Int}
    (hq : 0 ≤ q ∧ q ≤ 999999) (hp : 0 ≤ p ∧ p ≤ 999999) :
    Sendable (.market o.isBuy o.product q p) := by
  refine ⟨⟨hne, fun c hc => ?_, ?_⟩, hq, hp⟩
  · rw [h.product] at hc
    exact vp.alnum _ c hc
  · rw [h.product]
    exact vp.fits _

theorem sendable_marketMsg (h : ValidOrder vp o) (hne : o.product ≠ []) :
    Sendable (marketMsg o) :=
  sendable_market h hne ⟨by have := h.quantity_pos; omega, h.quantity_le⟩
    ⟨by have := h.price_pos; omega, h.price_le⟩

/-- What can be sent to one can be sent to the others. -/
theorem allSendable_toOthers (s : Exchange P T) (ind : Fin T) {m : Msg} (h : Sendable m) :
    AllSendable (s.toOthers ind m) := by
  intro e he m' hm'
  obtain ⟨i, rfl⟩ := mem_toOthers s he
  obtain rfl := List.mem_singleton.mp hm'
  exact h

theorem allSendable_ifAlive (s : Exchange P T) (t : Fin T) {m : Msg} (h : Sendable m) :
    AllSendable (s.ifAlive t m) := by
  intro e he m' hm'
  obtain rfl := mem_ifAlive s he
  obtain rfl := List.mem_singleton.mp hm'
  exact h

/-- The `FILL` messages of a match. -/
theorem allSendable_matchEvents (s : Exchange P T) {o r : Order P T} (ho : ValidOrder vp o)
    (hr : ValidOrder vp r) : AllSendable (s.matchEvents o r) := by
  have hq : 0 ≤ tradedQuantity o r ∧ tradedQuantity o r ≤ 999999 := by
    have ho₀ := ho.quantity_pos
    have ho₁ := ho.quantity_le
    have hr₀ := hr.quantity_pos
    unfold tradedQuantity
    omega
  -- the two orders are the buyer's and the seller's
  have hid : (0 ≤ (buyOf o r).orderID ∧ (buyOf o r).orderID ≤ 999999) ∧
      0 ≤ (sellOf o r).orderID ∧ (sellOf o r).orderID ≤ 999999 := by
    cases hb : o.isBuy with
    | true =>
      simp only [buyOf, sellOf, hb, if_true]
      exact ⟨⟨ho.orderID_nonneg, ho.orderID_le⟩, hr.orderID_nonneg, hr.orderID_le⟩
    | false =>
      simp only [buyOf, sellOf, hb, Bool.false_eq_true, if_false]
      exact ⟨⟨hr.orderID_nonneg, hr.orderID_le⟩, ho.orderID_nonneg, ho.orderID_le⟩
  have hbuy : Sendable (.fill (buyOf o r).orderID (tradedQuantity o r)) := ⟨hid.1, hq⟩
  have hsell : Sendable (.fill (sellOf o r).orderID (tradedQuantity o r)) := ⟨hid.2, hq⟩
  refine AllSendable.cons ?_ (AllSendable.append (AllSendable.append
    (allSendable_ifAlive s _ hbuy) (allSendable_ifAlive s _ hsell)) ?_)
  · intro m hm
    rcases List.mem_cons.mp hm with rfl | hm
    · exact hbuy
    · obtain rfl := List.mem_singleton.mp hm
      exact hsell
  · exact AllSendable.cons (fun m hm => absurd hm List.not_mem_nil) AllSendable.nil

theorem sendable_ackOf (msg : List Char) (h : ValidOrder vp o) : Sendable (ackOf msg o) := by
  unfold ackOf
  split
  · exact ⟨h.orderID_nonneg, h.orderID_le⟩
  · exact ⟨h.orderID_nonneg, h.orderID_le⟩

/-- What a command writes is in range. -/
theorem Outcome.allSendable (ho : Outcome A vp s msg ind s') (h : WellFormed vp s)
    (hn : Named s) : AllSendable (s.written s') := by
  cases ho with
  | rejected =>
    rw [written_append rfl]
    refine AllSendable.cons (fun m hm => ?_) AllSendable.nil
    obtain rfl := List.mem_singleton.mp hm
    trivial
  | @traded s₁ s₂ o o' ms ret hin ht =>
    obtain ⟨h₁, hi₁⟩ := (incoming_enters hin).wellFormed h
    have hne := incoming_named hin hn
    have hmarket := sendable_marketMsg hi₁.valid hne
    rw [written_traded hin ht]
    refine AllSendable.append (AllSendable.cons (fun m hm => ?_) (AllSendable.cons
      (fun m hm => ?_) (allSendable_toOthers s ind hmarket))) ?_
    · obtain rfl := List.mem_singleton.mp hm
      exact hmarket
    · obtain rfl := List.mem_singleton.mp hm
      exact sendable_ackOf msg hi₁.valid
    · intro e he
      obtain ⟨m, hm, he⟩ := List.mem_flatMap.mp he
      obtain ⟨ho, hr⟩ := ht.valid h₁ hi₁ m hm
      exact allSendable_matchEvents s ho hr e he
  | @cancelled c id hmsg hc =>
    have hin := h.findOrder_in hc
    have hv := h.valid _ _ _ hin.mem
    have hmarket : Sendable (.market c.val.isBuy c.val.product 0 0) :=
      sendable_market hv (hn _ _ _ hin.mem) (by decide) (by decide)
    rw [written_cancelled]
    refine AllSendable.cons (fun m hm => ?_) (AllSendable.cons (fun m hm => ?_)
      (allSendable_toOthers s ind hmarket))
    · obtain rfl := List.mem_singleton.mp hm
      exact hmarket
    · obtain rfl := List.mem_singleton.mp hm
      exact ⟨hv.orderID_nonneg, hv.orderID_le⟩

end Exchange

/-- **Every message that is formatted has its fields in range**, in every reachable
state. -/
theorem Reachable.sendable {s : Exchange P T} (h : Reachable A vp s) :
    Exchange.AllSendable s.out := by
  refine Transition.Reachable.invariant (I := fun s => Exchange.AllSendable s.out) ?_
    (fun s a s' hr hi hs => ?_) h
  · intro e he m hm
    obtain ⟨i, rfl⟩ := mem_initial_out he
    obtain rfl := List.mem_singleton.mp hm
    trivial
  · cases hs with
    | command hp =>
      have ho := Exchange.parseMsg_outcome hp
      rw [ho.out]
      have hreach : Reachable A vp s := hr
      exact hi.append (ho.allSendable hreach.wellFormed hreach.named)
    | died => exact hi

/-- A message that fits a buffer of `MAX_LINE` characters with its terminator and
ends with its only `;`. -/
def FitsLine (m : Msg) : Prop :=
  m.text.length + 1 ≤ maxLine ∧ ∃ body, m.text = body ++ [';'] ∧ ';' ∉ body

/-- **Every message fits its buffer.** -/
theorem fitsLine_of_sendable {m : Msg} (h : Sendable m) : FitsLine m := by
  obtain ⟨⟨⟨body, hbody, heq⟩, hlen⟩, -⟩ := h.command
  exact ⟨Nat.succ_le_succ hlen, body, heq, hbody⟩

/-- **Live orders stay in range and messages fit.** In every reachable state the
resting orders are in range; so are, in every round of the matching loop of a
command that arrives there, the resting orders and the order that is matched; and
all messages formatted so far fit their buffer. -/
theorem ranges_and_sizes {s : Exchange P T} (h : Reachable A vp s) :
    (∀ b i, ∀ r ∈ s.orders b i, Bounded vp r) ∧
    (∀ (msg : List Char) (ind : Fin T) (s₁ s₂ : Exchange P T) (o o₂ : Order P T),
      s.incoming A vp msg ind = .ok (some (s₁, o)) →
      Relation.ReflTransGen (Exchange.Round A) (s₁, o) (s₂, o₂) →
      Bounded vp o₂ ∧ ∀ b i, ∀ r ∈ s₂.orders b i, Bounded vp r) ∧
    ∀ e ∈ s.out, ∀ m ∈ Exchange.formatted e, FitsLine m := by
  refine ⟨fun b i r hr => h.bounded hr, fun msg ind s₁ s₂ o o₂ hin hrounds => ?_,
    fun e he m hm => fitsLine_of_sendable (h.sendable e he m hm)⟩
  obtain ⟨hw, hi⟩ := (Exchange.incoming_enters hin).wellFormed h.wellFormed
  have hn : s₁.Named := (Exchange.incoming_enters hin).named h.named
  obtain ⟨hw₂, hi₂, hn₂, hne₂⟩ :=
    Exchange.rounds_keep hrounds hw hi hn (Exchange.incoming_named hin h.named)
  exact ⟨hi₂.valid.bounded hne₂, fun b i r hr => (hw₂.valid b i r hr).bounded (hn₂ b i r hr)⟩

/-- Trader 0 sells 4 units and trader 1 buys 10: what is left of the order after
the round is in range. -/
theorem ranges_and_sizes_gpu :
    ∃ (s s₁ s₂ : Exchange 2 2) (o o₂ : Order 2 2), Reachable .machine testProducts s ∧
      s.incoming .machine testProducts "BUY 0 GPU 10 30;".toList 1 = .ok (some (s₁, o)) ∧
      Exchange.Round .machine (s₁, o) (s₂, o₂) ∧ Bounded testProducts o₂ ∧ o₂.quantity = 6 := by
  have hrun : okAnd ((initial : Exchange 2 2).runCommands .machine testProducts
      [(0, "SELL 0 GPU 4 30;".toList)])
      (fun s => okAnd (s.incoming .machine testProducts "BUY 0 GPU 10 30;".toList 1)
        fun r => r.any fun r => (r.1.findBest r.2).any fun c =>
          decide (0 < r.2.quantity ∧ (r.1.matchNew .machine r.2 c).2.2 ≠ 0 ∧
            (r.1.matchNew .machine r.2 c).2.1.quantity = 6)) := by
    decide +kernel
  obtain ⟨s, hs, hrun⟩ := exists_of_okAnd hrun
  obtain ⟨r, hin, hr⟩ := exists_of_okAnd hrun
  obtain ⟨⟨s₁, o⟩, rfl, hbest⟩ := (Option.any_eq_true _ _).mp hr
  obtain ⟨c, hf, hc⟩ := (Option.any_eq_true _ (s₁.findBest o)).mp hbest
  obtain ⟨hq, hret, hsix⟩ := of_decide_eq_true hc
  have hreach : Reachable .machine testProducts s :=
    Reachable.runCommands Transition.Reachable.init hs
  have hround : Exchange.Round .machine (s₁, o)
      ((s₁.matchNew .machine o c).1, (s₁.matchNew .machine o c).2.1) :=
    ⟨hq, c, hf, _, hret, rfl⟩
  exact ⟨s, s₁, _, o, _, hreach, hin, hround,
    ((ranges_and_sizes hreach).2.1 _ 1 s₁ _ o _ hin (.single hround)).1, hsix⟩

end PeExchange
