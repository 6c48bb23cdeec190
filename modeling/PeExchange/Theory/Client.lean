import PeExchange.Theory.Wire
import PeExchange.Theory.Wrapping

/-!
# What a trader can know

The exchange answers each command once and in order, and reports every fill, so a
trader that remembers what it asked for can follow its own orders.

- `Client`: a bookkeeper for one trader. It has the requests that are not answered
  yet and reads messages; it sees no state of the exchange and no other trader.
- `Mirrors`: its books are those of the exchange, as far as they are the trader's.
- `client_knows`: after what has been written to a trader that is alive, they are.
  What the trader has sent and the exchange has not read is what it still awaits.
-/

namespace PeExchange

open CFormat LinkedList

variable {P T : Nat}

/-! ## The bookkeeper -/

/-- What a command asks for. -/
inductive Request (P T : Nat) where
  | place (o : Order P T)
  | amend (quantity price : Int)
  | other
deriving DecidableEq

/-- The order of a text, read with the formats of the exchange. -/
def newRequest (vp : ValidProducts P) (t : Fin T) (msg : List Char) : Request P T :=
  match scan sideFormat msg, scan orderFormat msg with
  | .ok (.str side :: _), .ok [.int orderID, .str product, .int quantity, .int price] =>
    match findProduct vp product with
    | some i => .place ⟨product, quantity, price, orderID, i, t, side = "BUY".toList⟩
    | none => .other
  | _, _ => .other

/-- The quantity and the price of a text that amends an order. -/
def amendRequest (msg : List Char) : Request P T :=
  match scan amendFormat msg with
  | .ok [.int quantity, .int price] => .amend quantity price
  | _ => .other

/-- The request of a text. Of a cancellation the answer tells everything. -/
def requestOf (vp : ValidProducts P) (t : Fin T) (msg : List Char) : Request P T :=
  match msg with
  | 'A' :: _ => amendRequest msg
  | 'C' :: _ => .other
  | _ => newRequest vp t msg

/-- The requests not answered yet, the orders by identifier, and the positions. -/
structure Client (P T : Nat) where
  awaiting : List (Request P T)
  orders : Int → Option (Order P T)
  position : Fin P → Int

namespace Client

/-- Before the first message. -/
def start (requests : List (Request P T)) : Client P T where
  awaiting := requests
  orders := fun _ => none
  position := fun _ => 0

/-- A fill takes units from an order; one without units is gone. -/
def fill (c : Client P T) (id quantity : Int) : Client P T :=
  match c.orders id with
  | none => c
  | some o =>
    { c with
      orders := Function.update c.orders id
        (if quantity < o.quantity then some (withQuantity o (o.quantity - quantity)) else none)
      position := Function.update c.position o.productID
        (c.position o.productID + if o.isBuy then quantity else -quantity) }

/-- A message is read. The answers are those of the first request that awaits one. -/
def receive (c : Client P T) : Msg → Client P T
  | .invalid => { c with awaiting := c.awaiting.tail }
  | .accepted id =>
    match c.awaiting with
    | .place o :: rest =>
      { c with awaiting := rest, orders := Function.update c.orders id (some o) }
    | _ => c
  | .amended id =>
    match c.awaiting with
    | .amend quantity price :: rest =>
      { c with
        awaiting := rest
        orders := Function.update c.orders id
          ((c.orders id).map (createAmendedOrder price quantity)) }
    | _ => c
  | .cancelled id =>
    { c with awaiting := c.awaiting.tail, orders := Function.update c.orders id none }
  | .fill id quantity => c.fill id quantity
  | .market _ _ _ _ => c
  | .marketOpen => c

end Client

/-! ## Books of orders -/

variable {t : Fin T} {rests rests' : Order P T → Prop} {net : Fin P → Int}
  {rs : List (Request P T)} {c : Client P T} {x y r : Order P T} {n : Int}

/-- A client's books are trader `t`'s orders among those that rest, and its positions. -/
structure Mirrors (t : Fin T) (rests : Order P T → Prop) (net : Fin P → Int)
    (rs : List (Request P T)) (c : Client P T) : Prop where
  awaiting : c.awaiting = rs
  orders : ∀ id r, c.orders id = some r ↔ key r = (t, id) ∧ rests r
  position : ∀ j, c.position j = net j

/-- Only the orders of the trader count. -/
theorem Mirrors.congr {net' : Fin P → Int} (h : Mirrors t rests net rs c)
    (hrests : ∀ r, r.traderID = t → (rests r ↔ rests' r)) (hnet : ∀ j, net j = net' j) :
    Mirrors t rests' net' rs c where
  awaiting := h.awaiting
  orders id r := by
    rw [h.orders]
    constructor
    · rintro ⟨hk, hr⟩
      exact ⟨hk, (hrests r (Prod.mk.inj hk).1).mp hr⟩
    · rintro ⟨hk, hr⟩
      exact ⟨hk, (hrests r (Prod.mk.inj hk).1).mpr hr⟩
  position j := (h.position j).trans (hnet j)

/-- `n` units of the order `x` are gone. -/
def lessBy (rests : Order P T → Prop) (x : Order P T) (n : Int) : Order P T → Prop :=
  fun r => rests r ∧ key r ≠ key x ∨ n < x.quantity ∧ r = withQuantity x (x.quantity - n)

theorem lessBy_lessBy (hne : key x ≠ key y) :
    lessBy (lessBy rests x n) y n r ↔ (rests r ∧ key r ≠ key x) ∧ key r ≠ key y ∨
      n < x.quantity ∧ r = withQuantity x (x.quantity - n) ∨
        n < y.quantity ∧ r = withQuantity y (y.quantity - n) := by
  constructor
  · rintro (⟨⟨hr, hx⟩ | hx, hy⟩ | hy)
    · exact .inl ⟨⟨hr, hx⟩, hy⟩
    · exact .inr (.inl hx)
    · exact .inr (.inr hy)
  · rintro (⟨hr, hy⟩ | hx | hy)
    · exact .inl ⟨.inl hr, hy⟩
    · refine .inl ⟨.inr hx, ?_⟩
      rw [hx.2]
      exact hne
    · exact .inr hy

/-- What `n` units of the order `x` add to a trader's position. -/
def gain (x : Order P T) (n : Int) (t : Fin T) (j : Fin P) : Int :=
  if x.traderID = t ∧ x.productID = j then if x.isBuy then n else -n else 0

/-- The `FILL` message of an order, if it is for trader `t`. -/
def fillFor (t : Fin T) (x : Order P T) (n : Int) : List Msg :=
  if x.traderID = t then [.fill x.orderID n] else []

/-- **One fill of one order.** -/
theorem Mirrors.fill (h : Mirrors t rests net rs c) (hx : rests x) :
    Mirrors t (lessBy rests x n) (fun j => net j + gain x n t j) rs
      ((fillFor t x n).foldl Client.receive c) := by
  by_cases hown : x.traderID = t
  · have hkey : key x = (t, x.orderID) := Prod.ext hown rfl
    have hsome : c.orders x.orderID = some x := (h.orders _ _).mpr ⟨hkey, hx⟩
    have hfill : (fillFor t x n).foldl Client.receive c = c.fill x.orderID n := by
      rw [fillFor, if_pos hown]
      rfl
    rw [hfill, Client.fill, hsome]
    refine ⟨h.awaiting, fun id r => ?_, fun j => ?_⟩
    · show Function.update _ _ _ id = _ ↔ _
      by_cases hid : id = x.orderID
      · subst hid
        rw [Function.update_self]
        constructor
        · intro hr
          rw [Option.ite_none_right_eq_some] at hr
          obtain ⟨hlt, hr⟩ := hr
          obtain rfl := Option.some.inj hr
          exact ⟨hkey, .inr ⟨hlt, rfl⟩⟩
        · rintro ⟨hk, ⟨-, hne⟩ | ⟨hlt, rfl⟩⟩
          · exact absurd (hk.trans hkey.symm) hne
          · exact if_pos hlt
      · rw [Function.update_of_ne hid, h.orders]
        constructor
        · rintro ⟨hk, hr⟩
          refine ⟨hk, .inl ⟨hr, fun heq => hid ?_⟩⟩
          exact (Prod.mk.inj (hk.symm.trans heq)).2
        · rintro ⟨hk, ⟨hr, -⟩ | ⟨-, rfl⟩⟩
          · exact ⟨hk, hr⟩
          · exact absurd (Prod.mk.inj hk).2.symm hid
    · show Function.update c.position x.productID
        (c.position x.productID + if x.isBuy then n else -n) j = net j + gain x n t j
      by_cases hj : j = x.productID
      · subst hj
        have hboth : x.traderID = t ∧ x.productID = x.productID := ⟨hown, rfl⟩
        rw [Function.update_self, h.position, gain, if_pos hboth]
      · rw [Function.update_of_ne hj, h.position, gain, if_neg fun hk => hj hk.2.symm, add_zero]
  · -- an order of somebody else
    have hnone : (fillFor t x n).foldl Client.receive c = c := by
      rw [fillFor, if_neg hown]
      rfl
    rw [hnone]
    refine h.congr (fun r hr => ⟨fun hrest => .inl ⟨hrest, fun heq => hown ?_⟩, ?_⟩) fun j => ?_
    · rw [← hr]
      exact (Prod.mk.inj heq).1.symm
    · rintro (⟨hrest, -⟩ | ⟨-, rfl⟩)
      · exact hrest
      · exact absurd hr hown
    · rw [gain, if_neg fun hk => hown hk.1, add_zero]

/-- Announcements tell the client nothing of its orders. -/
theorem receive_quiet (ms : List Msg)
    (h : ∀ m ∈ ms, ∀ c : Client P T, c.receive m = c) (c : Client P T) :
    ms.foldl Client.receive c = c := by
  induction ms generalizing c with
  | nil => rfl
  | cons m ms ih =>
    rw [List.foldl_cons, h m List.mem_cons_self]
    exact ih (fun m' hm' => h m' (List.mem_cons_of_mem _ hm')) c

/-! ## The exchange -/

namespace Exchange

variable {A : Arith} {vp : ValidProducts P} {s s' s₁ s₂ : Exchange P T} {ind : Fin T}
  {o o' : Order P T} {cell : Cell (Order P T)} {ms : List (Order P T × Order P T)} {ret : Int}
  {msg : List Char}

/-- The order is in the list of its side and product. -/
def Listed (s : Exchange P T) (r : Order P T) : Prop :=
  r ∈ s.orders r.isBuy r.productID

/-- The client's books are those of the exchange, except that the requests `rs` are
still to be answered. -/
def Mirrored (t : Fin T) (s : Exchange P T) (rs : List (Request P T)) (c : Client P T) : Prop :=
  Mirrors t s.Listed (fun j => netFills t j s.out) rs c

theorem messagesTo_append (t : Fin T) (es es' : List (Event P T)) :
    messagesTo t (es ++ es') = messagesTo t es ++ messagesTo t es' :=
  List.filterMap_append

theorem messagesTo_message (t d : Fin T) (m : Msg) (es : List (Event P T)) :
    messagesTo t (.message d m :: es) = (if d = t then [m] else []) ++ messagesTo t es := by
  rw [messagesTo, messagesTo, List.filterMap_cons]
  by_cases h : d = t
  · simp only [if_pos h, List.singleton_append]
  · simp only [if_neg h, List.nil_append]

theorem messagesTo_ifAlive (hal : (s.traders t).alive = true) (d : Fin T) (m : Msg) :
    messagesTo t (s.ifAlive d m) = if d = t then [m] else [] := by
  unfold ifAlive
  by_cases h : d = t
  · subst h
    rw [if_pos hal, if_pos rfl, messagesTo_message, if_pos rfl]
    rfl
  · rw [if_neg h]
    split
    · rw [messagesTo_message, if_neg h]
      rfl
    · rfl

/-- The `FILL` messages of a match: first to the buyer, then to the seller. -/
theorem messagesTo_matchEvents (hal : (s.traders t).alive = true) (o r : Order P T) :
    messagesTo t (s.matchEvents o r) = fillFor t (buyOf o r) (tradedQuantity o r) ++
      fillFor t (sellOf o r) (tradedQuantity o r) := by
  have hfill : messagesTo t (s.matchEvents o r) = messagesTo t
      (s.ifAlive (buyOf o r).traderID (.fill (buyOf o r).orderID (tradedQuantity o r)) ++
        s.ifAlive (sellOf o r).traderID (.fill (sellOf o r).orderID (tradedQuantity o r)) ++
        [.matched o r (totalPrice o r) (feeOf o r)]) := rfl
  rw [hfill, messagesTo_append, messagesTo_append, messagesTo_ifAlive hal,
    messagesTo_ifAlive hal]
  exact List.append_nil _

/-- Whatever is announced is no news to a client. -/
theorem receive_toOthers (s : Exchange P T) (ind : Fin T) (b : Bool) (product : List Char)
    (q p : Int) (c : Client P T) :
    (messagesTo t (s.toOthers ind (.market b product q p))).foldl Client.receive c = c := by
  refine receive_quiet _ (fun m hm c => ?_) c
  obtain ⟨i, heq⟩ := mem_toOthers s (mem_messagesTo.mp hm)
  obtain ⟨-, rfl⟩ := Event.message.inj heq
  rfl

/-! ## One match -/

/-- What rests after a match and what is left of the new order. -/
theorem WellFormed.listed_execMatch (hw : WellFormed vp s) (hi : Incoming vp s o)
    (hf : s.findBest o = some cell) (r : Order P T) :
    lessBy (lessBy (fun r => s.Listed r ∨ r = o) (buyOf o cell.val) (tradedQuantity o cell.val))
        (sellOf o cell.val) (tradedQuantity o cell.val) r ↔
      (s.execMatch A o cell).Listed r ∨ tradedQuantity o cell.val < o.quantity ∧
        r = withQuantity o (o.quantity - tradedQuantity o cell.val) := by
  have hin := findBest_in hf
  obtain ⟨hside, hprod⟩ := hw.placed _ _ _ hin.mem
  have hne : key cell.val ≠ key o := hi.key_ne hin.mem
  have hdelete : ∀ r : Order P T,
      r ∈ (s.deleteOrder cell (!o.isBuy) o.productID).orders r.isBuy r.productID ↔
        s.Listed r ∧ key r ≠ key cell.val := by
    intro r
    constructor
    · intro hr
      refine ⟨(deleteOrder_sublist s _ _ _ _ _).subset hr, ?_⟩
      rw [← hside, ← hprod] at hr
      exact hw.deleteOrder_key_ne (hw.best_in hf) hr
    · rintro ⟨hr, hk⟩
      exact mem_deleteOrder_of_ne hin hr hk
  -- what is left of the resting order
  have hmatch : (s.execMatch A o cell).Listed r ↔ s.Listed r ∧ key r ≠ key cell.val ∨
      tradedQuantity o cell.val < cell.val.quantity ∧
        r = withQuantity cell.val (cell.val.quantity - tradedQuantity o cell.val) := by
    rw [Listed, execMatch_orders_eq]
    by_cases hle : cell.val.quantity ≤ o.quantity
    · rw [if_pos hle, hdelete, tradedQuantity_of_ge hle]
      exact ⟨.inl, fun h => h.resolve_right fun hr => lt_irrefl _ hr.1⟩
    · have hlt : o.quantity < cell.val.quantity := not_le.mp hle
      rw [if_neg hle, mem_storeOrder hin, hdelete, tradedQuantity_of_le hlt.le]
      constructor
      · rintro (⟨-, rfl⟩ | hr)
        · exact .inr ⟨hlt, rfl⟩
        · exact .inl hr
      · rintro (hr | ⟨-, rfl⟩)
        · exact .inr hr
        · exact .inl ⟨⟨hside, hprod⟩, rfl⟩
  have hothers : ((s.Listed r ∨ r = o) ∧ key r ≠ key o) ∧ key r ≠ key cell.val ↔
      s.Listed r ∧ key r ≠ key cell.val := by
    constructor
    · rintro ⟨⟨hr | rfl, hk⟩, hk'⟩
      · exact ⟨hr, hk'⟩
      · exact absurd rfl hk
    · rintro ⟨hr, hk⟩
      exact ⟨⟨.inl hr, hi.key_ne hr⟩, hk⟩
  rw [hmatch]
  cases ho : o.isBuy with
  | true =>
    rw [buyOf, sellOf, ho, if_pos rfl, if_pos rfl, lessBy_lessBy hne.symm, hothers,
      or_right_comm, or_assoc]
  | false =>
    rw [buyOf, sellOf, ho, if_neg Bool.false_ne_true, if_neg Bool.false_ne_true,
      lessBy_lessBy hne, and_right_comm, hothers, or_assoc]

theorem isBuy_buyOf_sellOf {o r : Order P T} (h : r.isBuy = !o.isBuy) :
    (buyOf o r).isBuy = true ∧ (sellOf o r).isBuy = false := by
  cases ho : o.isBuy <;> simp [buyOf, sellOf, ho, h]

/-- **One match.** The client has read what it was told of it. -/
theorem Mirrors.matched (hw : WellFormed vp s) (hi : Incoming vp s o)
    (hal : (s.traders t).alive = true) (hf : s.findBest o = some cell)
    (h : Mirrors t (fun r => s.Listed r ∨ r = o) (fun j => netFills t j s.out) rs c) :
    Mirrors t (fun r => (s.execMatch A o cell).Listed r ∨
        tradedQuantity o cell.val < o.quantity ∧
          r = withQuantity o (o.quantity - tradedQuantity o cell.val))
      (fun j => netFills t j (s.execMatch A o cell).out) rs
      ((messagesTo t (s.matchEvents o cell.val)).foldl Client.receive c) := by
  have hin := findBest_in hf
  obtain ⟨hside, hprod⟩ := hw.placed _ _ _ hin.mem
  have hrests : s.Listed cell.val := by
    rw [Listed, hside, hprod]
    exact hin.mem
  have hne : key cell.val ≠ key o := hi.key_ne hin.mem
  -- the two orders of the match
  have hboth : (s.Listed (buyOf o cell.val) ∨ buyOf o cell.val = o) ∧
      (s.Listed (sellOf o cell.val) ∨ sellOf o cell.val = o) ∧
      key (sellOf o cell.val) ≠ key (buyOf o cell.val) := by
    cases ho : o.isBuy with
    | true =>
      rw [buyOf, sellOf, ho, if_pos rfl, if_pos rfl]
      exact ⟨.inr rfl, .inl hrests, hne⟩
    | false =>
      rw [buyOf, sellOf, ho, if_neg Bool.false_ne_true, if_neg Bool.false_ne_true]
      exact ⟨.inl hrests, .inr rfl, hne.symm⟩
  obtain ⟨hbuy, hsell, hkeys⟩ := hboth
  have h₁ := h.fill (n := tradedQuantity o cell.val) hbuy
  have h₂ := h₁.fill (n := tradedQuantity o cell.val) (.inl ⟨hsell, hkeys⟩)
  rw [messagesTo_matchEvents hal, List.foldl_append]
  refine h₂.congr (fun r _ => hw.listed_execMatch hi hf r) fun j => ?_
  obtain ⟨hb, hs⟩ := isBuy_buyOf_sellOf hside
  obtain ⟨hpb, hps⟩ := productID_buyOf_sellOf hprod
  rw [execMatch_out, netFills_append, gain, gain, hb, hs, hpb, hps, if_pos rfl,
    if_neg Bool.false_ne_true, add_assoc]
  congr 1
  rw [netFills, bought_matchEvents hprod, sold_matchEvents hprod]
  split <;> split <;> omega

/-- **The matching loop.** The new order is among the client's orders until it is used
up. -/
theorem Trades.mirrored (ht : Trades A s o ms s' o' ret) (hw : WellFormed vp s)
    (hi : Incoming vp s o) (hal : (s.traders t).alive = true)
    (h : Mirrors t (fun r => s.Listed r ∨ r = o) (fun j => netFills t j s.out) rs c) :
    Mirrors t (fun r => s'.Listed r ∨ ret = 1 ∧ r = o') (fun j => netFills t j s'.out) rs
      ((messagesTo t (ms.flatMap fun m => s.matchEvents m.1 m.2)).foldl Client.receive c) := by
  induction ht generalizing c with
  | stop => exact h.congr (fun r _ => by rw [eq_self, true_and]) fun _ => rfl
  | @last s o cell hq hf hle =>
    have hm := Mirrors.matched (A := A) hw hi hal hf h
    rw [tradedQuantity_of_le hle] at hm
    rw [List.flatMap_singleton]
    refine hm.congr (fun r _ => ?_) fun _ => rfl
    constructor
    · rintro (hr | ⟨hlt, -⟩)
      · exact .inl hr
      · exact absurd hlt (lt_irrefl _)
    · rintro (hr | ⟨h01, -⟩)
      · exact .inl hr
      · cases h01
  | @more s s' o o' cell ms ret hq hf hlt _ ih =>
    have hm := Mirrors.matched (A := A) hw hi hal hf h
    have hs := execMatch_shrunk (A := A) hq hf
    have hal' : ((s.execMatch A o cell).traders t).alive = true := by
      rw [execMatch_alive]
      exact hal
    rw [tradedQuantity_of_ge hlt.le] at hm
    have hrest := ih (hw.shrunk hs) (hi.shrunk hs (hw.left_reduced hf hlt)) hal'
      (hm.congr (fun r _ => by rw [and_iff_right hlt]) fun _ => rfl)
    -- the first match changes nobody's `alive` flag
    rw [matchEvents_congr (execMatch_alive A s o cell)] at hrest
    rw [List.flatMap_cons, messagesTo_append, List.foldl_append]
    exact hrest

/-! ## Commands -/

theorem checkOrder_order {tr tr' : Trader P} {b : Bool} {id q p : Int} {product : List Char}
    (h : checkOrder vp ind tr b id product q p = some (o, tr')) :
    ∃ i, findProduct vp product = some i ∧ o = ⟨product, q, p, id, i, ind, b⟩ := by
  rw [checkOrder] at h
  cases hf : findProduct vp product with
  | none =>
    rw [hf] at h
    cases h
  | some i =>
    rw [hf] at h
    simp only [Option.ite_none_left_eq_some] at h
    obtain ⟨-, -, -, h⟩ := h
    exact ⟨i, rfl, (Prod.mk.inj (Option.some.inj h)).1.symm⟩

/-- A new order that is accepted is the one its sender reads in the text. -/
theorem newRequest_eq (h : s.newOrderMsg vp msg ind = .ok (some (s₁, o))) :
    newRequest vp ind msg = .place o := by
  rw [newOrderMsg] at h
  by_cases hs : spaceCount msg ≠ 4
  · rw [if_pos hs] at h
    cases h
  rw [if_neg hs] at h
  obtain ⟨r, hr, h⟩ := bind_eq_ok h
  cases r with
  | none => cases h
  | some r =>
    obtain ⟨o₁, tr⟩ := r
    obtain rfl := (Prod.mk.inj (Option.some.inj (Except.ok.inj h))).2
    obtain ⟨args, hside, hr⟩ := bind_eq_ok hr
    have hcreate : ∀ b, createOrder vp msg ind (s.traders ind) b = .ok (some (o₁, tr)) →
        ∃ id product q p i, scan orderFormat msg =
            .ok [.int id, .str product, .int q, .int p] ∧
          findProduct vp product = some i ∧ o₁ = ⟨product, q, p, id, i, ind, b⟩ := by
      intro b hb
      obtain ⟨args', hscan, hb⟩ := bind_eq_ok hb
      split at hb
      · obtain ⟨i, hf, ho⟩ := checkOrder_order (Except.ok.inj hb)
        exact ⟨_, _, _, _, i, hscan, hf, ho⟩
      · cases hb
    split at hr
    · split at hr
      · -- `SELL`
        rename_i hsell
        obtain ⟨id, product, q, p, i, hscan, hf, rfl⟩ := hcreate false hr
        rw [newRequest, hside, hscan]
        simp only [hf, hsell]
        rfl
      · split at hr
        · -- `BUY`
          rename_i hbuy
          obtain ⟨id, product, q, p, i, hscan, hf, rfl⟩ := hcreate true hr
          rw [newRequest, hside, hscan]
          simp only [hf, hbuy]
          rfl
        · cases hr
    · cases hr

/-- An amendment that is accepted has the quantity and the price its sender reads. -/
theorem amendRequest_eq (h : s.amendOrderMsg A msg ind = .ok (some (s₁, o))) :
    ∃ cell q p, s.findOrder ind o.orderID = some cell ∧
      amendRequest msg = (.amend q p : Request P T) ∧ o = createAmendedOrder p q cell.val := by
  rw [amendOrderMsg] at h
  obtain ⟨args, hargs, h⟩ := bind_eq_ok h
  split at h
  · rename_i q p
    obtain ⟨r, hr, h⟩ := bind_eq_ok h
    cases r with
    | none => cases h
    | some cell =>
      obtain ⟨id, hid⟩ := scan_amend hargs
      obtain ⟨hc, -, -⟩ := checkValidAmend_some hid hr
      obtain rfl := (Prod.mk.inj (Option.some.inj (Except.ok.inj h))).2
      refine ⟨cell, q, p, ?_, ?_, rfl⟩
      · rw [show (createAmendedOrder p q cell.val).orderID = id from (findOrder_some hc).2.1]
        exact hc
      · rw [amendRequest, hargs]
  · cases h

/-- The books after the answer to an accepted command: the order is the client's under
its identifier. -/
theorem receive_ack (hin : s.incoming A vp msg ind = .ok (some (s₁, o))) (hw : WellFormed vp s)
    (h : Mirrored ind s (requestOf vp ind msg :: rs) c) :
    c.receive (ackOf msg o) =
      { c with awaiting := rs, orders := Function.update c.orders o.orderID (some o) } := by
  have hnew : ∀ {r : List Char}, newRequest vp ind r = .place o →
      requestOf vp ind msg = newRequest vp ind r → ackOf msg o = .accepted o.orderID →
      c.receive (ackOf msg o) =
        { c with awaiting := rs, orders := Function.update c.orders o.orderID (some o) } := by
    intro r hr hreq hack
    have haw := h.awaiting
    rw [hreq, hr] at haw
    rw [hack, Client.receive, haw]
  unfold incoming at hin
  split at hin
  · exact hnew (newRequest_eq hin) rfl rfl
  · exact hnew (newRequest_eq hin) rfl rfl
  · obtain ⟨cell, q, p, hc, hreq, ho⟩ := amendRequest_eq hin
    have haw : c.awaiting = .amend q p :: rs := h.awaiting.trans (congrArg (· :: rs) hreq)
    obtain ⟨ht, hid, -⟩ := findOrder_some hc
    have hold : c.orders o.orderID = some cell.val :=
      (h.orders _ _).mpr ⟨Prod.ext ht hid, (hw.findOrder_in hc).mem⟩
    show Client.receive c (.amended o.orderID) = _
    rw [Client.receive, haw]
    simp only
    rw [hold, Option.map_some, ← ho]
  · cases hin

/-- **An order enters the market.** -/
theorem Mirrors.entered (hin : s.incoming A vp msg ind = .ok (some (s₁, o)))
    (hw : WellFormed vp s)
    (h : Mirrored t s ((if ind = t then [requestOf vp t msg] else []) ++ rs) c) :
    Mirrors t (fun r => s₁.Listed r ∨ r = o) (fun j => netFills t j s₁.out) rs
      ((if ind = t then [ackOf msg o] else []).foldl Client.receive c) := by
  have he := incoming_enters hin
  have htrader := he.traderID
  obtain ⟨-, hi⟩ := he.wellFormed hw
  -- the other orders stay
  have hkeep : ∀ r, key r ≠ key o → (s.Listed r ↔ s₁.Listed r) := fun r hne =>
    ⟨fun hr => he.mem_of_ne hw hr hne, fun hr => (he.orders_sublist _ _).subset hr⟩
  have hnet : ∀ j, netFills t j s.out = netFills t j s₁.out := by
    intro j
    rw [(incoming_out hin).2]
    exact (netFills_quiet (no_fill_entered s) t j).symm
  by_cases hind : ind = t
  · subst hind
    have hkey : key o = (ind, o.orderID) := Prod.ext htrader rfl
    rw [if_pos rfl, List.singleton_append] at h
    rw [if_pos rfl, List.foldl_cons, List.foldl_nil, receive_ack hin hw h]
    refine ⟨rfl, fun id r => ?_, fun j => (h.position j).trans (hnet j)⟩
    show Function.update c.orders o.orderID (some o) id = some r ↔ _
    by_cases hid : id = o.orderID
    · subst hid
      rw [Function.update_self]
      constructor
      · intro hr
        obtain rfl := Option.some.inj hr
        exact ⟨hkey, .inr rfl⟩
      · rintro ⟨hk, hr | rfl⟩
        · exact absurd (hk.trans hkey.symm) (hi.key_ne hr)
        · rfl
    · have hne : ∀ {r : Order P T}, key r = (ind, id) → key r ≠ key o := fun hk heq =>
        hid (Prod.mk.inj (hk.symm.trans heq)).2
      rw [Function.update_of_ne hid, h.orders]
      constructor
      · rintro ⟨hk, hr⟩
        exact ⟨hk, .inl ((hkeep r (hne hk)).mp hr)⟩
      · rintro ⟨hk, hr | rfl⟩
        · exact ⟨hk, (hkeep r (hne hk)).mpr hr⟩
        · exact absurd rfl (hne hk)
  · rw [if_neg hind, List.nil_append] at h
    rw [if_neg hind]
    refine h.congr (fun r hr => ?_) hnet
    have hne : key r ≠ key o := fun heq =>
      hind (htrader.symm.trans ((Prod.mk.inj heq).1.symm.trans hr))
    rw [hkeep r hne]
    refine ⟨.inl, fun h => h.resolve_right ?_⟩
    rintro rfl
    exact hne rfl

/-- **An order is cancelled.** -/
theorem Mirrors.cancelled (hc : s.findOrder ind n = some cell) (hw : WellFormed vp s)
    (h : Mirrored t s ((if ind = t then [requestOf vp t msg] else []) ++ rs) c) :
    Mirrored t (s.afterCancel A ind cell) rs
      ((if ind = t then [.cancelled cell.val.orderID] else []).foldl Client.receive c) := by
  have hin := hw.findOrder_in hc
  obtain ⟨htrader, -, -⟩ := findOrder_some hc
  have hkey : key cell.val = (ind, cell.val.orderID) := Prod.ext htrader rfl
  have hkeep : ∀ r, (s.afterCancel A ind cell).Listed r ↔ s.Listed r ∧ key r ≠ key cell.val :=
    fun r => ⟨fun hr => ⟨(deleteOrder_sublist s _ _ _ _ _).subset hr,
      hw.deleteOrder_key_ne hin hr⟩, fun hr => mem_deleteOrder_of_ne hin hr.1 hr.2⟩
  have hnet : ∀ j, netFills t j s.out = netFills t j (s.afterCancel A ind cell).out := by
    intro j
    rw [show (s.afterCancel A ind cell).out = s.out ++ _ from List.append_assoc _ _ _]
    exact (netFills_quiet (no_fill_cancelled s) t j).symm
  by_cases hind : ind = t
  · subst hind
    rw [if_pos rfl, List.singleton_append] at h
    rw [if_pos rfl, List.foldl_cons, List.foldl_nil]
    refine ⟨congrArg List.tail h.awaiting, fun id r => ?_, fun j => (h.position j).trans (hnet j)⟩
    show Function.update c.orders cell.val.orderID none id = some r ↔ _
    rw [hkeep]
    by_cases hid : id = cell.val.orderID
    · subst hid
      rw [Function.update_self]
      refine ⟨fun hr => (Option.some_ne_none r hr.symm).elim, ?_⟩
      rintro ⟨hk, -, hne⟩
      exact absurd (hk.trans hkey.symm) hne
    · rw [Function.update_of_ne hid, h.orders]
      constructor
      · rintro ⟨hk, hr⟩
        refine ⟨hk, hr, fun heq => hid ?_⟩
        exact (Prod.mk.inj (hk.symm.trans heq)).2
      · rintro ⟨hk, hr, -⟩
        exact ⟨hk, hr⟩
  · rw [if_neg hind, List.nil_append] at h
    rw [if_neg hind]
    refine h.congr (fun r hr => ?_) hnet
    rw [hkeep]
    refine ⟨fun hl => ⟨hl, fun heq => hind ?_⟩, And.left⟩
    exact htrader.symm.trans ((Prod.mk.inj heq).1.symm.trans hr)

/-- **One command.** The client of a trader that is alive has read what it was told. -/
theorem Outcome.mirrored (ho : Outcome A vp s msg ind s') (hw : WellFormed vp s)
    (hal : (s.traders t).alive = true)
    (h : Mirrored t s ((if ind = t then [requestOf vp t msg] else []) ++ rs) c) :
    Mirrored t s' rs ((messagesTo t (s.written s')).foldl Client.receive c) := by
  cases ho with
  | rejected =>
    rw [written_append rfl, messagesTo_message]
    show Mirrored t _ rs (((if ind = t then [Msg.invalid] else []) ++ []).foldl _ c)
    have hno : ∀ b r q, .fill b r q ∉ [(.message ind .invalid : Event P T)] := by
      intro b r q hmem
      cases List.mem_singleton.mp hmem
    have hnet : ∀ j, netFills t j s.out = netFills t j (s.writeInvalid ind).out :=
      fun j => (netFills_quiet hno t j).symm
    rw [List.append_nil]
    by_cases hind : ind = t
    · rw [if_pos hind, List.singleton_append] at h
      rw [if_pos hind]
      exact ⟨congrArg List.tail h.awaiting, h.orders, fun j => (h.position j).trans (hnet j)⟩
    · rw [if_neg hind, List.nil_append] at h
      rw [if_neg hind]
      exact h.congr (fun _ _ => Iff.rfl) hnet
  | @traded s₁ s₂ o o' ms ret hin ht =>
    obtain ⟨hal', -⟩ := incoming_out hin
    obtain ⟨hw₁, hi⟩ := (incoming_enters hin).wellFormed hw
    have hwritten : messagesTo t (s.written (afterInsert A s₂ o' ret)) =
        (if ind = t then [ackOf msg o] else []) ++ (messagesTo t (s.toOthers ind (marketMsg o)) ++
          messagesTo t (ms.flatMap fun m => s₁.matchEvents m.1 m.2)) := by
      rw [written_traded hin ht, ← matchEvents_congr hal', messagesTo_append]
      show messagesTo t (.message ind (ackOf msg o) :: _) ++ _ = _
      rw [messagesTo_message, List.append_assoc]
    have hloop := ht.mirrored hw₁ hi ((hal' t).trans hal) (Mirrors.entered hin hw h)
    rw [hwritten, List.foldl_append, List.foldl_append, marketMsg, receive_toOthers]
    refine hloop.congr (fun r _ => ?_) fun j => by rw [afterInsert_out]
    -- what is left of the order is the last of its list
    refine afterInsert_rule (motive := fun s' => _ ↔ s'.Listed r) (fun hret => ?_) fun hret => ?_
    · show _ ↔ r ∈ ((s₂.addOrderPrints A o').addOrder o').orders r.isBuy r.productID
      rw [mem_addOrder]
      constructor
      · rintro (hr | ⟨-, rfl⟩)
        · exact .inl hr
        · exact .inr ⟨rfl, rfl, rfl⟩
      · rintro (hr | ⟨-, -, hr⟩)
        · exact .inl hr
        · exact .inr ⟨hret, hr⟩
    · exact ⟨fun hr => hr.resolve_right fun h => hret h.1, .inl⟩
  | @cancelled cell id hmsg hc =>
    rw [written_cancelled]
    show Mirrored t _ rs
      ((messagesTo t (.message ind (.cancelled cell.val.orderID) :: _)).foldl _ c)
    rw [messagesTo_message, List.foldl_append]
    have hquiet := receive_toOthers (t := t) s ind cell.val.isBuy cell.val.product 0 0
    rw [hquiet]
    exact Mirrors.cancelled hc hw h

end Exchange

/-! ## Runs -/

open Exchange

variable {A : Arith} {vp : ValidProducts P} {s : Exchange P T} {as : List (Action T)}

/-- The requests of trader `t` in a run, in the order in which they were read. -/
def requests (vp : ValidProducts P) (t : Fin T) (as : List (Action T)) : List (Request P T) :=
  as.flatMap fun
    | .command ind msg => if ind = t then [requestOf vp t msg] else []
    | .died _ => []

theorem client_mirrors (hrun : Transition.Run (Step A vp) initial as s)
    (hal : (s.traders t).alive = true) (later : List (Request P T)) :
    Mirrored t s later
      ((messagesTo t s.out).foldl Client.receive (.start (requests vp t as ++ later))) := by
  induction hrun generalizing later with
  | nil =>
    have hquiet := receive_quiet (P := P) (T := T)
      (messagesTo t (initial : Exchange P T).out) fun m hm c => by
        obtain ⟨i, heq⟩ := mem_initial_out (mem_messagesTo.mp hm)
        obtain ⟨-, rfl⟩ := Event.message.inj heq
        rfl
    rw [hquiet]
    refine ⟨rfl, fun id r => ⟨fun hr => (Option.some_ne_none r hr.symm).elim, ?_⟩, fun j => ?_⟩
    · rintro ⟨-, hr⟩
      exact absurd hr List.not_mem_nil
    have hno : ∀ b r q, .fill b r q ∉ (initial : Exchange P T).out := by
      intro b r q hmem
      obtain ⟨i, hi⟩ := mem_initial_out hmem
      cases hi
    show 0 = netFills t j ([] ++ (initial : Exchange P T).out)
    rw [netFills_quiet hno]
    rfl
  | @snoc as a s s' hrun hs ih =>
    have hw := Reachable.wellFormed ⟨as, hrun⟩
    cases hs with
    | @command _ ind msg hp =>
      have ho := parseMsg_outcome hp
      have hal' : (s.traders t).alive = true := (parseMsg_alive hp t).symm.trans hal
      have h := ih hal' ((if ind = t then [requestOf vp t msg] else []) ++ later)
      have hreqs : requests vp t (as ++ [.command ind msg]) ++ later =
          requests vp t as ++ ((if ind = t then [requestOf vp t msg] else []) ++ later) := by
        rw [requests, List.flatMap_append, List.append_assoc, List.flatMap_singleton]
        rfl
      rw [ho.out, messagesTo_append, List.foldl_append, hreqs]
      exact ho.mirrored hw hal' h
    | @died i =>
      have hal' : (s.traders t).alive = true := by
        rw [traderDied, setTrader_traders] at hal
        by_cases hi : t = i
        · subst hi
          rw [Function.update_self] at hal
          cases hal
        · rw [Function.update_of_ne hi] at hal
          exact hal
      have hreqs : requests vp t (as ++ [.died i]) ++ later = requests vp t as ++ later := by
        rw [requests, List.flatMap_append]
        exact congrArg (· ++ later) (List.append_nil _)
      rw [hreqs]
      exact (ih hal' later).congr (fun _ _ => Iff.rfl) fun _ => rfl

/-- **A trader can know its orders and positions.** As long as it is alive, what has
been written to it reads as the messages to it, and as no others. These lead from its
requests to the orders the exchange has of it, and to its positions as far as the
exchange can store them; the requests the exchange has not read yet are left. -/
theorem client_knows (hrun : Transition.Run (Step A vp) initial as s)
    (hal : (s.traders t).alive = true) (later : List (Request P T)) :
    msgLayout.readAll (stream t s) = some (messagesTo t s.out) ∧
    (∀ ms : List Msg, (∀ m ∈ ms, PeTrader.Sendable m) → ms.flatMap Msg.text = stream t s →
      ms = messagesTo t s.out) ∧
    ∃ c : Client P T,
      c = (messagesTo t s.out).foldl Client.receive (.start (requests vp t as ++ later)) ∧
        c.awaiting = later ∧ (∀ id, c.orders id = (s.findOrder t id).map Cell.val) ∧
        ∀ j, ((s.traders t).prodInfo j).quantity = A.int (c.position j) := by
  have hr : Reachable A vp s := ⟨as, hrun⟩
  have hw := Reachable.wellFormed hr
  have h := client_mirrors hrun hal later
  refine ⟨stream_read hr t, fun ms hms heq => stream_unique hr hms heq, _, rfl, h.awaiting,
    fun id => ?_, fun j => ?_⟩
  · cases hf : s.findOrder t id with
    | none =>
      rw [Option.map_none, Option.eq_none_iff_forall_ne_some]
      intro r hsome
      obtain ⟨hk, hl⟩ := (h.orders id r).mp hsome
      exact findOrder_none.mp hf _ _ r hl ⟨(Prod.mk.inj hk).1, (Prod.mk.inj hk).2⟩
    | some cell =>
      obtain ⟨ht, hid, -⟩ := findOrder_some hf
      rw [Option.map_some]
      exact (h.orders id _).mpr ⟨Prod.ext ht hid, (hw.findOrder_in hf).mem⟩
  · rw [h.position]
    exact Reachable.storedPositions hr t j

/-- Trader 1 offers ten units, of which four are bought, and has another command on its
way. -/
theorem client_knows_gpu :
    ∃ (s : Exchange 2 2) (c : Client 2 2),
      (initial : Exchange 2 2).runCommands .machine testProducts
        [(1, "SELL 0 GPU 10 30;".toList), (0, "BUY 0 GPU 4 40;".toList)] = .ok s ∧
      c.awaiting = [.amend 7 20] ∧
      c.orders 0 = some ⟨"GPU".toList, 6, 30, 0, 0, 1, false⟩ ∧
      ((s.traders 1).prodInfo 0).quantity = Arith.machine.int (c.position 0) := by
  have hrun : okAnd ((initial : Exchange 2 2).parseMsg .machine testProducts
      "SELL 0 GPU 10 30;".toList 1) (fun s₁ =>
    okAnd (s₁.parseMsg .machine testProducts "BUY 0 GPU 4 40;".toList 0) fun s₂ =>
    decide ((s₂.findOrder 1 0).map Cell.val =
      some ⟨"GPU".toList, 6, 30, 0, 0, 1, false⟩ ∧ (s₂.traders 1).alive = true)) := by
    decide +kernel
  obtain ⟨s₁, hp₁, hrun⟩ := exists_of_okAnd hrun
  obtain ⟨s₂, hp₂, hrun⟩ := exists_of_okAnd hrun
  obtain ⟨horder, hal⟩ := of_decide_eq_true hrun
  have hsteps := (Transition.Run.nil.snoc (Step.command hp₁)).snoc (Step.command hp₂)
  obtain ⟨-, -, c, -, haw, horders, hpos⟩ := client_knows hsteps hal [.amend 7 20]
  refine ⟨s₂, c, ?_, haw, (horders 0).trans horder, hpos 0⟩
  have hnil : (initial : Exchange 2 2).runCommands .machine testProducts [] = .ok initial := rfl
  exact runCommands_concat (runCommands_concat hnil hp₁) hp₂

end PeExchange
