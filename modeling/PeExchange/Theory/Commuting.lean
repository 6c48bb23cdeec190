import PeExchange.Lib.Locality
import PeExchange.Theory.Fills
import PeExchange.Theory.Rejection
import PeExchange.Theory.Parsing

/-!
# Commands on different products commute

A command works on one product: its two order lists, its levels and everybody's
account in it. Besides it moves the sender's counter, adds to the fees and
writes.

- `productView`: a product's part of the state. Every operation acts on each part
  by itself (`settle_congr` and the like), so the matching loop is local
  (`Trades.alike`) and leaves the other products alone (`Trades.frame`).
- `find_order` searches all products. What it finds for one trader is not changed
  by a command of another one, unless it is in the product of that command
  (`Outcome.found`).
- `Alike`: what a command may rely on to behave the same in two states.
-/

namespace PeExchange

open CFormat LinkedList Locality

variable {P T : Nat}

/-! ## Parts of the state -/

/-- The part of the state that belongs to a product. -/
structure ProductView (P T : Nat) where
  orders : Bool → List (Order P T)
  prints : PrintedOrderbook
  info : Fin T → TraderBalances

/-- The parts of the state a command can work on. -/
inductive Part (P T : Nat) where
  | product (i : Fin P)
  | counter (t : Fin T)

/-- What a part looks like. -/
def Part.View : Part P T → Type
  | .product _ => ProductView P T
  | .counter _ => Int

namespace Exchange

def productView (s : Exchange P T) (i : Fin P) : ProductView P T where
  orders b := s.orders b i
  prints := s.printedOrders i
  info t := (s.traders t).prodInfo i

def view : (k : Part P T) → Exchange P T → k.View
  | .product i, s => s.productView i
  | .counter t, s => (s.traders t).orderID

variable {A : Arith} {vp : ValidProducts P} {s s' s₁ s₂ : Exchange P T} {ind t : Fin T}
  {o o' r : Order P T} {c : Cell (Order P T)} {ms : List (Order P T × Order P T)} {ret : Int}
  {msg : List Char} {i j prod : Fin P} {b : Bool} {K : Part P T → Prop}

theorem productView_eq (horders : ∀ b, s.orders b i = s'.orders b i)
    (hprints : s.printedOrders i = s'.printedOrders i)
    (hinfo : ∀ t, (s.traders t).prodInfo i = (s'.traders t).prodInfo i) :
    s.productView i = s'.productView i := by
  unfold productView
  rw [hprints, funext horders, funext hinfo]

theorem orders_of_view (h : s.productView i = s'.productView i) (b : Bool) :
    s.orders b i = s'.orders b i :=
  congrFun (congrArg ProductView.orders h) b

theorem prints_of_view (h : s.productView i = s'.productView i) :
    s.printedOrders i = s'.printedOrders i :=
  congrArg ProductView.prints h

theorem info_of_view (h : s.productView i = s'.productView i) (t : Fin T) :
    (s.traders t).prodInfo i = (s'.traders t).prodInfo i :=
  congrFun (congrArg ProductView.info h) t

/-! ## Operations act on each product by itself -/

section Congruence

variable (h : s.productView i = s'.productView i)

include h

/-- Settling a match reads of a product no more than its view. -/
theorem settle_congr (A : Arith) (o r : Order P T) :
    (s.settle A o r).productView i = (s'.settle A o r).productView i := by
  refine productView_eq (orders_of_view h :) (prints_of_view h :) fun t => ?_
  rw [settle_prodInfo, settle_prodInfo, info_of_view h t]

theorem setPrints_congr {book book' : PrintedOrderbook} (hbook : prod = i → book = book') :
    (s.setPrints prod book).productView i = (s'.setPrints prod book').productView i := by
  refine productView_eq (orders_of_view h :) ?_ (info_of_view h :)
  rw [setPrints_printedOrders, setPrints_printedOrders]
  by_cases hi : i = prod
  · subst hi
    rw [Function.update_self, Function.update_self, hbook rfl]
  · rw [Function.update_of_ne hi, Function.update_of_ne hi, prints_of_view h]

theorem setOrders_congr {list list' : List (Order P T)} (hlist : prod = i → list = list') :
    (s.setOrders b prod list).productView i = (s'.setOrders b prod list').productView i := by
  refine productView_eq (fun b' => ?_) (prints_of_view h :) (info_of_view h :)
  rw [setOrders_orders, setOrders_orders]
  by_cases hi : i = prod
  · rw [hlist hi.symm, orders_of_view h]
  · rw [if_neg fun hbi => hi hbi.2, if_neg fun hbi => hi hbi.2, orders_of_view h]

theorem addOrderPrints_congr (A : Arith) (o : Order P T) :
    (s.addOrderPrints A o).productView i = (s'.addOrderPrints A o).productView i :=
  setPrints_congr h fun hi => by rw [hi, prints_of_view h]

theorem cancelOrderPrints_congr (A : Arith) (o : Order P T) :
    (s.cancelOrderPrints A o).productView i = (s'.cancelOrderPrints A o).productView i :=
  setPrints_congr h fun hi => by rw [hi, prints_of_view h]

theorem deleteOrder_congr (c : Cell (Order P T)) (b : Bool) (prod : Fin P) :
    (s.deleteOrder c b prod).productView i = (s'.deleteOrder c b prod).productView i :=
  setOrders_congr h fun hi => by rw [hi, orders_of_view h]

theorem storeOrder_congr (c : Cell (Order P T)) (b : Bool) (prod : Fin P) (v : Order P T) :
    (s.storeOrder c b prod v).productView i = (s'.storeOrder c b prod v).productView i :=
  setOrders_congr h fun hi => by rw [hi, orders_of_view h]

theorem addOrder_congr (o : Order P T) :
    (s.addOrder o).productView i = (s'.addOrder o).productView i :=
  setOrders_congr h fun hi => by rw [hi, orders_of_view h]

theorem execMatch_congr (A : Arith) (o : Order P T) (c : Cell (Order P T)) :
    (s.execMatch A o c).productView i = (s'.execMatch A o c).productView i := by
  have hpaid := cancelOrderPrints_congr (settle_congr h A o c.val) A c.val
  unfold execMatch
  split
  · exact deleteOrder_congr hpaid c _ _
  · exact addOrderPrints_congr (storeOrder_congr hpaid c _ _ _) A _

theorem afterInsert_congr (A : Arith) (o : Order P T) (ret : Int) :
    (afterInsert A s o ret).productView i = (afterInsert A s' o ret).productView i := by
  unfold afterInsert
  split
  · exact addOrder_congr (addOrderPrints_congr h A o) o
  · exact h

end Congruence

/-! ## Operations leave the other products alone -/

/-- Settling a match in one product leaves the others. -/
theorem settle_frame (A : Arith) (s : Exchange P T) (r : Order P T) (hi : i ≠ o.productID) :
    s.productView i = (s.settle A o r).productView i := by
  refine productView_eq (fun _ => rfl) rfl fun t => ?_
  rw [settle_prodInfo, if_neg fun h => hi h.1]

theorem setPrints_frame (s : Exchange P T) (book : PrintedOrderbook) (hi : i ≠ prod) :
    s.productView i = (s.setPrints prod book).productView i := by
  refine productView_eq (fun _ => rfl) ?_ fun _ => rfl
  rw [setPrints_printedOrders, Function.update_of_ne hi]

theorem setOrders_frame (s : Exchange P T) (b : Bool) (list : List (Order P T)) (hi : i ≠ prod) :
    s.productView i = (s.setOrders b prod list).productView i :=
  productView_eq (fun _ => (if_neg fun h => hi h.2).symm) rfl fun _ => rfl

theorem cancelOrderPrints_frame (A : Arith) (s : Exchange P T) (hi : i ≠ o.productID) :
    s.productView i = (s.cancelOrderPrints A o).productView i :=
  setPrints_frame s _ hi

theorem addOrderPrints_frame (A : Arith) (s : Exchange P T) (hi : i ≠ o.productID) :
    s.productView i = (s.addOrderPrints A o).productView i :=
  setPrints_frame s _ hi

theorem unlink_frame (A : Arith) (s : Exchange P T) (b : Bool) (hi : i ≠ prod)
    (hprod : c.val.productID = prod) :
    s.productView i = ((s.cancelOrderPrints A c.val).deleteOrder c b prod).productView i := by
  subst hprod
  exact (cancelOrderPrints_frame A s hi).trans (setOrders_frame _ _ _ hi)

/-- A match leaves other products. -/
theorem execMatch_frame (A : Arith) (s : Exchange P T) (hi : i ≠ o.productID)
    (hprod : c.val.productID = o.productID) :
    s.productView i = (s.execMatch A o c).productView i := by
  have hpaid := settle_frame A s c.val hi
  unfold execMatch
  split
  · exact hpaid.trans (unlink_frame A _ _ hi hprod)
  · have hi' : i ≠ c.val.productID := hprod ▸ hi
    have hgone := hpaid.trans (cancelOrderPrints_frame A (s.settle A o c.val) hi')
    exact (hgone.trans (setOrders_frame _ _ _ hi)).trans (addOrderPrints_frame A _ hi')

/-- **The matching loop** leaves other products. -/
theorem Trades.frame (ht : Trades A s o ms s' o' ret) (hw : WellFormed vp s)
    (hi : i ≠ o.productID) : s.productView i = s'.productView i := by
  induction ht with
  | stop => rfl
  | last _ hf _ => exact execMatch_frame A _ hi (hw.placed _ _ _ (findBest_in hf).mem).2
  | @more s _ _ _ _ _ _ hq hf _ _ ih =>
    have hone := execMatch_frame A s hi (hw.placed _ _ _ (findBest_in hf).mem).2
    exact hone.trans (ih (hw.shrunk (execMatch_shrunk hq hf)) hi)

theorem afterInsert_frame (A : Arith) (s : Exchange P T) (ret : Int) (hi : i ≠ o.productID) :
    s.productView i = (afterInsert A s o ret).productView i :=
  afterInsert_rule (motive := fun s' => s.productView i = s'.productView i)
    (fun _ => (addOrderPrints_frame A s hi).trans (setOrders_frame _ _ _ hi)) fun _ => rfl

/-- An order that enters leaves other products. -/
theorem Enters.frame (he : Enters A vp s ind s₁ o) (hi : i ≠ o.productID) :
    s.productView i = s₁.productView i := by
  cases he with
  | new =>
    refine productView_eq (fun _ => rfl) rfl fun t => ?_
    by_cases ht : t = ind
    · subst ht
      simp [writeAccepted]
    · simp [writeAccepted, ht]
  | amended => exact unlink_frame A _ _ hi rfl

/-! ## The matching loop is local -/

/-- The best offer is found in the view of the product. -/
theorem findBest_of_view (h : s.productView o.productID = s'.productView o.productID) :
    s'.findBest o = s.findBest o := by
  unfold findBest
  rw [orders_of_view h, orders_of_view h]

/-- **The matching loop sees one product only.** -/
theorem Trades.alike (ht : Trades A s o ms s₂ o' ret)
    (h : s.productView o.productID = s'.productView o.productID) :
    ∃ s₂', Trades A s' o ms s₂' o' ret ∧
      ∀ i, s.productView i = s'.productView i → s₂.productView i = s₂'.productView i := by
  induction ht generalizing s' with
  | stop hq hf => exact ⟨s', .stop hq ((findBest_of_view h).trans hf), fun i hi => hi⟩
  | @last s o c hq hf hle =>
    exact ⟨_, .last hq ((findBest_of_view h).trans hf) hle, fun i hi => execMatch_congr hi A o c⟩
  | @more s s₂ o o' c ms ret hq hf hlt _ ih =>
    obtain ⟨s₂', ht', hsame⟩ := ih (execMatch_congr h A o c)
    exact ⟨s₂', .more hq ((findBest_of_view h).trans hf) hlt ht', fun i hi =>
      hsame i (execMatch_congr hi A o c)⟩

/-! ## Reading a command -/

/-- Of a trader `create_order` reads the counter only. -/
theorem checkOrder_congr {tr tr' : Trader P} (htr : tr'.orderID = tr.orderID) (vp : ValidProducts P)
    (ind : Fin T) (isBuy : Bool) (id : Int) (product : List Char) (q p : Int) :
    checkOrder vp ind tr' isBuy id product q p =
      (checkOrder vp ind tr isBuy id product q p).map fun r =>
        (r.1, { tr' with orderID := tr'.orderID + 1 }) := by
  unfold checkOrder
  rw [htr]
  cases findProduct vp product with
  | none => rfl
  | some prod =>
    simp only
    split
    · rfl
    · split
      · rfl
      · split <;> rfl

theorem createBuySellOrder_congr {tr tr' : Trader P} (htr : tr'.orderID = tr.orderID)
    (vp : ValidProducts P) (ind : Fin T) (str : List Char) :
    createBuySellOrder vp str ind tr' =
      (createBuySellOrder vp str ind tr).map (Option.map fun r =>
        (r.1, { tr' with orderID := tr'.orderID + 1 })) := by
  have hcreate : ∀ isBuy, createOrder vp str ind tr' isBuy =
      (createOrder vp str ind tr isBuy).map (Option.map fun r =>
        (r.1, { tr' with orderID := tr'.orderID + 1 })) := by
    intro isBuy
    unfold createOrder
    cases scan orderFormat str with
    | error e => rfl
    | ok args =>
      simp only [bind, Except.bind]
      split
      · exact congrArg Except.ok (checkOrder_congr htr vp ind isBuy _ _ _ _)
      · rfl
  unfold createBuySellOrder
  cases scan sideFormat str with
  | error e => rfl
  | ok args =>
    simp only [bind, Except.bind]
    split
    · split
      · exact hcreate false
      · split
        · exact hcreate true
        · rfl
    · rfl

/-- The state in which a new order is matched. -/
def numbered (s : Exchange P T) (ind : Fin T) (o : Order P T) : Exchange P T :=
  (s.setTrader ind { s.traders ind with orderID := o.orderID + 1 }).writeAccepted o ind

/-- The state in which the new version of a resting order is matched. -/
def replaced (A : Arith) (s : Exchange P T) (ind : Fin T) (c : Cell (Order P T))
    (o : Order P T) : Exchange P T :=
  ((s.writeAmended o ind).cancelOrderPrints A c.val).deleteOrder c c.val.isBuy c.val.productID

/-- A command of `ind` that concerns none of the products in `K` behaves in `s'` as it
does in `s`: they look the same outside `K`, and what the search finds for `ind` is
the same or in `K`. -/
structure Alike (K : Part P T → Prop) (ind : Fin T) (s s' : Exchange P T) : Prop where
  outside : SameOutside view K s s'
  own : ¬K (.counter ind)
  alive : ∀ t, (s'.traders t).alive = (s.traders t).alive
  found : ∀ id, s'.findOrder ind id = s.findOrder ind id ∨
    ∃ c, s.findOrder ind id = some c ∧ K (.product c.val.productID)

theorem Alike.counter (h : Alike K ind s s') : (s'.traders ind).orderID = (s.traders ind).orderID :=
  (h.outside (.counter ind) h.own).symm

theorem Alike.numbered (h : Alike K ind s s') (o : Order P T) :
    SameOutside view K (s.numbered ind o) (s'.numbered ind o) := by
  intro k hk
  have hs := h.outside k hk
  cases k with
  | product i =>
    have hview : s.productView i = s'.productView i := hs
    refine productView_eq (orders_of_view hview :) (prints_of_view hview :) fun t => ?_
    have hinfo := info_of_view hview t
    by_cases ht : t = ind
    · subst ht
      simpa [Exchange.numbered, writeAccepted] using hinfo
    · simpa [Exchange.numbered, writeAccepted, ht] using hinfo
  | counter t =>
    have hcount : (s.traders t).orderID = (s'.traders t).orderID := hs
    show ((s.numbered ind o).traders t).orderID = ((s'.numbered ind o).traders t).orderID
    by_cases ht : t = ind
    · subst ht
      simp [Exchange.numbered, writeAccepted]
    · simpa [Exchange.numbered, writeAccepted, ht] using hcount

/-- An amendment does the same on both sides. -/
theorem Alike.replaced (h : Alike K ind s s') (A : Arith) (c : Cell (Order P T)) (o : Order P T) :
    SameOutside view K (s.replaced A ind c o) (s'.replaced A ind c o) := by
  intro k hk
  have hs := h.outside k hk
  cases k with
  | product i =>
    have hview : (s.writeAmended o ind).productView i = (s'.writeAmended o ind).productView i := hs
    exact deleteOrder_congr (cancelOrderPrints_congr hview A c.val) c _ _
  | counter t => exact hs

theorem Alike.afterCancel (h : Alike K ind s s') (A : Arith) (c : Cell (Order P T)) :
    SameOutside view K (s.afterCancel A ind c) (s'.afterCancel A ind c) := by
  intro k hk
  have hs := h.outside k hk
  cases k with
  | product i =>
    have hview : ((s.emit [.cancelled c.val]).writeCancelled c.val.orderID c.val.product ind
        c.val.isBuy).productView i = ((s'.emit [.cancelled c.val]).writeCancelled c.val.orderID
          c.val.product ind c.val.isBuy).productView i := hs
    exact deleteOrder_congr (cancelOrderPrints_congr hview A c.val) c _ _
  | counter t => exact hs

/-! ## Reading a command in two states -/

/-- A new order is read alike when the counters are the same. -/
theorem newOrderMsg_alike (hc : (s'.traders ind).orderID = (s.traders ind).orderID)
    (vp : ValidProducts P) (msg : List Char) :
    (∃ e e', s.newOrderMsg vp msg ind = .error e ∧ s'.newOrderMsg vp msg ind = .error e') ∨
    (s.newOrderMsg vp msg ind = .ok none ∧ s'.newOrderMsg vp msg ind = .ok none) ∨
    ∃ o, s.newOrderMsg vp msg ind = .ok (some (s.numbered ind o, o)) ∧
      s'.newOrderMsg vp msg ind = .ok (some (s'.numbered ind o, o)) := by
  have hcongr : s'.newOrderMsg vp msg ind = (s.newOrderMsg vp msg ind).map
      (Option.map fun r => (((s'.setTrader ind { s'.traders ind with
        orderID := (s'.traders ind).orderID + 1 }).writeAccepted r.2 ind), r.2)) := by
    unfold newOrderMsg
    split
    · rfl
    · rw [createBuySellOrder_congr hc]
      cases createBuySellOrder vp msg ind (s.traders ind) with
      | error e => rfl
      | ok r => cases r <;> rfl
  cases hr : s.newOrderMsg vp msg ind with
  | error e =>
    rw [hr] at hcongr
    exact .inl ⟨e, e, rfl, hcongr⟩
  | ok r =>
    rw [hr] at hcongr
    cases r with
    | none => exact .inr (.inl ⟨rfl, hcongr⟩)
    | some r =>
      obtain ⟨s₁, o⟩ := r
      have hex : ∃ s₂, s'.newOrderMsg vp msg ind = .ok (some (s₂, o)) := ⟨_, hcongr⟩
      obtain ⟨s₂, hr'⟩ := hex
      obtain ⟨-, -, -, rfl⟩ := newOrderMsg_some hr
      obtain ⟨-, -, -, rfl⟩ := newOrderMsg_some hr'
      exact .inr (.inr ⟨o, rfl, hr'⟩)

/-- The search for the order to amend succeeds alike. -/
theorem checkValidAmend_alike (h : Alike K ind s s') (msg : List Char) (q p : Int) :
    s'.checkValidAmend q p ind msg = s.checkValidAmend q p ind msg ∨
    ∃ c, s.checkValidAmend q p ind msg = .ok (some c) ∧ K (.product c.val.productID) := by
  unfold checkValidAmend
  split
  · exact .inl rfl
  · cases scan amendIdFormat msg with
    | error e => exact .inl rfl
    | ok args =>
      show Except.ok (s'.checkAmendArgs ind (amendArgs q p args)) =
          Except.ok (s.checkAmendArgs ind (amendArgs q p args)) ∨
        ∃ c, Except.ok (s.checkAmendArgs ind (amendArgs q p args)) = .ok (some c) ∧ _
      unfold checkAmendArgs
      -- the ranges are checked before the search
      split
      · exact .inl rfl
      · split
        · exact .inl rfl
        · split
          · exact .inl rfl
          · rcases h.found (amendArgs q p args).id with heq | ⟨c, hc, hk⟩
            · exact .inl (congrArg Except.ok heq)
            · exact .inr ⟨c, congrArg Except.ok hc, hk⟩

/-- `amend_msg` up to the matching, by what its search finds. -/
theorem amendOrderMsg_eq {q p : Int} (hargs : scan amendFormat msg = .ok [.int q, .int p]) :
    s.amendOrderMsg A msg ind = (s.checkValidAmend q p ind msg).map (Option.map fun c =>
      (s.replaced A ind c (createAmendedOrder p q c.val), createAmendedOrder p q c.val)) := by
  unfold amendOrderMsg
  rw [hargs]
  show (s.checkValidAmend q p ind msg >>= _) = _
  cases s.checkValidAmend q p ind msg with
  | error e => rfl
  | ok r => cases r <;> rfl

/-- A text without the two numbers amends nothing. -/
theorem amendOrderMsg_none {args : List Arg} (hargs : scan amendFormat msg = .ok args)
    (hint : ¬∃ q p, args = [.int q, .int p]) : s.amendOrderMsg A msg ind = .ok none := by
  unfold amendOrderMsg
  rw [hargs]
  simp only [bind, Except.bind]
  split
  · exact absurd ⟨_, _, rfl⟩ hint
  · rfl

/-- An amendment is decided alike, unless its product is set aside. -/
theorem amendOrderMsg_alike (h : Alike K ind s s') (A : Arith) (msg : List Char) :
    (s.amendOrderMsg A msg ind = .ok none ∧ s'.amendOrderMsg A msg ind = .ok none) ∨
    ∃ c o, o.productID = c.val.productID ∧
      s.amendOrderMsg A msg ind = .ok (some (s.replaced A ind c o, o)) ∧
      (s'.amendOrderMsg A msg ind = .ok (some (s'.replaced A ind c o, o)) ∨
        K (.product c.val.productID)) := by
  obtain ⟨args, hargs⟩ := @scan_ok amendFormat (by unfold amendFormat; simp) msg
  by_cases hint : ∃ q p, args = [.int q, .int p]
  · obtain ⟨q, p, rfl⟩ := hint
    obtain ⟨r, hr⟩ := amendOrderMsg_ok A s ind msg
    rw [amendOrderMsg_eq hargs] at hr ⊢
    rw [amendOrderMsg_eq hargs]
    cases hc : s.checkValidAmend q p ind msg with
    | error e =>
      rw [hc] at hr
      cases hr
    | ok found =>
      have halike := checkValidAmend_alike h msg q p
      rw [hc] at halike
      cases found with
      | none =>
        rcases halike with heq | ⟨c, hsome, -⟩
        · rw [heq]
          exact .inl ⟨rfl, rfl⟩
        · cases hsome
      | some c =>
        refine .inr ⟨c, createAmendedOrder p q c.val, rfl, rfl, ?_⟩
        rcases halike with heq | ⟨c', hsome, hk⟩
        · rw [heq]
          exact .inl rfl
        · cases hsome
          exact .inr hk
  · exact .inl ⟨amendOrderMsg_none hargs hint, amendOrderMsg_none hargs hint⟩

/-- What a message asks to cancel. -/
def CancelText (msg : List Char) (id : Int) : Prop :=
  spaceCount msg = 1 ∧ scan cancelFormat msg = .ok [.int id] ∧ 0 ≤ id ∧ id ≤ 999999

/-- `cancel_msg`, by what its search finds. -/
theorem cancelMsg_eq {id : Int} (h : CancelText msg id) :
    s.cancelMsg A msg ind = .ok ((s.findOrder ind id).map (s.afterCancel A ind)) := by
  obtain ⟨hspace, hargs, h₀, h₁⟩ := h
  rw [cancelMsg, if_neg (not_not.mpr hspace), hargs]
  show (if id < 0 ∨ id > 999999 then _ else _ : Except Fault _) = _
  rw [if_neg (by omega)]
  cases hc : s.findOrder ind id with
  | none => rfl
  | some c =>
    -- the scanned identifier is the one of the order found
    have hid : c.val.orderID = id := (findOrder_some hc).2.1
    show _ = Except.ok (some (s.afterCancel A ind c))
    rw [afterCancel, hid]
    rfl

/-- A text that is no cancellation is refused. -/
theorem cancelMsg_none (h : ¬∃ id, CancelText msg id) : s.cancelMsg A msg ind = .ok none := by
  obtain ⟨args, hargs⟩ := @scan_ok cancelFormat (by unfold cancelFormat; simp) msg
  unfold cancelMsg
  split
  · rfl
  · rename_i hspace
    rw [hargs]
    simp only [bind, Except.bind]
    split
    · rename_i id
      split
      · rfl
      · rename_i hid
        exact absurd ⟨id, not_not.mp hspace, hargs, by omega, by omega⟩ h
    · rfl

/-- A cancellation is decided alike, unless its product is set aside. -/
theorem cancelMsg_alike (h : Alike K ind s s') (A : Arith) (msg : List Char) :
    (s.cancelMsg A msg ind = .ok none ∧ s'.cancelMsg A msg ind = .ok none) ∨
    ∃ id c, CancelText msg id ∧ s.findOrder ind id = some c ∧
      (s'.findOrder ind id = some c ∨ K (.product c.val.productID)) := by
  by_cases htext : ∃ id, CancelText msg id
  · obtain ⟨id, hid⟩ := htext
    rw [cancelMsg_eq hid, cancelMsg_eq hid]
    cases hc : s.findOrder ind id with
    | none =>
      rcases h.found id with heq | ⟨c, hsome, -⟩
      · rw [heq, hc]
        exact .inl ⟨rfl, rfl⟩
      · rw [hc] at hsome
        cases hsome
    | some c =>
      refine .inr ⟨id, c, hid, hc, ?_⟩
      rcases h.found id with heq | ⟨c', hsome, hk⟩
      · exact .inl (heq.trans hc)
      · obtain rfl := Option.some.inj (hsome.symm.trans hc)
        exact .inr hk
  · exact .inl ⟨cancelMsg_none htext, cancelMsg_none htext⟩

/-! ## The product of a command -/

/-- The command is accepted and concerns product `j`: that of the order it enters,
which for an amendment is the resting order's, or that of the resting order it
cancels. -/
inductive ConcernsProduct (A : Arith) (vp : ValidProducts P) (s : Exchange P T)
    (msg : List Char) (ind : Fin T) (j : Fin P) : Prop where
  | entered {s₁ : Exchange P T} {o : Order P T}
      (hin : s.incoming A vp msg ind = .ok (some (s₁, o))) (hj : o.productID = j)
  | cancelled {id : Int} {c : Cell (Order P T)} (htext : CancelText msg id)
      (hc : s.findOrder ind id = some c) (hj : c.val.productID = j)

/-- The parts of the state a command may change. -/
def footprint (A : Arith) (vp : ValidProducts P) (s : Exchange P T) (msg : List Char)
    (ind : Fin T) : Part P T → Prop
  | .product j => ConcernsProduct A vp s msg ind j
  | .counter t => t = ind

/-- What an order enters with in two states that look alike. -/
theorem incoming_alike (h : Alike K ind s s')
    (hK : ∀ j, ConcernsProduct A vp s msg ind j → ¬K (.product j)) :
    (∃ e e', s.incoming A vp msg ind = .error e ∧ s'.incoming A vp msg ind = .error e') ∨
    (s.incoming A vp msg ind = .ok none ∧ s'.incoming A vp msg ind = .ok none) ∨
    ∃ s₁ s₁' o, s.incoming A vp msg ind = .ok (some (s₁, o)) ∧
      s'.incoming A vp msg ind = .ok (some (s₁', o)) ∧ SameOutside view K s₁ s₁' := by
  have hnew := newOrderMsg_alike h.counter vp msg
  have hamend := amendOrderMsg_alike h A msg
  have hin := fun (s₁ : Exchange P T) (o : Order P T)
      (hin : s.incoming A vp msg ind = .ok (some (s₁, o))) => hK _ (.entered hin rfl)
  unfold incoming at hin ⊢
  split
  · rcases hnew with herr | hnone | ⟨o, ho, ho'⟩
    · exact .inl herr
    · exact .inr (.inl hnone)
    · exact .inr (.inr ⟨_, _, o, ho, ho', h.numbered o⟩)
  · rcases hnew with herr | hnone | ⟨o, ho, ho'⟩
    · exact .inl herr
    · exact .inr (.inl hnone)
    · exact .inr (.inr ⟨_, _, o, ho, ho', h.numbered o⟩)
  · rcases hamend with hnone | ⟨c, o, hprod, ho, ho' | hk⟩
    · exact .inr (.inl hnone)
    · exact .inr (.inr ⟨_, _, o, ho, ho', h.replaced A c o⟩)
    · exact absurd (hprod ▸ hk) (hin _ _ ho)
  · exact .inr (.inl ⟨rfl, rfl⟩)

/-! ## A command in two states -/

/-- What a command does in two states that look alike to it. -/
structure SameEffect (K : Part P T → Prop) (s s₁ s' s₁' : Exchange P T) : Prop where
  outside : SameOutside view K s₁ s₁'
  written : s.written s₁ = s'.written s₁'

/-- **A command is local**: where it looks alike it has the same effect. -/
theorem parseMsg_alike (h : Alike K ind s s')
    (hK : ∀ j, ConcernsProduct A vp s msg ind j → ¬K (.product j))
    (hp : s.parseMsg A vp msg ind = .ok s₁) :
    ∃ s₁', s'.parseMsg A vp msg ind = .ok s₁' ∧ SameEffect K s s₁ s' s₁' := by
  have hinvalid : SameEffect K s (s.writeInvalid ind) s' (s'.writeInvalid ind) := by
    constructor
    · intro k hk
      have hs := h.outside k hk
      cases k with
      | product i => exact hs
      | counter t => exact hs
    · exact (written_append rfl).trans (written_append rfl).symm
  have hcancel := cancelMsg_alike h A msg
  have hincoming := incoming_alike h hK
  unfold parseMsg at hp ⊢
  split at hp
  · rcases hcancel with ⟨hnone, hnone'⟩ | ⟨id, c, htext, hc, hc' | hk⟩
    · rw [hnone] at hp
      rw [hnone']
      cases hp
      exact ⟨_, rfl, hinvalid⟩
    · rw [cancelMsg_eq htext, hc] at hp
      rw [cancelMsg_eq htext, hc']
      cases hp
      refine ⟨_, rfl, h.afterCancel A c, ?_⟩
      rw [written_cancelled, written_cancelled, toOthers_congr h.alive]
    · exact absurd hk (hK _ (.cancelled htext hc rfl))
  · rcases hincoming with ⟨e, e', herr, -⟩ | ⟨hnone, hnone'⟩ | ⟨s₂, s₂', o, ho, ho', hsame⟩
    · rw [herr] at hp
      cases hp
    · rw [hnone] at hp
      rw [hnone']
      cases hp
      exact ⟨_, rfl, hinvalid⟩
    · have hq := (incoming_enters ho).quantity_pos
      have hprod := hsame (.product o.productID) (hK _ (.entered ho rfl))
      obtain ⟨ms, s₃, o', ret, ht, heq⟩ := matchAndInsert_trades (A := A) (s := s₂) hq
      obtain ⟨s₃', ht', hview⟩ := ht.alike hprod
      rw [ho] at hp
      rw [ho']
      obtain rfl := Except.ok.inj (heq.symm.trans hp)
      refine ⟨_, ht'.matchAndInsert hq, fun k hk => ?_, ?_⟩
      · have hs := hsame k hk
        cases k with
        | product i => exact afterInsert_congr (hview i hs) A o' ret
        | counter t =>
          -- matching and inserting leave the counters alone
          have hcount : ∀ {s₂ s₃ : Exchange P T}, Trades A s₂ o ms s₃ o' ret →
              ((afterInsert A s₃ o' ret).traders t).orderID = (s₂.traders t).orderID := by
            intro s₂ s₃ ht
            refine afterInsert_rule (motive := fun s => (s.traders t).orderID = _)
              (fun _ => ?_) fun _ => ?_
            · exact ht.shrunk.counters t
            · exact ht.shrunk.counters t
          exact ((hcount ht).trans hs).trans (hcount ht').symm
      · rw [written_traded ho ht, written_traded ho' ht', toOthers_congr h.alive,
          matchEvents_congr h.alive]

/-- What a command concerns where it looks alike it concerns in the first state. -/
theorem ConcernsProduct.of_alike (h : Alike K ind s s')
    (hK : ∀ j, ConcernsProduct A vp s msg ind j → ¬K (.product j))
    (hj : ConcernsProduct A vp s' msg ind j) : ConcernsProduct A vp s msg ind j := by
  cases hj with
  | @entered s₁' o hin' hj =>
    rcases incoming_alike h hK with ⟨e, e', -, herr'⟩ | ⟨-, hnone'⟩ | ⟨s₂, s₂', o', ho, ho', -⟩
    · cases hin'.symm.trans herr'
    · cases hin'.symm.trans hnone'
    · cases hin'.symm.trans ho'
      exact .entered ho hj
  | @cancelled id c htext hc' hj =>
    rcases h.found id with heq | ⟨c', hc, hk⟩
    · exact .cancelled htext (heq.symm.trans hc') hj
    · exact absurd hk (hK _ (.cancelled htext hc rfl))

/-- It is accepted in both states or in none. -/
theorem accepted_alike (h : Alike K ind s s')
    (hK : ∀ j, ConcernsProduct A vp s msg ind j → ¬K (.product j)) :
    s.Accepted A vp msg ind ↔ s'.Accepted A vp msg ind := by
  refine or_congr ?_ ?_
  · rcases incoming_alike h hK with ⟨e, e', herr, herr'⟩ | ⟨hnone, hnone'⟩ |
      ⟨s₂, s₂', o', ho, ho', -⟩
    · rw [herr, herr']
      exact ⟨nofun, nofun⟩
    · rw [hnone, hnone']
    · exact ⟨fun _ => ⟨_, ho'⟩, fun _ => ⟨_, ho⟩⟩
  · rcases cancelMsg_alike h A msg with ⟨hnone, hnone'⟩ |
      ⟨id, c, htext, hc, hc' | hk⟩
    · rw [hnone, hnone']
    · rw [cancelMsg_eq htext, cancelMsg_eq htext, hc, hc']
      exact ⟨fun _ => ⟨_, rfl⟩, fun _ => ⟨_, rfl⟩⟩
    · exact absurd hk (hK _ (.cancelled htext hc rfl))

/-! ## What a command leaves alone -/

/-- What `cancel_msg` cancels is the order its text asks for. -/
theorem cancelText_of_cancelMsg (h : s.cancelMsg A msg ind = .ok (some s')) :
    ∃ id c, CancelText msg id ∧ s.findOrder ind id = some c ∧ s' = s.afterCancel A ind c := by
  by_cases htext : ∃ id, CancelText msg id
  · obtain ⟨id, hid⟩ := htext
    rw [cancelMsg_eq hid] at h
    obtain ⟨c, hc, rfl⟩ := Option.map_eq_some_iff.mp (Except.ok.inj h)
    exact ⟨id, c, hid, hc, rfl⟩
  · rw [cancelMsg_none htext] at h
    cases h

/-- Only the sender uses up an identifier. -/
theorem Enters.counter (he : Enters A vp s ind s₁ o) (ht : t ≠ ind) :
    (s₁.traders t).orderID = (s.traders t).orderID := by
  cases he with
  | new => simp [writeAccepted, ht]
  | amended => rfl

/-- **A command changes its own parts only.** -/
theorem parseMsg_frame (hw : WellFormed vp s) (hp : s.parseMsg A vp msg ind = .ok s') :
    SameOutside view (footprint A vp s msg ind) s s' := by
  intro k hk
  cases parseMsg_outcome hp with
  | rejected =>
    cases k with
    | product i => rfl
    | counter t => rfl
  | @traded s₁ s₂ o o' ms ret hin ht =>
    have he := incoming_enters hin
    have hprod : o'.productID = o.productID := by
      rw [ht.left_eq]
      rfl
    cases k with
    | product i =>
      have hi : i ≠ o.productID := fun hi => hk (.entered hin hi.symm)
      exact ((he.frame hi).trans (ht.frame (he.wellFormed hw).1 hi)).trans
        (afterInsert_frame A s₂ ret (hprod ▸ hi))
    | counter t =>
      show (s.traders t).orderID = ((afterInsert A s₂ o' ret).traders t).orderID
      have hcount := (ht.shrunk.counters t).trans (he.counter hk)
      exact (afterInsert_rule (motive := fun s' => (s'.traders t).orderID = (s.traders t).orderID)
        (fun _ => hcount) fun _ => hcount).symm
  | @cancelled c _ hmsg _ =>
    obtain ⟨id, c', htext, hc', heq⟩ := cancelText_of_cancelMsg hmsg
    rw [heq]
    cases k with
    | product i =>
      have hi : i ≠ c'.val.productID := fun hi => hk (.cancelled htext hc' hi.symm)
      exact unlink_frame A ((s.emit [.cancelled c'.val]).writeCancelled c'.val.orderID
        c'.val.product ind c'.val.isBuy) _ hi rfl
    | counter t => rfl

/-- An order that rests after a command is one of the sender's or rested before. -/
theorem Outcome.origin (ho : Outcome A vp s msg ind s') (hr : r ∈ s'.orders b i) :
    r.traderID = ind ∨ ∃ r' ∈ s.orders b i, key r = key r' := by
  have hold : ∀ {s₁ : Exchange P T}, Remnant (s₁.orders b i) (s.orders b i) →
      r ∈ s₁.orders b i → ∃ r' ∈ s.orders b i, key r = key r' := by
    intro s₁ hrem hmem
    obtain ⟨r', hr', hred⟩ := hrem.mem hmem
    exact ⟨r', hr', hred.key_eq⟩
  cases ho with
  | rejected => exact .inr ⟨r, hr, rfl⟩
  | @traded s₁ s₂ o o' ms ret hin ht =>
    have he := incoming_enters hin
    have hrem : Remnant (s₂.orders b i) (s.orders b i) :=
      IsTrans.trans _ _ _ (ht.shrunk.orders b i) (.of_sublist (he.orders_sublist b i))
    refine afterInsert_rule (motive := fun s' => r ∈ s'.orders b i → _) (fun _ hmem => ?_)
      (fun _ hmem => .inr (hold hrem hmem)) hr
    rcases mem_addOrder.mp hmem with hmem | ⟨-, -, rfl⟩
    · exact .inr (hold hrem hmem)
    · left
      rw [ht.left_eq]
      exact he.traderID
  | cancelled => exact .inr (hold (.of_sublist (deleteOrder_sublist s _ _ _ b i)) hr)

/-- **What another trader finds** is the same after a command, or in its product. -/
theorem parseMsg_found (hw : WellFormed vp s) (hp : s.parseMsg A vp msg ind = .ok s')
    (ht : t ≠ ind) (id : Int) : s'.findOrder t id = s.findOrder t id ∨
      ∃ c, s.findOrder t id = some c ∧ ConcernsProduct A vp s msg ind c.val.productID := by
  have ho := parseMsg_outcome hp
  cases hc : s.findOrder t id with
  | none =>
    refine .inl (findOrder_none.mpr fun b i r hr hkey => ?_)
    rcases ho.origin hr with hmine | ⟨r', hr', heq⟩
    · exact ht (hkey.1.symm.trans hmine)
    · obtain ⟨htr, hid⟩ := Prod.mk.inj heq
      exact findOrder_none.mp hc b i r' hr' ⟨htr.symm.trans hkey.1, hid.symm.trans hkey.2⟩
  | some c =>
    by_cases hj : ConcernsProduct A vp s msg ind c.val.productID
    · exact .inr ⟨c, rfl, hj⟩
    · -- the list it stands in is not changed
      have hview := parseMsg_frame hw hp (.product c.val.productID) hj
      have hin := hw.findOrder_in hc
      rw [orders_of_view hview] at hin
      obtain ⟨htr, hid, -⟩ := findOrder_some hc
      left
      rw [← htr, ← hid]
      exact (ho.wellFormed hw).findOrder_of_in hin

/-- To another trader the state looks alike after a command. -/
theorem alike_parseMsg (hw : WellFormed vp s) (hp : s.parseMsg A vp msg ind = .ok s')
    (ht : t ≠ ind) : Alike (footprint A vp s msg ind) t s s' where
  outside := parseMsg_frame hw hp
  own := ht
  alive := parseMsg_alive hp
  found := parseMsg_found hw hp ht

/-- In a state that looks alike to it the command changes the same parts. -/
theorem parseMsg_frame_alike (h : Alike K ind s s')
    (hK : ∀ j, ConcernsProduct A vp s msg ind j → ¬K (.product j)) (hw : WellFormed vp s')
    (hp : s'.parseMsg A vp msg ind = .ok s₁') :
    SameOutside view (footprint A vp s msg ind) s' s₁' := by
  intro k hk
  refine parseMsg_frame hw hp k fun hk' => hk ?_
  cases k with
  | product j => exact .of_alike h hK hk'
  | counter t => exact hk'

/-! ## Defined behaviour -/

theorem createOrder_defined {tr tr' : Trader P} {str : List Char} {isBuy : Bool}
    {x : Option (Order P T × Trader P)} (h : createOrder vp str ind tr isBuy = .ok x) :
    ∃ x', createOrder vp str ind tr' isBuy = .ok x' := by
  obtain ⟨args, hargs, -⟩ := bind_eq_ok h
  refine bind_total ⟨args, hargs⟩ fun _ _ => ?_
  split
  · exact ⟨_, rfl⟩
  · exact ⟨_, rfl⟩

theorem createBuySellOrder_defined {tr tr' : Trader P} {str : List Char}
    {x : Option (Order P T × Trader P)} (h : createBuySellOrder vp str ind tr = .ok x) :
    ∃ x', createBuySellOrder vp str ind tr' = .ok x' := by
  obtain ⟨args, hargs, h⟩ := bind_eq_ok h
  refine bind_total ⟨args, hargs⟩ fun args' hargs' => ?_
  obtain rfl := Except.ok.inj (hargs.symm.trans hargs')
  split at h
  · show ∃ x', (if _ = "SELL".toList then _ else _) = Except.ok x'
    split at h
    · rename_i hsell
      rw [if_pos hsell]
      exact createOrder_defined h
    · rename_i hsell
      rw [if_neg hsell]
      split at h
      · rename_i hbuy
        rw [if_pos hbuy]
        exact createOrder_defined h
      · rename_i hbuy
        rw [if_neg hbuy]
        exact ⟨_, rfl⟩
  · cases h

/-- Whether a new order has defined behaviour depends on the text alone. -/
theorem newOrderMsg_defined {x : Option (Exchange P T × Order P T)}
    (h : s.newOrderMsg vp msg ind = .ok x) (s' : Exchange P T) :
    ∃ x', s'.newOrderMsg vp msg ind = .ok x' := by
  unfold newOrderMsg at h ⊢
  split at h
  · rename_i hspace
    exact ⟨none, if_pos hspace⟩
  · rename_i hspace
    rw [if_neg hspace]
    obtain ⟨x, hx, -⟩ := bind_eq_ok h
    refine bind_total (createBuySellOrder_defined hx) fun y _ => ?_
    cases y with
    | none => exact ⟨_, rfl⟩
    | some y => exact ⟨_, rfl⟩

theorem incoming_defined {x : Option (Exchange P T × Order P T)}
    (h : s.incoming A vp msg ind = .ok x) (s' : Exchange P T) :
    ∃ x', s'.incoming A vp msg ind = .ok x' := by
  unfold incoming at h ⊢
  split at h
  · exact newOrderMsg_defined h s'
  · exact newOrderMsg_defined h s'
  · exact amendOrderMsg_ok A s' ind _
  · exact ⟨_, rfl⟩

/-- Whether a command has defined behaviour does not depend on the state. -/
theorem parseMsg_defined (hp : s.parseMsg A vp msg ind = .ok s₁) (s' : Exchange P T) :
    ∃ s₁', s'.parseMsg A vp msg ind = .ok s₁' := by
  unfold parseMsg at hp ⊢
  split at hp
  · refine bind_total (cancelMsg_ok A s' ind _) fun x _ => ?_
    cases x with
    | none => exact ⟨_, rfl⟩
    | some _ => exact ⟨_, rfl⟩
  · obtain ⟨x, hx, -⟩ := bind_eq_ok hp
    refine bind_total (incoming_defined hx s') fun y hy => ?_
    cases y with
    | none => exact ⟨_, rfl⟩
    | some y =>
      obtain ⟨s₂, o⟩ := y
      obtain ⟨_, _, _, _, -, heq⟩ :=
        matchAndInsert_trades (A := A) (s := s₂) (incoming_enters hy).quantity_pos
      exact ⟨_, heq⟩

/-! ## Fees -/

/-- The fees of some matches. -/
def feesOf (ms : List (Order P T × Order P T)) : Int :=
  (ms.map fun m => feeOf m.1 m.2).sum

/-- The matching loop adds the fees of its matches. -/
theorem Trades.fees (ht : Trades A s o ms s' o' ret) {x : Int}
    (hx : s.exchangeFees = A.longLong x) : s'.exchangeFees = A.longLong (x + feesOf ms) := by
  induction ht generalizing x with
  | stop => rw [hx, feesOf, List.map_nil, List.sum_nil, add_zero]
  | last =>
    rw [execMatch_exchangeFees, hx, Arith.longLong_longLong_add, feesOf, List.map_cons,
      List.map_nil, List.sum_cons, List.sum_nil, add_zero]
  | more _ _ _ _ ih =>
    rw [feesOf, List.map_cons, List.sum_cons, ← add_assoc]
    exact ih (by rw [execMatch_exchangeFees, hx, Arith.longLong_longLong_add])

/-- A command adds the fees of its matches. -/
theorem parseMsg_fees (hp : s.parseMsg A vp msg ind = .ok s') {x : Int}
    (hx : s.exchangeFees = A.longLong x) :
    s'.exchangeFees = A.longLong (x + feesOf (matchesOf (s.written s'))) := by
  cases parseMsg_outcome hp with
  | rejected =>
    have hnone : matchesOf (s.written (s.writeInvalid ind)) = [] := by
      rw [written_append rfl]
      rfl
    rw [hnone]
    exact hx.trans (by rw [feesOf, List.map_nil, List.sum_nil, add_zero])
  | @traded s₁ s₂ o o' ms ret hin ht =>
    rw [matchesOf_traded hin ht, (afterInsert_accounts _ _ _ _).fees]
    exact ht.fees ((incoming_enters hin).accounts.fees.trans hx)
  | @cancelled c =>
    have hnone : matchesOf (s.written (s.afterCancel A ind c)) = [] := by
      rw [written_cancelled]
      exact matchesOf_toOthers s ind _
    rw [hnone]
    exact hx.trans (by rw [feesOf, List.map_nil, List.sum_nil, add_zero])

end Exchange

/-- What the fees hold is of type `long long`. -/
theorem Reachable.fees {A : Arith} {vp : ValidProducts P} {s : Exchange P T}
    (h : Reachable A vp s) : ∃ x, s.exchangeFees = A.longLong x := by
  refine Transition.Reachable.invariant
    (I := fun s : Exchange P T => ∃ x, s.exchangeFees = A.longLong x) ⟨0, ?_⟩
    (fun s a s' _ hi hs => ?_) h
  · cases A <;> rfl
  · obtain ⟨x, hx⟩ := hi
    cases hs with
    | command hp => exact ⟨_, Exchange.parseMsg_fees hp hx⟩
    | died => exact ⟨x, hx⟩

/-! ## Either order -/

namespace Exchange

variable {A : Arith} {vp : ValidProducts P} {s s₁ s₂ s₁₂ s₂₁ : Exchange P T} {t₁ t₂ : Fin T}
  {m₁ m₂ : List Char}

theorem trader_eq {tr tr' : Trader P} (hid : tr.orderID = tr'.orderID)
    (hinfo : ∀ i, tr.prodInfo i = tr'.prodInfo i) (halive : tr.alive = tr'.alive) : tr = tr' := by
  cases tr
  cases tr'
  obtain rfl := funext hinfo
  cases hid
  cases halive
  rfl

/-- The commands `m₁` and `m₂` have the same effect in either order. Each is accepted
in both orders or in none and writes the same, fills included; and the lists, the
levels, the traders (counters, positions and balances) and the fees end up the
same. -/
structure SameInEitherOrder (A : Arith) (vp : ValidProducts P) (s : Exchange P T)
    (m₁ : List Char) (t₁ : Fin T) (m₂ : List Char) (t₂ : Fin T)
    (s₁ s₁₂ s₂ s₂₁ : Exchange P T) : Prop where
  first_then : s.parseMsg A vp m₁ t₁ = .ok s₁ ∧ s₁.parseMsg A vp m₂ t₂ = .ok s₁₂
  second_then : s.parseMsg A vp m₂ t₂ = .ok s₂ ∧ s₂.parseMsg A vp m₁ t₁ = .ok s₂₁
  decision_first : s.Accepted A vp m₁ t₁ ↔ s₂.Accepted A vp m₁ t₁
  decision_second : s.Accepted A vp m₂ t₂ ↔ s₁.Accepted A vp m₂ t₂
  written_first : s.written s₁ = s₂.written s₂₁
  written_second : s.written s₂ = s₁.written s₁₂
  orders : s₁₂.orders = s₂₁.orders
  printedOrders : s₁₂.printedOrders = s₂₁.printedOrders
  traders : s₁₂.traders = s₂₁.traders
  exchangeFees : s₁₂.exchangeFees = s₂₁.exchangeFees

/-- **Commands of different traders that concern different products commute.** -/
theorem commands_commute (hr : Reachable A vp s) (ht : t₁ ≠ t₂)
    (hapart : ∀ j, ¬(ConcernsProduct A vp s m₁ t₁ j ∧ ConcernsProduct A vp s m₂ t₂ j))
    (h₁ : s.parseMsg A vp m₁ t₁ = .ok s₁) (h₁₂ : s₁.parseMsg A vp m₂ t₂ = .ok s₁₂) :
    ∃ s₂ s₂₁, SameInEitherOrder A vp s m₁ t₁ m₂ t₂ s₁ s₁₂ s₂ s₂₁ := by
  have hw := Reachable.wellFormed hr
  obtain ⟨s₂, h₂⟩ := parseMsg_defined h₁₂ s
  -- each command leaves the state alike to the other one
  have halike₁ := alike_parseMsg hw h₂ ht
  have halike₂ := alike_parseMsg hw h₁ ht.symm
  have hK₁ : ∀ j, ConcernsProduct A vp s m₁ t₁ j → ¬footprint A vp s m₂ t₂ (.product j) :=
    fun j hj hj' => hapart j ⟨hj, hj'⟩
  have hK₂ : ∀ j, ConcernsProduct A vp s m₂ t₂ j → ¬footprint A vp s m₁ t₁ (.product j) :=
    fun j hj hj' => hapart j ⟨hj', hj⟩
  obtain ⟨s₂₁, h₂₁, heffect₁⟩ := parseMsg_alike halike₁ hK₁ h₁
  obtain ⟨s₁₂', h₁₂', heffect₂⟩ := parseMsg_alike halike₂ hK₂ h₂
  obtain rfl := Except.ok.inj (h₁₂'.symm.trans h₁₂)
  have hw₁ := (parseMsg_outcome h₁).wellFormed hw
  have hw₂ := (parseMsg_outcome h₂).wellFormed hw
  -- the second command changes no more than it would have at first
  have hframe₁ := parseMsg_frame_alike halike₁ hK₁ hw₂ h₂₁
  have hframe₂ := parseMsg_frame_alike halike₂ hK₂ hw₁ h₁₂
  have hdisj : ∀ k, ¬(footprint A vp s m₁ t₁ k ∧ footprint A vp s m₂ t₂ k) := by
    rintro (j | t) ⟨hk₁, hk₂⟩
    · exact hapart j ⟨hk₁, hk₂⟩
    · exact ht (hk₁.symm.trans hk₂)
  have hviews := commute hdisj hframe₁ hframe₂ heffect₁.outside heffect₂.outside
  refine ⟨s₂, s₂₁, ⟨h₁, h₁₂⟩, ⟨h₂, h₂₁⟩, accepted_alike halike₁ hK₁, accepted_alike halike₂ hK₂,
    heffect₁.written, heffect₂.written, ?_, ?_, ?_, ?_⟩
  · funext b i
    exact orders_of_view (hviews (.product i)) b
  · funext i
    exact prints_of_view (hviews (.product i))
  · funext t
    refine trader_eq (hviews (.counter t)) (fun i => info_of_view (hviews (.product i)) t) ?_
    rw [parseMsg_alive h₁₂, parseMsg_alive h₁, parseMsg_alive h₂₁, parseMsg_alive h₂]
  · obtain ⟨x, hx⟩ := Reachable.fees hr
    have hfees₁₂ := parseMsg_fees h₁₂ (parseMsg_fees h₁ hx)
    have hfees₂₁ := parseMsg_fees h₂₁ (parseMsg_fees h₂ hx)
    rw [hfees₁₂, hfees₂₁, ← heffect₁.written, ← heffect₂.written]
    congr 1
    omega

/-- A message that enters an order concerns its product only. -/
theorem ConcernsProduct.eq_of_enters {msg : List Char} {ind : Fin T} {i j : Fin P}
    (h : ConcernsProduct A vp s msg ind j) (hspace : spaceCount msg ≠ 1)
    (henters : okAnd (s.incoming A vp msg ind) (fun x => x.all fun x => x.2.productID = i)) :
    i = j := by
  cases h with
  | entered hin hj =>
    rw [hin] at henters
    exact (of_decide_eq_true henters).symm.trans hj
  | cancelled htext => exact absurd htext.1 hspace

/-- Trader 0 buys `GPU` from trader 1 while trader 1 buys `Router` from trader 0. -/
theorem commands_commute_gpu :
    ∃ s s₁ s₁₂ s₂ s₂₁ : Exchange 2 3, (initial : Exchange 2 3).runCommands .machine testProducts
        [(1, "SELL 0 GPU 10 30;".toList), (0, "SELL 0 Router 5 20;".toList)] = .ok s ∧
      SameInEitherOrder .machine testProducts s "BUY 1 GPU 4 40;".toList 0
        "BUY 1 Router 7 25;".toList 1 s₁ s₁₂ s₂ s₂₁ := by
  have hrun : okAnd ((initial : Exchange 2 3).runCommands .machine testProducts
      [(1, "SELL 0 GPU 10 30;".toList), (0, "SELL 0 Router 5 20;".toList)])
      (fun s => okAnd (s.incoming .machine testProducts "BUY 1 GPU 4 40;".toList 0)
          (fun x => x.all fun x => decide (x.2.productID = 0)) &&
        okAnd (s.incoming .machine testProducts "BUY 1 Router 7 25;".toList 1)
          (fun x => x.all fun x => decide (x.2.productID = 1)) &&
        okAnd (s.parseMsg .machine testProducts "BUY 1 GPU 4 40;".toList 0) fun s₁ =>
          okAnd (s₁.parseMsg .machine testProducts "BUY 1 Router 7 25;".toList 1) fun _ =>
            true) := by decide +kernel
  obtain ⟨s, h, hrun⟩ := exists_of_okAnd hrun
  rw [Bool.and_eq_true, Bool.and_eq_true] at hrun
  obtain ⟨⟨hin₁, hin₂⟩, hrun⟩ := hrun
  obtain ⟨s₁, h₁, hrun⟩ := exists_of_okAnd hrun
  obtain ⟨s₁₂, h₁₂, -⟩ := exists_of_okAnd hrun
  obtain ⟨s₂, s₂₁, hsame⟩ :=
    commands_commute (Reachable.runCommands Transition.Reachable.init h) (by decide)
      (fun j hj => absurd ((hj.1.eq_of_enters (by decide) hin₁).trans
        (hj.2.eq_of_enters (by decide) hin₂).symm) (by decide)) h₁ h₁₂
  exact ⟨s, s₁, s₁₂, s₂, s₂₁, h, hsame⟩

end Exchange

end PeExchange
