import PeExchange.Theory.Books
import PeExchange.Lib.Ladder

/-!
# The displayed depth

The level lists are ladders of the resting orders.

- `addToPrints_eq`, `deleteOrderPrints_eq`: on descending lists whose cached
  length is current, the two hand-written list traversals are the ladder
  operations `upsert` and `adjust`.
- `Fits`: the accumulators hold what rests at each level. Exact ones always do.
- `DepthShown`: every level list aggregates the order list of its side and
  product, and its cached length is current. Inserting, unlinking and reducing an
  order keep it as long as the lists fit.
-/

namespace PeExchange

open CArith LinkedList Ladder

variable {P T : Nat}

/-! ## What an accumulator holds -/

/-- The numbers up to `n` are stored unchanged in an `int` accumulator. -/
def Arith.Holds (A : Arith) (n : Int) : Prop :=
  ∀ x, 0 ≤ x → x ≤ n → A.int x = x

theorem Arith.holds_exact (n : Int) : Arith.exact.Holds n :=
  fun _ _ _ => rfl

theorem Arith.holds_machine {n : Int} (h : n ≤ 2147483647) : Arith.machine.Holds n :=
  fun _ h₀ hx => narrow_32_of_fits (by omega) (by omega)

theorem Arith.Holds.mono {A : Arith} {m n : Int} (h : A.Holds n) (hmn : m ≤ n) : A.Holds m :=
  fun x h₀ hx => h x h₀ (hx.trans hmn)

/-- The quantity resting at a price. -/
abbrev restingAt (orders : List (Order P T)) (price : Int) : Int :=
  sumAt Order.price Order.quantity orders price

theorem restingAt_cons (r : Order P T) (l : List (Order P T)) (p : Int) :
    restingAt (r :: l) p = (if r.price = p then r.quantity else 0) + restingAt l p :=
  sumAt_cons r l p

/-- Removing and reducing orders leaves no more at a price. -/
theorem Remnant.restingAt_le {l' l : List (Order P T)} (h : Remnant l' l)
    (hpos : ∀ r ∈ l, 0 < r.quantity) (p : Int) : restingAt l' p ≤ restingAt l p := by
  induction h with
  | nil => exact sumAt_nonneg hpos p
  | @cons r' r l' l hr _ ih =>
    obtain ⟨q, rfl, hq, -⟩ := hr
    have hl := ih fun b hb => hpos b (List.mem_cons_of_mem _ hb)
    rw [restingAt_cons, restingAt_cons, withQuantity_price, withQuantity_quantity]
    split <;> omega
  | @cons_right r l' l _ ih =>
    have hr := hpos r List.mem_cons_self
    have hl := ih fun b hb => hpos b (List.mem_cons_of_mem _ hb)
    rw [restingAt_cons]
    split <;> omega

/-- The levels show the resting orders. -/
abbrev Shows (levels : List PrintedOrder) (orders : List (Order P T)) : Prop :=
  Aggregates PrintedOrder.price PrintedOrder.quantity PrintedOrder.numOrders
    Order.price Order.quantity levels orders

/-- A level with one more order. -/
def bumped (o : Order P T) (l : PrintedOrder) : PrintedOrder :=
  { l with quantity := l.quantity + o.quantity, numOrders := l.numOrders + 1 }

/-- A level with one order less. -/
def lessened (o : Order P T) (l : PrintedOrder) : PrintedOrder :=
  { l with quantity := l.quantity - o.quantity, numOrders := l.numOrders - 1 }

/-- The same as the accumulators store them. -/
def storedIn (A : Arith) (l : PrintedOrder) : PrintedOrder :=
  { l with quantity := A.int l.quantity, numOrders := A.int l.numOrders }

/-! ## The traversals -/

theorem addFrom_eq (A : Arith) (o : Order P T) :
    ∀ (rest : List PrintedOrder) (temp : PrintedOrder),
      Descending PrintedOrder.price (temp :: rest) → ¬temp.price < o.price →
      addFrom A o temp rest = upsert PrintedOrder.price o.price (createPrintedOrder o)
        (fun l => storedIn A (bumped o l)) (temp :: rest)
  | [], temp, _, hge => by
    rw [upsert, if_neg hge, addFrom, addAt]
    -- the search ends at the last level
    by_cases heq : temp.price = o.price
    · rw [if_pos heq, if_pos heq]
      rfl
    · rw [if_neg heq, if_neg heq, if_pos (by omega), upsert]
  | next :: rest, temp, hd, hge => by
    obtain ⟨htemp, hrest⟩ := List.pairwise_cons.mp hd
    have hlt := htemp next List.mem_cons_self
    rw [upsert, if_neg hge, addFrom]
    by_cases hnext : next.price ≥ o.price
    · -- the search goes on
      rw [if_pos hnext, if_neg (by omega), addFrom_eq A o rest next hrest (by omega)]
    · rw [if_neg hnext, addAt]
      by_cases heq : temp.price = o.price
      · rw [if_pos heq, if_pos heq]
        rfl
      · rw [if_neg heq, if_neg heq, if_pos (by omega), upsert, if_pos (by omega)]

/-- **`add_to_prints` changes the order's level or makes one at its place.** -/
theorem addToPrints_eq (A : Arith) (o : Order P T) {levels : List PrintedOrder}
    (hd : Descending PrintedOrder.price levels) :
    addToPrints A levels o = upsert PrintedOrder.price o.price (createPrintedOrder o)
      (fun l => storedIn A (bumped o l)) levels := by
  cases levels with
  | nil => rfl
  | cons head rest =>
    show (if head.price < o.price then createPrintedOrder o :: head :: rest
      else addFrom A o head rest) = _
    by_cases hlt : head.price < o.price
    · rw [upsert, if_pos hlt, if_pos hlt]
    · rw [if_neg hlt, addFrom_eq A o rest head hd hlt]

namespace PrintedOrderbook

@[simp] theorem setHead_head (b : PrintedOrderbook) (isBuy : Bool) (l : List PrintedOrder) :
    (b.setHead isBuy l).head = Function.update b.head isBuy l := rfl

@[simp] theorem setHead_len (b : PrintedOrderbook) (isBuy : Bool) (l : List PrintedOrder) :
    (b.setHead isBuy l).len = b.len := rfl

@[simp] theorem setHead_setHead (b : PrintedOrderbook) (isBuy : Bool)
    (l l' : List PrintedOrder) : (b.setHead isBuy l).setHead isBuy l' = b.setHead isBuy l' := by
  simp [setHead]

end PrintedOrderbook

/-- The search finds the level before the one to unlink. -/
theorem unlinkFrom_eq {price : Int} {next rest : List PrintedOrder} {node : PrintedOrder}
    (hnode : node.price = price) :
    ∀ seen : List PrintedOrder, seen ≠ [] → (∀ l ∈ seen, l.price ≠ price) →
      unlinkFrom price next (seen ++ node :: rest) = seen ++ next
  | [], hne, _ => absurd rfl hne
  | [x], _, _ => by
    -- `x` is the level before the node
    show unlinkFrom price next (x :: node :: rest) = _
    rw [unlinkFrom, if_neg (not_not.mpr hnode)]
    rfl
  | x :: y :: seen, _, hall => by
    have hy : y.price ≠ price := hall y (by simp)
    have ih := @unlinkFrom_eq price next rest node hnode (y :: seen) (by simp)
      fun l hl => hall l (List.mem_cons_of_mem _ hl)
    show unlinkFrom price next (x :: y :: (seen ++ node :: rest)) = _
    rw [unlinkFrom, if_pos hy]
    exact congrArg (x :: ·) ih

/-- **`remove_from_products` unlinks the level**, given the current length. -/
theorem removeFromProducts_eq {b : PrintedOrderbook} {isBuy : Bool} {node : PrintedOrder}
    {seen next : List PrintedOrder} (hlen : b.len isBuy = (seen ++ node :: next).length)
    (hall : ∀ l ∈ seen, l.price ≠ node.price) :
    removeFromProducts ⟨seen.length, node⟩ (b.setHead isBuy (seen ++ node :: next)) isBuy =
      b.setHead isBuy (seen ++ next) := by
  rw [List.length_append, List.length_cons] at hlen
  rw [removeFromProducts]
  simp only [PrintedOrderbook.setHead_len, PrintedOrderbook.setHead_head, Function.update_self,
    PrintedOrderbook.setHead_setHead]
  -- the source tells a single level by the cached length, a first one by the pointer
  by_cases hone : b.len isBuy = 1
  · have hseen : seen = [] := List.length_eq_zero_iff.mp (by omega)
    have hnext : next = [] := List.length_eq_zero_iff.mp (by omega)
    rw [if_pos hone, hseen, hnext]
    rfl
  · rw [if_neg hone]
    by_cases hzero : seen.length = 0
    · rw [if_pos hzero, List.length_eq_zero_iff.mp hzero]
      rfl
    · have hdrop : (seen ++ node :: next).drop (seen.length + 1) = next := by simp
      rw [if_neg hzero, hdrop, unlinkFrom_eq rfl seen (fun h => hzero (by rw [h]; rfl)) hall]

/-- The loop of `delete_order_prints` where no further level has the price. -/
theorem deleteFrom_of_not_mem (A : Arith) (b : PrintedOrderbook) (o : Order P T) :
    ∀ levels seen : List PrintedOrder, (∀ l ∈ levels, l.price ≠ o.price) →
      deleteFrom A b o seen levels = b.setHead o.isBuy (seen ++ levels)
  | [], seen, _ => by
    rw [deleteFrom, List.append_nil]
  | temp :: next, seen, hall => by
    rw [deleteFrom, if_neg (hall temp List.mem_cons_self).symm,
      deleteFrom_of_not_mem A b o next (seen ++ [temp]) fun l hl =>
        hall l (List.mem_cons_of_mem _ hl), List.append_assoc]
    rfl

/-- The loop of `delete_order_prints`, from any level on. -/
theorem deleteFrom_eq (A : Arith) {b : PrintedOrderbook} (o : Order P T) :
    ∀ (levels seen : List PrintedOrder), b.len o.isBuy = (seen ++ levels).length →
      Descending PrintedOrder.price levels → (∀ l ∈ seen, l.price ≠ o.price) →
      deleteFrom A b o seen levels = b.setHead o.isBuy (seen ++
        adjust PrintedOrder.price o.price
          (unlessEmpty PrintedOrder.quantity fun l => storedIn A (lessened o l)) levels)
  | [], seen, _, _, _ => by
    rw [deleteFrom, adjust, List.append_nil]
  | temp :: next, seen, hlen, hd, hall => by
    obtain ⟨htemp, hnext⟩ := List.pairwise_cons.mp hd
    have hlen' : b.len o.isBuy = ((seen ++ [temp]) ++ next).length := by
      rw [hlen]
      simp
    by_cases hp : o.price = temp.price
    · -- no later level has this price
      have hlater : ∀ l ∈ next, l.price ≠ o.price := by
        intro l hl
        have := htemp l hl
        omega
      rw [adjust, if_pos hp.symm]
      by_cases hzero : (storedIn A (lessened o temp)).quantity = 0
      · -- the level is unlinked and the loop ends
        have hrem := @removeFromProducts_eq b o.isBuy (storedIn A (lessened o temp)) seen next
          (by rw [hlen]; simp) fun l hl => hp ▸ hall l hl
        rw [unlessEmpty, if_pos hzero, deleteFrom, if_pos hp]
        show (if (storedIn A (lessened o temp)).quantity = 0 then _ else _) = _
        rw [if_pos hzero]
        exact hrem
      · -- the loop goes on and changes nothing
        rw [unlessEmpty, if_neg hzero, deleteFrom, if_pos hp]
        show (if (storedIn A (lessened o temp)).quantity = 0 then _ else _) = _
        rw [if_neg hzero]
        exact (deleteFrom_of_not_mem A b o next _ hlater).trans
          (congrArg _ (List.append_assoc _ _ _))
    · have hall' : ∀ l ∈ seen ++ [temp], l.price ≠ o.price := by
        intro l hl
        rcases List.mem_append.mp hl with hl | hl
        · exact hall l hl
        · obtain rfl := List.mem_singleton.mp hl
          exact Ne.symm hp
      rw [adjust, if_neg (Ne.symm hp), deleteFrom, if_neg hp,
        deleteFrom_eq A o next (seen ++ [temp]) hlen' hnext hall', List.append_assoc]
      rfl

/-- **`delete_order_prints` takes the order out of its level**, and drops the level
when nothing is left in it. -/
theorem deleteOrderPrints_eq (A : Arith) {b : PrintedOrderbook} (o : Order P T)
    (hlen : b.len o.isBuy = (b.head o.isBuy).length)
    (hd : Descending PrintedOrder.price (b.head o.isBuy)) :
    deleteOrderPrints A b o = b.setHead o.isBuy
      (adjust PrintedOrder.price o.price
        (unlessEmpty PrintedOrder.quantity fun l => storedIn A (lessened o l))
        (b.head o.isBuy)) :=
  deleteFrom_eq A o _ [] hlen hd fun _ h => absurd h List.not_mem_nil

/-- Where the accumulators hold the total with the order, its level is computed
exactly. -/
theorem storedIn_bumped {A : Arith} {o : Order P T} {levels : List PrintedOrder}
    {pre post : List (Order P T)} (h : Shows levels (pre ++ post))
    (hpos : ∀ r ∈ pre ++ o :: post, 0 < r.quantity)
    (hfit : A.Holds (restingAt (pre ++ o :: post) o.price)) {l : PrintedOrder} (hl : l ∈ levels)
    (hp : l.price = o.price) : storedIn A (bumped o l) = bumped o l := by
  have hnn := h.positive l hl
  have hq := (h.descending.sumAt_eq PrintedOrder.quantity hl).symm.trans (h.weights l.price)
  have hn := (h.descending.sumAt_eq PrintedOrder.numOrders hl).symm.trans (h.counts l.price)
  have hle : sumAt Order.price (fun _ => 1) (pre ++ o :: post) o.price ≤
      sumAt Order.price Order.quantity (pre ++ o :: post) o.price := sumAt_one_le hpos o.price
  have hn₀ : 0 ≤ sumAt Order.price (fun _ : Order P T => 1) (pre ++ post) l.price :=
    sumAt_nonneg (fun _ _ => Int.one_pos) _
  have ho := hpos o (List.mem_append_right _ List.mem_cons_self)
  rw [restingAt, sumAt_middle, if_pos rfl, ← hp, ← hq] at hfit
  rw [sumAt_middle, sumAt_middle, if_pos rfl, if_pos rfl, ← hp, ← hq, ← hn] at hle
  rw [storedIn, bumped, hfit _ (by omega) (le_refl _), hfit _ (by omega) hle]

/-- Taking an order out of its level never leaves the range of its total. -/
theorem storedIn_lessened {A : Arith} {o : Order P T} {levels : List PrintedOrder}
    {pre post : List (Order P T)} (h : Shows levels (pre ++ o :: post))
    (hpos : ∀ r ∈ pre ++ o :: post, 0 < r.quantity)
    (hfit : A.Holds (restingAt (pre ++ o :: post) o.price)) {l : PrintedOrder} (hl : l ∈ levels)
    (hp : l.price = o.price) : storedIn A (lessened o l) = lessened o l := by
  have hq := (h.descending.sumAt_eq PrintedOrder.quantity hl).symm.trans (h.weights l.price)
  have hn := (h.descending.sumAt_eq PrintedOrder.numOrders hl).symm.trans (h.counts l.price)
  have hle : sumAt Order.price (fun _ => 1) (pre ++ o :: post) o.price ≤
      sumAt Order.price Order.quantity (pre ++ o :: post) o.price := sumAt_one_le hpos o.price
  have hrest : ∀ r ∈ pre ++ post, 0 < r.quantity := fun r hr =>
    hpos r (by simp at hr ⊢; tauto)
  have hq₀ : 0 ≤ sumAt Order.price Order.quantity (pre ++ post) o.price :=
    sumAt_nonneg hrest o.price
  have hn₀ : 0 ≤ sumAt Order.price (fun _ : Order P T => 1) (pre ++ post) o.price :=
    sumAt_nonneg (fun _ _ => Int.one_pos) _
  have ho := hpos o (List.mem_append_right _ List.mem_cons_self)
  rw [hp] at hq hn
  rw [restingAt, ← hq] at hfit
  rw [← hq, ← hn] at hle
  rw [sumAt_middle, if_pos rfl] at hq hn
  have hq' : A.int (l.quantity - o.quantity) = l.quantity - o.quantity :=
    hfit _ (by omega) (by omega)
  have hn' : A.int (l.numOrders - 1) = l.numOrders - 1 := hfit _ (by omega) (by omega)
  rw [storedIn, lessened, hq', hn']

namespace Exchange

variable {A : Arith} {vp : ValidProducts P} {s s' s₁ s₂ : Exchange P T} {ind : Fin T}
  {o o' : Order P T} {c : Cell (Order P T)} {ms : List (Order P T × Order P T)} {ret : Int}
  {msg : List Char}

/-- The accumulators hold what rests at every price. -/
def Fits (A : Arith) (s : Exchange P T) : Prop :=
  ∀ b i p, A.Holds (restingAt (s.orders b i) p)

theorem fits_exact (s : Exchange P T) : Fits .exact s :=
  fun _ _ _ => Arith.holds_exact _

theorem Fits.shrunk (h : Fits A s) (hw : WellFormed vp s) (hs : Shrunk s s') : Fits A s' :=
  fun b i p => (h b i p).mono ((hs.orders b i).restingAt_le
    (fun r hr => (hw.valid b i r hr).quantity_pos) p)

/-- Every level list shows the orders of its side and product, and `buy_len` and
`sell_len` are current. -/
structure DepthShown (s : Exchange P T) : Prop where
  shows : ∀ i b, Shows ((s.printedOrders i).head b) (s.orders b i)
  len : ∀ i b, (s.printedOrders i).len b = ((s.printedOrders i).head b).length

/-- A change of the levels and orders of one side and product. -/
theorem DepthShown.change (h : DepthShown s) {b : Bool} {i : Fin P}
    {levels : List PrintedOrder}
    (hbook : s'.printedOrders = Function.update s.printedOrders i
      (((s.printedOrders i).setHead b levels).setLen b))
    (hother : ∀ b' i', ¬(b' = b ∧ i' = i) → s'.orders b' i' = s.orders b' i')
    (hshows : Shows levels (s'.orders b i)) : DepthShown s' := by
  -- the changed side of the changed product, or any other
  have hcase : ∀ i' b', (b' = b ∧ i' = i ∧ (s'.printedOrders i').head b' = levels ∧
        (s'.printedOrders i').len b' = levels.length) ∨
      (¬(b' = b ∧ i' = i) ∧
        (s'.printedOrders i').head b' = (s.printedOrders i').head b' ∧
        (s'.printedOrders i').len b' = (s.printedOrders i').len b') := by
    intro i' b'
    rw [hbook]
    by_cases hi : i' = i
    · subst hi
      rw [Function.update_self]
      by_cases hb : b' = b
      · subst hb
        exact .inl ⟨rfl, rfl, by simp [PrintedOrderbook.setLen],
          by simp [PrintedOrderbook.setLen]⟩
      · exact .inr ⟨fun h => hb h.1, by simp [PrintedOrderbook.setLen, hb],
          by simp [PrintedOrderbook.setLen, hb]⟩
    · rw [Function.update_of_ne hi]
      exact .inr ⟨fun h => hi h.2, rfl, rfl⟩
  constructor
  · intro i' b'
    rcases hcase i' b' with ⟨rfl, rfl, hhead, -⟩ | ⟨hne, hhead, -⟩
    · rw [hhead]
      exact hshows
    · rw [hhead, hother b' i' hne]
      exact h.shows i' b'
  · intro i' b'
    rcases hcase i' b' with ⟨-, -, hhead, hlen⟩ | ⟨-, hhead, hlen⟩
    · rw [hhead, hlen]
    · rw [hhead, hlen]
      exact h.len i' b'

/-- An order joins its list and its level. -/
theorem DepthShown.insert (h : DepthShown s) (pre post : List (Order P T))
    (hprint : s'.printedOrders = (s.addOrderPrints A o).printedOrders)
    (hbefore : s.orders o.isBuy o.productID = pre ++ post)
    (hafter : s'.orders o.isBuy o.productID = pre ++ o :: post)
    (hother : ∀ b i, ¬(b = o.isBuy ∧ i = o.productID) → s'.orders b i = s.orders b i)
    (hpos : ∀ r ∈ s'.orders o.isBuy o.productID, 0 < r.quantity)
    (hfit : A.Holds (restingAt (s'.orders o.isBuy o.productID) o.price)) : DepthShown s' := by
  have hshows := h.shows o.productID o.isBuy
  rw [hbefore] at hshows
  rw [hafter] at hpos hfit
  refine h.change hprint hother ?_
  rw [addToPrints_eq A o hshows.descending, hafter,
    upsert_congr fun l hl hp => storedIn_bumped hshows hpos hfit hl hp]
  exact hshows.insert (hpos o (List.mem_append_right _ List.mem_cons_self)) ⟨rfl, rfl, rfl⟩
    fun _ => ⟨rfl, rfl, rfl⟩

/-- An order leaves its list and its level. -/
theorem DepthShown.remove (h : DepthShown s) (pre post : List (Order P T))
    (hprint : s'.printedOrders = (s.cancelOrderPrints A o).printedOrders)
    (hbefore : s.orders o.isBuy o.productID = pre ++ o :: post)
    (hafter : s'.orders o.isBuy o.productID = pre ++ post)
    (hother : ∀ b i, ¬(b = o.isBuy ∧ i = o.productID) → s'.orders b i = s.orders b i)
    (hpos : ∀ r ∈ s.orders o.isBuy o.productID, 0 < r.quantity)
    (hfit : A.Holds (restingAt (s.orders o.isBuy o.productID) o.price)) : DepthShown s' := by
  have hshows := h.shows o.productID o.isBuy
  have hdel := deleteOrderPrints_eq A o (h.len o.productID o.isBuy) hshows.descending
  -- the traversal is an `adjust` before its effect on the totals is known
  rw [cancelOrderPrints, setPrints_printedOrders, hdel] at hprint
  rw [hbefore] at hshows hpos hfit
  have hcongr : ∀ l ∈ (s.printedOrders o.productID).head o.isBuy, l.price = o.price →
      unlessEmpty PrintedOrder.quantity (fun l => storedIn A (lessened o l)) l =
        unlessEmpty PrintedOrder.quantity (lessened o) l := by
    intro l hl hp
    rw [unlessEmpty, unlessEmpty, storedIn_lessened hshows hpos hfit hl hp]
  rw [adjust_congr hcongr] at hprint
  refine h.change hprint hother ?_
  rw [hafter]
  exact hshows.remove hpos fun _ => ⟨rfl, rfl, rfl⟩

/-- Unlinking a resting order, as matching, amending and cancelling do. -/
theorem DepthShown.unlink (h : DepthShown s) (hw : WellFormed vp s) (hfit : Fits A s)
    (hin : c.In (s.orders c.val.isBuy c.val.productID)) :
    DepthShown ((s.cancelOrderPrints A c.val).deleteOrder c c.val.isBuy c.val.productID) := by
  obtain ⟨pre, post, hl, -, hdel, -⟩ := hin.split
  refine h.remove pre post rfl hl ?_ (fun b i hne => if_neg hne)
    (fun r hr => (hw.valid _ _ r hr).quantity_pos) (hfit _ _ _)
  rw [deleteOrder, setOrders_orders, if_pos ⟨rfl, rfl⟩]
  exact hdel

/-- **A match keeps the depth.** -/
theorem DepthShown.execMatch (h : DepthShown s) (hw : WellFormed vp s) (hfit : Fits A s)
    (hq : 0 < o.quantity) (hf : s.findBest o = some c) : DepthShown (s.execMatch A o c) := by
  obtain ⟨hside, hprod⟩ := hw.placed _ _ _ (findBest_in hf).mem
  have hin := hw.best_in hf
  have hpaid : DepthShown (s.settle A o c.val) := ⟨h.shows, h.len⟩
  have hpaidw : WellFormed vp (s.settle A o c.val) :=
    hw.shrunk (.of_eq rfl (settle_orderID _ _ _ _))
  have hgone := hpaid.unlink (A := A) hpaidw hfit hin
  have hs := execMatch_shrunk (A := A) hq hf
  have hfit' := hfit.shrunk hw hs
  have hw' := hw.shrunk hs
  rw [Exchange.execMatch, ← hside, ← hprod] at hfit' hw' ⊢
  split
  · exact hgone
  · rename_i hlt
    rw [if_neg hlt] at hfit' hw'
    -- the reduced order takes the place of the one unlinked
    obtain ⟨pre, post, hl, -, hdel, hstore⟩ := hin.split
    refine hgone.insert (o := withQuantity c.val (c.val.quantity - o.quantity)) pre post rfl
      ?_ ?_ (fun b i hne => ?_) (fun r hr => (hw'.valid _ _ r hr).quantity_pos) (hfit' _ _ _)
    · rw [deleteOrder, setOrders_orders]
      exact (if_pos ⟨rfl, rfl⟩).trans hdel
    · rw [addOrderPrints_orders, storeOrder, setOrders_orders]
      exact (if_pos ⟨rfl, rfl⟩).trans (hstore _)
    · rw [addOrderPrints_orders, storeOrder, deleteOrder, setOrders_orders, setOrders_orders]
      exact (if_neg hne).trans (if_neg hne).symm

/-- Matching only takes from the levels, so it keeps the depth. -/
theorem Trades.depthShown (ht : Trades A s o ms s' o' ret) (h : DepthShown s)
    (hw : WellFormed vp s) (hfit : Fits A s) : DepthShown s' := by
  induction ht with
  | stop => exact h
  | last hq hf _ => exact h.execMatch hw hfit hq hf
  | more hq hf _ _ ih =>
    have hs := execMatch_shrunk (A := A) hq hf
    exact ih (h.execMatch hw hfit hq hf) (hw.shrunk hs) (hfit.shrunk hw hs)

theorem Enters.fits (he : Enters A vp s ind s₁ o) (hw : WellFormed vp s) (hfit : Fits A s) :
    Fits A s₁ :=
  fun b i p => (hfit b i p).mono ((Remnant.of_sublist (he.orders_sublist b i)).restingAt_le
    (fun r hr => (hw.valid b i r hr).quantity_pos) p)

theorem Enters.depthShown (he : Enters A vp s ind s₁ o) (h : DepthShown s)
    (hw : WellFormed vp s) (hfit : Fits A s) : DepthShown s₁ := by
  cases he with
  | new => exact ⟨h.shows, h.len⟩
  | @amended c id q p hc _ _ =>
    have hun := h.unlink hw hfit (hw.findOrder_in hc)
    exact ⟨hun.shows, hun.len⟩

/-- **A command keeps the depth** when the lists fit before it and after it. -/
theorem Outcome.depthShown (ho : Outcome A vp s msg ind s') (h : DepthShown s)
    (hw : WellFormed vp s) (hfit : Fits A s) (hfit' : Fits A s') : DepthShown s' := by
  have hw' := ho.wellFormed hw
  cases ho with
  | rejected => exact ⟨h.shows, h.len⟩
  | @traded s₁ s₂ o o' ms ret hin ht =>
    have he := incoming_enters hin
    obtain ⟨hw₁, -⟩ := he.wellFormed hw
    have h₂ := ht.depthShown (he.depthShown h hw hfit) hw₁ (he.fits hw hfit)
    rcases ht.ret_cases with rfl | ⟨rfl, -, -⟩
    · exact h₂
    · refine h₂.insert (s₂.orders o'.isBuy o'.productID) [] rfl (List.append_nil _).symm
        (if_pos ⟨rfl, rfl⟩) (fun b i hne => if_neg hne)
        (fun r hr => (hw'.valid _ _ r hr).quantity_pos) (hfit' _ _ _)
  | @cancelled c id _ hc =>
    have hun := h.unlink hw hfit (hw.findOrder_in hc)
    exact ⟨hun.shows, hun.len⟩

end Exchange

theorem Reachable.depthShown {vp : ValidProducts P} {s : Exchange P T}
    (h : Reachable .exact vp s) : s.DepthShown := by
  refine Transition.Reachable.invariant (I := Exchange.DepthShown) ⟨fun _ _ => ?_, fun _ _ => rfl⟩
    (fun s a s' hr hi hs => ?_) h
  · exact Aggregates.nil
  · cases hs with
    | command hp =>
      exact (Exchange.parseMsg_outcome hp).depthShown hi (Reachable.wellFormed hr)
        (Exchange.fits_exact _) (Exchange.fits_exact _)
    | died => exact ⟨hi.shows, hi.len⟩

/-- **The displayed depth is the aggregation of the resting orders.** The levels
of a product and side are strictly descending in price; there is one at a price
exactly when an order rests at it; it shows the sum and the number of these
orders; and the cached length is the number of levels. -/
theorem depth_aggregates {vp : ValidProducts P} {s : Exchange P T}
    (h : Reachable .exact vp s) (i : Fin P) (b : Bool) :
    ((s.printedOrders i).head b).Pairwise (fun l l' => l'.price < l.price) ∧
    (∀ p, (∃ l ∈ (s.printedOrders i).head b, l.price = p) ↔ ∃ o ∈ s.orders b i, o.price = p) ∧
    (∀ l ∈ (s.printedOrders i).head b,
      l.quantity = (((s.orders b i).filter fun o => o.price = l.price).map Order.quantity).sum ∧
      l.numOrders = ((s.orders b i).filter fun o => o.price = l.price).length) ∧
    (s.printedOrders i).len b = ((s.printedOrders i).head b).length := by
  have hshown := Reachable.depthShown h
  have hshows := hshown.shows i b
  have hpos : ∀ o ∈ s.orders b i, 0 < o.quantity := fun o ho =>
    ((Reachable.wellFormed h).valid b i o ho).quantity_pos
  exact ⟨hshows.descending, hshows.exists_level hpos, fun l hl => hshows.level hl,
    hshown.len i b⟩

theorem depth_aggregates_gpu :
    ∃ s, (initial : Exchange 2 3).runCommands .exact testProducts
        [(1, "SELL 0 GPU 10 30;".toList), (2, "SELL 0 GPU 5 30;".toList),
          (0, "BUY 0 GPU 12 40;".toList)] = .ok s ∧
      ((s.printedOrders 0).head false).Pairwise (fun l l' => l'.price < l.price) ∧
      (∀ p, (∃ l ∈ (s.printedOrders 0).head false, l.price = p) ↔
        ∃ o ∈ s.orders false 0, o.price = p) ∧
      (∀ l ∈ (s.printedOrders 0).head false,
        l.quantity =
          (((s.orders false 0).filter fun o => o.price = l.price).map Order.quantity).sum ∧
        l.numOrders = ((s.orders false 0).filter fun o => o.price = l.price).length) ∧
      (s.printedOrders 0).len false = ((s.printedOrders 0).head false).length := by
  have hrun : okAnd ((initial : Exchange 2 3).runCommands .exact testProducts
      [(1, "SELL 0 GPU 10 30;".toList), (2, "SELL 0 GPU 5 30;".toList),
        (0, "BUY 0 GPU 12 40;".toList)]) (fun _ => true) := by decide +kernel
  obtain ⟨s, h, -⟩ := exists_of_okAnd hrun
  exact ⟨s, h, depth_aggregates (Reachable.runCommands Transition.Reachable.init h) 0 false⟩

end PeExchange
