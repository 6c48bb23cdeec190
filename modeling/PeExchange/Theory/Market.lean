import PeExchange.Lib.SortedQueue
import PeExchange.Theory.Priority

/-!
# The market

What the exchange is for, said without texts, level lists or searches. A market
keeps the resting orders of each product and side in the order in which they will
trade, best price first and oldest first at one price. Traders act on it by
deeds:

- an order placed under its trader's next identifier, or put in the place of a
  resting order of the trader, trades with the front of the opposite book and what
  is left of it joins the back of its price in its own book (`submit`);
- a withdrawn order leaves its book.

A deed has the answer its trader gets and the deals it makes. `Market.Step` is the
market as a transition system. `Exchange.toMarket` is the market an exchange stands
for: its order lists, each sorted, and its counters.
-/

namespace PeExchange

open PriorityFill SortedQueue

variable {P T : Nat}

/-- The books, each in order of service, and the next identifier of each trader. -/
@[ext] structure Market (P T : Nat) where
  book : Bool → Fin P → List (Order P T)
  nextID : Fin T → Int

/-- What a trader does to the market. The fills are those of the order that was
placed: the resting orders it met and how much it took of each. -/
inductive Deed (P T : Nat) where
  | refused
  | placed (o : Order P T) (fills : List (Order P T × Int))
  | replaced (o : Order P T) (fills : List (Order P T × Int))
  | withdrawn (o : Order P T)

namespace Deed

/-- What the trader is told. -/
def answer : Deed P T → Msg
  | refused => .invalid
  | placed o _ => .accepted o.orderID
  | replaced o _ => .amended o.orderID
  | withdrawn o => .cancelled o.orderID

/-- The deals of a deed: who came, whom it met, and how much changed hands. -/
def deals : Deed P T → List ((Fin T × Int) × Order P T × Int)
  | placed o fills => fills.map fun f => (key o, f.1, f.2)
  | replaced o fills => fills.map fun f => (key o, f.1, f.2)
  | _ => []

end Deed

namespace Market

variable (m : Market P T)

/-- A market without orders. -/
def opened : Market P T where
  book := fun _ _ => []
  nextID := fun _ => 0

/-- Take an order out of its book. -/
def withdraw (o : Order P T) : Market P T :=
  { m with book := fun b i => if b = o.isBuy ∧ i = o.productID then
      (m.book b i).filter fun r => key r ≠ key o else m.book b i }

/-- The opposite book serves an order. -/
def serve (o : Order P T) : List (Order P T × Int) × Int × List (Order P T) :=
  consume (crosses o) Order.quantity withQuantity o.quantity (m.book (!o.isBuy) o.productID)

/-- Serve an order and keep what is left of it. -/
def submit (o : Order P T) : Market P T :=
  { m with book := fun b i =>
      if b = (!o.isBuy) ∧ i = o.productID then (m.serve o).2.2
      else if b = o.isBuy ∧ i = o.productID ∧ 0 < (m.serve o).2.1 then
        enqueue (rank (!b)) (withQuantity o (m.serve o).2.1) (m.book b i)
      else m.book b i }

/-- Count one order of a trader. -/
def issue (t : Fin T) : Market P T :=
  { m with nextID := Function.update m.nextID t (m.nextID t + 1) }

/-- The deeds of a trader. -/
inductive Step (vp : ValidProducts P) :
    Market P T → Fin T × Deed P T → Market P T → Prop where
  | refused {m : Market P T} {t : Fin T} : Step vp m (t, .refused) m
  | placed {m : Market P T} {o : Order P T} (hv : ValidOrder vp o)
      (hid : o.orderID = m.nextID o.traderID) :
      Step vp m (o.traderID, .placed o (m.serve o).1) ((m.submit o).issue o.traderID)
  | replaced {m : Market P T} {r : Order P T} {q p : Int}
      (hr : r ∈ m.book r.isBuy r.productID) (hq : 1 ≤ q ∧ q ≤ 999999)
      (hp : 1 ≤ p ∧ p ≤ 999999) :
      Step vp m
        (r.traderID, .replaced (createAmendedOrder p q r)
          ((m.withdraw r).serve (createAmendedOrder p q r)).1)
        ((m.withdraw r).submit (createAmendedOrder p q r))
  | withdrawn {m : Market P T} {r : Order P T} (hr : r ∈ m.book r.isBuy r.productID) :
      Step vp m (r.traderID, .withdrawn r) (m.withdraw r)

end Market

/-- The market an exchange stands for. -/
def Exchange.toMarket (s : Exchange P T) : Market P T where
  book b i := arrange (rank (!b)) (s.orders b i)
  nextID t := (s.traders t).orderID

/-- The trader whose command is executed. -/
def Action.sender : Action T → Option (Fin T)
  | .command ind _ => some ind
  | .died _ => none

/-- Messages that answer a command. -/
def Msg.isAnswer : Msg → Bool
  | .invalid => true
  | .accepted _ => true
  | .amended _ => true
  | .cancelled _ => true
  | _ => false

/-- The answers among output entries, with the traders who got them. -/
def answersOf (es : List (Event P T)) : List (Fin T × Msg) :=
  (messages es).filter fun m => m.2.isAnswer

/-- The deals reported among output entries. -/
def dealsOf (es : List (Event P T)) : List ((Fin T × Int) × Order P T × Int) :=
  (matchesOf es).map fun m => (key m.1, m.2, tradedQuantity m.1 m.2)

end PeExchange
