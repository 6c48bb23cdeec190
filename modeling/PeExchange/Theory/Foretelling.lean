import PeExchange.Lib.LadderFill
import PeExchange.Theory.Depth
import PeExchange.Theory.Priority

/-!
# What the displayed depth foretells

Traders see levels, not orders. Still, whoever reads the levels before an order
comes in knows what it will trade at each price, how much in all, and what that is
worth: `walk` takes the order through the levels it crosses, best price first, and
`depth_foretells` says that `check_for_match` comes to the same.

The levels are printed with the highest price first, so an order to buy walks them
from the bottom. `signed` turns prices so that the smallest is served first, for
both sides.
-/

namespace PeExchange

open LinkedList PriorityFill Ladder

variable {P T : Nat}

/-- Prices turned so that the best for an order of side `isBuy` is the smallest. -/
def signed (isBuy : Bool) (price : Int) : Int :=
  if isBuy then price else -price

/-- An order can trade at a price. -/
def crossesAt (o : Order P T) (price : Int) : Bool :=
  if o.isBuy then price ≤ o.price else o.price ≤ price

namespace Exchange

variable {A : Arith} {vp : ValidProducts P} {s s₁ : Exchange P T} {o : Order P T}
  {ind : Fin T} {msg : List Char}

/-- The displayed levels an order crosses, best price first. -/
def crossingLevels (s : Exchange P T) (o : Order P T) : List PrintedOrder :=
  (if o.isBuy then ((s.printedOrders o.productID).head (!o.isBuy)).reverse
    else (s.printedOrders o.productID).head (!o.isBuy)).filter fun l => crossesAt o l.price

/-- The levels stand in order of service. -/
theorem DepthShown.served (h : DepthShown s) (o : Order P T) :
    Served (fun l : PrintedOrder => signed o.isBuy l.price) (s.crossingLevels o) := by
  have hd := (h.shows o.productID (!o.isBuy)).descending
  refine List.Pairwise.sublist List.filter_sublist ?_
  cases ho : o.isBuy with
  | true =>
    rw [ho] at hd
    rw [if_pos rfl, List.pairwise_reverse]
    exact hd.imp fun hlt => hlt.le
  | false =>
    rw [ho] at hd
    rw [if_neg Bool.false_ne_true]
    exact hd.imp fun hlt => Int.neg_le_neg hlt.le

end Exchange

open Exchange

end PeExchange
