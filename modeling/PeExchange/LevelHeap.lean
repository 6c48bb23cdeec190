import PeExchange.HeapModel
import PeExchange.Lib.SinglyLinked

/-!
# The level lists in a heap (pe_orderbook.c:88–329, pe_setup.c:38–105)

The functions that handle levels, once more, with pointers: a level is a node
`struct printed_order` that is allocated, linked into a list by its `next`, read
and written through pointers, and freed. Each function of `Orderbook` that takes
a level list has its counterpart of the same name here.

- A side of a product is a pair `k`, as in `HeapExchange.books`.
- A `PrintCall` is a call of `add_order_prints` or `cancel_order_prints`.
  `Exchange.printCalls` has the calls that a command makes, in their order; no
  function reads the levels otherwise.
- A loop along a list may take as many steps as there are levels in the heap.
- `freeAll` frees the lists of orders and of levels. The other blocks that
  `free_all` frees are arrays and records of their own; they are left out.
-/

namespace PeExchange

open Memory SinglyLinked

variable {P T : Nat}

/-- `struct printed_order`. -/
abbrev LevelNode := SinglyLinked.Node PrintedOrder

/-- `printed_orders`: `head_buy`, `head_sell`, `buy_len` and `sell_len` of every
product, and the nodes. -/
structure LevelHeap (P : Nat) where
  head : Bool × Fin P → Ptr
  len : Bool × Fin P → Nat
  heap : Heap LevelNode

/-- After `initialise_product_list` (pe_setup.c:153–165). -/
def initialLevels : LevelHeap P where
  head := fun _ => none
  len := fun _ => 0
  heap := Heap.empty

/-- A call of a function that changes the levels. -/
inductive PrintCall (P T : Nat) where
  /-- `add_order_prints`. -/
  | add (o : Order P T)
  /-- `cancel_order_prints`. -/
  | cancel (o : Order P T)
deriving DecidableEq, Repr

namespace LevelHeap

variable (A : Arith) (s : LevelHeap P)

/-! ## Access -/

/-- The node a pointer refers to. -/
def load (p : Ptr) : Except HeapFault LevelNode :=
  (s.heap.load p).mapError .memory

/-- What changes the nodes only. -/
def onHeap (r : Except MemFault (Heap LevelNode)) : Except HeapFault (LevelHeap P) := do
  pure { s with heap := ← r.mapError .memory }

def setHead (k : Bool × Fin P) (p : Ptr) : LevelHeap P :=
  { s with head := Function.update s.head k p }

/-- `create_printed_order` (pe_orderbook.c:89–96). -/
def create (currOrder : Order P T) : LevelHeap P × Ptr :=
  ({ s with heap := s.heap.alloc ⟨createPrintedOrder currOrder, none⟩ }, some s.heap.next)

/-! ## Adding an order -/

/-- The loop of `set_len`. -/
def countFrom : Nat → Nat → Ptr → Except HeapFault Nat
  | _, ctr, none => pure ctr
  | 0, _, some _ => throw (.other .noFuel)
  | fuel + 1, ctr, some temp => do
    let node ← s.load (some temp)
    countFrom fuel (ctr + 1) node.next

/-- `set_len` (pe_orderbook.c:115–133). -/
def setLen (k : Bool × Fin P) : Except HeapFault (LevelHeap P) := do
  let ctr ← s.countFrom s.heap.next 0 (s.head k)
  pure { s with len := Function.update s.len k ctr }

/-- The search of `add_to_prints` and that of `remove_from_products`: `temp` moves
on as long as there is a next level and `goOn` of its price. -/
def searchFrom (goOn : Int → Bool) : Nat → Ptr → Except HeapFault Ptr
  | 0, _ => throw (.other .noFuel)
  | fuel + 1, temp => do
    let node ← s.load temp
    match node.next with
    | none => pure temp
    | some next =>
      let succ ← s.load (some next)
      if goOn succ.val.price then searchFrom goOn fuel (some next) else pure temp

/-- A new level in front of the others (pe_orderbook.c:144–147). -/
def addInFront (k : Bool × Fin P) (currOrder : Order P T) :
    Except HeapFault (LevelHeap P) := do
  let (s, newOrder) := s.create currOrder
  let s ← s.onHeap (setNext s.heap newOrder (s.head k))
  pure (s.setHead k newOrder)

/-- A new level behind `temp` (pe_orderbook.c:160–162). -/
def addBehind (temp : Ptr) (currOrder : Order P T) : Except HeapFault (LevelHeap P) := do
  let (s, newOrder) := s.create currOrder
  let node ← s.load temp
  let s ← s.onHeap (setNext s.heap newOrder node.next)
  s.onHeap (setNext s.heap temp newOrder)

/-- What `add_to_prints` does where its search stops (pe_orderbook.c:154–164). -/
def addAt (temp : Ptr) (currOrder : Order P T) : Except HeapFault (LevelHeap P) := do
  let node ← s.load temp
  if node.val.price = currOrder.price then
    s.onHeap (setVal s.heap temp
      { node.val with
        quantity := A.int (node.val.quantity + currOrder.quantity)
        numOrders := A.int (node.val.numOrders + 1) })
  else if node.val.price > currOrder.price then s.addBehind temp currOrder
  else pure s

/-- `add_to_prints` (pe_orderbook.c:138–191). -/
def addToPrints (k : Bool × Fin P) (currOrder : Order P T) :
    Except HeapFault (LevelHeap P) :=
  match s.head k with
  | none => s.addInFront k currOrder
  | some head => do
    let node ← s.load (some head)
    if node.val.price < currOrder.price then s.addInFront k currOrder
    else
      let temp ← s.searchFrom (fun price => price ≥ currOrder.price) s.heap.next (some head)
      s.addAt A temp currOrder

/-- `add_order_prints` (pe_orderbook.c:194–204). -/
def addOrderPrints (currOrder : Order P T) : Except HeapFault (LevelHeap P) := do
  let s ← s.addToPrints A (currOrder.isBuy, currOrder.productID) currOrder
  s.setLen (currOrder.isBuy, currOrder.productID)

/-! ## Taking an order out -/

/-- `remove_from_products` (pe_orderbook.c:241–277). -/
def removeFromProducts (node : Ptr) (k : Bool × Fin P) : Except HeapFault (LevelHeap P) :=
  if s.len k = 1 then pure (s.setHead k none)
  else if node = s.head k then do
    let first ← s.load (s.head k)
    pure (s.setHead k first.next)
  else do
    let removed ← s.load node
    let temp ← s.searchFrom (fun price => price ≠ removed.val.price) s.heap.next (s.head k)
    s.onHeap (setNext s.heap temp removed.next)

/-- The loop of `delete_order_prints`. A level whose quantity does not become 0 does
not end the loop. -/
def deleteFrom (currOrder : Order P T) (k : Bool × Fin P) :
    Nat → LevelHeap P → Ptr → Except HeapFault (LevelHeap P)
  | _, s, none => pure s
  | 0, _, some _ => throw (.other .noFuel)
  | fuel + 1, s, some temp => do
    let node ← s.load (some temp)
    if currOrder.price = node.val.price then
      let quantity := A.int (node.val.quantity - currOrder.quantity)
      let s ← s.onHeap (setVal s.heap (some temp)
        { node.val with quantity := quantity, numOrders := A.int (node.val.numOrders - 1) })
      if quantity = 0 then
        let s ← s.removeFromProducts (some temp) k
        s.onHeap (s.heap.free (some temp))
      else
        let node ← s.load (some temp)
        deleteFrom currOrder k fuel s node.next
    else deleteFrom currOrder k fuel s node.next

/-- `delete_order_prints` (pe_orderbook.c:280–316). -/
def deleteOrderPrints (k : Bool × Fin P) (currOrder : Order P T) :
    Except HeapFault (LevelHeap P) :=
  deleteFrom A currOrder k s.heap.next s (s.head k)

/-- `cancel_order_prints` (pe_orderbook.c:319–329). -/
def cancelOrderPrints (currOrder : Order P T) : Except HeapFault (LevelHeap P) := do
  let s ← s.deleteOrderPrints A (currOrder.isBuy, currOrder.productID) currOrder
  s.setLen (currOrder.isBuy, currOrder.productID)

/-! ## Calls -/

/-- One call. -/
def print : PrintCall P T → Except HeapFault (LevelHeap P)
  | .add o => s.addOrderPrints A o
  | .cancel o => s.cancelOrderPrints A o

/-- Some calls one after the other. -/
def runPrints : List (PrintCall P T) → LevelHeap P → Except HeapFault (LevelHeap P)
  | [], s => pure s
  | c :: calls, s => do
    let s ← s.print A c
    runPrints calls s

end LevelHeap

/-! ## Freeing -/

/-- The fault of a loop that frees a list. -/
def HeapFault.freeing : Option MemFault → HeapFault
  | some m => .memory m
  | none => .other .noFuel

/-- The lists in the order in which they are freed: for each product, that of the buy
side and that of the sell side. -/
def sides (P : Nat) : List (Bool × Fin P) :=
  (List.finRange P).flatMap fun i => [(true, i), (false, i)]

/-- `free_orders` (pe_setup.c:39–62). -/
def HeapExchange.freeOrders (s : HeapExchange P T) : Except HeapFault (HeapExchange P T) := do
  let heap ← Heap.freeChains DoublyLinked.Node.next HeapFault.freeing
    ((sides P).map fun k => (s.books k).head) s.heap
  pure { s with heap := heap }

/-- `free_printed_orders` (pe_setup.c:64–72) in the loop of `free_all` over the
products (pe_setup.c:97–101). -/
def LevelHeap.freePrintedOrders (s : LevelHeap P) : Except HeapFault (LevelHeap P) := do
  let heap ← Heap.freeChains Node.next HeapFault.freeing ((sides P).map s.head) s.heap
  pure { s with heap := heap }

/-- `free_all` (pe_setup.c:75–105) on the lists. -/
def freeAll (h : HeapExchange P T) (l : LevelHeap P) :
    Except HeapFault (HeapExchange P T × LevelHeap P) := do
  let h ← h.freeOrders
  let l ← l.freePrintedOrders
  pure (h, l)

/-! ## The calls of a command -/

/-- What the exchange with lists does at a call. -/
def Exchange.print (A : Arith) (s : Exchange P T) : PrintCall P T → Exchange P T
  | .add o => s.addOrderPrints A o
  | .cancel o => s.cancelOrderPrints A o

/-- The calls of `match_new_buy` and `match_new_sell`. -/
def matchCalls (newOrder oldOrder : Order P T) : List (PrintCall P T) :=
  if oldOrder.quantity > newOrder.quantity then
    [.cancel oldOrder,
      .add { oldOrder with quantity := oldOrder.quantity - newOrder.quantity }]
  else [.cancel oldOrder]

namespace Exchange

variable (A : Arith) (vp : ValidProducts P) (s : Exchange P T)

/-- The calls of `check_for_match`. -/
def loopCalls : Nat → Exchange P T → Order P T → List (PrintCall P T)
  | 0, _, _ => []
  | fuel + 1, s, newOrder =>
    if newOrder.quantity > 0 then
      match s.findBest newOrder with
      | none => []
      | some matched =>
        let r := s.matchNew A newOrder matched
        matchCalls newOrder matched.val ++
          if r.2.2 = 0 then [] else loopCalls fuel r.1 r.2.1
    else []

/-- The calls from `check_for_match` on. -/
def insertCalls (currOrder : Order P T) : List (PrintCall P T) :=
  loopCalls A ((s.orders (!currOrder.isBuy) currOrder.productID).length + 1) s currOrder ++
    match s.checkForMatch A currOrder with
    | .ok (_, currOrder, ret) => if ret = 1 then [.add currOrder] else []
    | .error _ => []

/-- The call of `amend_msg` before `check_for_match`. -/
def amendCalls (msg : List Char) (ind : Fin T) : List (PrintCall P T) :=
  match scan amendFormat msg with
  | .ok [.int newQuantity, .int newPrice] =>
    match s.checkValidAmend newQuantity newPrice ind msg with
    | .ok (some currOrder) => [.cancel currOrder.val]
    | _ => []
  | _ => []

/-- The call of `cancel_msg`. -/
def cancelCalls (msg : List Char) (ind : Fin T) : List (PrintCall P T) :=
  if spaceCount msg ≠ 1 then []
  else
    match scan cancelFormat msg with
    | .ok [.int id] =>
      if id < 0 ∨ id > 999999 then []
      else
        match s.findOrder ind id with
        | none => []
        | some currOrder => [.cancel currOrder.val]
    | _ => []

/-- The calls before `check_for_match`. -/
def incomingCalls (msg : List Char) (ind : Fin T) : List (PrintCall P T) :=
  match msg with
  | 'A' :: _ => s.amendCalls msg ind
  | _ => []

/-- The calls of `parse_msg`. -/
def printCalls (msg : List Char) (ind : Fin T) : List (PrintCall P T) :=
  match msg with
  | 'C' :: _ => s.cancelCalls msg ind
  | _ =>
    match s.incoming A vp msg ind with
    | .ok (some (s', currOrder)) => s.incomingCalls msg ind ++ s'.insertCalls A currOrder
    | _ => []

end Exchange

/-! ## The transition system -/

/-- The exchange with its levels in a heap. The exchange with lists says which
calls are made. -/
structure Levelled (P T : Nat) where
  exchange : Exchange P T
  levels : LevelHeap P

/-- The transitions. -/
inductive LevelStep (A : Arith) (vp : ValidProducts P) :
    Levelled P T → Action T → Levelled P T → Prop where
  | command {s : Levelled P T} {s' : Exchange P T} {l' : LevelHeap P} {ind : Fin T}
      {msg : List Char} (h : s.exchange.parseMsg A vp msg ind = .ok s')
      (hl : LevelHeap.runPrints A (s.exchange.printCalls A vp msg ind) s.levels = .ok l') :
      LevelStep A vp s (.command ind msg) ⟨s', l'⟩
  | died {s : Levelled P T} {i : Fin T} :
      LevelStep A vp s (.died i) ⟨s.exchange.traderDied i, s.levels⟩

/-- The states the exchange can be in. -/
def LevelReachable (A : Arith) (vp : ValidProducts P) (s : Levelled P T) : Prop :=
  Transition.Reachable (LevelStep A vp) ⟨initial, initialLevels⟩ s

end PeExchange
