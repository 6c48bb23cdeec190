import PeExchange.Commands
import PeExchange.Lib.Transition

/-!
# The exchange as a transition system

The state `main` starts trading with, and its transitions: a command of some
trader handed to `parse_msg`, or the disconnection of a trader. Which commands
arrive and when traders leave is left open, so a fact about every reachable
state holds for every sequence of commands of any traders, dead ones included.

A command on which `parse_msg` has no defined behaviour is no transition.
-/

namespace PeExchange

variable {P T : Nat}

/-- The exchange after `initialise_product_list`, `initialise_prod_orders`,
`initialise_trader` and `initialise_trader_inventory` (pe_setup.c:153–216), with
`MARKET OPEN` sent (pe_exchange.c:136). -/
def initial : Exchange P T :=
  Exchange.writeMarketOpen
    { traders := fun _ => { orderID := 0, prodInfo := fun _ => ⟨0, 0⟩, alive := true }
      orders := fun _ _ => []
      printedOrders := fun _ => { head := fun _ => [], len := fun _ => 0 }
      exchangeFees := 0
      out := [] }

/-- `trader_died` (pe_setup.c:119–130): what it does to the exchange's own data. -/
def Exchange.traderDied (s : Exchange P T) (i : Fin T) : Exchange P T :=
  s.setTrader i { s.traders i with alive := false }

/-- The product list of tests/E2E/valid_products.txt. -/
def testProducts : ValidProducts 2 where
  name i := if i = 0 then "GPU".toList else "Router".toList
  alnum i := List.all_eq_true.mp (by revert i; decide)
  fits := by decide

/-- What can happen to the exchange. -/
inductive Action (T : Nat) where
  | command (ind : Fin T) (msg : List Char)
  | died (i : Fin T)
deriving DecidableEq, Repr

/-- The transitions. -/
inductive Step (A : Arith) (vp : ValidProducts P) :
    Exchange P T → Action T → Exchange P T → Prop where
  | command {s s' : Exchange P T} {ind : Fin T} {msg : List Char}
      (h : s.parseMsg A vp msg ind = .ok s') : Step A vp s (.command ind msg) s'
  | died {s : Exchange P T} {i : Fin T} : Step A vp s (.died i) (s.traderDied i)

/-- The states the exchange can be in. -/
def Reachable (A : Arith) (vp : ValidProducts P) (s : Exchange P T) : Prop :=
  Transition.Reachable (Step A vp) initial s

/-- The commands of some traders one after the other. -/
def Exchange.runCommands (A : Arith) (vp : ValidProducts P) (s : Exchange P T) :
    List (Fin T × List Char) → Except Fault (Exchange P T)
  | [] => .ok s
  | (ind, msg) :: rest =>
    match s.parseMsg A vp msg ind with
    | .ok s' => s'.runCommands A vp rest
    | .error e => .error e

/-- Commands one after the other are a run. -/
theorem Exchange.run_of_runCommands {A : Arith} {vp : ValidProducts P} :
    ∀ {cmds : List (Fin T × List Char)} {s s' : Exchange P T},
      s.runCommands A vp cmds = .ok s' →
        Transition.Run (Step A vp) s (cmds.map fun c => .command c.1 c.2) s'
  | [], _, _, h => by
    cases h
    exact .nil
  | (ind, msg) :: rest, s, s', h => by
    unfold Exchange.runCommands at h
    cases hp : s.parseMsg A vp msg ind with
    | error e =>
      rw [hp] at h
      cases h
    | ok s₁ =>
      rw [hp] at h
      have hfirst := Transition.Run.nil.snoc (Step.command hp)
      exact hfirst.append (run_of_runCommands h)

theorem Reachable.runCommands {A : Arith} {vp : ValidProducts P}
    {cmds : List (Fin T × List Char)} {s s' : Exchange P T} (hr : Reachable A vp s)
    (h : s.runCommands A vp cmds = .ok s') : Reachable A vp s' := by
  obtain ⟨as, hrun⟩ := hr
  exact ⟨_, hrun.append (Exchange.run_of_runCommands h)⟩

/-- One command more. -/
theorem Exchange.runCommands_concat {A : Arith} {vp : ValidProducts P} {ind : Fin T}
    {msg : List Char} {cmds : List (Fin T × List Char)} {s s₁ s₂ : Exchange P T}
    (h : s.runCommands A vp cmds = .ok s₁) (hp : s₁.parseMsg A vp msg ind = .ok s₂) :
    s.runCommands A vp (cmds ++ [(ind, msg)]) = .ok s₂ := by
  induction cmds generalizing s with
  | nil =>
    cases h
    rw [List.nil_append, Exchange.runCommands, hp]
    rfl
  | cons c rest ih =>
    obtain ⟨ind', msg'⟩ := c
    rw [List.cons_append, Exchange.runCommands]
    rw [Exchange.runCommands] at h
    cases hp' : s.parseMsg A vp msg' ind' with
    | error e =>
      rw [hp'] at h
      cases h
    | ok s' =>
      rw [hp'] at h
      exact ih h

section Frame

@[simp] theorem initial_orders (b : Bool) (i : Fin P) :
    (initial : Exchange P T).orders b i = [] := rfl
@[simp] theorem initial_printedOrders (i : Fin P) :
    (initial : Exchange P T).printedOrders i = { head := fun _ => [], len := fun _ => 0 } := rfl
@[simp] theorem initial_traders (i : Fin T) :
    (initial : Exchange P T).traders i =
      { orderID := 0, prodInfo := fun _ => ⟨0, 0⟩, alive := true } := rfl
/-- Nothing but `MARKET OPEN` has been written. -/
theorem mem_initial_out {e : Event P T} (h : e ∈ (initial : Exchange P T).out) :
    ∃ i, e = .message i .marketOpen := by
  have hout : (initial : Exchange P T).out =
      [] ++ (List.finRange T).flatMap fun i => [.message i .marketOpen] := rfl
  rw [hout, List.nil_append] at h
  obtain ⟨i, -, he⟩ := List.mem_flatMap.mp h
  exact ⟨i, List.mem_singleton.mp he⟩

@[simp] theorem initial_exchangeFees : (initial : Exchange P T).exchangeFees = 0 := rfl

variable (s : Exchange P T) (i : Fin T)

@[simp] theorem traderDied_orders : (s.traderDied i).orders = s.orders := rfl
@[simp] theorem traderDied_printedOrders :
    (s.traderDied i).printedOrders = s.printedOrders := rfl
@[simp] theorem traderDied_exchangeFees :
    (s.traderDied i).exchangeFees = s.exchangeFees := rfl
@[simp] theorem traderDied_out : (s.traderDied i).out = s.out := rfl

@[simp] theorem traderDied_orderID (j : Fin T) :
    ((s.traderDied i).traders j).orderID = (s.traders j).orderID := by
  by_cases h : j = i
  · subst h; simp [Exchange.traderDied]
  · simp [Exchange.traderDied, h]

@[simp] theorem traderDied_prodInfo (j : Fin T) :
    ((s.traderDied i).traders j).prodInfo = (s.traders j).prodInfo := by
  by_cases h : j = i
  · subst h; simp [Exchange.traderDied]
  · simp [Exchange.traderDied, h]

end Frame

end PeExchange
