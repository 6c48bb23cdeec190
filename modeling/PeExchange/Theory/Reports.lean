import PeExchange.Lib.Layout
import PeExchange.Printing
import PeExchange.Theory.Wrapping

/-!
# Reading the log back

The text on the standard output is a stream of entries, each of which ends where
its text says: a command, a match, the book with the positions, a disconnection.

- `Exchange.entries`: the entries of a transition. `stdout_eq` says that what is
  printed is their text.
- `log_read`: the text of a run is read back as the entries of its transitions.

A report says how many levels it has and then prints a line for each that holds an
order. The two agree as long as the levels show what rests, so for the runs in which
the sums fit (`RoomyStep`). A command with a line break in it could forge entries.
-/

namespace PeExchange

open CFormat LinkedList

variable {P T : Nat}

/-! ## Entries -/

/-- What a report says of a product. -/
structure ProductReport where
  product : List Char
  sells : List PrintedOrder
  buys : List PrintedOrder
deriving DecidableEq, Repr

/-- The book and the positions: for each trader, its position in each product. -/
structure Report where
  products : List ProductReport
  positions : List (List (List Char × TraderBalances))
deriving DecidableEq, Repr

/-- An entry of the log. -/
inductive LogEntry where
  | parsing (trader : Int) (command : List Char)
  | matched (oldOrder oldTrader newOrder newTrader value fee : Int)
  | report (r : Report)
  | disconnected (trader : Int)
  | completed
  | collected (fees : Int)
deriving DecidableEq, Repr

inductive LogTag where
  | parsing
  | matched
  | report
  | disconnected
  | completed
  | collected
deriving DecidableEq, Repr

def LogEntry.tag : LogEntry → LogTag
  | .parsing _ _ => .parsing
  | .matched _ _ _ _ _ _ => .matched
  | .report _ => .report
  | .disconnected _ => .disconnected
  | .completed => .completed
  | .collected _ => .collected

/-- How an entry begins. -/
def LogTag.word : LogTag → List Char
  | .parsing => logPrefix ++ " [T".toList
  | .matched => logPrefix ++ " Match: Order ".toList
  | .report => logPrefix ++ "\t--ORDERBOOK--\n".toList
  | .disconnected => logPrefix ++ " Trader ".toList
  | .completed => logPrefix ++ " Trading completed\n".toList
  | .collected => logPrefix ++ " Exchange fees collected: $".toList

def LogTag.all : List LogTag :=
  [.parsing, .matched, .report, .disconnected, .completed, .collected]

theorem LogTag.mem_all (k : LogTag) : k ∈ LogTag.all := by
  cases k <;> decide

theorem LogTag.word_ne_nil (k : LogTag) : k.word ≠ [] := by
  cases k <;> decide

/-! ## Layouts -/

open Layout

theorem isDigit_space : " ".toList.head?.map Char.isDigit = some false := by decide

theorem isAlphanum_space : " ".toList.head?.map Char.isAlphanum = some false := by decide

/-- A line of a level. -/
def levelLayout (isBuy : Bool) : Layout PrintedOrder :=
  (before (levelWord isBuy) (dep (number " @ $".toList (by decide)) fun _ =>
    dep (number " (".toList (by decide)) fun _ => dep (number " ".toList isDigit_space) fun n =>
      lit (if n = 1 then "order)\n".toList else "orders)\n".toList))).variant
    (fun r => ⟨r.1, r.2.1, r.2.2.1⟩)
    (fun l => if 0 < l.numOrders then some (l.quantity, l.price, l.numOrders, ()) else none)
    (fun l r h => by
      rw [Option.ite_none_right_eq_some] at h
      obtain rfl := Option.some.inj h.2
      rfl)

/-- The lines of a product. -/
def productLayout : Layout ProductReport :=
  (before (logPrefix ++ "\tProduct: ".toList) (dep
    (word Char.isAlphanum "; Buy levels: ".toList (by decide)) fun _ =>
      dep (number "; Sell levels: ".toList (by decide)) fun b =>
        dep (number "\n".toList (by decide)) fun s =>
          dep (all (List.replicate s.toNat (levelLayout false))) fun _ =>
            all (List.replicate b.toNat (levelLayout true)))).map
    (fun r => ⟨r.1, r.2.2.2.1, r.2.2.2.2⟩)
    (fun r => (r.product, r.buys.length, r.sells.length, r.sells, r.buys)) fun _ => rfl

/-- A position, and what follows it. -/
def positionLayout (last : Bool) : Layout (List Char × TraderBalances) :=
  (dep (word Char.isAlphanum " ".toList isAlphanum_space) fun _ =>
    dep (number " ($".toList (by decide)) fun _ =>
      number (")".toList ++ if last then [] else ", ".toList)
        (by cases last <;> decide)).map
    (fun r => (r.1, ⟨r.2.1, r.2.2⟩)) (fun r => (r.1, r.2.quantity, r.2.balance)) fun _ => rfl

/-- A trader's line. -/
def traderLayout (P : Nat) (i : Fin T) : Layout (List (List Char × TraderBalances)) :=
  (before (logPrefix ++ "\tTrader ".toList ++ decimal i.val ++ ": ".toList) (dep
    (all ((List.finRange P).map fun j => positionLayout (j.val + 1 = P))) fun _ =>
      lit "\n".toList)).map (fun r => r.1) (fun l => (l, ())) fun _ => rfl

/-- The book and the positions, without the first line. -/
def reportLayout (P T : Nat) : Layout Report :=
  (dep (all ((List.finRange P).map fun _ => productLayout)) fun _ =>
    before (logPrefix ++ "\t--POSITIONS--\n".toList)
      (all ((List.finRange T).map (traderLayout P)))).map
    (fun r => ⟨r.1, r.2⟩) (fun r => (r.products, r.positions)) fun _ => rfl

/-- What follows the first word of an entry. -/
def bodyLayout (P T : Nat) : LogTag → Layout LogEntry
  | .parsing =>
    (dep (number "] Parsing command: <".toList (by decide)) fun _ =>
      word (fun c => c ≠ '\n') "\n".toList (by decide)).variant
      (fun r => .parsing r.1 r.2.dropLast)
      (fun | .parsing i c => some (i, c ++ ['>']) | _ => none)
      (fun e r h => by
        cases e <;> cases h
        simp only [List.dropLast_concat])
  | .matched =>
    (dep (number " [T".toList (by decide)) fun _ =>
      dep (number "], New Order ".toList (by decide)) fun _ =>
        dep (number " [T".toList (by decide)) fun _ =>
          dep (number "], value: $".toList (by decide)) fun _ =>
            dep (number ", fee: $".toList (by decide)) fun _ =>
              number ".\n".toList (by decide)).variant
      (fun r => .matched r.1 r.2.1 r.2.2.1 r.2.2.2.1 r.2.2.2.2.1 r.2.2.2.2.2)
      (fun | .matched o t n t' v f => some (o, t, n, t', v, f) | _ => none)
      (fun e r h => by cases e <;> cases h; rfl)
  | .report =>
    (reportLayout P T).variant .report (fun | .report r => some r | _ => none)
      (fun e r h => by cases e <;> cases h; rfl)
  | .disconnected =>
    (number " disconnected\n".toList (by decide)).variant .disconnected
      (fun | .disconnected i => some i | _ => none) (fun e r h => by cases e <;> cases h; rfl)
  | .completed =>
    (lit []).variant (fun _ => .completed) (fun | .completed => some () | _ => none)
      (fun e r h => by cases e <;> cases h; rfl)
  | .collected =>
    (number "\n".toList (by decide)).variant .collected
      (fun | .collected n => some n | _ => none) (fun e r h => by cases e <;> cases h; rfl)

/-- The log of an exchange with `P` products and `T` traders. -/
def logLayout (P T : Nat) : Layout LogEntry :=
  tagged LogTag.all LogTag.word LogEntry.tag (bodyLayout P T) (by decide)

/-! ## What is printed is the text of entries -/

/-- The line of a level that holds an order. -/
theorem levelLayout_text (isBuy : Bool) {l : PrintedOrder} (hl : 0 < l.numOrders) :
    (levelLayout isBuy).text l = printLevel isBuy l := by
  have hparts : (levelLayout isBuy).text l = levelWord isBuy ++ (decimal l.quantity ++
      " @ $".toList ++ (decimal l.price ++ " (".toList ++ (decimal l.numOrders ++ " ".toList ++
        if l.numOrders = 1 then "order)\n".toList else "orders)\n".toList))) := by
    show ((if 0 < l.numOrders then _ else none : Option _)).elim [] _ = _
    rw [if_pos hl]
    rfl
  have hone : " order)\n".toList = " ".toList ++ "order)\n".toList := by decide
  have hmany : " orders)\n".toList = " ".toList ++ "orders)\n".toList := by decide
  rw [hparts, printLevel]
  by_cases h : l.numOrders = 1
  · have hle : ¬l.numOrders > 1 := by omega
    rw [if_pos h, if_neg hle, if_pos h, hone]
    simp only [List.append_assoc]
  · have hgt : l.numOrders > 1 := by omega
    rw [if_neg h, if_pos hgt, hmany]
    simp only [List.append_assoc]

theorem levelLayout_valid (isBuy : Bool) {l : PrintedOrder} (hl : 0 < l.numOrders) :
    (levelLayout isBuy).Valid l :=
  ⟨_, if_pos hl, trivial, trivial, trivial, trivial⟩

/-- Every level holds an order and the lengths are those of the lists. -/
structure Readable (b : PrintedOrderbook) : Prop where
  positive : ∀ side, ∀ l ∈ b.head side, 0 < l.numOrders
  len : ∀ side, b.len side = (b.head side).length

theorem flatMap_levelLayout {b : PrintedOrderbook} (hb : Readable b) (side : Bool) :
    (b.head side).flatMap (levelLayout side).text = (b.head side).flatMap (printLevel side) :=
  List.flatMap_congr fun l hl => levelLayout_text side (hb.positive side l hl)

/-- What a report says of a product. -/
def productReport (product : List Char) (b : PrintedOrderbook) : ProductReport :=
  ⟨product, b.head false, b.head true⟩

/-- The lines of a product are printed as the layout has them. -/
theorem productLayout_text (product : List Char) {b : PrintedOrderbook} (hb : Readable b) :
    productLayout.text (productReport product b) = printProduct product b := by
  have hparts : productLayout.text (productReport product b) =
      logPrefix ++ "\tProduct: ".toList ++ (product ++ "; Buy levels: ".toList ++
        (decimal (b.head true).length ++ "; Sell levels: ".toList ++
          (decimal (b.head false).length ++ "\n".toList ++
            ((all (List.replicate (b.head false).length (levelLayout false))).text
              (b.head false) ++
              (all (List.replicate (b.head true).length (levelLayout true))).text
                (b.head true))))) := rfl
  rw [hparts, all_replicate_text, all_replicate_text, flatMap_levelLayout hb,
    flatMap_levelLayout hb, printProduct, hb.len, hb.len]
  simp only [List.append_assoc]

theorem productLayout_valid {product : List Char} {b : PrintedOrderbook}
    (hp : ∀ c ∈ product, c.isAlphanum = true) (hb : Readable b) :
    productLayout.Valid (productReport product b) := by
  refine ⟨hp, trivial, trivial, ?_, ?_⟩
  · exact all_replicate_valid fun l hl => levelLayout_valid false (hb.positive false l hl)
  · exact all_replicate_valid fun l hl => levelLayout_valid true (hb.positive true l hl)

namespace Exchange

variable {A : Arith} {vp : ValidProducts P} {s s' : Exchange P T} {a : Action T}

/-- What a report says of the exchange. -/
def report (vp : ValidProducts P) (s : Exchange P T) : Report where
  products := (List.finRange P).map fun i => productReport (vp.name i) (s.printedOrders i)
  positions := (List.finRange T).map fun i => (List.finRange P).map fun j =>
    (vp.name j, (s.traders i).prodInfo j)

/-- A position is printed as the layout has it. -/
theorem positionLayout_text (vp : ValidProducts P) (t : Trader P) (j : Fin P) :
    (positionLayout (j.val + 1 = P)).text (vp.name j, t.prodInfo j) = printPosition vp t j := by
  have hparts : (positionLayout (j.val + 1 = P)).text (vp.name j, t.prodInfo j) =
      vp.name j ++ " ".toList ++ (decimal (t.prodInfo j).quantity ++ " ($".toList ++
        (decimal (t.prodInfo j).balance ++ (")".toList ++
          if (decide (j.val + 1 = P)) = true then [] else ", ".toList))) := rfl
  rw [hparts, printPosition]
  by_cases h : j.val + 1 = P
  · rw [if_pos (decide_eq_true h), if_neg (not_not.mpr h)]
    simp only [List.append_assoc]
  · rw [if_neg (by simpa using h), if_pos h]
    simp only [List.append_assoc]

theorem traderLayout_text (vp : ValidProducts P) (s : Exchange P T) (i : Fin T) :
    (traderLayout P i).text ((List.finRange P).map fun j =>
        (vp.name j, (s.traders i).prodInfo j)) =
      logPrefix ++ "\tTrader ".toList ++ decimal i.val ++ ": ".toList ++
        (List.finRange P).flatMap (printPosition vp (s.traders i)) ++ "\n".toList := by
  have hparts : (traderLayout P i).text ((List.finRange P).map fun j =>
        (vp.name j, (s.traders i).prodInfo j)) =
      logPrefix ++ "\tTrader ".toList ++ decimal i.val ++ ": ".toList ++
        ((all ((List.finRange P).map fun j => positionLayout (j.val + 1 = P))).text
          ((List.finRange P).map fun j => (vp.name j, (s.traders i).prodInfo j)) ++
          "\n".toList) := rfl
  rw [hparts, all_map_text, List.flatMap_congr fun j _ => positionLayout_text vp (s.traders i) j]
  simp only [List.append_assoc]

/-- **A report is the text of what it says.** -/
theorem reportLayout_text (vp : ValidProducts P) (hs : ∀ i, Readable (s.printedOrders i)) :
    logPrefix ++ "\t--ORDERBOOK--\n".toList ++ (reportLayout P T).text (s.report vp) =
      printBkPos vp s := by
  have hparts : (reportLayout P T).text (s.report vp) =
      (all ((List.finRange P).map fun _ => productLayout)).text
        ((List.finRange P).map fun i => productReport (vp.name i) (s.printedOrders i)) ++
      (logPrefix ++ "\t--POSITIONS--\n".toList ++
        (all ((List.finRange T).map (traderLayout P))).text
          ((List.finRange T).map fun i => (List.finRange P).map fun j =>
            (vp.name j, (s.traders i).prodInfo j))) := rfl
  rw [hparts, all_map_text, all_map_text,
    List.flatMap_congr fun i _ => productLayout_text (vp.name i) (hs i),
    List.flatMap_congr fun i _ => traderLayout_text vp s i, printBkPos, printOrderbook,
    printPositions]
  simp only [List.append_assoc]

/-- A report can be read back when its levels can. -/
theorem reportLayout_valid (vp : ValidProducts P) (hs : ∀ i, Readable (s.printedOrders i)) :
    (reportLayout P T).Valid (s.report vp) := by
  constructor
  · exact all_map_valid fun i _ => productLayout_valid (vp.alnum i) (hs i)
  · refine all_map_valid fun i _ => ⟨all_map_valid fun j _ => ?_, trivial⟩
    exact ⟨vp.alnum j, trivial, trivial⟩

/-- The entry of a match. -/
def matchEntry : Event P T → Option LogEntry
  | .matched newOrder oldOrder totalPrice fee =>
    some (.matched oldOrder.orderID oldOrder.traderID.val newOrder.orderID
      newOrder.traderID.val totalPrice fee)
  | _ => none

/-- The entries of a transition to `s'`: the command, its matches in their order and, if
the command is accepted, the book and the positions behind it. -/
def entries (A : Arith) (vp : ValidProducts P) (s s' : Exchange P T) :
    Action T → List LogEntry
  | .command ind msg =>
    .parsing ind.val msg.dropLast :: ((s'.out.drop s.out.length).filterMap matchEntry ++
      if s.accepts A vp msg ind then [.report (s'.report vp)] else [])
  | .died i => [.disconnected i.val]

/-- The entries of matches are printed as the layout has them. -/
theorem printed_eq (es : List (Event P T)) :
    es.flatMap Event.printed = (es.filterMap matchEntry).flatMap (logLayout P T).text := by
  induction es with
  | nil => rfl
  | cons e es ih =>
    rw [List.flatMap_cons, ih]
    cases e with
    | matched new old total fee =>
      have hentry : matchEntry (.matched new old total fee) = some (.matched old.orderID
          old.traderID.val new.orderID new.traderID.val total fee) := rfl
      rw [List.filterMap_cons_some hentry, List.flatMap_cons]
      congr 1
      show matchLine new old total fee = LogTag.word .matched ++ (decimal old.orderID ++ _ ++
        (decimal old.traderID.val ++ _ ++ (decimal new.orderID ++ _ ++
          (decimal new.traderID.val ++ _ ++ (decimal total ++ _ ++ (decimal fee ++ _))))))
      rw [matchLine, LogTag.word]
      simp only [List.append_assoc]
    | _ => rfl

/-- **What a transition prints is the text of its entries.** -/
theorem stdout_eq (A : Arith) (vp : ValidProducts P) (s : Exchange P T)
    (hs : ∀ i, Readable (s'.printedOrders i)) (a : Action T) :
    s.stdout A vp s' a = (s.entries A vp s' a).flatMap (logLayout P T).text := by
  cases a with
  | command ind msg =>
    have hcommand : printCommand ind msg =
        (logLayout P T).text (.parsing ind.val msg.dropLast) := by
      have hend : ">\n".toList = ['>'] ++ "\n".toList := by decide
      show _ = LogTag.word .parsing ++ (decimal ind.val ++ _ ++ ((msg.dropLast ++ ['>']) ++ _))
      rw [printCommand, LogTag.word, hend]
      simp only [List.append_assoc]
    rw [stdout, entries, List.flatMap_cons, List.flatMap_append, printed_eq, hcommand,
      List.append_assoc]
    congr 2
    split
    · rw [List.flatMap_singleton, ← reportLayout_text vp hs]
      rfl
    · rfl
  | died i =>
    show printDied i = LogTag.word .disconnected ++ (decimal i.val ++ _) ++ []
    rw [printDied, LogTag.word, List.append_nil]
    simp only [List.append_assoc]

/-- An entry that is not a report is read back if there is no line break in it. -/
theorem entries_valid (A : Arith) (vp : ValidProducts P) (s : Exchange P T)
    (hs : ∀ i, Readable (s'.printedOrders i))
    (ha : ∀ ind msg, a = .command ind msg → '\n' ∉ msg) :
    ∀ e ∈ s.entries A vp s' a, (logLayout P T).Valid e := by
  intro e he
  cases a with
  | command ind msg =>
    rcases List.mem_cons.mp he with rfl | he
    · have hword : ∀ c ∈ msg.dropLast ++ ['>'], decide (c ≠ '\n') = true := by
        intro c hc
        refine decide_eq_true fun heq => ?_
        subst heq
        rcases List.mem_append.mp hc with hc | hc
        · exact ha ind msg rfl (List.mem_of_mem_dropLast hc)
        · exact absurd (List.mem_singleton.mp hc) (by decide)
      exact ⟨LogTag.mem_all _, _, rfl, trivial, hword⟩
    · rcases List.mem_append.mp he with he | he
      · obtain ⟨ev, -, hev⟩ := List.mem_filterMap.mp he
        cases ev <;> cases hev
        exact ⟨LogTag.mem_all _, _, rfl, trivial, trivial, trivial, trivial, trivial, trivial⟩
      · split at he
        · obtain rfl := List.mem_singleton.mp he
          exact ⟨LogTag.mem_all _, _, rfl, reportLayout_valid vp hs⟩
        · exact absurd he List.not_mem_nil
  | died i =>
    obtain rfl := List.mem_singleton.mp he
    exact ⟨LogTag.mem_all _, _, rfl, trivial⟩

/-- Where the levels show the resting orders, the book is readable. -/
theorem DepthShown.readable (h : DepthShown s) (i : Fin P) : Readable (s.printedOrders i) where
  positive b l hl := by
    obtain ⟨hq, hn⟩ := (h.shows i b).level hl
    have hpos := (h.shows i b).positive l hl
    -- a level with a quantity has an order
    rw [hn]
    rw [hq] at hpos
    cases hf : (s.orders b i).filter fun o => o.price = l.price with
    | nil =>
      rw [hf] at hpos
      exact absurd hpos (Int.lt_irrefl 0)
    | cons o os =>
      rw [List.length_cons]
      omega
  len b := h.len i b

end Exchange

/-! ## Runs -/

open Exchange

variable {vp : ValidProducts P} {s s' : Exchange P T} {text : List Char} {es : List LogEntry}

/-- A run in which the sums fit and no command has a line break in it, with the text it
prints and its entries. -/
inductive Prints (vp : ValidProducts P) :
    List Char → List LogEntry → Exchange P T → Prop where
  | start : Prints vp [] [] initial
  | step {text : List Char} {es : List LogEntry} {s s' : Exchange P T} {a : Action T}
      (h : Prints vp text es s) (hs : RoomyStep vp s a s')
      (ha : ∀ ind msg, a = .command ind msg → '\n' ∉ msg) :
      Prints vp (text ++ s.stdout .machine vp s' a) (es ++ s.entries .machine vp s' a) s'

theorem Prints.run (h : Prints vp text es s) :
    ∃ as, Transition.Run (RoomyStep vp) initial as s := by
  induction h with
  | start => exact ⟨[], .nil⟩
  | step _ hs _ ih =>
    obtain ⟨as, has⟩ := ih
    exact ⟨_, has.snoc hs⟩

/-- **All that is printed** is the text of entries that can be read back. -/
theorem Prints.text_eq (h : Prints vp text es s) :
    text = es.flatMap (logLayout P T).text ∧ ∀ e ∈ es, (logLayout P T).Valid e := by
  induction h with
  | start => exact ⟨rfl, fun e he => absurd he List.not_mem_nil⟩
  | @step text es s s' a h hs ha ih =>
    obtain ⟨as, has⟩ := (h.step hs ha).run
    have hread := (inBounds_of_run has).depth.readable
    constructor
    · rw [ih.1, stdout_eq .machine vp s hread, List.flatMap_append]
    · intro e he
      rcases List.mem_append.mp he with he | he
      · exact ih.2 e he
      · exact entries_valid .machine vp s hread ha e he

theorem logLayout_text_ne_nil (e : LogEntry) : (logLayout P T).text e ≠ [] := by
  intro h
  exact LogTag.word_ne_nil e.tag (List.append_eq_nil_iff.mp h).1

/-- The entries of `all_traders_died`. -/
def closingEntries (fees : Int) : List LogEntry :=
  [.completed, .collected fees]

theorem printClosing_eq (P T : Nat) (fees : Int) :
    printClosing fees = (closingEntries fees).flatMap (logLayout P T).text := by
  show _ = (LogTag.word .completed ++ []) ++ ((LogTag.word .collected ++ (decimal fees ++ _)) ++ [])
  rw [printClosing, LogTag.word, LogTag.word]
  simp only [List.append_assoc, List.append_nil]

/-- **The log tells what happened.** What a run prints is read back as its entries, and
so it is with what is printed when the last trader is gone. -/
theorem log_read (h : Prints vp text es s) :
    (logLayout P T).readAll text = some es ∧
      (logLayout P T).readAll (text ++ printClosing s.exchangeFees) =
        some (es ++ closingEntries s.exchangeFees) := by
  obtain ⟨htext, hvalid⟩ := h.text_eq
  have hne : ∀ es : List LogEntry, ∀ e ∈ es, (logLayout P T).text e ≠ [] :=
    fun _ e _ => logLayout_text_ne_nil e
  constructor
  · rw [htext]
    exact readAll_flatMap hvalid (hne es)
  · rw [htext, printClosing_eq P T, ← List.flatMap_append]
    refine readAll_flatMap (fun e he => ?_) (hne _)
    rcases List.mem_append.mp he with he | he
    · exact hvalid e he
    · rcases List.mem_cons.mp he with rfl | he
      · exact ⟨LogTag.mem_all _, _, rfl, trivial⟩
      · obtain rfl := List.mem_singleton.mp he
        exact ⟨LogTag.mem_all _, _, rfl, trivial⟩

/-- An offer, a bid that meets it and a disconnection. -/
theorem log_read_gpu :
    ∃ (text : List Char) (es : List LogEntry) (s : Exchange 2 2),
      Prints testProducts text es s ∧
      es.map LogEntry.tag =
        [.parsing, .report, .parsing, .matched, .report, .disconnected] ∧
      (logLayout 2 2).readAll text = some es ∧
      (logLayout 2 2).readAll (text ++ printClosing s.exchangeFees) =
        some (es ++ closingEntries s.exchangeFees) := by
  have hrun : okAnd ((initial : Exchange 2 2).parseMsg .machine testProducts
      "SELL 0 GPU 10 30;".toList 1) (fun s₁ =>
    okAnd (s₁.parseMsg .machine testProducts "BUY 0 GPU 4 40;".toList 0) fun s₂ =>
    (okAnd ((initial : Exchange 2 2).incoming .machine testProducts "SELL 0 GPU 10 30;".toList 1)
      fun r => r.all fun r => decide (HasRoom r.1 r.2)) &&
    ((okAnd (s₁.incoming .machine testProducts "BUY 0 GPU 4 40;".toList 0)
      fun r => r.all fun r => decide (HasRoom r.1 r.2)) &&
    decide ((initial.entries .machine testProducts s₁ (.command 1 "SELL 0 GPU 10 30;".toList) ++
      s₁.entries .machine testProducts s₂ (.command 0 "BUY 0 GPU 4 40;".toList)).map
        LogEntry.tag = [.parsing, .report, .parsing, .matched, .report]))) := by
    decide +kernel
  obtain ⟨s₁, hp₁, hrun⟩ := exists_of_okAnd hrun
  obtain ⟨s₂, hp₂, hrun⟩ := exists_of_okAnd hrun
  obtain ⟨hin₁, hrun⟩ := (Bool.and_eq_true _ _).mp hrun
  obtain ⟨hin₂, htags⟩ := (Bool.and_eq_true _ _).mp hrun
  have h₁ := Prints.start.step (roomyStep_command hin₁ hp₁) fun ind msg h => by
    cases h
    decide
  have h₂ := h₁.step (roomyStep_command hin₂ hp₂) fun ind msg h => by
    cases h
    decide
  have h := h₂.step (a := .died 1) ⟨.died, trivial⟩ fun _ _ h => nomatch h
  refine ⟨_, _, _, h, ?_, log_read h⟩
  rw [List.map_append]
  exact congrArg (· ++ [LogTag.disconnected]) (of_decide_eq_true htags)

end PeExchange
