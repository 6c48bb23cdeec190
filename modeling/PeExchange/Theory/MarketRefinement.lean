import PeExchange.Theory.Market
import PeExchange.Theory.Amending

/-!
# The exchange is the market

The exchange appends to unsorted lists and searches all of a list for each match;
the market serves from the front of sorted books. `toMarket` relates the two, and each
can follow the other:

- `Outcome.deed`: a command is one deed of its sender, answered as the deed
  says, with the deals of the deed reported in their order.
- `exists_command`: every deed open to a trader has a text that the exchange
  takes for it.

`Trades.consumed` is the heart of both: the loop of `check_for_match` on the lists
is one pass over the sorted book.
-/

namespace PeExchange

open CFormat LinkedList PriorityFill SortedQueue

variable {P T : Nat}

theorem dealsOf_append (es es' : List (Event P T)) :
    dealsOf (es ++ es') = dealsOf es ++ dealsOf es' := by
  rw [dealsOf, dealsOf, dealsOf, matchesOf_append, List.map_append]

namespace Exchange

variable {A : Arith} {vp : ValidProducts P} {s s' s₁ s₂ : Exchange P T} {ind : Fin T}
  {o o' r : Order P T} {c : Cell (Order P T)} {ms : List (Order P T × Order P T)} {ret : Int}
  {msg : List Char}

/-! ## The matching loop and the book -/

/-- **The loop of `check_for_match` is one pass over the sorted book.** -/
theorem Trades.consumed (ht : Trades A s o ms s' o' ret) (hp : 0 < o.price) :
    s.toMarket.serve o = (ms.map fun m => (m.2, tradedQuantity m.1 m.2),
      if ret = 1 then o'.quantity else 0, s'.toMarket.book (!o.isBuy) o.productID) := by
  have hserve := consume_of_serves (ht.serves hp) fun _ _ => rfl
  show consume _ _ _ _ (arrange (rank (!!o.isBuy)) (s.opposite o)) = _
  rw [Bool.not_not, hserve]
  show _ = (_, _, arrange (rank (!!o.isBuy)) (s'.opposite o))
  rw [Bool.not_not]

theorem Trades.orderID (ht : Trades A s o ms s' o' ret) (t : Fin T) :
    (s'.traders t).orderID = (s.traders t).orderID := by
  induction ht with
  | stop => rfl
  | last => exact execMatch_orderID _ _ _ _ _
  | more _ _ _ _ ih => rw [ih, execMatch_orderID]

/-- **Matching and insertion are `submit`.** -/
theorem Trades.toMarket_afterInsert (ht : Trades A s o ms s' o' ret) (hp : 0 < o.price) :
    (afterInsert A s' o' ret).toMarket = s.toMarket.submit o := by
  have hserve := ht.consumed hp
  have hside : o'.isBuy = o.isBuy ∧ o'.productID = o.productID := by
    rw [ht.left_eq]
    exact ⟨rfl, rfl⟩
  ext1
  · funext b i
    rw [Market.submit, hserve]
    dsimp only
    by_cases hopp : b = (!o.isBuy) ∧ i = o.productID
    · -- the opposite list is what matching left of it
      obtain ⟨rfl, rfl⟩ := hopp
      rw [if_pos ⟨rfl, rfl⟩]
      refine afterInsert_rule (motive := fun s'' => s''.toMarket.book _ _ = _) (fun _ => ?_)
        fun _ => rfl
      show arrange _ (if _ then _ else _) = _
      rw [if_neg (by rw [hside.1]; simp)]
      rfl
    · rw [if_neg hopp]
      have hkeep : s'.orders b i = s.orders b i := ht.orders_of_ne hopp
      rcases ht.ret_cases with rfl | ⟨rfl, hpos, -⟩
      · rw [if_neg (by simp)]
        show arrange _ (s'.orders b i) = _
        rw [hkeep]
        rfl
      · rw [if_pos rfl]
        by_cases hown : b = o.isBuy ∧ i = o.productID
        · -- what is left joins the end of its list
          obtain ⟨rfl, rfl⟩ := hown
          rw [if_pos ⟨rfl, rfl, hpos⟩]
          show arrange _ (if _ then _ else _) = _
          rw [if_pos ⟨hside.1.symm, hside.2.symm⟩, hside.1, hside.2]
          show arrange _ (s'.orders o.isBuy o.productID ++ [o']) = _
          rw [hkeep, arrange_concat, ← ht.left_eq]
          rfl
        · rw [if_neg (by tauto)]
          show arrange _ (if _ then _ else _) = _
          rw [if_neg (by rw [hside.1, hside.2]; exact hown)]
          show arrange _ (s'.orders b i) = _
          rw [hkeep]
          rfl
  · funext t
    show ((afterInsert A s' o' ret).traders t).orderID = (s.traders t).orderID
    rw [afterInsert_orderID, ht.orderID]

/-- **Unlinking an order is `withdraw`.** -/
theorem WellFormed.toMarket_deleteOrder (hw : WellFormed vp s)
    (hin : c.In (s.orders c.val.isBuy c.val.productID)) :
    (s.deleteOrder c c.val.isBuy c.val.productID).toMarket = s.toMarket.withdraw c.val := by
  obtain ⟨pre, post, hl, -, hdel, -⟩ := hin.split
  have hnd := hw.distinct c.val.isBuy c.val.productID
  rw [hl, List.map_append, List.map_cons] at hnd
  have hnot := (List.nodup_cons.mp (List.nodup_middle.mp hnd)).1
  rw [← List.map_append] at hnot
  -- no other order of the list has its key
  have hothers : (pre ++ post).filter (fun r => decide (key r ≠ key c.val)) = pre ++ post := by
    refine List.filter_eq_self.mpr fun r hr => decide_eq_true fun heq => hnot ?_
    rw [← heq]
    exact List.mem_map_of_mem hr
  have hfilter : (s.orders c.val.isBuy c.val.productID).filter
      (fun r => decide (key r ≠ key c.val)) = pre ++ post := by
    rw [hl, List.filter_append, List.filter_cons_of_neg (by simp), ← List.filter_append, hothers]
  ext1
  · funext b i
    show arrange _ (if _ then _ else _) = if _ then _ else _
    by_cases hown : b = c.val.isBuy ∧ i = c.val.productID
    · obtain ⟨rfl, rfl⟩ := hown
      rw [if_pos ⟨rfl, rfl⟩, if_pos ⟨rfl, rfl⟩, hdel]
      show _ = (arrange _ _).filter _
      rw [filter_arrange, hfilter]
    · rw [if_neg hown, if_neg hown]
      rfl
  · rfl

/-! ## From commands to deeds -/

theorem mem_toMarket {b : Bool} {i : Fin P} : r ∈ s.toMarket.book b i ↔ r ∈ s.orders b i :=
  mem_arrange

/-- The deals of a command that trades are its matches. -/
theorem dealsOf_traded (hin : s.incoming A vp msg ind = .ok (some (s₁, o)))
    (ht : Trades A s₁ o ms s₂ o' ret) :
    dealsOf (s.written (afterInsert A s₂ o' ret)) =
      (ms.map fun m => (m.2, tradedQuantity m.1 m.2)).map fun f => (key o, f.1, f.2) := by
  rw [dealsOf, matchesOf_traded hin ht, List.map_map]
  refine List.map_congr_left fun m hm => ?_
  obtain ⟨⟨q, hq⟩, -⟩ := ht.mem_matches m hm
  show (key m.1, _, _) = (key o, _, _)
  rw [show key m.1 = key o by rw [hq]; rfl]

theorem answersOf_append (es es' : List (Event P T)) :
    answersOf (es ++ es') = answersOf es ++ answersOf es' := by
  rw [answersOf, answersOf, answersOf, messages_append, List.filter_append]

/-- Announcements are no answers. -/
theorem answersOf_announced (s : Exchange P T) (ind : Fin T) (b : Bool) (product : List Char)
    (q p : Int) :
    ((s.others ind).map fun i => (i, Msg.market b product q p)).filter (fun m => m.2.isAnswer) =
      [] := by
  rw [List.filter_eq_nil_iff]
  intro m hm
  obtain ⟨i, -, rfl⟩ := List.mem_map.mp hm
  exact Bool.false_ne_true

/-- Nor are fills. -/
theorem answersOf_fillNotices (s : Exchange P T) (ms : List (Order P T × Order P T)) :
    (ms.flatMap s.fillNotices).filter (fun m => m.2.isAnswer) = [] := by
  have hnotify : ∀ t id q, ∀ m ∈ s.notify t (.fill id q), m.2.isAnswer = false := by
    intro t id q m hm
    unfold notify at hm
    split at hm
    · rw [List.mem_singleton.mp hm]
      rfl
    · exact absurd hm List.not_mem_nil
  rw [List.filter_eq_nil_iff]
  intro m hm
  obtain ⟨x, -, hm⟩ := List.mem_flatMap.mp hm
  rcases List.mem_append.mp hm with hm | hm
  · rw [hnotify _ _ _ m hm]
    exact Bool.false_ne_true
  · rw [hnotify _ _ _ m hm]
    exact Bool.false_ne_true

theorem answersOf_traded (hin : s.incoming A vp msg ind = .ok (some (s₁, o)))
    (ht : Trades A s₁ o ms s₂ o' ret) :
    answersOf (s.written (afterInsert A s₂ o' ret)) = [(ind, ackOf msg o)] := by
  have hack : (ackOf msg o).isAnswer = true := by
    unfold ackOf
    split <;> rfl
  rw [answersOf, messages_traded hin ht, List.filter_append, answersOf_fillNotices,
    List.append_nil, List.filter_cons, if_pos hack, marketMsg, answersOf_announced]

theorem answersOf_cancelled (A : Arith) (s : Exchange P T) (ind : Fin T) (c : Cell (Order P T)) :
    answersOf (s.written (s.afterCancel A ind c)) = [(ind, .cancelled c.val.orderID)] := by
  rw [answersOf, messages_cancelled, List.filter_cons_of_pos rfl, answersOf_announced]

/-- The two ways into the market, by the answer they get. -/
theorem incoming_cases (h : s.incoming A vp msg ind = .ok (some (s₁, o))) :
    (ackOf msg o = .accepted o.orderID ∧ ValidOrder vp o ∧ o.traderID = ind ∧
      o.orderID = (s.traders ind).orderID ∧
      s₁ = (s.setTrader ind { s.traders ind with orderID := o.orderID + 1 }).writeAccepted o
        ind) ∨
    (ackOf msg o = .amended o.orderID ∧ ∃ c id q p, s.findOrder ind id = some c ∧
      (1 ≤ q ∧ q ≤ 999999) ∧ (1 ≤ p ∧ p ≤ 999999) ∧ o = createAmendedOrder p q c.val ∧
      s₁ = ((s.writeAmended o ind).cancelOrderPrints A c.val).deleteOrder c c.val.isBuy
        c.val.productID) := by
  unfold incoming at h
  split at h
  · exact .inl ⟨rfl, newOrderMsg_some h⟩
  · exact .inl ⟨rfl, newOrderMsg_some h⟩
  · exact .inr ⟨rfl, amendOrderMsg_some h⟩
  · cases h

/-- A new order counts for its trader. -/
theorem toMarket_issued (hid : o.orderID = (s.traders ind).orderID) :
    ((s.setTrader ind { s.traders ind with orderID := o.orderID + 1 }).writeAccepted o
      ind).toMarket = s.toMarket.issue ind := by
  ext1
  · rfl
  · funext t
    show ((Function.update s.traders ind _) t).orderID =
      Function.update s.toMarket.nextID ind (s.toMarket.nextID ind + 1) t
    by_cases ht : t = ind
    · subst ht
      rw [Function.update_self, Function.update_self, hid]
      rfl
    · rw [Function.update_of_ne ht, Function.update_of_ne ht]
      rfl

/-- What a command has done to the market: one deed of its sender. -/
def Does (vp : ValidProducts P) (s : Exchange P T) (ind : Fin T) (d : Deed P T)
    (s' : Exchange P T) : Prop :=
  Market.Step vp s.toMarket (ind, d) s'.toMarket ∧ dealsOf (s.written s') = d.deals ∧
    answersOf (s.written s') = [(ind, d.answer)]

/-- **A command is a deed of its sender.** -/
theorem Outcome.deed (ho : Outcome A vp s msg ind s') (hw : WellFormed vp s) :
    ∃ d, s.Does vp ind d s' := by
  cases ho with
  | rejected =>
    refine ⟨.refused, .refused, ?_, ?_⟩
    · rw [written_append rfl]
      rfl
    · rw [written_append rfl]
      rfl
  | @traded s₁ s₂ o o' ms ret hin ht =>
    have hp := (incoming_enters hin).price_pos
    have hmarket := ht.toMarket_afterInsert hp
    have hserve : (s₁.toMarket.serve o).1 = ms.map fun m => (m.2, tradedQuantity m.1 m.2) :=
      congrArg Prod.fst (ht.consumed hp)
    rcases incoming_cases hin with
      ⟨hack, hv, rfl, hid, rfl⟩ | ⟨hack, c, id, q, p', hc, hq, hp', rfl, rfl⟩
    · rw [toMarket_issued hid] at hmarket hserve
      refine ⟨.placed o (s.toMarket.serve o).1, ?_, ?_, ?_⟩
      · rw [hmarket]
        exact .placed hv hid
      · rw [dealsOf_traded hin ht, ← hserve]
        rfl
      · rw [answersOf_traded hin ht, hack]
        rfl
    · have hin' := hw.findOrder_in hc
      obtain ⟨hown, -⟩ := findOrder_some hc
      have hgone := hw.toMarket_deleteOrder hin'
      -- what is written and shown is no part of the market
      have hgone' : (((s.writeAmended (createAmendedOrder p' q c.val) ind).cancelOrderPrints A
          c.val).deleteOrder c c.val.isBuy c.val.productID).toMarket =
            s.toMarket.withdraw c.val := hgone
      rw [hgone'] at hmarket hserve
      refine ⟨.replaced (createAmendedOrder p' q c.val)
        ((s.toMarket.withdraw c.val).serve (createAmendedOrder p' q c.val)).1, ?_, ?_, ?_⟩
      · rw [hmarket, ← hown]
        exact .replaced (mem_toMarket.mpr hin'.mem) hq hp'
      · rw [dealsOf_traded hin ht, ← hserve]
        rfl
      · rw [answersOf_traded hin ht, hack]
        rfl
  | @cancelled c id _ hc =>
    have hin := hw.findOrder_in hc
    obtain ⟨hown, -⟩ := findOrder_some hc
    have hgone := hw.toMarket_deleteOrder hin
    have hgone' : (s.afterCancel A ind c).toMarket = s.toMarket.withdraw c.val := hgone
    refine ⟨.withdrawn c.val, ?_, ?_, answersOf_cancelled A s ind c⟩
    · rw [hgone', ← hown]
      exact .withdrawn (mem_toMarket.mpr hin.mem)
    · rw [written_cancelled, dealsOf]
      show (matchesOf (s.toOthers ind _)).map _ = _
      rw [matchesOf_toOthers]
      rfl

theorem toMarket_traderDied (s : Exchange P T) (i : Fin T) :
    (s.traderDied i).toMarket = s.toMarket := by
  ext1
  · rfl
  · funext t
    exact traderDied_orderID s i t

end Exchange

open Exchange

/-- Nothing but `MARKET OPEN` has been written at first. -/
theorem messages_initial {m : Fin T × Msg} (h : m ∈ messages (initial : Exchange P T).out) :
    m.2 = .marketOpen := by
  obtain ⟨e, he, heq⟩ := List.mem_filterMap.mp h
  obtain ⟨i, rfl⟩ := mem_initial_out he
  obtain rfl := Option.some.inj heq
  rfl

theorem dealsOf_initial : dealsOf (initial : Exchange P T).out = [] := by
  rw [dealsOf, matchesOf, List.filterMap_eq_nil_iff.mpr]
  · rfl
  · intro e he
    obtain ⟨i, rfl⟩ := mem_initial_out he
    rfl

theorem answersOf_initial : answersOf (initial : Exchange P T).out = [] := by
  refine List.filter_eq_nil_iff.mpr fun m hm => ?_
  rw [messages_initial hm]
  exact Bool.false_ne_true

/-- The deeds of a run from any state that can be reached: one for each command, of the
trader whose command it is. They are answered and their deals reported in their order. -/
theorem Reachable.deeds_of_run {A : Arith} {vp : ValidProducts P} {as : List (Action T)}
    {s₀ s : Exchange P T} (h₀ : Reachable A vp s₀) (h : Transition.Run (Step A vp) s₀ as s) :
    ∃ deeds : List (Fin T × Deed P T),
      Transition.Run (Market.Step vp) s₀.toMarket deeds s.toMarket ∧
      deeds.map Prod.fst = as.filterMap Action.sender ∧
      dealsOf s.out = dealsOf s₀.out ++ deeds.flatMap (fun d => d.2.deals) ∧
      answersOf s.out = answersOf s₀.out ++ deeds.map fun d => (d.1, d.2.answer) := by
  induction h with
  | nil => exact ⟨[], .nil, rfl, (List.append_nil _).symm, (List.append_nil _).symm⟩
  | snoc hr hs ih =>
    obtain ⟨deeds, hrun, hsenders, hdeals, hanswers⟩ := ih
    rw [List.filterMap_append]
    cases hs with
    | @command _ ind msg hp =>
      have ho := parseMsg_outcome hp
      obtain ⟨bs, hr₀⟩ := h₀
      obtain ⟨d, hstep, hd, ha⟩ := ho.deed (Reachable.wellFormed ⟨_, hr₀.append hr⟩)
      refine ⟨deeds ++ [(ind, d)], hrun.snoc hstep, ?_, ?_, ?_⟩
      · rw [List.map_append, hsenders]
        rfl
      · rw [ho.out, dealsOf_append, hdeals, hd, List.flatMap_append, List.append_assoc]
        simp
      · rw [ho.out, answersOf_append, hanswers, ha, List.map_append, List.append_assoc]
        rfl
    | died =>
      rw [toMarket_traderDied]
      refine ⟨deeds, hrun, ?_, hdeals, hanswers⟩
      rw [hsenders]
      exact (List.append_nil _).symm

/-- **Every run of the exchange is a run of the market**, with one deed for each
command, of the trader whose command it is. The deeds have been answered and their deals
reported, all of them in their order and nothing else. -/
theorem marketRun_of_run {A : Arith} {vp : ValidProducts P} {as : List (Action T)}
    {s : Exchange P T} (h : Transition.Run (Step A vp) initial as s) :
    ∃ deeds : List (Fin T × Deed P T),
      Transition.Run (Market.Step vp) Market.opened deeds s.toMarket ∧
      deeds.map Prod.fst = as.filterMap Action.sender ∧
      dealsOf s.out = deeds.flatMap (fun d => d.2.deals) ∧
      answersOf s.out = deeds.map fun d => (d.1, d.2.answer) := by
  obtain ⟨deeds, hmarket, hsenders, hdeals, hanswers⟩ :=
    Reachable.deeds_of_run Transition.Reachable.init h
  rw [dealsOf_initial, List.nil_append] at hdeals
  rw [answersOf_initial, List.nil_append] at hanswers
  exact ⟨deeds, hmarket, hsenders, hdeals, hanswers⟩

/-- Trader 2 sells cheaper than trader 1 and is met first. -/
theorem marketRun_of_run_gpu :
    ∃ (s : Exchange 2 3) (deeds : List (Fin 3 × Deed 2 3)),
      (initial : Exchange 2 3).runCommands .machine testProducts
        [(1, "SELL 0 GPU 10 30;".toList), (2, "SELL 0 GPU 10 20;".toList),
          (0, "BUY 0 GPU 15 40;".toList)] = .ok s ∧
      Transition.Run (Market.Step testProducts) Market.opened deeds s.toMarket ∧
      deeds.map Prod.fst = [1, 2, 0] ∧
      (deeds.flatMap fun d => d.2.deals).map (fun d => (d.1, key d.2.1, d.2.2)) =
        [((0, 0), (2, 0), 10), ((0, 0), (1, 0), 5)] ∧
      (deeds.map fun d => (d.1, d.2.answer)) = answersOf s.out := by
  have hrun : okAnd ((initial : Exchange 2 3).runCommands .machine testProducts
      [(1, "SELL 0 GPU 10 30;".toList), (2, "SELL 0 GPU 10 20;".toList),
        (0, "BUY 0 GPU 15 40;".toList)])
      (fun s => decide ((dealsOf s.out).map (fun d => (d.1, key d.2.1, d.2.2)) =
        [((0, 0), (2, 0), 10), ((0, 0), (1, 0), 5)])) := by decide +kernel
  obtain ⟨s, hs, hdeals⟩ := exists_of_okAnd hrun
  obtain ⟨deeds, hmarket, hsenders, hd, ha⟩ := marketRun_of_run (Exchange.run_of_runCommands hs)
  exact ⟨s, deeds, hs, hmarket, hsenders, hd ▸ of_decide_eq_true hdeals, ha.symm⟩

/-! ## From deeds to commands -/

section Commands

variable {A : Arith} {vp : ValidProducts P} {s : Exchange P T} {o : Order P T} {ind : Fin T}

/-- `BUY <ORDER_ID> <PRODUCT> <QTY> <PRICE>;` and the same with `SELL`. -/
def orderText (o : Order P T) : List Char :=
  sideWord o.isBuy ++ ' ' :: (decimal o.orderID ++ ' ' :: (o.product ++
    ' ' :: (decimal o.quantity ++ ' ' :: (decimal o.price ++ [';']))))

theorem isWord_name {i : Fin P} (hne : vp.name i ≠ []) : IsWord (vp.name i) :=
  ⟨hne, fun c hc => not_space_of_isAlphanum (vp.alnum i c hc)⟩

theorem length_orderText (hv : ValidOrder vp o) : (orderText o).length < maxLine := by
  have hside : (sideWord o.isBuy).length ≤ 4 := by cases o.isBuy <;> decide
  have hid : (decimal o.orderID).length ≤ 6 :=
    length_decimal_le hv.orderID_nonneg (by decide) (lt_of_le_of_lt hv.orderID_le (by decide))
  have hq : (decimal o.quantity).length ≤ 6 :=
    length_decimal_le (by have := hv.quantity_pos; omega) (by decide)
      (lt_of_le_of_lt hv.quantity_le (by decide))
  have hp : (decimal o.price).length ≤ 6 :=
    length_decimal_le (by have := hv.price_pos; omega) (by decide)
      (lt_of_le_of_lt hv.price_le (by decide))
  have hname : o.product.length < maxProd := hv.product ▸ vp.fits o.productID
  unfold maxProd at hname
  unfold maxLine orderText
  simp only [List.length_append, List.length_cons, List.length_nil]
  omega

theorem spaceCount_orderText (hv : ValidOrder vp o) (hword : IsWord o.product) :
    spaceCount (orderText o) = 4 := by
  have hside : spaceCount (sideWord o.isBuy) = 0 := by cases o.isBuy <;> rfl
  have hend : spaceCount [';'] = 0 := rfl
  have hq := hv.quantity_pos
  have hp := hv.price_pos
  unfold orderText
  simp only [spaceCount_append, spaceCount_space, spaceCount_eq_zero hword.2, hside, hend,
    spaceCount_decimal hv.orderID_nonneg, spaceCount_decimal (by omega : 0 ≤ o.quantity),
    spaceCount_decimal (by omega : 0 ≤ o.price)]

/-- The exchange reads the text of an order field by field. -/
theorem scan_orderText (hv : ValidOrder vp o) (hword : IsWord o.product) :
    scan orderFormat (orderText o) =
      .ok [.int o.orderID, .str o.product, .int o.quantity, .int o.price] := by
  have hdid := decimal_isDecimal hv.orderID_nonneg
  have hdq := decimal_isDecimal (by have := hv.quantity_pos; omega : 0 ≤ o.quantity)
  have hdp := decimal_isDecimal (by have := hv.price_pos; omega : 0 ≤ o.price)
  have hfits : o.product.length < maxProd := hv.product ▸ vp.fits o.productID
  have hreads : Reads Verb.buy.conversions (' ' :: (decimal o.orderID ++ ' ' :: (o.product ++
      ' ' :: (decimal o.quantity ++ ' ' :: (decimal o.price ++ [';']))))) _ [';'] :=
    hdid.reads (stops_cons rfl _) (.str blank_space hword hfits (stops_cons rfl _)
      (hdq.reads (stops_cons rfl _) (hdp.reads (stops_cons rfl _) .done)))
  rw [scan_eq_ok, orderText, sscanf_orderFormat (isWord_sideWord o.isBuy) (stops_cons rfl _),
    sscanf_of_reads hreads]
  show Except.ok [Arg.int hdid.numeral.value, _, Arg.int hdq.numeral.value,
    Arg.int hdp.numeral.value] = _
  rw [hdid.numeral_value hv.orderID_le, hdq.numeral_value hv.quantity_le,
    hdp.numeral_value hv.price_le]
  rfl

/-- `create_order` makes the order of a text for the trader whose turn it is. -/
theorem createOrder_orderText (hv : ValidOrder vp o) (hword : IsWord o.product)
    (hfind : findProduct vp o.product = some o.productID) {t : Trader P}
    (hid : o.orderID = t.orderID) :
    createOrder vp (orderText o) o.traderID t o.isBuy =
      .ok (some (o, { t with orderID := o.orderID + 1 })) := by
  have hscan := scan_orderText hv hword
  obtain ⟨hq₀, hq₁, hp₀, hp₁, hid₀, hid₁, -⟩ := hv
  rw [createOrder, hscan]
  show Except.ok (checkOrder vp o.traderID t o.isBuy o.orderID o.product o.quantity o.price) = _
  rw [checkOrder, hfind]
  simp only
  rw [if_neg (by omega), if_neg (by omega), if_neg (by omega), ← hid]

/-- **The text of an order places it.** -/
theorem incoming_orderText (hv : ValidOrder vp o) (hword : IsWord o.product)
    (hfind : findProduct vp o.product = some o.productID)
    (hid : o.orderID = (s.traders o.traderID).orderID) :
    s.incoming A vp (orderText o) o.traderID =
      .ok (some ((s.setTrader o.traderID
        { s.traders o.traderID with orderID := o.orderID + 1 }).writeAccepted o
          o.traderID, o)) := by
  have hlen := length_orderText hv
  have htoken : token (orderText o) = sideWord o.isBuy :=
    token_append (isWord_sideWord o.isBuy) (stops_cons rfl _)
  have hcreate := createOrder_orderText hv hword hfind hid
  -- the first letter of the verb sends the text to `buy_sell_msg`
  obtain ⟨x, body, hx, heq, hin⟩ : ∃ x body, isSpace x = false ∧ orderText o = x :: body ∧
      s.incoming A vp (x :: body) o.traderID = s.newOrderMsg vp (x :: body) o.traderID := by
    unfold orderText
    cases o.isBuy with
    | true => exact ⟨'B', _, rfl, rfl, rfl⟩
    | false => exact ⟨'S', _, rfl, rfl, rfl⟩
  have hspace := spaceCount_orderText hv hword
  rw [heq] at hlen htoken hcreate hspace ⊢
  have hnew : createBuySellOrder vp (x :: body) o.traderID (s.traders o.traderID) =
      .ok (some (o, { s.traders o.traderID with orderID := o.orderID + 1 })) := by
    rw [createBuySellOrder_eq vp hlen hx, htoken]
    cases hside : o.isBuy with
    | true =>
      rw [hside] at hcreate
      rw [if_neg (by decide), if_pos (by decide), hcreate]
    | false =>
      rw [hside] at hcreate
      rw [if_pos (by decide), hcreate]
  rw [hin, newOrderMsg, if_neg (not_not.mpr hspace)]
  show (createBuySellOrder vp (x :: body) o.traderID (s.traders o.traderID) >>= _) = _
  rw [hnew]
  rfl

/-- The exchange has a way to do a deed: a command of the trader that leads to
the market of the deed and is answered and reported as the deed says. -/
def Follows (A : Arith) (vp : ValidProducts P) (s : Exchange P T) (ind : Fin T) (d : Deed P T)
    (m : Market P T) : Prop :=
  ∃ msg s', msg.length < maxLine ∧ s.parseMsg A vp msg ind = .ok s' ∧ s'.toMarket = m ∧
    dealsOf (s.written s') = d.deals ∧ answersOf (s.written s') = [(ind, d.answer)]

/-- A command that is read as an order does what the market does with the order. -/
theorem follows_of_incoming {msg : List Char} {s₁ : Exchange P T} {d : Deed P T}
    {m : Market P T} (hlen : msg.length < maxLine)
    (hin : s.incoming A vp msg ind = .ok (some (s₁, o))) (hmarket : s₁.toMarket.submit o = m)
    (hdeals : ((s₁.toMarket.serve o).1.map fun f => (key o, f.1, f.2)) = d.deals)
    (hanswer : ackOf msg o = d.answer) : Follows A vp s ind d m := by
  have he := incoming_enters hin
  obtain ⟨ms, s₂, o', ret, ht, heq⟩ := matchAndInsert_trades (A := A) (s := s₁) he.quantity_pos
  refine ⟨msg, _, hlen, (parseMsg_of_incoming hin).trans heq, ?_, ?_, ?_⟩
  · rw [ht.toMarket_afterInsert he.price_pos, hmarket]
  · rw [dealsOf_traded hin ht, ← hdeals, ht.consumed he.price_pos]
  · rw [answersOf_traded hin ht, hanswer]

theorem length_amendText {id q p : Int} (hid : 0 ≤ id ∧ id ≤ 999999) (hq : 1 ≤ q ∧ q ≤ 999999)
    (hp : 1 ≤ p ∧ p ≤ 999999) : (amendText id q p).length < maxLine := by
  have hlenid : (decimal id).length ≤ 6 := length_decimal_le hid.1 (by decide) (by omega)
  have hlenq : (decimal q).length ≤ 6 := length_decimal_le (by omega) (by decide) (by omega)
  have hlenp : (decimal p).length ≤ 6 := length_decimal_le (by omega) (by decide) (by omega)
  have hverb : "AMEND".toList.length = 5 := rfl
  unfold maxLine amendText
  simp only [List.length_append, List.length_cons, List.length_nil]
  omega

theorem length_cancelText {id : Int} (hid : 0 ≤ id ∧ id ≤ 999999) :
    (cancelText id).length < maxLine := by
  have hlenid : (decimal id).length ≤ 6 := length_decimal_le hid.1 (by decide) (by omega)
  have hverb : "CANCEL".toList.length = 6 := rfl
  unfold maxLine cancelText
  simp only [List.length_append, List.length_cons, List.length_nil]
  omega

/-- **Every deed open to a trader has a command**, provided the products have
different names and none is without. -/
theorem exists_command {ind : Fin T} {d : Deed P T} {m : Market P T} (h : Reachable A vp s)
    (hnames : ∀ i, vp.name i ≠ []) (hinj : Function.Injective vp.name)
    (hstep : Market.Step vp s.toMarket (ind, d) m) : Follows A vp s ind d m := by
  have hw := h.wellFormed
  cases hstep with
  | refused =>
    refine ⟨[';'], s.writeInvalid ind, by decide, rfl, rfl, ?_, ?_⟩
    · rw [written_append rfl]
      rfl
    · rw [written_append rfl]
      rfl
  | @placed o hv hid =>
    have hword : IsWord o.product := hv.product ▸ isWord_name (hnames o.productID)
    -- the search by name finds the product, as no other has its name
    obtain ⟨prod, hfind, hprod⟩ := findProduct_of_name o.productID hv.product
    obtain rfl := hinj (hprod.trans hv.product)
    have hin := incoming_orderText (A := A) hv hword hfind hid
    refine follows_of_incoming (length_orderText hv) hin ?_ ?_ ?_
    · rw [toMarket_issued hid]
      rfl
    · rw [toMarket_issued hid]
      rfl
    · unfold orderText
      cases o.isBuy <;> rfl
  | @replaced r q p hr hq hp =>
    have ho := mem_toMarket.mp hr
    have hv := hw.valid _ _ r ho
    have hid : 0 ≤ r.orderID ∧ r.orderID ≤ 999999 := ⟨hv.orderID_nonneg, hv.orderID_le⟩
    obtain ⟨c, hc, rfl⟩ := hw.findOrder_eq ho
    have hamends := amends_amendText hid ⟨by omega, hq.2⟩ ⟨by omega, hp.2⟩
    have hin : s.incoming A vp (amendText c.val.orderID q p) c.val.traderID =
        .ok (some (_, createAmendedOrder p q c.val)) :=
      (incoming_of_amends hamends).trans (amendOrderMsg_of_amends hamends hid hq hp hc)
    have hgone : (((s.writeAmended (createAmendedOrder p q c.val)
        c.val.traderID).cancelOrderPrints A c.val).deleteOrder c c.val.isBuy
          c.val.productID).toMarket = s.toMarket.withdraw c.val :=
      hw.toMarket_deleteOrder (hw.findOrder_in hc)
    refine follows_of_incoming (length_amendText hid hq hp) hin ?_ ?_ rfl
    · rw [hgone]
    · rw [hgone]
      rfl
  | @withdrawn r hr =>
    have ho := mem_toMarket.mp hr
    have hv := hw.valid _ _ r ho
    have hid : 0 ≤ r.orderID ∧ r.orderID ≤ 999999 := ⟨hv.orderID_nonneg, hv.orderID_le⟩
    obtain ⟨c, hc, rfl⟩ := hw.findOrder_eq ho
    have hmsg := cancelMsg_of_cancels (A := A) (cancels_cancelText hid) hid hc
    refine ⟨cancelText c.val.orderID, s.afterCancel A c.val.traderID c, length_cancelText hid,
      parseMsg_of_cancelMsg hmsg, hw.toMarket_deleteOrder (hw.findOrder_in hc), ?_,
      answersOf_cancelled A s _ c⟩
    rw [written_cancelled, dealsOf]
    show (matchesOf (s.toOthers _ _)).map _ = _
    rw [matchesOf_toOthers]
    rfl

/-- Trader 0 buys from what trader 1 offers. -/
theorem exists_command_gpu :
    ∃ s : Exchange 2 3, (initial : Exchange 2 3).runCommands .machine testProducts
        [(1, "SELL 0 GPU 10 30;".toList)] = .ok s ∧
      Follows .machine testProducts s 0
        (.placed ⟨"GPU".toList, 15, 40, 0, 0, 0, true⟩
          (s.toMarket.serve ⟨"GPU".toList, 15, 40, 0, 0, 0, true⟩).1)
        ((s.toMarket.submit ⟨"GPU".toList, 15, 40, 0, 0, 0, true⟩).issue 0) := by
  have hrun : okAnd ((initial : Exchange 2 3).runCommands .machine testProducts
      [(1, "SELL 0 GPU 10 30;".toList)]) (fun s => decide ((s.traders 0).orderID = 0)) := by
    decide +kernel
  obtain ⟨s, hs, hid⟩ := exists_of_okAnd hrun
  have hvalid : ValidOrder testProducts (⟨"GPU".toList, 15, 40, 0, 0, 0, true⟩ : Order 2 3) :=
    ⟨by decide, by decide, by decide, by decide, by decide, by decide, rfl⟩
  exact ⟨s, hs, exists_command (Reachable.runCommands Transition.Reachable.init hs) (by decide)
    (by intro i j; revert i j; decide) (.placed hvalid (of_decide_eq_true hid).symm)⟩

end Commands

end PeExchange
