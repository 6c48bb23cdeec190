import PeExchange.Theory.Identity
import PeExchange.Theory.RoundTrip

/-!
# An amendment is a cancellation and a new order

`amend_msg` and `cancel_msg` share no code but the two deletions, and `amend_msg`
and `buy_sell_msg` end in the same statements. Here an `AMEND` is compared with
the `CANCEL` of its order followed by the end of `buy_sell_msg` on an order with
the same trader, identifier, side and product.

The two lead to states that differ in the messages written only (`SameBooks`).
What is written has no influence on a state: `withOut` puts another output in
place, and every operation on the way commutes with it (`Trades.withOut`).
-/

namespace PeExchange

open CFormat LinkedList

variable {P T : Nat}

/-! ## Texts -/

/-- The message is read as an amendment of order `id` to `q` units at `p`. -/
structure Amends (msg : List Char) (id q p : Int) : Prop where
  spaces : spaceCount msg = 3
  scanned : scan amendIdFormat msg = .ok [.int id, .int q, .int p]

/-- The message is read as the cancellation of order `id`. -/
structure Cancels (msg : List Char) (id : Int) : Prop where
  spaces : spaceCount msg = 1
  scanned : scan cancelFormat msg = .ok [.int id]

/-- `AMEND <ORDER_ID> <QTY> <PRICE>;` -/
def amendText (id q p : Int) : List Char :=
  "AMEND".toList ++ ' ' :: (decimal id ++ ' ' :: (decimal q ++ ' ' :: (decimal p ++ [';'])))

/-- `CANCEL <ORDER_ID>;` -/
def cancelText (id : Int) : List Char :=
  "CANCEL".toList ++ ' ' :: (decimal id ++ [';'])

theorem spaceCount_decimal {n : Int} (h : 0 ≤ n) : spaceCount (decimal n) = 0 :=
  spaceCount_eq_zero fun _ hc => (decimal_isDecimal h).not_space _ hc

/-- The text of an amendment is read as one. -/
theorem amends_amendText {id q p : Int} (hid : 0 ≤ id ∧ id ≤ 999999) (hq : 0 ≤ q ∧ q ≤ 999999)
    (hp : 0 ≤ p ∧ p ≤ 999999) : Amends (amendText id q p) id q p := by
  have hdid := decimal_isDecimal hid.1
  have hdq := decimal_isDecimal hq.1
  have hdp := decimal_isDecimal hp.1
  constructor
  · have hword : spaceCount "AMEND".toList = 0 := rfl
    have hend : spaceCount [';'] = 0 := rfl
    unfold amendText
    simp only [spaceCount_append, spaceCount_space, spaceCount_decimal hid.1,
      spaceCount_decimal hq.1, spaceCount_decimal hp.1, hword, hend]
  · have hreads : Reads Verb.amend.conversions (' ' :: (decimal id ++ ' ' :: (decimal q ++
        ' ' :: (decimal p ++ [';'])))) _ [';'] :=
      hdid.reads (stops_cons rfl _) (hdq.reads (stops_cons rfl _)
        (hdp.reads (stops_cons rfl _) .done))
    rw [scan_eq_ok, amendIdFormat_eq]
    refine (sscanf_lits_append _ _ _).trans ((sscanf_of_reads hreads []).trans ?_)
    show Except.ok [Arg.int hdid.numeral.value, Arg.int hdq.numeral.value,
      Arg.int hdp.numeral.value] = _
    rw [hdid.numeral_value hid.2, hdq.numeral_value hq.2, hdp.numeral_value hp.2]

theorem cancels_cancelText {id : Int} (hid : 0 ≤ id ∧ id ≤ 999999) :
    Cancels (cancelText id) id := by
  have hdid := decimal_isDecimal hid.1
  constructor
  · have hword : spaceCount "CANCEL".toList = 0 := rfl
    have hend : spaceCount [';'] = 0 := rfl
    unfold cancelText
    simp only [spaceCount_append, spaceCount_space, spaceCount_decimal hid.1, hword, hend]
  · have hreads : Reads Verb.cancel.conversions (' ' :: (decimal id ++ [';'])) _ [';'] :=
      hdid.reads (stops_cons rfl _) .done
    rw [scan_eq_ok, cancelFormat_eq]
    refine (sscanf_lits_append _ _ _).trans ((sscanf_of_reads hreads []).trans ?_)
    show Except.ok [Arg.int hdid.numeral.value] = _
    rw [hdid.numeral_value hid.2]

/-! ## Fills in the output -/

/-- The entries that come from a match. -/
def isFill : Event P T → Bool
  | .fill _ _ _ => true
  | .matched _ _ _ _ => true
  | .message _ (.fill _ _) => true
  | _ => false

/-- The fills among output entries, with their messages and reports. -/
def fillEntries (es : List (Event P T)) : List (Event P T) :=
  es.filter isFill

theorem fillEntries_append (es es' : List (Event P T)) :
    fillEntries (es ++ es') = fillEntries es ++ fillEntries es' :=
  List.filter_append _ _

namespace Exchange

variable {A : Arith} {vp : ValidProducts P} {s s' s₁ s₂ : Exchange P T} {ind t : Fin T}
  {o o' : Order P T} {c : Cell (Order P T)} {ms : List (Order P T × Order P T)} {ret : Int}
  {msg : List Char} {id q p : Int} {b : Bool} {i : Fin P}

theorem fillEntries_matches (s : Exchange P T) (ms : List (Order P T × Order P T)) :
    fillEntries (ms.flatMap fun m => s.matchEvents m.1 m.2) =
      ms.flatMap fun m => s.matchEvents m.1 m.2 := by
  rw [fillEntries, List.filter_eq_self]
  intro e he
  obtain ⟨m, -, he⟩ := List.mem_flatMap.mp he
  obtain ⟨es, hes, htail⟩ := matchEvents_eq s m.1 m.2
  rw [hes] at he
  rcases List.mem_cons.mp he with rfl | he
  · rfl
  · rcases htail e he with ⟨_, _, _, rfl⟩ | rfl
    · rfl
    · rfl

theorem fillEntries_toOthers (s : Exchange P T) (ind : Fin T) (m : Order P T) :
    fillEntries (s.toOthers ind (marketMsg m)) = [] := by
  rw [fillEntries, List.filter_eq_nil_iff]
  intro e he
  obtain ⟨i, rfl⟩ := mem_toOthers s he
  exact Bool.false_ne_true

/-- Only the matches of a command that trades are fills. -/
theorem fillEntries_traded (hin : s.incoming A vp msg ind = .ok (some (s₁, o)))
    (ht : Trades A s₁ o ms s₂ o' ret) :
    fillEntries (s.written (afterInsert A s₂ o' ret)) =
      ms.flatMap fun m => s.matchEvents m.1 m.2 := by
  have hack : isFill (Event.message ind (ackOf msg o) : Event P T) = false := by
    unfold ackOf
    split <;> rfl
  rw [written_traded hin ht, fillEntries_append, fillEntries_matches, fillEntries,
    List.filter_cons_of_neg (by exact Bool.false_ne_true), List.filter_cons_of_neg (by simp [hack])]
  show fillEntries (s.toOthers ind (marketMsg o)) ++ _ = _
  rw [fillEntries_toOthers, List.nil_append]

/-! ## What is written has no influence -/

/-- The state with another output. -/
def withOut (s : Exchange P T) (out : List (Event P T)) : Exchange P T :=
  { s with out := out }

@[simp] theorem withOut_out (s : Exchange P T) (out : List (Event P T)) :
    (s.withOut out).out = out := rfl

theorem settle_withOut (A : Arith) (s : Exchange P T) (o r : Order P T)
    (out : List (Event P T)) :
    (s.withOut out).settle A o r = (s.settle A o r).withOut (out ++ s.matchEvents o r) := by
  have hout : ((s.withOut out).settle A o r).out = out ++ s.matchEvents o r :=
    settle_out A (s.withOut out) o r
  rw [← hout]
  rfl

theorem execMatch_withOut (A : Arith) (s : Exchange P T) (o : Order P T)
    (c : Cell (Order P T)) (out : List (Event P T)) :
    (s.withOut out).execMatch A o c =
      (s.execMatch A o c).withOut (out ++ s.matchEvents o c.val) := by
  rw [execMatch, execMatch, settle_withOut]
  split
  · rfl
  · rfl

/-- **The matching loop** reads nothing of the output. -/
theorem Trades.withOut (ht : Trades A s o ms s' o' ret) (out : List (Event P T)) :
    Trades A (s.withOut out) o ms
      (s'.withOut (out ++ ms.flatMap fun m => s.matchEvents m.1 m.2)) o' ret := by
  induction ht generalizing out with
  | stop hq hf =>
    rw [List.flatMap_nil, List.append_nil]
    exact .stop hq hf
  | @last s o c hq hf hle =>
    have hlast : Trades A (s.withOut out) o [(o, c.val)] ((s.withOut out).execMatch A o c) o 0 :=
      .last hq hf hle
    rw [execMatch_withOut] at hlast
    rw [List.flatMap_cons, List.flatMap_nil, List.append_nil]
    exact hlast
  | @more s s' o o' c ms ret hq hf hlt _ ih =>
    -- the first match changes nobody's `alive` flag
    have hev := matchEvents_congr (execMatch_alive A s o c)
    have hrest := ih (out ++ s.matchEvents o c.val)
    rw [hev, List.append_assoc, ← execMatch_withOut] at hrest
    exact .more hq hf hlt hrest

theorem afterInsert_withOut (A : Arith) (s : Exchange P T) (o : Order P T) (ret : Int)
    (out : List (Event P T)) :
    afterInsert A (s.withOut out) o ret = (afterInsert A s o ret).withOut out := by
  rw [afterInsert, afterInsert]
  split
  · rfl
  · rfl

/-- The states agree on everything but what was written. -/
structure SameBooks (s s' : Exchange P T) : Prop where
  orders : s'.orders = s.orders
  printedOrders : s'.printedOrders = s.printedOrders
  traders : s'.traders = s.traders
  exchangeFees : s'.exchangeFees = s.exchangeFees

theorem sameBooks_withOut (s : Exchange P T) (out : List (Event P T)) :
    SameBooks s (s.withOut out) :=
  ⟨rfl, rfl, rfl, rfl⟩

/-! ## The two ways -/

/-- `amend_msg` on a message it can read, for an order it finds. -/
theorem amendOrderMsg_of_amends (hm : Amends msg id q p) (hid : 0 ≤ id ∧ id ≤ 999999)
    (hq : 1 ≤ q ∧ q ≤ 999999) (hp : 1 ≤ p ∧ p ≤ 999999) (hc : s.findOrder t id = some c) :
    s.amendOrderMsg A msg t =
      .ok (some (((s.writeAmended (createAmendedOrder p q c.val) t).cancelOrderPrints A
        c.val).deleteOrder c c.val.isBuy c.val.productID, createAmendedOrder p q c.val)) := by
  have hvalid : s.checkValidAmend q p t msg = .ok (some c) := by
    rw [checkValidAmend, if_neg (not_not.mpr hm.spaces), hm.scanned]
    show Except.ok (s.checkAmendArgs t ⟨id, q, p⟩) = _
    rw [checkAmendArgs]
    simp only
    rw [if_neg (by omega), if_neg (by omega), if_neg (by omega), hc]
  rw [amendOrderMsg, scan_amendFormat hm.scanned]
  show (s.checkValidAmend q p t msg >>= _) = _
  rw [hvalid]
  rfl

theorem incoming_of_amends (hm : Amends msg id q p) :
    s.incoming A vp msg t = s.amendOrderMsg A msg t := by
  obtain ⟨rest, rfl, -⟩ :=
    exists_of_sscanf_lits (scan_eq_ok.mp hm.scanned) (List.cons_ne_nil _ _)
  rfl

/-- `cancel_msg` on a message it can read, for an order it finds. -/
theorem cancelMsg_of_cancels (hm : Cancels msg id) (hid : 0 ≤ id ∧ id ≤ 999999)
    (hc : s.findOrder t id = some c) :
    s.cancelMsg A msg t = .ok (some (s.afterCancel A t c)) := by
  rw [cancelMsg, if_neg (not_not.mpr hm.spaces), hm.scanned]
  show (if id < 0 ∨ id > 999999 then _ else _ : Except Fault _) = _
  rw [if_neg (by omega), hc, afterCancel, (findOrder_some hc).2.1]
  rfl

/-- Before matching the two ways differ in the messages only. -/
theorem amended_eq_withOut (A : Arith) (s : Exchange P T) (t : Fin T) (c : Cell (Order P T))
    (o : Order P T) :
    ((s.writeAmended o t).cancelOrderPrints A c.val).deleteOrder c c.val.isBuy c.val.productID =
      (s.afterCancel A t c).withOut (s.writeAmended o t).out := rfl

/-! ## Comparison -/

/-- The amendment of `o` to `q` units at `p` that led from `s` to `s'` came to the
same as the cancellation that led to `sc` and the new order that led to `s''`. -/
structure Replaces (s s' sc s'' : Exchange P T) (o : Order P T) (q p : Int) : Prop where
  books : SameBooks s'' s'
  fills : fillEntries (s.written s') = fillEntries (sc.written s'')
  /-- The order did not trade with its old version. -/
  apart : ∀ m ∈ matchesOf (s.written s'), key m.2 ≠ key o
  /-- If anything is left of it, it is the newest order of its list. -/
  newest : ∀ b i, ∀ r ∈ s'.orders b i, key r = key o → ∃ pre, s'.orders b i = pre ++ [r]
  left : ∀ b i, ∀ r ∈ s'.orders b i, key r = key o →
    r = { o with quantity := r.quantity, price := p }
    ∧ r.quantity ≤ q
  /-- It is in the books at most once. -/
  once : ∀ {b b' : Bool} {i i' : Fin P} {j j' : Nat} {r r' : Order P T},
    (s'.orders b i)[j]? = some r → (s'.orders b' i')[j']? = some r' → key r = key o →
      key r' = key o → b = b' ∧ i = i' ∧ j = j'

/-- What is left of an incoming order. -/
theorem Trades.reduced (ht : Trades A s o ms s' o' ret) (hw : WellFormed vp s)
    (hi : Incoming vp s o) : Reduced o' o := by
  induction ht with
  | stop => exact Reduced.refl _
  | last => exact Reduced.refl _
  | more hq hf hlt _ ih =>
    have hs := execMatch_shrunk (A := A) hq hf
    have hred := hw.left_reduced hf hlt
    exact (ih (hw.shrunk hs) (hi.shrunk hs hred)).trans hred

/-- An order under the key of the incoming one is what the insertion added. -/
theorem mem_afterInsert_key (ht : Trades A s o ms s' o' ret) (hw : WellFormed vp s)
    (hi : Incoming vp s o) {r : Order P T} (hr : r ∈ (afterInsert A s' o' ret).orders b i)
    (hk : key r = key o) : r = o' ∧ ∃ pre, (afterInsert A s' o' ret).orders b i = pre ++ [r] := by
  obtain ⟨-, hi'⟩ := ht.wellFormed hw hi
  have hfresh : ∀ b i, ∀ r ∈ s'.orders b i, key r ≠ key o := by
    intro b i r hr
    have hne := hi'.key_ne hr
    rw [ht.left_eq] at hne
    exact hne
  revert hr
  rw [afterInsert]
  split
  · intro hr
    rcases mem_addOrder.mp hr with hr | ⟨rfl, rfl, rfl⟩
    · exact absurd hk (hfresh b i r hr)
    · refine ⟨rfl, s'.orders r.isBuy r.productID, ?_⟩
      rw [addOrder, setOrders_orders, if_pos ⟨rfl, rfl⟩]
      rfl
  · intro hr
    exact absurd hk (hfresh b i r hr)

end Exchange

open Exchange

variable {A : Arith} {vp : ValidProducts P} {s : Exchange P T} {o : Order P T} {b : Bool}
  {i : Fin P} {q p : Int}

/-- **An amendment is a cancellation and a new order under the old identifier.** For
every resting order and every valid quantity and price, the messages that are read
as this amendment and as this cancellation (there are such) are accepted, and the
amendment comes to what the cancellation and the matching and insertion of the new
order come to. -/
theorem amend_eq_cancel_new (h : Reachable A vp s) (ho : o ∈ s.orders b i)
    (hq : 1 ≤ q ∧ q ≤ 999999) (hp : 1 ≤ p ∧ p ≤ 999999) :
    Amends (amendText o.orderID q p) o.orderID q p ∧ Cancels (cancelText o.orderID) o.orderID ∧
    ∀ amend cancel : List Char, Amends amend o.orderID q p → Cancels cancel o.orderID →
      ∃ s' sc s'', s.parseMsg A vp amend o.traderID = .ok s' ∧
        s.cancelMsg A cancel o.traderID = .ok (some sc) ∧
        sc.matchAndInsert A { o with quantity := q, price := p } = .ok s'' ∧
        Replaces s s' sc s'' o q p := by
  have hw := h.wellFormed
  have hv := hw.valid b i o ho
  have hid : 0 ≤ o.orderID ∧ o.orderID ≤ 999999 := ⟨hv.orderID_nonneg, hv.orderID_le⟩
  refine ⟨amends_amendText hid ⟨by omega, hq.2⟩ ⟨by omega, hp.2⟩, cancels_cancelText hid, ?_⟩
  intro amend cancel hamend hcancel
  obtain ⟨c, hc, rfl⟩ := hw.findOrder_eq ho
  have hin : s.incoming A vp amend c.val.traderID = .ok (some (_, createAmendedOrder p q c.val)) :=
    (incoming_of_amends hamend).trans (amendOrderMsg_of_amends hamend hid hq hp hc)
  obtain ⟨hw₁, hi₁⟩ := (incoming_enters hin).wellFormed hw
  -- the way over the cancellation
  have hqpos : 0 < (createAmendedOrder p q c.val).quantity := hq.1
  obtain ⟨ms, s₂, o', ret, ht, heq⟩ :=
    matchAndInsert_trades (A := A) (s := s.afterCancel A c.val.traderID c) hqpos
  -- the amendment goes the same way with another output
  have hsame := amended_eq_withOut A s c.val.traderID c (createAmendedOrder p q c.val)
  have hta := hsame ▸
    ht.withOut (s.writeAmended (createAmendedOrder p q c.val) c.val.traderID).out
  have hparse : s.parseMsg A vp amend c.val.traderID = .ok (afterInsert A _ o' ret) :=
    (parseMsg_of_incoming hin).trans (hta.matchAndInsert hqpos)
  have hwritten : (s.afterCancel A c.val.traderID c).written (afterInsert A s₂ o' ret) =
      ms.flatMap fun m => s.matchEvents m.1 m.2 := by
    refine written_append ?_
    rw [afterInsert_out, ht.out]
    rfl
  refine ⟨_, _, _, hparse, cancelMsg_of_cancels hcancel hid hc, heq, ?_⟩
  refine { books := ?_, fills := ?_, apart := fun m hm => ?_, newest := fun b i r hr hk => ?_,
           left := fun b i r hr hk => ?_, once := fun hr hr' hk hk' => ?_ }
  · rw [afterInsert_withOut]
    exact sameBooks_withOut _ _
  · rw [fillEntries_traded hin hta, hwritten, fillEntries_matches]
  · rw [matchesOf_traded hin hta] at hm
    exact hi₁.key_ne (hta.mem_matches m hm).2
  · exact (mem_afterInsert_key hta hw₁ hi₁ hr hk).2
  · obtain ⟨rfl, -⟩ := mem_afterInsert_key hta hw₁ hi₁ hr hk
    obtain ⟨n, rfl, hle, -⟩ := hta.reduced hw₁ hi₁
    exact ⟨rfl, hle⟩
  · exact ((parseMsg_outcome hparse).wellFormed hw).place_eq hr hr' (hk.trans hk'.symm)

/-- Trader 0 has two orders to buy at 30 and amends the first to the quantity and
price it has: it is behind the second afterwards. -/
theorem amend_eq_cancel_new_gpu :
    ∃ (s : Exchange 2 2) (o : Order 2 2), Reachable .machine testProducts s ∧
      (s.orders true o.productID).map key = [key o, (0, 1)] ∧
      ∃ s' sc s'' : Exchange 2 2, Replaces s s' sc s'' o 5 30 ∧
        (s'.orders true o.productID).map key = [(0, 1), key o] := by
  have hrun : okAnd ((initial : Exchange 2 2).runCommands .machine testProducts
      [(0, "BUY 0 GPU 5 30;".toList), (0, "BUY 1 GPU 5 30;".toList)])
      (fun s => (s.findOrder 0 0).any fun c =>
        decide ((s.orders true c.val.productID).map key = [key c.val, (0, 1)] ∧
          c.val ∈ s.orders true c.val.productID ∧ c.val.traderID = 0 ∧ c.val.orderID = 0) &&
        okAnd (s.parseMsg .machine testProducts (amendText 0 5 30) 0) fun s' =>
          decide ((s'.orders true c.val.productID).map key = [(0, 1), key c.val])) := by
    decide +kernel
  obtain ⟨s, hs, hrun⟩ := exists_of_okAnd hrun
  obtain ⟨c, -, hc⟩ := (Option.any_eq_true _ (s.findOrder 0 0)).mp hrun
  obtain ⟨hc, hrest⟩ := (Bool.and_eq_true _ _).mp hc
  obtain ⟨hkeys, hmem, ht, hid⟩ := of_decide_eq_true hc
  obtain ⟨s₁, hs₁, hkeys₁⟩ := exists_of_okAnd hrest
  have hreach : Reachable .machine testProducts s :=
    Reachable.runCommands Transition.Reachable.init hs
  obtain ⟨hamend, hcancel, hall⟩ :=
    @amend_eq_cancel_new 2 2 .machine testProducts s c.val true c.val.productID 5 30 hreach hmem
      (by decide) (by decide)
  obtain ⟨s', sc, s'', hp, -, -, hrep⟩ := hall _ _ hamend hcancel
  rw [ht, hid, hs₁] at hp
  obtain rfl := Except.ok.inj hp
  exact ⟨s, c.val, hreach, hkeys, s₁, sc, s'', hrep, of_decide_eq_true hkeys₁⟩

end PeExchange
