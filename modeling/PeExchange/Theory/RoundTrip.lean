import PeExchange.Trader
import PeExchange.Theory.Grammar

/-!
# From an offer to the order it is answered with

The exchange tells of a sell order in a text, `pe_trader` reads the text, prints
an order to buy, and the exchange reads that. The two programs share no code.
Their formats agree field by field (`decimal_isDecimal`: what `%d` prints is what
`%d` reads), and the length `find_buy_str_len` counts digit by digit is that of
the text (`findBuyStrLen_eq`).
-/

namespace PeExchange

open CFormat

variable {P T : Nat}

/-! ## Numbers -/

/-- What `%d` prints of a number that is not negative are its digits. -/
theorem decimal_isDecimal {n : Int} (h : 0 ≤ n) : IsDecimal (decimal n) n := by
  have heq : decimal n = Nat.toDigits 10 n.natAbs := if_neg (Int.not_lt.mpr h)
  rw [heq]
  refine ⟨Nat.toDigits_ne_nil, fun c hc => ?_, ?_⟩
  · exact Nat.isDigit_of_mem_toDigits (by decide) (by decide) hc
  · rw [Nat.ofDigitChars_ten_toDigits, Int.natAbs_of_nonneg h]

/-- A number below a power of ten has no more digits than its exponent. -/
theorem length_decimal_le {n : Int} {k : Nat} (h : 0 ≤ n) (hk : 0 < k) (hlt : n < 10 ^ k) :
    (decimal n).length ≤ k := by
  have heq : decimal n = Nat.toDigits 10 n.natAbs := if_neg (Int.not_lt.mpr h)
  rw [heq, Nat.length_toDigits_le_iff (by decide) hk]
  zify
  rwa [abs_of_nonneg h]

/-- Dividing by ten drops the last digit. -/
theorem length_decimal_step {n : Int} (h : 10 ≤ n) :
    (decimal n).length = (decimal (n.tdiv 10)).length + 1 := by
  have heq : decimal n = Nat.toDigits 10 n.natAbs := if_neg (by omega)
  have hdiv : n.tdiv 10 = n / 10 := Int.tdiv_eq_ediv_of_nonneg (by omega)
  have heq' : decimal (n.tdiv 10) = Nat.toDigits 10 (n.tdiv 10).natAbs := if_neg (by omega)
  have hnat : (n.tdiv 10).natAbs = n.natAbs / 10 := by omega
  rw [heq, heq', hnat, Nat.toDigits_of_base_le (by decide) (by omega), List.length_append]
  rfl

namespace PeTrader

/-- `strlen_digit` counts the digits `%d` prints. -/
theorem strlenDigit_eq {n : Int} (h : 0 ≤ n) : strlenDigit n = (decimal n).length := by
  have hdiv : n.tdiv 10 = n / 10 := Int.tdiv_eq_ediv_of_nonneg h
  rw [strlenDigit]
  by_cases hlast : n.tdiv 10 = 0
  · -- the last digit
    have hlen : (decimal n).length ≤ 1 := length_decimal_le h (by decide) (by omega)
    have hpos : 0 < (decimal n).length := List.length_pos_iff.mpr (decimal_isDecimal h).nonempty
    rw [dif_pos hlast]
    omega
  · have hge : 10 ≤ n := by omega
    have hlt : (n.tdiv 10).natAbs < n.natAbs := by omega
    have ih := @strlenDigit_eq (n.tdiv 10) (by omega)
    rw [dif_neg hlast, length_decimal_step hge, ih]
termination_by n.natAbs
decreasing_by exact hlt

/-! ## Texts -/

/-- The text of an order: its verb and its fields, one space before each. -/
theorem createBuyStr_eq (o : BuyOrder) :
    createBuyStr o = "BUY".toList ++ ' ' :: (decimal o.orderID ++ ' ' :: (o.product ++
      ' ' :: (decimal o.quantity ++ ' ' :: (decimal o.price ++ [';'])))) := by
  unfold createBuyStr
  simp only [List.append_assoc]
  rfl

theorem length_createBuyStr (o : BuyOrder) :
    (createBuyStr o).length = 8 + (decimal o.orderID).length + o.product.length +
      (decimal o.quantity).length + (decimal o.price).length := by
  have hverb : "BUY".toList.length = 3 := rfl
  rw [createBuyStr_eq]
  simp only [List.length_append, List.length_cons, List.length_nil]
  omega

/-- **The buffer of the order's text is exact**: the text and its terminator fill
it. -/
theorem findBuyStrLen_eq {o : BuyOrder} (hid : 0 ≤ o.orderID) (hq : 0 ≤ o.quantity)
    (hp : 0 ≤ o.price) : findBuyStrLen o = (createBuyStr o).length + 1 := by
  rw [length_createBuyStr]
  unfold findBuyStrLen
  rw [strlenDigit_eq hid, strlenDigit_eq hq, strlenDigit_eq hp]
  omega

end PeTrader

/-- The second word of an offer or a bid. -/
def sideWord : Bool → List Char
  | true => "BUY".toList
  | false => "SELL".toList

theorem isWord_sideWord (isBuy : Bool) : IsWord (sideWord isBuy) := by
  cases isBuy with
  | true => exact isWord_of_any nofun (by decide)
  | false => exact isWord_of_any nofun (by decide)

/-- The text of an offer or a bid: its words and its fields, one space between. -/
theorem text_market (isBuy : Bool) (product : List Char) (q p : Int) :
    (Msg.market isBuy product q p).text = "MARKET".toList ++ ' ' :: (sideWord isBuy ++
      ' ' :: (product ++ ' ' :: (decimal q ++ ' ' :: (decimal p ++ [';'])))) := by
  cases isBuy with
  | true =>
    unfold Msg.text
    simp only [List.append_assoc]
    rfl
  | false =>
    unfold Msg.text
    simp only [List.append_assoc]
    rfl

theorem length_text_market (isBuy : Bool) (product : List Char) (q p : Int) :
    (Msg.market isBuy product q p).text.length ≤ 15 + product.length + (decimal q).length +
      (decimal p).length := by
  have hmarket : "MARKET".toList.length = 6 := rfl
  have hside : (sideWord isBuy).length ≤ 4 := by cases isBuy <;> decide
  rw [text_market]
  simp only [List.length_append, List.length_cons, List.length_nil]
  omega

/-! ## Reading an offer -/

/-- The conversions of an offer behind its first word. -/
def offerConversions : List Conversion :=
  [.str maxLine, .str maxProd, .int, .int]

theorem offerFormat_eq :
    PeTrader.offerFormat = .str maxLine :: (fieldFormat offerConversions ++ [.lit ';']) := rfl

variable {product : List Char} {q p : Int}

/-- `pe_trader` reads an offer or a bid field by field. -/
theorem sscanf_market (isBuy : Bool) (hprod : IsWord product) (hlen : product.length < maxProd)
    (hq : 0 ≤ q ∧ q ≤ 999999) (hp : 0 ≤ p ∧ p ≤ 999999) :
    sscanf PeTrader.offerFormat (Msg.market isBuy product q p).text =
      .ok [.str "MARKET".toList, .str (sideWord isBuy), .str product, .int q, .int p] := by
  have hmarket : IsWord "MARKET".toList := isWord_of_any nofun (by decide)
  have hside : (sideWord isBuy).length < maxLine := by cases isBuy <;> decide
  have hdq := decimal_isDecimal hq.1
  have hdp := decimal_isDecimal hp.1
  have hreads : Reads offerConversions (' ' :: (sideWord isBuy ++ ' ' :: (product ++
      ' ' :: (decimal q ++ ' ' :: (decimal p ++ [';']))))) _ [';'] :=
    .str blank_space (isWord_sideWord isBuy) hside (stops_cons rfl _) (.str blank_space hprod hlen
      (stops_cons rfl _) (hdq.reads (stops_cons rfl _) (hdp.reads (stops_cons rfl _) .done)))
  rw [offerFormat_eq, text_market, sscanf_word hmarket (by decide) (stops_cons rfl _),
    sscanf_of_reads hreads]
  show Except.ok [_, _, _, Arg.int hdq.numeral.value, Arg.int hdp.numeral.value] = _
  rw [hdq.numeral_value hq.2, hdp.numeral_value hp.2]
  rfl

/-- `create_buy_order` makes the order that answers an offer. -/
theorem PeTrader.createBuyOrder_offer (hprod : IsWord product) (hlen : product.length < maxProd)
    (hq : 0 ≤ q ∧ q ≤ 999999) (hp : 0 ≤ p ∧ p ≤ 999999) (id : Int) (currBuy : BuyOrder) :
    createBuyOrder id (Msg.market false product q p).text currBuy =
      .ok (some (⟨product, q, p, id⟩, id + 1)) := by
  rw [createBuyOrder, scan_eq_ok.mpr (sscanf_market false hprod hlen hq hp)]
  rfl

/-! ## Reading the order -/

variable {vp : ValidProducts P} {ind : Fin T} {t : Trader P} {id : Int}

/-- A name of the list is found, at its first place. -/
theorem findProduct_of_name (i : Fin P) (h : product = vp.name i) :
    ∃ prod, findProduct vp product = some prod ∧ vp.name prod = product := by
  have hsome : (findProduct vp product).isSome :=
    List.find?_isSome.mpr ⟨i, List.mem_finRange i, by simpa using h⟩
  obtain ⟨prod, hprod⟩ := Option.isSome_iff_exists.mp hsome
  exact ⟨prod, hprod, (findProduct_some hprod).symm⟩

/-- The exchange reads the text of an order field by field. -/
theorem sscanf_createBuyStr (hprod : IsWord product) (hlen : product.length < maxProd)
    (hid : 0 ≤ id ∧ id ≤ 999999) (hq : 0 ≤ q ∧ q ≤ 999999) (hp : 0 ≤ p ∧ p ≤ 999999) :
    sscanf orderFormat (PeTrader.createBuyStr ⟨product, q, p, id⟩) =
      .ok [.int id, .str product, .int q, .int p] := by
  have hbuy : IsWord "BUY".toList := isWord_of_any nofun (by decide)
  have hdid := decimal_isDecimal hid.1
  have hdq := decimal_isDecimal hq.1
  have hdp := decimal_isDecimal hp.1
  have hreads : Reads Verb.buy.conversions (' ' :: (decimal id ++ ' ' :: (product ++
      ' ' :: (decimal q ++ ' ' :: (decimal p ++ [';']))))) _ [';'] :=
    hdid.reads (stops_cons rfl _) (.str blank_space hprod hlen (stops_cons rfl _)
      (hdq.reads (stops_cons rfl _) (hdp.reads (stops_cons rfl _) .done)))
  rw [PeTrader.createBuyStr_eq, sscanf_orderFormat hbuy (stops_cons rfl _),
    sscanf_of_reads hreads]
  show Except.ok [Arg.int hdid.numeral.value, _, Arg.int hdq.numeral.value,
    Arg.int hdp.numeral.value] = _
  rw [hdid.numeral_value hid.2, hdq.numeral_value hq.2, hdp.numeral_value hp.2]
  rfl

/-- `create_buy_sell_order` takes the order for the trader whose turn its
identifier is. -/
theorem createBuySellOrder_createBuyStr {prod : Fin P} (hprod : IsWord product)
    (hfind : findProduct vp product = some prod) (hname : vp.name prod = product)
    (hid : 0 ≤ id ∧ id ≤ 999999) (hq : 1 ≤ q ∧ q ≤ 999999) (hp : 1 ≤ p ∧ p ≤ 999999)
    (ht : t.orderID = id) (hlen : (PeTrader.createBuyStr ⟨product, q, p, id⟩).length < maxLine) :
    createBuySellOrder vp (PeTrader.createBuyStr ⟨product, q, p, id⟩) ind t =
      .ok (some (⟨product, q, p, id, prod, ind, true⟩, { t with orderID := id + 1 })) := by
  have hscan := scan_eq_ok.mpr (sscanf_createBuyStr hprod (hname ▸ vp.fits prod) hid
    ⟨by omega, hq.2⟩ ⟨by omega, hp.2⟩)
  have hbuy : IsWord "BUY".toList := isWord_of_any nofun (by decide)
  have htoken : token (PeTrader.createBuyStr ⟨product, q, p, id⟩) = "BUY".toList := by
    rw [PeTrader.createBuyStr_eq, token_append hbuy (stops_cons rfl _)]
  have hcons : ∃ msg, PeTrader.createBuyStr ⟨product, q, p, id⟩ = 'B' :: msg := by
    rw [PeTrader.createBuyStr_eq]
    exact ⟨_, rfl⟩
  obtain ⟨msg, hmsg⟩ := hcons
  rw [hmsg] at hscan htoken hlen ⊢
  rw [createBuySellOrder_eq vp hlen rfl, htoken, if_neg (by decide), if_pos rfl, createOrder,
    hscan]
  show Except.ok (checkOrder vp ind t true id product q p) = _
  rw [checkOrder, hfind]
  simp only
  rw [if_neg (by omega), if_neg (by omega), if_neg (by omega), ht]

/-! ## There and back -/

/-- `write_accepted` or `write_amended`, called for the order of `seller`, writes
`m` to `dest`. -/
def Announced (s : Exchange P T) (o : Order P T) (seller dest : Fin T) (m : Msg) : Prop :=
  ∃ es, ((s.writeAccepted o seller).out = s.out ++ es ∨
    (s.writeAmended o seller).out = s.out ++ es) ∧ .message dest m ∈ es

variable {s : Exchange P T} {o : Order P T} {seller dest : Fin T} {m : Msg}

/-- The others are told of the order. -/
theorem Announced.eq_market (h : Announced s o seller dest m) (hdest : dest ≠ seller) :
    m = .market o.isBuy o.product o.quantity o.price := by
  obtain ⟨es, hout, hmem⟩ := h
  -- either function writes to the seller first
  have htail : .message dest m ∈ s.toOthers seller (Exchange.marketMsg o) := by
    rcases hout with hout | hout
    · obtain rfl := List.append_cancel_left hout
      simpa [hdest] using hmem
    · obtain rfl := List.append_cancel_left hout
      simpa [hdest] using hmem
  obtain ⟨i, -, heq⟩ := List.mem_map.mp htail
  exact ((Event.message.inj heq).2).symm

/-- **An offer comes back as an order for it.** The message that announces a sell
order is read by `pe_trader`, which prints an order for the same product, quantity
and price under its next identifier; the exchange accepts that order from the
trader the identifier belongs to. All texts fit their buffers. -/
theorem offer_round_trip (h : Announced s o seller dest m) (hdest : dest ≠ seller)
    (hsell : o.isBuy = false) {i : Fin P} (hname : o.product = vp.name i) (hne : o.product ≠ [])
    (hq : 1 ≤ o.quantity ∧ o.quantity ≤ 999) (hp : 1 ≤ o.price ∧ o.price ≤ 999999)
    (hid : 0 ≤ id ∧ id ≤ 999999) (ht : t.orderID = id) :
    m.text.length < maxLine ∧
    PeTrader.createBuyOrder id m.text .zero =
      .ok (some (⟨o.product, o.quantity, o.price, id⟩, id + 1)) ∧
    PeTrader.findBuyStrLen ⟨o.product, o.quantity, o.price, id⟩ =
      (PeTrader.createBuyStr ⟨o.product, o.quantity, o.price, id⟩).length + 1 ∧
    (PeTrader.createBuyStr ⟨o.product, o.quantity, o.price, id⟩).length < maxLine ∧
    ∃ prod, vp.name prod = o.product ∧
      createBuySellOrder vp (PeTrader.createBuyStr ⟨o.product, o.quantity, o.price, id⟩) ind t =
        .ok (some (⟨o.product, o.quantity, o.price, id, prod, ind, true⟩,
          { t with orderID := id + 1 })) := by
  obtain rfl := h.eq_market hdest
  rw [hsell]
  have hword : IsWord o.product :=
    ⟨hne, fun c hc => not_space_of_isAlphanum (vp.alnum i c (hname ▸ hc))⟩
  have hfits : o.product.length < maxProd := hname ▸ vp.fits i
  -- at most 16 characters for the name and six digits for a number
  have hlenid : (decimal id).length ≤ 6 := length_decimal_le hid.1 (by decide) (by omega)
  have hlenq : (decimal o.quantity).length ≤ 3 :=
    length_decimal_le (by omega) (by decide) (by omega)
  have hlenp : (decimal o.price).length ≤ 6 :=
    length_decimal_le (by omega) (by decide) (by omega)
  have hbuffer : (PeTrader.createBuyStr ⟨o.product, o.quantity, o.price, id⟩).length < maxLine := by
    rw [PeTrader.length_createBuyStr]
    unfold maxLine
    unfold maxProd at hfits
    simp only
    omega
  refine ⟨?_, ?_, ?_, hbuffer, ?_⟩
  · have hlen := length_text_market false o.product o.quantity o.price
    unfold maxLine
    unfold maxProd at hfits
    omega
  · exact PeTrader.createBuyOrder_offer hword hfits ⟨by omega, by omega⟩ ⟨by omega, hp.2⟩ id .zero
  · exact PeTrader.findBuyStrLen_eq hid.1 (by simp only; omega) (by simp only; omega)
  · obtain ⟨prod, hfind, hprod⟩ := findProduct_of_name i hname
    exact ⟨prod, hprod, createBuySellOrder_createBuyStr hword hfind hprod hid
      ⟨hq.1, by omega⟩ hp ht hbuffer⟩

/-- Trader 0 sells 5 units at 30 and trader 1 has sent nothing yet. -/
theorem offer_round_trip_gpu :
    ∃ prod, testProducts.name prod = "GPU".toList ∧
      createBuySellOrder testProducts (PeTrader.createBuyStr ⟨"GPU".toList, 5, 30, 0⟩) (1 : Fin 2)
        ((initial : Exchange 2 2).traders 1) =
      .ok (some (⟨"GPU".toList, 5, 30, 0, prod, 1, true⟩,
        { (initial : Exchange 2 2).traders 1 with orderID := 0 + 1 })) := by
  have hannounced : Announced (initial : Exchange 2 2)
      ⟨"GPU".toList, 5, 30, 0, 0, 0, false⟩ 0 1 (.market false "GPU".toList 5 30) :=
    ⟨_, .inl rfl, by decide⟩
  have hname : "GPU".toList = testProducts.name 0 := rfl
  have ht : ((initial : Exchange 2 2).traders 1).orderID = 0 := rfl
  exact (offer_round_trip hannounced (by decide) rfl hname (by decide) (by decide) (by decide)
    (by decide) ht).2.2.2.2

end PeExchange
