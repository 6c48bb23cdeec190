import PeExchange.Lib.Fields
import PeExchange.Theory.Rejection

/-!
# What `parse_msg` accepts

`parse_msg` looks at the first letter of a message, counts its spaces and scans
it with formats that skip white space, stop at the first character that does not
fit and ignore what follows the last field. The language that results:

- `Form.Of`: a message is a command word, fields with white space (or nothing)
  before each, and a tail, and has as many spaces as fields.
- `Exchange.Takes`: the values of the fields are in range and fit the state.
- `accepted_iff`: the accepted messages are those of a form whose values fit.
- `parseMsg_ok_iff`: `parse_msg` has defined behaviour except on messages with
  too long a product name, `Overlong`.
-/

namespace PeExchange

open CFormat LinkedList

variable {P T : Nat}

/-! ## Forms -/

/-- The commands. -/
inductive Verb where
  | buy
  | sell
  | amend
  | cancel
deriving DecidableEq, Repr

namespace Verb

def word : Verb → List Char
  | .buy => "BUY".toList
  | .sell => "SELL".toList
  | .amend => "AMEND".toList
  | .cancel => "CANCEL".toList

/-- The commands that make a new order. -/
def IsNew : Verb → Prop
  | .buy => True
  | .sell => True
  | _ => False

/-- The conversions for what follows the word. -/
def conversions : Verb → List Conversion
  | .amend => [.int, .int, .int]
  | .cancel => [.int]
  | _ => [.int, .str maxProd, .int, .int]

theorem conversions_of_isNew {v : Verb} (hv : v.IsNew) :
    v.conversions = [.int, .str maxProd, .int, .int] := by
  cases v with
  | buy => rfl
  | sell => rfl
  | amend => exact hv.elim
  | cancel => exact hv.elim

theorem isWord (v : Verb) : IsWord v.word := by
  cases v with
  | buy => exact isWord_of_any nofun (by decide)
  | sell => exact isWord_of_any nofun (by decide)
  | amend => exact isWord_of_any nofun (by decide)
  | cancel => exact isWord_of_any nofun (by decide)

end Verb

/-- A message cut into its parts. -/
structure Form where
  verb : Verb
  fields : List (List Char × Field)
  tail : List Char

/-- The values that `sscanf` stores. -/
def Form.values (f : Form) : List Arg :=
  f.fields.map fun g => g.2.arg

/-- `f` is how the formats cut `msg`. The word of a new order is scanned with
`%s`, so white space must follow it. -/
structure Form.Of (f : Form) (msg : List Char) : Prop where
  spaces : spaceCount msg = f.verb.conversions.length
  cut : ∃ body, msg = f.verb.word ++ body ∧
    (f.verb.IsNew → Stops (fun c => !isSpace c) body) ∧
    Reads f.verb.conversions body f.fields f.tail

/-- Limits of quantities and prices. -/
def InLimits (n : Int) : Prop :=
  1 ≤ n ∧ n ≤ 999999

/-- Limits of order identifiers. -/
def IdInLimits (n : Int) : Prop :=
  0 ≤ n ∧ n ≤ 999999

namespace Exchange

/-- An order of a trader rests under an identifier. -/
def Rests (s : Exchange P T) (ind : Fin T) (id : Int) : Prop :=
  ∃ b i, ∃ o ∈ s.orders b i, o.traderID = ind ∧ o.orderID = id

/-- The values of a command are in range and fit the state. -/
def Takes (vp : ValidProducts P) (s : Exchange P T) (ind : Fin T) : Verb → List Arg → Prop
  | .amend, [.int id, .int quantity, .int price] =>
    InLimits quantity ∧ InLimits price ∧ IdInLimits id ∧ s.Rests ind id
  | .cancel, [.int id] => IdInLimits id ∧ s.Rests ind id
  | .buy, [.int id, .str product, .int quantity, .int price] =>
    (∃ i, product = vp.name i) ∧ InLimits quantity ∧
      (id = (s.traders ind).orderID ∧ IdInLimits id) ∧ InLimits price
  | .sell, [.int id, .str product, .int quantity, .int price] =>
    (∃ i, product = vp.name i) ∧ InLimits quantity ∧
      (id = (s.traders ind).orderID ∧ IdInLimits id) ∧ InLimits price
  | _, _ => False

end Exchange

/-! ## Scans -/

variable {msg body : List Char} {args : List Arg}

theorem scan_eq_ok {fmt : List Directive} :
    scan fmt msg = .ok args ↔ sscanf fmt msg = .ok args := by
  rw [scan]
  cases sscanf fmt msg with
  | error e =>
    constructor
    · intro h
      cases h
    · intro h
      cases h
  | ok a => exact ⟨fun h => congrArg _ (Except.ok.inj h), fun h => congrArg _ (Except.ok.inj h)⟩

theorem scan_eq_error {fmt : List Directive} :
    (∃ e, scan fmt msg = .error e) ↔ ∃ e, sscanf fmt msg = .error e := by
  rw [scan]
  cases sscanf fmt msg with
  | error e => exact ⟨fun _ => ⟨e, rfl⟩, fun _ => ⟨.overflow e, rfl⟩⟩
  | ok a =>
    constructor
    · rintro ⟨e, h⟩
      cases h
    · rintro ⟨e, h⟩
      cases h

/-- The format of a new order scans the fields behind its first word. -/
theorem sscanf_orderFormat {w : List Char} (hw : IsWord w)
    (hstop : Stops (fun c => !isSpace c) body) :
    sscanf orderFormat (w ++ body) =
      sscanf (fieldFormat Verb.buy.conversions ++ [.lit ';']) body :=
  sscanf_skipStr hw hstop

theorem amendIdFormat_eq :
    amendIdFormat = Verb.amend.word.map .lit ++ (fieldFormat Verb.amend.conversions ++ []) := rfl

theorem cancelFormat_eq :
    cancelFormat = Verb.cancel.word.map .lit ++ (fieldFormat Verb.cancel.conversions ++ []) := rfl

/-! ## Checks -/

/-- `create_order` makes an order of the values that are taken. -/
theorem checkOrder_isSome {vp : ValidProducts P} {ind : Fin T} {t : Trader P} {isBuy : Bool}
    {id q p : Int} {product : List Char} :
    (∃ r, checkOrder vp ind t isBuy id product q p = some r) ↔
      (∃ i, product = vp.name i) ∧ InLimits q ∧ (id = t.orderID ∧ IdInLimits id) ∧
        InLimits p := by
  unfold checkOrder InLimits IdInLimits
  constructor
  · rintro ⟨r, h⟩
    cases hf : findProduct vp product with
    | none =>
      rw [hf] at h
      cases h
    | some i =>
      simp only [hf] at h
      split at h
      · cases h
      split at h
      · cases h
      split at h
      · cases h
      exact ⟨⟨i, findProduct_some hf⟩, by omega, by omega, by omega⟩
  · rintro ⟨⟨i, hi⟩, hq, hid, hp⟩
    have hsome : (findProduct vp product).isSome := by
      rw [findProduct, List.find?_isSome]
      exact ⟨i, List.mem_finRange i, decide_eq_true hi⟩
    obtain ⟨j, hj⟩ := Option.isSome_iff_exists.mp hsome
    refine ⟨(⟨product, q, p, id, j, ind, isBuy⟩, { t with orderID := t.orderID + 1 }), ?_⟩
    rw [hj]
    dsimp only
    rw [if_neg (by omega), if_neg (by omega), if_neg (by omega)]

namespace Exchange

variable {A : Arith} {vp : ValidProducts P} {s s' : Exchange P T} {ind : Fin T} {v : Verb}

theorem findOrder_isSome {id : Int} :
    (∃ c, s.findOrder ind id = some c) ↔ s.Rests ind id := by
  constructor
  · rintro ⟨c, hc⟩
    obtain ⟨ht, hid, b, i, hin⟩ := findOrder_some hc
    exact ⟨b, i, c.val, hin.mem, ht, hid⟩
  · rintro ⟨b, i, o, ho, hk⟩
    cases hf : s.findOrder ind id with
    | none => exact absurd hk (findOrder_none.mp hf b i o ho)
    | some c => exact ⟨c, rfl⟩

theorem checkAmendArgs_isSome {args : AmendArgs} :
    (∃ c, s.checkAmendArgs ind args = some c) ↔
      InLimits args.quantity ∧ InLimits args.price ∧ IdInLimits args.id ∧
        s.Rests ind args.id := by
  unfold checkAmendArgs InLimits IdInLimits
  constructor
  · rintro ⟨c, h⟩
    split at h
    · cases h
    split at h
    · cases h
    split at h
    · cases h
    exact ⟨by omega, by omega, by omega, findOrder_isSome.mp ⟨c, h⟩⟩
  · rintro ⟨hq, hp, hid, hrests⟩
    rw [if_neg (by omega), if_neg (by omega), if_neg (by omega)]
    exact findOrder_isSome.mpr hrests

/-- The values that are taken are as many as there are conversions. -/
theorem Takes.length_eq (h : s.Takes vp ind v args) : args.length = v.conversions.length := by
  unfold Takes at h
  split at h
  · rfl
  · rfl
  · rfl
  · rfl
  · exact h.elim

theorem Takes.ne_nil (h : s.Takes vp ind v args) : args ≠ [] := by
  rintro rfl
  have hlen := h.length_eq
  cases v <;> cases hlen

theorem Takes.of_new (hv : v.IsNew) (h : s.Takes vp ind v args) :
    ∃ id product q p, args = [.int id, .str product, .int q, .int p] ∧
      (∃ i, product = vp.name i) ∧ InLimits q ∧ (id = (s.traders ind).orderID ∧ IdInLimits id) ∧
      InLimits p := by
  unfold Takes at h
  split at h
  · exact hv.elim
  · exact hv.elim
  · exact ⟨_, _, _, _, rfl, h⟩
  · exact ⟨_, _, _, _, rfl, h⟩
  · exact h.elim

theorem takes_new (hv : v.IsNew) {id q p : Int} {product : List Char} :
    s.Takes vp ind v [.int id, .str product, .int q, .int p] ↔
      (∃ i, product = vp.name i) ∧ InLimits q ∧ (id = (s.traders ind).orderID ∧ IdInLimits id) ∧
        InLimits p := by
  cases v with
  | buy => exact Iff.rfl
  | sell => exact Iff.rfl
  | amend => exact hv.elim
  | cancel => exact hv.elim

theorem Takes.of_amend (h : s.Takes vp ind .amend args) :
    ∃ id q p, args = [.int id, .int q, .int p] ∧ InLimits q ∧ InLimits p ∧ IdInLimits id ∧
      s.Rests ind id := by
  unfold Takes at h
  split at h
  · exact ⟨_, _, _, rfl, h⟩
  · rename_i heq
    cases heq
  · rename_i heq
    cases heq
  · rename_i heq
    cases heq
  · exact h.elim

theorem Takes.of_cancel (h : s.Takes vp ind .cancel args) :
    ∃ id, args = [.int id] ∧ IdInLimits id ∧ s.Rests ind id := by
  unfold Takes at h
  split at h
  · rename_i heq
    cases heq
  · exact ⟨_, rfl, h⟩
  · rename_i heq
    cases heq
  · rename_i heq
    cases heq
  · exact h.elim

/-! ## Commands -/

theorem createOrder_isSome (hv : v.IsNew) {isBuy : Bool} :
    (∃ r, createOrder vp msg ind (s.traders ind) isBuy = .ok (some r)) ↔
      ∃ args, scan orderFormat msg = .ok args ∧ s.Takes vp ind v args := by
  constructor
  · rintro ⟨r, h⟩
    obtain ⟨args, hargs, h⟩ := bind_eq_ok h
    refine ⟨args, hargs, ?_⟩
    split at h
    · -- `create_order` makes the same checks for either side
      have hchecks := checkOrder_isSome.mp ⟨r, Except.ok.inj h⟩
      cases v with
      | buy => exact hchecks
      | sell => exact hchecks
      | amend => exact hv.elim
      | cancel => exact hv.elim
    · cases h
  · rintro ⟨args, hargs, htakes⟩
    obtain ⟨id, product, q, p, rfl, hchecks⟩ := htakes.of_new hv
    obtain ⟨r, hr⟩ := checkOrder_isSome.mpr hchecks
    refine ⟨r, ?_⟩
    rw [createOrder, hargs]
    exact congrArg Except.ok hr

/-- A new order is accepted when it has the right number of spaces and its first
word and values are right. -/
theorem newOrderMsg_isSome {x : Char} {msg : List Char} (hlen : (x :: msg).length < maxLine)
    (hx : isSpace x = false) :
    (∃ r, s.newOrderMsg vp (x :: msg) ind = .ok (some r)) ↔
      ∃ v : Verb, v.IsNew ∧ spaceCount (x :: msg) = 4 ∧ token (x :: msg) = v.word ∧
        ∃ args, scan orderFormat (x :: msg) = .ok args ∧ s.Takes vp ind v args := by
  rw [newOrderMsg, createBuySellOrder_eq vp hlen hx]
  constructor
  · rintro ⟨r, h⟩
    by_cases hspace : spaceCount (x :: msg) = 4
    · rw [if_neg (not_not.mpr hspace)] at h
      obtain ⟨r', hr, h⟩ := bind_eq_ok h
      cases r' with
      | none => cases h
      | some r' =>
        split at hr
        · rename_i hword
          have hv : Verb.sell.IsNew := trivial
          exact ⟨.sell, hv, hspace, hword, (createOrder_isSome hv).mp ⟨r', hr⟩⟩
        · split at hr
          · rename_i hword
            have hv : Verb.buy.IsNew := trivial
            exact ⟨.buy, hv, hspace, hword, (createOrder_isSome hv).mp ⟨r', hr⟩⟩
          · cases hr
    · rw [if_pos hspace] at h
      cases h
  · rintro ⟨v, hv, hspace, hword, hargs⟩
    rw [if_neg (not_not.mpr hspace)]
    -- `SELL` is tried before `BUY`
    have hcreate : ∃ r, (if token (x :: msg) = "SELL".toList then
        createOrder vp (x :: msg) ind (s.traders ind) false
      else if token (x :: msg) = "BUY".toList then
        createOrder vp (x :: msg) ind (s.traders ind) true
      else .ok none) = .ok (some r) := by
      cases v with
      | sell =>
        rw [if_pos (show token (x :: msg) = "SELL".toList from hword)]
        exact (createOrder_isSome hv).mpr hargs
      | buy =>
        rw [if_neg (by rw [hword]; decide),
          if_pos (show token (x :: msg) = "BUY".toList from hword)]
        exact (createOrder_isSome hv).mpr hargs
      | amend => exact hv.elim
      | cancel => exact hv.elim
    obtain ⟨⟨o, t⟩, hr⟩ := hcreate
    rw [hr]
    exact ⟨_, rfl⟩

/-- What the second format of an amendment scans, the first one skips or scans. -/
theorem scan_amendFormat {id q p : Int}
    (h : scan amendIdFormat msg = .ok [.int id, .int q, .int p]) :
    scan amendFormat msg = .ok [.int q, .int p] := by
  obtain ⟨rest, rfl, hrest⟩ := exists_of_sscanf_lits (scan_eq_ok.mp h) (List.cons_ne_nil _ _)
  rw [scan_eq_ok]
  refine (sscanf_lits_append _ _ _).trans ?_
  rw [sscanf_space] at hrest ⊢
  exact sscanf_skip_of_int hrest

theorem amendOrderMsg_isSome :
    (∃ r, s.amendOrderMsg A msg ind = .ok (some r)) ↔
      spaceCount msg = 3 ∧ ∃ args, scan amendIdFormat msg = .ok args ∧
        s.Takes vp ind .amend args := by
  rw [amendOrderMsg]
  constructor
  · rintro ⟨r, h⟩
    obtain ⟨args, hargs, h⟩ := bind_eq_ok h
    split at h
    · rename_i q p
      obtain ⟨c, hc, h⟩ := bind_eq_ok h
      cases c with
      | none => cases h
      | some c =>
        -- the second scan stores what the first did, and the identifier
        obtain ⟨id, hid⟩ := scan_amend hargs
        rw [checkValidAmend] at hc
        by_cases hspace : spaceCount msg = 3
        · rw [if_neg (not_not.mpr hspace)] at hc
          obtain ⟨args', hargs', hc⟩ := bind_eq_ok hc
          obtain rfl := Except.ok.inj (hargs'.symm.trans hid)
          exact ⟨hspace, _, hid, checkAmendArgs_isSome.mp ⟨c, Except.ok.inj hc⟩⟩
        · rw [if_pos hspace] at hc
          cases hc
    · cases h
  · rintro ⟨hspace, args, hargs, htakes⟩
    obtain ⟨id, q, p, rfl, hchecks⟩ := htakes.of_amend
    have hskip := scan_amendFormat hargs
    obtain ⟨c, hc⟩ := (@checkAmendArgs_isSome _ _ s ind ⟨id, q, p⟩).mpr hchecks
    have hvalid : s.checkValidAmend q p ind msg = .ok (some c) := by
      rw [checkValidAmend, if_neg (not_not.mpr hspace), hargs]
      exact congrArg Except.ok hc
    rw [hskip]
    show ∃ r, (s.checkValidAmend q p ind msg >>= _) = _
    rw [hvalid]
    exact ⟨_, rfl⟩

theorem cancelMsg_isSome :
    (∃ r, s.cancelMsg A msg ind = .ok (some r)) ↔
      spaceCount msg = 1 ∧ ∃ args, scan cancelFormat msg = .ok args ∧
        s.Takes vp ind .cancel args := by
  rw [cancelMsg]
  constructor
  · rintro ⟨r, h⟩
    by_cases hspace : spaceCount msg = 1
    · rw [if_neg (not_not.mpr hspace)] at h
      obtain ⟨args, hargs, h⟩ := bind_eq_ok h
      refine ⟨hspace, args, hargs, ?_⟩
      split at h
      · rename_i id
        by_cases hid : id < 0 ∨ id > 999999
        · rw [if_pos hid] at h
          cases h
        · rw [if_neg hid] at h
          cases hf : s.findOrder ind id with
          | none =>
            rw [hf] at h
            cases h
          | some c =>
            have hlim : IdInLimits id := by
              rw [IdInLimits]
              omega
            exact ⟨hlim, findOrder_isSome.mp ⟨c, hf⟩⟩
      · cases h
    · rw [if_pos hspace] at h
      cases h
  · rintro ⟨hspace, args, hargs, htakes⟩
    obtain ⟨id, rfl, ⟨h0, h1⟩, hrests⟩ := htakes.of_cancel
    obtain ⟨c, hc⟩ := findOrder_isSome.mpr hrests
    rw [if_neg (not_not.mpr hspace), hargs]
    -- one value was assigned, so the checks on it are next
    show ∃ r, (if id < 0 ∨ id > 999999 then _ else _ : Except Fault _) = _
    rw [if_neg (by omega), hc]
    exact ⟨_, rfl⟩

/-! ## Acceptance -/

/-- A new order's fields are those scanned behind its first word. -/
theorem new_forms (hv : v.IsNew) :
    (∃ f : Form, f.verb = v ∧ f.Of msg ∧ s.Takes vp ind v f.values) ↔
      spaceCount msg = 4 ∧ token msg = v.word ∧
        ∃ args, scan orderFormat msg = .ok args ∧ s.Takes vp ind v args := by
  have hconv : v.conversions = Verb.buy.conversions := Verb.conversions_of_isNew hv
  -- the `;` of the format is compared after all values are assigned
  have hlit : ∀ cs, sscanf [.lit ';'] cs = .ok [] := by
    intro cs
    cases cs with
    | nil => rfl
    | cons c cs =>
      rw [sscanf]
      split
      · exact sscanf_nil cs
      · rfl
  constructor
  · rintro ⟨f, rfl, ⟨hspace, body, rfl, hstop, hreads⟩, htakes⟩
    have hscan := (sscanf_fields_iff hlit).mpr ⟨_, _, hreads, rfl⟩
    rw [hconv] at hspace hscan
    refine ⟨hspace, token_append f.verb.isWord (hstop hv), f.values, ?_, htakes⟩
    rw [scan_eq_ok, sscanf_orderFormat f.verb.isWord (hstop hv)]
    exact hscan.1
  · rintro ⟨hspace, hword, args, hargs, htakes⟩
    -- the first word is cut off before the fields are scanned
    have hmsg := token_append_afterToken msg
    have hstop : Stops (fun c => !isSpace c) (afterToken msg) := stops_dropWhile _ _
    rw [hword] at hmsg
    rw [scan_eq_ok, ← hmsg, sscanf_orderFormat v.isWord hstop, ← hconv] at hargs
    obtain ⟨fs, rest, hreads, rfl⟩ := (sscanf_fields_iff hlit).mp ⟨hargs, htakes.length_eq⟩
    exact ⟨⟨v, fs, rest⟩, rfl, ⟨by rw [hspace, hconv]; rfl, afterToken msg, hmsg.symm,
      fun _ => hstop, hreads⟩, htakes⟩

/-- The other commands' fields are those scanned behind the word in the format. -/
theorem lit_forms {fmt : List Directive} (hv : ¬v.IsNew)
    (hfmt : fmt = v.word.map .lit ++ (fieldFormat v.conversions ++ [])) :
    (∃ f : Form, f.verb = v ∧ f.Of msg ∧ s.Takes vp ind v f.values) ↔
      spaceCount msg = v.conversions.length ∧
        ∃ args, scan fmt msg = .ok args ∧ s.Takes vp ind v args := by
  subst hfmt
  constructor
  · rintro ⟨f, rfl, ⟨hspace, body, rfl, -, hreads⟩, htakes⟩
    refine ⟨hspace, f.values, ?_, htakes⟩
    rw [scan_eq_ok, sscanf_lits_append]
    exact ((sscanf_fields_iff sscanf_nil).mpr ⟨_, _, hreads, rfl⟩).1
  · rintro ⟨hspace, args, hargs, htakes⟩
    obtain ⟨body, rfl, hbody⟩ := exists_of_sscanf_lits (scan_eq_ok.mp hargs) htakes.ne_nil
    obtain ⟨fs, rest, hreads, rfl⟩ := (sscanf_fields_iff sscanf_nil).mp ⟨hbody, htakes.length_eq⟩
    exact ⟨⟨v, fs, rest⟩, rfl, ⟨hspace, body, rfl, fun h => absurd h hv, hreads⟩, htakes⟩

/-- The command is carried out. -/
def Accepted (A : Arith) (vp : ValidProducts P) (s : Exchange P T) (msg : List Char)
    (ind : Fin T) : Prop :=
  (∃ r, s.incoming A vp msg ind = .ok (some r)) ∨ ∃ s', s.cancelMsg A msg ind = .ok (some s')

/-- **The accepted language.** -/
theorem accepted_iff (hlen : msg.length < maxLine) :
    s.Accepted A vp msg ind ↔ ∃ f : Form, f.Of msg ∧ s.Takes vp ind f.verb f.values := by
  constructor
  · rintro (⟨r, h⟩ | h)
    · unfold incoming at h
      split at h
      · obtain ⟨v, hv, hnew⟩ := (newOrderMsg_isSome hlen rfl).mp ⟨r, h⟩
        obtain ⟨f, rfl, hf, htakes⟩ := (new_forms hv).mpr hnew
        exact ⟨f, hf, htakes⟩
      · obtain ⟨v, hv, hnew⟩ := (newOrderMsg_isSome hlen rfl).mp ⟨r, h⟩
        obtain ⟨f, rfl, hf, htakes⟩ := (new_forms hv).mpr hnew
        exact ⟨f, hf, htakes⟩
      · obtain ⟨f, hverb, hf, htakes⟩ :=
          (lit_forms (v := .amend) id amendIdFormat_eq).mpr (amendOrderMsg_isSome.mp ⟨r, h⟩)
        exact ⟨f, hf, hverb ▸ htakes⟩
      · cases h
    · obtain ⟨f, hverb, hf, htakes⟩ :=
        (lit_forms (v := .cancel) id cancelFormat_eq).mpr (cancelMsg_isSome.mp h)
      exact ⟨f, hf, hverb ▸ htakes⟩
  · rintro ⟨f, hf, htakes⟩
    obtain ⟨body, hmsg, -⟩ := hf.cut
    -- the first letter of the word is the one `parse_msg` dispatches on
    cases hverb : f.verb with
    | buy =>
      rw [hverb] at hmsg htakes
      obtain rfl : msg = 'B' :: ("UY".toList ++ body) := hmsg
      have hv : Verb.buy.IsNew := trivial
      exact .inl ((newOrderMsg_isSome hlen rfl).mpr
        ⟨.buy, hv, (new_forms hv).mp ⟨f, hverb, hf, htakes⟩⟩)
    | sell =>
      rw [hverb] at hmsg htakes
      obtain rfl : msg = 'S' :: ("ELL".toList ++ body) := hmsg
      have hv : Verb.sell.IsNew := trivial
      exact .inl ((newOrderMsg_isSome hlen rfl).mpr
        ⟨.sell, hv, (new_forms hv).mp ⟨f, hverb, hf, htakes⟩⟩)
    | amend =>
      rw [hverb] at hmsg htakes
      obtain rfl : msg = 'A' :: ("MEND".toList ++ body) := hmsg
      exact .inl (amendOrderMsg_isSome.mpr
        ((lit_forms id amendIdFormat_eq).mp ⟨f, hverb, hf, htakes⟩))
    | cancel =>
      rw [hverb] at htakes
      exact .inr (cancelMsg_isSome.mpr
        ((lit_forms id cancelFormat_eq).mp ⟨f, hverb, hf, htakes⟩))

/-! ## Answers -/

/-- A message on which `check_for_match` is called is no `CANCEL`. -/
theorem parseMsg_of_incoming {s₁ : Exchange P T} {o : Order P T}
    (h : s.incoming A vp msg ind = .ok (some (s₁, o))) :
    s.parseMsg A vp msg ind = s₁.matchAndInsert A o := by
  unfold parseMsg
  split
  · cases h
  · rw [h]
    rfl

/-- A message that `cancel_msg` accepts is a `CANCEL`. -/
theorem parseMsg_of_cancelMsg (h : s.cancelMsg A msg ind = .ok (some s')) :
    s.parseMsg A vp msg ind = .ok s' := by
  obtain ⟨-, args, hargs, htakes⟩ := (@cancelMsg_isSome _ _ msg A vp s ind).mp ⟨s', h⟩
  obtain ⟨body, rfl, -⟩ := exists_of_sscanf_lits (scan_eq_ok.mp hargs) htakes.ne_nil
  show (s.cancelMsg A _ ind >>= _) = _
  rw [h]
  rfl

/-- **`INVALID` is the answer to what is not carried out.** -/
theorem not_invalid_iff (h : s.parseMsg A vp msg ind = .ok s') :
    (ind, Msg.invalid) ∉ messages (s.written s') ↔ s.Accepted A vp msg ind := by
  constructor
  · intro hno
    cases parseMsg_outcome h with
    | rejected =>
      have hw : s.written (s.writeInvalid ind) = [.message ind .invalid] := written_append rfl
      rw [hw] at hno
      exact absurd List.mem_cons_self hno
    | traded hin _ => exact .inl ⟨_, hin⟩
    | cancelled hmsg _ => exact .inr ⟨_, hmsg⟩
  · rintro (⟨⟨s₁, o⟩, hin⟩ | ⟨s₂, hmsg⟩)
    · -- the loop ends, and no message it writes is `INVALID`
      obtain ⟨ms, s₂, o', ret, ht, heq⟩ :=
        matchAndInsert_trades (A := A) (s := s₁) (incoming_enters hin).quantity_pos
      obtain rfl := Except.ok.inj ((heq.symm.trans (parseMsg_of_incoming hin).symm).trans h)
      exact not_invalid_traded hin ht
    · obtain ⟨id, c, -, rfl⟩ := cancelMsg_some hmsg
      obtain rfl := Except.ok.inj ((parseMsg_of_cancelMsg hmsg).symm.trans h)
      exact not_invalid_cancelled

/-! ## Defined behaviour -/

/-- A new order whose product name is too long for its buffer. -/
def Overlong (msg : List Char) : Prop :=
  ∃ (v : Verb) (body : List Char) (fs : List (List Char × Field)) (rest : List Char),
    v.IsNew ∧ spaceCount msg = 4 ∧ msg = v.word ++ body ∧
    Stops (fun c => !isSpace c) body ∧ Reads [.int] body fs rest ∧
    maxProd ≤ (token (skipSpace rest)).length

theorem scan_overflow_iff {w : List Char} (hw : IsWord w)
    (hstop : Stops (fun c => !isSpace c) body) :
    ¬TokensFit (w ++ body) ↔ ∃ fs rest, Reads [.int] body fs rest ∧
      maxProd ≤ (token (skipSpace rest)).length := by
  have hfmt : sscanf orderFormat (w ++ body) = sscanf (fieldFormat [.int] ++
      .space :: .str maxProd :: [.space, .int true, .space, .int true, .lit ';']) body :=
    sscanf_orderFormat hw hstop
  have hfit : ¬TokensFit (w ++ body) ↔ ∃ e, sscanf orderFormat (w ++ body) = .error e := by
    rw [← scan_eq_error, TokensFit]
    cases scan orderFormat (w ++ body) with
    | error e => exact ⟨fun _ => ⟨e, rfl⟩, fun _ => nofun⟩
    | ok args => exact ⟨fun h => absurd ⟨args, rfl⟩ h, nofun⟩
  rw [hfit, hfmt]
  exact sscanf_overflow_iff (by simp) (by decide) (by simp)

theorem overlong_iff : Overlong msg ↔ ScansOrder msg ∧ ¬TokensFit msg := by
  constructor
  · rintro ⟨v, body, fs, rest, hv, hspace, rfl, hstop, hreads⟩
    refine ⟨⟨hspace, ?_⟩, (scan_overflow_iff v.isWord hstop).mpr ⟨fs, rest, hreads⟩⟩
    rw [token_append v.isWord hstop]
    cases v with
    | buy => exact .inr rfl
    | sell => exact .inl rfl
    | amend => exact hv.elim
    | cancel => exact hv.elim
  · rintro ⟨⟨hspace, hword⟩, hfit⟩
    -- the two words that `ScansOrder` allows
    obtain ⟨v, hv, hword⟩ : ∃ v : Verb, v.IsNew ∧ token msg = v.word := by
      rcases hword with h | h
      · exact ⟨.sell, trivial, h⟩
      · exact ⟨.buy, trivial, h⟩
    have hmsg : v.word ++ afterToken msg = msg := hword ▸ token_append_afterToken msg
    have hstop : Stops (fun c => !isSpace c) (afterToken msg) := stops_dropWhile _ _
    rw [← hmsg, scan_overflow_iff v.isWord hstop] at hfit
    obtain ⟨fs, rest, hreads⟩ := hfit
    exact ⟨v, afterToken msg, fs, rest, hv, hspace, hmsg.symm, hstop, hreads⟩

/-- A message that is scanned for a product name is accepted or rejected only
when the name fits. -/
theorem tokensFit_of_newOrderMsg {x : Char} {msg : List Char} (hlen : (x :: msg).length < maxLine)
    (hx : isSpace x = false) (hscan : ScansOrder (x :: msg))
    {r : Option (Exchange P T × Order P T)} (h : s.newOrderMsg vp (x :: msg) ind = .ok r) :
    TokensFit (x :: msg) := by
  obtain ⟨hspace, hword⟩ := hscan
  rw [newOrderMsg, if_neg (not_not.mpr hspace), createBuySellOrder_eq vp hlen hx] at h
  obtain ⟨r', hr, -⟩ := bind_eq_ok h
  by_cases hsell : token (x :: msg) = "SELL".toList
  · rw [if_pos hsell] at hr
    obtain ⟨args, hargs, -⟩ := bind_eq_ok hr
    exact ⟨args, hargs⟩
  · rw [if_neg hsell, if_pos (hword.resolve_left hsell)] at hr
    obtain ⟨args, hargs, -⟩ := bind_eq_ok hr
    exact ⟨args, hargs⟩

/-- The word of an overlong message sends it to `buy_sell_msg`. -/
theorem parseMsg_of_overlong (A : Arith) (vp : ValidProducts P) (s : Exchange P T) (ind : Fin T)
    (hlong : Overlong msg) : ∃ x rest, msg = x :: rest ∧ isSpace x = false ∧
      ∃ f, s.parseMsg A vp msg ind = (s.newOrderMsg vp msg ind >>= f) := by
  obtain ⟨v, body, -, -, hv, -, rfl, -⟩ := hlong
  cases v with
  | buy => exact ⟨'B', "UY".toList ++ body, rfl, rfl, _, rfl⟩
  | sell => exact ⟨'S', "ELL".toList ++ body, rfl, rfl, _, rfl⟩
  | amend => exact hv.elim
  | cancel => exact hv.elim

/-- **`parse_msg` has defined behaviour except on messages with too long a
product name.** -/
theorem parseMsg_ok_iff (hlen : msg.length < maxLine) :
    (∃ s', s.parseMsg A vp msg ind = .ok s') ↔ ¬Overlong msg := by
  constructor
  · rintro ⟨s', h⟩ hlong
    obtain ⟨hscan, hfit⟩ := overlong_iff.mp hlong
    obtain ⟨x, rest, rfl, hx, f, hf⟩ := parseMsg_of_overlong A vp s ind hlong
    rw [hf] at h
    obtain ⟨r, hr, -⟩ := bind_eq_ok h
    exact hfit (tokensFit_of_newOrderMsg hlen hx hscan hr)
  · intro hlong
    refine parseMsg_ok A vp s ind hlen fun hscan => ?_
    by_contra hfit
    exact hlong (overlong_iff.mpr ⟨hscan, hfit⟩)

end Exchange

end PeExchange
