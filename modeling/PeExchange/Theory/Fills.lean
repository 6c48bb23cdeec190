import PeExchange.Theory.Accounting

/-!
# Fills, positions and messages over a run

What the fills of a whole run add up to, on top of the accounts of single orders.

- `FillsWithin`: every fill is positive and at most what was left of both orders
  when it happened.
- `bought`, `sold`: a trader's fills in a product. With exact accumulators the
  position is their difference (`Reachable.positions`).
- `Told`: the traders are told what happened, no more and no less: an `ACCEPTED`
  or `AMENDED` for each order entered, a `CANCELLED` for each cancellation, and
  two `FILL` messages of the same quantity for each fill, of which those to dead
  traders may be missing.
-/

namespace PeExchange

open LinkedList

variable {P T : Nat}

/-! ## Definitions over the output -/

/-- What is left of the order with key `k`. -/
def unitsLeft (out : List (Event P T)) (k : Fin T × Int) : Int :=
  match account k out with
  | some a => a.entered - a.filled - a.cancelled.getD 0
  | none => 0

/-- Every fill is positive and within what both orders had left. -/
def FillsWithin (out : List (Event P T)) : Prop :=
  ∀ pre post b r q, out = pre ++ .fill b r q :: post →
    0 < q ∧ q ≤ unitsLeft pre (key b) ∧ q ≤ unitsLeft pre (key r)

/-- The fills of buy orders of trader `t` in product `j`. -/
def bought (t : Fin T) (j : Fin P) (out : List (Event P T)) : Int :=
  (out.map fun
    | .fill b _ q => if b.traderID = t ∧ b.productID = j then q else 0
    | _ => 0).sum

/-- The fills of sell orders of trader `t` in product `j`. -/
def sold (t : Fin T) (j : Fin P) (out : List (Event P T)) : Int :=
  (out.map fun
    | .fill _ r q => if r.traderID = t ∧ r.productID = j then q else 0
    | _ => 0).sum

/-- The orders entered, and the trader and identifier of every acknowledgement. -/
def enteredKeys (out : List (Event P T)) : List (Fin T × Int) :=
  out.filterMap fun
    | .entered o => some (key o)
    | _ => none

def acknowledged (out : List (Event P T)) : List (Fin T × Int) :=
  out.filterMap fun
    | .message t (.accepted id) => some (t, id)
    | .message t (.amended id) => some (t, id)
    | _ => none

/-- The orders cancelled, and the trader and identifier of every `CANCELLED`. -/
def cancelledKeys (out : List (Event P T)) : List (Fin T × Int) :=
  out.filterMap fun
    | .cancelled o => some (key o)
    | _ => none

def cancelMessages (out : List (Event P T)) : List (Fin T × Int) :=
  out.filterMap fun
    | .message t (.cancelled id) => some (t, id)
    | _ => none

/-- Both sides of every fill with its quantity, and every `FILL` message. -/
def fillSides (out : List (Event P T)) : List ((Fin T × Int) × Int) :=
  out.flatMap fun
    | .fill b r q => [(key b, q), (key r, q)]
    | _ => []

def fillMessages (out : List (Event P T)) : List ((Fin T × Int) × Int) :=
  out.filterMap fun
    | .message t (.fill id q) => some ((t, id), q)
    | _ => none

/-- The messages tell what happened. -/
structure Told (out : List (Event P T)) : Prop where
  entered : acknowledged out = enteredKeys out
  cancelled : cancelMessages out = cancelledKeys out
  filled : (fillMessages out).Sublist (fillSides out)

/-- Output entries that tell of all their fills and cancellations may be added. -/
theorem Told.append {out es : List (Event P T)} (h : Told out) (hes : Told es) :
    Told (out ++ es) where
  entered := by
    rw [acknowledged, enteredKeys, List.filterMap_append, List.filterMap_append]
    exact congrArg₂ _ h.entered hes.entered
  cancelled := by
    rw [cancelMessages, cancelledKeys, List.filterMap_append, List.filterMap_append]
    exact congrArg₂ _ h.cancelled hes.cancelled
  filled := by
    rw [fillMessages, fillSides, List.filterMap_append, List.flatMap_append]
    exact h.filled.append hes.filled

theorem told_nil : Told ([] : List (Event P T)) :=
  ⟨rfl, rfl, List.Sublist.refl _⟩

/-- The entry is a message that goes with no event: an answer to a bad command,
or news for everyone. -/
def Quiet (e : Event P T) : Prop :=
  ∃ t, e = .message t .invalid ∨ e = .message t .marketOpen ∨
    ∃ b prod q p, e = .message t (.market b prod q p)

/-- Entries that concern no order tell nothing. -/
theorem told_of_quiet {es : List (Event P T)} (h : ∀ e ∈ es, Quiet e) : Told es := by
  induction es with
  | nil => exact told_nil
  | cons e es ih =>
    have hes := ih fun e' he' => h e' (List.mem_cons_of_mem _ he')
    have he : Told [e] := by
      obtain ⟨t, rfl | rfl | ⟨b, prod, q, p, rfl⟩⟩ := h e List.mem_cons_self
      · exact ⟨rfl, rfl, List.Sublist.refl _⟩
      · exact ⟨rfl, rfl, List.Sublist.refl _⟩
      · exact ⟨rfl, rfl, List.Sublist.refl _⟩
    exact he.append hes

/-- What is held of a live order is what the output says is left of it. -/
theorem Live.unitsLeft_eq {out : List (Event P T)} {k : Fin T × Int} {h : Int}
    (hl : Live out k h) : unitsLeft out k = h := by
  obtain ⟨a, ha, hc, hf⟩ := hl
  rw [unitsLeft, ha]
  simp only [hc, Option.getD_none]
  omega

/-- Entries that are no fills. -/
theorem FillsWithin.append {out es : List (Event P T)} (h : FillsWithin out)
    (hes : ∀ b r q, .fill b r q ∉ es) : FillsWithin (out ++ es) := by
  intro pre post b r q heq
  rcases List.append_eq_append_iff.mp heq with ⟨mid, rfl, hmid⟩ | ⟨mid, rfl, hmid⟩
  · -- the fill would be among the new entries
    rw [hmid] at hes
    exact absurd (List.mem_append_right _ List.mem_cons_self) (hes b r q)
  · cases mid with
    | nil =>
      rw [← List.nil_append es, ← hmid] at hes
      exact absurd List.mem_cons_self (hes b r q)
    | cons e mid =>
      obtain ⟨rfl, -⟩ := List.cons.inj hmid
      exact h pre mid b r q rfl

/-- One more fill. -/
theorem FillsWithin.snoc {out : List (Event P T)} (h : FillsWithin out) {b r : Order P T} {q : Int}
    (hq : 0 < q ∧ q ≤ unitsLeft out (key b) ∧ q ≤ unitsLeft out (key r)) :
    FillsWithin (out ++ [.fill b r q]) := by
  intro pre post b' r' q' heq
  rcases List.eq_nil_or_concat post with rfl | ⟨post, e, rfl⟩
  · -- the new fill itself
    obtain ⟨rfl, he⟩ := List.append_inj' heq rfl
    obtain ⟨rfl, rfl, rfl⟩ := Event.fill.inj (List.cons.inj he).1
    exact hq
  · rw [List.concat_eq_append, ← List.cons_append, ← List.append_assoc] at heq
    obtain ⟨rfl, -⟩ := List.append_inj' heq rfl
    exact h pre post b' r' q' rfl

/-- Entries without fills add to no position. -/
theorem bought_append {t : Fin T} {j : Fin P} (out es : List (Event P T)) :
    bought t j (out ++ es) = bought t j out + bought t j es := by
  simp [bought]

theorem sold_append {t : Fin T} {j : Fin P} (out es : List (Event P T)) :
    sold t j (out ++ es) = sold t j out + sold t j es := by
  simp [sold]

theorem bought_of_no_fill {es : List (Event P T)} (hes : ∀ b r q, .fill b r q ∉ es) (t : Fin T)
    (j : Fin P) : bought t j es = 0 := by
  refine List.sum_eq_zero fun x hx => ?_
  obtain ⟨e, he, rfl⟩ := List.mem_map.mp hx
  cases e with
  | fill b r q => exact absurd he (hes b r q)
  | _ => rfl

/-- Without fills nobody sells. -/
theorem sold_of_no_fill {es : List (Event P T)} (hes : ∀ b r q, .fill b r q ∉ es) (t : Fin T)
    (j : Fin P) : sold t j es = 0 := by
  refine List.sum_eq_zero fun x hx => ?_
  obtain ⟨e, he, rfl⟩ := List.mem_map.mp hx
  cases e with
  | fill b r q => exact absurd he (hes b r q)
  | _ => rfl

namespace Exchange

variable {A : Arith} {vp : ValidProducts P} {s s' s₁ s₂ : Exchange P T} {ind : Fin T}
  {o o' r : Order P T} {c : Cell (Order P T)} {ms : List (Order P T × Order P T)} {ret : Int}
  {msg : List Char}

/-! ## The entries of each step -/

/-- `MARKET` messages concern no order. -/
theorem quiet_toOthers (s : Exchange P T) (ind : Fin T) (b : Bool) (prod : List Char)
    (q p : Int) : ∀ e ∈ s.toOthers ind (.market b prod q p), Quiet e := by
  intro e he
  obtain ⟨i, rfl⟩ := mem_toOthers s he
  exact ⟨i, .inr (.inr ⟨b, prod, q, p, rfl⟩)⟩

/-- A new order is reported to its owner. -/
theorem told_entered (s : Exchange P T) (ho : o.traderID = ind) :
    Told (.entered o :: .message ind (ackOf msg o) :: s.toOthers ind (marketMsg o)) := by
  have hack : Told [.entered o, .message ind (ackOf msg o)] := by
    subst ho
    unfold ackOf
    split
    · exact ⟨rfl, rfl, List.Sublist.refl _⟩
    · exact ⟨rfl, rfl, List.Sublist.refl _⟩
  exact hack.append (told_of_quiet (quiet_toOthers s ind _ _ _ _))

theorem told_cancelled (s : Exchange P T) (ho : o.traderID = ind) :
    Told (.cancelled o :: .message ind (.cancelled o.orderID) ::
      s.toOthers ind (.market o.isBuy o.product 0 0)) := by
  have hack : Told [.cancelled o, .message ind (.cancelled o.orderID)] := by
    subst ho
    exact ⟨rfl, rfl, List.Sublist.refl _⟩
  exact hack.append (told_of_quiet (quiet_toOthers s ind _ _ _ _))

/-- Both parties of a match are told of it. -/
theorem told_matchEvents (s : Exchange P T) (o r : Order P T) : Told (s.matchEvents o r) := by
  unfold matchEvents ifAlive
  -- two dead traders, one or none: the messages sent are among the two sides
  split <;> split
  · exact ⟨rfl, rfl, List.Sublist.refl _⟩
  · exact ⟨rfl, rfl, (List.nil_sublist _).cons_cons _⟩
  · exact ⟨rfl, rfl, List.sublist_cons_self _ _⟩
  · exact ⟨rfl, rfl, List.nil_sublist _⟩

theorem told_matches (s : Exchange P T) (ms : List (Order P T × Order P T)) :
    Told (ms.flatMap fun m => s.matchEvents m.1 m.2) := by
  induction ms with
  | nil => exact told_nil
  | cons m ms ih => exact (told_matchEvents s m.1 m.2).append ih

/-- A command tells of all it does. -/
theorem Outcome.told (ho : Outcome A vp s msg ind s') (h : Told s.out) : Told s'.out := by
  cases ho with
  | rejected =>
    refine h.append (told_of_quiet fun e he => ?_)
    exact ⟨ind, .inl (List.mem_singleton.mp he)⟩
  | @traded s₁ s₂ o o' ms ret hin ht =>
    obtain ⟨-, hout⟩ := incoming_out hin
    rw [afterInsert_out, ht.out, hout]
    exact (h.append (told_entered s (incoming_enters hin).traderID)).append (told_matches s₁ ms)
  | @cancelled c n _ hc =>
    rw [show (s.afterCancel A ind c).out = s.out ++ _ from List.append_assoc _ _ _]
    exact h.append (told_cancelled s (findOrder_some hc).1)

/-- An entry that concerns no account is no fill. -/
theorem no_fill {es : List (Event P T)} (h : ∀ k, ∀ e ∈ es, ¬Concerns k e) :
    ∀ b r q, .fill b r q ∉ es :=
  fun b _ _ hmem => h (key b) _ hmem (.inl rfl)

theorem no_fill_toOthers (s : Exchange P T) (ind : Fin T) (m : Msg) (e₁ e₂ : Event P T)
    (h₁ : ∀ b r q, e₁ ≠ .fill b r q) (h₂ : ∀ b r q, e₂ ≠ .fill b r q) :
    ∀ b r q, .fill b r q ∉ e₁ :: e₂ :: s.toOthers ind m := by
  intro b r q hmem
  rcases List.mem_cons.mp hmem with h | hmem
  · exact h₁ b r q h.symm
  rcases List.mem_cons.mp hmem with h | hmem
  · exact h₂ b r q h.symm
  · exact not_concerns_toOthers s ind m _ hmem (.inl rfl : Concerns (key b) (.fill b r q))

theorem no_fill_entered (s : Exchange P T) :
    ∀ b r q, .fill b r q ∉ Event.entered o :: .message ind (ackOf msg o) ::
      s.toOthers ind (marketMsg o) :=
  no_fill_toOthers s ind _ _ _ (fun _ _ _ => nofun) fun _ _ _ => nofun

theorem no_fill_cancelled (s : Exchange P T) :
    ∀ b r q, .fill b r q ∉ Event.cancelled o :: .message ind (.cancelled o.orderID) ::
      s.toOthers ind (.market o.isBuy o.product 0 0) :=
  no_fill_toOthers s ind _ _ _ (fun _ _ _ => nofun) fun _ _ _ => nofun

/-! ## Fills stay within the orders -/

/-- A match takes no more units than either order has left. -/
theorem execMatch_fillsWithin (h : FillsWithin s.out) (hs : InFlight s (key o) o.quantity)
    (hw : WellFormed vp s) (hq : 0 < o.quantity) (hf : s.findBest o = some c) :
    FillsWithin (s.execMatch A o c).out := by
  have hin := findBest_in hf
  have ho := hs.live.unitsLeft_eq
  have hc := (hs.resting _ _ _ hin.mem).unitsLeft_eq
  have hcq : 0 < c.val.quantity := (hw.valid _ _ _ hin.mem).quantity_pos
  have hpos : 0 < tradedQuantity o c.val := lt_min hq hcq
  have hleo : tradedQuantity o c.val ≤ o.quantity := min_le_left _ _
  have hlec : tradedQuantity o c.val ≤ c.val.quantity := min_le_right _ _
  obtain ⟨es, heq, hes⟩ := matchEvents_tail s o c.val
  rw [execMatch_out, heq, ← List.singleton_append, ← List.append_assoc]
  refine FillsWithin.append (h.snoc ⟨hpos, ?_⟩) (no_fill hes)
  -- the new order is the buy order or the sell order of the fill
  by_cases hside : o.isBuy = true
  · rw [buyOf, sellOf, if_pos hside, if_pos hside, ho, hc]
    exact ⟨hleo, hlec⟩
  · rw [buyOf, sellOf, if_neg hside, if_neg hside, ho, hc]
    exact ⟨hlec, hleo⟩

/-- The matching loop, match by match. -/
theorem Trades.fillsWithin (ht : Trades A s o ms s' o' ret) (h : FillsWithin s.out)
    (hs : InFlight s (key o) o.quantity) (hw : WellFormed vp s) (hi : Incoming vp s o) :
    FillsWithin s'.out := by
  induction ht with
  | stop => exact h
  | last hq hf _ => exact execMatch_fillsWithin h hs hw hq hf
  | @more s s' o o' c ms ret hq hf hlt _ ih =>
    have hm := hs.execMatch (A := A) hw hi hf
    rw [tradedQuantity_of_ge hlt.le] at hm
    have hsh := execMatch_shrunk (A := A) hq hf
    exact ih (execMatch_fillsWithin h hs hw hq hf) hm (hw.shrunk hsh)
      (hi.shrunk hsh (hw.left_reduced hf hlt))

/-- A command fills no order beyond its quantity. -/
theorem Outcome.fillsWithin (ho : Outcome A vp s msg ind s') (h : FillsWithin s.out)
    (hb : Balanced s) (hw : WellFormed vp s) : FillsWithin s'.out := by
  cases ho with
  | rejected =>
    refine h.append fun b r q hmem => ?_
    cases List.mem_singleton.mp hmem
  | @traded s₁ s₂ o o' ms ret hin ht =>
    obtain ⟨-, hout⟩ := incoming_out hin
    obtain ⟨hw₁, hi₁⟩ := (incoming_enters hin).wellFormed hw
    have h₁ : FillsWithin s₁.out := by
      rw [hout]
      exact h.append (no_fill_entered s)
    rw [afterInsert_out]
    exact ht.fillsWithin h₁ (incoming_inFlight hin hw hb) hw₁ hi₁
  | @cancelled c n _ _ =>
    rw [show (s.afterCancel A ind c).out = s.out ++ _ from List.append_assoc _ _ _]
    exact h.append (no_fill_cancelled s)

/-! ## Positions -/

/-- Every position is what was bought less what was sold. -/
def Positions (s : Exchange P T) : Prop :=
  ∀ t j, ((s.traders t).prodInfo j).quantity = bought t j s.out - sold t j s.out

/-- The same as the accumulators store it. -/
def StoredPositions (A : Arith) (s : Exchange P T) : Prop :=
  ∀ t j, ((s.traders t).prodInfo j).quantity = A.int (bought t j s.out - sold t j s.out)

/-- Entries without fills leave the positions right. -/
theorem StoredPositions.append {es : List (Event P T)} (h : StoredPositions A s)
    (hs : SameAccounts s s') (hout : s'.out = s.out ++ es) (hes : ∀ b r q, .fill b r q ∉ es) :
    StoredPositions A s' := by
  intro t j
  rw [hs.prodInfo, h t j, hout, bought_append, sold_append, bought_of_no_fill hes,
    sold_of_no_fill hes, add_zero, add_zero]

/-- The fill of a match, from the side of any trader and product. -/
theorem bought_matchEvents (hprod : r.productID = o.productID) (t : Fin T) (j : Fin P) :
    bought t j (s.matchEvents o r) =
      if (buyOf o r).traderID = t ∧ o.productID = j then tradedQuantity o r else 0 := by
  obtain ⟨es, heq, hes⟩ := matchEvents_tail s o r
  rw [heq, ← List.singleton_append, bought_append, bought_of_no_fill (no_fill hes), add_zero,
    ← (productID_buyOf_sellOf hprod).1]
  exact List.sum_singleton

/-- What a match sells, and for whom. -/
theorem sold_matchEvents (hprod : r.productID = o.productID) (t : Fin T) (j : Fin P) :
    sold t j (s.matchEvents o r) =
      if (sellOf o r).traderID = t ∧ o.productID = j then tradedQuantity o r else 0 := by
  obtain ⟨es, heq, hes⟩ := matchEvents_tail s o r
  rw [heq, ← List.singleton_append, sold_append, sold_of_no_fill (no_fill hes), add_zero,
    ← (productID_buyOf_sellOf hprod).2]
  exact List.sum_singleton

/-- A match changes the stored positions as it is reported. -/
theorem StoredPositions.execMatch (h : StoredPositions A s) (hw : WellFormed vp s)
    (hf : s.findBest o = some c) : StoredPositions A (s.execMatch A o c) := by
  intro t j
  obtain ⟨-, hprod⟩ := hw.placed _ _ _ (findBest_in hf).mem
  rw [execMatch_prodInfo, settle_prodInfo, execMatch_out, bought_append, sold_append,
    bought_matchEvents hprod, sold_matchEvents hprod]
  by_cases hj : j = o.productID
  · simp only [hj, and_true, true_and, eq_comm (a := t)]
    split
    · -- the stored value is updated: the same as storing the updated value
      show A.int (((s.traders t).prodInfo o.productID).quantity + _ - _) = _
      rw [h t o.productID, add_sub_assoc, ← sub_neg_eq_add, Arith.int_int_sub]
      congr 1
      omega
    · rename_i hne
      obtain ⟨hb, hs⟩ := not_or.mp hne
      rw [h t o.productID, if_neg hb, if_neg hs, add_zero, add_zero]
  · simp only [hj, Ne.symm hj, and_false, false_and, if_false, add_zero]
    exact h t j

/-- The matching loop, match by match. -/
theorem Trades.storedPositions (ht : Trades A s o ms s' o' ret) (h : StoredPositions A s)
    (hw : WellFormed vp s) : StoredPositions A s' := by
  induction ht with
  | stop => exact h
  | last _ hf _ => exact h.execMatch hw hf
  | more hq hf _ _ ih => exact ih (h.execMatch hw hf) (hw.shrunk (execMatch_shrunk hq hf))

/-- After a command the stored positions are those its fills add up to. -/
theorem Outcome.storedPositions (ho : Outcome A vp s msg ind s') (h : StoredPositions A s)
    (hw : WellFormed vp s) : StoredPositions A s' := by
  cases ho with
  | rejected =>
    refine h.append ⟨fun _ => rfl, rfl⟩ rfl fun b r q hmem => ?_
    cases List.mem_singleton.mp hmem
  | @traded s₁ s₂ o o' ms ret hin ht =>
    obtain ⟨-, hout⟩ := incoming_out hin
    have he := incoming_enters hin
    have h₁ : StoredPositions A s₁ := h.append he.accounts hout (no_fill_entered s)
    have h₂ := ht.storedPositions h₁ (he.wellFormed hw).1
    have hnil : (s₂.afterInsert A o' ret).out = s₂.out ++ [] := by
      rw [afterInsert_out, List.append_nil]
    exact h₂.append (afterInsert_accounts _ _ _ _) hnil fun _ _ _ => List.not_mem_nil
  | @cancelled c n _ _ =>
    exact h.append ⟨fun _ => rfl, rfl⟩ (List.append_assoc _ _ _) (no_fill_cancelled s)

/-- What rests of the order with an identifier, 0 when it is in no list. -/
def restingQuantity (s : Exchange P T) (k : Fin T × Int) : Int :=
  match s.findOrder k.1 k.2 with
  | some c => c.val.quantity
  | none => 0

/-- The account of a key with no order in the lists is closed, otherwise it is
live for what rests. -/
theorem Balanced.restingQuantity (hb : Balanced s) (k : Fin T × Int) :
    Live s.out k (s.restingQuantity k) ∨ s.restingQuantity k = 0 ∧ Closed s.out k := by
  rw [Exchange.restingQuantity]
  cases hf : s.findOrder k.1 k.2 with
  | none =>
    refine .inr ⟨rfl, hb.gone k fun b i hk => ?_⟩
    obtain ⟨r, hr, rfl⟩ := List.mem_map.mp hk
    exact findOrder_none.mp hf b i r hr ⟨rfl, rfl⟩
  | some c =>
    obtain ⟨ht, hid, b, i, hin⟩ := findOrder_some hf
    have hk : key c.val = k := Prod.ext ht hid
    exact .inl (hk ▸ hb.resting b i _ hin.mem)

end Exchange

/-- Whole runs: nothing happens to an order that its owner is not told. -/
theorem Reachable.told {A : Arith} {vp : ValidProducts P} {s : Exchange P T}
    (h : Reachable A vp s) : Told s.out := by
  refine Transition.Reachable.invariant (I := fun s : Exchange P T => Told s.out)
    (told_of_quiet fun e he => ?_) (fun s a s' _ hi hs => ?_) h
  · obtain ⟨i, rfl⟩ := mem_initial_out he
    exact ⟨i, .inr (.inl rfl)⟩
  · cases hs with
    | command hp => exact (Exchange.parseMsg_outcome hp).told hi
    | died => exact hi

/-- Whole runs: the fills of an order do not exceed its quantity. -/
theorem Reachable.fillsWithin {A : Arith} {vp : ValidProducts P} {s : Exchange P T}
    (h : Reachable A vp s) : FillsWithin s.out := by
  refine Transition.Reachable.invariant (I := fun s : Exchange P T => FillsWithin s.out)
    (fun pre post b r q heq => ?_) (fun s a s' hr hi hs => ?_) h
  · have hmem : Event.fill b r q ∈ (initial : Exchange P T).out := by
      rw [heq]
      exact List.mem_append_right _ List.mem_cons_self
    obtain ⟨i, hi⟩ := mem_initial_out hmem
    cases hi
  · cases hs with
    | command hp =>
      exact (Exchange.parseMsg_outcome hp).fillsWithin hi (Reachable.balanced hr)
        (Reachable.wellFormed hr)
    | died => exact hi

/-- Whole runs: the stored positions are the sums of the fills. -/
theorem Reachable.storedPositions {A : Arith} {vp : ValidProducts P} {s : Exchange P T}
    (h : Reachable A vp s) : s.StoredPositions A := by
  refine Transition.Reachable.invariant (I := Exchange.StoredPositions A) (fun t j => ?_)
    (fun s a s' hr hi hs => ?_) h
  · have hno : ∀ b r q, .fill b r q ∉ (initial : Exchange P T).out := by
      intro b r q hmem
      obtain ⟨i, hi⟩ := mem_initial_out hmem
      cases hi
    rw [bought_of_no_fill hno, sold_of_no_fill hno]
    cases A <;> rfl
  · cases hs with
    | command hp =>
      exact (Exchange.parseMsg_outcome hp).storedPositions hi (Reachable.wellFormed hr)
    | died =>
      intro t j
      rw [traderDied_prodInfo]
      exact hi t j

/-- With exact arithmetic nothing is cut off. -/
theorem Reachable.positions {vp : ValidProducts P} {s : Exchange P T}
    (h : Reachable .exact vp s) : s.Positions :=
  Reachable.storedPositions h

/-- Everything is accounted for. For each order, what was filled since it was
last accepted or amended, what rests of it and what a cancellation found add up
to its quantity, and nothing rests of a cancelled order; fills are positive and
within both orders; the traders are told; and in exact arithmetic the positions
are the fills. -/
structure AccountedFor (A : Arith) (s : Exchange P T) : Prop where
  units : ∀ k a, account k s.out = some a →
    a.filled + s.restingQuantity k + a.cancelled.getD 0 = a.entered ∧
      (a.cancelled ≠ none → s.restingQuantity k = 0)
  never : ∀ k, account k s.out = none → s.restingQuantity k = 0
  within : FillsWithin s.out
  told : Told s.out
  positions : A = .exact → ∀ t j,
    ((s.traders t).prodInfo j).quantity = bought t j s.out - sold t j s.out

/-- **Every unit of an order is accounted for.** -/
theorem units_accounted_for {A : Arith} {vp : ValidProducts P} {s : Exchange P T}
    (h : Reachable A vp s) : AccountedFor A s where
  units k a ha := by
    rcases (Reachable.balanced h).restingQuantity k with ⟨a', ha', hc, hf⟩ | ⟨hz, hclosed⟩
    · obtain rfl := Option.some.inj (ha'.symm.trans ha)
      rw [hc]
      exact ⟨by simpa using hf, fun hne => absurd rfl hne⟩
    · have hc := hclosed a ha
      exact ⟨by omega, fun _ => hz⟩
  never k ha := by
    rcases (Reachable.balanced h).restingQuantity k with ⟨a', ha', -⟩ | ⟨hz, -⟩
    · rw [ha] at ha'
      cases ha'
    · exact hz
  within := Reachable.fillsWithin h
  told := Reachable.told h
  positions hA := by
    subst hA
    exact Reachable.positions h

/-- Four of ten units are sold, the rest is withdrawn. -/
theorem units_accounted_for_gpu :
    ∃ s, (initial : Exchange 2 3).runCommands .exact testProducts
        [(1, "SELL 0 GPU 10 30;".toList), (0, "BUY 0 GPU 4 40;".toList),
          (1, "CANCEL 0;".toList)] = .ok s ∧ AccountedFor .exact s := by
  have hrun : okAnd ((initial : Exchange 2 3).runCommands .exact testProducts
      [(1, "SELL 0 GPU 10 30;".toList), (0, "BUY 0 GPU 4 40;".toList),
        (1, "CANCEL 0;".toList)]) (fun _ => true) := by decide +kernel
  obtain ⟨s, h, -⟩ := exists_of_okAnd hrun
  exact ⟨s, h, units_accounted_for (Reachable.runCommands Transition.Reachable.init h)⟩

end PeExchange
