import PeExchange.Theory.Trace
import PeExchange.Theory.Conservation

/-!
# Every unit of an order is accounted for

An order's history is read off the output: `account` follows the order with a
given key from its last acceptance or amendment, adding up what `write_fill` was
called with for it and noting what a cancellation found left of it.

- `Live`, `Closed`: the two states an account can be in. A resting order, and the
  order being matched, is live for its quantity; every other key is closed.
- `Balanced`, `InFlight`: all accounts agree with the lists, between commands and
  while an order is being matched. `InFlight.execMatch` is the step of the
  matching loop.
- `FillsWithin`: each fill is positive and within what both orders had left.
-/

namespace PeExchange

open LinkedList

variable {P T : Nat}

/-! ## Accounts -/

/-- The history of an order since it was last accepted or amended: its quantity
then, what has been filled of it, and what was left when it was cancelled. -/
structure Account where
  entered : Int
  filled : Int
  cancelled : Option Int
deriving DecidableEq, Repr

/-- One output entry's effect on the account of key `k`. -/
def record (k : Fin T × Int) (acc : Option Account) : Event P T → Option Account
  | .entered o => if key o = k then some ⟨o.quantity, 0, none⟩ else acc
  | .fill b r q =>
    if key b = k ∨ key r = k then acc.map fun a => { a with filled := a.filled + q } else acc
  | .cancelled o =>
    if key o = k then acc.map fun a => { a with cancelled := some o.quantity } else acc
  | _ => acc

/-- The account of key `k`; `none` when no order was entered under it. -/
def account (k : Fin T × Int) (out : List (Event P T)) : Option Account :=
  out.foldl (record k) none

/-- The entry says something about key `k`. -/
def Concerns (k : Fin T × Int) : Event P T → Prop
  | .entered o => key o = k
  | .fill b r _ => key b = k ∨ key r = k
  | .cancelled o => key o = k
  | _ => False

theorem account_snoc (k : Fin T × Int) (out : List (Event P T)) (e : Event P T) :
    account k (out ++ [e]) = record k (account k out) e := by
  rw [account, List.foldl_append]
  rfl

theorem account_append {k : Fin T × Int} {out es : List (Event P T)}
    (h : ∀ e ∈ es, ¬Concerns k e) : account k (out ++ es) = account k out := by
  induction es generalizing out with
  | nil => rw [List.append_nil]
  | cons e es ih =>
    have he := h e List.mem_cons_self
    -- an entry that does not concern `k` is recorded without effect
    have hrec : account k (out ++ [e]) = account k out := by
      rw [account_snoc]
      cases e with
      | entered o => exact if_neg he
      | fill b r q => exact if_neg he
      | cancelled o => exact if_neg he
      | matched | message => rfl
    rw [← List.singleton_append, ← List.append_assoc,
      ih fun e' he' => h e' (List.mem_cons_of_mem _ he'), hrec]

/-- The order with key `k` has `h` units left. -/
def Live (out : List (Event P T)) (k : Fin T × Int) (h : Int) : Prop :=
  ∃ a, account k out = some a ∧ a.cancelled = none ∧ a.filled + h = a.entered

/-- Nothing is left of the order with key `k`, if there ever was one: it was
filled, or what was left of it was cancelled. -/
def Closed (out : List (Event P T)) (k : Fin T × Int) : Prop :=
  ∀ a, account k out = some a → a.filled + a.cancelled.getD 0 = a.entered

theorem Live.closed {out : List (Event P T)} {k : Fin T × Int} (h : Live out k 0) :
    Closed out k := by
  obtain ⟨a, ha, hc, hf⟩ := h
  intro a' ha'
  obtain rfl := Option.some.inj (ha.symm.trans ha')
  rw [hc]
  exact hf

theorem Live.append {out es : List (Event P T)} {k : Fin T × Int} {h : Int}
    (hl : Live out k h) (hes : ∀ e ∈ es, ¬Concerns k e) : Live (out ++ es) k h := by
  obtain ⟨a, ha, hrest⟩ := hl
  exact ⟨a, (account_append hes).trans ha, hrest⟩

theorem Closed.append {out es : List (Event P T)} {k : Fin T × Int}
    (hc : Closed out k) (hes : ∀ e ∈ es, ¬Concerns k e) : Closed (out ++ es) k := by
  intro a ha
  rw [account_append hes] at ha
  exact hc a ha

theorem live_entered (out : List (Event P T)) (o : Order P T) :
    Live (out ++ [.entered o]) (key o) o.quantity := by
  refine ⟨⟨o.quantity, 0, none⟩, ?_, rfl, Int.zero_add _⟩
  rw [account_snoc]
  exact if_pos rfl

/-- A fill takes what it fills. -/
theorem Live.fill {out : List (Event P T)} {k : Fin T × Int} {h : Int} {b r : Order P T}
    {q : Int} (hl : Live out k h) (hk : key b = k ∨ key r = k) :
    Live (out ++ [.fill b r q]) k (h - q) := by
  obtain ⟨a, ha, hc, hf⟩ := hl
  refine ⟨{ a with filled := a.filled + q }, ?_, hc, ?_⟩
  · rw [account_snoc, ha]
    exact if_pos hk
  · show a.filled + q + (h - q) = a.entered
    omega

theorem Live.cancel {out : List (Event P T)} {o : Order P T}
    (hl : Live out (key o) o.quantity) : Closed (out ++ [.cancelled o]) (key o) := by
  obtain ⟨a, ha, hc, hf⟩ := hl
  intro a' ha'
  rw [account_snoc, ha] at ha'
  obtain rfl := Option.some.inj ((if_pos rfl).symm.trans ha')
  exact hf

namespace Exchange

variable {A : Arith} {vp : ValidProducts P} {s s' s₁ s₂ : Exchange P T} {ind : Fin T}
  {o o' r : Order P T} {c : Cell (Order P T)} {ms : List (Order P T × Order P T)} {ret : Int}
  {msg : List Char} {k : Fin T × Int} {out : List (Event P T)} {h : Int}

/-! ## The entries of a match -/

theorem concerns_match : key (buyOf o r) = k ∨ key (sellOf o r) = k ↔ key o = k ∨ key r = k := by
  cases ho : o.isBuy with
  | true => simp [buyOf, sellOf, ho]
  | false => simp [buyOf, sellOf, ho, or_comm]

/-- Only the first entry of a match concerns an account. -/
theorem matchEvents_tail (s : Exchange P T) (o r : Order P T) :
    ∃ es, s.matchEvents o r = .fill (buyOf o r) (sellOf o r) (tradedQuantity o r) :: es ∧
      ∀ k, ∀ e ∈ es, ¬Concerns k e := by
  obtain ⟨es, heq, hes⟩ := matchEvents_eq s o r
  refine ⟨es, heq, ?_⟩
  intro k e he
  rcases hes e he with ⟨t, id, q, rfl⟩ | rfl
  · exact not_false
  · exact not_false

/-- A match takes the traded quantity from each of its orders. -/
theorem Live.matched (hl : Live out k h) (s : Exchange P T) (hk : key o = k ∨ key r = k) :
    Live (out ++ s.matchEvents o r) k (h - tradedQuantity o r) := by
  obtain ⟨es, heq, hes⟩ := matchEvents_tail s o r
  have hf := (hl.fill (q := tradedQuantity o r) (concerns_match.mpr hk)).append (hes k)
  rw [List.append_assoc] at hf
  rw [heq]
  exact hf

theorem not_concerns_match (s : Exchange P T) (hk : ¬(key o = k ∨ key r = k)) :
    ∀ e ∈ s.matchEvents o r, ¬Concerns k e := by
  obtain ⟨es, heq, hes⟩ := matchEvents_tail s o r
  rw [heq]
  intro e he
  rcases List.mem_cons.mp he with rfl | he
  · exact fun h => hk (concerns_match.mp h)
  · exact hes k e he

/-! ## Accounts and lists -/

/-- All accounts agree with the order lists. -/
structure Balanced (s : Exchange P T) : Prop where
  resting : ∀ b i, ∀ r ∈ s.orders b i, Live s.out (key r) r.quantity
  gone : ∀ k, (∀ b i, k ∉ (s.orders b i).map key) → Closed s.out k

/-- The same while `h` units of an order with key `k` are being matched. -/
structure InFlight (s : Exchange P T) (k : Fin T × Int) (h : Int) : Prop where
  resting : ∀ b i, ∀ r ∈ s.orders b i, Live s.out (key r) r.quantity
  gone : ∀ k', k' ≠ k → (∀ b i, k' ∉ (s.orders b i).map key) → Closed s.out k'
  live : Live s.out k h

/-- **One match moves units from the two orders to the fills.** -/
theorem InFlight.execMatch (hs : InFlight s (key o) o.quantity) (hw : WellFormed vp s)
    (hi : Incoming vp s o) (hf : s.findBest o = some c) :
    InFlight (s.execMatch A o c) (key o) (o.quantity - tradedQuantity o c.val) := by
  have hin := findBest_in hf
  obtain ⟨hside, hprod⟩ := hw.placed _ _ _ hin.mem
  have hclive : Live (s.out ++ s.matchEvents o c.val) (key c.val)
      (c.val.quantity - tradedQuantity o c.val) :=
    Live.matched (hs.resting _ _ _ hin.mem) s (.inr rfl)
  -- the orders that are not part of the match
  have hrest : ∀ b i, ∀ r ∈ (s.deleteOrder c (!o.isBuy) o.productID).orders b i,
      Live (s.out ++ s.matchEvents o c.val) (key r) r.quantity := by
    intro b i r hr
    have hr' := (deleteOrder_sublist s c _ _ b i).subset hr
    have hne : key r ≠ key c.val := by
      rw [← hside, ← hprod] at hr
      exact hw.deleteOrder_key_ne (hw.best_in hf) hr
    have hneo : key r ≠ key o := hi.key_ne hr'
    exact (hs.resting b i r hr').append
      (not_concerns_match s fun h => h.elim (fun h => hneo h.symm) fun h => hne h.symm)
  constructor
  · intro b i r hr
    rw [execMatch_out]
    rw [execMatch_orders_eq] at hr
    split at hr
    · exact hrest b i r hr
    · -- the reduced order or one of the others
      rename_i hlt
      rcases (mem_storeOrder hin).mp hr with ⟨-, rfl⟩ | hr
      · rw [tradedQuantity_of_le (by omega)] at hclive
        exact hclive
      · exact hrest b i r hr
  · intro k hne hno
    rw [execMatch_out]
    rw [execMatch_orders_eq] at hno
    by_cases hk : k = key c.val
    · subst hk
      split at hno
      · -- used up: its account is live for nothing
        rename_i hle
        rw [tradedQuantity_of_ge hle, sub_self] at hclive
        exact hclive.closed
      · -- reduced: it still rests
        refine absurd ?_ (hno (!o.isBuy) o.productID)
        show key (withQuantity c.val (c.val.quantity - o.quantity)) ∈ _
        exact List.mem_map_of_mem ((mem_storeOrder hin).mpr (.inl ⟨⟨rfl, rfl⟩, rfl⟩))
    · have hgone : ∀ b i, k ∉ (s.orders b i).map key := by
        intro b i hmem
        obtain ⟨r, hr, rfl⟩ := List.mem_map.mp hmem
        have hr' := mem_deleteOrder_of_ne hin hr hk
        refine hno b i (List.mem_map_of_mem ?_)
        split
        · exact hr'
        · exact (mem_storeOrder hin).mpr (.inr hr')
      exact (hs.gone k hne hgone).append
        (not_concerns_match s fun h => h.elim (fun h => hne h.symm) fun h => hk h.symm)
  · rw [execMatch_out]
    exact Live.matched hs.live s (.inl rfl)

/-- The matching loop fills the new order down to what is left of it. -/
theorem Trades.inFlight (ht : Trades A s o ms s' o' ret) (hw : WellFormed vp s)
    (hi : Incoming vp s o) (hs : InFlight s (key o) o.quantity) :
    InFlight s' (key o) (if ret = 1 then o'.quantity else 0) := by
  induction ht with
  | stop => exact hs
  | @last s o c hq hf hle =>
    have hm := hs.execMatch (A := A) hw hi hf
    rw [tradedQuantity_of_le hle, sub_self] at hm
    exact hm
  | @more s s' o o' c ms ret hq hf hlt _ ih =>
    have hm := hs.execMatch (A := A) hw hi hf
    -- what is left of the new order stays in flight
    rw [tradedQuantity_of_ge hlt.le] at hm
    have hsh := execMatch_shrunk (A := A) hq hf
    exact ih (hw.shrunk hsh) (hi.shrunk hsh (hw.left_reduced hf hlt)) hm

/-! ## The invariant -/

/-- Announcements concern no account. -/
theorem not_concerns_toOthers (s : Exchange P T) (ind : Fin T) (m : Msg) :
    ∀ e ∈ s.toOthers ind m, ¬Concerns k e := by
  intro e he
  obtain ⟨i, rfl⟩ := mem_toOthers s he
  exact not_false

/-- Neither does the answer to the sender. -/
theorem not_concerns_answer (s : Exchange P T) (ind t : Fin T) (m m' : Msg) :
    ∀ e ∈ Event.message t m :: s.toOthers ind m', ¬Concerns k e := by
  intro e he
  rcases List.mem_cons.mp he with rfl | he
  · exact not_false
  · exact not_concerns_toOthers s ind m' e he

/-- Unlinking an order leaves it in flight. -/
theorem Balanced.unlink (hs : Balanced s) (hw : WellFormed vp s)
    (hin : c.In (s.orders c.val.isBuy c.val.productID)) :
    (∀ b i, ∀ r ∈ (s.deleteOrder c c.val.isBuy c.val.productID).orders b i,
      Live s.out (key r) r.quantity ∧ key r ≠ key c.val) ∧
    ∀ k, k ≠ key c.val →
      (∀ b i, k ∉ ((s.deleteOrder c c.val.isBuy c.val.productID).orders b i).map key) →
      Closed s.out k := by
  constructor
  · intro b i r hr
    have hr' := (deleteOrder_sublist s c _ _ b i).subset hr
    exact ⟨hs.resting b i r hr', hw.deleteOrder_key_ne hin hr⟩
  · intro k hne hno
    refine hs.gone k fun b i hmem => ?_
    obtain ⟨r, hr, rfl⟩ := List.mem_map.mp hmem
    exact hno b i (List.mem_map_of_mem (mem_deleteOrder_of_ne hin hr hne))

/-- Entering an order puts its whole quantity in flight. -/
theorem incoming_inFlight (hin : s.incoming A vp msg ind = .ok (some (s₁, o)))
    (hw : WellFormed vp s) (hs : Balanced s) : InFlight s₁ (key o) o.quantity := by
  have he := incoming_enters hin
  obtain ⟨-, hout⟩ := incoming_out hin
  obtain ⟨-, hi⟩ := he.wellFormed hw
  have hother : ∀ k, k ≠ key o → ∀ e ∈ Event.entered o :: .message ind (ackOf msg o) ::
      s.toOthers ind (marketMsg o), ¬Concerns k e := by
    intro k hne e he
    rcases List.mem_cons.mp he with rfl | he
    · exact fun h => hne h.symm
    · exact not_concerns_answer s ind ind _ _ e he
  refine { resting := fun b i r hr => ?_, gone := fun k hne hno => ?_, live := ?_ }
  · rw [hout]
    exact (hs.resting b i r ((he.orders_sublist b i).subset hr)).append
      (hother (key r) (hi.key_ne hr))
  · have hgone : ∀ b i, k ∉ (s.orders b i).map key := by
      intro b i hmem
      obtain ⟨r, hr, rfl⟩ := List.mem_map.mp hmem
      exact hno b i (List.mem_map_of_mem (he.mem_of_ne hw hr hne))
    rw [hout]
    exact (hs.gone k hgone).append (hother k hne)
  · rw [hout, ← List.singleton_append, ← List.append_assoc]
    exact (live_entered s.out o).append (not_concerns_answer s ind ind _ _)

/-- What is left of an order joins its list. -/
theorem InFlight.addOrder {k : Fin T × Int} (h : InFlight s k o.quantity) (hkey : key o = k) :
    Balanced ((s.addOrderPrints A o).addOrder o) := by
  constructor
  · intro b i r hr
    rcases mem_addOrder.mp hr with hr | ⟨-, -, rfl⟩
    · exact h.resting b i r hr
    · rw [hkey]
      exact h.live
  · intro k' hno
    refine h.gone k' ?_ fun b i hk => ?_
    · rintro rfl
      refine hno o.isBuy o.productID ?_
      rw [← hkey]
      exact List.mem_map_of_mem (mem_addOrder.mpr (.inr ⟨rfl, rfl, rfl⟩))
    · obtain ⟨r, hr, rfl⟩ := List.mem_map.mp hk
      exact hno b i (List.mem_map_of_mem (mem_addOrder.mpr (.inl hr)))

/-- Nothing is in flight any more: the account of the new order closes. -/
theorem InFlight.closed {k : Fin T × Int} (h : InFlight s k 0) : Balanced s := by
  constructor
  · exact h.resting
  · intro k' hno
    by_cases hk : k' = k
    · rw [hk]
      exact h.live.closed
    · exact h.gone k' hk hno

/-- An order that is cancelled is told of, and its account closes. -/
theorem Balanced.cancelled (hs : Balanced s) (hw : WellFormed vp s) {id : Int}
    (hc : s.findOrder ind id = some c) : Balanced (s.afterCancel A ind c) := by
  have hin := hw.findOrder_in hc
  obtain ⟨hrest, hgone⟩ := hs.unlink hw hin
  have hout : (s.afterCancel A ind c).out = s.out ++ [.cancelled c.val] ++
      (.message ind (.cancelled c.val.orderID) ::
        s.toOthers ind (.market c.val.isBuy c.val.product 0 0)) := rfl
  have hother : ∀ k, k ≠ key c.val → ∀ e ∈ [Event.cancelled c.val], ¬Concerns k e := by
    intro k hne e he
    obtain rfl := List.mem_singleton.mp he
    exact fun h => hne h.symm
  constructor
  · intro b i r hr
    obtain ⟨hlive, hne⟩ := hrest b i r hr
    rw [hout]
    exact (hlive.append (hother _ hne)).append (not_concerns_answer s ind ind _ _)
  · intro k hno
    rw [hout]
    by_cases hk : k = key c.val
    · rw [hk]
      exact (Live.cancel (hs.resting _ _ _ hin.mem)).append (not_concerns_answer s ind ind _ _)
    · exact ((hgone k hk hno).append (hother k hk)).append (not_concerns_answer s ind ind _ _)

/-- **The step lemma.** -/
theorem Outcome.balanced (ho : Outcome A vp s msg ind s') (hw : WellFormed vp s)
    (hs : Balanced s) : Balanced s' := by
  cases ho with
  | rejected =>
    have hes : ∀ k, ∀ e ∈ [Event.message (P := P) ind .invalid], ¬Concerns k e := by
      intro k e he
      obtain rfl := List.mem_singleton.mp he
      exact id
    exact ⟨fun b i r hr => (hs.resting b i r hr).append (hes _),
      fun k hno => (hs.gone k hno).append (hes k)⟩
  | @traded s₁ s₂ o o' ms ret hin ht =>
    obtain ⟨hw₁, hi₁⟩ := (incoming_enters hin).wellFormed hw
    have h₂ := ht.inFlight hw₁ hi₁ (incoming_inFlight hin hw hs)
    obtain ⟨hw₂, hi₂⟩ := ht.wellFormed hw₁ hi₁
    have hkey : key o' = key o := by
      rw [ht.left_eq]
      rfl
    refine afterInsert_rule (fun hret => ?_) fun hret => ?_
    · rw [if_pos hret] at h₂
      exact h₂.addOrder hkey
    · rw [if_neg hret] at h₂
      exact h₂.closed
  | cancelled _ hc => exact hs.cancelled hw hc

end Exchange

/-- Whole runs: each order is live with what rests of it, or closed. -/
theorem Reachable.balanced {A : Arith} {vp : ValidProducts P} {s : Exchange P T}
    (h : Reachable A vp s) : s.Balanced := by
  refine Transition.Reachable.invariant (I := Exchange.Balanced) ⟨fun _ _ _ hr => ?_, fun k _ => ?_⟩
    (fun s a s' hr hi hs => ?_) h
  · exact absurd hr List.not_mem_nil
  · have hnone : account k (initial : Exchange P T).out = none := by
      rw [← List.nil_append (initial : Exchange P T).out]
      refine account_append fun e he => ?_
      obtain ⟨i, rfl⟩ := mem_initial_out he
      exact id
    intro a ha
    rw [hnone] at ha
    cases ha
  · cases hs with
    | command hp =>
      exact (Exchange.parseMsg_outcome hp).balanced (Reachable.wellFormed hr) hi
    | died => exact ⟨hi.resting, hi.gone⟩

end PeExchange
