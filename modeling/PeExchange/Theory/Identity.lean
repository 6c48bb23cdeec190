import PeExchange.Theory.Accounting

/-!
# Order identity

Nothing in the program looks for a second order with the same trader and
identifier. That there is none follows from how identifiers are handed out: those
of a trader are accepted in the order 0, 1, 2, … (`Counted`), an amendment puts
its order back under the identifier it has taken away, and what is gone under an
identifier stays gone (`Gone`).

`OrderIdentity` collects what holds in every reachable state; the searches and the
deletions of `find_order`, `amend_msg` and `cancel_msg` rest on it.
-/

namespace PeExchange

open CFormat LinkedList

variable {P T : Nat}

/-! ## Identifiers handed out -/

/-- The identifiers of the orders accepted from a trader, in order of acceptance. -/
def acceptedIDs (t : Fin T) (out : List (Event P T)) : List Int :=
  out.filterMap fun
    | .message dest (.accepted id) => if dest = t then some id else none
    | _ => none

theorem acceptedIDs_append (t : Fin T) (out es : List (Event P T)) :
    acceptedIDs t (out ++ es) = acceptedIDs t out ++ acceptedIDs t es :=
  List.filterMap_append

/-- An acceptance counts for its trader. -/
theorem acceptedIDs_accepted (t ind : Fin T) (o : Order P T) (id : Int)
    (es : List (Event P T)) :
    acceptedIDs t (.entered o :: .message ind (.accepted id) :: es) =
      if ind = t then id :: acceptedIDs t es else acceptedIDs t es := by
  by_cases ht : ind = t
  · simp [acceptedIDs, ht]
  · simp [acceptedIDs, ht]

theorem acceptedIDs_eq_nil {t : Fin T} {es : List (Event P T)}
    (h : ∀ e ∈ es, ∀ dest id, e ≠ .message dest (.accepted id)) : acceptedIDs t es = [] := by
  rw [acceptedIDs, List.filterMap_eq_nil_iff]
  intro e he
  split
  · rename_i dest id
    exact absurd rfl (h _ he dest id)
  · rfl

theorem acceptedIDs_toOthers (t : Fin T) (s : Exchange P T) (ind : Fin T) (b : Bool)
    (product : List Char) (q p : Int) :
    acceptedIDs t (s.toOthers ind (.market b product q p)) = [] := by
  refine acceptedIDs_eq_nil fun e he dest id heq => ?_
  obtain ⟨i, rfl⟩ := Exchange.mem_toOthers s he
  cases heq

theorem acceptedIDs_matches (t : Fin T) (s : Exchange P T) (ms : List (Order P T × Order P T)) :
    acceptedIDs t (ms.flatMap fun m => s.matchEvents m.1 m.2) = [] := by
  refine acceptedIDs_eq_nil fun e he dest id heq => ?_
  subst heq
  obtain ⟨m, -, he⟩ := List.mem_flatMap.mp he
  obtain ⟨es, hes, htail⟩ := Exchange.matchEvents_eq s m.1 m.2
  rw [hes] at he
  -- a match writes its fill, `FILL` messages and a report
  rcases List.mem_cons.mp he with h | he
  · cases h
  · rcases htail _ he with ⟨_, _, _, h⟩ | h
    · cases h
    · cases h

namespace Exchange

variable {A : Arith} {vp : ValidProducts P} {s s' s₁ s₂ : Exchange P T} {ind t : Fin T}
  {o o' r : Order P T} {c : Cell (Order P T)} {msg : List Char} {id : Int}
  {ms : List (Order P T × Order P T)} {ret : Int}

/-- The counter of a trader is the number of orders accepted from it, and their
identifiers are the values it had. -/
def Counted (s : Exchange P T) : Prop :=
  ∀ t, ∃ n : Nat, (s.traders t).orderID = n ∧
    acceptedIDs t s.out = (List.range n).map Int.ofNat

/-- The two ways into the market and the counters: a new order takes the sender's
next identifier, an amended one keeps its own. -/
theorem incoming_counter (h : s.incoming A vp msg ind = .ok (some (s₁, o))) :
    (ackOf msg o = .accepted o.orderID ∧ o.orderID = (s.traders ind).orderID ∧
      ∀ t, (s₁.traders t).orderID = if t = ind then o.orderID + 1 else (s.traders t).orderID) ∨
    (ackOf msg o = .amended o.orderID ∧ ∀ t, (s₁.traders t).orderID = (s.traders t).orderID) := by
  have hnew : ∀ m, s.newOrderMsg vp m ind = .ok (some (s₁, o)) →
      o.orderID = (s.traders ind).orderID ∧
      ∀ t, (s₁.traders t).orderID =
        if t = ind then o.orderID + 1 else (s.traders t).orderID := by
    intro m hm
    obtain ⟨-, -, hid, rfl⟩ := newOrderMsg_some hm
    refine ⟨hid, fun t => ?_⟩
    show ((Function.update s.traders ind _) t).orderID = _
    by_cases ht : t = ind
    · subst ht
      rw [Function.update_self, if_pos rfl]
    · rw [Function.update_of_ne ht, if_neg ht]
  unfold incoming at h
  split at h
  · exact .inl ⟨rfl, hnew _ h⟩
  · exact .inl ⟨rfl, hnew _ h⟩
  · obtain ⟨c, id, q, p, -, -, -, -, rfl⟩ := amendOrderMsg_some h
    exact .inr ⟨rfl, fun _ => rfl⟩
  · cases h

theorem afterInsert_orderID (A : Arith) (s : Exchange P T) (o : Order P T) (ret : Int)
    (t : Fin T) : ((afterInsert A s o ret).traders t).orderID = (s.traders t).orderID :=
  afterInsert_rule (motive := fun s' => (s'.traders t).orderID = (s.traders t).orderID)
    (fun _ => rfl) fun _ => rfl

/-- One order more is accepted, under the next identifier. -/
theorem Outcome.counted (ho : Outcome A vp s msg ind s') (h : Counted s) : Counted s' := by
  intro t
  obtain ⟨n, hn, hids⟩ := h t
  rw [ho.out, acceptedIDs_append, hids]
  cases ho with
  | rejected =>
    refine ⟨n, hn, ?_⟩
    rw [written_append rfl]
    exact List.append_nil _
  | cancelled =>
    refine ⟨n, hn, ?_⟩
    rw [written_cancelled]
    show _ ++ acceptedIDs t (s.toOthers ind _) = _
    rw [acceptedIDs_toOthers, List.append_nil]
  | @traded s₁ s₂ o o' ms ret hin ht =>
    have hcounter : ((afterInsert A s₂ o' ret).traders t).orderID = (s₁.traders t).orderID := by
      rw [afterInsert_orderID, ht.shrunk.counters]
    have hmarket : acceptedIDs t (s.toOthers ind (marketMsg o)) = [] :=
      acceptedIDs_toOthers t s ind _ _ _ _
    rw [written_traded hin ht, acceptedIDs_append, acceptedIDs_matches, List.append_nil, hcounter]
    rcases incoming_counter hin with ⟨hack, hid, hs₁⟩ | ⟨hack, hs₁⟩
    · rw [hs₁, hack]
      by_cases ht : t = ind
      · subst ht
        refine ⟨n + 1, by rw [if_pos rfl, hid, hn]; rfl, ?_⟩
        rw [acceptedIDs_accepted, if_pos rfl, hmarket, List.range_succ, List.map_append, hid, hn]
        rfl
      · refine ⟨n, by rw [if_neg ht, hn], ?_⟩
        rw [acceptedIDs_accepted, if_neg (Ne.symm ht), hmarket, List.append_nil]
    · -- an amendment is answered with another message
      rw [hs₁, hack]
      refine ⟨n, hn, ?_⟩
      show _ ++ acceptedIDs t (s.toOthers ind (marketMsg o)) = _
      rw [hmarket, List.append_nil]

/-! ## Keys -/

/-- An order stands in one place. -/
theorem WellFormed.place_eq (h : WellFormed vp s) {b b' : Bool} {i i' : Fin P} {j j' : Nat}
    (ho : (s.orders b i)[j]? = some o) (ho' : (s.orders b' i')[j']? = some o')
    (hkey : key o = key o') : b = b' ∧ i = i' ∧ j = j' := by
  have hin : Cell.In ⟨j, o⟩ (s.orders b i) := ho
  have hin' : Cell.In ⟨j', o'⟩ (s.orders b' i') := ho'
  have hk : key o ∈ (s.orders b' i').map key := hkey ▸ List.mem_map_of_mem hin'.mem
  obtain ⟨rfl, rfl⟩ := h.apart (List.mem_map_of_mem hin.mem) hk
  have heq := List.inj_on_of_nodup_map (h.distinct b i) hin.mem hin'.mem hkey
  exact ⟨rfl, rfl, congrArg Cell.idx (hin.eq_of_nodup (h.distinct b i).of_map hin' heq)⟩

/-- The search of `find_order` with the lists taken in some other order. -/
def scanLists (s : Exchange P T) (lists : List (Bool × Fin P)) (t : Fin T) (id : Int) :
    Option (Cell (Order P T)) :=
  lists.findSome? fun x =>
    locate (fun o => o.orderID = id && o.traderID = t) (s.orders x.1 x.2)

theorem scanLists_some {lists : List (Bool × Fin P)} (h : s.scanLists lists t id = some c) :
    ∃ b i, c.In (s.orders b i) ∧ c.val.traderID = t ∧ c.val.orderID = id := by
  obtain ⟨x, -, hx⟩ := List.exists_of_findSome?_eq_some h
  obtain ⟨hin, hp⟩ := locate_some hx
  simp only [Bool.and_eq_true, decide_eq_true_eq] at hp
  exact ⟨x.1, x.2, hin, hp.2, hp.1⟩

/-- The order of the scan does not matter: there is one order of that number at most. -/
theorem WellFormed.scanLists_eq (h : WellFormed vp s) {lists : List (Bool × Fin P)}
    (hall : ∀ b i, (b, i) ∈ lists) (t : Fin T) (id : Int) :
    s.scanLists lists t id = s.findOrder t id := by
  cases hs : s.scanLists lists t id with
  | some c =>
    obtain ⟨b, i, hin, rfl, rfl⟩ := scanLists_some hs
    exact (h.findOrder_of_in hin).symm
  | none =>
    refine (findOrder_none.mpr fun b i r hr hk => ?_).symm
    have hno := List.findSome?_eq_none_iff.mp hs (b, i) (hall b i)
    have hr' := locate_none.mp hno r hr
    simp [hk.1, hk.2] at hr'

/-! ## Deletions -/

/-- The orders of the other traders stay as they are, in the same order. -/
def SparesOthers (t : Fin T) (s s' : Exchange P T) : Prop :=
  ∀ b i, (s'.orders b i).filter (fun r => r.traderID ≠ t) =
    (s.orders b i).filter fun r => r.traderID ≠ t

theorem deleteOrder_sparesOthers (ht : c.val.traderID = t) {b' : Bool} {i' : Fin P}
    (hin : c.In (s.orders b' i')) : SparesOthers t s (s.deleteOrder c b' i') := by
  intro b i
  rw [deleteOrder, setOrders_orders]
  split
  · rename_i h
    obtain ⟨rfl, rfl⟩ := h
    obtain ⟨pre, post, hl, -, hdel, -⟩ := hin.split
    have hout : decide (c.val.traderID ≠ t) = false := by simp [ht]
    rw [hdel, hl, List.filter_append, List.filter_append, List.filter_cons, hout]
    rfl
  · rfl

/-- Nobody amends an order of another. -/
theorem WellFormed.amend_sparesOthers (h : WellFormed vp s)
    (ha : s.amendOrderMsg A msg t = .ok (some (s₁, o))) :
    SparesOthers t s s₁ ∧ o.traderID = t := by
  obtain ⟨c, id, q, p, hc, -, -, rfl, rfl⟩ := amendOrderMsg_some ha
  have ht := (findOrder_some hc).1
  exact ⟨deleteOrder_sparesOthers ht (h.findOrder_in hc), ht⟩

/-- Nobody cancels an order of another. -/
theorem WellFormed.cancel_sparesOthers (h : WellFormed vp s)
    (hc : s.cancelMsg A msg t = .ok (some s')) : SparesOthers t s s' := by
  obtain ⟨id, c, hf, rfl⟩ := cancelMsg_some hc
  exact deleteOrder_sparesOthers (findOrder_some hf).1 (h.findOrder_in hf)

/-! ## Orders that are gone -/

/-- The identifier was handed out and no order rests under it. -/
structure Gone (s : Exchange P T) (k : Fin T × Int) : Prop where
  issued : k.2 < (s.traders k.1).orderID
  absent : ∀ b i, k ∉ (s.orders b i).map key

/-- The counters only go up. -/
theorem incoming_counter_le (h : s.incoming A vp msg ind = .ok (some (s₁, o))) (t : Fin T) :
    (s.traders t).orderID ≤ (s₁.traders t).orderID := by
  rcases incoming_counter h with ⟨-, hid, hs₁⟩ | ⟨-, hs₁⟩
  · rw [hs₁]
    by_cases ht : t = ind
    · subst ht
      rw [if_pos rfl, hid]
      exact Int.le_add_one (le_refl _)
    · rw [if_neg ht]
  · rw [hs₁]

/-- A counter never goes back. -/
theorem Outcome.counter_le (ho : Outcome A vp s msg ind s') (t : Fin T) :
    (s.traders t).orderID ≤ (s'.traders t).orderID := by
  cases ho with
  | rejected => exact le_refl _
  | cancelled => exact le_refl _
  | @traded s₁ s₂ o o' ms ret hin ht =>
    rw [afterInsert_orderID, ht.shrunk.counters]
    exact incoming_counter_le hin t

/-- An order that enters the market does so under a new identifier or one under
which an order rests. -/
theorem Gone.ne_incoming {k : Fin T × Int} (h : Gone s k)
    (he : Enters A vp s ind s₁ o) : key o ≠ k := by
  rintro rfl
  cases he with
  | new hv ht hid =>
    subst ht
    have hlt : o.orderID < (s.traders o.traderID).orderID := h.issued
    rw [hid] at hlt
    exact lt_irrefl _ hlt
  | @amended c id q p hc hq hp =>
    obtain ⟨-, -, b, i, hin⟩ := findOrder_some hc
    exact h.absent b i (List.mem_map.mpr ⟨c.val, hin.mem, rfl⟩)

/-- An order that is gone stays gone after a command. -/
theorem Outcome.gone {k : Fin T × Int} (ho : Outcome A vp s msg ind s') (h : Gone s k) :
    Gone s' k := by
  refine ⟨lt_of_lt_of_le h.issued (ho.counter_le k.1), ?_⟩
  cases ho with
  | rejected => exact h.absent
  | cancelled =>
    intro b i hk
    exact h.absent b i (((deleteOrder_sublist s _ _ _ b i).map key).subset hk)
  | @traded s₁ s₂ o o' ms ret hin ht =>
    have hne := h.ne_incoming (incoming_enters hin)
    have habsent : ∀ b i, k ∉ (s₂.orders b i).map key := by
      intro b i hk
      have hk₁ := (ht.shrunk.orders b i).keys.subset hk
      exact h.absent b i ((((incoming_enters hin).orders_sublist b i).map key).subset hk₁)
    refine afterInsert_rule (motive := fun s' => ∀ b i, k ∉ (s'.orders b i).map key)
      (fun _ => ?_) fun _ => habsent
    intro b i hk
    obtain ⟨r, hr, rfl⟩ := List.mem_map.mp hk
    rcases mem_addOrder.mp hr with hr | ⟨-, -, rfl⟩
    · exact habsent b i (List.mem_map_of_mem hr)
    · -- what is left of the incoming order has its key
      rw [ht.left_eq] at hne
      exact hne rfl

/-- An order that is gone stays gone in every run. -/
theorem Gone.run {k : Fin T × Int} (h : Gone s k)
    (hr : Transition.Reachable (Step A vp) s s') : Gone s' k := by
  refine Transition.Reachable.invariant (I := fun s => Gone s k) h (fun s a s' _ hi hs => ?_) hr
  cases hs with
  | command hp => exact (parseMsg_outcome hp).gone hi
  | died => exact ⟨by rw [traderDied_orderID]; exact hi.issued, hi.absent⟩

/-- The orders entered so far have identifiers that were handed out. -/
def EnteredIssued (s : Exchange P T) : Prop :=
  ∀ o, .entered o ∈ s.out → o.orderID < (s.traders o.traderID).orderID

/-- Every order that enters has been given its number. -/
theorem Outcome.enteredIssued (ho : Outcome A vp s msg ind s') (hw : WellFormed vp s)
    (h : EnteredIssued s) : EnteredIssued s' := by
  intro r hr
  rw [ho.out] at hr
  rcases List.mem_append.mp hr with hr | hr
  · exact lt_of_lt_of_le (h r hr) (ho.counter_le _)
  · cases ho with
    | rejected =>
      rw [written_append rfl] at hr
      cases List.mem_singleton.mp hr
    | cancelled =>
      rw [written_cancelled] at hr
      rcases List.mem_cons.mp hr with hr | hr
      · cases hr
      · exact absurd rfl (not_concerns_answer s ind ind _ _ _ hr : ¬Concerns (key r) _)
    | @traded s₁ s₂ o o' ms ret hin ht =>
      rw [written_traded hin ht] at hr
      have hi := ((incoming_enters hin).wellFormed hw).2
      rcases List.mem_append.mp hr with hr | hr
      · rcases List.mem_cons.mp hr with heq | hr
        · obtain rfl := Event.entered.inj heq
          rw [afterInsert_orderID, ht.shrunk.counters]
          exact hi.issued
        · exact absurd rfl (not_concerns_answer s ind ind _ _ _ hr : ¬Concerns (key r) _)
      · -- a match enters no order
        obtain ⟨m, -, hr⟩ := List.mem_flatMap.mp hr
        obtain ⟨es, hes, htail⟩ := matchEvents_eq s m.1 m.2
        rw [hes] at hr
        rcases List.mem_cons.mp hr with hr | hr
        · cases hr
        · rcases htail _ hr with ⟨_, _, _, heq⟩ | heq
          · cases heq
          · cases heq

/-- An account is opened by an entry for its order. -/
theorem entered_of_account {k : Fin T × Int} {a : Account} {out : List (Event P T)}
    (h : account k out = some a) : ∃ o, .entered o ∈ out ∧ key o = k := by
  by_contra hno
  have hsame : ∀ out' : List (Event P T), (∀ e ∈ out', e ∈ out) → account k out' = none := by
    intro out'
    induction out' using List.reverseRecOn with
    | nil => exact fun _ => rfl
    | append_singleton es e ih =>
      intro hsub
      have hes := ih fun e' he' => hsub e' (List.mem_append_left _ he')
      rw [account_snoc, hes]
      cases e with
      | entered o =>
        refine if_neg fun hk => hno ⟨o, hsub _ ?_, hk⟩
        exact List.mem_append_right _ (List.mem_singleton_self _)
      | cancelled o => exact ite_self _
      | fill b r q => exact ite_self _
      | matched => rfl
      | message => rfl
  rw [hsame out fun _ he => he] at h
  cases h

/-- Nothing is left of an order that was entered: its identifier is gone. -/
theorem gone_of_account {k : Fin T × Int} {a : Account} (hb : Balanced s) (hw : WellFormed vp s)
    (hei : EnteredIssued s) (ha : account k s.out = some a)
    (hall : a.filled + a.cancelled.getD 0 = a.entered) : Gone s k := by
  obtain ⟨o, ho, rfl⟩ := entered_of_account ha
  refine ⟨hei o ho, fun b i hk => ?_⟩
  obtain ⟨r, hr, hkey⟩ := List.mem_map.mp hk
  -- a resting order has units left
  obtain ⟨a', ha', hc, hf⟩ := hb.resting b i r hr
  have hpos := (hw.valid b i r hr).quantity_pos
  rw [hkey, ha] at ha'
  obtain rfl := Option.some.inj ha'
  rw [hc] at hall
  simp only [Option.getD_none] at hall
  omega

end Exchange

/-- Whole runs: the numbers given out are the first ones. -/
theorem Reachable.counted {A : Arith} {vp : ValidProducts P} {s : Exchange P T}
    (h : Reachable A vp s) : s.Counted := by
  refine Transition.Reachable.invariant (I := Exchange.Counted) (fun t => ⟨0, rfl, ?_⟩)
    (fun s a s' _ hi hs => ?_) h
  · refine acceptedIDs_eq_nil fun e he dest id heq => ?_
    obtain ⟨i, rfl⟩ := mem_initial_out he
    cases heq
  · cases hs with
    | command hp => exact (Exchange.parseMsg_outcome hp).counted hi
    | died =>
      intro t
      obtain ⟨n, hn, hids⟩ := hi t
      exact ⟨n, by rw [traderDied_orderID]; exact hn, hids⟩

/-- Whole runs: only orders that were given a number enter. -/
theorem Reachable.enteredIssued {A : Arith} {vp : ValidProducts P} {s : Exchange P T}
    (h : Reachable A vp s) : s.EnteredIssued := by
  refine Transition.Reachable.invariant (I := Exchange.EnteredIssued) (fun o ho => ?_)
    (fun s a s' hr hi hs => ?_) h
  · obtain ⟨i, heq⟩ := mem_initial_out ho
    cases heq
  · cases hs with
    | command hp =>
      have hreach : Reachable A vp s := hr
      exact (Exchange.parseMsg_outcome hp).enteredIssued hreach.wellFormed hi
    | died =>
      intro o ho
      rw [traderDied_orderID]
      exact hi o ho

/-- What the identifiers of orders are good for. -/
structure OrderIdentity (A : Arith) (vp : ValidProducts P) (s : Exchange P T) : Prop where
  /-- The identifiers accepted from a trader are 0, 1, 2, … -/
  accepted : ∀ t, ∃ n : Nat, (s.traders t).orderID = n ∧
    acceptedIDs t s.out = (List.range n).map Int.ofNat
  /-- A new order is accepted under the next of them. -/
  new : ∀ {msg : List Char} {t : Fin T} {s₁ : Exchange P T} {o : Order P T},
    s.newOrderMsg vp msg t = .ok (some (s₁, o)) →
      acceptedIDs t s₁.out = acceptedIDs t s.out ++ [o.orderID]
  /-- Two resting orders differ in their trader or their identifier. -/
  unique : ∀ {b b' : Bool} {i i' : Fin P} {j j' : Nat} {o o' : Order P T},
    (s.orders b i)[j]? = some o → (s.orders b' i')[j']? = some o' → o.traderID = o'.traderID →
      o.orderID = o'.orderID → b = b' ∧ i = i' ∧ j = j'
  issued : ∀ b i, ∀ o ∈ s.orders b i, o.orderID < (s.traders o.traderID).orderID
  placed : ∀ b i, ∀ o ∈ s.orders b i, o.isBuy = b ∧ o.productID = i
  /-- `find_order` returns the only order there is, whatever list it looks at first. -/
  found : ∀ {b : Bool} {i : Fin P} {c : Cell (Order P T)}, c.In (s.orders b i) →
    s.findOrder c.val.traderID c.val.orderID = some c
  scanned : ∀ {lists : List (Bool × Fin P)}, (∀ b i, (b, i) ∈ lists) →
    ∀ t id, s.scanLists lists t id = s.findOrder t id
  /-- What `AMEND` and `CANCEL` take out of the lists is the sender's own. -/
  amend : ∀ {msg : List Char} {t : Fin T} {s₁ : Exchange P T} {o : Order P T},
    s.amendOrderMsg A msg t = .ok (some (s₁, o)) → s.SparesOthers t s₁ ∧ o.traderID = t
  cancel : ∀ {msg : List Char} {t : Fin T} {s' : Exchange P T},
    s.cancelMsg A msg t = .ok (some s') → s.SparesOthers t s'
  /-- An identifier of which everything was filled or cancelled does not come back. -/
  gone : ∀ {k : Fin T × Int} {a : Account}, account k s.out = some a →
    a.filled + a.cancelled.getD 0 = a.entered →
    ∀ {s' : Exchange P T}, Transition.Reachable (Step A vp) s s' →
      ∀ b i, ∀ r ∈ s'.orders b i, key r ≠ k

/-- **Orders are told apart by their trader and identifier**, in every reachable
state. -/
theorem Reachable.orderIdentity {A : Arith} {vp : ValidProducts P} {s : Exchange P T}
    (h : Reachable A vp s) : OrderIdentity A vp s := by
  have hw := h.wellFormed
  constructor
  · exact h.counted
  · intro msg t s₁ o hnew
    obtain ⟨-, hout⟩ := Exchange.newOrderMsg_out hnew
    have hmarket : acceptedIDs t (s.toOthers t (Exchange.marketMsg o)) = [] :=
      acceptedIDs_toOthers t s t _ _ _ _
    rw [hout, acceptedIDs_append, acceptedIDs_accepted, if_pos rfl, hmarket]
  · intro b b' i i' j j' o o' ho ho' ht hid
    exact hw.place_eq ho ho' (Prod.ext ht hid)
  · exact hw.issued
  · exact hw.placed
  · intro b i c hin
    exact hw.findOrder_of_in hin
  · intro lists hall t id
    exact hw.scanLists_eq hall t id
  · intro msg t s₁ o ha
    exact hw.amend_sparesOthers ha
  · intro msg t s' hc
    exact hw.cancel_sparesOthers hc
  · intro k a ha hall s' hr b i r hr' hkey
    have hgone := Exchange.gone_of_account h.balanced hw h.enteredIssued ha hall
    exact (hgone.run hr).absent b i (hkey ▸ List.mem_map_of_mem hr')

/-- Trader 0 places an order, cancels it and places another: they have the
identifiers 0 and 1. -/
theorem orderIdentity_gpu :
    ∃ s : Exchange 2 2, initial.runCommands .machine testProducts
        [(0, "BUY 0 GPU 5 30;".toList), (0, "CANCEL 0;".toList), (0, "SELL 1 GPU 5 30;".toList)] =
          .ok s ∧
      OrderIdentity .machine testProducts s ∧ acceptedIDs 0 s.out = [0, 1] := by
  have hrun : okAnd ((initial : Exchange 2 2).runCommands .machine testProducts
      [(0, "BUY 0 GPU 5 30;".toList), (0, "CANCEL 0;".toList), (0, "SELL 1 GPU 5 30;".toList)])
      (fun s => decide (acceptedIDs 0 s.out = [0, 1])) := by
    decide +kernel
  obtain ⟨s, hs, hids⟩ := exists_of_okAnd hrun
  have hreach : Reachable .machine testProducts s :=
    Reachable.runCommands Transition.Reachable.init hs
  exact ⟨s, hs, hreach.orderIdentity, of_decide_eq_true hids⟩

end PeExchange
