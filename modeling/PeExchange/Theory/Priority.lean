import PeExchange.Theory.Trace

/-!
# Price-time priority

The lists hold no time. The time of an order is read off the output: its `age`
is the number of entries since it was last accepted or amended.

- `TimeOrdered`: every list is in order of age, oldest first. `Latest`: the order
  being matched is younger than all of them. Entering an order establishes the
  two (`Enters.timeOrdered`), removing and reducing orders keeps them.
- `Trades.serves`: the matching loop is the searching loop of the priority
  library, so it performs the fills of the sorted queue.
- `checkForMatch_fills` puts the two together.
-/

namespace PeExchange

open LinkedList PriorityFill

variable {P T : Nat}

/-! ## Ages -/

/-- The entries that give the order with key `k` its place in time. -/
def isStamp (k : Fin T × Int) : Event P T → Bool
  | .message t (.accepted id) => (t, id) = k
  | .message t (.amended id) => (t, id) = k
  | _ => false

/-- How long ago the order with key `k` was last accepted or amended. -/
def keyAge (out : List (Event P T)) (k : Fin T × Int) : Nat :=
  out.reverse.findIdx (isStamp k)

/-- How long ago an order was last accepted or amended. -/
def age (out : List (Event P T)) (o : Order P T) : Nat :=
  keyAge out (key o)

/-- An order ages with each entry that does not set its stamp. -/
theorem keyAge_append {out es : List (Event P T)} {k : Fin T × Int}
    (h : ∀ e ∈ es, isStamp k e = false) : keyAge (out ++ es) k = keyAge out k + es.length := by
  -- the search from the end passes over `es`
  have hno : ¬es.reverse.findIdx (isStamp k) < es.reverse.length := by
    rw [List.findIdx_lt_length]
    rintro ⟨e, he, hst⟩
    rw [h e (List.mem_reverse.mp he)] at hst
    cases hst
  rw [keyAge, List.reverse_append, List.findIdx_append, if_neg hno, List.length_reverse]
  rfl

theorem keyAge_append_lt {out es : List (Event P T)} {k : Fin T × Int} {e : Event P T}
    (he : e ∈ es) (hst : isStamp k e = true) : keyAge (out ++ es) k < es.length := by
  have hlt : es.reverse.findIdx (isStamp k) < es.reverse.length :=
    List.findIdx_lt_length_of_exists ⟨e, List.mem_reverse.mpr he, hst⟩
  rw [keyAge, List.reverse_append, List.findIdx_append, if_pos hlt]
  exact hlt.trans_eq List.length_reverse

theorem aged_iff {out : List (Event P T)} {l : List (Order P T)} :
    Aged (age out) l ↔ (l.map key).Pairwise fun a b => keyAge out b < keyAge out a := by
  rw [List.pairwise_map]
  rfl

/-- Removing and reducing orders keeps a list in order of age. -/
theorem aged_remnant {out : List (Event P T)} {l l' : List (Order P T)}
    (h : Aged (age out) l) (hr : Remnant l' l) : Aged (age out) l' :=
  aged_iff.mpr ((aged_iff.mp h).sublist hr.keys)

/-- So does output that stamps none of its orders. -/
theorem aged_emit {out es : List (Event P T)} {l : List (Order P T)} (h : Aged (age out) l)
    (hes : ∀ r ∈ l, ∀ e ∈ es, isStamp (key r) e = false) : Aged (age (out ++ es)) l := by
  refine List.Pairwise.imp_of_mem (fun {a b} ha hb hlt => ?_) h
  rw [age, age, keyAge_append (hes a ha), keyAge_append (hes b hb)]
  exact Nat.add_lt_add_right hlt _

namespace Exchange

variable {A : Arith} {vp : ValidProducts P} {s s' s₁ s₂ : Exchange P T} {ind : Fin T}
  {o o' : Order P T} {c : Cell (Order P T)} {ms : List (Order P T × Order P T)} {ret : Int}
  {msg : List Char} {k : Fin T × Int}

theorem isStamp_toOthers (s : Exchange P T) (ind : Fin T) (b : Bool) (prod : List Char)
    (q p : Int) : ∀ e ∈ s.toOthers ind (.market b prod q p), isStamp k e = false := by
  intro e he
  obtain ⟨i, rfl⟩ := mem_toOthers s he
  rfl

theorem isStamp_matchEvents (s : Exchange P T) (o r : Order P T) :
    ∀ e ∈ s.matchEvents o r, isStamp k e = false := by
  obtain ⟨es, heq, hes⟩ := matchEvents_eq s o r
  rw [heq]
  intro e he
  rcases List.mem_cons.mp he with rfl | he
  · rfl
  · rcases hes e he with ⟨t, id, q, rfl⟩ | rfl
    · rfl
    · rfl

/-! ## Time order -/

/-- Every list is in order of age, oldest first. -/
def TimeOrdered (s : Exchange P T) : Prop :=
  ∀ b i, Aged (age s.out) (s.orders b i)

/-- Order `o` was accepted or amended after all the resting orders. -/
def Latest (s : Exchange P T) (o : Order P T) : Prop :=
  ∀ b i, ∀ r ∈ s.orders b i, age s.out o < age s.out r

/-- What is taken from the lists leaves their order. -/
theorem TimeOrdered.step {es : List (Event P T)} (h : TimeOrdered s)
    (hr : ∀ b i, Remnant (s'.orders b i) (s.orders b i)) (hout : s'.out = s.out ++ es)
    (hes : ∀ b i, ∀ r ∈ s'.orders b i, ∀ e ∈ es, isStamp (key r) e = false) :
    TimeOrdered s' := by
  intro b i
  rw [hout]
  exact aged_emit (aged_remnant (h b i) (hr b i)) (hes b i)

/-- The new order is younger than all that rests. -/
theorem Latest.step {es : List (Event P T)} (h : Latest s o)
    (hr : ∀ b i, Remnant (s'.orders b i) (s.orders b i)) (hout : s'.out = s.out ++ es)
    (hes : ∀ k, ∀ e ∈ es, isStamp k e = false) (ho : key o' = key o) : Latest s' o' := by
  intro b i r' hr'
  obtain ⟨r, hin, hred⟩ := (hr b i).mem hr'
  have hlt := h b i r hin
  rw [age, age] at hlt
  rw [hout, age, age, keyAge_append (hes _), keyAge_append (hes _), ho, hred.key_eq]
  exact Nat.add_lt_add_right hlt _

/-- Entering an order gives it the latest place in time. -/
theorem incoming_timeOrdered (hin : s.incoming A vp msg ind = .ok (some (s₁, o)))
    (hw : WellFormed vp s) (h : TimeOrdered s) : TimeOrdered s₁ ∧ Latest s₁ o := by
  have he := incoming_enters hin
  obtain ⟨-, hout⟩ := incoming_out hin
  obtain ⟨-, hi⟩ := he.wellFormed hw
  -- the acknowledgement is a stamp for `o` and for no resting order
  have hack : ∀ k, isStamp k (Event.message (P := P) ind (ackOf msg o)) = decide (key o = k) := by
    intro k
    have hkey : key o = (ind, o.orderID) := Prod.ext he.traderID rfl
    rw [hkey]
    unfold ackOf
    split <;> rfl
  have hes : ∀ b i, ∀ r ∈ s₁.orders b i, ∀ e ∈ Event.entered o :: .message ind (ackOf msg o) ::
      s.toOthers ind (marketMsg o), isStamp (key r) e = false := by
    intro b i r hr e he'
    rcases List.mem_cons.mp he' with rfl | he'
    · rfl
    rcases List.mem_cons.mp he' with rfl | he'
    · rw [hack]
      exact decide_eq_false fun heq => hi.fresh b i (heq ▸ List.mem_map_of_mem hr)
    · exact isStamp_toOthers s ind _ _ _ _ e he'
  refine ⟨h.step (fun b i => .of_sublist (he.orders_sublist b i)) hout hes, ?_⟩
  intro b i r hr
  -- the stamp of `o` is among the last entries, those of the resting orders are before them
  rw [hout, age, age, keyAge_append (hes b i r hr)]
  refine lt_of_lt_of_le (keyAge_append_lt (e := .message ind (ackOf msg o)) ?_ ?_)
    (Nat.le_add_left _ _)
  · exact List.mem_cons_of_mem _ List.mem_cons_self
  · rw [hack]
    exact decide_eq_true rfl

/-- The matching loop keeps the lists in the order of time. -/
theorem Trades.timeOrdered (ht : Trades A s o ms s' o' ret) (h : TimeOrdered s)
    (hl : Latest s o) : TimeOrdered s' ∧ Latest s' o' := by
  have hes : ∀ k, ∀ e ∈ ms.flatMap fun m => s.matchEvents m.1 m.2, isStamp k e = false := by
    intro k e he
    obtain ⟨m, -, he⟩ := List.mem_flatMap.mp he
    exact isStamp_matchEvents s m.1 m.2 e he
  have hkey : key o' = key o := by
    rw [ht.left_eq]
    rfl
  exact ⟨h.step ht.shrunk.orders ht.out fun _ _ r _ => hes (key r),
    hl.step ht.shrunk.orders ht.out hes hkey⟩

/-- **The step lemma.** -/
theorem Outcome.timeOrdered (ho : Outcome A vp s msg ind s') (hw : WellFormed vp s)
    (h : TimeOrdered s) : TimeOrdered s' := by
  cases ho with
  | rejected =>
    refine h.step (fun _ _ => .of_sublist (List.Sublist.refl _)) rfl fun _ _ _ _ e he => ?_
    obtain rfl := List.mem_singleton.mp he
    rfl
  | @traded s₁ s₂ o o' ms ret hin ht =>
    obtain ⟨h₁, hl₁⟩ := incoming_timeOrdered hin hw h
    obtain ⟨h₂, hl₂⟩ := ht.timeOrdered h₁ hl₁
    refine afterInsert_rule (fun _ b i => ?_) fun _ => h₂
    show Aged (age s₂.out) (if _ then _ else _)
    split
    · -- the order that is left is younger than all of its list
      refine List.pairwise_append.mpr ⟨h₂ _ _, List.pairwise_singleton _ _, fun r hr r' hr' => ?_⟩
      obtain rfl := List.mem_singleton.mp hr'
      exact hl₂ _ _ r hr
    · exact h₂ b i
  | @cancelled c =>
    refine h.step (fun b i => .of_sublist (deleteOrder_sublist s c _ _ b i))
      (List.append_assoc _ _ _) fun _ _ _ _ e he => ?_
    rcases List.mem_cons.mp he with rfl | he
    · rfl
    rcases List.mem_cons.mp he with rfl | he
    · rfl
    · exact isStamp_toOthers s ind _ _ _ _ e he

end Exchange

/-- **The lists are in time order in every reachable state.** -/
theorem Reachable.timeOrdered {A : Arith} {vp : ValidProducts P} {s : Exchange P T}
    (h : Reachable A vp s) : s.TimeOrdered := by
  refine Transition.Reachable.invariant (fun _ _ => List.Pairwise.nil) (fun s a s' hr hi hs => ?_) h
  cases hs with
  | command hp => exact (Exchange.parseMsg_outcome hp).timeOrdered (Reachable.wellFormed hr) hi
  | died => exact hi

namespace Exchange

/-! ## The loop is the library's -/

variable {A : Arith} {vp : ValidProducts P} {s s' s₁ s₂ : Exchange P T} {ind : Fin T}
  {o o' : Order P T} {c : Cell (Order P T)} {ms : List (Order P T × Order P T)} {ret : Int}
  {msg : List Char} {k : Fin T × Int}

/-- The opposite list after a match, around the order it was with. -/
theorem execMatch_opposite (A : Arith) (hf : s.findBest o = some c) :
    ∃ pre post, FirstBest (rank o.isBuy) (crosses o) (s.opposite o) c.val pre post ∧
      (s.execMatch A o c).opposite o =
        if c.val.quantity ≤ o.quantity then pre ++ post
        else pre ++ withQuantity c.val (c.val.quantity - o.quantity) :: post := by
  obtain ⟨pre, post, hidx, hb⟩ := findBest_some hf
  refine ⟨pre, post, hb, ?_⟩
  have hdel : c.delete (s.opposite o) = pre ++ post := by
    rw [hb.split, Cell.delete, hidx, List.eraseIdx_append_of_length_le (le_refl _), Nat.sub_self]
    rfl
  have hstore : ∀ v, c.store v (s.opposite o) = pre ++ v :: post := by
    intro v
    rw [hb.split, Cell.store, hidx, List.set_append_right _ _ (le_refl _), Nat.sub_self]
    rfl
  rw [opposite, execMatch_orders, if_pos ⟨rfl, rfl⟩, hdel, hstore]

/-- The matching loop serves the new order from the opposite list. -/
theorem Trades.serves (ht : Trades A s o ms s' o' ret) (hp : 0 < o.price) :
    Serves (rank o.isBuy) (crosses o) Order.quantity withQuantity o.quantity (s.opposite o)
      (ms.map fun m => (m.2, tradedQuantity m.1 m.2)) (if ret = 1 then o'.quantity else 0)
      (s'.opposite o) := by
  induction ht with
  | stop hq hf => exact .stop hq (findBest_none hp hf)
  | @last s o c hq hf hle =>
    obtain ⟨pre, post, hb, hopp⟩ := execMatch_opposite A hf
    rw [hopp, List.map_singleton, tradedQuantity_of_le hle]
    rcases hle.lt_or_eq with hlt | heq
    · -- the last resting order is only partly used
      rw [if_neg (not_le.mpr hlt)]
      exact .part hq hlt hb
    · -- both orders are used up at once
      rw [if_pos heq.ge, heq]
      exact .exact hb
  | @more s s' o o' c ms ret hq hf hlt ht ih =>
    obtain ⟨pre, post, hb, hopp⟩ := execMatch_opposite A hf
    rw [if_pos hlt.le] at hopp
    have hs := ih hp
    rw [show (s.execMatch A o c).opposite (withQuantity o (o.quantity - c.val.quantity)) =
      pre ++ post from hopp] at hs
    rw [List.map_cons, tradedQuantity_of_ge hlt.le]
    exact .more hlt hb hs

/-- The matching loop leaves the other lists alone. -/
theorem Trades.orders_of_ne (ht : Trades A s o ms s' o' ret) {b : Bool} {i : Fin P}
    (hne : ¬(b = (!o.isBuy) ∧ i = o.productID)) : s'.orders b i = s.orders b i := by
  induction ht with
  | stop => rfl
  | last => rw [execMatch_orders, if_neg hne]
  | more _ _ _ _ ih => rw [ih hne, execMatch_orders, if_neg hne]

/-- The fills among output entries, for a new order of side `newIsBuy`: the
resting order and the quantity that `write_fill` was called with. -/
def executed (newIsBuy : Bool) (es : List (Event P T)) : List (Order P T × Int) :=
  es.filterMap fun
    | .fill buyOrder sellOrder quantity =>
      some (if newIsBuy then sellOrder else buyOrder, quantity)
    | _ => none

theorem executed_matchEvents (s : Exchange P T) (o r : Order P T) :
    executed o.isBuy (s.matchEvents o r) = [(r, tradedQuantity o r)] := by
  have hr : (if o.isBuy then sellOf o r else buyOf o r) = r := by
    cases ho : o.isBuy <;> simp [sellOf, buyOf, ho]
  rw [executed, filterMap_matchEvents s o r fun _ _ => rfl]
  exact congrArg (fun r' => [(r', tradedQuantity o r)]) hr

theorem executed_flatMap (s : Exchange P T) {newIsBuy : Bool}
    (hside : ∀ m ∈ ms, m.1.isBuy = newIsBuy) :
    executed newIsBuy (ms.flatMap fun m => s.matchEvents m.1 m.2) =
      ms.map fun m => (m.2, tradedQuantity m.1 m.2) := by
  induction ms with
  | nil => rfl
  | cons m ms ih =>
    have hm := executed_matchEvents s m.1 m.2
    rw [hside m List.mem_cons_self] at hm
    rw [List.flatMap_cons, executed, List.filterMap_append, List.map_cons,
      ← ih fun m' hm' => hside m' (List.mem_cons_of_mem _ hm')]
    exact congrArg (· ++ _) hm

/-- The matching loop calls `write_fill` for its matches. -/
theorem Trades.executed_eq (ht : Trades A s o ms s' o' ret) :
    executed o.isBuy (s.written s') = ms.map fun m => (m.2, tradedQuantity m.1 m.2) := by
  rw [written_append ht.out]
  -- the new order keeps its side while it is filled
  refine executed_flatMap s fun m hm => ?_
  obtain ⟨⟨q, hq⟩, -⟩ := ht.mem_matches m hm
  rw [hq]
  rfl

/-- What an order entering in state `s` is filled with: the queue of crossing
orders, best price first and oldest first at the same price. -/
def dueFills (s : Exchange P T) (o : Order P T) : List (Order P T × Int) :=
  fill Order.quantity o.quantity (queue (rank o.isBuy) (age s.out) (crosses o) (s.opposite o))

/-- **The matching loop makes the fills that are due**, settles the resting orders
by them, and returns what they leave of the new order. -/
theorem Trades.due (ht : Trades A s₁ o ms s₂ o' ret) (hr : Reachable A vp s)
    (hin : s.incoming A vp msg ind = .ok (some (s₁, o))) :
    (ms.map fun m => (m.2, tradedQuantity m.1 m.2)) = s₁.dueFills o ∧
    (ret = 0 ∧ total (s₁.dueFills o) = o.quantity ∨
      ret = 1 ∧ total (s₁.dueFills o) < o.quantity ∧
        o' = withQuantity o (o.quantity - total (s₁.dueFills o))) ∧
    s₂.opposite o =
      PriorityFill.settle Order.quantity withQuantity (s₁.dueFills o) (s₁.opposite o) := by
  have he := incoming_enters hin
  obtain ⟨hw₁, -⟩ := he.wellFormed (Reachable.wellFormed hr)
  obtain ⟨hold, -⟩ := incoming_timeOrdered hin (Reachable.wellFormed hr) (Reachable.timeOrdered hr)
  have haged : Aged (age s₁.out) (s₁.opposite o) := hold _ _
  have hpos : ∀ r ∈ s₁.opposite o, 0 < r.quantity := fun r hr =>
    (hw₁.valid _ _ r hr).quantity_pos
  have hserves := ht.serves he.price_pos
  have hfills : (ms.map fun m => (m.2, tradedQuantity m.1 m.2)) = s₁.dueFills o :=
    hserves.eq_fill haged hpos
  obtain ⟨hres, -⟩ := hserves.residual
  have hsettle := hserves.eq_settle haged hpos fun _ => rfl
  rw [hfills] at hres hsettle
  refine ⟨hfills, ?_, hsettle⟩
  -- the residual the library computes is what the returned value stands for
  rcases ht.ret_cases with rfl | ⟨rfl, hleft, -⟩
  · rw [if_neg (by decide)] at hres
    exact .inl ⟨rfl, by omega⟩
  · rw [if_pos rfl] at hres
    exact .inr ⟨rfl, by omega, by rw [ht.left_eq, hres]⟩

/-- `check_for_match` called with `o` in state `s` ends and performs exactly the
fills of the queue of crossing orders, best price first and oldest first at the
same price. It returns 0 when they use up the new order and otherwise 1 and what
is left of it; the resting orders are settled in place and no other list
changes. -/
def FillsByPriority (A : Arith) (s : Exchange P T) (o : Order P T) : Prop :=
  ∃ s' o' ret fills, s.checkForMatch A o = .ok (s', o', ret) ∧
    fills = fill Order.quantity o.quantity
      (queue (rank o.isBuy) (age s.out) (crosses o) (s.opposite o)) ∧
    executed o.isBuy (s.written s') = fills ∧
    (ret = 0 ∧ total fills = o.quantity ∨
      ret = 1 ∧ total fills < o.quantity ∧ o' = withQuantity o (o.quantity - total fills)) ∧
    s'.opposite o = PriorityFill.settle Order.quantity withQuantity fills (s.opposite o) ∧
    ∀ b i, ¬(b = (!o.isBuy) ∧ i = o.productID) → s'.orders b i = s.orders b i

/-- **Price-time priority** holds for every order entering the market. -/
theorem checkForMatch_fills (hr : Reachable A vp s)
    (hin : s.incoming A vp msg ind = .ok (some (s₁, o))) : FillsByPriority A s₁ o := by
  obtain ⟨ms, s₂, o₂, ret, heq, ht⟩ :=
    checkForMatch_trades (A := A) (s := s₁) (incoming_enters hin).quantity_pos
  obtain ⟨hfills, hret, hsettle⟩ := ht.due hr hin
  exact ⟨s₂, o₂, ret, _, heq, rfl, ht.executed_eq.trans hfills, hret, hsettle,
    fun b i hne => ht.orders_of_ne hne⟩

theorem checkForMatch_fills_gpu :
    ∃ s s₁ o, (initial : Exchange 2 3).runCommands .machine testProducts
        [(1, "SELL 0 GPU 10 30;".toList), (2, "SELL 0 GPU 10 20;".toList)] = .ok s ∧
      s.incoming .machine testProducts "BUY 0 GPU 15 40;".toList 0 = .ok (some (s₁, o)) ∧
      FillsByPriority .machine s₁ o := by
  have hrun : okAnd ((initial : Exchange 2 3).runCommands .machine testProducts
      [(1, "SELL 0 GPU 10 30;".toList), (2, "SELL 0 GPU 10 20;".toList)])
      (fun s => okAnd (s.incoming .machine testProducts "BUY 0 GPU 15 40;".toList 0)
        Option.isSome) := by decide +kernel
  obtain ⟨s, h, hrun⟩ := exists_of_okAnd hrun
  obtain ⟨r, hin, hr⟩ := exists_of_okAnd hrun
  obtain ⟨⟨s₁, o⟩, rfl⟩ := Option.isSome_iff_exists.mp hr
  exact ⟨s, s₁, o, h, hin,
    checkForMatch_fills (Reachable.runCommands Transition.Reachable.init h) hin⟩

end Exchange

end PeExchange
