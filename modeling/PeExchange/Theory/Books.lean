import Mathlib.Data.List.Forall2
import PeExchange.Theory.Outcome

/-!
# The order lists over a run

What holds of the order lists in every reachable state.

- `Shrunk`: the relation between two states when, in between, orders were only
  removed or reduced. A match is one such step (`execMatch_shrunk`), and so is
  the matching loop (`Trades.shrunk`).
- `WellFormed`: every resting order stands in the list of its side and product,
  its fields are in range, its key (trader and identifier) occurs once in all the
  lists and was handed out by the trader's counter.
- `Incoming`: the same for the order that is being matched, which is in no list.

`Reachable.wellFormed` is the invariant; its step is the case analysis of
`Outcome`, one lemma for each thing a command does to the lists.
-/

namespace PeExchange

open LinkedList

variable {P T : Nat}

/-- What identifies an order: the trader and the identifier it chose. -/
def key (o : Order P T) : Fin T × Int :=
  (o.traderID, o.orderID)

@[simp] theorem key_withQuantity (o : Order P T) (q : Int) : key (withQuantity o q) = key o := rfl

/-! ## Removing and reducing orders -/

/-- `r'` is `r`, some of it perhaps filled. -/
def Reduced (r' r : Order P T) : Prop :=
  ∃ q, r' = withQuantity r q ∧ q ≤ r.quantity ∧ (0 < r.quantity → 0 < q)

theorem Reduced.refl (r : Order P T) : Reduced r r :=
  ⟨r.quantity, rfl, le_refl _, id⟩

theorem Reduced.trans {a b c : Order P T} (hab : Reduced a b) (hbc : Reduced b c) :
    Reduced a c := by
  obtain ⟨q, rfl, hq, hpos⟩ := hab
  obtain ⟨q', rfl, hq', hpos'⟩ := hbc
  exact ⟨q, rfl, hq.trans hq', fun h => hpos (hpos' h)⟩

theorem Reduced.key_eq {a b : Order P T} (h : Reduced a b) : key a = key b := by
  obtain ⟨q, rfl, -, -⟩ := h
  rfl

instance : Std.Refl (Reduced (P := P) (T := T)) := ⟨Reduced.refl⟩

instance : IsTrans (Order P T) Reduced := ⟨fun _ _ _ => Reduced.trans⟩

/-- The list `l'` is what is left of `l`: orders may be gone or reduced. -/
abbrev Remnant (l' l : List (Order P T)) : Prop :=
  List.SublistForall₂ Reduced l' l

theorem Remnant.of_sublist {l' l : List (Order P T)} (h : l'.Sublist l) : Remnant l' l :=
  h.sublistForall₂

theorem Remnant.mem {l' l : List (Order P T)} (h : Remnant l' l) {r' : Order P T}
    (hr : r' ∈ l') : ∃ r ∈ l, Reduced r' r := by
  induction h with
  | nil => exact absurd hr List.not_mem_nil
  | @cons a b l₁ l₂ hab _ ih =>
    rcases List.mem_cons.mp hr with rfl | hr
    · exact ⟨b, List.mem_cons_self, hab⟩
    · obtain ⟨r, hin, hred⟩ := ih hr
      exact ⟨r, List.mem_cons_of_mem _ hin, hred⟩
  | cons_right _ ih =>
    obtain ⟨r, hin, hred⟩ := ih hr
    exact ⟨r, List.mem_cons_of_mem _ hin, hred⟩

/-- The orders left keep their keys and their places in relation to each other. -/
theorem Remnant.keys {l' l : List (Order P T)} (h : Remnant l' l) :
    (l'.map key).Sublist (l.map key) := by
  induction h with
  | nil => exact List.nil_sublist _
  | cons hab _ ih =>
    rw [List.map_cons, List.map_cons, hab.key_eq]
    exact ih.cons_cons _
  | cons_right _ ih =>
    rw [List.map_cons]
    exact ih.cons _

namespace Exchange

/-- From `s` to `s'` orders were only removed or reduced, and no identifier was
handed out. -/
structure Shrunk (s s' : Exchange P T) : Prop where
  orders : ∀ b i, Remnant (s'.orders b i) (s.orders b i)
  counters : ∀ t, (s'.traders t).orderID = (s.traders t).orderID

variable {A : Arith} {vp : ValidProducts P} {s s' s₁ s₂ : Exchange P T} {ind : Fin T}
  {o o' : Order P T} {c : Cell (Order P T)} {ms : List (Order P T × Order P T)} {ret : Int}
  {msg : List Char}

theorem Shrunk.refl (s : Exchange P T) : Shrunk s s :=
  ⟨fun _ _ => Remnant.of_sublist (List.Sublist.refl _), fun _ => rfl⟩

/-- A step that leaves lists and counters alone. -/
theorem Shrunk.of_eq (horders : s'.orders = s.orders)
    (hcounters : ∀ t, (s'.traders t).orderID = (s.traders t).orderID) : Shrunk s s' :=
  ⟨fun _ _ => Remnant.of_sublist (by rw [horders]), hcounters⟩

theorem Shrunk.trans (h₁ : Shrunk s s₁) (h₂ : Shrunk s₁ s₂) : Shrunk s s₂ :=
  ⟨fun b i => IsTrans.trans _ _ _ (h₂.orders b i) (h₁.orders b i),
    fun t => (h₂.counters t).trans (h₁.counters t)⟩

/-- One match takes from one resting order. -/
theorem execMatch_shrunk (hq : 0 < o.quantity) (hf : s.findBest o = some c) :
    Shrunk s (s.execMatch A o c) := by
  refine ⟨fun b i => ?_, fun t => execMatch_orderID A s o c t⟩
  rw [execMatch_orders]
  split
  · rename_i hbi
    obtain ⟨rfl, rfl⟩ := hbi
    obtain ⟨pre, post, hl, -, hdel, hstore⟩ := (findBest_in hf).split
    have hl' : s.orders (!o.isBuy) o.productID = pre ++ c.val :: post := hl
    split
    · -- the resting order is used up
      rw [hdel, hl']
      exact Remnant.of_sublist ((List.Sublist.refl _).append (List.sublist_cons_self _ _))
    · -- it keeps its place with what is left of it
      rename_i hlt
      rw [hstore, hl', Remnant, List.sublistForall₂_iff]
      refine ⟨_, List.rel_append (List.forall₂_refl _) (.cons ⟨_, rfl, ?_⟩ (List.forall₂_refl _)),
        List.Sublist.refl _⟩
      omega
  · exact Remnant.of_sublist (List.Sublist.refl _)

/-- **The matching loop** only takes from the lists. -/
theorem Trades.shrunk (h : Trades A s o ms s' o' ret) : Shrunk s s' := by
  induction h with
  | stop => exact Shrunk.refl _
  | last hq hf _ => exact execMatch_shrunk hq hf
  | more hq hf _ _ ih => exact (execMatch_shrunk hq hf).trans ih

/-- Unlinking an order removes it from one list. -/
theorem deleteOrder_sublist (s : Exchange P T) (c : Cell (Order P T)) (b' : Bool) (i' : Fin P)
    (b : Bool) (i : Fin P) : ((s.deleteOrder c b' i').orders b i).Sublist (s.orders b i) := by
  rw [deleteOrder, setOrders_orders]
  split
  · rename_i h
    obtain ⟨rfl, rfl⟩ := h
    exact List.eraseIdx_sublist _ _
  · exact List.Sublist.refl _

/-- Any other order stays where it is. -/
theorem mem_deleteOrder_of_ne {b' : Bool} {i' : Fin P} (hin : c.In (s.orders b' i')) {b : Bool}
    {i : Fin P} {r : Order P T} (hr : r ∈ s.orders b i) (hne : key r ≠ key c.val) :
    r ∈ (s.deleteOrder c b' i').orders b i := by
  rw [deleteOrder, setOrders_orders]
  split
  · rename_i h
    obtain ⟨rfl, rfl⟩ := h
    obtain ⟨pre, post, hl, -, hdel, -⟩ := hin.split
    rw [hl] at hr
    rw [hdel]
    rcases List.mem_append.mp hr with h | h
    · exact List.mem_append_left _ h
    · rcases List.mem_cons.mp h with rfl | h
      · exact absurd rfl hne
      · exact List.mem_append_right _ h
  · exact hr

/-- Writing through a pointer replaces one order. -/
theorem mem_storeOrder {b' : Bool} {i' : Fin P} (hin : c.In (s.orders b' i')) {b : Bool}
    {i : Fin P} {r v : Order P T} : r ∈ (s.storeOrder c b' i' v).orders b i ↔
      (b = b' ∧ i = i') ∧ r = v ∨ r ∈ (s.deleteOrder c b' i').orders b i := by
  rw [storeOrder, deleteOrder, setOrders_orders, setOrders_orders]
  by_cases h : b = b' ∧ i = i'
  · rw [if_pos h, if_pos h]
    obtain ⟨pre, post, -, -, hdel, hstore⟩ := hin.split
    rw [hdel, hstore]
    simp only [List.mem_append, List.mem_cons]
    tauto
  · rw [if_neg h, if_neg h]
    tauto

/-- An added order joins the list of its side and product. -/
theorem mem_addOrder {b : Bool} {i : Fin P} {r : Order P T} :
    r ∈ (s.addOrder o).orders b i ↔
      r ∈ s.orders b i ∨ b = o.isBuy ∧ i = o.productID ∧ r = o := by
  rw [addOrder, setOrders_orders]
  split
  · rename_i hbi
    obtain ⟨rfl, rfl⟩ := hbi
    simp
  · rename_i hbi
    rw [← and_assoc]
    exact ⟨.inl, fun h => h.resolve_right fun hr => hbi hr.1⟩

/-- A match unlinks the resting order or writes its new quantity. -/
theorem execMatch_orders_eq (A : Arith) (s : Exchange P T) (o : Order P T)
    (c : Cell (Order P T)) : (s.execMatch A o c).orders =
      if c.val.quantity ≤ o.quantity then (s.deleteOrder c (!o.isBuy) o.productID).orders
      else (s.storeOrder c (!o.isBuy) o.productID
        (withQuantity c.val (c.val.quantity - o.quantity))).orders := by
  rw [execMatch]
  split <;> rfl

/-! ## Well-formed lists -/

/-- The order lists and the counters fit together. -/
structure WellFormed (vp : ValidProducts P) (s : Exchange P T) : Prop where
  placed : ∀ b i, ∀ o ∈ s.orders b i, o.isBuy = b ∧ o.productID = i
  valid : ∀ b i, ∀ o ∈ s.orders b i, ValidOrder vp o
  distinct : ∀ b i, ((s.orders b i).map key).Nodup
  apart : ∀ {b i b' i' k}, k ∈ (s.orders b i).map key → k ∈ (s.orders b' i').map key →
    b = b' ∧ i = i'
  issued : ∀ b i, ∀ o ∈ s.orders b i, o.orderID < (s.traders o.traderID).orderID
  counter : ∀ t, 0 ≤ (s.traders t).orderID

/-- An order fit to be matched: like a resting one, but in no list. -/
structure Incoming (vp : ValidProducts P) (s : Exchange P T) (o : Order P T) : Prop where
  valid : ValidOrder vp o
  fresh : ∀ b i, key o ∉ (s.orders b i).map key
  issued : o.orderID < (s.traders o.traderID).orderID

/-- No resting order has the key of the new one. -/
theorem Incoming.key_ne (h : Incoming vp s o) {b : Bool} {i : Fin P} {r : Order P T}
    (hr : r ∈ s.orders b i) : key r ≠ key o := by
  intro heq
  have hk := List.mem_map_of_mem (f := key) hr
  rw [heq] at hk
  exact h.fresh b i hk

theorem ValidOrder.reduced {o o' : Order P T} (h : ValidOrder vp o) (hr : Reduced o' o) :
    ValidOrder vp o' := by
  obtain ⟨q, rfl, hle, hpos⟩ := hr
  have hq := hpos h.quantity_pos
  exact ⟨hq, hle.trans h.quantity_le, h.price_pos, h.price_le, h.orderID_nonneg, h.orderID_le,
    h.product⟩

/-- Lists that were well formed stay so when something is taken. -/
theorem WellFormed.shrunk (h : WellFormed vp s) (hs : Shrunk s s') : WellFormed vp s' where
  placed b i o' ho' := by
    obtain ⟨o, ho, q, rfl, -⟩ := (hs.orders b i).mem ho'
    exact h.placed b i o ho
  valid b i o' ho' := by
    obtain ⟨o, ho, hr⟩ := (hs.orders b i).mem ho'
    exact ValidOrder.reduced (h.valid b i o ho) hr
  distinct b i := (h.distinct b i).sublist (hs.orders b i).keys
  apart hk hk' := h.apart ((hs.orders _ _).keys.subset hk) ((hs.orders _ _).keys.subset hk')
  issued b i o' ho' := by
    obtain ⟨o, ho, q, rfl, -⟩ := (hs.orders b i).mem ho'
    rw [hs.counters]
    exact h.issued b i o ho
  counter t := by
    rw [hs.counters]
    exact h.counter t

theorem Incoming.shrunk (h : Incoming vp s o) (hs : Shrunk s s') (hr : Reduced o' o) :
    Incoming vp s' o' where
  valid := ValidOrder.reduced h.valid hr
  fresh b i hk := h.fresh b i (hr.key_eq ▸ (hs.orders b i).keys.subset hk)
  issued := by
    obtain ⟨q, rfl, -⟩ := hr
    rw [hs.counters]
    exact h.issued

/-- What is left of a matched order joins the lists. -/
theorem WellFormed.addOrder (h : WellFormed vp s) (hi : Incoming vp s o) :
    WellFormed vp (s.addOrder o) := by
  have hkeys : ∀ b i k, k ∈ ((s.addOrder o).orders b i).map key →
      k ∈ (s.orders b i).map key ∨ b = o.isBuy ∧ i = o.productID ∧ k = key o := by
    intro b i k hk
    obtain ⟨r, hr, rfl⟩ := List.mem_map.mp hk
    rcases mem_addOrder.mp hr with hr | ⟨hb, hi, rfl⟩
    · exact .inl (List.mem_map_of_mem hr)
    · exact .inr ⟨hb, hi, rfl⟩
  refine { placed := fun b i r hr => ?_, valid := fun b i r hr => ?_, distinct := fun b i => ?_,
           apart := fun hk hk' => ?_, issued := fun b i r hr => ?_, counter := h.counter }
  · rcases mem_addOrder.mp hr with hr | ⟨rfl, rfl, rfl⟩
    · exact h.placed b i r hr
    · exact ⟨rfl, rfl⟩
  · rcases mem_addOrder.mp hr with hr | ⟨-, -, rfl⟩
    · exact h.valid b i r hr
    · exact hi.valid
  · rw [Exchange.addOrder, setOrders_orders]
    split
    · rw [List.map_append]
      exact List.nodup_append.mpr ⟨h.distinct _ _, List.nodup_singleton _, by
        rintro k hk _ hk' rfl
        obtain rfl := List.mem_singleton.mp hk'
        exact hi.fresh _ _ hk⟩
    · exact h.distinct b i
  · -- a key in two lists: both times an old one, or both times the new order, which is in no list
    rcases hkeys _ _ _ hk with hk | ⟨hb, hi', rfl⟩ <;>
      rcases hkeys _ _ _ hk' with hk' | ⟨hb', hi'', heq⟩
    · exact h.apart hk hk'
    · exact absurd (heq ▸ hk) (hi.fresh _ _)
    · exact absurd hk' (hi.fresh _ _)
    · exact ⟨hb.trans hb'.symm, hi'.trans hi''.symm⟩
  · rcases mem_addOrder.mp hr with hr | ⟨-, -, rfl⟩
    · exact h.issued b i r hr
    · exact hi.issued

/-! ## The invariant -/

/-- The search finds an order in the list of its own side and product. -/
theorem WellFormed.best_in (h : WellFormed vp s) (hf : s.findBest o = some c) :
    c.In (s.orders c.val.isBuy c.val.productID) := by
  have hin := findBest_in hf
  obtain ⟨hside, hprod⟩ := h.placed _ _ _ hin.mem
  rw [hside, hprod]
  exact hin

/-- A used up resting order leaves a positive part of the new order. -/
theorem WellFormed.left_reduced (h : WellFormed vp s) (hf : s.findBest o = some c)
    (hlt : c.val.quantity < o.quantity) :
    Reduced (withQuantity o (o.quantity - c.val.quantity)) o := by
  have hc := (h.valid _ _ c.val (findBest_in hf).mem).quantity_pos
  exact ⟨_, rfl, by omega, fun _ => by omega⟩

/-- The matching loop keeps the lists well formed, and the new order apart from them. -/
theorem Trades.wellFormed (ht : Trades A s o ms s' o' ret) (h : WellFormed vp s)
    (hi : Incoming vp s o) : WellFormed vp s' ∧ Incoming vp s' o' := by
  induction ht with
  | stop => exact ⟨h, hi⟩
  | last hq hf _ =>
    have hs := execMatch_shrunk (A := A) hq hf
    exact ⟨h.shrunk hs, hi.shrunk hs (Reduced.refl _)⟩
  | more hq hf hlt _ ih =>
    have hs := execMatch_shrunk (A := A) hq hf
    exact ih (h.shrunk hs) (hi.shrunk hs (h.left_reduced hf hlt))

/-- `find_order` finds the only order with its key. -/
theorem WellFormed.findOrder_eq (h : WellFormed vp s) {b : Bool} {i : Fin P}
    (ho : o ∈ s.orders b i) : ∃ c, s.findOrder o.traderID o.orderID = some c ∧ c.val = o := by
  cases hf : s.findOrder o.traderID o.orderID with
  | none => exact absurd ⟨rfl, rfl⟩ (findOrder_none.mp hf b i o ho)
  | some c =>
    -- the order found has the same key, and keys do not repeat
    obtain ⟨ht, hid, b', i', hin⟩ := findOrder_some hf
    have hkey : key c.val = key o := Prod.ext ht hid
    have hk : key o ∈ (s.orders b' i').map key := hkey ▸ List.mem_map_of_mem hin.mem
    obtain ⟨rfl, rfl⟩ := h.apart (List.mem_map_of_mem ho) hk
    exact ⟨c, rfl, List.inj_on_of_nodup_map (h.distinct b i) hin.mem ho hkey⟩

/-- An order is found in the list of its side and product. -/
theorem WellFormed.findOrder_in (h : WellFormed vp s) {t : Fin T} {id : Int}
    (hf : s.findOrder t id = some c) : c.In (s.orders c.val.isBuy c.val.productID) := by
  obtain ⟨-, -, b, i, hin⟩ := findOrder_some hf
  obtain ⟨rfl, rfl⟩ := h.placed b i _ hin.mem
  exact hin

/-- The search finds the order a pointer points to. -/
theorem WellFormed.findOrder_of_in (h : WellFormed vp s) {b : Bool} {i : Fin P}
    (hin : c.In (s.orders b i)) : s.findOrder c.val.traderID c.val.orderID = some c := by
  obtain ⟨c', hc', hval⟩ := h.findOrder_eq hin.mem
  obtain ⟨rfl, rfl⟩ := h.placed b i _ hin.mem
  have hin' := h.findOrder_in hc'
  rw [hval] at hin'
  rw [hc', Cell.In.eq_of_nodup ((h.distinct _ _).of_map key) hin' hin hval]

/-- Removing an order from its list removes its key from all of them. -/
theorem WellFormed.deleteOrder_fresh (h : WellFormed vp s)
    (hin : c.In (s.orders c.val.isBuy c.val.productID)) (b : Bool) (i : Fin P) :
    key c.val ∉ ((s.deleteOrder c c.val.isBuy c.val.productID).orders b i).map key := by
  intro hk
  obtain ⟨rfl, rfl⟩ := h.apart (((deleteOrder_sublist s c _ _ b i).map key).subset hk)
    (List.mem_map_of_mem hin.mem)
  obtain ⟨pre, post, hl, -, hdel, -⟩ := hin.split
  have hnd := h.distinct c.val.isBuy c.val.productID
  rw [hl, List.map_append, List.map_cons] at hnd
  rw [Exchange.deleteOrder, setOrders_orders, if_pos ⟨rfl, rfl⟩, hdel, List.map_append] at hk
  exact (List.nodup_cons.mp (List.nodup_middle.mp hnd)).1 hk

theorem WellFormed.deleteOrder_key_ne (h : WellFormed vp s)
    (hin : c.In (s.orders c.val.isBuy c.val.productID)) {b : Bool} {i : Fin P} {r : Order P T}
    (hr : r ∈ (s.deleteOrder c c.val.isBuy c.val.productID).orders b i) : key r ≠ key c.val := by
  intro heq
  have hk := List.mem_map_of_mem (f := key) hr
  rw [heq] at hk
  exact h.deleteOrder_fresh hin b i hk

/-- Entering an order takes the old version, if there is one, out of its list. -/
theorem Enters.orders_sublist (he : Enters A vp s ind s₁ o) (b : Bool) (i : Fin P) :
    (s₁.orders b i).Sublist (s.orders b i) := by
  cases he with
  | new => exact List.Sublist.refl _
  | amended => exact deleteOrder_sublist s _ _ _ b i

/-- It leaves all other orders in theirs. -/
theorem Enters.mem_of_ne (he : Enters A vp s ind s₁ o) (h : WellFormed vp s) {b : Bool}
    {i : Fin P} {r : Order P T} (hr : r ∈ s.orders b i) (hne : key r ≠ key o) :
    r ∈ s₁.orders b i := by
  cases he with
  | new => exact hr
  | @amended c id q p hc _ _ => exact mem_deleteOrder_of_ne (h.findOrder_in hc) hr hne

theorem Enters.wellFormed (he : Enters A vp s ind s₁ o) (h : WellFormed vp s) :
    WellFormed vp s₁ ∧ Incoming vp s₁ o := by
  cases he with
  | new hv ht hid =>
    subst ht
    have hcounter : ∀ t, (s.traders t).orderID ≤
        ((Function.update s.traders o.traderID
          { s.traders o.traderID with orderID := o.orderID + 1 }) t).orderID := by
      intro t
      by_cases h' : t = o.traderID
      · subst h'
        rw [Function.update_self, hid]
        exact Int.le_add_one (le_refl _)
      · rw [Function.update_of_ne h']
    refine ⟨{ h with
              issued := fun b i r hr => lt_of_lt_of_le (h.issued b i r hr) (hcounter _),
              counter := fun t => (h.counter t).trans (hcounter t) },
            { valid := hv, fresh := fun b i hk => ?_, issued := ?_ }⟩
    · -- the identifier is the value of the counter, so it has not been handed out yet
      obtain ⟨r, hr, hkey⟩ := List.mem_map.mp hk
      obtain ⟨ht, hid'⟩ := Prod.mk.inj hkey
      have hlt := h.issued b i r hr
      rw [ht, hid', hid] at hlt
      exact lt_irrefl _ hlt
    · show _ < ((Function.update s.traders o.traderID _) o.traderID).orderID
      rw [Function.update_self]
      exact Int.lt_succ _
  | @amended c id q p hc hq hp =>
    have hin := h.findOrder_in hc
    have hv := h.valid _ _ _ hin.mem
    refine ⟨h.shrunk ⟨fun b i => .of_sublist (deleteOrder_sublist s _ _ _ b i), fun _ => rfl⟩,
      ⟨hq.1, hq.2, hp.1, hp.2, hv.orderID_nonneg, hv.orderID_le, hv.product⟩,
      fun b i => h.deleteOrder_fresh hin b i, h.issued _ _ c.val hin.mem⟩

/-- **The step lemma.** -/
theorem Outcome.wellFormed (ho : Outcome A vp s msg ind s') (h : WellFormed vp s) :
    WellFormed vp s' := by
  cases ho with
  | rejected => exact h.shrunk (.of_eq rfl fun _ => rfl)
  | @traded s₁ s₂ o o' ms ret hin ht =>
    obtain ⟨h₁, hi₁⟩ := (incoming_enters hin).wellFormed h
    obtain ⟨h₂, hi₂⟩ := ht.wellFormed h₁ hi₁
    refine afterInsert_rule (fun _ => ?_) fun _ => h₂
    have hs : Shrunk s₂ (s₂.addOrderPrints A o') := .of_eq rfl fun _ => rfl
    exact WellFormed.addOrder (h₂.shrunk hs) (hi₂.shrunk hs (Reduced.refl _))
  | cancelled =>
    exact h.shrunk ⟨fun b i => .of_sublist (deleteOrder_sublist s _ _ _ b i), fun _ => rfl⟩

end Exchange

/-- **The lists are well formed in every reachable state.** -/
theorem Reachable.wellFormed {A : Arith} {vp : ValidProducts P} {s : Exchange P T}
    (h : Reachable A vp s) : s.WellFormed vp := by
  refine Transition.Reachable.invariant ?_ (fun s a s' _ hi hs => ?_) h
  · refine { placed := fun b i o ho => ?_, valid := fun b i o ho => ?_, distinct := fun b i => ?_,
             apart := fun hk _ => ?_, issued := fun b i o ho => ?_, counter := fun t => ?_ }
    · exact absurd ho List.not_mem_nil
    · exact absurd ho List.not_mem_nil
    · exact List.nodup_nil
    · exact absurd hk List.not_mem_nil
    · exact absurd ho List.not_mem_nil
    · exact le_refl 0
  · cases hs with
    | command hp => exact (Exchange.parseMsg_outcome hp).wellFormed hi
    | died => exact hi.shrunk (.of_eq rfl (traderDied_orderID _ _))

end PeExchange
