import PeExchange.Theory.Books

/-!
# The book is never crossed

Between commands every resting buy order is priced below every resting sell
order of its product. Removing and reducing orders cannot cross the book; what
is left of a matched order joins it only after a search for a crossing order has
failed (`Trades.uncrossed_left`).
-/

namespace PeExchange

open LinkedList

variable {P T : Nat}

namespace Exchange

variable {A : Arith} {vp : ValidProducts P} {s s' s₁ : Exchange P T} {ind : Fin T}
  {o o' : Order P T} {ms : List (Order P T × Order P T)} {ret : Int} {msg : List Char}

/-- No resting buy order could be matched with a resting sell order. -/
def Uncrossed (s : Exchange P T) : Prop :=
  ∀ i, ∀ b ∈ s.orders true i, ∀ r ∈ s.orders false i, b.price < r.price

theorem Uncrossed.remnant (h : Uncrossed s)
    (hr : ∀ b i, Remnant (s'.orders b i) (s.orders b i)) : Uncrossed s' := by
  intro i b' hb' r' hr'
  obtain ⟨b, hb, q, rfl, -⟩ := (hr true i).mem hb'
  obtain ⟨r, hrin, q', rfl, -⟩ := (hr false i).mem hr'
  exact h i b hb r hrin

/-- An order that nothing crosses can join the lists. -/
theorem Uncrossed.addOrder (h : Uncrossed s)
    (ho : ∀ r ∈ s.opposite o, crosses o r = false) : Uncrossed (s.addOrder o) := by
  intro i b hb r hr
  rw [Exchange.addOrder, setOrders_orders] at hb hr
  -- only the list of the side of `o` has grown
  cases hside : o.isBuy with
  | true =>
    rw [hside] at hb hr
    rw [if_neg (by simp)] at hr
    split at hb
    · rename_i hi
      rcases List.mem_append.mp hb with hb | hb
      · exact h i b (hi.2 ▸ hb) r hr
      · obtain rfl := List.mem_singleton.mp hb
        have := ho r (by rw [opposite, hside, ← hi.2]; exact hr)
        simpa [crosses, hside] using this
    · exact h i b hb r hr
  | false =>
    rw [hside] at hb hr
    rw [if_neg (by simp)] at hb
    split at hr
    · rename_i hi
      rcases List.mem_append.mp hr with hr | hr
      · exact h i b hb r (hi.2 ▸ hr)
      · obtain rfl := List.mem_singleton.mp hr
        have := ho b (by rw [opposite, hside, ← hi.2]; exact hb)
        simpa [crosses, hside] using this
    · exact h i b hb r hr

/-- **`check_for_match` returns 1 only when nothing crosses what is left.** -/
theorem Trades.uncrossed_left (ht : Trades A s o ms s' o' 1) (hp : 0 < o.price) :
    ∀ r ∈ s'.opposite o', crosses o' r = false := by
  have hp' : 0 < o'.price := by
    rw [ht.left_eq]
    exact hp
  -- the last search of the loop failed
  rcases ht.ret_cases with h | ⟨-, -, hf⟩
  · cases h
  · exact findBest_none hp' hf

theorem Outcome.uncrossed (ho : Outcome A vp s msg ind s') (h : Uncrossed s) : Uncrossed s' := by
  cases ho with
  | rejected => exact h
  | @traded s₁ s₂ o o' ms ret hin ht =>
    have he := incoming_enters hin
    have h₁ : Uncrossed s₁ := h.remnant fun b i => .of_sublist (he.orders_sublist b i)
    have h₂ : Uncrossed s₂ := h₁.remnant ht.shrunk.orders
    refine afterInsert_rule (fun hret => ?_) fun _ => h₂
    subst hret
    exact Uncrossed.addOrder (s := s₂.addOrderPrints A o') h₂ (ht.uncrossed_left he.price_pos)
  | @cancelled c => exact h.remnant fun b i => .of_sublist (deleteOrder_sublist s c _ _ b i)

end Exchange

/-- **The book is never crossed between commands.** -/
theorem reachable_uncrossed {A : Arith} {vp : ValidProducts P} {s : Exchange P T}
    (h : Reachable A vp s) :
    ∀ i, ∀ b ∈ s.orders true i, ∀ r ∈ s.orders false i, b.price < r.price := by
  refine Transition.Reachable.invariant (I := Exchange.Uncrossed)
    (fun _ _ hb => absurd hb List.not_mem_nil) (fun s a s' _ hi hs => ?_) h
  cases hs with
  | command hp => exact (Exchange.parseMsg_outcome hp).uncrossed hi
  | died => exact hi

theorem reachable_uncrossed_gpu :
    ∃ s, (initial : Exchange 2 3).runCommands .machine testProducts
        [(1, "SELL 0 GPU 10 30;".toList), (0, "BUY 0 GPU 30 40;".toList),
          (1, "SELL 1 GPU 10 50;".toList)] = .ok s ∧
      ∀ i, ∀ b ∈ s.orders true i, ∀ r ∈ s.orders false i, b.price < r.price := by
  have hrun : okAnd ((initial : Exchange 2 3).runCommands .machine testProducts
      [(1, "SELL 0 GPU 10 30;".toList), (0, "BUY 0 GPU 30 40;".toList),
        (1, "SELL 1 GPU 10 50;".toList)]) (fun _ => true) := by decide +kernel
  obtain ⟨s, h, -⟩ := exists_of_okAnd hrun
  exact ⟨s, h, reachable_uncrossed (Reachable.runCommands Transition.Reachable.init h)⟩

end PeExchange
