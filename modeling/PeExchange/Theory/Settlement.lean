import PeExchange.Theory.Trace

/-!
# What a match pays

For orders in the accepted ranges a match is worth at most 999999 · 999999, which
needs 40 bits. `match_new_buy` computes with `long long` and is always exact;
`match_new_sell` keeps `total_price` in an `int`.

- `value`, `fairFee`: what a match is worth and its fee, exactly.
- `totalPrice_eq_iff`: the code's value is the exact one unless the new order
  sells and the exact value does not fit an `int`. `feeOf_eq` is the fee then.
- `SettlesExactly`: the report, the accounts and the fees show the exact amounts.
-/

namespace PeExchange

open CArith LinkedList

variable {P T : Nat}

/-- What a match is worth: the resting order's price for every unit. -/
def value (o r : Order P T) : Int :=
  r.price * min o.quantity r.quantity

/-- One hundredth of the value, rounded to the nearest integer with halves up. -/
def fairFee (o r : Order P T) : Int :=
  round ((value o r : ℚ) / 100)

/-- The order's quantity and price are in the accepted range. -/
structure InRange (o : Order P T) : Prop where
  quantity_pos : 1 ≤ o.quantity
  quantity_le : o.quantity ≤ 999999
  price_pos : 1 ≤ o.price
  price_le : o.price ≤ 999999

instance (o : Order P T) : Decidable (InRange o) :=
  decidable_of_iff
    ((1 ≤ o.quantity ∧ o.quantity ≤ 999999) ∧ 1 ≤ o.price ∧ o.price ≤ 999999)
    ⟨fun h => ⟨h.1.1, h.1.2, h.2.1, h.2.2⟩,
      fun h => ⟨⟨h.quantity_pos, h.quantity_le⟩, h.price_pos, h.price_le⟩⟩

variable {o r : Order P T}

theorem value_bounds (ho : InRange o) (hr : InRange r) :
    0 ≤ value o r ∧ value o r ≤ 999999 * 999999 := by
  have hq : 1 ≤ min o.quantity r.quantity := le_min ho.quantity_pos hr.quantity_pos
  have hq' : min o.quantity r.quantity ≤ 999999 := (min_le_left _ _).trans ho.quantity_le
  have hp := hr.price_pos
  constructor
  · exact Int.mul_nonneg (by omega) (by omega)
  · exact Int.mul_le_mul hr.price_le hq' (by omega) (by decide)

/-- `long long` holds the value of any match. -/
theorem narrow_64_value (ho : InRange o) (hr : InRange r) : narrow 64 (value o r) = value o r := by
  obtain ⟨h₀, h₁⟩ := value_bounds ho hr
  exact narrow_64_of_fits (by omega) (by omega)

/-- **`total_price` is exact** except when the new order sells and the value
exceeds `INT_MAX`. -/
theorem totalPrice_eq_iff (ho : InRange o) (hr : InRange r) :
    totalPrice o r = value o r ↔ o.isBuy = true ∨ value o r ≤ 2147483647 := by
  have h64 := narrow_64_value ho hr
  obtain ⟨h₀, -⟩ := value_bounds ho hr
  rw [totalPrice]
  show (if o.isBuy = true then narrow 64 (value o r) else narrow 32 (narrow 64 (value o r))) = _ ↔ _
  rw [h64]
  cases ho' : o.isBuy with
  | true => simp
  | false =>
    simp only [Bool.false_eq_true, if_false, false_or]
    constructor
    · -- what an `int` holds is never larger
      intro heq
      rw [← heq]
      exact (narrow_32_range _).2
    · intro hle
      exact narrow_32_of_fits (by omega) hle

/-- The fee on an exact value is the fair one. -/
theorem feeOf_eq (ho : InRange o) (hr : InRange r) (htotal : totalPrice o r = value o r) :
    feeOf o r = fairFee o r := by
  obtain ⟨h₀, h₁⟩ := value_bounds ho hr
  have hq₀ : (0 : ℚ) ≤ (value o r : ℚ) / 100 := by
    have : (0 : ℚ) ≤ (value o r : ℚ) := by exact_mod_cast h₀
    linarith
  have hq : ∀ n : ℤ, value o r ≤ n → (value o r : ℚ) / 100 ≤ (n : ℚ) := by
    intro n hn
    have hn' : (value o r : ℚ) ≤ (n : ℚ) := by exact_mod_cast hn
    linarith
  obtain ⟨hf₀, hf₁⟩ := roundHalfAway_mem hq₀ (hq _ h₁)
  -- rounding commutes with the bound on the value, so `long long` holds the fee
  have hround : roundInt ((totalPrice o r : ℚ) * (1 / 100)) = fairFee o r := by
    rw [htotal, mul_one_div, roundInt, narrow_64_of_fits (by omega) (by omega), fairFee,
      roundHalfAway_of_nonneg hq₀]
  rw [feeOf, hround]
  cases ho' : o.isBuy with
  | true => rfl
  | false =>
    -- the value fits an `int`, hence so does its hundredth
    have hle : value o r ≤ 2147483647 := by
      rcases (totalPrice_eq_iff ho hr).mp htotal with h | h
      · rw [ho'] at h
        cases h
      · exact h
    have hf₂ := (roundHalfAway_mem hq₀ (hq _ hle)).2
    rw [roundHalfAway_of_nonneg hq₀] at hf₀ hf₂
    exact narrow_32_of_fits (by unfold fairFee; omega) hf₂

/-- The amounts `print_match` reported among output entries. -/
def reports (es : List (Event P T)) : List (Int × Int) :=
  es.filterMap fun
    | .matched _ _ totalPrice fee => some (totalPrice, fee)
    | _ => none

namespace Exchange

variable {A : Arith} {s s' : Exchange P T}

/-- From `s` to `s'` a match between `o` and the resting order `r` was paid with
the exact value and fee: one report with these amounts, the value moved from the
buyer's balance to the seller's, the fee moved from the trader of `o` to the
exchange, and no other balance changed. -/
structure SettlesExactly (A : Arith) (s : Exchange P T) (o r : Order P T) (s' : Exchange P T) :
    Prop where
  reported : reports (s.written s') = [(value o r, fairFee o r)]
  paid : ∀ t j, ((s'.traders t).prodInfo j).balance =
    if j = o.productID ∧ (t = (buyOf o r).traderID ∨ t = (sellOf o r).traderID) then
      A.longLong (((s.traders t).prodInfo j).balance
        - (if t = o.traderID then fairFee o r else 0)
        - (if t = (buyOf o r).traderID then value o r else 0)
        + (if t = (sellOf o r).traderID then value o r else 0))
    else ((s.traders t).prodInfo j).balance
  collected : s'.exchangeFees = A.longLong (s.exchangeFees + fairFee o r)

theorem matchNew_fst (A : Arith) (s : Exchange P T) (o : Order P T) (c : Cell (Order P T)) :
    (s.matchNew A o c).1 = s.execMatch A o c := by
  rw [matchNew_eq]
  split <;> rfl

/-- What a match reports. -/
theorem reports_execMatch (A : Arith) (s : Exchange P T) (o : Order P T) (c : Cell (Order P T)) :
    reports (s.written (s.execMatch A o c)) = [(totalPrice o c.val, feeOf o c.val)] := by
  rw [written_append (execMatch_out A s o c), reports, filterMap_matchEvents s o _ fun _ _ => rfl]
  rfl

/-- Exact payment needs an exact `total_price`. -/
theorem SettlesExactly.total {o : Order P T} {c : Cell (Order P T)}
    (h : SettlesExactly A s o c.val (s.matchNew A o c).1) :
    totalPrice o c.val = value o c.val := by
  have hrep := h.reported
  rw [matchNew_fst, reports_execMatch] at hrep
  exact (Prod.mk.inj (List.cons.inj hrep).1).1

/-- **A match is paid exactly if and only if** the new order buys or the value
fits an `int`. -/
theorem matchNew_settles_iff (A : Arith) (s : Exchange P T) {o : Order P T}
    {c : Cell (Order P T)} (ho : InRange o) (hc : InRange c.val) :
    SettlesExactly A s o c.val (s.matchNew A o c).1 ↔
      o.isBuy = true ∨ c.val.price * min o.quantity c.val.quantity ≤ 2147483647 := by
  constructor
  · intro h
    exact (totalPrice_eq_iff ho hc).mp h.total
  · intro hcond
    have htotal := (totalPrice_eq_iff ho hc).mpr hcond
    have hfee := feeOf_eq ho hc htotal
    rw [matchNew_fst]
    refine { reported := ?_, paid := fun t j => ?_, collected := ?_ }
    · rw [reports_execMatch, htotal, hfee]
    · rw [execMatch_prodInfo, settle_prodInfo, htotal, hfee]
      split <;> rfl
    · rw [execMatch_exchangeFees, hfee]

theorem matchNew_settles_iff_ten :
    SettlesExactly .machine (initial : Exchange 2 3)
        ⟨"GPU".toList, 10, 20, 0, 0, 1, false⟩ ⟨"GPU".toList, 30, 25, 0, 0, 2, true⟩
        (initial.matchNew .machine ⟨"GPU".toList, 10, 20, 0, 0, 1, false⟩
          ⟨0, ⟨"GPU".toList, 30, 25, 0, 0, 2, true⟩⟩).1 ↔
      false = true ∨ (25 : Int) * min 10 30 ≤ 2147483647 :=
  @matchNew_settles_iff 2 3 .machine initial ⟨"GPU".toList, 10, 20, 0, 0, 1, false⟩
    ⟨0, ⟨"GPU".toList, 30, 25, 0, 0, 2, true⟩⟩ (by decide) (by decide)

/-- A sell order of 999999 units meets a resting buy order of 999999 units at
999999: the value does not fit an `int`. -/
theorem matchNew_truncates :
    ∃ (s s₁ : Exchange 2 3) (o : Order 2 3) (c : Cell (Order 2 3)),
      initial.runCommands .machine testProducts [(0, "BUY 0 GPU 999999 999999;".toList)] = .ok s ∧
      s.incoming .machine testProducts "SELL 0 GPU 999999 999999;".toList 1 =
        .ok (some (s₁, o)) ∧
      s₁.findBest o = some c ∧ InRange o ∧ InRange c.val ∧
      ¬SettlesExactly .machine s₁ o c.val (s₁.matchNew .machine o c).1 := by
  have hrun : okAnd ((initial : Exchange 2 3).runCommands .machine testProducts
      [(0, "BUY 0 GPU 999999 999999;".toList)])
      (fun s => okAnd (s.incoming .machine testProducts "SELL 0 GPU 999999 999999;".toList 1)
        fun r => r.any fun r => (r.1.findBest r.2).any fun c =>
          decide (InRange r.2 ∧ InRange c.val ∧ totalPrice r.2 c.val ≠ value r.2 c.val)) := by
    decide +kernel
  obtain ⟨s, h, hrun⟩ := exists_of_okAnd hrun
  obtain ⟨r, hin, hr⟩ := exists_of_okAnd hrun
  obtain ⟨⟨s₁, o⟩, rfl, hbest⟩ := (Option.any_eq_true _ _).mp hr
  obtain ⟨c, hf, hc⟩ := (Option.any_eq_true _ (s₁.findBest o)).mp hbest
  obtain ⟨ho, hc, hne⟩ := of_decide_eq_true hc
  exact ⟨s, s₁, o, c, h, hin, hf, ho, hc, fun hexact => hne hexact.total⟩

end Exchange

end PeExchange
