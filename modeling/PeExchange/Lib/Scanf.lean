import Mathlib.Data.List.TakeWhile
import PeExchange.Lib.CArith

/-!
# `sscanf` and `%d`

The formatted input and output of the C standard library, for the directives
`%d`, `%s`, their assignment-suppressing forms `%*d` and `%*s`, white space and
ordinary characters.

- `sscanf fmt input`: the values assigned, in order; the return value of the C
  function is their number. A `%s` whose token does not fit its destination is
  an error: nothing is promised about the program after it.
- `decimal n`: the text `%d` prints.
- `Numeral`: the texts `%d` reads, an optional sign and at least one digit,
  together with the value it stores: `strtol` clamps to 64 bits and the
  assignment to `int` keeps the low 32.
-/

namespace CFormat

open CArith

/-! ## Maximal prefixes -/

/-- `l` does not begin with a character satisfying `p`. -/
def Stops (p : Char → Bool) (l : List Char) : Prop :=
  ∀ c ∈ l.head?, p c = false

theorem stops_nil (p : Char → Bool) : Stops p [] :=
  nofun

theorem stops_cons {p : Char → Bool} {c : Char} (h : p c = false) (l : List Char) :
    Stops p (c :: l) := by
  rintro d ⟨⟩
  exact h

theorem stops_dropWhile (p : Char → Bool) (l : List Char) : Stops p (l.dropWhile p) := by
  intro c hc
  have := List.head?_dropWhile_not p l
  rw [Option.mem_def.mp hc] at this
  simpa using this

theorem takeWhile_append_of_stops {p : Char → Bool} {a b : List Char}
    (ha : ∀ c ∈ a, p c = true) (hb : Stops p b) : (a ++ b).takeWhile p = a := by
  rw [List.takeWhile_append_of_pos ha]
  cases b with
  | nil => simp
  | cons c b => simp [hb c rfl]

theorem dropWhile_append_of_stops {p : Char → Bool} {a b : List Char}
    (ha : ∀ c ∈ a, p c = true) (hb : Stops p b) : (a ++ b).dropWhile p = b := by
  rw [List.dropWhile_append_of_pos ha]
  cases b with
  | nil => rfl
  | cons c b => simp [hb c rfl]

/-- A list splits in one way into a maximal prefix and a rest. -/
theorem append_inj_of_stops {p : Char → Bool} {a a' b b' : List Char}
    (ha : ∀ c ∈ a, p c = true) (hb : Stops p b) (ha' : ∀ c ∈ a', p c = true)
    (hb' : Stops p b') (h : a ++ b = a' ++ b') : a = a' ∧ b = b' := by
  have hl : a = a' := by
    rw [← takeWhile_append_of_stops ha hb, h, takeWhile_append_of_stops ha' hb']
  subst hl
  exact ⟨rfl, List.append_cancel_left h⟩

/-! ## Characters -/

/-- `isspace` in the C locale. -/
def isSpace (c : Char) : Bool :=
  c = ' ' || c = '\t' || c = '\n' || c = '\x0b' || c = '\x0c' || c = '\r'

/-- White space is not alphanumeric. -/
theorem not_space_of_isAlphanum {c : Char} (h : c.isAlphanum = true) : isSpace c = false := by
  by_contra hsp
  rw [Bool.not_eq_false] at hsp
  simp only [isSpace, Bool.or_eq_true, decide_eq_true_eq] at hsp
  rcases hsp with ((((rfl | rfl) | rfl) | rfl) | rfl) | rfl <;> exact absurd h (by decide)

theorem not_space_of_isDigit {c : Char} (h : c.isDigit = true) : isSpace c = false :=
  not_space_of_isAlphanum (by rw [Char.isAlphanum, h, Bool.or_true])

/-- Input after the white space at its front. -/
def skipSpace (cs : List Char) : List Char :=
  cs.dropWhile isSpace

/-- The token at the front of the input: everything up to white space. -/
def token (cs : List Char) : List Char :=
  cs.takeWhile fun c => !isSpace c

/-- Input after the token at its front. -/
def afterToken (cs : List Char) : List Char :=
  cs.dropWhile fun c => !isSpace c

/-! ## Numerals -/

/-- The sign a numeral is written with. -/
inductive Sign where
  | none
  | plus
  | minus
deriving DecidableEq, Repr

def Sign.text : Sign → List Char
  | .none => []
  | .plus => ['+']
  | .minus => ['-']

/-- The texts `%d` accepts. -/
structure Numeral where
  sign : Sign
  digits : List Char
  nonempty : digits ≠ []
  isDigit : ∀ c ∈ digits, c.isDigit = true

namespace Numeral

def text (n : Numeral) : List Char :=
  n.sign.text ++ n.digits

/-- The number a numeral denotes. -/
def trueValue (n : Numeral) : Int :=
  match n.sign with
  | .minus => -(Nat.ofDigitChars 10 n.digits 0 : Int)
  | _ => Nat.ofDigitChars 10 n.digits 0

/-- The number `%d` stores: clamped to 64 bits by `strtol`, then converted to `int`. -/
def value (n : Numeral) : Int :=
  narrow 32 (saturate 64 n.trueValue)

/-- A numeral whose true value fits an `int` is read exactly. -/
theorem value_of_fits {n : Numeral} (h₁ : -2147483648 ≤ n.trueValue)
    (h₂ : n.trueValue ≤ 2147483647) : n.value = n.trueValue := by
  have hs : saturate 64 n.trueValue = n.trueValue := by
    rw [saturate]
    omega
  rw [value, hs, narrow_32_of_fits h₁ h₂]

end Numeral

/-- A number is smaller than the power of ten its digits allow. -/
theorem ofDigitChars_lt {ds : List Char} (h : ∀ c ∈ ds, c.isDigit = true) :
    Nat.ofDigitChars 10 ds 0 < 10 ^ ds.length := by
  induction ds using List.reverseRecOn with
  | nil => simp
  | append_singleton ds c ih =>
    have hds := ih fun d hd => h d (List.mem_append_left _ hd)
    have hc : c.toNat - '0'.toNat < 10 := by
      have hdig := h c (List.mem_append_right _ List.mem_cons_self)
      simp only [Char.isDigit, Bool.and_eq_true, decide_eq_true_eq, UInt32.le_iff_toNat_le] at hdig
      have hle : c.toNat ≤ 57 := hdig.2
      show c.toNat - 48 < 10
      omega
    rw [Nat.ofDigitChars_append, Nat.ofDigitChars_cons, Nat.ofDigitChars_nil, List.length_append,
      List.length_singleton, Nat.pow_succ]
    omega

/-- The sign at the front of the input, if any, and the rest. -/
def splitSign : List Char → Sign × List Char
  | '-' :: cs => (.minus, cs)
  | '+' :: cs => (.plus, cs)
  | cs => (.none, cs)

/-- The numeral at the front of the input and what follows it. -/
def scanNumeral (cs : List Char) : Option (Numeral × List Char) :=
  if h : (splitSign cs).2.takeWhile Char.isDigit = [] then none
  else some (⟨(splitSign cs).1, (splitSign cs).2.takeWhile Char.isDigit, h,
      fun _ hc => List.mem_takeWhile_imp hc⟩,
    (splitSign cs).2.dropWhile Char.isDigit)

theorem splitSign_text (cs : List Char) : (splitSign cs).1.text ++ (splitSign cs).2 = cs := by
  unfold splitSign
  split <;> rfl

/-- A scanned numeral is a prefix of the input that no further digit follows. -/
theorem scanNumeral_some {cs rest : List Char} {n : Numeral}
    (h : scanNumeral cs = some (n, rest)) : cs = n.text ++ rest ∧ Stops Char.isDigit rest := by
  rw [scanNumeral] at h
  by_cases hd : (splitSign cs).2.takeWhile Char.isDigit = []
  · rw [dif_pos hd] at h
    cases h
  · rw [dif_neg hd] at h
    obtain ⟨rfl, rfl⟩ := Prod.mk.inj (Option.some.inj h)
    -- sign, digits and rest are the input cut in three
    refine ⟨?_, stops_dropWhile _ _⟩
    rw [Numeral.text, List.append_assoc, List.takeWhile_append_dropWhile, splitSign_text]

/-- A numeral is scanned whole when no further digit follows it. -/
theorem scanNumeral_text (n : Numeral) {rest : List Char} (h : Stops Char.isDigit rest) :
    scanNumeral (n.text ++ rest) = some (n, rest) := by
  have hsplit : splitSign (n.text ++ rest) = (n.sign, n.digits ++ rest) := by
    obtain ⟨s, ds, hne, hd⟩ := n
    cases s with
    | plus => rfl
    | minus => rfl
    | none =>
      cases ds with
      | nil => exact absurd rfl hne
      | cons d ds =>
        -- a digit is neither sign
        have hdig : d.isDigit = true := hd d List.mem_cons_self
        show splitSign (d :: (ds ++ rest)) = _
        unfold splitSign
        split
        · rename_i heq
          rw [(List.cons.inj heq).1] at hdig
          exact absurd hdig (by decide)
        · rename_i heq
          rw [(List.cons.inj heq).1] at hdig
          exact absurd hdig (by decide)
        · rfl
  have htake := takeWhile_append_of_stops n.isDigit h
  have hdrop := dropWhile_append_of_stops n.isDigit h
  rw [scanNumeral]
  simp only [hsplit, htake, hdrop, n.nonempty, dite_false]

/-- What `%d` prints. -/
def decimal (n : Int) : List Char :=
  if n < 0 then '-' :: Nat.toDigits 10 n.natAbs else Nat.toDigits 10 n.natAbs

/-! ## The scanner -/

/-- A directive of a `scanf` format. -/
inductive Directive where
  /-- White space: skips any amount of it, including none. -/
  | space
  /-- An ordinary character, to be matched exactly. -/
  | lit (c : Char)
  /-- `%d` when `assign` is set, `%*d` otherwise. -/
  | int (assign : Bool)
  /-- `%s` into a buffer of `size` characters. -/
  | str (size : Nat)
  /-- `%*s`. -/
  | skipStr
deriving DecidableEq, Repr

/-- An assigned value. -/
inductive Arg where
  | int (n : Int)
  | str (s : List Char)
deriving DecidableEq, Repr

/-- A `%s` whose token and terminator do not fit the destination. -/
structure Overflow where
  size : Nat
deriving DecidableEq, Repr

/-- `sscanf`: the values assigned before the first directive that fails. -/
def sscanf : List Directive → List Char → Except Overflow (List Arg)
  | [], _ => .ok []
  | .space :: fmt, cs => sscanf fmt (skipSpace cs)
  | .lit c :: fmt, cs =>
    match cs with
    | d :: rest => if d = c then sscanf fmt rest else .ok []
    | [] => .ok []
  | .int assign :: fmt, cs =>
    match scanNumeral (skipSpace cs) with
    | none => .ok []
    | some (n, rest) => do
      let args ← sscanf fmt rest
      pure (if assign then .int n.value :: args else args)
  | .str size :: fmt, cs =>
    -- the terminator needs a place too
    if token (skipSpace cs) = [] then .ok []
    else if size < (token (skipSpace cs)).length + 1 then .error ⟨size⟩
    else do
      let args ← sscanf fmt (afterToken (skipSpace cs))
      pure (.str (token (skipSpace cs)) :: args)
  | .skipStr :: fmt, cs =>
    if token (skipSpace cs) = [] then .ok []
    else sscanf fmt (afterToken (skipSpace cs))

/-! ## Equations -/

@[simp] theorem sscanf_nil (cs : List Char) : sscanf [] cs = .ok [] := by
  rw [sscanf]

@[simp] theorem sscanf_space (fmt : List Directive) (cs : List Char) :
    sscanf (.space :: fmt) cs = sscanf fmt (skipSpace cs) := by
  rw [sscanf]

/-- Ordinary characters at the front of a format must be a prefix of the input. -/
theorem sscanf_lits (fmt : List Directive) :
    ∀ lits cs : List Char, sscanf (lits.map .lit ++ fmt) cs =
      if lits <+: cs then sscanf fmt (cs.drop lits.length) else .ok []
  | [], cs => by simp
  | l :: lits, [] => by simp [sscanf]
  | l :: lits, c :: cs => by
    have ih := sscanf_lits fmt lits cs
    by_cases h : c = l
    · subst h
      simpa [sscanf, List.cons_prefix_cons] using ih
    · simp [sscanf, List.cons_prefix_cons, h, Ne.symm h]

theorem sscanf_lits_append (fmt : List Directive) (lits cs : List Char) :
    sscanf (lits.map .lit ++ fmt) (lits ++ cs) = sscanf fmt cs := by
  rw [sscanf_lits, if_pos (List.prefix_append _ _), List.drop_left]

/-- A scan that assigns something has gone past the ordinary characters. -/
theorem exists_of_sscanf_lits {fmt : List Directive} {lits cs : List Char} {args : List Arg}
    (h : sscanf (lits.map .lit ++ fmt) cs = .ok args) (hne : args ≠ []) :
    ∃ rest, cs = lits ++ rest ∧ sscanf fmt rest = .ok args := by
  rw [sscanf_lits] at h
  -- a mismatch ends the scan before the first conversion
  by_cases hpre : lits <+: cs
  · obtain ⟨rest, rfl⟩ := hpre
    rw [if_pos (List.prefix_append _ _), List.drop_left] at h
    exact ⟨rest, rfl, h⟩
  · rw [if_neg hpre] at h
    exact absurd (Except.ok.inj h).symm hne

/-- When the directives after `%*d` assign something, `%d` in its place assigns
one value more. -/
theorem sscanf_int_of_skip {fmt : List Directive} {cs : List Char} {args : List Arg}
    (h : sscanf (.int false :: fmt) cs = .ok args) (hne : args ≠ []) :
    ∃ n, sscanf (.int true :: fmt) cs = .ok (.int n :: args) := by
  simp only [sscanf] at h ⊢
  cases hn : scanNumeral (skipSpace cs) with
  | none =>
    rw [hn] at h
    exact absurd (Except.ok.inj h).symm hne
  | some r =>
    obtain ⟨n, rest⟩ := r
    simp only [hn] at h ⊢
    cases hr : sscanf fmt rest with
    | error e =>
      rw [hr] at h
      cases h
    | ok args' =>
      rw [hr] at h
      obtain rfl := Except.ok.inj h
      exact ⟨n.value, rfl⟩

/-- Where `%d` assigns, `%*d` reads the same. -/
theorem sscanf_skip_of_int {fmt : List Directive} {cs : List Char} {args : List Arg} {a : Arg}
    (h : sscanf (.int true :: fmt) cs = .ok (a :: args)) :
    sscanf (.int false :: fmt) cs = .ok args := by
  simp only [sscanf] at h ⊢
  cases hn : scanNumeral (skipSpace cs) with
  | none =>
    rw [hn] at h
    cases Except.ok.inj h
  | some r =>
    obtain ⟨n, rest⟩ := r
    simp only [hn] at h ⊢
    cases hr : sscanf fmt rest with
    | error e =>
      rw [hr] at h
      cases h
    | ok args' =>
      rw [hr] at h
      obtain ⟨-, rfl⟩ := List.cons.inj (Except.ok.inj h)
      rfl

theorem length_skipSpace_le (cs : List Char) : (skipSpace cs).length ≤ cs.length :=
  (List.dropWhile_sublist _).length_le

theorem length_token_le (cs : List Char) : (token cs).length ≤ cs.length :=
  (List.takeWhile_sublist _).length_le

theorem length_afterToken_le (cs : List Char) : (afterToken cs).length ≤ cs.length :=
  (List.dropWhile_sublist _).length_le

theorem length_of_scanNumeral {cs rest : List Char} {n : Numeral}
    (h : scanNumeral cs = some (n, rest)) : rest.length ≤ cs.length := by
  rw [(scanNumeral_some h).1, List.length_append]
  exact Nat.le_add_left _ _

/-- No `%s` overflows on a text shorter than its destination. -/
theorem sscanf_short {n : Nat} {fmt : List Directive} (hfmt : ∀ size, .str size ∈ fmt → n ≤ size)
    (cs : List Char) (hlen : cs.length < n) : ∃ args, sscanf fmt cs = .ok args := by
  induction fmt generalizing cs with
  | nil => exact ⟨[], by rw [sscanf]⟩
  | cons d fmt ih =>
    have ih := ih fun size hsize => hfmt size (List.mem_cons_of_mem _ hsize)
    have hskip := length_skipSpace_le cs
    have hafter := length_afterToken_le (skipSpace cs)
    cases d with
    | space =>
      obtain ⟨args, h⟩ := ih (skipSpace cs) (by omega)
      exact ⟨args, by rw [sscanf, h]⟩
    | lit c =>
      cases cs with
      | nil => exact ⟨[], by rw [sscanf]⟩
      | cons e cs =>
        obtain ⟨args, h⟩ := ih cs (Nat.lt_of_succ_lt hlen)
        by_cases he : e = c
        · exact ⟨args, by simp [sscanf, he, h]⟩
        · exact ⟨[], by simp [sscanf, he]⟩
    | int assign =>
      cases hn : scanNumeral (skipSpace cs) with
      | none => exact ⟨[], by simp [sscanf, hn]⟩
      | some r =>
        have hrest : r.2.length ≤ (skipSpace cs).length := length_of_scanNumeral hn
        obtain ⟨args, h⟩ := ih r.2 (by omega)
        refine ⟨if assign then .int r.1.value :: args else args, ?_⟩
        simp only [sscanf, hn, h]
        rfl
    | str size =>
      obtain ⟨args, h⟩ := ih (afterToken (skipSpace cs)) (by omega)
      by_cases ht : token (skipSpace cs) = []
      · exact ⟨[], by rw [sscanf, if_pos ht]⟩
      · have htoken := length_token_le (skipSpace cs)
        have hsize := hfmt size List.mem_cons_self
        refine ⟨.str (token (skipSpace cs)) :: args, ?_⟩
        rw [sscanf, if_neg ht, if_neg (by omega), h]
        rfl
    | skipStr =>
      obtain ⟨args, h⟩ := ih (afterToken (skipSpace cs)) (by omega)
      by_cases ht : token (skipSpace cs) = []
      · exact ⟨[], by simp [sscanf, ht]⟩
      · exact ⟨args, by simp [sscanf, ht, h]⟩

/-- No `%s` with a destination, no overflow. -/
theorem sscanf_ok {fmt : List Directive} (hfmt : ∀ d ∈ fmt, ∀ size, d ≠ .str size)
    (cs : List Char) : ∃ args, sscanf fmt cs = .ok args :=
  sscanf_short (fun size hsize => absurd rfl (hfmt _ hsize size)) cs (Nat.lt_succ_self _)

/-- Nothing is stored when the scan stops at once. -/
theorem not_mem_of_ok_nil {a : Arg} {args : List Arg}
    (h : (.ok [] : Except Overflow (List Arg)) = .ok args) : a ∉ args := by
  obtain rfl := Except.ok.inj h
  exact List.not_mem_nil

/-- A string that is stored has a character. -/
theorem ne_nil_of_sscanf {fmt : List Directive} {cs w : List Char} {args : List Arg}
    (h : sscanf fmt cs = .ok args) (hw : .str w ∈ args) : w ≠ [] := by
  induction fmt generalizing cs args with
  | nil =>
    rw [sscanf] at h
    exact absurd hw (not_mem_of_ok_nil h)
  | cons d fmt ih =>
    cases d with
    | space =>
      rw [sscanf] at h
      exact ih h hw
    | lit c =>
      cases cs with
      | nil =>
        rw [sscanf] at h
        exact absurd hw (not_mem_of_ok_nil h)
      | cons e cs =>
        rw [sscanf] at h
        split at h
        · exact ih h hw
        · exact absurd hw (not_mem_of_ok_nil h)
    | int assign =>
      rw [sscanf] at h
      split at h
      · exact absurd hw (not_mem_of_ok_nil h)
      · rename_i n rest _
        cases hs : sscanf fmt rest with
        | error e =>
          rw [hs] at h
          cases h
        | ok args' =>
          rw [hs] at h
          obtain rfl := Except.ok.inj h
          refine ih hs ?_
          cases assign with
          | true => exact (List.mem_cons.mp hw).resolve_left (by simp)
          | false => exact hw
    | str size =>
      rw [sscanf] at h
      by_cases ht : token (skipSpace cs) = []
      · rw [if_pos ht] at h
        exact absurd hw (not_mem_of_ok_nil h)
      · rw [if_neg ht] at h
        split at h
        · cases h
        · cases hs : sscanf fmt (afterToken (skipSpace cs)) with
          | error e =>
            rw [hs] at h
            cases h
          | ok args' =>
            rw [hs] at h
            obtain rfl := Except.ok.inj h
            rcases List.mem_cons.mp hw with heq | hw
            · -- the token stored here
              rw [Arg.str.inj heq]
              exact ht
            · exact ih hs hw
    | skipStr =>
      rw [sscanf] at h
      split at h
      · exact absurd hw (not_mem_of_ok_nil h)
      · exact ih h hw

end CFormat
