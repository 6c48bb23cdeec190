import Mathlib.Data.List.Forall2
import PeExchange.Lib.Scanf

/-!
# Layouts

Texts that are printed and can be read back. A `Layout` is a printer and a reader
together with the proof that the reader gets what was printed, whatever stands
behind it; what can be mistaken is not a layout.

- `lit`, `number`, `word`: a fixed text; a number or a word with the text that ends
  it.
- `before`, `dep`, `all`: layouts one behind the other. In `dep` what is read
  first says how to go on, as the length of a list does.
- `map`, `variant`: values made of parts.
- `tagged`: alternatives that begin with different texts.
- `readAll`: the reader of a stream, which gets back all that was printed.
-/

namespace CFormat

/-- Values of `α` as texts. -/
structure Layout (α : Type) where
  text : α → List Char
  read : List Char → Option (α × List Char)
  Valid : α → Prop
  read_text : ∀ a, Valid a → ∀ rest, read (text a ++ rest) = some (a, rest)

/-! ## Numbers -/

/-- What `%d` prints is a numeral. -/
def numeralOf (n : Int) : Numeral where
  sign := if n < 0 then .minus else .none
  digits := Nat.toDigits 10 n.natAbs
  nonempty := Nat.toDigits_ne_nil
  isDigit _ hc := Nat.isDigit_of_mem_toDigits (by decide) (by decide) hc

theorem numeralOf_text (n : Int) : (numeralOf n).text = decimal n := by
  rw [Numeral.text, numeralOf, decimal]
  split <;> rfl

theorem numeralOf_trueValue (n : Int) : (numeralOf n).trueValue = n := by
  have hdigits : (Nat.ofDigitChars 10 (Nat.toDigits 10 n.natAbs) 0 : Int) = n.natAbs := by
    rw [Nat.ofDigitChars_ten_toDigits]
  rw [Numeral.trueValue, numeralOf]
  by_cases hn : n < 0
  · simp only [hn, if_true]
    omega
  · simp only [hn, if_false]
    omega

namespace Layout

variable {α β κ : Type}

/-! ## Single texts -/

/-- The input behind `w`, if it begins with it. -/
def expect (w cs : List Char) : Option (List Char) :=
  if w <+: cs then some (cs.drop w.length) else none

theorem expect_append (w rest : List Char) : expect w (w ++ rest) = some rest := by
  rw [expect, if_pos (List.prefix_append w rest), List.drop_left]

/-- A fixed text. -/
def lit (w : List Char) : Layout Unit where
  text _ := w
  read cs := (expect w cs).map fun rest => ((), rest)
  Valid _ := True
  read_text _ _ rest := by rw [expect_append]; rfl

theorem stops_append {p : Char → Bool} {w : List Char} (hw : w.head?.map p = some false)
    (rest : List Char) : Stops p (w ++ rest) := by
  cases w with
  | nil => cases hw
  | cons c w => exact stops_cons (Option.some.inj hw) _

/-- A number and the text `w` that ends it. -/
def number (w : List Char) (hw : w.head?.map Char.isDigit = some false) : Layout Int where
  text n := decimal n ++ w
  read cs := (scanNumeral cs).bind fun r => (expect w r.2).map fun rest => (r.1.trueValue, rest)
  Valid _ := True
  read_text n _ rest := by
    have hscan := scanNumeral_text (numeralOf n) (stops_append hw rest)
    rw [numeralOf_text] at hscan
    rw [List.append_assoc, hscan, Option.bind_some, expect_append, numeralOf_trueValue]
    rfl

/-- A word of characters that satisfy `p` and the text `w` that ends it. -/
def word (p : Char → Bool) (w : List Char) (hw : w.head?.map p = some false) :
    Layout (List Char) where
  text a := a ++ w
  read cs := (expect w (cs.dropWhile p)).map fun rest => (cs.takeWhile p, rest)
  Valid a := ∀ c ∈ a, p c = true
  read_text a ha rest := by
    have hstop := stops_append hw rest
    rw [List.append_assoc, takeWhile_append_of_stops ha hstop,
      dropWhile_append_of_stops ha hstop, expect_append]
    rfl

/-! ## Sequences -/

/-- A fixed text before another. -/
def before (w : List Char) (f : Layout α) : Layout α where
  text a := w ++ f.text a
  read cs := (expect w cs).bind f.read
  Valid := f.Valid
  read_text a ha rest := by
    rw [List.append_assoc, expect_append]
    exact f.read_text a ha rest

/-- A value and another one, whose layout depends on the first. -/
def dep (f : Layout α) (g : α → Layout β) : Layout (α × β) where
  text r := f.text r.1 ++ (g r.1).text r.2
  read cs := (f.read cs).bind fun r => ((g r.1).read r.2).map fun r' => ((r.1, r'.1), r'.2)
  Valid r := f.Valid r.1 ∧ (g r.1).Valid r.2
  read_text r hr rest := by
    rw [List.append_assoc, f.read_text r.1 hr.1, Option.bind_some, (g r.1).read_text r.2 hr.2]
    rfl

/-- Values that are made of parts. -/
def map (f : Layout α) (make : α → β) (parts : β → α) (h : ∀ b, make (parts b) = b) :
    Layout β where
  text b := f.text (parts b)
  read cs := (f.read cs).map fun r => (make r.1, r.2)
  Valid b := f.Valid (parts b)
  read_text b hb rest := by
    rw [f.read_text _ hb]
    exact congrArg (fun x => some (x, rest)) (h b)

/-- Some of the values of `β`, made of parts. -/
def variant (f : Layout α) (make : α → β) (parts : β → Option α)
    (h : ∀ b a, parts b = some a → make a = b) : Layout β where
  text b := (parts b).elim [] f.text
  read cs := (f.read cs).map fun r => (make r.1, r.2)
  Valid b := ∃ a, parts b = some a ∧ f.Valid a
  read_text b hb rest := by
    obtain ⟨a, hparts, ha⟩ := hb
    rw [hparts]
    show ((f.read (f.text a ++ rest)).map fun r => (make r.1, r.2)) = _
    rw [f.read_text a ha]
    exact congrArg (fun x => some (x, rest)) (h b a hparts)

/-- The texts of some values one behind the other. -/
def textEach : List (Layout α) → List α → List Char
  | f :: fs, a :: as => f.text a ++ textEach fs as
  | _, _ => []

def readEach : List (Layout α) → List Char → Option (List α × List Char)
  | [], cs => some ([], cs)
  | f :: fs, cs =>
    (f.read cs).bind fun r => (readEach fs r.2).map fun r' => (r.1 :: r'.1, r'.2)

/-- As many values as there are layouts. -/
def all (fs : List (Layout α)) : Layout (List α) where
  text := textEach fs
  read := readEach fs
  Valid := List.Forall₂ Layout.Valid fs
  read_text as has rest := by
    induction has with
    | nil => rfl
    | @cons f a fs as hf _ ih =>
      rw [textEach, List.append_assoc, readEach, f.read_text a hf, Option.bind_some, ih]
      rfl

/-- The layouts of a list all alike. -/
theorem all_replicate_text (f : Layout α) (as : List α) :
    (all (List.replicate as.length f)).text as = as.flatMap f.text := by
  induction as with
  | nil => rfl
  | cons a as ih =>
    show f.text a ++ textEach (List.replicate as.length f) as = _
    rw [List.flatMap_cons]
    exact congrArg _ ih

theorem all_replicate_valid {f : Layout α} {as : List α} (h : ∀ a ∈ as, f.Valid a) :
    (all (List.replicate as.length f)).Valid as := by
  induction as with
  | nil => exact .nil
  | cons a as ih =>
    exact .cons (h a List.mem_cons_self) (ih fun b hb => h b (List.mem_cons_of_mem _ hb))

/-- The layouts of a list, one for each index. -/
theorem all_map_text {ι : Type} (fs : ι → Layout α) (as : ι → α) (is : List ι) :
    (all (is.map fs)).text (is.map as) = is.flatMap fun i => (fs i).text (as i) := by
  induction is with
  | nil => rfl
  | cons i is ih =>
    show (fs i).text (as i) ++ textEach (is.map fs) (is.map as) = _
    rw [List.flatMap_cons]
    exact congrArg _ ih

theorem all_map_valid {ι : Type} {fs : ι → Layout α} {as : ι → α} {is : List ι}
    (h : ∀ i ∈ is, (fs i).Valid (as i)) : (all (is.map fs)).Valid (is.map as) := by
  induction is with
  | nil => exact .nil
  | cons i is ih =>
    exact .cons (h i List.mem_cons_self) (ih fun j hj => h j (List.mem_cons_of_mem _ hj))

/-! ## Alternatives -/

/-- A value of kind `tag a` begins with `w (tag a)`. -/
def tagged (tags : List κ) (w : κ → List Char) (tag : α → κ) (body : κ → Layout α)
    (hw : ∀ k ∈ tags, ∀ k' ∈ tags, w k <+: w k' → k = k') : Layout α where
  text a := w (tag a) ++ (body (tag a)).text a
  read cs := (tags.find? fun k => w k <+: cs).bind fun k =>
    (expect (w k) cs).bind (body k).read
  Valid a := tag a ∈ tags ∧ (body (tag a)).Valid a
  read_text a ha rest := by
    obtain ⟨htag, hbody⟩ := ha
    -- the text begins with the word of no other kind
    have hfind : (tags.find? fun k => w k <+: w (tag a) ++ (body (tag a)).text a ++ rest) =
        some (tag a) := by
      have hpre : w (tag a) <+: w (tag a) ++ (body (tag a)).text a ++ rest := by
        rw [List.append_assoc]
        exact List.prefix_append _ _
      cases hf : tags.find? fun k => w k <+: w (tag a) ++ (body (tag a)).text a ++ rest with
      | none =>
        have hnone := List.find?_eq_none.mp hf (tag a) htag
        exact absurd (decide_eq_true hpre) hnone
      | some k =>
        have hk : w k <+: w (tag a) ++ (body (tag a)).text a ++ rest := by
          simpa using List.find?_some hf
        have hmem := List.mem_of_find?_eq_some hf
        rcases List.prefix_or_prefix_of_prefix hk hpre with h | h
        · rw [hw k hmem (tag a) htag h]
        · rw [hw (tag a) htag k hmem h]
    rw [hfind, Option.bind_some, List.append_assoc, expect_append]
    exact (body (tag a)).read_text a hbody rest

/-! ## Streams -/

/-- Values until the end of the input. -/
def readWithin (f : Layout α) : Nat → List Char → Option (List α)
  | _, [] => some []
  | 0, _ :: _ => none
  | fuel + 1, c :: cs =>
    (f.read (c :: cs)).bind fun r => (readWithin f fuel r.2).map fun as => r.1 :: as

/-- The reader of a stream. -/
def readAll (f : Layout α) (cs : List Char) : Option (List α) :=
  f.readWithin cs.length cs

/-- **A stream of texts is cut where they end.** -/
theorem readAll_flatMap {f : Layout α} {as : List α} (h : ∀ a ∈ as, f.Valid a)
    (hne : ∀ a ∈ as, f.text a ≠ []) : f.readAll (as.flatMap f.text) = some as := by
  suffices hgen : ∀ fuel, (as.flatMap f.text).length ≤ fuel →
      f.readWithin fuel (as.flatMap f.text) = some as from hgen _ (Nat.le_refl _)
  induction as with
  | nil =>
    intro fuel _
    cases fuel <;> rfl
  | cons a as ih =>
    intro fuel hfuel
    have ha := f.read_text a (h a List.mem_cons_self) (as.flatMap f.text)
    have hrest := ih (fun b hb => h b (List.mem_cons_of_mem _ hb))
      fun b hb => hne b (List.mem_cons_of_mem _ hb)
    obtain ⟨c, cs, hc⟩ := List.exists_cons_of_ne_nil (hne a List.mem_cons_self)
    rw [List.flatMap_cons, hc] at hfuel ⊢
    rw [hc] at ha
    cases fuel with
    | zero => cases hfuel
    | succ fuel =>
      rw [List.cons_append, List.length_cons, List.length_append] at hfuel
      rw [List.cons_append] at ha ⊢
      rw [readWithin, ha, Option.bind_some, hrest fuel (by omega)]
      rfl

end Layout

end CFormat
