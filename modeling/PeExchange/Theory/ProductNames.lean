import PeExchange.ProductFile
import PeExchange.Theory.Grammar

/-!
# Which product files are read, and how

- `getProductsLoop_ret`, `getProductsLoop_copied`: what `get_products` returns and
  what it copies, from the lines alone.
- `ProductFile`: the files that are meant. `ReadExactly` holds of a file when it is
  read if and only if it is one of them, and its names are then copied whole. The
  checks of the source (`Passes`) say nothing about the last character of a
  line; `Sound` is what is missing.
- `StaysInBounds`: the copies stay in the array `main` allocates, and the number
  of names is the number returned unless 1 is.
-/

namespace PeExchange

open CFormat Lines Framing

/-! ## What get_products does -/

section Loop

variable {numProducts : Int} {copied : List (Nat × List Char)} {prodCounter : Nat}
  {line : List Char} {rest : List (List Char)}

/-- A line `get_products` takes for a name. -/
def acceptable (line : List Char) : Bool :=
  line.length ≤ maxProd && isAlphanumeric line

theorem acceptable_iff : acceptable line = true ↔
    line.length ≤ maxProd ∧ isAlphanumeric line = true := by
  rw [acceptable, Bool.and_eq_true, decide_eq_true_eq]

theorem getProductsLoop_acceptable (h : acceptable line = true) :
    getProductsLoop numProducts copied prodCounter (line :: rest) =
      if numProducts < (prodCounter + 1 : Nat) then
        ⟨1, "Too many products for number given\n".toList,
          copied ++ [(prodCounter, line.dropLast)]⟩
      else getProductsLoop numProducts (copied ++ [(prodCounter, line.dropLast)])
        (prodCounter + 1) rest := by
  obtain ⟨hlen, halnum⟩ := acceptable_iff.mp h
  rw [getProductsLoop, if_neg (by omega), if_neg (by rw [halnum]; decide)]

/-- A line that is not acceptable ends the loop. -/
theorem getProductsLoop_not_acceptable (h : acceptable line = false) :
    (getProductsLoop numProducts copied prodCounter (line :: rest)).ret = 1 ∧
      (getProductsLoop numProducts copied prodCounter (line :: rest)).copied = copied := by
  rw [getProductsLoop]
  by_cases hlen : maxProd < line.length
  · rw [if_pos hlen]
    exact ⟨rfl, rfl⟩
  · have halnum : isAlphanumeric line = false := by
      by_contra hne
      rw [acceptable_iff.mpr ⟨by omega, Bool.eq_true_of_not_eq_false hne⟩] at h
      cases h
    rw [if_neg hlen, if_pos halnum]
    exact ⟨rfl, rfl⟩

/-- **When 0 is returned**: every line is acceptable, and no name is missing or one
too many. -/
theorem getProductsLoop_ret : (getProductsLoop numProducts copied prodCounter rest).ret = 0 ↔
    (∀ line ∈ rest, acceptable line = true) ∧
      (prodCounter + rest.length : Nat) = max numProducts prodCounter := by
  induction rest generalizing copied prodCounter with
  | nil =>
    rw [getProductsLoop, List.length_nil]
    by_cases h : (prodCounter : Int) < numProducts
    · rw [if_pos h]
      constructor
      · nofun
      · rintro ⟨-, heq⟩
        omega
    · rw [if_neg h]
      exact ⟨fun _ => ⟨nofun, by omega⟩, fun _ => rfl⟩
  | cons line rest ih =>
    rw [List.forall_mem_cons, List.length_cons]
    cases hline : acceptable line with
    | false =>
      rw [(getProductsLoop_not_acceptable hline).1]
      constructor
      · nofun
      · rintro ⟨⟨hacc, -⟩, -⟩
        cases hacc
    | true =>
      rw [getProductsLoop_acceptable hline]
      by_cases h : numProducts < (prodCounter + 1 : Nat)
      · rw [if_pos h]
        constructor
        · nofun
        · rintro ⟨-, heq⟩
          omega
      · rw [if_neg h, ih]
        constructor
        · rintro ⟨hrest, heq⟩
          exact ⟨⟨rfl, hrest⟩, by omega⟩
        · rintro ⟨⟨-, hrest⟩, heq⟩
          exact ⟨hrest, by omega⟩

/-- The result is 0 or 1. -/
theorem getProductsLoop_ret_eq_one
    (h : (getProductsLoop numProducts copied prodCounter rest).ret ≠ 0) :
    (getProductsLoop numProducts copied prodCounter rest).ret = 1 := by
  induction rest generalizing copied prodCounter with
  | nil =>
    rw [getProductsLoop] at h ⊢
    split at h
    · next hlt => rw [if_pos hlt]
    · exact absurd rfl h
  | cons line rest ih =>
    cases hline : acceptable line with
    | false => exact (getProductsLoop_not_acceptable hline).1
    | true =>
      rw [getProductsLoop_acceptable hline] at h ⊢
      split at h
      · next hlt => rw [if_pos hlt]
      · next hlt =>
        rw [if_neg hlt]
        exact ih h

/-- The copies of the names `lines`, the first one at `i`. -/
def copies (i : Nat) (lines : List (List Char)) : List (Nat × List Char) :=
  (lines.zipIdx i).map fun p => (p.2, p.1.dropLast)

/-- **What is copied**: the acceptable lines before the first that is not, up to
one more than there is room for. -/
theorem getProductsLoop_copied (h : (prodCounter : Int) ≤ numProducts) :
    (getProductsLoop numProducts copied prodCounter rest).copied = copied ++
      copies prodCounter ((rest.takeWhile acceptable).take
        (numProducts.toNat - prodCounter + 1)) := by
  induction rest generalizing copied prodCounter with
  | nil =>
    rw [getProductsLoop]
    split <;> simp [copies]
  | cons line rest ih =>
    cases hline : acceptable line with
    | false =>
      rw [(getProductsLoop_not_acceptable hline).2,
        List.takeWhile_cons_of_neg (by rw [hline]; decide)]
      simp [copies]
    | true =>
      rw [getProductsLoop_acceptable hline, List.takeWhile_cons_of_pos hline, List.take_succ_cons]
      by_cases hlt : numProducts < (prodCounter + 1 : Nat)
      · rw [if_pos hlt, show numProducts.toNat - prodCounter = 0 by omega, List.take_zero]
        rfl
      · rw [if_neg hlt, ih (by omega), List.append_assoc,
          show numProducts.toNat - prodCounter = numProducts.toNat - (prodCounter + 1) + 1 by omega]
        rfl

end Loop

/-! ## valid_products -/

variable {copied : List (Nat × List Char)} {ls : List (List Char)}

theorem foldl_copies (valid : Nat → List Char) (i j : Nat) :
    (copies i ls).foldl (fun valid c => Function.update valid c.1 c.2) valid j =
      if j < i then valid j else (ls[j - i]?.map List.dropLast).getD (valid j) := by
  induction ls generalizing valid i with
  | nil => simp [copies]
  | cons line ls ih =>
    show (copies (i + 1) ls).foldl _ (Function.update valid i line.dropLast) j = _
    rw [ih]
    rcases lt_trichotomy j i with hlt | rfl | hlt
    · rw [if_pos (by omega), if_pos hlt, Function.update_of_ne (by omega)]
    · rw [if_pos (by omega), if_neg (by omega), Nat.sub_self, Function.update_self]
      rfl
    · rw [if_neg (by omega), if_neg (by omega), Function.update_of_ne (by omega),
        show j - i = j - (i + 1) + 1 by omega, List.getElem?_cons_succ]

/-- The name copied to each index. -/
theorem validProducts_copies {i : Nat} (h : i < ls.length) :
    validProducts (copies 0 ls) i = ls[i].dropLast := by
  rw [validProducts, foldl_copies, if_neg (Nat.not_lt_zero i), Nat.sub_zero,
    List.getElem?_eq_getElem h]
  rfl

/-! ## The files that are read -/

/-- The first result of `fgets`. -/
def TextFile.first (f : TextFile) : List Char :=
  f.reads.headD []

/-- The results of `fgets` after the first. -/
def TextFile.later (f : TextFile) : List (List Char) :=
  f.reads.tail

variable {f : TextFile} {n : Nat} {names : List (List Char)}

theorem TextFile.reads_spec (f : TextFile) : Reads '\n' (maxLine - 1) f.chars f.reads :=
  Lines.reads_spec '\n' (by decide) f.chars

theorem TextFile.reads_eq (h : f.chars ≠ []) : f.reads = f.first :: f.later := by
  have hne : f.reads ≠ [] := fun hnil => h (f.reads_spec.eq_nil_iff.mp hnil)
  rw [TextFile.first, TextFile.later]
  cases hr : f.reads with
  | nil => exact absurd hr hne
  | cons line rest => rfl

/-- The checks of `get_num_products`, `main` and `get_products`. -/
structure Passes (f : TextFile) : Prop where
  number : isNum f.first = true
  ne : atoi f.first ≠ -1
  names : ∀ line ∈ f.later, acceptable line = true
  count : f.later.length = (atoi f.first).toNat

theorem getNumProducts_eq (h : f.chars ≠ []) : getNumProducts (some f) =
    if isNum f.first = false then .ok (-1, "Invalid number of products\n".toList)
    else .ok (atoi f.first, []) := by
  simp only [getNumProducts, TextFile.reads_eq h]

theorem readProducts_of_passes (h : f.chars ≠ []) (hp : Passes f) :
    readProducts (some f) = .ok (some (atoi f.first, validProducts (copies 0 f.later))) := by
  have hret : (getProducts (some f) (atoi f.first)).ret = 0 := by
    refine getProductsLoop_ret.mpr ⟨hp.names, ?_⟩
    show ((0 + f.later.length : Nat) : Int) = _
    have hcount := hp.count
    omega
  have hcopied : (getProducts (some f) (atoi f.first)).copied = copies 0 f.later := by
    have htake : f.later.takeWhile acceptable = f.later := List.takeWhile_eq_self_iff.mpr hp.names
    show (getProductsLoop _ _ _ f.later).copied = _
    by_cases hneg : atoi f.first < 0
    · -- no number and no lines
      have hnil : f.later = [] := List.eq_nil_of_length_eq_zero (by rw [hp.count]; omega)
      rw [hnil, getProductsLoop, if_neg (by omega)]
      rfl
    · rw [getProductsLoop_copied (by omega), htake, List.nil_append, List.take_of_length_le]
      rw [hp.count]
      omega
  unfold readProducts
  rw [getNumProducts_eq h, if_neg (by rw [hp.number]; decide)]
  show (if atoi f.first = -1 then _ else _) = _
  rw [if_neg hp.ne, if_neg (by rw [hret]; decide), hcopied]
  rfl

theorem readProducts_of_not_passes (h : f.chars ≠ []) (hp : ¬Passes f) :
    readProducts (some f) = .ok none := by
  unfold readProducts
  rw [getNumProducts_eq h]
  by_cases hnum : isNum f.first = false
  · rw [if_pos hnum]
    rfl
  · rw [if_neg hnum]
    show (if atoi f.first = -1 then _ else _) = _
    by_cases hne : atoi f.first = -1
    · rw [if_pos hne]
      rfl
    · rw [if_neg hne, if_pos]
      · rfl
      · intro hret
        obtain ⟨hnames, hcount⟩ := getProductsLoop_ret.mp hret
        refine hp ⟨Bool.eq_true_of_not_eq_false hnum, hne, hnames, ?_⟩
        change ((0 + f.later.length : Nat) : Int) = _ at hcount
        omega

/-! ## The files that are meant -/

/-- A product file: a number of at most six digits and as many alphanumeric names
of at most 16 characters, one a line; the last line need not be ended. -/
structure ProductFile (f : TextFile) (n : Nat) (names : List (List Char)) : Prop where
  number : ∃ w, lines '\n' f.chars = w :: names ∧ IsDecimal w n ∧ w.length ≤ 6
  count : names.length = n
  name : ∀ name ∈ names, name ≠ [] ∧ name.length ≤ 16 ∧ ∀ c ∈ name, c.isAlphanum = true

/-- The file is read if it is a product file, and then as what it is. -/
def ReadExactly (f : TextFile) : Prop :=
  ∃ r, readProducts (some f) = .ok r ∧ (r.isSome ↔ ∃ n names, ProductFile f n names) ∧
    ∀ m valid, r = some (m, valid) → ∀ n names, ProductFile f n names →
      m = n ∧ ∀ i (h : i < names.length), valid i = names[i]

/-- What the checks leave out: the end of the last line, names without characters,
and what else may stand in the first line. -/
structure Sound (f : TextFile) : Prop where
  ended : f.later ≠ [] → f.chars.getLast? = some '\n'
  named : ['\n'] ∉ f.later
  nonempty : strip '\n' f.first ≠ []
  length : (strip '\n' f.first).length ≤ 6
  digits : ∀ c ∈ strip '\n' f.first, c.isDigit = true

theorem atoi_of_isDecimal {w t : List Char} {m : Int} (h : IsDecimal w m) (hle : w.length ≤ 6)
    (ht : Stops Char.isDigit t) : atoi (w ++ t) = m := by
  have hskip : skipSpace (w ++ t) = h.numeral.text ++ t := by
    have hw : w ≠ [] := h.nonempty
    cases w with
    | nil => exact absurd rfl hw
    | cons c w =>
      exact List.dropWhile_cons_of_neg (by rw [h.not_space c List.mem_cons_self]; decide)
  have hlt := ofDigitChars_lt h.digits
  have hpow : 10 ^ w.length ≤ 10 ^ 6 := Nat.pow_le_pow_right (by decide) hle
  have hval := h.value
  rw [atoi, hskip, scanNumeral_text _ ht]
  exact h.numeral_value (by omega)

/-- The number in the first line. -/
theorem atoi_first {w : List Char} {m : Int} (hw : strip '\n' f.first = w) (h : IsDecimal w m)
    (hle : w.length ≤ 6) : atoi f.first = m := by
  rcases strip_append '\n' f.first with heq | heq
  · rw [heq, hw, ← List.append_nil w]
    exact atoi_of_isDecimal h hle (stops_nil _)
  · rw [heq, hw]
    exact atoi_of_isDecimal h hle (stops_cons (by decide) _)

/-- The pieces of a product file are its lines. -/
theorem ProductFile.reads (h : ProductFile f n names) : f.chars ≠ [] ∧
    IsDecimal (strip '\n' f.first) n ∧ (strip '\n' f.first).length ≤ 6 ∧
    f.later.map (strip '\n') = names := by
  obtain ⟨w, hlines, hw, hwlen⟩ := h.number
  have hne : f.chars ≠ [] := by
    intro hnil
    rw [hnil] at hlines
    cases hlines
  have hshort : ∀ p ∈ f.reads, p.length < maxLine - 1 := by
    refine f.reads_spec.length_lt fun l hl => ?_
    rw [hlines] at hl
    show l.length + 1 < 49
    rcases List.mem_cons.mp hl with rfl | hl
    · omega
    · have hlen := (h.name l hl).2.1
      omega
  have heq := f.reads_spec.lines_eq hshort
  rw [hlines, TextFile.reads_eq hne, List.map_cons] at heq
  obtain ⟨rfl, rfl⟩ := List.cons.inj heq
  exact ⟨hne, hw, hwlen, rfl⟩

/-- A product file passes the checks. -/
theorem ProductFile.passes (h : ProductFile f n names) : Passes f := by
  obtain ⟨-, hw, hwlen, rfl⟩ := h.reads
  have hatoi := atoi_first rfl hw hwlen
  refine ⟨?_, by omega, fun line hline => ?_, ?_⟩
  · exact List.all_eq_true.mpr fun c hc => hw.digits c (mem_strip_of_mem_dropLast hc)
  · obtain ⟨-, hlen, halnum⟩ := h.name _ (List.mem_map_of_mem hline)
    have hle := length_le_strip '\n' line
    refine acceptable_iff.mpr ⟨by show line.length ≤ 17; omega, ?_⟩
    exact List.all_eq_true.mpr fun c hc => halnum c (mem_strip_of_mem_dropLast hc)
  · have hcount := h.count
    rw [List.length_map] at hcount
    omega

/-- A file that passes and is sound is a product file. -/
theorem Passes.productFile (hp : Passes f) (hs : Sound f) (hne : f.chars ≠ []) :
    ProductFile f f.later.length (f.later.map List.dropLast) := by
  have hreads := TextFile.reads_eq hne
  -- the first line is short, and so is every line that is acceptable
  have hshort : ∀ p ∈ f.reads, p.length < maxLine - 1 := by
    intro p hp'
    show p.length < 49
    rw [hreads] at hp'
    rcases List.mem_cons.mp hp' with rfl | hmem
    · have hle := length_le_strip '\n' f.first
      have hlen := hs.length
      omega
    · have hlen : p.length ≤ 17 := (acceptable_iff.mp (hp.names p hmem)).1
      omega
  have hlines := f.reads_spec.lines_eq hshort
  rw [hreads, List.map_cons] at hlines
  -- every later line has its end
  have hterm : ∀ line ∈ f.later, Terminated '\n' line := fun line hmem =>
    f.reads_spec.terminated (hs.ended (List.ne_nil_of_mem hmem)) hshort line
      (by rw [hreads]; exact List.mem_cons_of_mem _ hmem)
  have hstrip : f.later.map (strip '\n') = f.later.map List.dropLast := by
    refine List.map_congr_left fun line hmem => ?_
    obtain ⟨body, -, rfl⟩ := hterm line hmem
    rw [strip_line, List.dropLast_concat]
  rw [hstrip] at hlines
  have hdec : IsDecimal (strip '\n' f.first) (Nat.ofDigitChars 10 (strip '\n' f.first) 0) :=
    ⟨hs.nonempty, hs.digits, rfl⟩
  have hatoi := atoi_first rfl hdec hs.length
  have hcount := hp.count
  rw [hatoi, Int.toNat_natCast] at hcount
  refine ⟨⟨_, hlines, by rw [hcount]; exact hdec, hs.length⟩, List.length_map _, ?_⟩
  rw [List.forall_mem_map]
  intro line hmem
  obtain ⟨hlen, halnum⟩ := acceptable_iff.mp (hp.names line hmem)
  obtain ⟨body, -, rfl⟩ := hterm line hmem
  rw [isAlphanumeric, List.dropLast_concat] at halnum
  rw [List.length_append, List.length_singleton] at hlen
  rw [List.dropLast_concat]
  refine ⟨?_, ?_, List.all_eq_true.mp halnum⟩
  · rintro rfl
    exact hs.named hmem
  · show body.length ≤ 16
    have hlen : body.length + 1 ≤ 17 := hlen
    omega

/-- A file whose names are copied whole is sound. -/
theorem ProductFile.sound (h : ProductFile f n names)
    (hcopied : ∀ i (hi : i < names.length), validProducts (copies 0 f.later) i = names[i]) :
    Sound f := by
  obtain ⟨hne, hw, hwlen, rfl⟩ := h.reads
  refine ⟨fun hlater => ?_, fun hmem => ?_, hw.nonempty, hwlen, hw.digits⟩
  · by_contra hend
    -- the last line is copied without its last character
    obtain ⟨p, hp, hmem⟩ := f.reads_spec.not_mem_getLast hne hend
    rw [TextFile.reads_eq hne, List.getLast?_cons_of_ne_nil hlater,
      List.getLast?_eq_some_getLast hlater] at hp
    have hpos := List.length_pos_of_ne_nil hlater
    have hlast := Option.some.inj hp
    rw [List.getLast_eq_getElem] at hlast
    have hi : f.later.length - 1 < f.later.length := by omega
    have hcopy := hcopied (f.later.length - 1) (by rw [List.length_map]; exact hi)
    rw [validProducts_copies hi, List.getElem_map, hlast, strip_of_not_mem hmem] at hcopy
    have hname := (h.name _ (List.mem_map_of_mem (List.getElem_mem hi))).1
    rw [hlast, strip_of_not_mem hmem] at hname
    have hlen := congrArg List.length hcopy
    rw [List.length_dropLast] at hlen
    have hplen := List.length_pos_of_ne_nil hname
    omega
  · exact (h.name _ (List.mem_map_of_mem hmem)).1 rfl

/-- Nothing can be said about an empty file. -/
theorem readProducts_empty (h : f.chars = []) :
    readProducts (some f) = .error .uninitialised := by
  have hreads : f.reads = [] := f.reads_spec.eq_nil_iff.mpr h
  simp only [readProducts, getNumProducts, hreads]
  rfl

theorem ReadExactly.sound (h : ReadExactly f) : f.chars ≠ [] ∧ (Passes f → Sound f) := by
  obtain ⟨r, hr, hiff, hread⟩ := h
  have hne : f.chars ≠ [] := by
    intro hnil
    rw [readProducts_empty hnil] at hr
    cases hr
  refine ⟨hne, fun hp => ?_⟩
  have heq := readProducts_of_passes hne hp
  rw [hr] at heq
  obtain rfl := Except.ok.inj heq
  obtain ⟨n, names, hf⟩ := hiff.mp rfl
  exact hf.sound (hread _ _ rfl n names hf).2

/-- **A file is read exactly** if and only if it is not empty and is sound in case
it passes the checks. -/
theorem readExactly_iff (f : TextFile) :
    ReadExactly f ↔ f.chars ≠ [] ∧ (Passes f → Sound f) := by
  constructor
  · exact ReadExactly.sound
  · rintro ⟨hne, hsound⟩
    by_cases hp : Passes f
    · have hf := hp.productFile (hsound hp) hne
      refine ⟨_, readProducts_of_passes hne hp, ⟨fun _ => ⟨_, _, hf⟩, fun _ => rfl⟩, ?_⟩
      rintro m valid heq n names hf'
      obtain ⟨rfl, rfl⟩ := Prod.mk.inj (Option.some.inj heq)
      -- a file has the lines of one product file
      obtain ⟨w, hlines, -⟩ := hf.number
      obtain ⟨w', hlines', -⟩ := hf'.number
      rw [hlines] at hlines'
      obtain ⟨-, rfl⟩ := List.cons.inj hlines'
      obtain ⟨-, hdec, hlen, -⟩ := hf'.reads
      refine ⟨atoi_first rfl hdec hlen, fun i hi => ?_⟩
      rw [List.length_map] at hi
      rw [validProducts_copies hi, List.getElem_map]
    · refine ⟨none, readProducts_of_not_passes hne hp, ?_, nofun⟩
      constructor
      · nofun
      · rintro ⟨n, names, hf⟩
        exact absurd hf.passes hp

/-- The product list of the tests, as tests/E2E/valid_products.txt has it. -/
def testProductFile : TextFile where
  chars := "2\nGPU\nRouter".toList
  nul_free := by decide

/-- Its last line has no end, and its last name is cut. -/
theorem not_readExactly : ¬ReadExactly testProductFile := by
  intro h
  have hp : Passes testProductFile := ⟨by decide, by decide, by decide, by decide⟩
  exact absurd ((h.sound.2 hp).ended (by decide)) (by decide)

/-! ## Bounds -/

/-- `get_products` stays within an array of `n` names, and returns 1 unless there
are `n` names. -/
def StaysInBounds (f : TextFile) (n : Int) : Prop :=
  (∀ c ∈ (getProducts (some f) n).copied, c.1 < n ∧ c.2.length + 1 ≤ maxProd) ∧
    ((lines '\n' f.chars).tail.length ≠ n → (getProducts (some f) n).ret = 1)

/-- More than `n` names, before any line that is not one. -/
def Overfull (f : TextFile) (n : Int) : Prop :=
  n < (f.later.takeWhile acceptable).length

/-- The first line has no room in `line`, and its remainder passes for a name and
makes up the number. -/
structure SplitNumber (f : TextFile) (n : Int) : Prop where
  unended : '\n' ∉ f.first
  later : f.later ≠ []
  names : ∀ line ∈ f.later, acceptable line = true
  count : f.later.length = n

theorem copied_eq {n : Int} (h : 0 ≤ n) : (getProducts (some f) n).copied =
    copies 0 ((f.later.takeWhile acceptable).take (n.toNat + 1)) :=
  getProductsLoop_copied h

theorem ret_eq_zero_iff {n : Int} (h : 0 ≤ n) : (getProducts (some f) n).ret = 0 ↔
    (∀ line ∈ f.later, acceptable line = true) ∧ f.later.length = n := by
  refine getProductsLoop_ret.trans (and_congr_right fun _ => ?_)
  show ((0 + f.later.length : Nat) : Int) = _ ↔ _
  omega

/-- The indices that are copied to. -/
theorem mem_copied {n : Int} (h : 0 ≤ n) {c : Nat × List Char}
    (hc : c ∈ (getProducts (some f) n).copied) :
    c.1 < (f.later.takeWhile acceptable).length ∧ c.2.length + 1 ≤ maxProd := by
  rw [copied_eq h] at hc
  obtain ⟨⟨line, i⟩, hmem, rfl⟩ := List.mem_map.mp hc
  have hlt := List.snd_lt_of_mem_zipIdx hmem
  have hline := List.mem_of_mem_take (List.fst_mem_of_mem_zipIdx hmem)
  have hlen : line.length ≤ 17 := (acceptable_iff.mp (List.mem_takeWhile_imp hline)).1
  rw [List.length_take] at hlt
  constructor
  · show i < _
    omega
  · rw [List.length_dropLast]
    show line.length - 1 + 1 ≤ 17
    omega

/-- One name too many is copied before it is counted. -/
theorem Overfull.exists_copied {n : Int} (h : 0 ≤ n) (ho : Overfull f n) :
    ∃ c ∈ (getProducts (some f) n).copied, ¬(c.1 : Int) < n := by
  rw [Overfull] at ho
  have hlt : n.toNat < ((f.later.takeWhile acceptable).take (n.toNat + 1)).length := by
    rw [List.length_take]
    omega
  rw [copied_eq h]
  refine ⟨_, List.mem_map_of_mem (List.getElem_mem (by rw [List.length_zipIdx]; exact hlt)), ?_⟩
  rw [List.getElem_zipIdx]
  omega

theorem StaysInBounds.not_overfull {n : Int} (h : 0 ≤ n) (hs : StaysInBounds f n) :
    ¬Overfull f n := by
  intro ho
  obtain ⟨c, hc, hn⟩ := ho.exists_copied h
  exact hn (hs.1 c hc).1

/-- The number of names is the number of lines behind the first unless that one is
split. -/
theorem length_lines {n : Int} (hne : f.chars ≠ [])
    (hnames : ∀ line ∈ f.later, acceptable line = true) (hcount : f.later.length = n) :
    (lines '\n' f.chars).tail.length = n ↔ ¬SplitNumber f n := by
  have hreads := f.reads_spec
  rw [TextFile.reads_eq hne] at hreads
  have hshort : ∀ line ∈ f.later, line.length < maxLine - 1 := by
    intro line hmem
    have hlen : line.length ≤ 17 := (acceptable_iff.mp (hnames line hmem)).1
    show line.length < 49
    omega
  constructor
  · intro htail hs
    have hlen := hreads.lines_tail_of_full (by decide) hs.unended hs.later hshort
    omega
  · intro hs
    rw [hreads.lines_tail _ hshort, List.length_map, hcount]
    by_contra hor
    rw [not_or] at hor
    exact hs ⟨hor.1, hor.2, hnames, hcount⟩

/-- **The bounds are kept** for the number in the file if and only if there are
not more acceptable lines than that, and no split first line makes up for a name. -/
theorem staysInBounds_iff {n : Int} {text : List Char}
    (hn : getNumProducts (some f) = .ok (n, text)) (h : 0 ≤ n) :
    StaysInBounds f n ↔ ¬Overfull f n ∧ ¬SplitNumber f n := by
  have hne : f.chars ≠ [] := by
    intro hnil
    have hreads : f.reads = [] := f.reads_spec.eq_nil_iff.mpr hnil
    simp only [getNumProducts, hreads] at hn
    cases hn
  constructor
  · intro hs
    refine ⟨hs.not_overfull h, fun hsplit => ?_⟩
    -- 0 is returned although a name is missing
    have hret := (ret_eq_zero_iff h).mpr ⟨hsplit.names, hsplit.count⟩
    have htail := (not_congr (length_lines hne hsplit.names hsplit.count)).mpr (not_not.mpr hsplit)
    rw [hs.2 htail] at hret
    cases hret
  · rintro ⟨hover, hsplit⟩
    constructor
    · intro c hc
      obtain ⟨hi, hlen⟩ := mem_copied h hc
      rw [Overfull] at hover
      exact ⟨by omega, hlen⟩
    · intro htail
      refine getProductsLoop_ret_eq_one fun hret => ?_
      obtain ⟨hnames, hcount⟩ := (ret_eq_zero_iff h).mp hret
      exact htail ((length_lines hne hnames hcount).mpr hsplit)

/-- The file of tests/E2E/too_many_prods. -/
def tooManyProducts : TextFile where
  chars := "1\nGPU\nRouter\nHamburger".toList
  nul_free := by decide

/-- The second name is written behind the end of the array. -/
theorem not_staysInBounds : getNumProducts (some tooManyProducts) = .ok (1, []) ∧
    ¬StaysInBounds tooManyProducts 1 := by
  refine ⟨by rfl, fun h => h.not_overfull (by decide) ?_⟩
  unfold Overfull
  decide

/-- The bounds are kept in a file with as many names as it announces. -/
theorem staysInBounds_test : getNumProducts (some testProductFile) = .ok (2, []) ∧ (0 : Int) ≤ 2 ∧
    StaysInBounds testProductFile 2 := by
  have hn : getNumProducts (some testProductFile) = .ok (2, []) := by rfl
  refine ⟨hn, by decide, (staysInBounds_iff hn (by decide)).mpr ⟨?_, fun h => ?_⟩⟩
  · unfold Overfull
    decide
  · exact absurd h.unended (by decide)

/-! ## The names that trading starts with -/

/-- **What is read is a product list**: its names are alphanumeric and fit. -/
theorem exists_validProducts {m : Int} {valid : Nat → List Char}
    (h : readProducts (some f) = .ok (some (m, valid))) :
    ∃ vp : ValidProducts m.toNat, ∀ i, vp.name i = valid i := by
  have hne : f.chars ≠ [] := by
    intro hnil
    rw [readProducts_empty hnil] at h
    cases h
  by_cases hp : Passes f
  · rw [readProducts_of_passes hne hp] at h
    obtain ⟨rfl, rfl⟩ := Prod.mk.inj (Option.some.inj (Except.ok.inj h))
    have hname : ∀ i : Fin (atoi f.first).toNat, ∃ line, acceptable line = true ∧
        validProducts (copies 0 f.later) i = line.dropLast := by
      intro i
      have hi : i < f.later.length := by rw [hp.count]; exact i.isLt
      exact ⟨_, hp.names _ (List.getElem_mem hi), validProducts_copies hi⟩
    refine ⟨⟨fun i => validProducts (copies 0 f.later) i, fun i => ?_, fun i => ?_⟩, fun _ => rfl⟩
    · obtain ⟨line, hline, heq⟩ := hname i
      rw [heq]
      exact List.all_eq_true.mp (acceptable_iff.mp hline).2
    · obtain ⟨line, hline, heq⟩ := hname i
      have hlen : line.length ≤ 17 := (acceptable_iff.mp hline).1
      rw [heq, List.length_dropLast]
      show line.length - 1 < 17
      omega
  · rw [readProducts_of_not_passes hne hp] at h
    cases h

end PeExchange
