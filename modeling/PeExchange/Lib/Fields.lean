import PeExchange.Lib.Scanf

/-!
# Fields of a scanned text

The declarative counterpart of a `sscanf` whose directives are `" %d"` and
`" %s"`: a text is cut into fields, each with the white space before it.

- `Reads ks cs fs rest`: conversions `ks` read the fields `fs` from `cs` and
  leave `rest`.
- `reads_of_sscanf` and `sscanf_of_reads`: a scan assigns all its values exactly
  when there are such fields, and the values are theirs.
- `Reads.unique`: a text is cut into fields in one way only.
- `sscanf_overflow_iff`: when a `%s` behind such conversions overflows.
-/

namespace CFormat

/-- A conversion with white space before it in the format. -/
inductive Conversion where
  | int
  | str (size : Nat)
deriving DecidableEq, Repr

def Conversion.directives : Conversion → List Directive
  | .int => [.space, .int true]
  | .str size => [.space, .str size]

/-- The format made of some conversions. -/
def fieldFormat (ks : List Conversion) : List Directive :=
  ks.flatMap Conversion.directives

/-- What a conversion reads. -/
inductive Field where
  | number (n : Numeral)
  | word (w : List Char)

def Field.text : Field → List Char
  | .number n => n.text
  | .word w => w

/-- The value a field is stored as. -/
def Field.arg : Field → Arg
  | .number n => .int n.value
  | .word w => .str w

/-- White space, or nothing. -/
def Blank (gap : List Char) : Prop :=
  ∀ c ∈ gap, isSpace c = true

/-- A word: at least one character, none of them white space. -/
def IsWord (w : List Char) : Prop :=
  w ≠ [] ∧ ∀ c ∈ w, isSpace c = false

theorem isWord_of_any {w : List Char} (hne : w ≠ []) (h : w.any isSpace = false) : IsWord w :=
  ⟨hne, fun c hc => by simpa using List.any_eq_false.mp h c hc⟩

/-- Conversions read fields from a text and leave a rest. A number ends where no
digit follows and a word at white space. -/
inductive Reads : List Conversion → List Char → List (List Char × Field) → List Char → Prop where
  | done {cs : List Char} : Reads [] cs [] cs
  | int {ks : List Conversion} {gap cs rest : List Char} {n : Numeral}
      {fs : List (List Char × Field)} (hgap : Blank gap) (hstop : Stops Char.isDigit cs)
      (h : Reads ks cs fs rest) :
      Reads (.int :: ks) (gap ++ (n.text ++ cs)) ((gap, .number n) :: fs) rest
  | str {ks : List Conversion} {size : Nat} {gap w cs rest : List Char}
      {fs : List (List Char × Field)} (hgap : Blank gap) (hw : IsWord w)
      (hsize : w.length < size) (hstop : Stops (fun c => !isSpace c) cs)
      (h : Reads ks cs fs rest) :
      Reads (.str size :: ks) (gap ++ (w ++ cs)) ((gap, .word w) :: fs) rest

variable {ks : List Conversion} {cs gap w rest rest' : List Char} {n : Numeral}
  {fs fs' : List (List Char × Field)} {fmt : List Directive} {args : List Arg}

/-! ## Cutting a text -/

theorem blank_takeWhile (cs : List Char) : Blank (cs.takeWhile isSpace) :=
  fun _ hc => List.mem_takeWhile_imp hc

theorem takeWhile_skipSpace (cs : List Char) : cs.takeWhile isSpace ++ skipSpace cs = cs :=
  List.takeWhile_append_dropWhile

theorem token_append_afterToken (cs : List Char) : token cs ++ afterToken cs = cs :=
  List.takeWhile_append_dropWhile

theorem not_space_of_mem_token {c : Char} (h : c ∈ token cs) : isSpace c = false := by
  simpa using List.mem_takeWhile_imp h

/-- A number does not begin with white space. -/
theorem stops_text (n : Numeral) (cs : List Char) : Stops isSpace (n.text ++ cs) := by
  obtain ⟨s, ds, hne, hd⟩ := n
  cases s with
  | plus =>
    rintro c ⟨⟩
    rfl
  | minus =>
    rintro c ⟨⟩
    rfl
  | none =>
    cases ds with
    | nil => exact absurd rfl hne
    | cons d ds =>
      rintro c ⟨⟩
      exact not_space_of_isDigit (hd d List.mem_cons_self)

theorem IsWord.stops (h : IsWord w) (cs : List Char) : Stops isSpace (w ++ cs) := by
  cases w with
  | nil => exact absurd rfl h.1
  | cons d w =>
    rintro c ⟨⟩
    exact h.2 d List.mem_cons_self

theorem skipSpace_append (hgap : Blank gap) (h : Stops isSpace cs) : skipSpace (gap ++ cs) = cs :=
  dropWhile_append_of_stops hgap h

theorem skipSpace_of_stops (h : Stops isSpace cs) : skipSpace cs = cs :=
  @skipSpace_append cs [] (fun _ hc => absurd hc List.not_mem_nil) h

theorem skipSpace_skipSpace (cs : List Char) : skipSpace (skipSpace cs) = skipSpace cs :=
  skipSpace_of_stops (stops_dropWhile isSpace cs)

theorem token_append (hw : IsWord w) (h : Stops (fun c => !isSpace c) cs) :
    token (w ++ cs) = w :=
  takeWhile_append_of_stops (fun c hc => by rw [hw.2 c hc]; rfl) h

theorem afterToken_append (hw : IsWord w) (h : Stops (fun c => !isSpace c) cs) :
    afterToken (w ++ cs) = cs :=
  dropWhile_append_of_stops (fun c hc => by rw [hw.2 c hc]; rfl) h

/-! ## Scanning one field -/

theorem sscanf_int (hgap : Blank gap) (hstop : Stops Char.isDigit rest) :
    sscanf (.space :: .int true :: fmt) (gap ++ (n.text ++ rest)) =
      (sscanf fmt rest).map (.int n.value :: ·) := by
  rw [sscanf_space, skipSpace_append hgap (stops_text n rest), sscanf,
    skipSpace_of_stops (stops_text n rest), scanNumeral_text n hstop]
  dsimp only
  cases sscanf fmt rest <;> rfl

theorem sscanf_str {size : Nat} (hgap : Blank gap) (hw : IsWord w) (hsize : w.length < size)
    (hstop : Stops (fun c => !isSpace c) rest) :
    sscanf (.space :: .str size :: fmt) (gap ++ (w ++ rest)) =
      (sscanf fmt rest).map (.str w :: ·) := by
  rw [sscanf_space, skipSpace_append hgap (hw.stops rest), sscanf,
    skipSpace_of_stops (hw.stops rest), token_append hw hstop, afterToken_append hw hstop,
    if_neg hw.1, if_neg (by omega)]
  cases sscanf fmt rest <;> rfl

/-- `%s` with nothing before it. -/
theorem sscanf_word {size : Nat} (hw : IsWord w) (hsize : w.length < size)
    (hstop : Stops (fun c => !isSpace c) rest) :
    sscanf (.str size :: fmt) (w ++ rest) = (sscanf fmt rest).map (.str w :: ·) := by
  rw [sscanf, skipSpace_of_stops (hw.stops rest), token_append hw hstop,
    afterToken_append hw hstop, if_neg hw.1, if_neg (by omega)]
  cases sscanf fmt rest <;> rfl

/-- `%*s` skips a word. -/
theorem sscanf_skipStr (hw : IsWord w) (hstop : Stops (fun c => !isSpace c) rest) :
    sscanf (.skipStr :: fmt) (w ++ rest) = sscanf fmt rest := by
  rw [sscanf, skipSpace_of_stops (hw.stops rest), token_append hw hstop,
    afterToken_append hw hstop, if_neg hw.1]

/-- `%d` stops the scan or reads a number. -/
theorem sscanf_int_cases (fmt : List Directive) (cs : List Char) :
    sscanf (.space :: .int true :: fmt) cs = .ok [] ∨
      ∃ (gap : List Char) (n : Numeral) (rest : List Char),
        cs = gap ++ (n.text ++ rest) ∧ Blank gap ∧ Stops Char.isDigit rest := by
  cases hn : scanNumeral (skipSpace cs) with
  | none =>
    refine .inl ?_
    rw [sscanf_space, sscanf, skipSpace_skipSpace, hn]
  | some r =>
    obtain ⟨htext, hstop⟩ := scanNumeral_some hn
    exact .inr ⟨cs.takeWhile isSpace, r.1, r.2, by rw [← htext, takeWhile_skipSpace],
      blank_takeWhile cs, hstop⟩

/-- `%s` stops the scan, overflows or reads a word. -/
theorem sscanf_str_cases (size : Nat) (fmt : List Directive) (cs : List Char) :
    sscanf (.space :: .str size :: fmt) cs = .ok [] ∨
      (size ≤ (token (skipSpace cs)).length ∧
        sscanf (.space :: .str size :: fmt) cs = .error ⟨size⟩) ∨
      ∃ gap w rest, cs = gap ++ (w ++ rest) ∧ Blank gap ∧ IsWord w ∧ w.length < size ∧
        Stops (fun c => !isSpace c) rest := by
  rw [sscanf_space, sscanf, skipSpace_skipSpace]
  by_cases ht : token (skipSpace cs) = []
  · exact .inl (if_pos ht)
  rw [if_neg ht]
  by_cases hsize : size < (token (skipSpace cs)).length + 1
  · exact .inr (.inl ⟨Nat.le_of_lt_succ hsize, if_pos hsize⟩)
  · exact .inr (.inr ⟨cs.takeWhile isSpace, token (skipSpace cs), afterToken (skipSpace cs),
      by rw [token_append_afterToken, takeWhile_skipSpace], blank_takeWhile cs,
      ⟨ht, fun c hc => not_space_of_mem_token hc⟩, by omega, stops_dropWhile _ _⟩)

theorem map_eq_ok {ε α β : Type} {x : Except ε α} {f : α → β} {b : β} (h : x.map f = .ok b) :
    ∃ a, x = .ok a ∧ f a = b := by
  cases x with
  | error e => cases h
  | ok a => exact ⟨a, rfl, Except.ok.inj h⟩

theorem map_eq_error {ε α β : Type} {x : Except ε α} {f : α → β} {e : ε} :
    x.map f = .error e ↔ x = .error e := by
  cases x with
  | error e' =>
    exact ⟨fun h => congrArg _ (Except.error.inj h), fun h => congrArg _ (Except.error.inj h)⟩
  | ok a => exact ⟨nofun, nofun⟩

/-! ## Reading and scanning -/

/-- **Fields are scanned.** -/
theorem sscanf_of_reads (h : Reads ks cs fs rest) (fmt : List Directive) :
    sscanf (fieldFormat ks ++ fmt) cs =
      (sscanf fmt rest).map (fs.map (fun f => f.2.arg) ++ ·) := by
  induction h with
  | @done cs =>
    show sscanf fmt cs = _
    cases sscanf fmt cs <;> rfl
  | @int ks gap cs rest n fs hgap hstop _ ih =>
    show sscanf (.space :: .int true :: (fieldFormat ks ++ fmt)) _ = _
    rw [sscanf_int hgap hstop, ih]
    cases sscanf fmt rest <;> rfl
  | @str ks size gap w cs rest fs hgap hw hsize hstop _ ih =>
    show sscanf (.space :: .str size :: (fieldFormat ks ++ fmt)) _ = _
    rw [sscanf_str hgap hw hsize hstop, ih]
    cases sscanf fmt rest <;> rfl

/-- **What was scanned were fields**, when every conversion assigned a value and
the rest of the format none. -/
theorem reads_of_sscanf (h : sscanf (fieldFormat ks ++ fmt) cs = .ok args)
    (hlen : args.length = ks.length) :
    ∃ fs rest, Reads ks cs fs rest ∧ args = fs.map fun f => f.2.arg := by
  induction ks generalizing cs args with
  | nil =>
    obtain rfl := List.eq_nil_of_length_eq_zero hlen
    exact ⟨[], cs, .done, rfl⟩
  | cons k ks ih =>
    -- a scan that stops here assigns too few values
    have hne : sscanf (fieldFormat (k :: ks) ++ fmt) cs ≠ .ok [] := by
      rintro hnil
      rw [hnil] at h
      cases h
      cases hlen
    cases k with
    | int =>
      rcases sscanf_int_cases (fieldFormat ks ++ fmt) cs with
        hnil | ⟨gap, n, rest, rfl, hgap, hstop⟩
      · exact absurd hnil hne
      · obtain ⟨args', hrest, rfl⟩ := map_eq_ok ((sscanf_int hgap hstop).symm.trans h)
        obtain ⟨fs, rest', hfs, rfl⟩ := ih hrest (Nat.succ.inj hlen)
        exact ⟨_, rest', .int hgap hstop hfs, rfl⟩
    | str size =>
      rcases sscanf_str_cases size (fieldFormat ks ++ fmt) cs with
        hnil | ⟨-, herr⟩ | ⟨gap, w, rest, rfl, hgap, hw, hsize, hstop⟩
      · exact absurd hnil hne
      · cases herr.symm.trans h
      · obtain ⟨args', hrest, rfl⟩ := map_eq_ok ((sscanf_str hgap hw hsize hstop).symm.trans h)
        obtain ⟨fs, rest', hfs, rfl⟩ := ih hrest (Nat.succ.inj hlen)
        exact ⟨_, rest', .str hgap hw hsize hstop hfs, rfl⟩

theorem Reads.length_eq (h : Reads ks cs fs rest) : fs.length = ks.length := by
  induction h with
  | done => rfl
  | int _ _ _ ih => exact congrArg Nat.succ ih
  | str _ _ _ _ _ ih => exact congrArg Nat.succ ih

/-- **All conversions assign a value exactly when there are fields to read.** -/
theorem sscanf_fields_iff (hfmt : ∀ cs, sscanf fmt cs = .ok []) :
    sscanf (fieldFormat ks ++ fmt) cs = .ok args ∧ args.length = ks.length ↔
      ∃ fs rest, Reads ks cs fs rest ∧ args = fs.map fun f => f.2.arg := by
  constructor
  · rintro ⟨h, hlen⟩
    exact reads_of_sscanf h hlen
  · rintro ⟨fs, rest, hfs, rfl⟩
    refine ⟨?_, (List.length_map _).trans hfs.length_eq⟩
    rw [sscanf_of_reads hfs, hfmt]
    exact congrArg Except.ok (List.append_nil _)

/-- **An overflow is a long word.** Behind numbers, `%s` overflows exactly when
the word it finds leaves no room for the terminator. -/
theorem sscanf_overflow_iff {size : Nat} (hks : ∀ k ∈ ks, k = .int) (hsize : 0 < size)
    (hfmt : ∀ d ∈ fmt, ∀ size, d ≠ .str size) :
    (∃ e, sscanf (fieldFormat ks ++ .space :: .str size :: fmt) cs = .error e) ↔
      ∃ fs rest, Reads ks cs fs rest ∧ size ≤ (token (skipSpace rest)).length := by
  constructor
  · rintro ⟨e, h⟩
    induction ks generalizing cs with
    | nil =>
      rcases sscanf_str_cases size fmt cs with
        hnil | ⟨hlong, -⟩ | ⟨gap, w, rest, rfl, hgap, hw, hlt, hstop⟩
      · cases hnil.symm.trans h
      · exact ⟨[], cs, .done, hlong⟩
      · -- a word that fits: nothing behind it can overflow
        obtain ⟨args, hargs⟩ := sscanf_ok hfmt rest
        have herr := map_eq_error.mp ((sscanf_str hgap hw hlt hstop).symm.trans h)
        cases hargs.symm.trans herr
    | cons k ks ih =>
      -- a number before the word: the overflow is behind it
      obtain rfl := hks k List.mem_cons_self
      rcases sscanf_int_cases (fieldFormat ks ++ .space :: .str size :: fmt) cs with
        hnil | ⟨gap, n, rest, rfl, hgap, hstop⟩
      · cases hnil.symm.trans h
      · have herr := map_eq_error.mp ((sscanf_int hgap hstop).symm.trans h)
        obtain ⟨fs, rest', hfs, hlong⟩ :=
          ih (fun k' hk' => hks k' (List.mem_cons_of_mem _ hk')) herr
        exact ⟨_, rest', .int hgap hstop hfs, hlong⟩
  · rintro ⟨fs, rest, hfs, hlong⟩
    refine ⟨⟨size⟩, ?_⟩
    rw [sscanf_of_reads hfs, map_eq_error, sscanf_space, sscanf, skipSpace_skipSpace, if_neg,
      if_pos (by omega)]
    intro hnil
    rw [hnil] at hlong
    exact absurd hlong (Nat.not_le.mpr hsize)

/-! ## Uniqueness -/

/-- A number that stands at the front is the one that is read. -/
theorem Reads.of_int (hgap : Blank gap) (hstop : Stops Char.isDigit cs)
    (h : Reads (.int :: ks) (gap ++ (n.text ++ cs)) fs rest) :
    ∃ fs', fs = (gap, .number n) :: fs' ∧ Reads ks cs fs' rest := by
  generalize htext : gap ++ (n.text ++ cs) = text at h
  cases h with
  | @int _ gap' cs' _ n' fs' hgap' hstop' h =>
    -- both gaps are the longest blank prefix, then both numbers the longest numeral
    obtain ⟨rfl, heq⟩ := append_inj_of_stops hgap (stops_text n cs) hgap' (stops_text n' cs') htext
    have hscan := scanNumeral_text n hstop
    rw [heq, scanNumeral_text n' hstop'] at hscan
    obtain ⟨rfl, rfl⟩ := Prod.mk.inj (Option.some.inj hscan)
    exact ⟨fs', rfl, h⟩

/-- A word that stands at the front is the one that is read. -/
theorem Reads.of_str {size : Nat} (hgap : Blank gap) (hw : IsWord w)
    (hstop : Stops (fun c => !isSpace c) cs)
    (h : Reads (.str size :: ks) (gap ++ (w ++ cs)) fs rest) :
    ∃ fs', fs = (gap, .word w) :: fs' ∧ Reads ks cs fs' rest := by
  generalize htext : gap ++ (w ++ cs) = text at h
  cases h with
  | @str _ _ gap' w' cs' _ fs' hgap' hw' hsize' hstop' h =>
    obtain ⟨rfl, heq⟩ := append_inj_of_stops hgap (hw.stops cs) hgap' (hw'.stops cs') htext
    obtain ⟨rfl, rfl⟩ := append_inj_of_stops (fun c hc => by rw [hw.2 c hc]; rfl) hstop
      (fun c hc => by rw [hw'.2 c hc]; rfl) hstop' heq
    exact ⟨fs', rfl, h⟩

/-- **A text is cut into fields in one way.** Gaps, numbers and words are each
the longest possible. -/
theorem Reads.unique (h : Reads ks cs fs rest) (h' : Reads ks cs fs' rest') :
    fs = fs' ∧ rest = rest' := by
  induction h generalizing fs' with
  | done =>
    cases h'
    exact ⟨rfl, rfl⟩
  | int hgap hstop _ ih =>
    obtain ⟨fs₁, rfl, h₁⟩ := h'.of_int hgap hstop
    obtain ⟨rfl, rfl⟩ := ih h₁
    exact ⟨rfl, rfl⟩
  | str hgap hw hsize hstop _ ih =>
    obtain ⟨fs₁, rfl, h₁⟩ := h'.of_str hgap hw hstop
    obtain ⟨rfl, rfl⟩ := ih h₁
    exact ⟨rfl, rfl⟩

end CFormat
