import PeExchange.Theory.Parsing

/-!
# Well-formed commands

The commands as they are meant to be written, `WellFormedCommand`, and the exact
messages on which `parse_msg` decides otherwise.

A well-formed command has a plain form (one space before each field, numbers
without sign and in range, `;` right behind the last field) whose values fit the
state, and that form is accepted, with one exception: `get_products` takes an
empty line for a product name, and no order names such a product
(`Nameless.not_of`). Conversely the accepted forms need not be plain.
-/

namespace PeExchange

open CFormat LinkedList

variable {P T : Nat}

/-! ## The grammar -/

/-- A string of decimal digits and its value. -/
structure IsDecimal (w : List Char) (n : Int) : Prop where
  nonempty : w ≠ []
  digits : ∀ c ∈ w, c.isDigit = true
  value : (Nat.ofDigitChars 10 w 0 : Int) = n

namespace Exchange

/-- The text of a new order for product `i` that the exchange should take. -/
inductive NewOrderText (vp : ValidProducts P) (s : Exchange P T) (ind : Fin T) (i : Fin P) :
    List Char → Prop where
  | mk {v : Verb} {wid wq wp : List Char} {id q p : Int} (hv : v.IsNew)
      (hid : IsDecimal wid id) (hq : IsDecimal wq q) (hp : IsDecimal wp p)
      (hidle : IdInLimits id) (hqle : InLimits q) (hple : InLimits p)
      (hnext : id = (s.traders ind).orderID) :
      NewOrderText vp s ind i (v.word ++ ' ' :: (wid ++ ' ' :: (vp.name i ++ ' ' ::
        (wq ++ ' ' :: (wp ++ [';'])))))

/-- The well-formed commands of a trader. -/
inductive WellFormedCommand (vp : ValidProducts P) (s : Exchange P T) (ind : Fin T) :
    List Char → Prop where
  | new {i : Fin P} {msg : List Char} (h : s.NewOrderText vp ind i msg) :
      WellFormedCommand vp s ind msg
  | amend {wid wq wp : List Char} {id q p : Int}
      (hid : IsDecimal wid id) (hq : IsDecimal wq q) (hp : IsDecimal wp p)
      (hidle : IdInLimits id) (hqle : InLimits q) (hple : InLimits p) (hrests : s.Rests ind id) :
      WellFormedCommand vp s ind (Verb.amend.word ++ ' ' :: (wid ++ ' ' ::
        (wq ++ ' ' :: (wp ++ [';']))))
  | cancel {wid : List Char} {id : Int} (hid : IsDecimal wid id) (hidle : IdInLimits id)
      (hrests : s.Rests ind id) :
      WellFormedCommand vp s ind (Verb.cancel.word ++ ' ' :: (wid ++ [';']))

/-- An order for a product whose name is empty. -/
def Nameless (vp : ValidProducts P) (s : Exchange P T) (ind : Fin T) (msg : List Char) : Prop :=
  ∃ i, vp.name i = [] ∧ s.NewOrderText vp ind i msg

end Exchange

/-- One space before the field, and a number without sign that is no larger than
any that is taken. -/
def PlainField : List Char × Field → Prop
  | (gap, .number n) => gap = [' '] ∧ n.sign = .none ∧ n.trueValue ≤ 999999
  | (gap, .word _) => gap = [' ']

/-- Fields are plain, and nothing but `;` follows them. -/
def Form.Plain (f : Form) : Prop :=
  (∀ g ∈ f.fields, PlainField g) ∧ f.tail = [';']

/-! ## Plain numbers -/

variable {w body : List Char} {n : Int}

/-- Digits as a numeral. -/
def IsDecimal.numeral (h : IsDecimal w n) : Numeral :=
  ⟨.none, w, h.nonempty, h.digits⟩

theorem IsDecimal.numeral_trueValue (h : IsDecimal w n) : h.numeral.trueValue = n := h.value

theorem IsDecimal.nonneg (h : IsDecimal w n) : 0 ≤ n := by
  rw [← h.value]
  exact Int.natCast_nonneg _

/-- A number in range is stored as it is. -/
theorem IsDecimal.numeral_value (h : IsDecimal w n) (hle : n ≤ 999999) : h.numeral.value = n := by
  have hnonneg := h.nonneg
  rw [Numeral.value_of_fits, h.numeral_trueValue]
  · rw [h.numeral_trueValue]
    omega
  · rw [h.numeral_trueValue]
    omega

/-- A plain number is a string of digits. -/
theorem isDecimal_of_plain {m : Numeral} (hsign : m.sign = .none) (hle : m.trueValue ≤ 999999) :
    IsDecimal m.text m.value := by
  obtain ⟨sign, ds, hne, hd⟩ := m
  subst hsign
  refine ⟨hne, hd, ?_⟩
  have hnonneg : (0 : Int) ≤ Nat.ofDigitChars 10 ds 0 := Int.natCast_nonneg _
  exact (Numeral.value_of_fits (by show _ ≤ (Nat.ofDigitChars 10 ds 0 : Int); omega)
    (le_trans hle (by omega))).symm

theorem IsDecimal.not_space (h : IsDecimal w n) : ∀ c ∈ w, isSpace c = false :=
  fun c hc => not_space_of_isDigit (h.digits c hc)

/-! ## Plain forms -/

variable {ks : List Conversion} {cs rest : List Char} {fs : List (List Char × Field)}

theorem blank_space : Blank [' '] := by
  intro c hc
  obtain rfl := List.mem_singleton.mp hc
  rfl

theorem IsDecimal.reads (h : IsDecimal w n) (hstop : Stops Char.isDigit cs)
    (hreads : Reads ks cs fs rest) :
    Reads (.int :: ks) (' ' :: (w ++ cs)) (([' '], .number h.numeral) :: fs) rest :=
  @Reads.int ks [' '] cs rest h.numeral fs blank_space hstop hreads

/-- Digits behind one space are what `%d` reads. -/
theorem IsDecimal.of_reads (h : IsDecimal w n) (hstop : Stops Char.isDigit cs)
    (hreads : Reads (.int :: ks) (' ' :: (w ++ cs)) fs rest) : ∃ fs', Reads ks cs fs' rest := by
  have hfront : Reads (.int :: ks) ([' '] ++ (h.numeral.text ++ cs)) fs rest := hreads
  obtain ⟨fs', -, hrest⟩ := hfront.of_int blank_space hstop
  exact ⟨fs', hrest⟩

theorem IsDecimal.plainField (h : IsDecimal w n) (hle : n ≤ 999999) :
    PlainField ([' '], .number h.numeral) :=
  ⟨rfl, rfl, h.numeral_trueValue.trans_le hle⟩

/-- A plain number that is read. -/
theorem exists_decimal (h : Reads (.int :: ks) body fs rest) (hplain : ∀ g ∈ fs, PlainField g) :
    ∃ w n cs fs', IsDecimal w n ∧ body = ' ' :: (w ++ cs) ∧
      (fs.map fun f => f.2.arg) = .int n :: (fs'.map fun f => f.2.arg) ∧
      Reads ks cs fs' rest ∧ ∀ g ∈ fs', PlainField g := by
  cases h with
  | @int _ gap cs _ m fs' hgap hstop h =>
    obtain ⟨rfl, hsign, hle⟩ := hplain _ List.mem_cons_self
    exact ⟨m.text, m.value, cs, fs', isDecimal_of_plain hsign hle, rfl, rfl, h,
      fun g hg => hplain g (List.mem_cons_of_mem _ hg)⟩

/-- A plain word that is read. -/
theorem exists_word {size : Nat} (h : Reads (.str size :: ks) body fs rest)
    (hplain : ∀ g ∈ fs, PlainField g) :
    ∃ w cs fs', body = ' ' :: (w ++ cs) ∧
      (fs.map fun f => f.2.arg) = .str w :: (fs'.map fun f => f.2.arg) ∧
      Reads ks cs fs' rest ∧ ∀ g ∈ fs', PlainField g := by
  cases h with
  | @str _ _ gap w cs _ fs' hgap hw hsize hstop h =>
    obtain rfl := hplain _ List.mem_cons_self
    exact ⟨w, cs, fs', rfl, rfl, h, fun g hg => hplain g (List.mem_cons_of_mem _ hg)⟩

theorem spaceCount_append (a b : List Char) : spaceCount (a ++ b) = spaceCount a + spaceCount b :=
  List.count_append

theorem spaceCount_space (a : List Char) : spaceCount (' ' :: a) = spaceCount a + 1 :=
  List.count_cons_self

theorem spaceCount_eq_zero (h : ∀ c ∈ w, isSpace c = false) : spaceCount w = 0 := by
  refine List.count_eq_zero.mpr fun hmem => ?_
  cases h ' ' hmem

/-! ## Forms are unique -/

theorem Verb.word_inj {v v' : Verb} {b b' : List Char} (h : v.word ++ b = v'.word ++ b') :
    v = v' := by
  have hhead : v.word.head? = v'.word.head? := by
    have hcons : ∀ (v : Verb) (b : List Char), (v.word ++ b).head? = v.word.head? := by
      intro v b
      cases v <;> rfl
    rw [← hcons v b, h, hcons]
  revert hhead
  cases v <;> cases v' <;> decide

/-- **A message has at most one form.** -/
theorem Form.Of.unique {msg : List Char} {f g : Form} (hf : f.Of msg) (hg : g.Of msg) : f = g := by
  obtain ⟨v, fs, tail⟩ := f
  obtain ⟨v', gs, tail'⟩ := g
  obtain ⟨-, body, rfl, -, hreads⟩ := hf
  obtain ⟨-, body', heq, -, hreads'⟩ := hg
  obtain rfl : v = v' := Verb.word_inj heq
  obtain rfl := List.append_cancel_left heq
  obtain ⟨rfl, rfl⟩ := hreads.unique hreads'
  rfl

namespace Exchange

variable {A : Arith} {vp : ValidProducts P} {s : Exchange P T} {ind : Fin T} {i : Fin P}
  {msg : List Char}

/-- A well-formed new order has a plain form, unless its product has no name. -/
theorem NewOrderText.form (h : s.NewOrderText vp ind i msg) (hne : vp.name i ≠ []) :
    ∃ f : Form, f.Of msg ∧ s.Takes vp ind f.verb f.values ∧ f.Plain := by
  obtain @⟨v, wid, wq, wp, id, q, p, hv, hid, hq, hp, hidle, hqle, hple, hnext⟩ := h
  have hname : ∀ c ∈ vp.name i, isSpace c = false :=
    fun c hc => not_space_of_isAlphanum (vp.alnum i c hc)
  refine ⟨⟨v, [([' '], .number hid.numeral), ([' '], .word (vp.name i)),
    ([' '], .number hq.numeral), ([' '], .number hp.numeral)], [';']⟩, ⟨?_, _, rfl, ?_, ?_⟩, ?_, ?_⟩
  · -- one space before each field and none inside
    rw [Verb.conversions_of_isNew hv]
    simp only [spaceCount_append, spaceCount_space, spaceCount_eq_zero v.isWord.2,
      spaceCount_eq_zero hid.not_space, spaceCount_eq_zero hname, spaceCount_eq_zero hq.not_space,
      spaceCount_eq_zero hp.not_space]
    rfl
  · exact fun _ => stops_cons rfl _
  · rw [Verb.conversions_of_isNew hv]
    exact hid.reads (stops_cons rfl _) (.str blank_space ⟨hne, hname⟩ (vp.fits i)
      (stops_cons rfl _) (hq.reads (stops_cons rfl _) (hp.reads (stops_cons rfl _) .done)))
  · -- values in range are stored as they are
    show s.Takes vp ind v [.int hid.numeral.value, .str (vp.name i), .int hq.numeral.value,
      .int hp.numeral.value]
    rw [hid.numeral_value hidle.2, hq.numeral_value hqle.2, hp.numeral_value hple.2, takes_new hv]
    exact ⟨⟨i, rfl⟩, hqle, ⟨hnext, hidle⟩, hple⟩
  · refine ⟨?_, rfl⟩
    simp only [List.forall_mem_cons]
    exact ⟨hid.plainField hidle.2, rfl, hq.plainField hqle.2, hp.plainField hple.2, nofun⟩

/-- A well-formed command has a plain form or names a product without name. -/
theorem WellFormedCommand.form (h : s.WellFormedCommand vp ind msg) :
    (∃ f : Form, f.Of msg ∧ s.Takes vp ind f.verb f.values ∧ f.Plain) ∨
      s.Nameless vp ind msg := by
  cases h with
  | @new i _ h =>
    by_cases hne : vp.name i = []
    · exact .inr ⟨i, hne, h⟩
    · exact .inl (h.form hne)
  | @amend wid wq wp id q p hid hq hp hidle hqle hple hrests =>
    refine .inl ⟨⟨.amend, [([' '], .number hid.numeral), ([' '], .number hq.numeral),
      ([' '], .number hp.numeral)], [';']⟩, ⟨?_, _, rfl, nofun, ?_⟩, ?_, ?_, rfl⟩
    · simp only [spaceCount_append, spaceCount_space, spaceCount_eq_zero Verb.amend.isWord.2,
        spaceCount_eq_zero hid.not_space, spaceCount_eq_zero hq.not_space,
        spaceCount_eq_zero hp.not_space]
      rfl
    · exact hid.reads (stops_cons rfl _) (hq.reads (stops_cons rfl _)
        (hp.reads (stops_cons rfl _) .done))
    · show s.Takes vp ind .amend [.int hid.numeral.value, .int hq.numeral.value,
        .int hp.numeral.value]
      rw [hid.numeral_value hidle.2, hq.numeral_value hqle.2, hp.numeral_value hple.2]
      exact ⟨hqle, hple, hidle, hrests⟩
    · simp only [List.forall_mem_cons]
      exact ⟨hid.plainField hidle.2, hq.plainField hqle.2, hp.plainField hple.2, nofun⟩
  | @cancel wid id hid hidle hrests =>
    refine .inl ⟨⟨.cancel, [([' '], .number hid.numeral)], [';']⟩, ⟨?_, _, rfl, nofun, ?_⟩, ?_, ?_,
      rfl⟩
    · simp only [spaceCount_append, spaceCount_space, spaceCount_eq_zero Verb.cancel.isWord.2,
        spaceCount_eq_zero hid.not_space]
      rfl
    · exact hid.reads (stops_cons rfl _) .done
    · show s.Takes vp ind .cancel [.int hid.numeral.value]
      rw [hid.numeral_value hidle.2]
      exact ⟨hidle, hrests⟩
    · simp only [List.forall_mem_cons]
      exact ⟨hid.plainField hidle.2, nofun⟩

/-- A plain form whose values are taken is a well-formed command. -/
theorem wellFormed_of_form {f : Form} (hf : f.Of msg) (ht : s.Takes vp ind f.verb f.values)
    (hplain : f.Plain) : s.WellFormedCommand vp ind msg := by
  obtain ⟨v, fs, tail⟩ := f
  obtain ⟨-, body, rfl, -, hreads⟩ := hf
  obtain ⟨hfields, rfl⟩ := hplain
  dsimp only [Form.values] at ht hreads hfields
  -- the fields are read off one after the other
  by_cases hv : v.IsNew
  · rw [Verb.conversions_of_isNew hv] at hreads
    obtain ⟨wid, id, cs₁, fs₁, hid, rfl, h₁, hreads, hfields⟩ := exists_decimal hreads hfields
    obtain ⟨name, cs₂, fs₂, rfl, h₂, hreads, hfields⟩ := exists_word hreads hfields
    obtain ⟨wq, q, cs₃, fs₃, hq, rfl, h₃, hreads, hfields⟩ := exists_decimal hreads hfields
    obtain ⟨wp, p, cs₄, fs₄, hp, rfl, h₄, hreads, -⟩ := exists_decimal hreads hfields
    cases hreads
    rw [h₁, h₂, h₃, h₄] at ht
    obtain ⟨⟨i, rfl⟩, hqle, ⟨hnext, hidle⟩, hple⟩ := (takes_new hv).mp ht
    exact .new (.mk hv hid hq hp hidle hqle hple hnext)
  · cases v with
    | buy => exact absurd trivial hv
    | sell => exact absurd trivial hv
    | amend =>
      obtain ⟨wid, id, cs₁, fs₁, hid, rfl, h₁, hreads, hfields⟩ := exists_decimal hreads hfields
      obtain ⟨wq, q, cs₂, fs₂, hq, rfl, h₂, hreads, hfields⟩ := exists_decimal hreads hfields
      obtain ⟨wp, p, cs₃, fs₃, hp, rfl, h₃, hreads, -⟩ := exists_decimal hreads hfields
      cases hreads
      rw [h₁, h₂, h₃] at ht
      obtain ⟨hqle, hple, hidle, hrests⟩ := ht
      exact .amend hid hq hp hidle hqle hple hrests
    | cancel =>
      obtain ⟨wid, id, cs₁, fs₁, hid, rfl, h₁, hreads, -⟩ := exists_decimal hreads hfields
      cases hreads
      rw [h₁] at ht
      obtain ⟨hidle, hrests⟩ := ht
      exact .cancel hid hidle hrests

/-! ## Orders for a product without name -/

/-- An order for a product without name has no form: the quantity is read as the
name and the price as the quantity. -/
theorem Nameless.not_of (h : s.Nameless vp ind msg) (f : Form) : ¬f.Of msg := by
  intro hf
  obtain ⟨i, hname, h⟩ := h
  obtain @⟨v, wid, wq, wp, id, q, p, hv, hid, hq, hp, -, -, -, -⟩ := h
  obtain ⟨v', fs, tail⟩ := f
  obtain ⟨-, body, heq, -, hreads⟩ := hf
  obtain rfl : v = v' := Verb.word_inj heq
  obtain rfl := List.append_cancel_left heq
  dsimp only at hreads
  rw [Verb.conversions_of_isNew hv, hname] at hreads
  obtain ⟨fs₁, h₁⟩ := hid.of_reads (stops_cons rfl _) hreads
  -- the two spaces around the empty name are one gap
  have hblank : Blank [' ', ' '] := by
    intro c hc
    rcases List.mem_pair.mp hc with rfl | rfl <;> rfl
  have hfront : Reads [.str maxProd, .int, .int] ([' ', ' '] ++ (wq ++ ' ' :: (wp ++ [';']))) fs₁
    tail := h₁
  obtain ⟨fs₂, -, h₂⟩ := hfront.of_str hblank ⟨hq.nonempty, hq.not_space⟩ (stops_cons rfl _)
  obtain ⟨fs₃, h₃⟩ := hp.of_reads (stops_cons rfl _) h₂
  -- nothing is left for the price
  have hlen := h₃.length_eq
  have hscan : sscanf (fieldFormat [.int] ++ []) [';'] = .ok [] := rfl
  rw [sscanf_of_reads h₃, sscanf_nil] at hscan
  have hnil : (fs₃.map fun f => f.2.arg) ++ [] = [] := Except.ok.inj hscan
  rw [List.append_nil, List.map_eq_nil_iff] at hnil
  rw [hnil] at hlen
  cases hlen

/-! ## The accepted commands -/

/-- `parse_msg` decides right: it has defined behaviour, and the answer is
something other than `INVALID` exactly when the command is well formed. -/
def DecidesRight (A : Arith) (vp : ValidProducts P) (s : Exchange P T) (msg : List Char)
    (ind : Fin T) : Prop :=
  ∃ s', s.parseMsg A vp msg ind = .ok s' ∧
    ((ind, Msg.invalid) ∉ messages (s.written s') ↔ s.WellFormedCommand vp ind msg)

/-- **The well-formed commands are the accepted ones exactly on the messages**
that have no overlong product name, are plain if they have a form whose values
are taken, and order no product without name. -/
theorem decidesRight_iff (hlen : msg.length ≤ 49) :
    s.DecidesRight A vp msg ind ↔
      ¬Overlong msg ∧ (∀ f : Form, f.Of msg → s.Takes vp ind f.verb f.values → f.Plain) ∧
        ¬s.Nameless vp ind msg := by
  have hlen' : msg.length < maxLine := Nat.lt_succ_of_le hlen
  constructor
  · rintro ⟨s', h, hiff⟩
    rw [not_invalid_iff h, accepted_iff hlen'] at hiff
    -- a form is unique, so the one that is accepted is the plain one of the command
    refine ⟨(parseMsg_ok_iff hlen').mp ⟨s', h⟩, ?_, ?_⟩
    · intro f hf ht
      rcases (hiff.mp ⟨f, hf, ht⟩).form with ⟨g, hg, -, hplain⟩ | hno
      · rwa [hf.unique hg]
      · exact absurd hf (hno.not_of f)
    · intro hno
      obtain ⟨i, -, hnew⟩ := id hno
      obtain ⟨f, hf, -⟩ := hiff.mpr (.new hnew)
      exact hno.not_of f hf
  · rintro ⟨hlong, hplain, hno⟩
    obtain ⟨s', h⟩ := (@parseMsg_ok_iff _ _ _ A vp s ind hlen').mpr hlong
    refine ⟨s', h, ?_⟩
    rw [not_invalid_iff h, accepted_iff hlen']
    constructor
    · rintro ⟨f, hf, ht⟩
      exact wellFormed_of_form hf ht (hplain f hf ht)
    · intro hwf
      rcases hwf.form with ⟨f, hf, ht, -⟩ | hnameless
      · exact ⟨f, hf, ht⟩
      · exact absurd hnameless hno

theorem decidesRight_iff_gpu :
    (initial : Exchange 2 3).DecidesRight .machine testProducts "BUY 0 GPU 30 40;".toList 1 ↔
      ¬Overlong "BUY 0 GPU 30 40;".toList ∧
        (∀ f : Form, f.Of "BUY 0 GPU 30 40;".toList →
          (initial : Exchange 2 3).Takes testProducts 1 f.verb f.values → f.Plain) ∧
        ¬(initial : Exchange 2 3).Nameless testProducts 1 "BUY 0 GPU 30 40;".toList :=
  decidesRight_iff (by decide)

theorem isDecimal_wrapped : IsDecimal "4294967297".toList 4294967297 :=
  ⟨by decide, List.all_eq_true.mp (by decide), by decide⟩

/-- An order of 4294967297 units is not well formed. -/
theorem not_wellFormed_wrapped (s : Exchange 2 3) (ind : Fin 3) :
    ¬s.WellFormedCommand testProducts ind "BUY 0 GPU 4294967297 20;".toList := by
  have h0 : IsDecimal "0".toList 0 :=
    ⟨by decide, List.all_eq_true.mp (by decide), by decide⟩
  have h20 : IsDecimal "20".toList 20 :=
    ⟨by decide, List.all_eq_true.mp (by decide), by decide⟩
  have hof : Form.Of ⟨.buy, [([' '], .number h0.numeral), ([' '], .word "GPU".toList),
      ([' '], .number isDecimal_wrapped.numeral), ([' '], .number h20.numeral)], [';']⟩
      "BUY 0 GPU 4294967297 20;".toList := by
    have hname : IsWord "GPU".toList := isWord_of_any nofun (by decide)
    have hfits : "GPU".toList.length < maxProd := by decide
    refine ⟨rfl, _, rfl, fun _ => stops_cons rfl _, ?_⟩
    exact h0.reads (stops_cons rfl _) (.str blank_space hname hfits (stops_cons rfl _)
      (isDecimal_wrapped.reads (stops_cons rfl _) (h20.reads (stops_cons rfl _) .done)))
  -- the only form of the message has a number out of range
  intro hwf
  rcases hwf.form with ⟨f, hf, -, hplain⟩ | ⟨i, hname, -⟩
  · rw [hf.unique hof] at hplain
    obtain ⟨-, -, hle⟩ := hplain.1 _ (List.mem_cons_of_mem _ (List.mem_cons_of_mem _
      List.mem_cons_self))
    rw [isDecimal_wrapped.numeral_trueValue] at hle
    omega
  · revert hname
    revert i
    decide

/-- 4294967297 units are read as 1 unit, and the order is accepted. -/
theorem not_decidesRight_wrapped :
    ∃ (s : Exchange 2 3) (msg : List Char), Reachable .machine testProducts s ∧
      msg.length ≤ 49 ∧ (∃ body, ';' ∉ body ∧ msg = body ++ [';']) ∧
      ¬s.DecidesRight .machine testProducts msg 1 := by
  refine ⟨initial, "BUY 0 GPU 4294967297 20;".toList, Transition.Reachable.init, by decide,
    ⟨"BUY 0 GPU 4294967297 20".toList, by decide, by decide⟩, ?_⟩
  rintro ⟨s', h, hiff⟩
  have hrun : okAnd ((initial : Exchange 2 3).parseMsg .machine testProducts
      "BUY 0 GPU 4294967297 20;".toList 1)
      (fun s' => decide ((1, Msg.invalid) ∉ messages (initial.written s'))) := by
    decide +kernel
  obtain ⟨s'', h', hno⟩ := exists_of_okAnd hrun
  obtain rfl := Except.ok.inj (h'.symm.trans h)
  exact not_wellFormed_wrapped _ _ (hiff.mp (of_decide_eq_true hno))

end Exchange

end PeExchange
