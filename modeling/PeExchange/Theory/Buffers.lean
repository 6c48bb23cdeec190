import PeExchange.Theory.Delivery
import PeExchange.Theory.Parsing

/-!
# What a trader can do to the buffers

Whatever a trader writes, and wherever signals interrupt, `process_msg` cuts the
bytes into pieces, each of which is stored in `msg` and executed.

- `received`: the ends of the calls of `process_msg`; what `deliveries` takes
  from them.
- `InBuffers`: a call stores nothing behind `msg` and leaves a string in it, and
  no `%s` of `parse_msg` stores behind its buffer.
- `Fitting`: the pieces of which that holds. Neither `process_msg` nor the `%s`
  for the product checks a length, so there are others.
-/

namespace PeExchange

open CFormat LinkedList Framing Exchange

variable {P T : Nat}

/-! ## Calls -/

/-- The end of a call, and those of the calls after it. -/
def Received.andThen (next : List ReadResult → List Received) : Received → List Received
  | .returned ret msg rest => .returned ret msg rest :: next rest
  | .blocked => [.blocked]
  | .overrun => [.overrun]

/-- The ends of at most `n` calls of `process_msg`. -/
def receivedWithin : Nat → List ReadResult → List Received
  | 0, _ => []
  | n + 1, reads => (processMsg reads).andThen (receivedWithin n)

/-- The ends of the calls of `process_msg`: each takes a read at least. -/
def received (reads : List ReadResult) : List Received :=
  receivedWithin reads.length reads

/-- What `main` has after a call. -/
def Received.delivery? : Received → Option Delivery
  | .returned ret msg _ => some ⟨cString msg, ret⟩
  | .blocked => none
  | .overrun => none

/-- The deliveries are those of the calls. -/
theorem deliveries_eq_filterMap (reads : List ReadResult) :
    deliveries reads = (received reads).filterMap Received.delivery? := by
  rw [deliveries, received]
  generalize reads.length = n
  induction n generalizing reads with
  | zero => rfl
  | succ n ih =>
    rw [deliveriesWithin, receivedWithin]
    cases processMsg reads with
    | returned ret msg rest => exact congrArg _ (ih rest)
    | blocked => rfl
    | overrun => rfl

/-! ## Buffers -/

section InBuffers

variable (A : Arith) (vp : ValidProducts P) (s : Exchange P T) (ind : Fin T)

/-- A `%s` of `parse_msg` stores behind its buffer. -/
def Overflows (msg : List Char) : Prop :=
  ∃ e, s.parseMsg A vp msg ind = .error (.overflow e)

/-- A call stores nothing behind `msg`, what it returns is a string, and executing
that stores nothing behind a buffer. -/
def Received.InBuffers : Received → Prop
  | .returned _ msg _ => '\x00' ∈ msg ∧ ¬Overflows A vp s ind (cString msg)
  | .blocked => True
  | .overrun => False

variable {A vp s ind} {msg : List Char}

theorem scan_of_not_tokensFit (h : ¬TokensFit msg) :
    ∃ e, scan orderFormat msg = .error (.overflow e) := by
  rw [TokensFit, scan] at h
  rw [scan]
  cases hs : sscanf orderFormat msg with
  | error e => exact ⟨e, rfl⟩
  | ok args =>
    rw [hs] at h
    exact absurd ⟨args, rfl⟩ h

theorem newOrderMsg_eq_error {x : Char} (hlen : (x :: msg).length < maxLine)
    (hx : isSpace x = false) (hscan : ScansOrder (x :: msg)) {e : Fault}
    (he : scan orderFormat (x :: msg) = .error e) :
    s.newOrderMsg vp (x :: msg) ind = .error e := by
  obtain ⟨hspace, hword⟩ := hscan
  have hcreate : ∀ t isBuy, createOrder vp (x :: msg) ind t isBuy = .error e := by
    intro t isBuy
    rw [createOrder, he]
    rfl
  rw [newOrderMsg, if_neg (not_not.mpr hspace), createBuySellOrder_eq vp hlen hx]
  by_cases hsell : token (x :: msg) = "SELL".toList
  · rw [if_pos hsell, hcreate]
    rfl
  · rw [if_neg hsell, if_pos (hword.resolve_left hsell), hcreate]
    rfl

/-- **`parse_msg` stores behind a buffer** exactly on messages with too long a
product name. -/
theorem overflows_iff (hlen : msg.length < maxLine) :
    Overflows A vp s ind msg ↔ Overlong msg := by
  constructor
  · rintro ⟨e, he⟩
    by_contra hlong
    obtain ⟨s', hs'⟩ := (parseMsg_ok_iff hlen).mpr hlong
    rw [hs'] at he
    cases he
  · intro hlong
    obtain ⟨hscan, hfit⟩ := overlong_iff.mp hlong
    obtain ⟨e, he⟩ := scan_of_not_tokensFit hfit
    obtain ⟨x, rest, rfl, hx, f, hf⟩ := parseMsg_of_overlong A vp s ind hlong
    refine ⟨e, ?_⟩
    rw [hf, newOrderMsg_eq_error hlen hx hscan he]
    rfl

/-! ## Pieces -/

/-- A piece that is stored in `msg`, with its terminator, and whose product name is
not too long. -/
structure Fitting (q : List Char) : Prop where
  stored : q.length ≤ maxLine
  ended : q.getLast? = some ';' → q.length < maxLine
  string : (cString q).length < maxLine
  product : ¬Overlong (cString q)

theorem nul_mem_buffer {p : List Char} (hp : p.length ≤ maxLine) :
    '\x00' ∈ buffer p ↔ (cString p).length < maxLine := by
  constructor
  · intro hmem
    have hne : cString (buffer p) ≠ buffer p := fun heq => cString_eq_self.mp heq hmem
    have hpre : cString (buffer p) <+: buffer p := List.takeWhile_prefix _
    have hle := hpre.length_le
    have hlt : (cString (buffer p)).length ≠ (buffer p).length :=
      fun heq => hne (hpre.eq_of_length heq)
    rw [buffer_length hp] at hle hlt
    rw [← cString_buffer p]
    omega
  · intro hlt
    by_contra hmem
    have heq := congrArg List.length (cString_eq_self.mpr hmem)
    rw [cString_buffer, buffer_length hp] at heq
    omega

/-- A piece that is stored and returned. -/
theorem inBuffers_returned {p : List Char} (hp : p.length ≤ maxLine) {ret : Nat}
    {rest : List ReadResult} :
    (Received.returned ret (buffer p) rest).InBuffers A vp s ind ↔
      (cString p).length < maxLine ∧ ¬Overlong (cString p) := by
  show '\x00' ∈ buffer p ∧ ¬Overflows A vp s ind (cString (buffer p)) ↔ _
  rw [nul_mem_buffer hp, cString_buffer]
  exact and_congr_right fun hlen => not_congr (overflows_iff hlen)

theorem fitting_of_not_mem {q : List Char} (hlen : q.length ≤ maxLine) (hq : ';' ∉ q) :
    Fitting q ↔ (cString q).length < maxLine ∧ ¬Overlong (cString q) :=
  ⟨fun h => ⟨h.string, h.product⟩,
    fun h => ⟨hlen, fun hend => absurd (List.mem_of_getLast? hend) hq, h.1, h.2⟩⟩

theorem fitting_of_lt {q : List Char} (hlen : q.length < maxLine) :
    Fitting q ↔ (cString q).length < maxLine ∧ ¬Overlong (cString q) :=
  ⟨fun h => ⟨h.string, h.product⟩, fun h => ⟨Nat.le_of_lt hlen, fun _ => hlen, h.1, h.2⟩⟩

/-- Behind a full buffer the next command is too long, or what is left over is. -/
theorem not_fitting_of_full {p : List Char} (hp : maxLine < p.length) (bs : List (Option Char)) :
    ¬((∀ q ∈ pieces ';' p bs, Fitting q) ∧ (held ';' p bs).length ≤ maxLine) := by
  rintro ⟨h, hheld⟩
  rcases length_le_of_held ';' p bs with ⟨q, hq, hle⟩ | hle
  · have hstored := (h q hq).stored
    omega
  · omega

/-- The calls from one that has read `p` stay in the buffers exactly when the
pieces from there on fit and what is left over is stored. The induction is on the
reads, as in `deliver_processMsgFrom`. -/
theorem andThen_iff {reads : List ReadResult} {p : List Char} {n : Nat}
    (hp : p.length ≤ maxLine) (hsemi : ';' ∉ p) (hn : reads.length ≤ n + 1) :
    (∀ r ∈ (processMsgFrom p.length (buffer p) reads).andThen (receivedWithin n),
        r.InBuffers A vp s ind) ↔
      (∀ q ∈ pieces ';' p (reads.map ReadResult.byte?), Fitting q) ∧
        (held ';' p (reads.map ReadResult.byte?)).length ≤ maxLine := by
  induction reads generalizing p n with
  | nil =>
    constructor
    · exact fun _ => ⟨nofun, hp⟩
    · intro _ r hr
      obtain rfl := List.mem_singleton.mp hr
      exact trivial
  | cons r reads ih =>
    -- the calls after one that returns
    have hnext : (∀ r ∈ receivedWithin n reads, r.InBuffers A vp s ind) ↔
        (∀ q ∈ pieces ';' [] (reads.map ReadResult.byte?), Fitting q) ∧
          (held ';' [] (reads.map ReadResult.byte?)).length ≤ maxLine := by
      cases n with
      | zero =>
        obtain rfl := List.eq_nil_of_length_eq_zero (Nat.le_zero.mp (Nat.le_of_succ_le_succ hn))
        exact ⟨fun _ => ⟨nofun, Nat.zero_le _⟩, fun _ => nofun⟩
      | succ m =>
        exact @ih [] m (Nat.zero_le _) List.not_mem_nil (Nat.le_of_succ_le_succ hn)
    have hreturned : ∀ ret,
        (∀ r ∈ Received.returned ret (buffer p) reads :: receivedWithin n reads,
          r.InBuffers A vp s ind) ↔
        (∀ q ∈ p :: pieces ';' [] (reads.map ReadResult.byte?), Fitting q) ∧
          (held ';' [] (reads.map ReadResult.byte?)).length ≤ maxLine := by
      intro ret
      rw [List.forall_mem_cons, List.forall_mem_cons, inBuffers_returned hp, hnext,
        fitting_of_not_mem hp hsemi, and_assoc (a := _ ∧ _)]
    cases r with
    | interrupted => exact hreturned _
    | failed => exact hreturned _
    | closed => exact hreturned _
    | byte c =>
      have hlen : (p ++ [c]).length = p.length + 1 := List.length_append
      rw [processMsgFrom, List.map_cons]
      show (∀ r ∈ (if c = ';' then _ else _ : Received).andThen _, _) ↔
        (∀ q ∈ pieces ';' p (some c :: _), _) ∧ (held ';' p (some c :: _)).length ≤ _
      rw [pieces, held, buffer_length hp, Nat.add_sub_cancel]
      by_cases hc : c = ';'
      · rw [if_pos hc, if_pos hc, if_pos hc]
        by_cases hmax : p.length + 1 < maxLine
        · -- the command is complete
          rw [if_pos hmax, buffer_set (by omega), ← hlen, buffer_set_nul]
          show (∀ r ∈ Received.returned _ _ _ :: _, _) ↔ _
          rw [List.forall_mem_cons, List.forall_mem_cons, inBuffers_returned (by omega), hnext,
            fitting_of_lt (by omega), and_assoc (a := _ ∧ _)]
        · rw [if_neg hmax]
          constructor
          · intro h
            exact (h .overrun List.mem_cons_self).elim
          · rintro ⟨h, -⟩
            have hend : (p ++ [c]).getLast? = some ';' := by rw [hc]; exact List.getLast?_concat
            have hlt := (h (p ++ [c]) List.mem_cons_self).ended hend
            omega
      · rw [if_neg hc, if_neg hc, if_neg hc]
        by_cases hmax : p.length < maxLine
        · rw [if_pos hmax, buffer_set hmax, ← hlen]
          refine ih (by omega) ?_ (Nat.le_of_succ_le hn)
          rw [List.mem_append, not_or]
          exact ⟨hsemi, fun hmem => hc (List.mem_singleton.mp hmem).symm⟩
        · -- the byte has no place, whatever follows
          rw [if_neg hmax]
          refine iff_of_false (fun h => (h .overrun List.mem_cons_self).elim) ?_
          exact not_fitting_of_full (by omega) _

end InBuffers

/-! ## Streams -/

/-- Every call of `process_msg` on what a trader writes, and every execution of
what it returns, stays in the buffers. -/
def StaysInBuffers (A : Arith) (vp : ValidProducts P) (s : Exchange P T) (ind : Fin T)
    (reads : List ReadResult) : Prop :=
  ∀ r ∈ received reads, r.InBuffers A vp s ind

/-- **The parser stays in its buffers** if and only if every piece of the stream
fits and no more bytes are left over than `msg` has. -/
theorem staysInBuffers_iff (A : Arith) (vp : ValidProducts P) (s : Exchange P T) (ind : Fin T)
    (reads : List ReadResult) : StaysInBuffers A vp s ind reads ↔
      (∀ q ∈ pieces ';' [] (reads.map ReadResult.byte?), Fitting q) ∧
        (held ';' [] (reads.map ReadResult.byte?)).length ≤ maxLine := by
  rw [StaysInBuffers, received]
  cases h : reads.length with
  | zero =>
    obtain rfl := List.eq_nil_of_length_eq_zero h
    exact ⟨fun _ => ⟨nofun, Nat.zero_le _⟩, fun _ => nofun⟩
  | succ n => exact @andThen_iff _ _ _ _ _ _ reads [] n (Nat.zero_le _) List.not_mem_nil h.le

/-- Bytes without end run over `msg`, and a name of 17 letters runs over
`product`. -/
theorem not_staysInBuffers :
    (¬StaysInBuffers .machine testProducts (initial : Exchange 2 1) 0
      (List.replicate 51 (.byte 'B'))) ∧
    ¬StaysInBuffers .machine testProducts (initial : Exchange 2 1) 0
      ("BUY 0 ABCDEFGHIJKLMNOPQ 1 1;".toList.map .byte) := by
  constructor
  · intro h
    exact h .overrun (by decide)
  · intro h
    -- what the call returns, and what is then executed
    have hcall := h (.returned 28 (buffer "BUY 0 ABCDEFGHIJKLMNOPQ 1 1;".toList) []) (by decide)
    have hlong : Overlong "BUY 0 ABCDEFGHIJKLMNOPQ 1 1;".toList := by
      refine overlong_iff.mpr ⟨⟨by decide, .inr (by decide)⟩, ?_⟩
      rintro ⟨args, hargs⟩
      have hscan : scan orderFormat "BUY 0 ABCDEFGHIJKLMNOPQ 1 1;".toList =
        .error (.overflow ⟨maxProd⟩) := by decide
      rw [hscan] at hargs
      cases hargs
    obtain ⟨-, hover⟩ := hcall
    rw [cString_buffer] at hover
    exact hover ((overflows_iff (by decide)).mpr hlong)

end PeExchange
