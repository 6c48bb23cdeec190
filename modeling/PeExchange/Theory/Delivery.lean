import PeExchange.Reader
import PeExchange.System
import PeExchange.Lib.Framing

/-!
# What is delivered of what was sent

`process_msg` refines the reader of `Lib/Framing` (`deliveriesWithin_eq`): as long as
commands fit its buffer, a call ends at a `;` or at an interruption, and `main`
executes what was read until then. So a trader's commands arrive as it sent them
exactly when no signal interrupts a `read`, no command contains a `NUL` (which
ends it as a string) and none is a lone `;` (whose length is the return value of
a read error).
-/

namespace PeExchange

open Framing

variable {P T : Nat} {p : List Char} {cs : List (List Char)} {reads : List ReadResult}

/-! ## The buffer -/

/-- `msg` when `p` was read into it. -/
def buffer (p : List Char) : List Char :=
  p ++ List.replicate (maxLine - p.length) '\x00'

theorem buffer_length (h : p.length ≤ maxLine) : (buffer p).length = maxLine := by
  rw [buffer, List.length_append, List.length_replicate]
  omega

/-- The next byte is stored behind what was read. -/
theorem buffer_set (h : p.length < maxLine) (c : Char) :
    (buffer p).set p.length c = buffer (p ++ [c]) := by
  obtain ⟨k, hk⟩ : ∃ k, maxLine - p.length = k + 1 := ⟨maxLine - p.length - 1, by omega⟩
  have hk' : maxLine - (p ++ [c]).length = k := by
    rw [List.length_append, List.length_singleton]
    omega
  rw [buffer, buffer, hk, hk', List.set_append_right _ _ (Nat.le_refl _), Nat.sub_self,
    List.replicate_succ, List.set_cons_zero, List.append_assoc, List.singleton_append]

/-- The buffer is zero already where `process_msg` stores a `NUL`. -/
theorem buffer_set_nul : (buffer p).set p.length '\x00' = buffer p := by
  cases hk : maxLine - p.length with
  | zero => rw [buffer, hk, List.replicate_zero, List.append_nil, List.set_eq_of_length_le le_rfl]
  | succ k =>
    rw [buffer, hk, List.set_append_right _ _ (Nat.le_refl _), Nat.sub_self,
      List.replicate_succ, List.set_cons_zero]

/-- What is still zero is not part of the string. -/
theorem cString_append_nuls (p : List Char) (k : Nat) :
    cString (p ++ List.replicate k '\x00') = cString p := by
  induction p with
  | nil =>
    cases k with
    | zero => rfl
    | succ k => simp [cString, List.replicate_succ]
  | cons c p ih =>
    by_cases hc : c = '\x00'
    · simp [cString, hc]
    · simpa [cString, hc] using ih

theorem cString_buffer (p : List Char) : cString (buffer p) = cString p :=
  cString_append_nuls p _

theorem cString_eq_self : cString p = p ↔ '\x00' ∉ p := by
  rw [cString, List.takeWhile_eq_self_iff]
  constructor
  · intro h hmem
    simpa using h _ hmem
  · intro h c hc
    have hne : c ≠ '\x00' := fun heq => h (heq ▸ hc)
    simpa using hne

theorem nul_not_mem_cString (msg : List Char) : '\x00' ∉ cString msg := by
  intro h
  simpa using List.mem_takeWhile_imp h

theorem map_cString_eq_self : cs.map cString = cs ↔ ∀ c ∈ cs, '\x00' ∉ c := by
  have h : cs.map cString = cs ↔ ∀ c ∈ cs, cString c = id c := by
    rw [← List.map_inj_left, List.map_id]
  rw [h]
  exact forall₂_congr fun c _ => cString_eq_self

/-! ## Calls -/

/-- The byte a read returns. -/
def ReadResult.byte? : ReadResult → Option Char
  | .byte c => some c
  | _ => none

/-- The delivery of a call that reads `p`. -/
def delivery (p : List Char) : Delivery :=
  ⟨cString p, p.length⟩

/-- A call that has read `p`, and the calls after it, deliver the pieces that
end at a `;` or an interruption. The induction is on the reads; a call that
returns leaves its successor one call less. -/
theorem deliver_processMsgFrom (hreads : ∀ r ∈ reads, r ≠ .failed ∧ r ≠ .closed)
    (hfits : Fits ';' (maxLine - 1) p.length (reads.map ReadResult.byte?).reduceOption) {n : Nat}
    (hn : reads.length ≤ n + 1) :
    (processMsgFrom p.length (buffer p) reads).deliver (deliveriesWithin n) =
      (pieces ';' p (reads.map ReadResult.byte?)).map delivery := by
  induction reads generalizing p n with
  | nil => rfl
  | cons r reads ih =>
    have hrest : ∀ r ∈ reads, r ≠ .failed ∧ r ≠ .closed :=
      fun r' hr' => hreads r' (List.mem_cons_of_mem _ hr')
    -- the calls after one that returns
    have hnext : Fits ';' (maxLine - 1) 0 (reads.map ReadResult.byte?).reduceOption →
        deliveriesWithin n reads = (pieces ';' [] (reads.map ReadResult.byte?)).map delivery := by
      intro hf
      cases n with
      | zero =>
        obtain rfl := List.eq_nil_of_length_eq_zero (Nat.le_zero.mp (Nat.le_of_succ_le_succ hn))
        rfl
      | succ m => exact @ih [] hrest hf m (Nat.le_of_succ_le_succ hn)
    cases r with
    | failed => exact absurd rfl (hreads _ List.mem_cons_self).1
    | closed => exact absurd rfl (hreads _ List.mem_cons_self).2
    | interrupted =>
      -- what was read so far is delivered, and the rest of its frame begins a new piece
      have hf : Fits ';' (maxLine - 1) p.length (reads.map ReadResult.byte?).reduceOption := hfits
      show ⟨cString (buffer p), p.length⟩ :: deliveriesWithin n reads = _
      rw [hnext (hf.mono (Nat.zero_le _)), cString_buffer]
      rfl
    | byte c =>
      obtain ⟨hlt, hf⟩ : Fits ';' (maxLine - 1) p.length
        (c :: (reads.map ReadResult.byte?).reduceOption) := hfits
      have hmax : p.length + 1 < maxLine := by omega
      have hlen : (p ++ [c]).length = p.length + 1 := List.length_append
      rw [processMsgFrom, List.map_cons]
      show (if c = ';' then _ else _ : Received).deliver _ = (pieces ';' p (some c :: _)).map _
      rw [pieces]
      by_cases hc : c = ';'
      · -- the command is complete
        rw [if_pos hc] at hf
        rw [if_pos hc, if_pos hc, buffer_length (by omega), if_pos hmax, Nat.add_sub_cancel,
          buffer_set (by omega), ← hlen, buffer_set_nul]
        show ⟨cString (buffer (p ++ [c])), (p ++ [c]).length⟩ :: deliveriesWithin n reads = _
        rw [hnext hf, cString_buffer]
        rfl
      · rw [if_neg hc] at hf
        rw [if_neg hc, if_neg hc, buffer_length (by omega), Nat.add_sub_cancel,
          if_pos (by omega), buffer_set (by omega), ← hlen]
        rw [← hlen] at hf
        exact ih hrest hf (Nat.le_of_succ_le hn)

/-! ## Commands and reads -/

/-- A command as a trader sends it: it ends with its only `;` and, with a
terminator, fits the buffer. -/
def Command (c : List Char) : Prop :=
  Terminated ';' c ∧ c.length ≤ 49

/-- The reads take the bytes of the commands from the pipe, signals arriving
between any two of them. -/
structure Sent (cs : List (List Char)) (reads : List ReadResult) : Prop where
  only : ∀ r ∈ reads, r ≠ .failed ∧ r ≠ .closed
  bytes : (reads.map ReadResult.byte?).reduceOption = cs.flatten

/-- **`process_msg` refines the reader of delimited frames**, whatever number of
calls from the number of reads on it is allowed. -/
theorem deliveriesWithin_eq (hcs : ∀ c ∈ cs, Command c) (hs : Sent cs reads) {n : Nat}
    (hn : reads.length ≤ n) :
    deliveriesWithin n reads = (pieces ';' [] (reads.map ReadResult.byte?)).map delivery := by
  cases n with
  | zero =>
    obtain rfl := List.eq_nil_of_length_eq_zero (Nat.le_zero.mp hn)
    rfl
  | succ n =>
    have hfits : Fits ';' (maxLine - 1) 0 (reads.map ReadResult.byte?).reduceOption := by
      rw [hs.bytes]
      exact fits_flatten hcs
    exact @deliver_processMsgFrom [] reads hs.only hfits n hn

/-- `none` stands for the interruptions. -/
theorem Sent.none_mem (hs : Sent cs reads) :
    none ∈ reads.map ReadResult.byte? ↔ .interrupted ∈ reads := by
  rw [List.mem_map]
  constructor
  · rintro ⟨r, hr, hnone⟩
    cases r with
    | byte c => cases hnone
    | interrupted => exact hr
    | failed => exact absurd rfl (hs.only _ hr).1
    | closed => exact absurd rfl (hs.only _ hr).2
  · intro h
    exact ⟨.interrupted, h, rfl⟩

/-- A call that finds a whole command returns its length, and leaves it in `msg`. -/
theorem processMsgFrom_command {body : List Char} (hbody : ';' ∉ body)
    (hlen : p.length + body.length + 1 < maxLine) :
    processMsgFrom p.length (buffer p) ((body ++ [';']).map .byte) =
      .returned (p ++ body ++ [';']).length (buffer (p ++ body ++ [';'])) [] := by
  induction body generalizing p with
  | nil =>
    have hp : p.length + 1 < maxLine := hlen
    have hset := buffer_set (p := p) (by omega) ';'
    have hnul := buffer_set_nul (p := p ++ [';'])
    rw [List.length_append, List.length_singleton] at hnul
    show processMsgFrom p.length (buffer p) [.byte ';'] = _
    rw [processMsgFrom, if_pos rfl, buffer_length (by omega), if_pos hp, Nat.add_sub_cancel, hset,
      hnul, List.append_nil, List.length_append, List.length_singleton]
  | cons c body ih =>
    have hc : c ≠ ';' := fun heq => hbody (heq ▸ List.mem_cons_self)
    rw [List.length_cons] at hlen
    have hnext := @ih (p ++ [c]) (fun hmem => hbody (List.mem_cons_of_mem _ hmem))
      (by rw [List.length_append, List.length_singleton]; omega)
    rw [List.length_append, List.length_singleton] at hnext
    rw [List.cons_append, List.map_cons, processMsgFrom, if_neg hc, buffer_length (by omega),
      Nat.add_sub_cancel, if_pos (by omega), buffer_set (by omega), hnext, List.append_assoc p [c],
      List.singleton_append]

theorem processMsg_command {c : List Char} (hc : Command c) :
    processMsg (c.map .byte) = .returned c.length (buffer c) [] := by
  obtain ⟨⟨body, hbody, rfl⟩, hlen⟩ := hc
  rw [List.length_append, List.length_singleton] at hlen
  exact @processMsgFrom_command [] body hbody (by show 0 + body.length + 1 < 50; omega)

/-- A whole command is returned only when `msg` has room for it and a terminator. -/
theorem length_of_returned {body msg msg' : List Char} {count ret : Nat}
    {rest : List ReadResult} (hbody : ';' ∉ body)
    (h : processMsgFrom count msg ((body ++ [';']).map .byte) = .returned ret msg' rest) :
    count + body.length + 1 < msg.length := by
  induction body generalizing count msg with
  | nil =>
    rw [List.nil_append, List.map_singleton, processMsgFrom, if_pos rfl] at h
    split at h
    · assumption
    · cases h
  | cons c body ih =>
    have hc : c ≠ ';' := fun heq => hbody (heq ▸ List.mem_cons_self)
    rw [List.cons_append, List.map_cons, processMsgFrom, if_neg hc] at h
    split at h
    · have hlen := ih (fun hmem => hbody (List.mem_cons_of_mem _ hmem)) h
      rw [List.length_set] at hlen
      rw [List.length_cons]
      omega
    · cases h

theorem command_of_returned {c msg : List Char} {ret : Nat} {rest : List ReadResult}
    (hc : Terminated ';' c) (h : processMsg (c.map .byte) = .returned ret msg rest) :
    Command c := by
  refine ⟨hc, ?_⟩
  obtain ⟨body, hbody, rfl⟩ := hc
  have hlen := length_of_returned hbody h
  rw [List.length_replicate, maxLine] at hlen
  rw [List.length_append, List.length_singleton]
  omega

/-! ## Return values -/

/-- A call that ends with a read error or the end of the file returns 1 or 0. -/
theorem ret_of_failure {body msg msg' : List Char} {r : ReadResult} {rest rest' : List ReadResult}
    {count ret : Nat} (hbody : ';' ∉ body) (hr : r = .failed ∨ r = .closed)
    (h : processMsgFrom count msg (body.map .byte ++ r :: rest) = .returned ret msg' rest') :
    ret = 1 ∨ ret = 0 := by
  induction body generalizing count msg with
  | nil =>
    rcases hr with rfl | rfl
    · cases h
      exact .inl rfl
    · cases h
      exact .inr rfl
  | cons c body ih =>
    have hc : c ≠ ';' := fun heq => hbody (heq ▸ List.mem_cons_self)
    rw [List.map_cons, List.cons_append, processMsgFrom, if_neg hc] at h
    split at h
    · exact ih (fun hmem => hbody (List.mem_cons_of_mem _ hmem)) h
    · cases h

/-- The value returned is that of some call which ends with a read error or the
end of the file, after some bytes of a command. -/
def LikeFailure (ret : Nat) : Prop :=
  ∃ (body msg : List Char) (r : ReadResult) (rest rest' : List ReadResult), ';' ∉ body ∧
    (r = .failed ∨ r = .closed) ∧ processMsg (body.map .byte ++ r :: rest) = .returned ret msg rest'

theorem likeFailure_iff {ret : Nat} : LikeFailure ret ↔ ret = 1 ∨ ret = 0 := by
  constructor
  · rintro ⟨body, msg, r, rest, rest', hbody, hr, h⟩
    exact ret_of_failure hbody hr h
  · rintro (rfl | rfl)
    · exact ⟨[], _, .failed, [], [], List.not_mem_nil, .inl rfl, rfl⟩
    · exact ⟨[], _, .closed, [], [], List.not_mem_nil, .inr rfl, rfl⟩

/-! ## Delivery -/

/-- The commands are what is delivered, one for one and in order, and no value
returned with one is that of a failure. -/
structure Delivered (cs : List (List Char)) (reads : List ReadResult) : Prop where
  texts : (deliveries reads).map Delivery.text = cs
  told : ∀ d ∈ deliveries reads, ¬LikeFailure d.ret

/-- What an uninterrupted trader sends is delivered, each command up to its first
`NUL`. -/
theorem deliveries_uninterrupted (hcs : ∀ c ∈ cs, Command c) (hs : Sent cs reads)
    (hi : .interrupted ∉ reads) : deliveries reads = cs.map delivery := by
  rw [deliveries, deliveriesWithin_eq hcs hs (Nat.le_refl _),
    pieces_eq (fun c hc => (hcs c hc).1) hs.bytes (mt hs.none_mem.mp hi)]

/-- **Commands are delivered as they were sent if and only if** no read is
interrupted, no command is a lone `;` and none contains a `NUL`. -/
theorem delivered_iff (hcs : ∀ c ∈ cs, Command c) (hs : Sent cs reads) :
    Delivered cs reads ↔ .interrupted ∉ reads ∧ ∀ c ∈ cs, c ≠ [';'] ∧ '\x00' ∉ c := by
  constructor
  · intro h
    -- an interruption delivers one text too many
    have hi : .interrupted ∉ reads := by
      have hlen := congrArg List.length h.texts
      rw [deliveries, deliveriesWithin_eq hcs hs (Nat.le_refl _), List.length_map,
        List.length_map] at hlen
      exact mt hs.none_mem.mpr (not_mem_of_length (fun c hc => (hcs c hc).1) hs.bytes hlen)
    have hd := deliveries_uninterrupted hcs hs hi
    have htexts : cs.map cString = cs := by
      have ht := h.texts
      rwa [hd, List.map_map] at ht
    refine ⟨hi, fun c hc => ⟨fun hsemi => ?_, ?_⟩⟩
    · have htold := h.told (delivery c) (hd ▸ List.mem_map_of_mem hc)
      exact htold (likeFailure_iff.mpr (.inl ((hcs c hc).1.length_eq_one.mpr hsemi)))
    · exact map_cString_eq_self.mp htexts c hc
  · rintro ⟨hi, hcond⟩
    have hd := deliveries_uninterrupted hcs hs hi
    constructor
    · rw [hd, List.map_map]
      exact map_cString_eq_self.mpr fun c hc => (hcond c hc).2
    · intro d hmem
      rw [hd] at hmem
      obtain ⟨c, hc, rfl⟩ := List.mem_map.mp hmem
      have hpos := (hcs c hc).1.length_pos
      rw [likeFailure_iff]
      rintro (hone | hzero)
      · exact (hcond c hc).1 ((hcs c hc).1.length_eq_one.mp hone)
      · exact absurd hzero (Nat.ne_of_gt hpos)

theorem delivered_iff_gpu :
    Delivered ["BUY 0 GPU 30 40;".toList, "CANCEL 0;".toList]
      ("BUY 0 GPU 30 40;CANCEL 0;".toList.map .byte) := by
  refine (delivered_iff (fun c hc => ?_) ⟨by decide, by decide⟩).mpr ⟨by decide, by decide⟩
  rcases List.mem_pair.mp hc with rfl | rfl
  · exact ⟨⟨"BUY 0 GPU 30 40".toList, by decide, by decide⟩, by decide⟩
  · exact ⟨⟨"CANCEL 0".toList, by decide, by decide⟩, by decide⟩

/-- A signal within a command, and a lone `;`. -/
theorem not_delivered_cancel :
    (∃ cs reads, (∀ c ∈ cs, Command c) ∧ Sent cs reads ∧ .interrupted ∈ reads ∧
      ¬Delivered cs reads) ∧
    ∃ cs reads, (∀ c ∈ cs, Command c) ∧ Sent cs reads ∧ .interrupted ∉ reads ∧
      ¬Delivered cs reads := by
  constructor
  · -- `CANCEL` and ` 0;` are delivered one after the other
    refine ⟨["CANCEL 0;".toList],
      "CANCEL".toList.map .byte ++ .interrupted :: " 0;".toList.map .byte,
      fun c hc => ?_, ⟨by decide, by decide⟩, by decide, fun h => ?_⟩
    · obtain rfl := List.mem_singleton.mp hc
      exact ⟨⟨"CANCEL 0".toList, by decide, by decide⟩, by decide⟩
    · have htexts := h.texts
      revert htexts
      decide
  · -- a lone `;` is delivered with the return value of a read error
    refine ⟨[";".toList], [.byte ';'], fun c hc => ?_, ⟨by decide, by decide⟩, by decide,
      fun h => ?_⟩
    · obtain rfl := List.mem_singleton.mp hc
      exact ⟨⟨[], List.not_mem_nil, rfl⟩, by decide⟩
    · exact h.told ⟨";".toList, 1⟩ (by decide) (likeFailure_iff.mpr (.inl rfl))

/-! ## Execution -/

/-- The loop of `main` executes the commands it is delivered. -/
theorem Exchange.serve_map_delivery (A : Arith) (vp : ValidProducts P) (s : Exchange P T)
    (ind : Fin T) (hcs : ∀ c ∈ cs, Command c) (hcond : ∀ c ∈ cs, c ≠ [';'] ∧ '\x00' ∉ c) :
    s.serve A vp ind (cs.map delivery) = s.runCommands A vp (cs.map fun c => (ind, c)) := by
  induction cs generalizing s with
  | nil => rfl
  | cons c cs ih =>
    obtain ⟨hsemi, hnul⟩ := hcond c List.mem_cons_self
    have hc := (hcs c List.mem_cons_self).1
    have hret : ¬((delivery c).ret = 1 ∨ (delivery c).ret = 0) := by
      rintro (hone | hzero)
      · exact hsemi (hc.length_eq_one.mp hone)
      · exact absurd hzero (Nat.ne_of_gt hc.length_pos)
    have htext : (delivery c).text = c := cString_eq_self.mpr hnul
    rw [List.map_cons, List.map_cons, serve, if_neg hret, htext, runCommands]
    cases s.parseMsg A vp c ind with
    | error e => rfl
    | ok s' =>
      exact ih s' (fun c' hc' => hcs c' (List.mem_cons_of_mem _ hc'))
        fun c' hc' => hcond c' (List.mem_cons_of_mem _ hc')

/-- **Without interruptions the exchange runs the commands a trader sent.** -/
theorem Exchange.serve_deliveries (A : Arith) (vp : ValidProducts P) (s : Exchange P T)
    (ind : Fin T) (hcs : ∀ c ∈ cs, Command c) (hs : Sent cs reads) (hi : .interrupted ∉ reads)
    (hcond : ∀ c ∈ cs, c ≠ [';'] ∧ '\x00' ∉ c) :
    s.serve A vp ind (deliveries reads) = s.runCommands A vp (cs.map fun c => (ind, c)) := by
  rw [deliveries_uninterrupted hcs hs hi]
  exact s.serve_map_delivery A vp ind hcs hcond

end PeExchange
