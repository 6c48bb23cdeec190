import Mathlib.Data.List.ReduceOption

/-!
# Delimited frames

A stream of symbols cut into frames that each end with a delimiter, as a reader
sees it that takes one symbol at a time and may be interrupted between any two.

- `Terminated d c`: `c` ends with its only `d`.
- `pieces d p rs`: what a reader hands on that stops at each delimiter and at
  each interruption, `p` being what it holds already. `none` is an interruption.
- `held d p rs`: what it has not handed on at the end.
- `pieces_eq`, `not_mem_of_length`: the pieces are the frames exactly when
  nothing interrupts.
- `Fits d n k s`: no frame of the stream outgrows a buffer of `n` symbols, `k`
  symbols of the first one being read already.
-/

namespace Framing

variable {α : Type} [DecidableEq α] {d : α}

/-- A frame: symbols other than the delimiter, then the delimiter. -/
def Terminated (d : α) (c : List α) : Prop :=
  ∃ body, d ∉ body ∧ c = body ++ [d]

theorem Terminated.count {c : List α} (h : Terminated d c) : c.count d = 1 := by
  obtain ⟨body, hbody, rfl⟩ := h
  rw [List.count_append, List.count_eq_zero.mpr hbody, List.count_singleton_self]

omit [DecidableEq α] in
theorem Terminated.length_pos {c : List α} (h : Terminated d c) : 0 < c.length := by
  obtain ⟨body, -, rfl⟩ := h
  rw [List.length_append, List.length_singleton]
  omega

omit [DecidableEq α] in
/-- A lone delimiter is the only frame of length 1. -/
theorem Terminated.length_eq_one {c : List α} (h : Terminated d c) :
    c.length = 1 ↔ c = [d] := by
  obtain ⟨body, -, rfl⟩ := h
  rw [List.length_append, List.length_singleton]
  constructor
  · intro hlen
    obtain rfl := List.eq_nil_of_length_eq_zero (Nat.add_eq_right.mp hlen)
    rfl
  · intro heq
    have hlen := congrArg List.length heq
    rwa [List.length_append, List.length_singleton] at hlen

/-- As many delimiters as frames. -/
theorem count_flatten {cs : List (List α)} (h : ∀ c ∈ cs, Terminated d c) :
    cs.flatten.count d = cs.length := by
  induction cs with
  | nil => rfl
  | cons c cs ih =>
    have hc := (h c List.mem_cons_self).count
    have hcs := ih fun c' hc' => h c' (List.mem_cons_of_mem _ hc')
    rw [List.flatten_cons, List.count_append, hc, hcs, List.length_cons, Nat.add_comm]

/-! ## Pieces -/

/-- What a reader hands on that holds `p` and sees `rs`. -/
def pieces (d : α) (p : List α) : List (Option α) → List (List α)
  | [] => []
  | none :: rs => p :: pieces d [] rs
  | some c :: rs =>
    if c = d then (p ++ [c]) :: pieces d [] rs
    else pieces d (p ++ [c]) rs

/-- What the reader holds when there is nothing more to see. -/
def held (d : α) (p : List α) : List (Option α) → List α
  | [] => p
  | none :: rs => held d [] rs
  | some c :: rs => if c = d then held d [] rs else held d (p ++ [c]) rs

/-- What is held already becomes part of a piece or stays held. -/
theorem length_le_of_held (d : α) (p : List α) (rs : List (Option α)) :
    (∃ q ∈ pieces d p rs, p.length ≤ q.length) ∨ p.length ≤ (held d p rs).length := by
  induction rs generalizing p with
  | nil => exact .inr (Nat.le_refl _)
  | cons r rs ih =>
    cases r with
    | none => exact .inl ⟨p, List.mem_cons_self, Nat.le_refl _⟩
    | some c =>
      have hlen : p.length ≤ (p ++ [c]).length := by
        rw [List.length_append]
        exact Nat.le_add_right _ _
      rw [pieces, held]
      by_cases hc : c = d
      · rw [if_pos hc]
        exact .inl ⟨p ++ [c], List.mem_cons_self, hlen⟩
      · rw [if_neg hc, if_neg hc]
        rcases ih (p ++ [c]) with ⟨q, hq, hle⟩ | hle
        · exact .inl ⟨q, hq, Nat.le_trans hlen hle⟩
        · exact .inr (Nat.le_trans hlen hle)

/-- One piece for every delimiter and for every interruption. -/
theorem length_pieces (d : α) (p : List α) (rs : List (Option α)) :
    (pieces d p rs).length = rs.reduceOption.count d + rs.count none := by
  induction rs generalizing p with
  | nil => rfl
  | cons r rs ih =>
    cases r with
    | none =>
      rw [pieces, List.length_cons, ih, List.reduceOption_cons_of_none, List.count_cons_self]
      omega
    | some c =>
      rw [pieces, List.reduceOption_cons_of_some, List.count_cons_of_ne (Option.some_ne_none c)]
      by_cases hc : c = d
      · subst hc
        rw [if_pos rfl, List.length_cons, ih, List.count_cons_self]
        omega
      · rw [if_neg hc, ih, List.count_cons_of_ne hc]

/-- A frame whose front is held is handed on whole. -/
theorem pieces_frame (d : α) {body : List α} (hbody : d ∉ body) (p : List α)
    (rs : List (Option α)) :
    pieces d p ((body ++ [d]).map some ++ rs) = (p ++ (body ++ [d])) :: pieces d [] rs := by
  induction body generalizing p with
  | nil => simp [pieces]
  | cons c body ih =>
    have hc : c ≠ d := fun h => hbody (h ▸ List.mem_cons_self)
    have ih := ih (fun h => hbody (List.mem_cons_of_mem _ h)) (p ++ [c])
    rw [List.cons_append, List.map_cons, List.cons_append, pieces, if_neg hc, ih,
      List.append_assoc, List.singleton_append]

/-- An uninterrupted stream is handed on frame by frame. -/
theorem pieces_flatten {cs : List (List α)} (h : ∀ c ∈ cs, Terminated d c) :
    pieces d [] (cs.flatten.map some) = cs := by
  induction cs with
  | nil => rfl
  | cons c cs ih =>
    obtain ⟨body, hbody, rfl⟩ := h c List.mem_cons_self
    have hcs := ih fun c' hc' => h c' (List.mem_cons_of_mem _ hc')
    rw [List.flatten_cons, List.map_append, pieces_frame d hbody, hcs, List.nil_append]

omit [DecidableEq α] in
/-- A stream without interruptions is its symbols. -/
theorem eq_map_some {rs : List (Option α)} (h : none ∉ rs) : rs = rs.reduceOption.map some := by
  induction rs with
  | nil => rfl
  | cons r rs ih =>
    cases r with
    | none => exact absurd List.mem_cons_self h
    | some c =>
      rw [List.reduceOption_cons_of_some, List.map_cons,
        ← ih fun hmem => h (List.mem_cons_of_mem _ hmem)]

/-- **The pieces of an uninterrupted stream are its frames.** -/
theorem pieces_eq {cs : List (List α)} {rs : List (Option α)} (hcs : ∀ c ∈ cs, Terminated d c)
    (hrs : rs.reduceOption = cs.flatten) (h : none ∉ rs) : pieces d [] rs = cs := by
  rw [eq_map_some h, hrs]
  exact pieces_flatten hcs

/-- **As many pieces as frames mean that nothing interrupted**: an interruption
makes a piece beyond those of the delimiters. -/
theorem not_mem_of_length {cs : List (List α)} {rs : List (Option α)}
    (hcs : ∀ c ∈ cs, Terminated d c) (hrs : rs.reduceOption = cs.flatten)
    (hlen : (pieces d [] rs).length = cs.length) : none ∉ rs := by
  rw [length_pieces, hrs, count_flatten hcs] at hlen
  exact List.count_eq_zero.mp (by omega)

/-! ## Buffers -/

/-- No frame of the stream outgrows `n` symbols, the first one having `k`
already. -/
def Fits (d : α) (n : Nat) : Nat → List α → Prop
  | _, [] => True
  | k, c :: s => k < n ∧ if c = d then Fits d n 0 s else Fits d n (k + 1) s

theorem Fits.mono {n k k' : Nat} {s : List α} (h : Fits d n k s) (hk : k' ≤ k) :
    Fits d n k' s := by
  induction s generalizing k k' with
  | nil => exact trivial
  | cons c s ih =>
    obtain ⟨hlt, hrest⟩ := h
    refine ⟨Nat.lt_of_le_of_lt hk hlt, ?_⟩
    by_cases hc : c = d
    · rw [if_pos hc] at hrest ⊢
      exact hrest
    · rw [if_neg hc] at hrest ⊢
      exact ih hrest (Nat.succ_le_succ hk)

theorem fits_append {n k : Nat} {body s : List α} (hbody : d ∉ body)
    (hlen : k + body.length < n) (hs : Fits d n 0 s) : Fits d n k (body ++ [d] ++ s) := by
  induction body generalizing k with
  | nil => exact ⟨hlen, by rwa [if_pos rfl]⟩
  | cons c body ih =>
    rw [List.length_cons] at hlen
    have hc : c ≠ d := fun h => hbody (h ▸ List.mem_cons_self)
    refine ⟨by omega, ?_⟩
    rw [if_neg hc]
    exact ih (fun h => hbody (List.mem_cons_of_mem _ h)) (by omega)

/-- Frames of at most `n` symbols fit. -/
theorem fits_flatten {n : Nat} {cs : List (List α)}
    (h : ∀ c ∈ cs, Terminated d c ∧ c.length ≤ n) : Fits d n 0 cs.flatten := by
  induction cs with
  | nil => exact trivial
  | cons c cs ih =>
    obtain ⟨⟨body, hbody, rfl⟩, hlen⟩ := h c List.mem_cons_self
    rw [List.length_append, List.length_singleton] at hlen
    rw [List.flatten_cons]
    exact fits_append hbody (by omega) (ih fun c' hc' => h c' (List.mem_cons_of_mem _ hc'))

end Framing
