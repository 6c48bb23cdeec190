import PeExchange.Lib.Framing

/-!
# Text read line by line

A text cut into its lines, and the pieces in which a reader sees it that takes at
most `k` symbols at a time, as `fgets` does.

- `lines nl f`: the lines of `f`, whether the last one is ended by `nl` or not.
- `reads nl k f`: what `fgets` returns until the end of `f`. A line with its end
  is one piece when it has room in `k` symbols, and several otherwise.
- `Reads`: the three ways in which a piece comes about. The facts below are by
  induction on it.
- `lines_eq`: the pieces are the lines when none of them is full.
-/

namespace Lines

open Framing

variable {α : Type} [DecidableEq α] {nl : α} {k : Nat} {f l r : List α} {ps : List (List α)}

/-! ## Lines -/

/-- The lines of a text, without their ends. The last end is optional. -/
def lines (nl : α) : List α → List (List α)
  | [] => []
  | c :: cs =>
    if c = nl then [] :: lines nl cs
    else match lines nl cs with
      | [] => [[c]]
      | l :: ls => (c :: l) :: ls

theorem lines_line (h : nl ∉ l) (r : List α) : lines nl (l ++ nl :: r) = l :: lines nl r := by
  induction l with
  | nil => simp [lines]
  | cons c l ih =>
    have hc : c ≠ nl := fun heq => h (heq ▸ List.mem_cons_self)
    have ih := ih fun hmem => h (List.mem_cons_of_mem _ hmem)
    rw [List.cons_append, lines, if_neg hc, ih]

theorem lines_last (h : nl ∉ l) (hne : l ≠ []) : lines nl l = [l] := by
  induction l with
  | nil => exact absurd rfl hne
  | cons c l ih =>
    have hc : c ≠ nl := fun heq => h (heq ▸ List.mem_cons_self)
    rw [lines, if_neg hc]
    cases l with
    | nil => rfl
    | cons d l => rw [ih (fun hmem => h (List.mem_cons_of_mem _ hmem)) (List.cons_ne_nil d l)]

/-- The front of a line and what follows. -/
theorem lines_append (h : nl ∉ l) (hl : l ≠ []) (r : List α) :
    lines nl (l ++ r) = (l ++ (lines nl r).headD []) :: (lines nl r).tail := by
  induction l with
  | nil => exact absurd rfl hl
  | cons c l ih =>
    have hc : c ≠ nl := fun heq => h (heq ▸ List.mem_cons_self)
    rw [List.cons_append, lines, if_neg hc]
    cases l with
    | nil =>
      rw [List.nil_append]
      cases lines nl r <;> rfl
    | cons d l =>
      rw [ih (fun hmem => h (List.mem_cons_of_mem _ hmem)) (List.cons_ne_nil d l)]
      rfl

theorem lines_ne_nil (h : f ≠ []) : lines nl f ≠ [] := by
  cases f with
  | nil => exact absurd rfl h
  | cons c f =>
    rw [lines]
    split
    · exact List.cons_ne_nil _ _
    · split <;> exact List.cons_ne_nil _ _

/-! ## Pieces -/

/-- One call: at most `k` symbols, none behind `nl`. The symbols taken and those
left. -/
def fgets (nl : α) : Nat → List α → List α × List α
  | 0, cs => ([], cs)
  | _ + 1, [] => ([], [])
  | k + 1, c :: cs =>
    if c = nl then ([c], cs)
    else (c :: (fgets nl k cs).1, (fgets nl k cs).2)

/-- The pieces of at most `fuel` calls. -/
def readsWithin (nl : α) (k : Nat) : Nat → List α → List (List α)
  | 0, _ => []
  | fuel + 1, cs =>
    if cs = [] then []
    else (fgets nl k cs).1 :: readsWithin nl k fuel (fgets nl k cs).2

/-- The pieces of a text: each call takes a symbol at least. -/
def reads (nl : α) (k : Nat) (f : List α) : List (List α) :=
  readsWithin nl k f.length f

/-- How a text falls into pieces. -/
inductive Reads (nl : α) (k : Nat) : List α → List (List α) → Prop where
  | nil : Reads nl k [] []
  /-- A line, or the end of a long one. -/
  | line {l r : List α} {ps : List (List α)} (h : nl ∉ l) (hk : l.length < k)
      (hr : Reads nl k r ps) : Reads nl k (l ++ nl :: r) ((l ++ [nl]) :: ps)
  /-- A last line without end. -/
  | last {l : List α} (h : nl ∉ l) (hne : l ≠ []) : Reads nl k l [l]
  /-- A line that does not fit. -/
  | full {l r : List α} {ps : List (List α)} (h : nl ∉ l) (hk : l.length = k) (hne : r ≠ [])
      (hr : Reads nl k r ps) : Reads nl k (l ++ r) (l :: ps)

/-- What one call takes. -/
theorem fgets_spec (nl : α) (k : Nat) (cs : List α) :
    (fgets nl k cs).1 ++ (fgets nl k cs).2 = cs ∧
      ((∃ l, nl ∉ l ∧ l.length < k ∧ (fgets nl k cs).1 = l ++ [nl]) ∨
        nl ∉ (fgets nl k cs).1 ∧ ((fgets nl k cs).2 = [] ∨ (fgets nl k cs).1.length = k)) := by
  induction k generalizing cs with
  | zero => exact ⟨rfl, .inr ⟨List.not_mem_nil, .inr rfl⟩⟩
  | succ k ih =>
    cases cs with
    | nil => exact ⟨rfl, .inr ⟨List.not_mem_nil, .inl rfl⟩⟩
    | cons c cs =>
      rw [fgets]
      by_cases hc : c = nl
      · subst hc
        rw [if_pos rfl]
        exact ⟨rfl, .inl ⟨[], List.not_mem_nil, Nat.succ_pos k, rfl⟩⟩
      · rw [if_neg hc]
        obtain ⟨happ, hcases⟩ := ih cs
        refine ⟨congrArg (List.cons c) happ, ?_⟩
        rcases hcases with ⟨l, hl, hlen, heq⟩ | ⟨hmem, hend⟩
        · refine .inl ⟨c :: l, ?_, Nat.succ_lt_succ hlen, congrArg (List.cons c) heq⟩
          exact List.not_mem_cons_of_ne_of_not_mem (Ne.symm hc) hl
        · refine .inr ⟨List.not_mem_cons_of_ne_of_not_mem (Ne.symm hc) hmem, ?_⟩
          exact hend.imp_right fun hlen => congrArg Nat.succ hlen

theorem reads_within (hk : 0 < k) {fuel : Nat} (hfuel : f.length ≤ fuel) :
    Reads nl k f (readsWithin nl k fuel f) := by
  induction fuel generalizing f with
  | zero =>
    obtain rfl := List.eq_nil_of_length_eq_zero (Nat.le_zero.mp hfuel)
    exact .nil
  | succ fuel ih =>
    rw [readsWithin]
    by_cases hf : f = []
    · subst hf
      rw [if_pos rfl]
      exact .nil
    · rw [if_neg hf]
      obtain ⟨happ, hcases⟩ := fgets_spec nl k f
      generalize (fgets nl k f).1 = p at happ hcases ⊢
      generalize (fgets nl k f).2 = r at happ hcases ⊢
      have hlen : p.length + r.length = f.length := by rw [← happ, List.length_append]
      rcases hcases with ⟨l, hl, hlk, rfl⟩ | ⟨hp, hend⟩
      · rw [List.length_append, List.length_singleton] at hlen
        rw [← happ, List.append_assoc]
        have hrest : r.length ≤ fuel := by omega
        exact .line hl hlk (ih hrest)
      · by_cases hr : r = []
        · -- the end of the text, reached before `nl`
          subst hr
          rw [List.append_nil] at happ
          subst happ
          cases fuel with
          | zero => exact .last hp hf
          | succ fuel =>
            rw [readsWithin, if_pos rfl]
            exact .last hp hf
        · have hpk := hend.resolve_left hr
          rw [← happ]
          exact .full hp hpk hr (ih (by rw [hpk] at hlen; omega))

theorem reads_spec (nl : α) (hk : 0 < k) (f : List α) : Reads nl k f (reads nl k f) :=
  reads_within hk (Nat.le_refl _)

/-! ## Pieces and lines -/

/-- A piece without the `nl` at its end. -/
def strip (nl : α) (p : List α) : List α :=
  if p.getLast? = some nl then p.dropLast else p

@[simp] theorem strip_line (nl : α) (l : List α) : strip nl (l ++ [nl]) = l := by
  simp [strip]

theorem strip_of_not_mem (h : nl ∉ l) : strip nl l = l := by
  rw [strip, if_neg]
  intro heq
  exact h (List.mem_of_getLast? heq)

/-- A piece is what it is without its end, and perhaps its end. -/
theorem strip_append (nl : α) (p : List α) :
    p = strip nl p ∨ p = strip nl p ++ [nl] := by
  rw [strip]
  by_cases h : p.getLast? = some nl
  · obtain ⟨l, rfl⟩ := List.getLast?_eq_some_iff.mp h
    exact .inr (by rw [if_pos h, List.dropLast_concat])
  · exact .inl (by rw [if_neg h])

theorem mem_strip_of_mem_dropLast {p : List α} {c : α} (h : c ∈ p.dropLast) : c ∈ strip nl p := by
  rw [strip]
  split
  · exact h
  · exact List.dropLast_subset p h

theorem length_le_strip (nl : α) (p : List α) : p.length ≤ (strip nl p).length + 1 := by
  rcases strip_append nl p with h | h
  · rw [← h]
    omega
  · have hlen := congrArg List.length h
    rw [List.length_append, List.length_singleton] at hlen
    omega

namespace Reads

variable (h : Reads nl k f ps)

include h

omit [DecidableEq α] in
theorem eq_nil_iff : ps = [] ↔ f = [] := by
  cases h with
  | nil => exact ⟨fun _ => rfl, fun _ => rfl⟩
  | line _ _ _ => simp
  | last _ hne => simp [hne]
  | full _ _ hne _ => simp [hne]

/-- **Pieces that are not full are the lines.** -/
theorem lines_eq (hshort : ∀ p ∈ ps, p.length < k) : lines nl f = ps.map (strip nl) := by
  induction h with
  | nil => rfl
  | line hl _ _ ih =>
    rw [lines_line hl, ih fun p hp => hshort p (List.mem_cons_of_mem _ hp), List.map_cons,
      strip_line]
  | last hl hne =>
    rw [lines_last hl hne, List.map_singleton, strip_of_not_mem hl]
  | full _ hlen _ _ _ =>
    have hlt := hshort _ List.mem_cons_self
    omega

/-- **Lines with room for their end are pieces.** -/
theorem length_lt (hshort : ∀ l ∈ lines nl f, l.length + 1 < k) : ∀ p ∈ ps, p.length < k := by
  induction h with
  | nil => nofun
  | @line l r ps hl _ _ ih =>
    rw [lines_line hl] at hshort
    intro p hp
    rcases List.mem_cons.mp hp with rfl | hp
    · have hlt := hshort l List.mem_cons_self
      rwa [List.length_append, List.length_singleton]
    · exact ih (fun l hl => hshort l (List.mem_cons_of_mem _ hl)) p hp
  | @last l hl hne =>
    rw [lines_last hl hne] at hshort
    intro p hp
    obtain rfl := List.mem_singleton.mp hp
    have hlt := hshort p List.mem_cons_self
    omega
  | @full l r ps hl hlen hne hr ih =>
    -- a line this long is among the lines, whatever it is continued by
    cases l with
    | nil =>
      obtain rfl : k = 0 := hlen.symm
      have hr : lines nl r ≠ [] := lines_ne_nil hne
      obtain ⟨x, hx⟩ := List.exists_mem_of_ne_nil _ hr
      have hlt := hshort x hx
      omega
    | cons c l =>
      rw [lines_append hl (List.cons_ne_nil c l)] at hshort
      have hlt := hshort _ List.mem_cons_self
      rw [List.length_append] at hlt
      omega

omit [DecidableEq α] in
/-- In a text that ends with `nl` every piece that is not full does. -/
theorem terminated (hf : f.getLast? = some nl) (hshort : ∀ p ∈ ps, p.length < k) :
    ∀ p ∈ ps, Terminated nl p := by
  induction h with
  | nil => nofun
  | @line l r ps hl _ hr ih =>
    intro p hp
    rcases List.mem_cons.mp hp with rfl | hp
    · exact ⟨l, hl, rfl⟩
    · have hne : r ≠ [] := fun hnil => List.ne_nil_of_mem hp (hr.eq_nil_iff.mpr hnil)
      rw [List.getLast?_append_cons, List.getLast?_cons_of_ne_nil hne] at hf
      exact ih hf (fun p hp => hshort p (List.mem_cons_of_mem _ hp)) p hp
  | last hl _ => exact absurd (List.mem_of_getLast? hf) hl
  | full _ hlen _ _ _ =>
    have hlt := hshort _ List.mem_cons_self
    omega

omit [DecidableEq α] in
/-- The last piece of a text that does not end with `nl` has none. -/
theorem not_mem_getLast (hf : f ≠ []) (hend : f.getLast? ≠ some nl) :
    ∃ p, ps.getLast? = some p ∧ nl ∉ p := by
  induction h with
  | nil => exact absurd rfl hf
  | @line l r ps hl _ hr ih =>
    by_cases hne : r = []
    · subst hne
      exact absurd List.getLast?_concat hend
    · rw [List.getLast?_append_cons, List.getLast?_cons_of_ne_nil hne] at hend
      rw [List.getLast?_cons_of_ne_nil fun hnil => hne (hr.eq_nil_iff.mp hnil)]
      exact ih hne hend
  | @last l hl _ => exact ⟨l, rfl, hl⟩
  | @full l r ps _ _ hne hr ih =>
    rw [List.getLast?_append_of_ne_nil _ hne] at hend
    rw [List.getLast?_cons_of_ne_nil fun hnil => hne (hr.eq_nil_iff.mp hnil)]
    exact ih hne hend

omit h

/-- The lines behind the first one, when it is a piece. -/
theorem lines_tail {p : List α} {ps : List (List α)} (h : Reads nl k f (p :: ps))
    (hp : nl ∈ p ∨ ps = []) (hshort : ∀ q ∈ ps, q.length < k) :
    (lines nl f).tail = ps.map (strip nl) := by
  cases h with
  | line hl _ hr =>
    rw [lines_line hl, List.tail_cons, hr.lines_eq hshort]
  | last hl hne =>
    rw [lines_last hl hne]
    rfl
  | full hl _ hne hr =>
    rcases hp with hp | rfl
    · exact absurd hp hl
    · exact absurd (hr.eq_nil_iff.mp rfl) hne

/-- The lines behind the first one, when it is not: one less than pieces. -/
theorem lines_tail_of_full (hk : 0 < k) {p : List α} {ps : List (List α)}
    (h : Reads nl k f (p :: ps)) (hp : nl ∉ p) (hps : ps ≠ [])
    (hshort : ∀ q ∈ ps, q.length < k) : (lines nl f).tail.length + 1 = ps.length := by
  cases h with
  | line _ _ _ => exact absurd (List.mem_append_right _ List.mem_cons_self) hp
  | last _ _ => exact absurd rfl hps
  | full hl hlen _ hr =>
    have hne : p ≠ [] := List.ne_nil_of_length_pos (by omega)
    have hpos := List.length_pos_of_ne_nil hps
    rw [lines_append hl hne, hr.lines_eq hshort, List.tail_cons, List.length_tail, List.length_map]
    omega

end Reads

end Lines
