/-!
# Steps that work on different parts of a state

A state is seen through a family of views, one for each of its parts. A step that
works on some of the parts leaves the views of the others alone (its frame), and
what it makes of its own parts depends on these parts only (its locality).

`SameOutside K s s'` says that two states differ in the parts `K` at most; frames
and localities are both stated with it. `commute` is the diamond: two steps that
work on disjoint parts lead to the same state in either order.
-/

namespace Locality

universe u v w

variable {σ : Type u} {ι : Type v} {V : ι → Type w} (view : ∀ i, σ → V i)

/-- The states look the same in all parts but `K`. -/
def SameOutside (K : ι → Prop) (s s' : σ) : Prop :=
  ∀ i, ¬K i → view i s = view i s'

variable {view} {K K₁ K₂ : ι → Prop} {s s' s'' s₁ s₂ s₁₂ s₂₁ : σ}

/-- **The diamond.** The first step leads from `s` to `s₁` and from `s₂` to `s₂₁`, the
second from `s` to `s₂` and from `s₁` to `s₁₂`. -/
theorem commute (hdisj : ∀ i, ¬(K₁ i ∧ K₂ i))
    (hframe₁ : SameOutside view K₁ s₂ s₂₁) (hframe₂ : SameOutside view K₂ s₁ s₁₂)
    (hlocal₁ : SameOutside view K₂ s₁ s₂₁) (hlocal₂ : SameOutside view K₁ s₂ s₁₂) (i : ι) :
    view i s₁₂ = view i s₂₁ := by
  by_cases hi : K₁ i
  · -- a part of the first step: the second one leaves it as it finds it
    have hi' : ¬K₂ i := fun h => hdisj i ⟨hi, h⟩
    exact (hframe₂ i hi').symm.trans (hlocal₁ i hi')
  · exact (hlocal₂ i hi).symm.trans (hframe₁ i hi)

end Locality
