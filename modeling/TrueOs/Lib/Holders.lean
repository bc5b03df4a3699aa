import Mathlib.Logic.Basic

/-! Who holds which frame of a pool: every held frame is marked, and nobody shares. -/

namespace TrueOs

variable {ι φ : Type} {used used' : φ → Prop} {H H' : ι → φ → Prop}

structure Sound (used : φ → Prop) (H : ι → φ → Prop) : Prop where
  used : ∀ {o f}, H o f → used f
  inj : ∀ {o o' f}, H o f → H o' f → o = o'

theorem Sound.mono (h : Sound used H) (hH : ∀ o f, H' o f → H o f) (hused : ∀ f, used f → used' f) :
    Sound used' H' :=
  ⟨fun ho => hused _ (h.used (hH _ _ ho)), fun ho ho' => h.inj (hH _ _ ho) (hH _ _ ho')⟩

theorem Sound.take (h : Sound used H) {o : ι} {f : φ} (hf : ∀ o', ¬H o' f) (hf' : used' f)
    (hused : ∀ g, used g → used' g) (hH : ∀ o' g, H' o' g → H o' g ∨ o' = o ∧ g = f) : Sound used' H' := by
  refine ⟨fun {o' g} ho => ?_, fun {o' o'' g} ho ho' => ?_⟩
  · rcases hH o' g ho with ho | ⟨-, rfl⟩
    · exact hused g (h.used ho)
    · exact hf'
  · rcases hH o' g ho with ho | ⟨rfl, rfl⟩
    · rcases hH o'' g ho' with ho' | ⟨-, rfl⟩
      · exact h.inj ho ho'
      · exact absurd ho (hf o')
    · rcases hH o'' g ho' with ho' | ⟨rfl, -⟩
      · exact absurd ho' (hf o'')
      · rfl

theorem Sound.drop (h : Sound used H) {f : φ} (hH : ∀ o g, H' o g → H o g ∧ g ≠ f)
    (hused : ∀ g, used g → g ≠ f → used' g) : Sound used' H' :=
  ⟨fun ho => hused _ (h.used (hH _ _ ho).1) (hH _ _ ho).2, fun ho ho' => h.inj (hH _ _ ho).1 (hH _ _ ho').1⟩

end TrueOs
