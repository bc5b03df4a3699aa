import TrueOs.Lib.Prog

/-! Which transfers a program makes when it runs alone. -/

namespace TrueOs

variable {σ β α γ : Type}

namespace Res

/-- The program returns, every transfer it made is a `P`, and the result satisfies `Q`. -/
def Made (P : (σ → β × σ) → Prop) (Q : α → σ → Prop) : Res σ β α → Prop
  | .done a s => Q a s
  | .stop _ => False
  | .check c k => c = true ∧ k.Made P Q
  | .dev s x k => P x ∧ (k (x s).1 (x s).2).Made P Q

variable {P : (σ → β × σ) → Prop} {Q Q' : α → σ → Prop}

@[simp] theorem made_done (a : α) (s : σ) : (Res.done a s : Res σ β α).Made P Q ↔ Q a s := Iff.rfl

@[simp] theorem made_bind (r : Res σ β α) (f : α → σ → Res σ β γ) {R : γ → σ → Prop} :
    (r.bind f).Made P R ↔ r.Made P (fun a s => (f a s).Made P R) := by
  induction r with
  | done a s => rfl
  | stop r => rfl
  | check c k ih => simp only [bind, Made, ih]
  | dev s x k ih => simp only [bind, Made, ih]

theorem Made.mono {r : Res σ β α} (h : r.Made P Q) (hQ : ∀ a s, Q a s → Q' a s) : r.Made P Q' := by
  induction r with
  | done a s => exact hQ a s h
  | stop r => exact h
  | check c k ih => exact ⟨h.1, ih h.2⟩
  | dev s x k ih => exact ⟨h.1, ih _ _ h.2⟩

theorem Made.exists_run {r : Res σ β α} (h : r.Made P Q) : ∃ a s, r.run = .ok (a, s) ∧ Q a s := by
  induction r with
  | done a s => exact ⟨a, s, rfl, h⟩
  | stop r => exact h.elim
  | check c k ih =>
    obtain ⟨rfl, hk⟩ := h
    exact ih hk
  | dev t x k ih => exact ih _ _ h.2

end Res

namespace Prog

variable {P : (σ → β × σ) → Prop}

@[simp] theorem made_assert (c : Bool) (s : σ) {Q : Unit → σ → Prop} :
    ((assert c : Prog σ β Unit).on s).Made P Q ↔ c = true ∧ Q () s := Iff.rfl

@[simp] theorem made_transfer (x : σ → β × σ) (s : σ) {Q : β → σ → Prop} :
    ((transfer x).on s).Made P Q ↔ P x ∧ Q (x s).1 (x s).2 := Iff.rfl

end Prog

end TrueOs
