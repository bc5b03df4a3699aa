import TrueOs.Lib.Prog

/-! How a program that runs alone comes to its end. -/

namespace TrueOs

variable {σ β α γ : Type}

namespace Res

/-- The result satisfies `Q`, and without a result the reason satisfies `F`. -/
def Ends (F : Stop → Prop) (Q : α → σ → Prop) : Res σ β α → Prop
  | .done a s => Q a s
  | .stop r => F r
  | .check c k => (c = true → k.Ends F Q) ∧ (c = false → F .assert)
  | .dev s x k => (k (x s).1 (x s).2).Ends F Q

variable {F : Stop → Prop} {Q Q' : α → σ → Prop}

@[simp] theorem ends_done (a : α) (s : σ) : (Res.done a s : Res σ β α).Ends F Q ↔ Q a s := Iff.rfl

@[simp] theorem ends_bind (r : Res σ β α) (f : α → σ → Res σ β γ) {R : γ → σ → Prop} :
    (r.bind f).Ends F R ↔ r.Ends F (fun a s => (f a s).Ends F R) := by
  induction r with
  | done a s => rfl
  | stop r => rfl
  | check c k ih => simp only [bind, Ends, ih]
  | dev s x k ih => simp only [bind, Ends, ih]

theorem Ends.mono {r : Res σ β α} (h : r.Ends F Q) (hQ : ∀ a s, Q a s → Q' a s) : r.Ends F Q' := by
  induction r with
  | done a s => exact hQ a s h
  | stop r => exact h
  | check c k ih => exact ⟨fun hc => ih (h.1 hc), h.2⟩
  | dev s x k ih => exact ih _ _ h

theorem Ends.and_sat {E : Prop} {r : Res σ β α} (h : r.Ends F Q) (h' : r.Sat E Q') :
    r.Ends F (fun a s => Q a s ∧ Q' a s) := by
  induction r with
  | done a s => exact ⟨h, h'⟩
  | stop r => exact h
  | check c k ih => exact ⟨fun hc => ih (h.1 hc) (h'.1 hc), h.2⟩
  | dev s x k ih => exact ih _ _ h h'

theorem Sat.ends {E : Prop} {r : Res σ β α} (h : r.Sat E Q) (hE : E → ∀ e, F e) : r.Ends F Q := by
  induction r with
  | done a s => exact h
  | stop r => exact hE h r
  | check c k ih => exact ⟨fun hc => ih (h.1 hc), fun hc => hE (h.2 hc) _⟩
  | dev s x k ih => exact ih _ _ h

theorem Ends.of_run {r : Res σ β α} (h : r.Ends F Q) {a : α} {s : σ} (hr : r.run = .ok (a, s)) : Q a s := by
  induction r with
  | done b t => cases hr; exact h
  | stop r => cases hr
  | check c k ih =>
    cases c with
    | false => cases hr
    | true => exact ih (h.1 rfl) hr
  | dev t x k ih => exact ih _ _ h hr

theorem Ends.cases_run {r : Res σ β α} (h : r.Ends F Q) :
    (∃ a s, r.run = .ok (a, s) ∧ Q a s) ∨ ∃ e, r.run = .error e ∧ F e := by
  induction r with
  | done a s => exact .inl ⟨a, s, rfl, h⟩
  | stop r => exact .inr ⟨r, rfl, h⟩
  | check c k ih =>
    cases c with
    | false => exact .inr ⟨.assert, rfl, h.2 rfl⟩
    | true => exact ih (h.1 rfl)
  | dev s x k ih => exact ih _ _ h

theorem Ends.asserts_iff {P O : Prop} {r : Res σ β α}
    (h : r.Ends (fun e => e = .assert ∧ ¬P ∨ O) (fun a s => P ∧ Q a s)) (hO : ¬O) :
    (r.run = .error .assert ↔ ¬P) ∧ (P → ∃ a s, r.run = .ok (a, s) ∧ Q a s) := by
  rcases h.cases_run with ⟨a, s, hrun, hP, hQ⟩ | ⟨e, hrun, ⟨rfl, hP⟩ | hO'⟩
  · exact ⟨iff_of_false (fun hc => nomatch hrun.symm.trans hc) (not_not.mpr hP), fun _ => ⟨a, s, hrun, hQ⟩⟩
  · exact ⟨iff_of_true hrun hP, fun hc => absurd hc hP⟩
  · exact absurd hO' hO

end Res

namespace Prog

@[simp] theorem ends_assert {F : Stop → Prop} (c : Bool) (s : σ) {Q : Unit → σ → Prop} :
    ((assert c : Prog σ β Unit).on s).Ends F Q ↔ (c = true → Q () s) ∧ (c = false → F .assert) := Iff.rfl

end Prog

end TrueOs
