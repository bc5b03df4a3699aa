import TrueOs.Lib.Keeps

/-! Programs with their assertions compiled out. -/

namespace TrueOs

variable {σ β α γ : Type}

namespace Res

/-- The result satisfies `Q` if there is one, whatever the assertions said. -/
def Bare (Q : α → σ → Prop) : Res σ β α → Prop
  | .done a s => Q a s
  | .stop _ => True
  | .check _ k => k.Bare Q
  | .dev s x k => (k (x s).1 (x s).2).Bare Q

variable {Q Q' : α → σ → Prop}

@[simp] theorem bare_done (a : α) (s : σ) : (Res.done a s : Res σ β α).Bare Q ↔ Q a s := Iff.rfl

@[simp] theorem bare_bind (r : Res σ β α) (f : α → σ → Res σ β γ) {R : γ → σ → Prop} :
    (r.bind f).Bare R ↔ r.Bare (fun a s => (f a s).Bare R) := by
  induction r with
  | done a s => rfl
  | stop r => rfl
  | check c k ih => simp only [bind, Bare, ih]
  | dev s x k ih => simp only [bind, Bare, ih]

theorem Bare.mono {r : Res σ β α} (h : r.Bare Q) (hQ : ∀ a s, Q a s → Q' a s) : r.Bare Q' := by
  induction r with
  | done a s => exact hQ a s h
  | stop r => trivial
  | check c k ih => exact ih h
  | dev s x k ih => exact ih _ _ h

theorem bare_top (r : Res σ β α) : r.Bare (fun _ _ => True) := by
  induction r with
  | done a s => trivial
  | stop r => trivial
  | check c k ih => exact ih
  | dev s x k ih => exact ih _ _

theorem Bare.of_run {r : Res σ β α} (h : r.Bare Q) {a : α} {s : σ} (hr : r.unchecked.run = .ok (a, s)) : Q a s := by
  induction r with
  | done b t =>
    cases hr
    exact h
  | stop r => cases hr
  | check c k ih => exact ih h hr
  | dev t x k ih => exact ih _ _ h hr

end Res

namespace Prog

@[simp] theorem bare_assert (c : Bool) (s : σ) {Q : Unit → σ → Prop} :
    ((assert c : Prog σ β Unit).on s).Bare Q ↔ Q () s := Iff.rfl

@[simp] theorem bare_transfer (x : σ → β × σ) (s : σ) {Q : β → σ → Prop} :
    ((transfer x).on s).Bare Q ↔ Q (x s).1 (x s).2 := Iff.rfl

theorem bare_last {c : Prog σ β α} {f : α → Prog σ β γ} {Q : γ → σ → Prop} (hf : ∀ a s, ((f a).on s).Bare Q) (s : σ) :
    ((c >>= f).on s).Bare Q := by
  rw [bind_on, Res.bare_bind]
  exact (Res.bare_top _).mono fun a t _ => hf a t

/-- Every result is `R`-related to the start, with the assertions compiled out. -/
def Retains (R : σ → σ → Prop) (c : Prog σ β α) : Prop := ∀ s, (c.on s).Bare (fun _ t => R s t)

variable {R : σ → σ → Prop}

theorem retains_pure [IsPreorder σ R] (a : α) : Retains R (pure a : Prog σ β α) := fun s => refl s

theorem retains_get [IsPreorder σ R] : Retains R (get : Prog σ β σ) := fun s => refl s

theorem retains_assert [IsPreorder σ R] (c : Bool) : Retains R (assert c : Prog σ β Unit) := fun s => refl s

theorem retains_halt (r : Stop) : Retains R (halt r : Prog σ β α) := fun _ => trivial

theorem retains_modify {f : σ → σ} (h : ∀ s, R s (f s)) : Retains R (modify f : Prog σ β Unit) := h

theorem retains_transfer {x : σ → β × σ} (h : ∀ s, R s (x s).2) : Retains R (transfer x) := h

theorem Retains.bind [IsPreorder σ R] {c : Prog σ β α} {f : α → Prog σ β γ} (h : Retains R c)
    (hf : ∀ a, Retains R (f a)) : Retains R (c >>= f) := by
  intro s
  rw [bind_on, Res.bare_bind]
  exact (h s).mono fun a t ht => (hf a t).mono fun _ _ hu => trans_of R ht hu

theorem Retains.skip {c : Prog σ β α} {f : α → Prog σ β γ} {s : σ} {Q : γ → σ → Prop} (h : Retains Eq c)
    (hf : ∀ a, ((f a).on s).Bare Q) : ((c >>= f).on s).Bare Q := by
  rw [bind_on, Res.bare_bind]
  refine (h s).mono fun a t ht => ?_
  rw [← ht]
  exact hf a

theorem Retains.ite {p : Prop} [Decidable p] {c d : Prog σ β α} (hc : Retains R c) (hd : Retains R d) :
    Retains R (if p then c else d) := by
  split
  · exact hc
  · exact hd

end Prog

end TrueOs
