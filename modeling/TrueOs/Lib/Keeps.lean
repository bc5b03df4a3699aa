import Mathlib.Order.Defs.Unbundled
import TrueOs.Lib.Prog

/-! Programs that keep a relation between the state they start in and the one they
leave, whatever they return. -/

namespace TrueOs.Prog

variable {σ β α γ : Type} {R : σ → σ → Prop}

def Keeps (R : σ → σ → Prop) (c : Prog σ β α) : Prop :=
  ∀ s, (c.on s).Sat True (fun _ t => R s t)

theorem Keeps.of_run {c : Prog σ β α} (h : Keeps R c) {s t : σ} {a : α}
    (hr : (c.on s).run = .ok (a, t)) : R s t := (h s).of_run hr

theorem keeps_pure [IsPreorder σ R] (a : α) : Keeps R (pure a : Prog σ β α) := fun s => refl s

theorem keeps_get [IsPreorder σ R] : Keeps R (get : Prog σ β σ) := fun s => refl s

theorem keeps_assert [IsPreorder σ R] (c : Bool) : Keeps R (assert c : Prog σ β Unit) :=
  fun s => ⟨fun _ => refl s, fun _ => trivial⟩

theorem keeps_halt (r : Stop) : Keeps R (halt r : Prog σ β α) := fun _ => trivial

theorem keeps_modify {f : σ → σ} (h : ∀ s, R s (f s)) : Keeps R (modify f : Prog σ β Unit) := h

theorem keeps_transfer {x : σ → β × σ} (h : ∀ s, R s (x s).2) : Keeps R (transfer x) :=
  fun s => h s

theorem Keeps.bind [IsPreorder σ R] {c : Prog σ β α} {f : α → Prog σ β γ} (h : Keeps R c) (hf : ∀ a, Keeps R (f a)) : Keeps R (c >>= f) := by
  intro s
  rw [sat_bind]
  exact (h s).mono fun a t hst => (hf a t).mono fun _ u htu => IsTrans.trans s t u hst htu

theorem Keeps.ite {p : Prop} [Decidable p] {c d : Prog σ β α} (hc : Keeps R c) (hd : Keeps R d) :
    Keeps R (if p then c else d) := by
  split
  · exact hc
  · exact hd

def Yields (P : α → Prop) (c : Prog σ β α) : Prop :=
  ∀ s, (c.on s).Sat True (fun a _ => P a)

section Yields

variable {P : α → Prop} {Q : γ → Prop} {c : Prog σ β α} {f : α → Prog σ β γ}

theorem yields_pure {a : α} (h : P a) : Yields P (pure a : Prog σ β α) := fun _ => h

theorem Yields.bind (h : Yields P c) (hf : ∀ a, P a → Yields Q (f a)) : Yields Q (c >>= f) := by
  intro s
  rw [sat_bind]
  exact (h s).mono fun a t ha => hf a ha t

theorem yields_last (hf : ∀ a, Yields Q (f a)) : Yields Q (c >>= f) :=
  Yields.bind (P := fun _ => True) (fun _ => Res.sat_top trivial _) fun a _ => hf a

theorem Yields.ite {p : Prop} [Decidable p] {c d : Prog σ β α} (hc : Yields P c) (hd : Yields P d) :
    Yields P (if p then c else d) := by
  split
  · exact hc
  · exact hd

theorem Yields.and_sat {s : σ} {R : α → σ → Prop} (h : Yields P c)
    (hr : (c.on s).Sat True R) :
    (c.on s).Sat True (fun a t => P a ∧ R a t) := (h s).and hr

end Yields

def returns (c : Prog σ β α) (s : σ) : Bool := ((c.on s).run).toBool

def after (c : Prog σ β α) (s : σ) : σ :=
  match (c.on s).run with
  | .ok r => r.2
  | .error _ => s

def gives [DecidableEq α] (c : Prog σ β α) (s : σ) (a : α) : Bool :=
  match (c.on s).run with
  | .ok r => r.1 = a
  | .error _ => false

theorem run_of_gives [DecidableEq α] {c : Prog σ β α} {s : σ} {a : α} (h : c.gives s a = true) :
    (c.on s).run = .ok (a, c.after s) := by
  simp only [gives, after] at h ⊢
  cases hr : (c.on s).run with
  | ok r =>
    rw [hr] at h
    exact congrArg Except.ok (Prod.ext (of_decide_eq_true h) rfl)
  | error e =>
    rw [hr] at h
    cases h

theorem exists_run_after {c : Prog σ β α} {s : σ} (h : c.returns s = true) :
    ∃ a, (c.on s).run = .ok (a, c.after s) := by
  simp only [returns, after] at h ⊢
  cases hr : (c.on s).run with
  | ok r => exact ⟨r.1, rfl⟩
  | error e =>
    rw [hr] at h
    cases h

theorem run_after {c : Prog σ β Unit} {s : σ} (h : c.returns s = true) :
    (c.on s).run = .ok ((), c.after s) := (exists_run_after h).choose_spec

def stops (c : Prog σ β α) (s : σ) : Option Stop :=
  match (c.on s).run with
  | .ok _ => none
  | .error r => some r

theorem run_of_stops {c : Prog σ β α} {s : σ} {r : Stop} (h : c.stops s = some r) :
    (c.on s).run = .error r := by
  simp only [stops] at h
  cases hr : (c.on s).run with
  | ok a =>
    rw [hr] at h
    cases h
  | error e =>
    rw [hr, Option.some.injEq] at h
    rw [h]

end TrueOs.Prog
