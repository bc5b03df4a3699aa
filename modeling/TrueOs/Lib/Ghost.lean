import TrueOs.Lib.Keeps

/-! Programs with a ghost part beside their state: what the program does to its state does not
depend on it, so that it can be erased. -/

namespace TrueOs

variable {σ η β α γ δ ε : Type}

namespace Res

/-- The tree of a program that leaves the ghost part alone. -/
def lift : Res σ β α → η → Res (σ × η) β α
  | .done a s, h => .done a (s, h)
  | .stop r, _ => .stop r
  | .check c k, h => .check c (k.lift h)
  | .dev s x k, h => .dev (s, h) (fun t => ((x t.1).1, (x t.1).2, t.2)) (fun b t => (k b t.1).lift t.2)

theorem run_lift (r : Res σ β α) (h : η) : (r.lift h).run = r.run.map (fun x => (x.1, x.2, h)) := by
  induction r with
  | done a s => rfl
  | stop r => rfl
  | check c k ih =>
    cases c with
    | false => rfl
    | true => exact ih
  | dev s x k ih => exact ih _ _

@[simp] theorem sat_lift (r : Res σ β α) (h : η) {E : Prop} {Q : α → σ × η → Prop} :
    (r.lift h).Sat E Q ↔ r.Sat E (fun a s => Q a (s, h)) := by
  induction r with
  | done a s => rfl
  | stop r => rfl
  | check c k ih => simp only [lift, sat_check, ih]
  | dev s x k ih => simp only [lift, sat_dev, ih]

def liftSnd : Res η β α → σ → Res (σ × η) β α
  | .done a h, s => .done a (s, h)
  | .stop r, _ => .stop r
  | .check c k, s => .check c (k.liftSnd s)
  | .dev h x k, s => .dev (s, h) (fun t => ((x t.2).1, t.1, (x t.2).2)) (fun b t => (k b t.2).liftSnd t.1)

theorem run_liftSnd (r : Res η β α) (s : σ) : (r.liftSnd s).run = r.run.map (fun x => (x.1, s, x.2)) := by
  induction r with
  | done a h => rfl
  | stop r => rfl
  | check c k ih =>
    cases c with
    | false => rfl
    | true => exact ih
  | dev h x k ih => exact ih _ _

theorem lift_bind (r : Res σ β α) (f : α → σ → Res σ β γ) (h : η) :
    (r.bind f).lift h = (r.lift h).bind (fun a s => (f a s.1).lift s.2) := by
  induction r generalizing h with
  | done a s => rfl
  | stop r => rfl
  | check c k ih => simp only [bind, lift, ih]
  | dev s x k ih => simp only [bind, lift, ih]

end Res

namespace Prog

def lift (c : Prog σ β α) : Prog (σ × η) β α := ⟨fun s => (c.on s.1).lift s.2⟩

def liftSnd (c : Prog η β α) : Prog (σ × η) β α := ⟨fun s => (c.on s.2).liftSnd s.1⟩

def note (f : η → α × η) : Prog (σ × η) β α := ⟨fun s => .done (f s.2).1 (s.1, (f s.2).2)⟩

@[simp] theorem lift_on (c : Prog σ β α) (s : σ × η) : (lift c).on s = (c.on s.1).lift s.2 := rfl

@[simp] theorem note_on (f : η → α × η) (s : σ × η) :
    (note f : Prog (σ × η) β α).on s = .done (f s.2).1 (s.1, (f s.2).2) := rfl

theorem run_lift {c : Prog σ β α} {s t : σ} {a : α} (h : (c.on s).run = .ok (a, t)) (g : η) :
    ((lift c).on (s, g)).run = .ok (a, t, g) := by
  rw [lift_on, Res.run_lift, h]
  rfl

theorem run_liftSnd {c : Prog η β α} {g h : η} {a : α} (hr : (c.on g).run = .ok (a, h)) (s : σ) :
    ((liftSnd c).on (s, g)).run = .ok (a, s, h) := by
  rw [liftSnd, Res.run_liftSnd, hr]
  rfl

@[simp] theorem lift_pure (a : α) : (lift (pure a) : Prog (σ × η) β α) = pure a := rfl

@[simp] theorem lift_bind (c : Prog σ β α) (f : α → Prog σ β γ) :
    (lift (c >>= f) : Prog (σ × η) β γ) = lift c >>= fun a => lift (f a) :=
  congrArg Prog.mk (funext fun s => Res.lift_bind (c.on s.1) _ s.2)

theorem Keeps.lift {R : σ → σ → Prop} {R' : σ × η → σ × η → Prop} {c : Prog σ β α} (hc : Keeps R c)
    (h : ∀ s t g, R s t → R' (s, g) (t, g)) : Keeps R' (lift c) := by
  intro s
  rw [lift_on, Res.sat_lift]
  exact (hc s.1).mono fun _ t ht => h _ t _ ht

theorem Yields.lift {P : α → Prop} {c : Prog σ β α} (hc : Yields P c) :
    Yields P (lift c : Prog (σ × η) β α) := by
  intro s
  rw [lift_on, Res.sat_lift]
  exact hc s.1

/-- Every run of `c` becomes a run of `d` once the ghost part is dropped, and every run of `d` comes
from one of `c`. -/
def Erases (f : α → γ) (c : Prog (σ × η) β α) (d : Prog σ β γ) : Prop :=
  ∀ s, (c.on s).run.map (fun r => (f r.1, r.2.1)) = (d.on s.1).run

section Erases

variable {f : α → γ} {g : δ → ε} {c : Prog (σ × η) β α} {d : Prog σ β γ} {k : α → Prog (σ × η) β δ}
  {l : γ → Prog σ β ε}

theorem erases_lift (c : Prog σ β α) : Erases id (lift c : Prog (σ × η) β α) c := by
  intro s
  rw [lift_on, Res.run_lift]
  cases (c.on s.1).run with
  | ok r => rfl
  | error e => rfl

theorem erases_pure {a : α} {b : γ} (h : f a = b) : Erases f (pure a : Prog (σ × η) β α) (pure b) := by
  intro s
  rw [← h]
  rfl

theorem erases_halt (r : Stop) : Erases f (halt r : Prog (σ × η) β α) (halt r) := fun _ => rfl

theorem Erases.bind (hc : Erases f c d) (hk : ∀ a, Erases g (k a) (l (f a))) :
    Erases g (c >>= k) (d >>= l) := by
  intro s
  have hs := hc s
  simp only [bind_on, Res.run_bind]
  rw [← hs]
  cases (c.on s).run with
  | ok r => exact hk r.1 r.2
  | error e => rfl

theorem Erases.bind_assoc {ζ : Type} {d₁ : Prog σ β ζ} {d₂ : ζ → Prog σ β γ} (hc : Erases f c (d₁ >>= d₂))
    (hk : ∀ a, Erases g (k a) (l (f a))) : Erases g (c >>= k) (d₁ >>= fun x => d₂ x >>= l) := by
  rw [← LawfulMonad.bind_assoc]
  exact hc.bind hk

theorem erases_note {n : η → α × η} {e : Prog σ β ε} (hk : ∀ a, Erases g (k a) e) :
    Erases g (note n >>= k) e := fun s => hk (n s.2).1 (s.1, (n s.2).2)

theorem erases_last {n : η → α × η} {b : γ} (h : ∀ a, f a = b) :
    Erases f (note n : Prog (σ × η) β α) (pure b) := fun s => by rw [← h (n s.2).1]; rfl

theorem Erases.after (hc : Erases f c d) {g : δ → γ} (hk : ∀ a, Erases g (k a) (pure (f a))) :
    Erases g (c >>= k) d := by
  rw [← bind_pure d]
  exact hc.bind hk

theorem Erases.ite {p : Prop} [Decidable p] {c' : Prog (σ × η) β α} {d' : Prog σ β γ} (h : Erases f c d)
    (h' : Erases f c' d') : Erases f (if p then c else c') (if p then d else d') := by
  split
  · exact h
  · exact h'

theorem Erases.run (hc : Erases f c d) {s t : σ × η} {a : α} (h : (c.on s).run = .ok (a, t)) :
    (d.on s.1).run = .ok (f a, t.1) := by
  rw [← hc s, h]
  rfl

end Erases

end Prog

end TrueOs
