import Mathlib.Logic.Basic

/-! Programs over a shared state which from time to time wait for a device.

A program runs without interruption up to its next device request, so a request
is the only point at which somebody else can be given the processor.  The tree
below keeps these points; running it alone answers every request at once. -/

namespace TrueOs

inductive Stop
  | assert | fault | loop
  deriving DecidableEq, Repr

/-- `dev s x k` is a program that has left the state as `s` and asks for the
transfer `x`; it goes on as `k` from the state it finds when it is woken. -/
inductive Res (σ β α : Type) : Type
  | done (a : α) (s : σ) : Res σ β α
  | stop (r : Stop) : Res σ β α
  | check (c : Bool) (k : Res σ β α) : Res σ β α
  | dev (s : σ) (x : σ → β × σ) (k : β → σ → Res σ β α) : Res σ β α

variable {σ β α γ δ : Type}

namespace Res

def bind : Res σ β α → (α → σ → Res σ β γ) → Res σ β γ
  | .done a s, f => f a s
  | .stop r, _ => .stop r
  | .check c k, f => .check c (k.bind f)
  | .dev s x k, f => .dev s x (fun b t => (k b t).bind f)

/-- Running alone: every transfer is made as soon as it is asked for. -/
def run : Res σ β α → Except Stop (α × σ)
  | .done a s => .ok (a, s)
  | .stop r => .error r
  | .check c k => if c then k.run else .error .assert
  | .dev s x k => (k (x s).1 (x s).2).run

/-- The result satisfies `Q`, and the program only ever stops if `E` holds.  Taking `True`
for `E` gives partial and `False` total correctness. -/
def Sat (E : Prop) (Q : α → σ → Prop) : Res σ β α → Prop
  | .done a s => Q a s
  | .stop _ => E
  | .check c k => (c = true → k.Sat E Q) ∧ (c = false → E)
  | .dev s x k => (k (x s).1 (x s).2).Sat E Q

def unchecked : Res σ β α → Res σ β α
  | .done a s => .done a s
  | .stop r => .stop r
  | .check _ k => k.unchecked
  | .dev s x k => .dev s x (fun b t => (k b t).unchecked)

theorem bind_assoc (r : Res σ β α) (f : α → σ → Res σ β γ) (g : γ → σ → Res σ β δ) :
    (r.bind f).bind g = r.bind (fun a s => (f a s).bind g) := by
  induction r with
  | done a s => rfl
  | stop r => rfl
  | check c k ih => simp only [bind, ih]
  | dev s x k ih => simp only [bind, ih]

theorem bind_done (r : Res σ β α) : r.bind .done = r := by
  induction r with
  | done a s => rfl
  | stop r => rfl
  | check c k ih => simp only [bind, ih]
  | dev s x k ih => simp only [bind, ih]

theorem run_bind (r : Res σ β α) (f : α → σ → Res σ β γ) :
    (r.bind f).run = r.run.bind (fun x => (f x.1 x.2).run) := by
  induction r with
  | done a s => rfl
  | stop r => rfl
  | check c k ih =>
    cases c with
    | false => rfl
    | true => exact ih
  | dev s x k ih => exact ih _ _

theorem unchecked_bind (r : Res σ β α) (f : α → σ → Res σ β γ) :
    (r.bind f).unchecked = r.unchecked.bind (fun a s => (f a s).unchecked) := by
  induction r with
  | done a s => rfl
  | stop r => rfl
  | check c k ih => exact ih
  | dev s x k ih => simp only [bind, unchecked, ih]

section Sat

variable {E E' : Prop} {Q Q' : α → σ → Prop}

@[simp] theorem sat_done (a : α) (s : σ) :
    (Res.done a s : Res σ β α).Sat E Q ↔ Q a s := Iff.rfl

@[simp] theorem sat_stop (r : Stop) : (Res.stop r : Res σ β α).Sat E Q ↔ E := Iff.rfl

theorem sat_check (c : Bool) (k : Res σ β α) :
    (Res.check c k).Sat E Q ↔ (c = true → k.Sat E Q) ∧ (c = false → E) := Iff.rfl

theorem sat_dev (s : σ) (x : σ → β × σ) (k : β → σ → Res σ β α) :
    (Res.dev s x k).Sat E Q ↔ (k (x s).1 (x s).2).Sat E Q := Iff.rfl

@[simp] theorem sat_bind (r : Res σ β α) (f : α → σ → Res σ β γ) {R : γ → σ → Prop} :
    (r.bind f).Sat E R ↔ r.Sat E (fun a s => (f a s).Sat E R) := by
  induction r with
  | done a s => rfl
  | stop r => rfl
  | check c k ih => simp only [bind, sat_check, ih]
  | dev s x k ih => simp only [bind, sat_dev, ih]

theorem Sat.mono {r : Res σ β α} (h : r.Sat E Q) (hQ : ∀ a s, Q a s → Q' a s) : r.Sat E Q' := by
  induction r with
  | done a s => exact hQ a s h
  | stop r => exact h
  | check c k ih => exact ⟨fun hc => ih (h.1 hc), h.2⟩
  | dev s x k ih => exact ih _ _ h

theorem Sat.and {r : Res σ β α} (h : r.Sat E Q) (h' : r.Sat E Q') :
    r.Sat E (fun a s => Q a s ∧ Q' a s) := by
  induction r with
  | done a s => exact ⟨h, h'⟩
  | stop r => exact h
  | check c k ih => exact ⟨fun hc => ih (h.1 hc) (h'.1 hc), h.2⟩
  | dev s x k ih => exact ih _ _ h h'

theorem sat_top (hE : E) (r : Res σ β α) : r.Sat E (fun _ _ => True) := by
  induction r with
  | done a s => trivial
  | stop r => exact hE
  | check c k ih => exact ⟨fun _ => ih, fun _ => hE⟩
  | dev s x k ih => exact ih _ _

theorem Sat.of_run {r : Res σ β α} (h : r.Sat E Q) {a : α} {s : σ}
    (hr : r.run = .ok (a, s)) : Q a s := by
  induction r with
  | done b t => cases hr; exact h
  | stop r => cases hr
  | check c k ih =>
    cases c with
    | false => simp [run] at hr
    | true => exact ih (h.1 rfl) hr
  | dev t x k ih => exact ih _ _ h hr

theorem Sat.exists_run {r : Res σ β α} (h : r.Sat False Q) : ∃ a s, r.run = .ok (a, s) ∧ Q a s := by
  induction r with
  | done a s => exact ⟨a, s, rfl, h⟩
  | stop r => exact h.elim
  | check c k ih =>
    cases c with
    | false => exact (h.2 rfl).elim
    | true => exact ih (h.1 rfl)
  | dev t x k ih => exact ih _ _ h

theorem sat_of_run {r : Res σ β α} (h : ∀ a s, r.run = .ok (a, s) → Q a s) : r.Sat True Q := by
  induction r with
  | done a s => exact h a s rfl
  | stop r => trivial
  | check c k ih => exact ⟨fun hc => ih (fun a s hk => h a s (by simpa [run, hc] using hk)),
      fun _ => trivial⟩
  | dev s x k ih => exact ih _ _ h

end Sat

/-- Every `ASSERT` on the way holds and the result satisfies `Q`, unless the program stops
otherwise. -/
def Safe (Q : α → σ → Prop) : Res σ β α → Prop
  | .done a s => Q a s
  | .stop _ => True
  | .check c k => c = true ∧ k.Safe Q
  | .dev s x k => (k (x s).1 (x s).2).Safe Q

section Safe

variable {Q Q' : α → σ → Prop}

@[simp] theorem safe_done (a : α) (s : σ) : (Res.done a s : Res σ β α).Safe Q ↔ Q a s := Iff.rfl

@[simp] theorem safe_stop (r : Stop) : (Res.stop r : Res σ β α).Safe Q ↔ True := Iff.rfl

theorem safe_check (c : Bool) (k : Res σ β α) : (Res.check c k).Safe Q ↔ c = true ∧ k.Safe Q := Iff.rfl

theorem safe_dev (s : σ) (x : σ → β × σ) (k : β → σ → Res σ β α) :
    (Res.dev s x k).Safe Q ↔ (k (x s).1 (x s).2).Safe Q := Iff.rfl

@[simp] theorem safe_bind (r : Res σ β α) (f : α → σ → Res σ β γ) {R : γ → σ → Prop} :
    (r.bind f).Safe R ↔ r.Safe (fun a s => (f a s).Safe R) := by
  induction r with
  | done a s => rfl
  | stop r => rfl
  | check c k ih => simp only [bind, safe_check, ih]
  | dev s x k ih => simp only [bind, safe_dev, ih]

theorem Safe.mono {r : Res σ β α} (h : r.Safe Q) (hQ : ∀ a s, Q a s → Q' a s) : r.Safe Q' := by
  induction r with
  | done a s => exact hQ a s h
  | stop r => exact h
  | check c k ih => exact ⟨h.1, ih h.2⟩
  | dev s x k ih => exact ih _ _ h

theorem Safe.sat {r : Res σ β α} (h : r.Safe Q) : r.Sat True Q := by
  induction r with
  | done a s => exact h
  | stop r => trivial
  | check c k ih => exact ⟨fun _ => ih h.2, fun _ => trivial⟩
  | dev s x k ih => exact ih _ _ h

theorem Sat.safe {r : Res σ β α} (h : r.Sat False Q) : r.Safe Q := by
  induction r with
  | done a s => exact h
  | stop r => exact h.elim
  | check c k ih =>
    cases c with
    | true => exact ⟨rfl, ih (h.1 rfl)⟩
    | false => exact (h.2 rfl).elim
  | dev s x k ih => exact ih _ _ h

theorem Safe.of_run {r : Res σ β α} (h : r.Safe Q) {a : α} {s : σ} (hr : r.run = .ok (a, s)) : Q a s := by
  induction r with
  | done b t => cases hr; exact h
  | stop r => cases hr
  | check c k ih =>
    obtain ⟨rfl, hk⟩ := h
    exact ih hk hr
  | dev t x k ih => exact ih _ _ h hr

end Safe

/-- No `ASSERT` fails, and the result satisfies `Q` if there is one. -/
def Clear (Q : α → σ → Prop) : Res σ β α → Prop
  | .done a s => Q a s
  | .stop r => r ≠ .assert
  | .check c k => c = true ∧ k.Clear Q
  | .dev s x k => (k (x s).1 (x s).2).Clear Q

section Clear

variable {Q Q' : α → σ → Prop}

@[simp] theorem clear_done (a : α) (s : σ) : (Res.done a s : Res σ β α).Clear Q ↔ Q a s := Iff.rfl

@[simp] theorem clear_bind (r : Res σ β α) (f : α → σ → Res σ β γ) {R : γ → σ → Prop} :
    (r.bind f).Clear R ↔ r.Clear (fun a s => (f a s).Clear R) := by
  induction r with
  | done a s => rfl
  | stop r => rfl
  | check c k ih => simp only [bind, Clear, ih]
  | dev s x k ih => simp only [bind, Clear, ih]

theorem Clear.mono {r : Res σ β α} (h : r.Clear Q) (hQ : ∀ a s, Q a s → Q' a s) : r.Clear Q' := by
  induction r with
  | done a s => exact hQ a s h
  | stop r => exact h
  | check c k ih => exact ⟨h.1, ih h.2⟩
  | dev s x k ih => exact ih _ _ h

theorem Sat.clear {r : Res σ β α} (h : r.Sat False Q) : r.Clear Q := by
  induction r with
  | done a s => exact h
  | stop r => exact h.elim
  | check c k ih =>
    cases c with
    | true => exact ⟨rfl, ih (h.1 rfl)⟩
    | false => exact (h.2 rfl).elim
  | dev s x k ih => exact ih _ _ h

theorem Clear.run_ne {r : Res σ β α} (h : r.Clear Q) : r.run ≠ .error .assert := by
  induction r with
  | done a s => exact fun he => by cases he
  | stop r =>
    intro he
    cases he
    exact h rfl
  | check c k ih =>
    obtain ⟨rfl, hk⟩ := h
    exact ih hk
  | dev s x k ih => exact ih _ _ h

end Clear

end Res

/-- A program is a tree for each state it may be started in. -/
structure Prog (σ β α : Type) : Type where
  on : σ → Res σ β α

namespace Prog

instance : Monad (Prog σ β) where
  pure a := ⟨fun s => .done a s⟩
  bind m f := ⟨fun s => (m.on s).bind (fun a t => (f a).on t)⟩

def get : Prog σ β σ := ⟨fun s => .done s s⟩

def modify (f : σ → σ) : Prog σ β Unit := ⟨fun s => .done () (f s)⟩

def assert (c : Bool) : Prog σ β Unit := ⟨fun s => .check c (.done () s)⟩

def halt (r : Stop) : Prog σ β α := ⟨fun _ => .stop r⟩

def transfer (x : σ → β × σ) : Prog σ β β := ⟨fun s => .dev s x .done⟩

/-- The same program, in one piece: where it fails is its own business. -/
def quiet (c : Prog σ β α) : Prog σ β α := ⟨fun s =>
  match (c.on s).run with
  | .ok r => .done r.1 r.2
  | .error r => .stop r⟩

def unchecked (c : Prog σ β α) : Prog σ β α := ⟨fun s => (c.on s).unchecked⟩

@[simp] theorem pure_on (a : α) (s : σ) : (pure a : Prog σ β α).on s = .done a s := rfl

@[simp] theorem bind_on (m : Prog σ β α) (f : α → Prog σ β γ) (s : σ) :
    (m >>= f).on s = (m.on s).bind (fun a t => (f a).on t) := rfl

theorem run_seq {m : Prog σ β α} {f : α → Prog σ β γ} {s t : σ} {a : α} (h : (m.on s).run = .ok (a, t)) :
    ((m >>= f).on s).run = ((f a).on t).run := by
  rw [bind_on, Res.run_bind, h]
  rfl

theorem run_assert {c : Bool} (h : c = true) (s : σ) : ((assert c : Prog σ β Unit).on s).run = .ok ((), s) := by
  rw [h]
  rfl

@[simp] theorem map_on (f : α → γ) (m : Prog σ β α) (s : σ) :
    (f <$> m).on s = (m.on s).bind (fun a t => .done (f a) t) := rfl

@[simp] theorem get_on (s : σ) : (get : Prog σ β σ).on s = .done s s := rfl

@[simp] theorem modify_on (f : σ → σ) (s : σ) :
    (modify f : Prog σ β Unit).on s = .done () (f s) := rfl

@[simp] theorem halt_on (r : Stop) (s : σ) : (halt r : Prog σ β α).on s = .stop r := rfl

@[simp] theorem ite_on (c : Prop) [Decidable c] (m n : Prog σ β α) (s : σ) :
    (if c then m else n).on s = if c then m.on s else n.on s := by
  split <;> rfl

@[simp] theorem unchecked_pure (a : α) : unchecked (pure a : Prog σ β α) = pure a := rfl

@[simp] theorem unchecked_get : unchecked (get : Prog σ β σ) = get := rfl

@[simp] theorem unchecked_modify (f : σ → σ) : unchecked (modify f : Prog σ β Unit) = modify f := rfl

@[simp] theorem unchecked_halt (r : Stop) : unchecked (halt r : Prog σ β α) = halt r := rfl

@[simp] theorem unchecked_assert (c : Bool) : unchecked (assert c : Prog σ β Unit) = pure () := rfl

@[simp] theorem unchecked_bind (m : Prog σ β α) (f : α → Prog σ β γ) :
    unchecked (m >>= f) = unchecked m >>= fun a => unchecked (f a) :=
  congrArg Prog.mk (funext fun s => Res.unchecked_bind (m.on s) _)

@[simp] theorem unchecked_ite (c : Prop) [Decidable c] (m n : Prog σ β α) :
    unchecked (if c then m else n) = if c then unchecked m else unchecked n := by
  split <;> rfl

instance : LawfulMonad (Prog σ β) := LawfulMonad.mk' (Prog σ β)
  (fun m => congrArg Prog.mk (funext fun s => (m.on s).bind_done))
  (fun _ _ => rfl)
  (fun m f g => congrArg Prog.mk (funext fun s => Res.bind_assoc (m.on s) _ _))

section Sat

variable {E : Prop}

theorem sat_bind (m : Prog σ β α) (f : α → Prog σ β γ) (s : σ) {Q : γ → σ → Prop} :
    ((m >>= f).on s).Sat E Q ↔ (m.on s).Sat E (fun a t => ((f a).on t).Sat E Q) := Res.sat_bind _ _

theorem sat_pure (a : α) (s : σ) {Q : α → σ → Prop} : ((pure a : Prog σ β α).on s).Sat E Q ↔ Q a s := Iff.rfl

theorem sat_get (s : σ) {Q : σ → σ → Prop} : ((get : Prog σ β σ).on s).Sat E Q ↔ Q s s := Iff.rfl

theorem sat_modify (f : σ → σ) (s : σ) {Q : Unit → σ → Prop} :
    ((modify f : Prog σ β Unit).on s).Sat E Q ↔ Q () (f s) := Iff.rfl

@[simp] theorem sat_assert (c : Bool) (s : σ) {Q : Unit → σ → Prop} :
    ((assert c : Prog σ β Unit).on s).Sat E Q ↔ (c = true → Q () s) ∧ (c = false → E) := Iff.rfl

@[simp] theorem safe_assert (c : Bool) (s : σ) {Q : Unit → σ → Prop} :
    ((assert c : Prog σ β Unit).on s).Safe Q ↔ c = true ∧ Q () s := Iff.rfl

@[simp] theorem clear_assert (c : Bool) (s : σ) {Q : Unit → σ → Prop} :
    ((assert c : Prog σ β Unit).on s).Clear Q ↔ c = true ∧ Q () s := Iff.rfl

theorem safe_quiet {c : Prog σ β α} {s : σ} {Q : α → σ → Prop} (h : (c.on s).Sat True Q) :
    ((quiet c).on s).Safe Q := by
  simp only [quiet]
  split
  · next r hr => exact h.of_run hr
  · trivial

@[simp] theorem sat_transfer (x : σ → β × σ) (s : σ) {Q : β → σ → Prop} :
    ((transfer x : Prog σ β β).on s).Sat E Q ↔ Q (x s).1 (x s).2 := Iff.rfl

end Sat

end Prog

end TrueOs
