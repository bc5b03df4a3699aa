import Mathlib.Logic.Function.Iterate
import Mathlib.Tactic.IntervalCases
import TrueOs.Thread.Sync

/-! A lock is held by one thread at a time, and nobody who waits for it is forgotten. -/

namespace TrueOs.Thread

open Function (update update_self update_of_ne update_eq_self)

variable {ι : Type}

def Pc.taking : Pc → Bool
  | .setHolder | .assertZero | .setOne => true
  | _ => false

def Sys.Owns (s : Sys ι) (t : ι) : Prop := (s.pc t).taking = true ∨ 0 < s.depth t

/-- Between the return of the outermost `lock_acquire` and the end of its `lock_release`. -/
def Sys.Inside (s : Sys ι) (t : ι) : Prop := 0 < s.depth t

def Pc.Fits : Pc → Nat → Prop
  | .idle, _ | .acquireTest, _ => True
  | .down, d | .downLoop, d | .setHolder, d | .assertZero, d | .setOne, d => d = 0
  | .incLoad, d | .assertHolder, d | .releaseTest, d => 0 < d
  | .incStore n, d => 0 < d ∧ n = d
  | .decLoad, d => 2 ≤ d
  | .decStore n, d => 2 ≤ d ∧ n = d
  | .assertOne, d | .clearHolder, d | .clearNr, d | .up, d => d = 1
  | .failed, _ => False

def Pc.marks : Pc → Nat → Bool × Nat
  | .setHolder, _ => (false, 0)
  | .assertZero, _ | .setOne, _ => (true, 0)
  | .clearNr, _ => (false, 1)
  | .up, _ => (false, 0)
  | _, d => (true, d)

structure Marked (l : Lock ι) (t : ι) (m : Bool × Nat) : Prop where
  value : l.semaphore.value = 0
  holder : l.holder = if m.1 then some t else none
  nr : l.holderRepeatNr = m.2

structure Inv (s : Sys ι) : Prop where
  fits : ∀ t, (s.pc t).Fits (s.depth t)
  free : (∀ t, ¬s.Owns t) → s.lock.semaphore.value = 1 ∧ s.lock.holder = none ∧
    s.lock.holderRepeatNr = 0
  owned : ∀ t, s.Owns t → Marked s.lock t ((s.pc t).marks (s.depth t))
  one : ∀ t u, s.Owns t → s.Owns u → t = u
  nodup : s.lock.semaphore.waiters.Nodup
  waits : ∀ t, t ∈ s.lock.semaphore.waiters ↔ s.blocked t = true
  loop : ∀ t, s.blocked t = true → s.pc t = .downLoop
  wake : s.lock.semaphore.value = 1 → s.lock.semaphore.waiters ≠ [] →
    ∃ t, s.pc t = .downLoop ∧ s.blocked t = false

theorem inv_boot : Inv (boot : Sys ι) := by
  constructor
  · intro t
    trivial
  · intro _
    exact ⟨rfl, rfl, rfl⟩
  · rintro t (h | h)
    · cases h
    · cases h
  · rintro t u (h | h)
    · cases h
    · cases h
  · exact List.nodup_nil
  · intro t
    simp [boot, lockInit]
  · intro t h
    cases h
  · intro _ h
    exact absurd rfl h

namespace Inv

variable {s : Sys ι} {t : ι}

theorem value_le (h : Inv s) : s.lock.semaphore.value = 0 ∨ s.lock.semaphore.value = 1 := by
  by_cases ho : ∃ t, s.Owns t
  · obtain ⟨t, ht⟩ := ho
    exact Or.inl (h.owned t ht).value
  · exact Or.inr (h.free fun t ht => ho ⟨t, ht⟩).1

theorem not_owns (h : Inv s) (hv : s.lock.semaphore.value ≠ 0) (t : ι) : ¬s.Owns t :=
  fun ht => hv (h.owned t ht).value

variable [DecidableEq ι]

theorem owner (h : Inv s) (ho : s.Owns t) (hb : s.blocked t = false)
    {q : Pc} {d : Nat} {holder : Option ι} {nr : Nat} (hf : q.Fits d)
    (hd : q.taking = true ∨ 0 < d)
    (hm : holder = (if (q.marks d).1 then some t else none) ∧ nr = (q.marks d).2) :
    Inv ⟨⟨holder, s.lock.semaphore, nr⟩, update s.pc t q, s.blocked,
      update s.depth t d⟩ := by
  have hother : ∀ u, u ≠ t → ¬s.Owns u := fun u hu hou => hu (h.one u t hou ho)
  have howns : ∀ u, (Sys.Owns ⟨⟨holder, s.lock.semaphore, nr⟩, update s.pc t q, s.blocked,
      update s.depth t d⟩ u) → u = t := by
    intro u hu
    by_contra hne
    refine hother u hne ?_
    simpa only [Sys.Owns, update_of_ne hne] using hu
  have hself : Sys.Owns ⟨⟨holder, s.lock.semaphore, nr⟩, update s.pc t q, s.blocked,
      update s.depth t d⟩ t := by
    simpa only [Sys.Owns, update_self] using hd
  constructor
  · intro u
    by_cases hu : u = t
    · subst hu
      simpa only [update_self] using hf
    · simpa only [update_of_ne hu] using h.fits u
  · intro hn
    exact absurd hself (hn t)
  · intro u hu
    obtain rfl := howns u hu
    simp only [update_self]
    exact ⟨(h.owned u ho).value, hm.1, hm.2⟩
  · intro u v hu hv
    rw [howns u hu, howns v hv]
  · exact h.nodup
  · exact h.waits
  · intro u hu
    have hne : u ≠ t := by
      rintro rfl
      exact absurd hu (by simp [hb])
    simpa only [update_of_ne hne] using h.loop u hu
  · intro hv
    exact absurd hv (by simp only [(h.owned t ho).value]; decide)

theorem owner_goto (h : Inv s) (ho : s.Owns t) (hb : s.blocked t = false)
    {pc : Pc} (hf : pc.Fits (s.depth t)) (hd : pc.taking = true ∨ 0 < s.depth t)
    (hm : pc.marks (s.depth t) = (s.pc t).marks (s.depth t)) : Inv (s.goto t pc) := by
  obtain ⟨-, hholder, hnr⟩ := h.owned t ho
  have := h.owner ho hb hf hd ⟨hm ▸ hholder, hm ▸ hnr⟩
  rwa [update_eq_self] at this

theorem outsider (h : Inv s) (ho : ¬s.Owns t) (hb : s.blocked t = false) (hl : s.pc t ≠ .downLoop)
    {pc : Pc} (hf : pc.Fits 0) (ht : pc.taking = false) : Inv (s.goto t pc) := by
  have hd : s.depth t = 0 := Nat.eq_zero_of_not_pos fun hp => ho (Or.inr hp)
  have howns : ∀ u, (s.goto t pc).Owns u ↔ s.Owns u := by
    intro u
    by_cases hu : u = t
    · subst hu
      refine ⟨fun h => ?_, fun h => absurd h ho⟩
      simp [Sys.Owns, Sys.goto, ht, hd] at h
    · simp only [Sys.Owns, Sys.goto, update_of_ne hu]
  constructor
  · intro u
    by_cases hu : u = t
    · subst hu
      simpa only [Sys.goto, update_self, hd] using hf
    · simpa only [Sys.goto, update_of_ne hu] using h.fits u
  · intro hn
    exact h.free fun u hu => hn u ((howns u).mpr hu)
  · intro u hu
    have hu' := (howns u).mp hu
    have hne : u ≠ t := fun he => ho (he ▸ hu')
    simpa only [Sys.goto, update_of_ne hne] using h.owned u hu'
  · intro u v hu hv
    exact h.one u v ((howns u).mp hu) ((howns v).mp hv)
  · exact h.nodup
  · exact h.waits
  · intro u hu
    have hne : u ≠ t := by
      rintro rfl
      exact absurd hu (by simp only [Sys.goto, hb]; decide)
    simpa only [Sys.goto, update_of_ne hne] using h.loop u hu
  · intro hv hw
    obtain ⟨u, hu, hbu⟩ := h.wake hv hw
    have hne : u ≠ t := fun he => hl (he ▸ hu)
    exact ⟨u, by simpa only [Sys.goto, update_of_ne hne] using hu, hbu⟩

theorem block (h : Inv s) (ho : ¬s.Owns t) (hb : s.blocked t = false)
    (hv : s.lock.semaphore.value = 0) :
    Inv ⟨⟨s.lock.holder, ⟨s.lock.semaphore.value, s.lock.semaphore.waiters ++ [t]⟩,
      s.lock.holderRepeatNr⟩, update s.pc t .downLoop, update s.blocked t true,
      s.depth⟩ := by
  have hd : s.depth t = 0 := Nat.eq_zero_of_not_pos fun hp => ho (Or.inr hp)
  have hw : t ∉ s.lock.semaphore.waiters := fun hm => by simp [(h.waits t).mp hm] at hb
  have howns : ∀ u, (Sys.Owns ⟨⟨s.lock.holder, ⟨s.lock.semaphore.value,
      s.lock.semaphore.waiters ++ [t]⟩, s.lock.holderRepeatNr⟩, update s.pc t .downLoop,
      update s.blocked t true, s.depth⟩ u) ↔ s.Owns u := by
    intro u
    by_cases hu : u = t
    · subst hu
      refine ⟨fun h => ?_, fun h => absurd h ho⟩
      simp [Sys.Owns, Pc.taking, hd] at h
    · simp only [Sys.Owns, update_of_ne hu]
  constructor
  · intro u
    by_cases hu : u = t
    · subst hu
      simp only [update_self]
      exact hd
    · simpa only [update_of_ne hu] using h.fits u
  · intro hn
    exact h.free fun u hu => hn u ((howns u).mpr hu)
  · intro u hu
    have hu' := (howns u).mp hu
    have hne : u ≠ t := fun he => ho (he ▸ hu')
    obtain ⟨h₁, h₂, h₃⟩ := h.owned u hu'
    refine ⟨h₁, ?_, ?_⟩
    · simpa only [update_of_ne hne] using h₂
    · simpa only [update_of_ne hne] using h₃
  · intro u v hu hv
    exact h.one u v ((howns u).mp hu) ((howns v).mp hv)
  · exact List.nodup_append.mpr ⟨h.nodup, by simp,
      fun a ha b hb he => hw (List.mem_singleton.mp hb ▸ he ▸ ha)⟩
  · intro u
    by_cases hu : u = t
    · subst hu
      simp
    · simpa [update_of_ne hu, hu] using h.waits u
  · intro u hu
    by_cases hne : u = t
    · subst hne
      exact update_self _ _ _
    · simp only [update_of_ne hne] at hu ⊢
      exact h.loop u hu
  · intro h1
    exact absurd (hv.symm.trans h1) (by decide)

theorem take (h : Inv s) (hb : s.blocked t = false) (hd : s.depth t = 0)
    (hv : s.lock.semaphore.value = 1) :
    Inv ⟨⟨s.lock.holder, ⟨0, s.lock.semaphore.waiters⟩, s.lock.holderRepeatNr⟩,
      update s.pc t .setHolder, s.blocked, s.depth⟩ := by
  have hnone : ∀ u, ¬s.Owns u := h.not_owns (by rw [hv]; decide)
  have howns : ∀ u, (Sys.Owns ⟨⟨s.lock.holder, ⟨0, s.lock.semaphore.waiters⟩,
      s.lock.holderRepeatNr⟩, update s.pc t .setHolder, s.blocked, s.depth⟩ u) → u = t := by
    intro u hu
    by_contra hne
    refine hnone u ?_
    simpa only [Sys.Owns, update_of_ne hne] using hu
  obtain ⟨-, hholder, hnr⟩ := h.free hnone
  constructor
  · intro u
    by_cases hu : u = t
    · subst hu
      simp only [update_self]
      exact hd
    · simpa only [update_of_ne hu] using h.fits u
  · intro hn
    exact absurd (Or.inl (by simp [Pc.taking])) (hn t)
  · intro u hu
    obtain rfl := howns u hu
    simp only [update_self]
    exact ⟨rfl, hholder, hnr⟩
  · intro u v hu hv
    rw [howns u hu, howns v hv]
  · exact h.nodup
  · exact h.waits
  · intro u hu
    have hne : u ≠ t := by
      rintro rfl
      simp [hb] at hu
    simpa only [update_of_ne hne] using h.loop u hu
  · intro h1
    exact absurd h1 Nat.zero_ne_one

theorem give (h : Inv s) (hpc : s.pc t = .up) {waiters : List ι} {blocked : ι → Bool}
    (hnd : waiters.Nodup) (hw : ∀ u, u ∈ waiters ↔ blocked u = true)
    (hsub : ∀ u, blocked u = true → s.blocked u = true)
    (hwake : waiters ≠ [] → ∃ u, s.pc u = .downLoop ∧ blocked u = false) :
    Inv ⟨⟨s.lock.holder, ⟨1, waiters⟩, s.lock.holderRepeatNr⟩, update s.pc t .idle, blocked,
      update s.depth t 0⟩ := by
  have hd : s.depth t = 1 := by
    have hfit := h.fits t
    rwa [hpc] at hfit
  have ho : s.Owns t := Or.inr (by omega)
  have hm := h.owned t ho
  rw [hpc, hd] at hm
  have hnone : ∀ u, ¬(Sys.Owns ⟨⟨s.lock.holder, ⟨1, waiters⟩, s.lock.holderRepeatNr⟩,
      update s.pc t .idle, blocked, update s.depth t 0⟩ u) := by
    intro u hu
    by_cases hut : u = t
    · subst hut
      simp [Sys.Owns, Pc.taking] at hu
    · refine hut (h.one u t ?_ ho)
      simpa only [Sys.Owns, update_of_ne hut] using hu
  constructor
  · intro u
    by_cases hu : u = t
    · subst hu
      simp only [update_self]
      trivial
    · simpa only [update_of_ne hu] using h.fits u
  · intro _
    exact ⟨rfl, hm.holder, hm.nr⟩
  · intro u hu
    exact absurd hu (hnone u)
  · intro u v hu
    exact absurd hu (hnone u)
  · exact hnd
  · exact hw
  · intro u hu
    have hl := h.loop u (hsub u hu)
    have hne : u ≠ t := by
      rintro rfl
      rw [hpc] at hl
      cases hl
    simpa only [update_of_ne hne] using hl
  · intro _ hne
    obtain ⟨u, hu, hbu⟩ := hwake hne
    have hut : u ≠ t := by
      rintro rfl
      rw [hpc] at hu
      cases hu
    exact ⟨u, by simpa only [update_of_ne hut] using hu, hbu⟩

theorem semaDown (h : Inv s) (hb : s.blocked t = false) (hd : s.depth t = 0)
    (ht : (s.pc t).taking = false) : Inv (s.semaDown t) := by
  have ho : ¬s.Owns t := by simp [Sys.Owns, hd, ht]
  have hw : t ∉ s.lock.semaphore.waiters := fun hm => by simp [(h.waits t).mp hm] at hb
  rw [Sys.semaDown]
  rcases h.value_le with hv | hv
  · rw [if_pos hv, if_neg hw]
    exact h.block ho hb hv
  · rw [if_neg (by rw [hv]; decide), hv]
    exact h.take hb hd hv

theorem semaUp (h : Inv s) (hpc : s.pc t = .up) : Inv (s.semaUp t) := by
  have hd : s.depth t = 1 := by
    have hfit := h.fits t
    rwa [hpc] at hfit
  have hv := (h.owned t (Or.inr (by omega))).value
  rw [Sys.semaUp, if_neg (by rw [hv]; decide)]
  simp only [hv, hd]
  split
  · rename_i hnil
    refine h.give hpc List.nodup_nil (fun u => ?_) (fun u hu => hu) (fun hne => absurd rfl hne)
    rw [← hnil]
    exact h.waits u
  · rename_i x xs hcons
    have hbx : s.blocked x = true := (h.waits x).mp (by rw [hcons]; exact List.mem_cons_self)
    have hnd := h.nodup
    rw [hcons] at hnd
    obtain ⟨hx, hxs⟩ := List.nodup_cons.mp hnd
    rw [if_pos hbx]
    refine h.give hpc hxs (fun u => ?_) (fun u hu => ?_) (fun _ => ⟨x, h.loop x hbx, ?_⟩)
    · by_cases hu : u = x
      · subst hu
        simp [hx]
      · rw [update_of_ne hu, ← h.waits u, hcons, List.mem_cons]
        exact ⟨Or.inr, fun hm => hm.resolve_left hu⟩
    · by_cases hux : u = x
      · subst hux
        exact hbx
      · rwa [update_of_ne hux] at hu
    · exact update_self _ _ _

theorem step (h : Inv s) (call : Call) (hs : Shallow (s.step t call)) : Inv (s.step t call) := by
  have hst := hs t
  unfold Sys.step at hst ⊢
  by_cases hb : s.blocked t = true
  · rw [if_pos hb]
    exact h
  rw [if_neg hb] at hst ⊢
  rw [Bool.not_eq_true] at hb
  have hfit := h.fits t
  have hown := h.owned t
  generalize hpc : s.pc t = q at hfit hown hst ⊢
  cases q with
  | idle =>
    cases call with
    | lockAcquire =>
      by_cases hd : 0 < s.depth t
      · exact h.owner_goto (Or.inr hd) hb trivial (Or.inr hd) (by rw [hpc]; rfl)
      · refine h.outsider ?_ hb (by rw [hpc]; exact Pc.noConfusion) trivial rfl
        rintro (ht | ht)
        · rw [hpc] at ht
          cases ht
        · exact hd ht
    | lockRelease =>
      simp only
      split
      · exact h
      · rename_i hd
        have hd : 0 < s.depth t := Nat.pos_of_ne_zero hd
        exact h.owner_goto (Or.inr hd) hb hd (Or.inr hd) (by rw [hpc]; rfl)
  | acquireTest =>
    by_cases hd : 0 < s.depth t
    · have hm := (hown (Or.inr hd)).holder
      simp only
      rw [if_neg (fun hne => hne hm)]
      exact h.owner_goto (Or.inr hd) hb hd (Or.inr hd) (by rw [hpc]; rfl)
    · have hno : ¬s.Owns t := by
        rintro (ht | ht)
        · rw [hpc] at ht
          cases ht
        · exact hd ht
      -- `holder` is this thread only while it owns the lock
      have hne : s.lock.holder ≠ some t := by
        intro he
        by_cases hfree : ∃ u, s.Owns u
        · obtain ⟨u, hu⟩ := hfree
          have hm := (h.owned u hu).holder
          rw [he] at hm
          split at hm
          · cases hm
            exact hno hu
          · cases hm
        · rw [(h.free fun u hu => hfree ⟨u, hu⟩).2.1] at he
          cases he
      simp only
      rw [if_pos hne]
      exact h.outsider hno hb (by rw [hpc]; exact Pc.noConfusion) rfl rfl
  | down =>
    exact h.semaDown hb hfit (by rw [hpc]; rfl)
  | downLoop =>
    exact h.semaDown hb hfit (by rw [hpc]; rfl)
  | setHolder =>
    have ho : s.Owns t := Or.inl (by rw [hpc]; rfl)
    have hm := hown ho
    have := h.owner ho hb (q := .assertZero) hfit (Or.inl rfl) ⟨rfl, hm.nr⟩
    rwa [update_eq_self] at this
  | assertZero =>
    have ho : s.Owns t := Or.inl (by rw [hpc]; rfl)
    have hm := hown ho
    simp only [Sys.assert, show s.lock.holderRepeatNr = 0 from hm.nr, decide_true, if_true]
    exact h.owner_goto ho hb hfit (Or.inl rfl) (by rw [hpc]; rfl)
  | setOne =>
    have ho : s.Owns t := Or.inl (by rw [hpc]; rfl)
    have hm := hown ho
    have hd : s.depth t = 0 := hfit
    exact h.owner ho hb (q := .idle) trivial (Or.inr (Nat.succ_pos _)) ⟨hm.holder, by rw [hd]; rfl⟩
  | incLoad =>
    have hd : 0 < s.depth t := hfit
    have hm := hown (Or.inr hd)
    exact h.owner_goto (Or.inr hd) hb ⟨hd, hm.nr⟩ (Or.inr hd) (by rw [hpc]; rfl)
  | incStore n =>
    obtain ⟨hd, hn⟩ := hfit
    have hm := hown (Or.inr hd)
    simp only [Sys.ret, Sys.setLock, update_self] at hst
    refine h.owner (Or.inr hd) hb (q := .idle) trivial (Or.inr (Nat.succ_pos _)) ⟨hm.holder, ?_⟩
    rw [hn]
    exact Nat.mod_eq_of_lt hst
  | assertHolder =>
    have hd : 0 < s.depth t := hfit
    have hm := hown (Or.inr hd)
    simp only [Sys.assert, show s.lock.holder = some t from hm.holder, decide_true, if_true]
    exact h.owner_goto (Or.inr hd) hb hd (Or.inr hd) (by rw [hpc]; rfl)
  | releaseTest =>
    have hd : 0 < s.depth t := hfit
    have hm := hown (Or.inr hd)
    have hnr : s.lock.holderRepeatNr = s.depth t := hm.nr
    simp only [hnr]
    split
    · rename_i h1
      exact h.owner_goto (Or.inr hd) hb h1 (Or.inr hd) (by rw [hpc]; rfl)
    · have h1 : s.depth t = 1 := by omega
      exact h.owner_goto (Or.inr hd) hb h1 (Or.inr hd) (by rw [hpc]; rfl)
  | decLoad =>
    have h2 : 2 ≤ s.depth t := hfit
    have hd : 0 < s.depth t := by omega
    have hm := hown (Or.inr hd)
    exact h.owner_goto (Or.inr hd) hb ⟨h2, hm.nr⟩ (Or.inr hd) (by rw [hpc]; rfl)
  | decStore n =>
    obtain ⟨h2, hn⟩ := hfit
    have hd : 0 < s.depth t := by omega
    have hm := hown (Or.inr hd)
    exact h.owner (Or.inr hd) hb (q := .idle) trivial (Or.inr (by omega))
      ⟨hm.holder, by rw [hn]; rfl⟩
  | assertOne =>
    have h1 : s.depth t = 1 := hfit
    have hd : 0 < s.depth t := by omega
    have hm := hown (Or.inr hd)
    have hnr : s.lock.holderRepeatNr = 1 := hm.nr.trans h1
    simp only [Sys.assert, hnr, decide_true, if_true]
    exact h.owner_goto (Or.inr hd) hb h1 (Or.inr hd) (by rw [hpc]; rfl)
  | clearHolder =>
    have h1 : s.depth t = 1 := hfit
    have hd : 0 < s.depth t := by omega
    have hm := hown (Or.inr hd)
    have := h.owner (Or.inr hd) hb (q := .clearNr) hfit (Or.inr hd) ⟨rfl, hm.nr.trans h1⟩
    rwa [update_eq_self] at this
  | clearNr =>
    have h1 : s.depth t = 1 := hfit
    have hd : 0 < s.depth t := by omega
    have hm := hown (Or.inr hd)
    have := h.owner (Or.inr hd) hb (q := .up) hfit (Or.inr hd) ⟨hm.holder, rfl⟩
    rwa [update_eq_self] at this
  | up => exact h.semaUp hpc
  | failed =>
    exact hfit.elim

theorem run (h : Inv s) {s' : Sys ι} (hr : Relation.ReflTransGen ShallowNext s s') : Inv s' := by
  induction hr with
  | refl => exact h
  | tail _ hstep ih =>
    obtain ⟨⟨u, call, rfl⟩, hs⟩ := hstep
    exact ih.step call hs

end Inv

section Nested

def nested (n : Nat) : Sys Unit :=
  ⟨⟨some (), ⟨0, []⟩, (n + 1) % 2 ^ 32⟩, fun _ => .idle, fun _ => false, fun _ => n + 1⟩

theorem update_unit {α : Type} (f : Unit → α) (a : α) : update f () a = fun _ => a := by
  funext u
  exact update_self _ _ _

theorem reach_iterate (s : Sys Unit) (call : Call) (n : Nat) :
    Relation.ReflTransGen Next s ((fun s : Sys Unit => s.step () call)^[n] s) := by
  induction n with
  | zero => exact .refl
  | succ n ih =>
    rw [Function.iterate_succ_apply']
    exact ih.tail ⟨(), call, rfl⟩

theorem reach_nested (n : Nat) : Relation.ReflTransGen Next (boot : Sys Unit) (nested n) := by
  induction n with
  | zero =>
    have h : (fun s : Sys Unit => s.step () .lockAcquire)^[6] boot = nested 0 := by
      simp [Sys.step, boot, lockInit, Sys.goto, Sys.semaDown, Sys.setLock, Sys.assert, Sys.ret, nested,
        update_unit]
    exact h ▸ reach_iterate boot .lockAcquire 6
  | succ n ih =>
    have h : (fun s : Sys Unit => s.step () .lockAcquire)^[4] (nested n) = nested (n + 1) := by
      simp [Sys.step, nested, Sys.goto, Sys.setLock, Sys.ret, update_unit]
    exact ih.trans (h ▸ reach_iterate (nested n) .lockAcquire 4)

end Nested

end TrueOs.Thread
