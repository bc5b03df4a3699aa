import TrueOs.Device.Ioqueue

/-! The I/O queue hands out the bytes in the order they were put in, and who waits for it is
woken. -/

namespace TrueOs.Ioqueue

open Function (update update_self update_of_ne)
open Fs Thread

variable {ι : Type}

def Call.isPut : Call → Bool
  | .get _ => false
  | .put _ => true

def Sys.queue (s : Sys ι) : List UInt8 := Ring.contents bufsize s.ioq.buf s.ioq.head s.ioq.tail

structure Fifo (s : Sys ι) : Prop where
  head : s.ioq.head < bufsize
  tail : s.ioq.tail < bufsize
  order : s.puts = s.gets ++ s.queue

structure Parked (s : Sys ι) : Prop where
  parked : ∀ {c u}, s.waiter c = some u → s.blocked u = true ∧ ∃ c', s.pc u = .wait c' ∧ c'.isPut = c.isPut
  pointed : ∀ {c u}, s.pc u = .wait c → s.blocked u = true → s.waiter c = some u
  queued : ∀ {u}, u ∈ s.lock.semaphore.waiters → s.blocked u = true ∧ ∃ c, s.pc u = .down c
  nodup : s.lock.semaphore.waiters.Nodup

/-- Nobody waits who could go on. -/
def Calm (s : Sys ι) : Prop := ∀ c, s.waiter c ≠ none → s.mustWait c = true

structure Same (s s' : Sys ι) : Prop where
  ioq : s'.ioq = s.ioq
  puts : s'.puts = s.puts
  gets : s'.gets = s.gets

section Queue

variable {s s' : Sys ι}

theorem Same.queue (h : Same s s') : s'.queue = s.queue := by
  rw [Sys.queue, Sys.queue, h.ioq]

theorem Same.mustWait (h : Same s s') (c : Call) : s'.mustWait c = s.mustWait c := by
  cases c with
  | get _ => rw [Sys.mustWait, Sys.mustWait, h.ioq]
  | put _ => rw [Sys.mustWait, Sys.mustWait, h.ioq]

theorem Fifo.same (h : Fifo s) (hs : Same s s') : Fifo s' where
  head := by rw [hs.ioq]; exact h.head
  tail := by rw [hs.ioq]; exact h.tail
  order := by rw [hs.puts, hs.gets, hs.queue]; exact h.order

theorem Fifo.length (h : Fifo s) : s.puts.length = s.gets.length + ioqLength s.ioq := by
  rw [h.order, List.length_append, Sys.queue, Ring.length_contents]
  rfl

theorem Fifo.length_lt (h : Fifo s) : ioqLength s.ioq < bufsize := Ring.len_lt h.head _

theorem waiter_congr (s : Sys ι) {c c' : Call} (h : c.isPut = c'.isPut) : s.waiter c = s.waiter c' := by
  cases c <;> cases c' <;> first | rfl | cases h

theorem mustWait_congr (s : Sys ι) {c d : Call} (h : c.isPut = d.isPut) : s.mustWait c = s.mustWait d := by
  cases c <;> cases d <;> first | rfl | cases h

theorem waiter_setWaiter (s : Sys ι) (t : Option ι) (c c' : Call) :
    (s.setWaiter t c).waiter c' = if c'.isPut = c.isPut then t else s.waiter c' := by
  cases c <;> cases c' <;> rfl

theorem mustWait_get_eq (s : Sys ι) (n : Nat) : s.mustWait (.get n) = true ↔ s.ioq.head = s.ioq.tail := by
  rw [Sys.mustWait, ioqEmpty, beq_iff_eq]

theorem mustWait_put_eq (s : Sys ι) (b : UInt8) :
    s.mustWait (.put b) = true ↔ (s.ioq.head + 1) % bufsize = s.ioq.tail := by
  rw [Sys.mustWait, ioqFull, beq_iff_eq, nextPos]

end Queue

section Parked

variable {s s' : Sys ι} {t : ι} {c : Call}

theorem Parked.not_queued (h : Parked s) (ht : s.blocked t = false) : t ∉ s.lock.semaphore.waiters := by
  intro hm
  rw [(h.queued hm).1] at ht
  cases ht

theorem Parked.not_waiter (h : Parked s) (ht : s.blocked t = false) : s.waiter c ≠ some t := by
  intro hw
  rw [(h.parked hw).1] at ht
  cases ht

theorem Parked.congr (h : Parked s) (hpc : s'.pc = s.pc) (hb : s'.blocked = s.blocked)
    (hl : s'.lock.semaphore.waiters = s.lock.semaphore.waiters) (hw : ∀ c, s'.waiter c = s.waiter c) : Parked s' where
  parked := fun hu => by
    rw [hw] at hu
    rw [hpc, hb]
    exact h.parked hu
  pointed := fun hu hu' => by
    rw [hpc] at hu
    rw [hb] at hu'
    rw [hw]
    exact h.pointed hu hu'
  queued := fun hu => by
    rw [hl] at hu
    rw [hpc, hb]
    exact h.queued hu
  nodup := by
    rw [hl]
    exact h.nodup

theorem Calm.same (h : Calm s) (hs : Same s s') (hw : ∀ c', s'.waiter c' = s.waiter c') : Calm s' := by
  intro c' hc'
  rw [hw] at hc'
  rw [hs.mustWait]
  exact h c' hc'

theorem fifo_init : Fifo (init : Sys ι) := ⟨Nat.two_pow_pos 11, Nat.two_pow_pos 11, rfl⟩

theorem parked_init : Parked (init : Sys ι) where
  parked := fun {c u} hu => by cases c <;> cases hu
  pointed := fun hu => by cases hu
  queued := fun hu => by cases hu
  nodup := List.nodup_nil

/-- Nobody is blocked in `ioq_wait` as the consumer of a queue with bytes in it, or as the
producer of one with room. -/
structure NoLost (s : Sys ι) : Prop where
  consumer : ioqEmpty s.ioq = false → ∀ u n, ¬(s.pc u = .wait (.get n) ∧ s.blocked u = true)
  producer : ioqFull s.ioq = false → ∀ u b, ¬(s.pc u = .wait (.put b) ∧ s.blocked u = true)

theorem Parked.noLost_iff (hp : Parked s) : NoLost s ↔ Calm s := by
  constructor
  · intro h c hc
    obtain ⟨u, hu⟩ := Option.ne_none_iff_exists'.mp hc
    obtain ⟨hb, c', hpc, hc'⟩ := hp.parked hu
    rw [← mustWait_congr s hc']
    cases c' with
    | get n => exact Bool.not_eq_false _ ▸ fun he => h.consumer he u n ⟨hpc, hb⟩
    | put b => exact Bool.not_eq_false _ ▸ fun he => h.producer he u b ⟨hpc, hb⟩
  · intro h
    have hwait : ∀ u c, s.pc u = .wait c ∧ s.blocked u = true → s.mustWait c = true := by
      rintro u c ⟨hpc, hb⟩
      refine h c ?_
      rw [hp.pointed hpc hb]
      exact Option.some_ne_none u
    refine ⟨fun he u n hu => ?_, fun he u b hu => ?_⟩
    · have := hwait u _ hu
      rw [Sys.mustWait, he] at this
      cases this
    · have := hwait u _ hu
      rw [Sys.mustWait, he] at this
      cases this

end Parked

variable [DecidableEq ι] {s s' : Sys ι} {t : ι} {c : Call}

section Steps

theorem Parked.idle (h : Parked s) (ht : s.blocked t = false) : Parked (s.goto t .idle false) where
  parked := fun {c u} hu => by
    have hut : u ≠ t := by
      rintro rfl
      exact h.not_waiter ht hu
    obtain ⟨hb, hc⟩ := h.parked (c := c) hu
    simp only [Sys.goto, update_of_ne hut]
    exact ⟨hb, hc⟩
  pointed := fun {c u} hu hb => by
    have hut : u ≠ t := by
      rintro rfl
      simp [Sys.goto] at hb
    simp only [Sys.goto, update_of_ne hut] at hu hb
    exact h.pointed hu hb
  queued := fun {u} hu => by
    have hut : u ≠ t := by
      rintro rfl
      exact h.not_queued ht hu
    simp only [Sys.goto, update_of_ne hut]
    exact h.queued hu
  nodup := h.nodup

theorem Parked.ioqWait (h : Parked s) (ht : s.blocked t = false) (hs : s.ioqWait t c = some s') :
    Parked s' ∧ Same s s' ∧ (∀ c', s'.waiter c' = if c'.isPut = c.isPut then some t else s.waiter c') := by
  rw [Sys.ioqWait] at hs
  split at hs
  · next hnone =>
    obtain rfl := Option.some.inj hs
    have hw : ∀ c', ((s.setWaiter (some t) c).goto t (.wait c) true).waiter c' =
        if c'.isPut = c.isPut then some t else s.waiter c' := by
      intro c'
      rw [← waiter_setWaiter]
      cases c' <;> rfl
    have hfields : (s.setWaiter (some t) c).pc = s.pc ∧ (s.setWaiter (some t) c).blocked = s.blocked ∧
        (s.setWaiter (some t) c).lock = s.lock ∧ Same s (s.setWaiter (some t) c) := by
      cases c <;> exact ⟨rfl, rfl, rfl, rfl, rfl, rfl⟩
    obtain ⟨hpc, hblocked, hlock, hsame⟩ := hfields
    refine ⟨⟨fun {c' u} hu => ?_, fun {c' u} hu hb => ?_, fun {u} hu => ?_, ?_⟩, ⟨hsame.ioq, hsame.puts, hsame.gets⟩, hw⟩
    · rw [hw] at hu
      split at hu
      · next hc =>
        obtain rfl := Option.some.inj hu
        simp only [Sys.goto, update_self]
        exact ⟨trivial, c, rfl, hc.symm⟩
      · have hut : u ≠ t := by
          rintro rfl
          exact h.not_waiter ht hu
        simp only [Sys.goto, update_of_ne hut, hpc, hblocked]
        exact h.parked hu
    · rw [hw]
      by_cases hut : u = t
      · subst hut
        simp only [Sys.goto, update_self, Pc.wait.injEq] at hu
        rw [if_pos (by rw [hu])]
      · simp only [Sys.goto, update_of_ne hut, hpc, hblocked] at hu hb
        have hpoint := h.pointed hu hb
        split
        · next hc =>
          rw [waiter_congr s hc, hnone] at hpoint
          cases hpoint
        · exact hpoint
    · have hu' : u ∈ s.lock.semaphore.waiters := by
        have : u ∈ (s.setWaiter (some t) c).lock.semaphore.waiters := hu
        rwa [hlock] at this
      have hut : u ≠ t := by
        rintro rfl
        exact h.not_queued ht hu'
      simp only [Sys.goto, update_of_ne hut, hpc, hblocked]
      exact h.queued hu'
    · have : (s.setWaiter (some t) c).lock.semaphore.waiters.Nodup := by
        rw [hlock]
        exact h.nodup
      exact this
  · cases hs

def Wakes (s s' : Sys ι) : Prop := ∀ u, s.blocked u = false → s'.blocked u = false

theorem Parked.wakeup (h : Parked s) (c : Call) : ∃ s', s.wakeup c = some s' ∧ Parked s' ∧ Same s s' ∧ Wakes s s' ∧
    ∀ c', s'.waiter c' = if c'.isPut = c.isPut then none else s.waiter c' := by
  rw [Sys.wakeup]
  cases hw : s.waiter c with
  | none =>
    refine ⟨s, rfl, h, ⟨rfl, rfl, rfl⟩, fun u hu => hu, fun c' => ?_⟩
    split
    · next hc => rw [waiter_congr s hc, hw]
    · rfl
  | some u =>
    obtain ⟨hb, c₁, hpc, hc₁⟩ := h.parked hw
    dsimp only
    rw [Sys.threadUnblock, if_pos hb, Option.map_some]
    generalize hy : ({ s with blocked := update s.blocked u false } : Sys ι) = y
    have hyw : ∀ c', (y.setWaiter none c).waiter c' = if c'.isPut = c.isPut then none else s.waiter c' := by
      intro c'
      rw [waiter_setWaiter, ← hy]
      cases c' <;> rfl
    have hfields : (y.setWaiter none c).pc = s.pc ∧ (y.setWaiter none c).blocked = update s.blocked u false ∧
        (y.setWaiter none c).lock = s.lock ∧ Same s (y.setWaiter none c) := by
      subst hy
      cases c <;> exact ⟨rfl, rfl, rfl, rfl, rfl, rfl⟩
    obtain ⟨hypc, hyb, hyl, hsame⟩ := hfields
    refine ⟨_, rfl, ⟨fun {c' v} hv => ?_, fun {c' v} hv hv' => ?_, fun {v} hv => ?_, ?_⟩, hsame, fun v hv => ?_, hyw⟩
    · rw [hyw] at hv
      split at hv
      · cases hv
      · next hc =>
        obtain ⟨hvb, c₂, hvc, hc₂⟩ := h.parked hv
        have hvu : v ≠ u := by
          rintro rfl
          rw [hpc, Pc.wait.injEq] at hvc
          rw [← hvc, hc₁] at hc₂
          exact hc hc₂.symm
        rw [hypc, hyb, update_of_ne hvu]
        exact ⟨hvb, c₂, hvc, hc₂⟩
    · rw [hypc] at hv
      rw [hyb] at hv'
      have hvu : v ≠ u := by
        rintro rfl
        rw [update_self] at hv'
        cases hv'
      rw [update_of_ne hvu] at hv'
      have hpoint := h.pointed hv hv'
      rw [hyw, if_neg fun hc => ?_, hpoint]
      rw [waiter_congr s hc, hw] at hpoint
      exact hvu (Option.some.inj hpoint).symm
    · rw [hyl] at hv
      obtain ⟨hvb, c₂, hvc⟩ := h.queued hv
      have hvu : v ≠ u := by
        rintro rfl
        rw [hpc] at hvc
        cases hvc
      rw [hypc, hyb, update_of_ne hvu]
      exact ⟨hvb, c₂, hvc⟩
    · rw [hyl]
      exact h.nodup
    · rw [hyb]
      by_cases hvu : v = u
      · rw [hvu, update_self]
      · rw [update_of_ne hvu]
        exact hv

theorem Parked.semaUp (h : Parked s) (hs : s.semaUp = some s') :
    Parked s' ∧ Same s s' ∧ Wakes s s' ∧ ∀ c, s'.waiter c = s.waiter c := by
  rw [Sys.semaUp] at hs
  dsimp only at hs
  split at hs
  · cases hs
  · split at hs
    · next hnil =>
      obtain rfl := Option.some.inj hs
      refine ⟨h.congr rfl rfl hnil.symm fun c => ?_, ⟨rfl, rfl, rfl⟩, fun u hu => hu, fun c => ?_⟩
      · cases c <;> rfl
      · cases c <;> rfl
    · next w rest hcons =>
      rw [Sys.threadUnblock] at hs
      split at hs
      · obtain rfl := Option.some.inj hs
        have hnd := h.nodup
        rw [hcons, List.nodup_cons] at hnd
        obtain ⟨-, c₁, hwc⟩ := h.queued (u := w) (by rw [hcons]; exact List.mem_cons_self)
        have hother : ∀ {v}, v ≠ w → update s.blocked w false v = s.blocked v :=
          fun hv => update_of_ne hv _ _
        refine ⟨⟨fun {c u} hu => ?_, fun {c u} hu hb => ?_, fun {u} hu => ?_, hnd.2⟩, ⟨rfl, rfl, rfl⟩, fun u hu => ?_,
          fun c => ?_⟩
        · have hu' : s.waiter c = some u := by
            cases c <;> exact hu
          obtain ⟨hb, c₂, huc, hc₂⟩ := h.parked hu'
          have huw : u ≠ w := by
            rintro rfl
            rw [hwc] at huc
            cases huc
          exact ⟨(hother huw).trans hb, c₂, huc, hc₂⟩
        · have huw : u ≠ w := by
            rintro rfl
            rw [hwc] at hu
            cases hu
          have hpoint := h.pointed hu ((hother huw).symm.trans hb)
          cases c <;> exact hpoint
        · have huw : u ≠ w := by
            rintro rfl
            exact hnd.1 hu
          obtain ⟨hb, hc⟩ := h.queued (u := u) (by rw [hcons]; exact List.mem_cons_of_mem w hu)
          exact ⟨(hother huw).trans hb, hc⟩
        · by_cases huw : u = w
          · rw [huw]
            exact update_self ..
          · exact (hother huw).trans hu
        · cases c <;> rfl
      · cases hs

theorem Parked.lockRelease (h : Parked s) (hs : s.lockRelease t = some s') :
    Parked s' ∧ Same s s' ∧ Wakes s s' ∧ ∀ c, s'.waiter c = s.waiter c := by
  have hkeep : ∀ (l : Lock ι), l.semaphore = s.lock.semaphore → Parked { s with lock := l } := by
    intro l hl
    refine h.congr rfl rfl (by rw [hl]) fun c => ?_
    cases c <;> rfl
  rw [Sys.lockRelease] at hs
  split at hs
  · cases hs
  · split at hs
    · obtain rfl := Option.some.inj hs
      refine ⟨hkeep _ rfl, ⟨rfl, rfl, rfl⟩, fun u hu => hu, fun c => ?_⟩
      cases c <;> rfl
    · split at hs
      · obtain ⟨hp, hsame, hwakes, hw⟩ := (hkeep ⟨none, s.lock.semaphore, 0⟩ rfl).semaUp hs
        refine ⟨hp, ⟨hsame.ioq, hsame.puts, hsame.gets⟩, hwakes, fun c => (hw c).trans ?_⟩
        cases c <;> rfl
      · cases hs

theorem Parked.semaDown (h : Parked s) (ht : s.blocked t = false) (hs : s.semaDown t c = some s') :
    Parked s' ∧ Same s s' ∧ ∀ c', s'.waiter c' =
      if s.lock.semaphore.value ≠ 0 ∧ c'.isPut = c.isPut then some t else s.waiter c' := by
  rw [Sys.semaDown] at hs
  dsimp only at hs
  split at hs
  · next hv =>
    split at hs
    · cases hs
    · obtain rfl := Option.some.inj hs
      have hw : ∀ c', ({ s with lock.semaphore.waiters := s.lock.semaphore.waiters ++ [t] }.goto t (.down c) true).waiter c' =
          s.waiter c' := by
        intro c'
        cases c' <;> rfl
      refine ⟨⟨fun {c' u} hu => ?_, fun {c' u} hu hb => ?_, fun {u} hu => ?_, ?_⟩, ⟨rfl, rfl, rfl⟩, fun c' => ?_⟩
      · rw [hw] at hu
        have hut : u ≠ t := by
          rintro rfl
          exact h.not_waiter ht hu
        simp only [Sys.goto, update_of_ne hut]
        exact h.parked hu
      · have hut : u ≠ t := by
          rintro rfl
          simp [Sys.goto] at hu
        simp only [Sys.goto, update_of_ne hut] at hu hb
        rw [hw]
        exact h.pointed hu hb
      · have hu' : u ∈ s.lock.semaphore.waiters ++ [t] := hu
        by_cases hut : u = t
        · subst hut
          simp only [Sys.goto, update_self]
          exact ⟨trivial, c, rfl⟩
        · simp only [Sys.goto, update_of_ne hut]
          rcases List.mem_append.mp hu' with hm | hm
          · exact h.queued hm
          · exact absurd (List.mem_singleton.mp hm) hut
      · exact List.nodup_append.mpr ⟨h.nodup, List.nodup_singleton t, by
          rintro u hu v hv rfl
          exact h.not_queued ht (List.mem_singleton.mp hv ▸ hu)⟩
      · rw [hw, if_neg fun hc => hc.1 hv]
  · next hv =>
    split at hs
    · have hp : Parked { s with lock := ⟨some t, ⟨s.lock.semaphore.value - 1, s.lock.semaphore.waiters⟩, 1⟩ } := by
        refine h.congr rfl rfl rfl fun c => ?_
        cases c <;> rfl
      obtain ⟨hp', hsame, hw⟩ := hp.ioqWait ht hs
      refine ⟨hp', ⟨hsame.ioq, hsame.puts, hsame.gets⟩, fun c' => (hw c').trans ?_⟩
      simp only [ne_eq, hv, not_false_eq_true, true_and]
      cases c' <;> rfl
    · cases hs

theorem Parked.lockAcquire (h : Parked s) (ht : s.blocked t = false) (hs : s.lockAcquire t c = some s') :
    Parked s' ∧ Same s s' ∧ ∀ c', s'.waiter c' = s.waiter c' ∨ c'.isPut = c.isPut := by
  rw [Sys.lockAcquire] at hs
  split at hs
  · obtain ⟨hp, hsame, hw⟩ := h.semaDown ht hs
    refine ⟨hp, hsame, fun c' => ?_⟩
    rw [hw]
    split
    · next hc => exact Or.inr hc.2
    · exact Or.inl rfl
  · have hp : Parked { s with lock.holderRepeatNr := (s.lock.holderRepeatNr + 1) % 2 ^ 32 } := by
      refine h.congr rfl rfl rfl fun c => ?_
      cases c <;> rfl
    obtain ⟨hp', hsame, hw⟩ := hp.ioqWait ht hs
    refine ⟨hp', ⟨hsame.ioq, hsame.puts, hsame.gets⟩, fun c' => ?_⟩
    rw [hw]
    split
    · next hc => exact Or.inr hc
    · left
      cases c' <;> rfl

end Steps

section Bytes

theorem Fifo.getByte (hf : Fifo s) (hp : Parked s) (hne : s.mustWait (.get 0) = false) :
    ∃ s', s.getByte = some s' ∧ Fifo s' ∧ Parked s' ∧ Wakes s s' ∧ (Calm s → Calm s') ∧ s'.puts = s.puts ∧
      ∃ b, s'.gets = s.gets ++ [b] ∧ s.queue = b :: s'.queue := by
  have hne' : s.ioq.head ≠ s.ioq.tail := by
    rw [ne_eq, ← mustWait_get_eq s 0, hne]
    exact Bool.false_ne_true
  have hpop := Ring.contents_pop hf.head hf.tail hne' s.ioq.buf
  generalize hy : ({ s with
    ioq.tail := nextPos s.ioq.tail
    gets := s.gets ++ [s.ioq.buf s.ioq.tail] } : Sys ι) = y
  have hpy : Parked y := by
    subst hy
    refine hp.congr rfl rfl rfl fun c => ?_
    cases c <;> rfl
  obtain ⟨s', hs', hp', hsame, hwakes, hw⟩ := hpy.wakeup (.put 0)
  have hqy : s.queue = s.ioq.buf s.ioq.tail :: y.queue := by
    rw [Sys.queue, hpop, ← hy]
    rfl
  have hfy : Fifo y := by
    refine ⟨?_, ?_, ?_⟩
    · rw [← hy]
      exact hf.head
    · rw [← hy]
      exact Nat.mod_lt _ (by decide)
    · have hputs : y.puts = s.puts := by rw [← hy]
      have hgets : y.gets = s.gets ++ [s.ioq.buf s.ioq.tail] := by rw [← hy]
      rw [hputs, hgets, hf.order, hqy, List.append_assoc, List.singleton_append]
  refine ⟨s', ?_, hfy.same hsame, hp', fun u hu => hwakes u ?_, fun hcalm c hc => ?_, ?_, s.ioq.buf s.ioq.tail, ?_, ?_⟩
  · rw [← hs', ← hy]
    rfl
  · rw [← hy]
    exact hu
  · -- a consumer that waits would have found the queue empty
    rw [hw] at hc
    cases c with
    | put b => exact absurd rfl hc
    | get n =>
      have hcy : y.waiter (.get n) = s.waiter (.get n) := by
        rw [← hy]
        rfl
      have hc' : s.waiter (.get n) ≠ none := by
        rw [← hcy]
        simpa [Call.isPut] using hc
      have := hcalm _ hc'
      rw [mustWait_congr s (c := .get n) (d := .get 0) rfl, hne] at this
      cases this
  · rw [hsame.puts, ← hy]
  · rw [hsame.gets, ← hy]
  · rw [hqy, hsame.queue]

theorem Fifo.putByte (hf : Fifo s) (hp : Parked s) {b : UInt8} (hfull : s.mustWait (.put b) = false) :
    ∃ s', s.putByte b = some s' ∧ Fifo s' ∧ Parked s' ∧ Wakes s s' ∧ (Calm s → Calm s') := by
  have hfull' : (s.ioq.head + 1) % bufsize ≠ s.ioq.tail := by
    rw [ne_eq, ← mustWait_put_eq s b, hfull]
    exact Bool.false_ne_true
  have hpush := Ring.contents_push hf.head hf.tail hfull' s.ioq.buf b
  generalize hy : ({ s with
    ioq.buf := update s.ioq.buf s.ioq.head b
    ioq.head := nextPos s.ioq.head
    puts := s.puts ++ [b] } : Sys ι) = y
  have hpy : Parked y := by
    subst hy
    refine hp.congr rfl rfl rfl fun c => ?_
    cases c <;> rfl
  obtain ⟨s', hs', hp', hsame, hwakes, hw⟩ := hpy.wakeup (.get 0)
  have hqy : y.queue = s.queue ++ [b] := by
    rw [Sys.queue, Sys.queue, ← hpush, ← hy]
    rfl
  have hfy : Fifo y := by
    refine ⟨?_, ?_, ?_⟩
    · rw [← hy]
      exact Nat.mod_lt _ (by decide)
    · rw [← hy]
      exact hf.tail
    · have hputs : y.puts = s.puts ++ [b] := by rw [← hy]
      have hgets : y.gets = s.gets := by rw [← hy]
      rw [hputs, hgets, hf.order, hqy, List.append_assoc]
  refine ⟨s', ?_, hfy.same hsame, hp', fun u hu => hwakes u ?_, fun hcalm c hc => ?_⟩
  · rw [← hs', ← hy]
    rfl
  · rw [← hy]
    exact hu
  · rw [hw] at hc
    cases c with
    | get n => exact absurd rfl hc
    | put b' =>
      have hcy : y.waiter (.put b') = s.waiter (.put b') := by
        rw [← hy]
        rfl
      have hc' : s.waiter (.put b') ≠ none := by
        rw [← hcy]
        simpa [Call.isPut] using hc
      have := hcalm _ hc'
      rw [mustWait_congr s (c := .put b') (d := .put b) rfl, hfull] at this
      cases this

theorem Fifo.lockAcquire (hf : Fifo s) (hp : Parked s) (ht : s.blocked t = false) (hc : s.mustWait c = true)
    (hs : s.lockAcquire t c = some s') : Fifo s' ∧ Parked s' ∧ (Calm s → Calm s') := by
  obtain ⟨hp', hsame, hw⟩ := hp.lockAcquire ht hs
  refine ⟨hf.same hsame, hp', fun hcalm c' hc' => ?_⟩
  rw [hsame.mustWait]
  rcases hw c' with hw | hw
  · rw [hw] at hc'
    exact hcalm c' hc'
  · rw [mustWait_congr s hw, hc]

theorem Calm.goto (h : Calm s) (pc : Pc) (b : Bool) : Calm (s.goto t pc b) := by
  refine h.same ⟨rfl, rfl, rfl⟩ fun c => ?_
  cases c <;> rfl

theorem Fifo.getLoop (hf : Fifo s) (hp : Parked s) (ht : s.blocked t = false) {left : Nat}
    (hs : Sys.getLoop t left s = some s') : Fifo s' ∧ Parked s' ∧ (Calm s → Calm s') := by
  induction left generalizing s with
  | zero =>
    obtain rfl := Option.some.inj hs
    exact ⟨hf.same ⟨rfl, rfl, rfl⟩, hp.idle ht, fun hcalm => hcalm.goto _ _⟩
  | succ left ih =>
    rw [Sys.getLoop] at hs
    split at hs
    · next hc => exact hf.lockAcquire hp ht hc hs
    · next hc =>
      obtain ⟨s₁, hs₁, hf₁, hp₁, hwakes, hcalm₁, -⟩ := hf.getByte hp (Bool.eq_false_iff.mpr hc)
      rw [hs₁, Option.bind_some] at hs
      obtain ⟨hf', hp', hcalm'⟩ := ih hf₁ hp₁ (hwakes t ht) hs
      exact ⟨hf', hp', fun hcalm => hcalm' (hcalm₁ hcalm)⟩

theorem Fifo.getLoop_run (hf : Fifo s) (hp : Parked s) (ht : s.blocked t = false) {left : Nat}
    (hleft : left ≤ s.queue.length) : ∃ s', Sys.getLoop t left s = some s' ∧ (∃ pc, s'.pc = update pc t .idle) ∧
      s'.gets = s.gets ++ s.queue.take left := by
  induction left generalizing s with
  | zero => exact ⟨_, rfl, ⟨s.pc, rfl⟩, by rw [List.take_zero, List.append_nil]; rfl⟩
  | succ left ih =>
    have hc : s.mustWait (.get (left + 1)) = false := by
      rw [← Bool.not_eq_true, mustWait_get_eq, ← Ring.len_eq_zero hf.tail]
      rw [Sys.queue, Ring.length_contents] at hleft
      omega
    obtain ⟨s₁, hs₁, hf₁, hp₁, hwakes, -, -, b, hgets, hq⟩ := hf.getByte hp hc
    rw [hq, List.length_cons] at hleft
    obtain ⟨s', hs', hpc, hgets'⟩ := ih hf₁ hp₁ (hwakes t ht) (by omega)
    refine ⟨s', ?_, hpc, ?_⟩
    · rw [Sys.getLoop, hc, if_neg Bool.false_ne_true, hs₁, Option.bind_some, hs']
    · rw [hgets', hgets, hq, List.take_succ_cons, List.append_assoc, List.singleton_append]

theorem Fifo.loop (hf : Fifo s) (hp : Parked s) (ht : s.blocked t = false) (hs : s.loop t c = some s') :
    Fifo s' ∧ Parked s' ∧ (Calm s → Calm s') := by
  cases c with
  | get left => exact hf.getLoop hp ht hs
  | put b =>
    rw [Sys.loop] at hs
    split at hs
    · next hc => exact hf.lockAcquire hp ht hc hs
    · next hc =>
      obtain ⟨s₁, hs₁, hf₁, hp₁, hwakes, hcalm₁⟩ := hf.putByte hp (Bool.eq_false_iff.mpr hc)
      rw [hs₁, Option.map_some] at hs
      obtain rfl := Option.some.inj hs
      exact ⟨hf₁.same ⟨rfl, rfl, rfl⟩, hp₁.idle (hwakes t ht), fun hcalm => (hcalm₁ hcalm).goto _ _⟩

end Bytes

/-- A thread that gets the lock it had to wait for finds the queue as it left it. -/
def Sys.Still (s : Sys ι) (t : ι) : Prop :=
  ∀ c, s.pc t = .down c → s.lock.semaphore.value ≠ 0 → s.mustWait c = true

section Turns

theorem Fifo.turn (hf : Fifo s) (hp : Parked s) {call : Call} (hs : s.turn t call = some s') :
    Fifo s' ∧ Parked s' ∧ (s.Still t → Calm s → Calm s') := by
  rw [Sys.turn] at hs
  split at hs
  · cases hs
  · next hb =>
    have ht := Bool.eq_false_iff.mpr hb
    split at hs
    · obtain ⟨hf', hp', hcalm⟩ := hf.loop hp ht hs
      exact ⟨hf', hp', fun _ => hcalm⟩
    · next c hpc =>
      obtain ⟨hp', hsame, hw⟩ := hp.semaDown ht hs
      refine ⟨hf.same hsame, hp', fun hstill hcalm c' hc' => ?_⟩
      rw [hsame.mustWait]
      rw [hw] at hc'
      split at hc'
      · next hc => rw [mustWait_congr s hc.2, hstill c hpc hc.1]
      · exact hcalm c' hc'
    · next c hpc =>
      obtain ⟨s₁, hs₁, hs'⟩ := Option.bind_eq_some_iff.mp hs
      obtain ⟨hp₁, hsame, hwakes, hw⟩ := hp.lockRelease hs₁
      obtain ⟨hf', hp', hcalm⟩ := (hf.same hsame).loop hp₁ (hwakes t ht) hs'
      exact ⟨hf', hp', fun _ h => hcalm (h.same hsame hw)⟩

theorem Reach.fifo (h : Reach s) : Fifo s ∧ Parked s := by
  induction h with
  | init => exact ⟨fifo_init, parked_init⟩
  | turn _ t call hs ih =>
    obtain ⟨hf, hp, -⟩ := ih.1.turn ih.2 hs
    exact ⟨hf, hp⟩

/-- The queue is a bounded FIFO, and `pipe_read` takes what is there without waiting. -/
theorem ioqueue_fifo (h : Reach s) :
    (s.ioq.head < bufsize ∧ s.ioq.tail < bufsize) ∧
      s.puts.length = s.gets.length + ioqLength s.ioq ∧ ioqLength s.ioq ≤ 2047 ∧ s.gets <+: s.puts ∧
      ∀ t count, s.blocked t = false → s.pc t = .idle → ∃ s', s.pipeRead t count = some s' ∧ s'.pc t = .idle ∧
        s'.gets = s.gets ++ (s.puts.drop s.gets.length).take (min count (ioqLength s.ioq)) := by
  obtain ⟨hf, hp⟩ := h.fifo
  have hlt := hf.length_lt
  refine ⟨⟨hf.head, hf.tail⟩, hf.length, Nat.le_of_lt_succ hlt, ⟨s.queue, hf.order.symm⟩, fun t count ht hpc => ?_⟩
  have hsize : (if count < ioqLength s.ioq then count else ioqLength s.ioq) = min count (ioqLength s.ioq) := by
    split <;> omega
  have hlen : s.queue.length = ioqLength s.ioq := Ring.length_contents _
  have hle : min count (ioqLength s.ioq) ≤ s.queue.length := by omega
  obtain ⟨s', hs', ⟨pc, hpc'⟩, hgets⟩ := hf.getLoop_run hp ht hle
  refine ⟨s', ?_, by rw [hpc', update_self], ?_⟩
  · rw [Sys.pipeRead, hsize, Sys.turn, ht, if_neg Bool.false_ne_true, hpc]
    exact hs'
  · rw [hgets, hf.order, List.drop_left]

inductive StillReach : Sys ι → Prop
  | init : StillReach init
  | turn {s s' : Sys ι} (h : StillReach s) (t : ι) (call : Call) (hstill : s.Still t)
      (hs : s.turn t call = some s') : StillReach s'

theorem StillReach.calm (h : StillReach s) : Fifo s ∧ Parked s ∧ Calm s := by
  induction h with
  | init => exact ⟨fifo_init, parked_init, fun c hc => by cases c <;> exact absurd rfl hc⟩
  | turn _ t call hstill hs ih =>
    obtain ⟨hf, hp, hcalm⟩ := ih
    obtain ⟨hf', hp', hcalm'⟩ := hf.turn hp hs
    exact ⟨hf', hp', hcalm' hstill hcalm⟩

end Turns

section Example

def runTurns : List (ι × Call) → Sys ι → Option (Sys ι)
  | [], s => some s
  | (t, call) :: turns, s => (s.turn t call).bind (runTurns turns)

theorem Reach.run {turns : List (ι × Call)} (h : Reach s) (hs : runTurns turns s = some s') : Reach s' := by
  induction turns generalizing s with
  | nil =>
    obtain rfl := Option.some.inj hs
    exact h
  | cons turn turns ih =>
    obtain ⟨s₁, hs₁, hs'⟩ := Option.bind_eq_some_iff.mp hs
    exact ih (h.turn turn.1 turn.2 hs₁) hs'

def oneByte : Sys Nat := (runTurns [(3, .put 0x61)] init).get (by decide)

theorem pipe_read_one_byte : ∃ s', oneByte.pipeRead 1 5 = some s' ∧ s'.pc 1 = .idle ∧ s'.gets = [0x61] := by
  have hreach : Reach oneByte := Reach.init.run (Option.some_get _).symm
  exact (ioqueue_fifo hreach).2.2.2.2 1 5 (by decide) (by decide)

def lateTurns : List (Nat × Call) :=
  [(1, .get 1), (2, .get 1), (3, .put 0x61), (3, .put 0x62), (1, .get 0), (2, .get 0)]

def late : Sys Nat := (runTurns lateTurns init).get (by decide)

end Example

end TrueOs.Ioqueue
