import Mathlib.Data.List.Rotate
import TrueOs.Lib.Ghost
import TrueOs.Thread.Queues

/-! `device/timer.c`: the clock gives every ready task its slice in turn. -/

namespace TrueOs.Sched

open Function (update update_self update_of_ne)
open Prog

variable {s t : Sys} {priority ticks c : Nat → Nat} {m : Nat}

/-- The second part of the state is the `ticks` byte of each task, which `schedule` fills again in
the branch that puts the task back into the ready list. -/
def intrTimerHandler (priority : Nat → Nat) : Prog (Sys × (Nat → Nat)) Unit Unit := do
  let cur := (← get).1.cur
  if (← get).2 cur = 0 then
    if (← get).1.status cur = .running then
      modify (fun x => (x.1, update x.2 cur (priority cur % 256)))
    else
      pure ()
    lift schedule
  else
    modify (fun x => (x.1, update x.2 cur (x.2 cur - 1)))

def interrupts (priority : Nat → Nat) : Nat → Prog (Sys × (Nat → Nat)) Unit Unit
  | 0 => pure ()
  | n + 1 => do
    interrupts priority n
    intrTimerHandler priority

theorem run_interrupts_succ
    (h : ((interrupts priority m).on (s, ticks)).run = .ok ((), t, c)) :
    ((interrupts priority (m + 1)).on (s, ticks)).run = ((intrTimerHandler priority).on (t, c)).run := by
  rw [interrupts, bind_on, Res.run_bind, h]
  rfl

theorem run_slice (h : ((interrupts priority m).on (s, ticks)).run = .ok ((), t, c)) (j : Nat) (hj : j ≤ c t.cur) :
    ((interrupts priority (m + j)).on (s, ticks)).run = .ok ((), t, update c t.cur (c t.cur - j)) := by
  induction j with
  | zero => rw [Nat.sub_zero, Function.update_eq_self]; exact h
  | succ j ih =>
    rw [← Nat.add_assoc, run_interrupts_succ (ih (by omega))]
    have hn : c t.cur - j ≠ 0 := by omega
    simp [intrTimerHandler, Res.bind, Res.run, hn, Nat.sub_sub]

theorem Inv.nodup_cons (h : Inv s) : (s.cur :: s.readyList).Nodup :=
  List.nodup_cons.2 ⟨h.not_ready (by simp [h.running]), h.nodup⟩

theorem Inv.run_schedule (h : Inv s) :
    ∃ t, (schedule.on s).run = .ok ((), t) ∧ Inv t ∧ t.cur :: t.readyList = s.readyList ++ [s.cur] := by
  have hn := (List.nodup_cons.1 h.nodup_cons).1
  have hr : ∃ t, (schedule.on s).run = .ok ((), t) ∧ t.cur :: t.readyList = s.readyList ++ [s.cur] := by
    cases hl : s.readyList with
    | nil => simp [schedule, requeue, wakeIdle, switch, assert, Res.bind, Res.run, Sys.setStatus, h.running, hl]
    | cons u l =>
      rw [hl] at hn
      simp [schedule, requeue, wakeIdle, switch, assert, Res.bind, Res.run, Sys.setStatus, h.running, hl, hn]
  obtain ⟨t, hr, hq⟩ := hr
  exact ⟨t, hr, ((safe_schedule h.toLists fun _ => h.curMem).of_run hr).1, hq⟩

theorem Inv.run_expiry (h : Inv t) (priority : Nat → Nat) (hc : c t.cur = 0) :
    ∃ r, ((intrTimerHandler priority).on (t, c)).run = .ok ((), r, update c t.cur (priority t.cur % 256)) ∧
      Inv r ∧ r.cur :: r.readyList = t.readyList ++ [t.cur] := by
  obtain ⟨r, hr, hi, hq⟩ := h.run_schedule
  refine ⟨r, ?_, hi, hq⟩
  simp [intrTimerHandler, Res.bind, hc, h.running, Res.run_lift, hr, Except.map]

theorem Inv.round (h : Inv s) (k : Nat) (hk : k ≤ (s.cur :: s.readyList).length) :
    ∃ t c, ((interrupts priority (((s.cur :: s.readyList).take k).map (ticks · + 1)).sum).on (s, ticks)).run =
        .ok ((), t, c) ∧ Inv t ∧ t.cur :: t.readyList = (s.cur :: s.readyList).rotate k ∧
      ∀ u, c u = if u ∈ (s.cur :: s.readyList).take k then priority u % 256 else ticks u := by
  induction k with
  | zero => exact ⟨s, ticks, rfl, h, by rw [List.rotate_zero], fun u => by simp⟩
  | succ k ih =>
    obtain ⟨t, c, hr, hi, hq, hc⟩ := ih (by omega)
    have hnd := h.nodup_cons
    generalize s.cur :: s.readyList = l at *
    -- The task whose turn it is has not run in this round, so its slice is the one it came with.
    have hd : l.drop k = t.cur :: l.drop (k + 1) := by
      have e := List.drop_eq_getElem_cons hk
      rw [List.rotate_eq_drop_append_take (by omega), e] at hq
      rw [e, (List.cons.inj hq).1]
    have hnt : t.cur ∉ l.take k := by
      rw [← List.take_append_drop k l, hd] at hnd
      exact fun hm => (List.nodup_append.1 hnd).2.2 _ hm _ List.mem_cons_self rfl
    have ht : l.take (k + 1) = l.take k ++ [t.cur] := by
      rw [List.take_add, hd]
      rfl
    have hcur : c t.cur = ticks t.cur := by rw [hc, if_neg hnt]
    have hs := run_slice hr (c t.cur) le_rfl
    rw [Nat.sub_self] at hs
    obtain ⟨r, hr', hi', hq'⟩ := hi.run_expiry priority (update_self t.cur 0 c)
    refine ⟨r, update c t.cur (priority t.cur % 256), ?_, hi', ?_, fun u => ?_⟩
    · rw [ht, List.map_append, List.sum_append, List.map_singleton, List.sum_singleton, ← Nat.add_assoc, ← hcur,
        run_interrupts_succ hs, hr', Function.update_idem]
    · rw [hq', ← List.rotate_rotate, ← hq, List.rotate_cons_succ, List.rotate_zero]
    · by_cases hu : u = t.cur
      · subst hu
        simp [ht]
      · simp [ht, hu, hc]

/-- Whatever each task has left of its slice, after the slices of the first `k` tasks the next one
runs, and it runs alone until its own has been used up; those that have had their turn have full
slices again. -/
theorem clock_round_robin (h : Reach s) {k : Nat} (hk : k ≤ (s.cur :: s.readyList).length) :
    ∃ t c, (∀ j ≤ c t.cur,
        ((interrupts priority ((((s.cur :: s.readyList).take k).map (ticks · + 1)).sum + j)).on (s, ticks)).run =
          .ok ((), t, update c t.cur (c t.cur - j))) ∧
      t.cur :: t.readyList = (s.cur :: s.readyList).rotate k ∧
      ∀ u, c u = if u ∈ (s.cur :: s.readyList).take k then priority u % 256 else ticks u := by
  obtain ⟨t, c, hr, -, hq, hc⟩ := h.inv.round k hk
  exact ⟨t, c, run_slice hr, hq, hc⟩

/-- Two slices of 9 ticks after boot the idle thread has its turn. -/
theorem boot_round_robin : ∃ t c, ((interrupts (fun u => if u = 3 then 4 else 8) 18).on
    (boot 1 2 3 fun _ => 1, fun u => if u = 3 then 4 else 8)).run = .ok ((), t, c) ∧ t.cur = 3 ∧ t.readyList = [2, 1] := by
  have hb : Reach (boot 1 2 3 fun _ => 1) := .boot (by decide) _
  generalize he : (fun u => if u = 3 then 4 else 8) = p
  obtain ⟨t, c, hr, hq, -⟩ := @clock_round_robin _ p p hb 2 (by decide)
  obtain ⟨hc, hl⟩ := List.cons.inj hq
  have h := hr 0 (Nat.zero_le _)
  subst he
  exact ⟨t, _, h, hc, hl⟩

end TrueOs.Sched
