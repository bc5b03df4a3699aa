import TrueOs.Userprog.Family

/-! A parent that waits has no child that has exited, unless the child came to it by adoption:
`sys_exit` wakes the parent of the task that exits, and not the one that gets its children. -/

namespace TrueOs.Sched

open Prog Mm

variable {s t : Sys}

def NoneWaitsForDead (s : Sys) : Prop :=
  ∀ u ∈ s.allList, ∀ v ∈ s.allList, s.status u = .waiting → s.parentPid v = s.pid u → s.status v ≠ .hanging

/-- When the running task may exit: it leaves no dead child to a first process that sleeps on. -/
def Orderly (s : Sys) : Prop :=
  (∀ v ∈ s.allList, s.parentPid v = s.pid s.cur → s.status v ≠ .hanging) ∨ s.parentPid s.cur = 1 ∨
    ∀ a ∈ s.allList, s.pid a = 1 → s.status a ≠ .waiting

theorem NoneWaitsForDead.calm (h : NoneWaitsForDead s) (e : Calm s t) : NoneWaitsForDead t := by
  intro u hu v hv hw hp
  rw [e.allList] at hu hv
  rw [e.waiting] at hw
  rw [e.parentPid, e.pid] at hp
  rw [Ne, e.hanging]
  exact h u hu v hv hw hp

theorem NoneWaitsForDead.drop (h : NoneWaitsForDead s) (hn : s.allList.Nodup) (u p : Nat) :
    NoneWaitsForDead ((s.drop u).setPid p false) := by
  intro v hv w hw hs hp
  obtain ⟨hvu, hv⟩ := hn.mem_erase_iff.1 hv
  obtain ⟨hwu, hw⟩ := hn.mem_erase_iff.1 hw
  have hst : ∀ x, x ≠ u → ((s.drop u).setPid p false).status x = s.status x := fun x hx => Sys.status_of_ne hx _
  rw [hst v hvu] at hs
  rw [hst w hwu]
  exact h v hv w hw hs hp

theorem NoneWaitsForDead.joined (h : NoneWaitsForDead s) {u p : Nat} {parent : Int}
    (hj : Joined s t u p parent) : NoneWaitsForDead t := by
  intro v hv w hw hs hp
  rcases (hj.mem w).1 hw with hw | rfl
  · rcases (hj.mem v).1 hv with hv | rfl
    · rw [(hj.old v hv).2.2.1] at hs
      rw [(hj.old v hv).1, (hj.old w hw).2.1] at hp
      rw [(hj.old w hw).2.2.1]
      exact h v hv w hw hs hp
    · rw [hj.status] at hs
      cases hs
  · rw [hj.status]
    decide

theorem NoneWaitsForDead.blocked (h : NoneWaitsForDead s) (hc : SameFamily s t)
    (hno : ∀ u ∈ s.allList, s.parentPid u = s.pid s.cur → s.status u ≠ .hanging)
    (hw : ∀ u, t.status u = .waiting ↔ u = s.cur ∨ s.status u = .waiting) : NoneWaitsForDead t := by
  intro u hu v hv hs hp
  rw [hc.allList] at hu hv
  rw [hc.parentPid, hc.pid] at hp
  rw [Ne, hc.hanging]
  rcases (hw u).1 hs with rfl | hs
  · exact hno v hv hp
  · exact h u hu v hv hs hp

theorem Exited.iff_orderly {status : Int} (he : Exited status s t) (hf : Family s) (hi : Inv s)
    (h : NoneWaitsForDead s) : NoneWaitsForDead t ↔ Orderly s := by
  have hpar : ∀ u ∈ s.allList, t.parentPid u = if s.parentPid u = s.pid s.cur then 1 else s.parentPid u := by
    intro u hu
    rw [he.parentPid, foldl_adopt]
    simp [hu]
  constructor
  · intro ht
    by_contra hno
    simp only [Orderly, not_or, not_forall, not_not] at hno
    obtain ⟨⟨v, hv, hvp, hvs⟩, hpc, a, ha, ha1, haw⟩ := hno
    refine ht a (he.allList ▸ ha) v (he.allList ▸ hv) ?_ ?_ ((he.hanging v).2 (.inr hvs))
    · exact (he.waiting a ha).2 ⟨haw, by rw [ha1]; exact fun e => hpc (by rw [← e]; rfl)⟩
    · rw [hpar v hv, if_pos hvp, he.pid, ha1]
      rfl
  · intro ho u hu v hv hw hp hs
    rw [he.allList] at hu hv
    obtain ⟨hw, hup⟩ := (he.waiting u hu).1 hw
    rw [hpar v hv, he.pid] at hp
    rcases (he.hanging v).1 hs with rfl | hs
    · -- the one that has exited: its parent has just been woken
      rw [if_neg (hf.own _ hi.curMem)] at hp
      exact hup hp.symm
    · by_cases hvc : s.parentPid v = s.pid s.cur
      · rw [if_pos hvc] at hp
        have hu1 : s.pid u = 1 := by omega
        rcases ho with ho | ho | ho
        · exact ho v hv hvc hs
        · exact hup (by rw [hu1, ho]; rfl)
        · exact ho u hu hu1 hw
      · rw [if_neg hvc] at hp
        exact h u hu v hv hw hp hs

theorem Step.iff_orderly {c d : Sys × Hist} (hs : Step c d) (hw : Whole c.1 c.2) (h : NoneWaitsForDead c.1) :
    NoneWaitsForDead d.1 ↔ (d.2.exits ≠ c.2.exits → Orderly c.1) := by
  obtain ⟨hi, hf, hr⟩ := hw
  cases hs with
  | other ho hn hrun =>
    obtain ⟨-, hc⟩ := (safe_neutral hi ho hn).of_run hrun
    exact iff_of_true (h.calm hc) fun e => absurd rfl e
  | exitMain hm hrun =>
    obtain ⟨-, hc⟩ := (safe_exitMain hi hm).of_run hrun
    exact iff_of_true ((h.drop hi.all _ _).calm hc.calm) fun e => absurd rfl e
  | @fork s t g page room r hu hp hrun =>
    obtain ⟨-, hc⟩ := (safe_sysFork hi (fun u e => (hp u e).1) room).of_run hrun
    rcases hc with ⟨rfl, rfl | ⟨i, -, rfl⟩⟩ | ⟨u, i, hpage, rfl, hfree, rfl⟩
    · exact iff_of_true h fun e => absurd rfl e
    · exact iff_of_true h fun e => absurd rfl e
    · exact iff_of_true (h.joined (Sys.joined (hp u hpage).1 _ _ _)) fun e => absurd rfl e
  | exit hu hrun =>
    obtain ⟨-, -, he⟩ := (hf.safe_exit hi hu _).of_run hrun
    rw [he.iff_orderly hf hi h]
    exact ⟨fun ho _ => ho, fun ho => ho (List.cons_ne_self _ _)⟩
  | @wait s t g r hu hrun =>
    obtain ⟨-, hc⟩ := (safe_sysWait hi hu.2).of_run hrun
    cases r with
    | child p st =>
      obtain ⟨u, hm, -, -, rfl, rfl, rfl⟩ := hc
      refine iff_of_true (h.drop hi.all _ _) fun e => absurd ?_ e
      simp only [Hist.waited, pid2thread_eq hf.distinct hm]
    | noChild =>
      have e : t = s := hc
      subst e
      exact iff_of_true h fun e => absurd rfl e
    | blocked => exact iff_of_true (h.blocked hc.1 hc.2.1 hc.2.2) fun e => absurd rfl e

inductive OrderlyRun : Sys × Hist → Prop
  | boot {init main idle : Nat} (hn : [init, main, idle].Nodup) (value : Nat → Nat) :
      OrderlyRun (boot init main idle value, Hist.boot init main)
  | step {c d : Sys × Hist} (hc : OrderlyRun c) (hs : Step c d) (ho : d.2.exits ≠ c.2.exits → Orderly c.1) :
      OrderlyRun d

theorem OrderlyRun.run {c : Sys × Hist} (h : OrderlyRun c) : Run c := by
  induction h with
  | boot hn value => exact .boot hn value
  | step _ hs _ ih => exact .step ih hs

theorem OrderlyRun.none {c : Sys × Hist} (h : OrderlyRun c) : NoneWaitsForDead c.1 := by
  induction h with
  | boot hn value =>
    intro u _ v _ hw
    simp only [Sched.boot] at hw
    split_ifs at hw
  | step hc hs ho ih => exact (hs.iff_orderly hc.run.whole ih).2 ho

inductive Call
  | tick | exitMain | fork (u : Nat) | exit (status : Int) | wait

def Call.play : Call → Sys × Hist → Option (Sys × Hist)
  | .tick, (s, h) =>
    match (schedule.on s).run with
    | .ok (_, t) => some (t, h)
    | .error _ => none
  | .exitMain, (s, h) =>
    if s.cur = s.mainThread then
      match ((threadExit s.cur true).on s).run with
      | .ok (_, t) => some (t, h)
      | .error _ => none
    else none
  | .fork u, (s, h) =>
    if s.cur ≠ s.mainThread ∧ s.cur ≠ s.idleThread ∧ u ∉ s.allList ∧ u ≠ s.mainThread then
      match ((sysFork (some u) true).on s).run with
      | .ok (r, t) => some (t, h.forked r)
      | .error _ => none
    else none
  | .exit status, (s, h) =>
    if s.cur ≠ s.mainThread ∧ s.cur ≠ s.idleThread then
      match ((sysExit status).on s).run with
      | .ok (_, t) => some (t, h.exited s.cur status)
      | .error _ => none
    else none
  | .wait, (s, h) =>
    if s.cur ≠ s.mainThread ∧ s.cur ≠ s.idleThread then
      match (sysWait.on s).run with
      | .ok (r, t) => some (t, h.waited s r)
      | .error _ => none
    else none

theorem Call.step {a : Call} {c d : Sys × Hist} (h : a.play c = some d) : Step c d := by
  obtain ⟨s, g⟩ := c
  cases a <;> simp only [play, Option.ite_none_right_eq_some] at h
  case tick =>
    split at h <;> cases h
    next hr => exact .other (o := .tick) trivial trivial hr
  all_goals
    obtain ⟨hu, h⟩ := h
    split at h <;> cases h
    next hr => first
      | exact .exitMain hu hr
      | exact .exit hu hr
      | exact .wait hu hr
      | exact .fork ⟨hu.1, hu.2.1⟩ (fun v e => by cases e; exact hu.2.2) hr

def playAll : List Call → Sys × Hist → Option (Sys × Hist)
  | [], c => some c
  | a :: l, c => (a.play c).bind (playAll l)

theorem Run.playAll {l : List Call} {c d : Sys × Hist} (hc : Run c) (h : Sched.playAll l c = some d) : Run d := by
  induction l generalizing c with
  | nil =>
    cases h
    exact hc
  | cons a l ih =>
    obtain ⟨e, he, hd⟩ := Option.bind_eq_some_iff.1 h
    exact ih (hc.step (Call.step he)) hd

def threeGenerations : List Call :=
  [.exitMain, .fork 4, .wait, .tick, .fork 5, .tick, .tick, .fork 6, .tick, .tick, .tick, .exit 0, .exit 0]

end TrueOs.Sched
