import TrueOs.Thread.Queues

/-! `userprog/wait_exit.c`, without the resources that an exit gives back. -/

namespace TrueOs.Sched

open Prog Mm

/-- What an `int32_t` leaves in an `int8_t`. -/
def int8 (z : Int) : Int := (z + 128) % 256 - 128

def pid2thread (s : Sys) (pid : Int) : Option Nat := s.allList.find? (fun u => (s.pid u : Int) = pid)

/-- Reading through a pointer: for `NULL` this counts as a failed check. -/
def deref : Option Nat → Prog Sys Unit Nat
  | some u => pure u
  | none => do
    assert false
    halt .fault

def findChild (s : Sys) (ppid : Int) (u : Nat) : Bool := s.parentPid u = ppid

def findHangingChild (s : Sys) (ppid : Int) (u : Nat) : Bool := s.parentPid u = ppid ∧ s.status u = .hanging

def initAdoptAChild (pid : Int) (parentPid : Nat → Int) (u : Nat) : Nat → Int :=
  if parentPid u = pid then Function.update parentPid u 1 else parentPid

/-- What `sys_wait` does before it returns or blocks: it may have taken leave of a child. -/
inductive Waited
  | child (pid : Nat) (status : Int)
  | noChild
  | blocked

/-- One turn of the loop. -/
def sysWait : Prog Sys Unit Waited := do
  let s ← get
  let ppid : Int := s.pid s.cur
  match s.allList.find? (findHangingChild s ppid) with
  | some childThread =>
    let status := s.exitStatus childThread
    let childPid := s.pid childThread
    threadExit childThread false
    return .child childPid status
  | none =>
    match s.allList.find? (findChild s ppid) with
    | none => return .noChild
    | some _ =>
      threadBlock .waiting
      return .blocked

def sysExit (status : Int) : Prog Sys Unit Unit := do
  let childThread := (← get).cur
  modify (fun s => { s with exitStatus := Function.update s.exitStatus childThread (int8 status) })
  if (← get).parentPid childThread = -1 then
    halt .fault
  else
    modify (fun s => { s with parentPid := s.allList.foldl (initAdoptAChild (s.pid childThread)) s.parentPid })
    let parentThread ← deref (pid2thread (← get) ((← get).parentPid childThread))
    if (← get).status parentThread = .waiting then
      threadUnblock parentThread
    else
      pure ()
    threadBlock .hanging

theorem foldl_adopt (pid : Int) (l : List Nat) (f : Nat → Int) (u : Nat) :
    l.foldl (initAdoptAChild pid) f u = if u ∈ l ∧ f u = pid then 1 else f u := by
  induction l generalizing f with
  | nil => simp
  | cons v l ih =>
    rw [List.foldl_cons, ih, initAdoptAChild]
    by_cases hv : f v = pid
    · rw [if_pos hv]
      by_cases hu : u = v
      · subst hu
        simp [hv]
      · simp [hu]
    · rw [if_neg hv]
      by_cases hu : u = v
      · subst hu
        simp [hv]
      · simp [hu]

variable {s t : Sys}

theorem Moved.hanging (h : Moved s t) (u : Nat) : t.status u = .hanging ↔ s.status u = .hanging := by
  rcases h.status u with e | ⟨a, b⟩
  · rw [e]
  · rcases a with e | e | e <;> rcases b with e' | e' <;> simp [e, e']

theorem Moved.waiting (h : Moved s t) (u : Nat) : t.status u = .waiting ↔ s.status u = .waiting := by
  rcases h.status u with e | ⟨a, b⟩
  · rw [e]
  · rcases a with e | e | e <;> rcases b with e' | e' <;> simp [e, e']

structure SameTasks (s t : Sys) : Prop where
  allList : t.allList = s.allList
  pid : t.pid = s.pid
  pidBitmap : t.pidBitmap = s.pidBitmap
  mainThread : t.mainThread = s.mainThread
  idleThread : t.idleThread = s.idleThread

structure SameFamily (s t : Sys) : Prop extends SameTasks s t where
  parentPid : t.parentPid = s.parentPid
  exitStatus : t.exitStatus = s.exitStatus
  hanging : ∀ u, t.status u = .hanging ↔ s.status u = .hanging

/-- And nobody begins or ends to wait for a child. -/
structure Calm (s t : Sys) : Prop extends SameFamily s t where
  waiting : ∀ u, t.status u = .waiting ↔ s.status u = .waiting

theorem Moved.calm (h : Moved s t) : Calm s t :=
  ⟨⟨⟨h.allList, h.pid, h.pidBitmap, h.mainThread, h.idleThread⟩, h.parentPid, h.exitStatus, h.hanging⟩, h.waiting⟩

theorem Calm.trans {r : Sys} (h : Calm s t) (h' : Calm t r) : Calm s r where
  allList := h'.allList.trans h.allList
  pid := h'.pid.trans h.pid
  pidBitmap := h'.pidBitmap.trans h.pidBitmap
  mainThread := h'.mainThread.trans h.mainThread
  idleThread := h'.idleThread.trans h.idleThread
  parentPid := h'.parentPid.trans h.parentPid
  exitStatus := h'.exitStatus.trans h.exitStatus
  hanging := fun u => (h'.hanging u).trans (h.hanging u)
  waiting := fun u => (h'.waiting u).trans (h.waiting u)

theorem Calm.setStatus {u : Nat} {st : TaskStatus} (hu : s.status u ≠ .hanging ∧ s.status u ≠ .waiting)
    (hst : st ≠ .hanging ∧ st ≠ .waiting) : Calm s (s.setStatus u st) := by
  refine ⟨⟨⟨rfl, rfl, rfl, rfl, rfl⟩, rfl, rfl, fun v => ?_⟩, fun v => ?_⟩
  all_goals
    by_cases hv : v = u
    · subst hv
      rw [Sys.status_self]
      simp [hu, hst]
    · rw [Sys.status_of_ne hv]

/-- The calls that have nothing to do with parents and children. -/
def Neutral (s : Sys) : Op → Prop
  | .tick | .yield | .down _ | .up _ => True
  | .block stat => stat = .blocked
  | .unblock u => s.status u = .blocked
  | _ => False

theorem safe_neutral (h : Inv s) {o : Op} (ho : Allowed s o) (hn : Neutral s o) :
    (o.run.on s).Safe (fun _ t => Inv t ∧ Calm s t) := by
  have hblock : Calm s (s.setStatus s.cur .blocked) :=
    Calm.setStatus (by rw [h.running]; decide) (by decide)
  have hwake : ∀ u, s.status u = .blocked → Calm s (s.setStatus u .ready) :=
    fun u hu => Calm.setStatus (by rw [hu]; decide) (by decide)
  cases o with
  | tick => exact (safe_schedule h.toLists fun _ => h.curMem).mono fun _ t ht => ⟨ht.1, ht.2.calm⟩
  | yield => exact (safe_threadYield h).mono fun _ t ht => ⟨ht.1, ht.2.calm⟩
  | block st =>
    have e : st = .blocked := hn
    subst e
    exact (safe_threadBlock h ho.1 ho.2).mono fun _ t ht => ⟨ht.1, hblock.trans ht.2.calm⟩
  | unblock u =>
    refine (h.unblock ho.1 ho.2.1 ho.2.2).mono fun _ t ht => ?_
    obtain ⟨ht, e⟩ := ht
    refine ⟨ht, ?_⟩
    subst e
    exact { hwake u hn with }
  | down k =>
    refine (safe_semaDown h ho k).mono fun _ t ht => ?_
    obtain ⟨ht, e⟩ := ht
    refine ⟨ht, ?_⟩
    rcases e with e | e
    · exact { e.calm with }
    · exact hblock.trans { e.calm with }
  | up k =>
    refine (safe_semaUp h k).mono fun _ t ht => ?_
    obtain ⟨ht, e⟩ := ht
    refine ⟨ht, ?_⟩
    rcases e with rfl | ⟨u, rest, -, hu, rfl⟩
    · exact { (Moved.refl s).calm with }
    · exact { hwake u hu with }
  | start u => exact hn.elim
  | fork page room => exact hn.elim
  | reap u => exact hn.elim
  | exitMain => exact hn.elim

structure Exited (status : Int) (s t : Sys) : Prop extends SameTasks s t where
  parentPid : t.parentPid = s.allList.foldl (initAdoptAChild (s.pid s.cur)) s.parentPid
  exitStatus : t.exitStatus = Function.update s.exitStatus s.cur (int8 status)
  hanging : ∀ u, t.status u = .hanging ↔ u = s.cur ∨ s.status u = .hanging
  waiting : ∀ u ∈ s.allList, t.status u = .waiting ↔ s.status u = .waiting ∧ (s.pid u : Int) ≠ s.parentPid s.cur

def Distinct (s : Sys) : Prop := ∀ u ∈ s.allList, ∀ v ∈ s.allList, s.pid u = s.pid v → u = v

theorem pid2thread_eq (hd : Distinct s) {u : Nat} (hu : u ∈ s.allList) : pid2thread s (s.pid u) = some u := by
  rw [pid2thread]
  cases hf : s.allList.find? (fun v => (s.pid v : Int) = s.pid u) with
  | none => exact absurd (List.find?_eq_none.1 hf u hu) (by simp)
  | some v =>
    have hv := List.find?_some hf
    have hm := List.mem_of_find?_eq_some hf
    simp only [decide_eq_true_eq, Nat.cast_inj] at hv
    rw [hd v hm u hu hv]

structure Leaving (status : Int) (s b : Sys) : Prop extends SameTasks s b where
  inv : Inv b
  cur : b.cur = s.cur
  parentPid : b.parentPid = s.allList.foldl (initAdoptAChild (s.pid s.cur)) s.parentPid
  exitStatus : b.exitStatus = Function.update s.exitStatus s.cur (int8 status)
  hanging : ∀ u, b.status u = .hanging ↔ s.status u = .hanging
  waiting : ∀ u ∈ s.allList, b.status u = .waiting ↔ s.status u = .waiting ∧ (s.pid u : Int) ≠ s.parentPid s.cur

theorem Leaving.block {status : Int} {b : Sys} (hb : Leaving status s b) (hi : s.cur ≠ s.idleThread) :
    ((threadBlock .hanging).on b).Safe (fun _ t => Inv t ∧ Exited status s t) := by
  have hic : b.cur = b.idleThread → TaskStatus.hanging = .blocked := by
    rw [hb.cur, hb.idleThread]
    exact fun e => absurd e hi
  refine (safe_threadBlock hb.inv rfl hic).mono fun _ t ht => ?_
  obtain ⟨ht, hm⟩ := ht
  refine ⟨ht, ⟨?_, ?_, ?_, ?_, ?_⟩⟩
  · exact ⟨hm.allList.trans hb.allList, hm.pid.trans hb.pid, hm.pidBitmap.trans hb.pidBitmap,
      hm.mainThread.trans hb.mainThread, hm.idleThread.trans hb.idleThread⟩
  · exact hm.parentPid.trans hb.parentPid
  · exact hm.exitStatus.trans hb.exitStatus
  · intro u
    rw [hm.hanging, hb.cur]
    by_cases hu : u = s.cur
    · subst hu
      exact iff_of_true (Sys.status_self _ _) (.inl rfl)
    · rw [Sys.status_of_ne hu, or_iff_right hu, hb.hanging]
  · intro u hu
    rw [hm.waiting, hb.cur]
    by_cases hc : u = s.cur
    · subst hc
      have hrun : b.status s.cur = .running := hb.cur ▸ hb.inv.running
      rw [Sys.status_self, ← hb.waiting _ hu, hrun]
      exact iff_of_false (by decide) (by decide)
    · rw [Sys.status_of_ne hc, hb.waiting u hu]

theorem safe_sysExit (h : Inv s) (hd : Distinct s) (hi : s.cur ≠ s.idleThread)
    (hparent : s.parentPid s.cur ≠ -1 → ∃ p ∈ s.allList, (s.pid p : Int) = s.parentPid s.cur)
    (hne : s.parentPid s.cur ≠ s.pid s.cur) (status : Int) :
    ((sysExit status).on s).Safe (fun _ t => Inv t ∧ s.parentPid s.cur ≠ -1 ∧ Exited status s t) := by
  simp only [sysExit, bind_on, get_on, modify_on, Res.safe_bind, Res.safe_done, ite_on]
  split
  · trivial
  next hn =>
  obtain ⟨p, hp, hpid⟩ := hparent hn
  let a : Sys := { s with
    exitStatus := Function.update s.exitStatus s.cur (int8 status)
    parentPid := s.allList.foldl (initAdoptAChild (s.pid s.cur)) s.parentPid }
  have ha : Inv a := { h with }
  have hpa : a.parentPid s.cur = s.pid p := by
    rw [hpid]
    exact (foldl_adopt _ _ _ _).trans (if_neg fun hc => hne hc.2)
  have hfind : pid2thread a (a.parentPid s.cur) = some p := by
    rw [hpa]
    exact pid2thread_eq (s := a) hd hp
  -- a waiting task with the number of the parent is the parent
  have hw : ∀ u ∈ s.allList, (s.pid u : Int) ≠ s.parentPid s.cur ↔ u ≠ p := by
    intro u hu
    rw [← hpid, Ne, Nat.cast_inj]
    exact not_congr ⟨hd u hu p hp, fun e => by rw [e]⟩
  simp only [Res.safe_bind, Res.safe_done]
  change Res.Safe _ ((deref (pid2thread a (a.parentPid s.cur))).on a)
  rw [hfind, deref, pure_on, Res.safe_done]
  split
  · next hwait =>
    have hwait : s.status p = .waiting := hwait
    rw [Res.safe_bind]
    refine (ha.unblock hp (by rw [show a.status p = .waiting from hwait]; rfl)
      (ha.free (by rw [show a.status p = .waiting from hwait]; decide))).mono fun _ b hb => ?_
    obtain ⟨hb, e⟩ := hb
    have hl : Leaving status s b := by
      subst e
      refine ⟨⟨rfl, rfl, rfl, rfl, rfl⟩, hb, rfl, rfl, rfl, fun u => ?_, fun u hu => ?_⟩
      · by_cases hu : u = p
        · rw [hu, Sys.status_self, hwait]
          exact iff_of_false (by decide) (by decide)
        · rw [Sys.status_of_ne hu]
      · rw [hw u hu]
        by_cases hup : u = p
        · rw [hup, Sys.status_self]
          exact iff_of_false (by decide) (by simp)
        · rw [Sys.status_of_ne hup, and_iff_left hup]
    exact (hl.block hi).mono fun _ t ht => ⟨ht.1, hn, ht.2⟩
  · next hwait =>
    have hl : Leaving status s a := by
      refine ⟨⟨rfl, rfl, rfl, rfl, rfl⟩, ha, rfl, rfl, rfl, fun u => Iff.rfl, fun u hu => ?_⟩
      rw [hw u hu]
      refine ⟨fun hs => ⟨hs, ?_⟩, fun hs => hs.1⟩
      rintro rfl
      exact hwait hs
    exact (hl.block hi).mono fun _ t ht => ⟨ht.1, hn, ht.2⟩

/-- What a turn of `sys_wait` has done. -/
def WaitedFor (s t : Sys) : Waited → Prop
  | .child p st => ∃ u ∈ s.allList, s.parentPid u = s.pid s.cur ∧ s.status u = .hanging ∧ s.pid u = p ∧
      s.exitStatus u = st ∧ t = (s.drop u).setPid (p - 1) false
  | .noChild => t = s
  | .blocked => SameFamily s t ∧ (∀ u ∈ s.allList, s.parentPid u = s.pid s.cur → s.status u ≠ .hanging) ∧
      ∀ u, t.status u = .waiting ↔ u = s.cur ∨ s.status u = .waiting

theorem safe_sysWait (h : Inv s) (hi : s.cur ≠ s.idleThread) :
    (sysWait.on s).Safe (fun r t => Inv t ∧ WaitedFor s t r) := by
  simp only [sysWait, bind_on, get_on, Res.safe_bind, Res.safe_done]
  cases hf : s.allList.find? (findHangingChild s (s.pid s.cur)) with
  | some u =>
    have hu := List.find?_some hf
    simp only [findHangingChild, decide_eq_true_eq] at hu
    simp only [bind_on, Res.safe_bind]
    refine (safe_reap h hu.2).mono fun _ t ht => ?_
    obtain ⟨ht, e⟩ := ht
    refine ⟨ht, ?_⟩
    exact ⟨u, List.mem_of_find?_eq_some hf, hu.1, hu.2, rfl, rfl, e⟩
  | none =>
    have hno : ∀ u ∈ s.allList, s.parentPid u = s.pid s.cur → s.status u ≠ .hanging := by
      intro u hu hpar hst
      have := List.find?_eq_none.1 hf u hu
      simp [findHangingChild, hpar, hst] at this
    cases s.allList.find? (findChild s (s.pid s.cur)) with
    | none => exact ⟨h, rfl⟩
    | some c =>
      simp only [bind_on, Res.safe_bind]
      refine (safe_threadBlock h rfl fun e => absurd e hi).mono fun _ t ht => ?_
      obtain ⟨ht, hm⟩ := ht
      refine ⟨ht, ?_, hno, fun u => ?_⟩
      · refine ⟨⟨hm.allList, hm.pid, hm.pidBitmap, hm.mainThread, hm.idleThread⟩, hm.parentPid, hm.exitStatus,
          fun u => ?_⟩
        rw [hm.hanging]
        by_cases hu : u = s.cur
        · rw [hu, Sys.status_self, h.running]
          exact iff_of_false (by decide) (by decide)
        · rw [Sys.status_of_ne hu]
      · rw [hm.waiting]
        by_cases hu : u = s.cur
        · rw [hu, Sys.status_self]
          exact iff_of_true rfl (.inl rfl)
        · rw [Sys.status_of_ne hu, or_iff_right hu]

end TrueOs.Sched
