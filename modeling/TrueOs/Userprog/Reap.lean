import TrueOs.Kernel.Pages
import TrueOs.Userprog.Process

/-! What a child costs the kernel that is forked, exits and is waited for. -/

namespace TrueOs.Mm

open Prog

section Frame

theorem keeps_allocatePid : Keeps SameKv allocatePid := by
  refine .bind keeps_get fun m => .bind (keeps_bitmapScan _ _) fun r => ?_
  split
  · exact keeps_halt _
  · refine .bind keeps_get fun m => .bind (keeps_bitmapSet _ _ _) fun b => ?_
    exact .bind (keeps_modify fun _ => ⟨rfl, rfl⟩) fun _ => keeps_pure _

theorem keeps_releasePid (pid : Nat) : Keeps SameKv (releasePid pid) :=
  .bind keeps_get fun _ => .bind (keeps_bitmapSet _ _ _) fun _ => keeps_modify fun _ => ⟨rfl, rfl⟩

theorem keeps_pageDirActivate (p : Nat) : Keeps SameKv (pageDirActivate p) := keeps_modify fun _ => ⟨rfl, rfl⟩

theorem keeps_copyPage (child parent bufPage page : Nat) :
    Keeps SameKv (copyPage child parent bufPage page) := by
  refine .bind (keeps_readPage _) fun b => .bind (keeps_writePage _ _) fun _ => ?_
  refine .bind (keeps_pageDirActivate _) fun _ => .bind ?_ fun _ => ?_
  · refine .bind (keeps_palloc _) fun r => ?_
    split
    · exact keeps_pure _
    · exact .bind (keeps_pageTableAdd _ _) fun _ => keeps_pure _
  · refine .bind (keeps_readPage _) fun b => .bind (keeps_writePage _ _) fun _ => ?_
    exact keeps_pageDirActivate _

theorem keeps_copyBits (child parent bufPage : Nat) (byte : UInt8) (idxByte left idxBit : Nat) :
    Keeps SameKv (copyBits child parent bufPage byte idxByte left idxBit) := by
  induction left generalizing idxBit with
  | zero => exact keeps_pure _
  | succ left ih =>
    rw [copyBits]
    exact .ite (.bind (keeps_copyPage _ _ _ _) fun _ => ih _) (ih _)

theorem keeps_copyBytes (child parent bufPage : Nat) (bits : Buf) (left idxByte : Nat) :
    Keeps SameKv (copyBytes child parent bufPage bits left idxByte) := by
  induction left generalizing idxByte with
  | zero => exact keeps_pure _
  | succ left ih =>
    have hbits := keeps_copyBits child parent bufPage (bits idxByte) idxByte 8 0
    generalize hc : copyBits child parent bufPage (bits idxByte) idxByte 8 0 = c at hbits
    rw [copyBytes, hc]
    exact .ite (.bind hbits fun _ => ih _) (ih _)

theorem keeps_copyBodyStack3 (child parent bufPage : Nat) :
    Keeps SameKv (copyBodyStack3 child parent bufPage) :=
  .bind (keeps_getTask _) fun _ => keeps_copyBytes _ _ _ _ _ _

theorem keeps_freeFrames (page left pteIdx : Nat) : Keeps SameKv (freeFrames page left pteIdx) := by
  induction left generalizing pteIdx with
  | zero => exact keeps_pure _
  | succ left ih =>
    exact .bind (keeps_getPte _) fun _ => .ite (.bind (keeps_pfree _) fun _ => ih _) (ih _)

theorem keeps_freeTables (t : Task) (left pdeIdx : Nat) : Keeps SameKv (freeTables t left pdeIdx) := by
  induction left generalizing pdeIdx with
  | zero => exact keeps_pure _
  | succ left ih =>
    have hframes := keeps_freeFrames (pdeIdx * 1024) 1024 0
    generalize hc : freeFrames (pdeIdx * 1024) 1024 0 = c at hframes
    rw [freeTables, hc]
    split
    · exact .bind hframes fun _ => .bind (keeps_pfree _) fun _ => ih _
    · exact ih _

end Frame

section Count

def kernelUsed (m : Mm) : Nat := m.kernelVaddr.used

structure Held (n : Nat) (f : Nat → Option Bitmap) (m : Mm) : Prop where
  maps : m.maps = f
  used : n ≤ m.kernelUsed

variable {n : Nat} {f : Nat → Option Bitmap} {s : Mm}

theorem Held.same {t : Mm} (h : Held n f s) (hst : SameKv s t) : Held n f t :=
  ⟨hst.maps.trans h.maps, h.used.trans_eq (congrArg Bitmap.used hst.kv).symm⟩

theorem Held.of_le {k : Nat} (h : Held n f s) (hk : k ≤ n) : Held k f s := ⟨h.maps, hk.trans h.used⟩

theorem sat_held {α : Type} {c : Prog Mm Buf α} (h : Keeps SameKv c) (hs : Held n f s)
    {Q : α → Mm → Prop} (hQ : ∀ a t, Held n f t → Q a t) : (c.on s).Sat True Q :=
  (h s).mono fun a t ht => hQ a t (hs.same ht)

theorem sat_getKernelPages_held (hs : Held n f s) (pgCnt : Nat) :
    ((getKernelPages pgCnt).on s).Sat True
      (fun r t => Held n f t ∧ (r.isSome = true → Held (n + pgCnt) f t)) := by
  rw [getKernelPages, sat_bind, mallocPage]
  simp only [sat_bind, sat_assert]
  refine ⟨fun _ => ?_, fun _ => trivial⟩
  rw [vaddrGet]
  simp only [sat_bind, sat_get]
  refine (Bitmap.sat_bitmapScan_run _ _ s).mono fun r t ht => ?_
  obtain ⟨rfl, hrun⟩ := ht
  cases r with
  | none => exact ⟨hs, fun h => by cases h⟩
  | some i =>
    simp only [sat_bind, sat_get]
    refine (used_setRun_true (hrun i rfl) t).mono fun b u hu => ?_
    obtain ⟨rfl, hb⟩ := hu
    simp only [sat_modify, sat_pure, sat_bind]
    have hheld : Held (n + pgCnt) f { u with kernelVaddr := b } := by
      refine ⟨hs.maps, ?_⟩
      have hle : n ≤ u.kernelVaddr.used := hs.used
      change n + pgCnt ≤ b.used
      omega
    refine sat_held (keeps_mapPages _ _ _) hheld fun ok v hv => ?_
    cases ok with
    | false => exact ⟨hv.of_le (by omega), fun h => by cases h⟩
    | true =>
      simp only [if_pos, sat_pure, sat_bind]
      exact sat_held (keeps_clearPages _ _) hv fun _ w hw => ⟨hw.of_le (by omega), fun _ => hw⟩

theorem sat_mfreePage_held {pgCnt : Nat} (hs : Held (n + pgCnt) f s) (cur page : Nat) :
    ((mfreePage cur .kernel page pgCnt).on s).Sat True (fun _ t => Held n f t) := by
  have hremove : ∀ u : Mm, Held (n + pgCnt) f u →
      ((vaddrRemove cur .kernel page pgCnt).on u).Sat True (fun _ t => Held n f t) := by
    intro u hu
    rw [vaddrRemove]
    simp only [sat_bind, sat_get]
    refine (used_setRun_le false pgCnt _ _ u).mono fun b v hv => ?_
    obtain ⟨rfl, hb⟩ := hv
    refine ⟨hu.maps, ?_⟩
    have hle : n + pgCnt ≤ v.kernelVaddr.used := hu.used
    change n ≤ b.used
    omega
  rw [mfreePage]
  simp only [sat_bind, sat_assert]
  refine ⟨fun _ => ?_, fun _ => trivial⟩
  refine sat_held (keeps_getPte _) hs fun pte t ht => ⟨fun _ => ?_, fun _ => trivial⟩
  split
  · rw [sat_bind]
    exact sat_held (keeps_unmapPages _ _ _) ht fun _ u hu => hremove u hu
  · rw [sat_bind]
    exact sat_held (keeps_unmapPages _ _ _) ht fun _ u hu => hremove u hu

theorem Held.setTask (hs : Held n f s) {p : Nat} {t : Task} (h : s.tasks p = some t) (t' : Task)
    (ht : t'.vaddrBitmap = t.vaddrBitmap) :
    Held n f { s with tasks := Function.update s.tasks p (some t') } :=
  ⟨(maps_update_self h ht).trans hs.maps, hs.used⟩

theorem sat_getTask_held {p : Nat} (hs : Held n f s) {Q : Task → Mm → Prop}
    (hQ : ∀ t, s.tasks p = some t → f p = some t.vaddrBitmap → Q t s) :
    ((getTask p).on s).Sat True Q := by
  refine (sat_getTask_eq p s).mono fun t u hu => ?_
  obtain ⟨rfl, ht⟩ := hu
  refine hQ t ht ?_
  rw [← hs.maps, maps, ht, Option.map_some]

end Count

section Calls

variable {n : Nat} {f : Nat → Option Bitmap} {s : Mm} {child parent : Nat}

theorem sat_copyPcb_held (hs : Held n f s) : ((copyPcbVaddrbitmapStack0 child parent).on s).Sat
    True (fun ok t => ok = true → Held (n + 23) (Function.update f child (f parent)) t) := by
  rw [copyPcbVaddrbitmapStack0, sat_bind]
  refine sat_getTask_held hs fun t _ hlen => ?_
  rw [sat_bind]
  refine sat_held keeps_allocatePid hs fun pid v hv => ?_
  rw [sat_bind]
  refine (sat_getKernelPages_held hv _).mono fun r w hw => ?_
  cases r with
  | none => exact fun h => by cases h
  | some bits =>
    simp only [sat_bind, sat_assert]
    refine ⟨fun _ _ => ⟨?_, (hw.2 rfl).used⟩, fun _ => trivial⟩
    rw [maps_update, hw.1.maps, hlen]

theorem sat_copyProcess_held (hs : Held n f s) : ((copyProcess child parent).on s).Sat True
    (fun ok t => ok = true → Held (n + 24) (Function.update f child (f parent)) t) := by
  rw [copyProcess, sat_bind]
  refine (sat_getKernelPages_held hs 1).mono fun r t ht => ?_
  cases r with
  | none => exact fun h => by cases h
  | some bufPage =>
    dsimp only
    rw [sat_bind]
    refine (sat_copyPcb_held (ht.2 rfl)).mono fun ok u hu => ?_
    cases ok with
    | false => exact fun h => by cases h
    | true =>
      rw [if_pos rfl, sat_bind]
      refine (sat_getKernelPages_held (hu rfl) 1).mono fun r v hv => ?_
      cases r with
      | none => exact fun h => by cases h
      | some pgdir =>
        dsimp only
        rw [sat_bind]
        refine sat_getTask_held (hv.2 rfl) fun t htask _ => ?_
        have hset := (hv.2 rfl).setTask htask { t with pgdir := some pgdir, pde := fun _ => none } rfl
        rw [sat_bind, setTask, sat_modify, sat_bind]
        refine sat_held (keeps_copyBodyStack3 _ _ _) hset fun _ w hw => ?_
        rw [sat_bind]
        exact (sat_mfreePage_held (n := n + 24) (hw.of_le (by omega)) _ _).mono
          fun _ x hx _ => hx

theorem sat_sysFork_held (hs : Held n f s) : ((sysFork parent).on s).Sat True
    (fun r t => ∀ c ∈ r, Held (n + 25) (Function.update f c.1 (f parent)) t) := by
  rw [sysFork, sat_bind]
  refine (sat_getKernelPages_held hs 1).mono fun r t ht => ?_
  cases r with
  | none => exact fun c hc => by cases hc
  | some child =>
    dsimp only
    rw [sat_bind]
    refine sat_getTask_held (ht.2 rfl) fun tp _ _ => ?_
    simp only [sat_bind, sat_assert]
    refine ⟨fun _ => ?_, fun _ => trivial⟩
    refine (sat_copyProcess_held (ht.2 rfl)).mono fun ok u hu => ?_
    cases ok with
    | false => exact fun c hc => by cases hc
    | true =>
      have hheld := hu rfl
      simp only [if_pos, sat_bind, sat_get, sat_assert, sat_modify]
      refine ⟨fun _ => ?_, fun _ => trivial⟩
      refine (sat_getTask_eq child _).mono fun tc v hv => ?_
      obtain ⟨rfl, -⟩ := hv
      intro c hc
      obtain rfl := Option.some.inj hc
      exact Held.of_le ⟨hheld.maps, hheld.used⟩ (by omega)

theorem maps_initAdopt (m : Mm) (pid : Nat) : (m.initAdopt pid).maps = m.maps := by
  funext p
  simp only [maps, initAdopt, Option.map_map]
  congr 1
  funext t
  simp only [Function.comp_apply]
  split <;> rfl

theorem sat_sysExit_held {btmp : Bitmap} (hs : Held (n + 22) f s) (hf : f child = some btmp)
    (hlen : btmp.btmpBytesLen = userBitmapLen) :
    ((sysExit child).on s).Sat True (fun _ t => Held n f t) := by
  rw [sysExit, sat_bind]
  refine sat_getTask_held hs fun t _ _ => ?_
  simp only [sat_bind, sat_assert]
  refine ⟨fun _ => ?_, fun _ => trivial⟩
  simp only [sat_modify]
  have hadopt : Held (n + 22) f (s.initAdopt t.pid) := ⟨(maps_initAdopt s t.pid).trans hs.maps, hs.used⟩
  rw [releaseProgResource, sat_bind]
  refine sat_getTask_held hadopt fun t' _ hmap => ?_
  rw [sat_bind]
  refine sat_held (keeps_freeTables _ _ _) hadopt fun _ u hu => ?_
  have hlen' : t'.vaddrBitmap.btmpBytesLen = userBitmapLen := by
    rw [← Option.some.inj (hf.symm.trans hmap), hlen]
  rw [hlen']
  have hbits : Held (n + userBitmapLen / 4096) f u := hu
  refine (sat_mfreePage_held hbits _ _).mono fun _ v hv => ?_
  refine sat_getTask_held hv fun t'' _ _ => ?_
  simp only [sat_get]
  split
  · trivial
  · next parent _ =>
    rw [sat_bind]
    refine sat_getTask_held hv fun tp htp _ => ?_
    have hlast : ∀ w : Mm, Held n f w → ((do
        let t ← getTask child
        setTask child { t with status := .hanging }).on w).Sat True
          (fun _ t => Held n f t) := by
      intro w hw
      rw [sat_bind]
      exact sat_getTask_held hw fun tc htc _ => hw.setTask htc { tc with status := .hanging } rfl
    split
    · rw [sat_bind]
      exact hlast _ (hv.setTask htp { tp with status := .ready } rfl)
    · exact hlast v hv

theorem sat_threadExit_held (hs : Held (n + 2) f s) (cur threadOver : Nat) :
    ((threadExit cur threadOver).on s).Sat True (fun _ t => n ≤ t.kernelUsed) := by
  rw [threadExit, sat_bind]
  refine sat_getTask_held hs fun t ht _ => ?_
  rw [sat_bind, setTask, sat_modify]
  have hdied : Held (n + 1 + 1) f _ := hs.setTask ht { t with status := .died } rfl
  have hrest : ∀ u : Mm, Held (n + 1) f u → ((do
      modify (fun m => { m with threadAllList := m.threadAllList.erase threadOver })
      mfreePage cur .kernel threadOver 1
      modify (fun m => { m with tasks := Function.update m.tasks threadOver none })
      releasePid t.pid : Prog Mm Buf Unit).on u).Sat True (fun _ t => n ≤ t.kernelUsed) := by
    intro u hu
    simp only [sat_bind, sat_modify]
    refine (sat_mfreePage_held (s := { u with threadAllList := u.threadAllList.erase threadOver })
      ⟨hu.maps, hu.used⟩ _ _).mono fun _ v hv => ?_
    refine sat_held (f := Mm.maps { v with tasks := Function.update v.tasks threadOver none })
      (keeps_releasePid _) ⟨rfl, hv.used⟩ fun _ w hw => hw.used
  split
  · rw [sat_bind]
    exact (sat_mfreePage_held hdied _ _).mono fun _ u hu => hrest u hu
  · exact hrest _ (hdied.of_le (by omega))

theorem sat_sysWait_held (hs : Held (n + 2) f s) : ((sysWait parent).on s).Sat True
    (fun _ t => n ≤ t.kernelUsed) := by
  rw [sysWait, sat_bind]
  refine sat_getTask_held hs fun t _ _ => ?_
  simp only [sat_bind, sat_get]
  split
  · rw [sat_bind]
    refine sat_getTask_held hs fun c _ _ => ?_
    rw [sat_bind]
    exact (sat_threadExit_held hs _ _).mono fun _ u hu => hu
  · simp only [sat_bind, sat_get]
    split
    · exact (hs.of_le (by omega)).used
    · trivial

end Calls

/-- A process forks, its child exits and `sys_wait` returns the child's pid. -/
def forkExitWait (p : Nat) : Prog Mm Buf Bool := do
  pageDirActivate p
  match ← sysFork p with
  | none => return false
  | some (child, pid) =>
    pageDirActivate child
    sysExit child
    pageDirActivate p
    return (← sysWait p) == some pid

structure Restored (s t : Mm) : Prop where
  kernelPool : t.kernelPool = s.kernelPool
  userPool : t.userPool = s.userPool
  kernelVaddr : t.kernelVaddr = s.kernelVaddr
  pidBitmap : t.pidBitmap = s.pidBitmap

theorem sat_forkExitWait {s : Mm} {p : Nat} {btmp : Bitmap} (hp : s.maps p = some btmp)
    (hlen : btmp.btmpBytesLen = userBitmapLen) :
    ((forkExitWait p).on s).Sat True
      (fun r t => r = true → s.kernelUsed + 1 ≤ t.kernelUsed) := by
  rw [forkExitWait, sat_bind]
  refine sat_held (keeps_pageDirActivate p) ⟨rfl, le_rfl⟩ fun _ t ht => ?_
  rw [sat_bind]
  refine (sat_sysFork_held ht).mono fun r u hu => ?_
  rcases r with _ | ⟨child, pid⟩
  · exact fun h => by cases h
  · have hheld := hu _ rfl
    have hmap : Function.update s.maps child (s.maps p) child = some btmp := by
      rw [Function.update_self, hp]
    simp only [sat_bind]
    refine sat_held (keeps_pageDirActivate child) hheld fun _ v hv => ?_
    refine (sat_sysExit_held (n := s.kernelUsed + 1 + 2) ⟨hv.maps, hv.used⟩ hmap hlen).mono fun _ w hw => ?_
    refine sat_held (keeps_pageDirActivate p) hw fun _ x hx => ?_
    exact (sat_sysWait_held hx).mono fun _ y hy _ => hy

/-- No such run gives everything back. -/
theorem fork_exit_wait_leaks {s t : Mm} {p : Nat} {tp : Task} (hp : s.tasks p = some tp)
    (hlen : tp.vaddrBitmap.btmpBytesLen = userBitmapLen)
    (h : ((forkExitWait p).on s).run = .ok (true, t)) : ¬Restored s t := by
  intro hr
  have hmap : s.maps p = some tp.vaddrBitmap := by
    rw [maps, hp, Option.map_some]
  have hlt := (sat_forkExitWait hmap hlen).of_run h rfl
  rw [kernelUsed, kernelUsed, hr.kernelVaddr] at hlt
  omega

section Example

/-- After `mem_init` and `pid_pool_init`. -/
def booted : Mm where
  kernelPool := ⟨480, fun _ => 0⟩
  userPool := ⟨480, fun _ => 0⟩
  kernelVaddr := ⟨480, fun _ => 0⟩
  pidBitmap := ⟨128, fun _ => 0⟩
  kpte := fun _ => ⟨0, false⟩
  tables := fun _ _ => ⟨0, false⟩
  phys := fun _ _ => 0
  tasks := fun _ => none
  threadAllList := []
  active := 0

/-- The first process, named "init". -/
def withInit : Mm := (do
  let p ← processExecute [0x69, 0x6E, 0x69, 0x74]
  startProcess p : Prog Mm Buf Unit).after booted

def reaped : Mm := (forkExitWait kHeapStart).after withInit

theorem withInit_task : (withInit.tasks kHeapStart).map (fun t => t.vaddrBitmap.btmpBytesLen) =
    some userBitmapLen := by decide +kernel

theorem reaped_run : ((forkExitWait kHeapStart).on withInit).run = .ok (true, reaped) :=
  Prog.run_of_gives (by decide +kernel)

theorem init_reaps_child : ((forkExitWait kHeapStart).on withInit).run = .ok (true, reaped) ∧
    ¬Restored withInit reaped := by
  obtain ⟨tp, htp, hlen⟩ := Option.map_eq_some_iff.mp withInit_task
  exact ⟨reaped_run, fork_exit_wait_leaks htp hlen reaped_run⟩

/-- One page of the kernel is missing after `init` has reaped a child. -/
theorem reaped_child_page_lost : ∃ (s t : Mm) (p : Nat),
    ((forkExitWait p).on s).run = .ok (true, t) ∧ t.kernelVaddr ≠ s.kernelVaddr := by
  refine ⟨withInit, reaped, kHeapStart, reaped_run, fun heq => ?_⟩
  obtain ⟨tp, htp, hlen⟩ := Option.map_eq_some_iff.mp withInit_task
  have hmap : withInit.maps kHeapStart = some tp.vaddrBitmap := by
    rw [maps, htp, Option.map_some]
  have hlt := (sat_forkExitWait hmap hlen).of_run reaped_run rfl
  rw [kernelUsed, kernelUsed, heq] at hlt
  omega

end Example

end TrueOs.Mm
