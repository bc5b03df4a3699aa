import TrueOs.Userprog.Reap

/-! What a fork that fails leaves behind.  One page is never refused: the scan of a full map
asserts.  So the run of pages for the child's bitmap is what is missing, and by then the
PCB and the transfer page have been taken. -/

namespace TrueOs.Mm

open Prog

section Single

variable {n : Nat} {f : Nat → Option Bitmap} {s : Mm}

theorem sat_palloc_some (pf : PoolFlags) (s : Mm) :
    ((palloc pf).on s).Sat True (fun r _ => r.isSome = true) := by
  rw [palloc, sat_bind, sat_get, sat_bind]
  refine (Bitmap.sat_bitmapScan_some _ 1 s).mono fun r t ht => ?_
  cases r with
  | none => cases ht rfl
  | some i =>
    simp only [sat_bind, sat_get]
    exact (Res.sat_top trivial _).mono fun _ _ _ => rfl

theorem sat_mapPages_true (pf : PoolFlags) (cnt page : Nat) (s : Mm) :
    ((mapPages pf cnt page).on s).Sat True (fun r _ => r = true) := by
  induction cnt generalizing page s with
  | zero => rfl
  | succ cnt ih =>
    rw [mapPages, sat_bind]
    refine (sat_palloc_some pf s).mono fun r t hr => ?_
    cases r with
    | none => cases hr
    | some frame =>
      dsimp only
      rw [sat_bind]
      exact (Res.sat_top trivial _).mono fun _ u _ => ih (page + 1) u

theorem sat_getKernelPages_one (s : Mm) :
    ((getKernelPages 1).on s).Sat True (fun r _ => r.isSome = true) := by
  rw [getKernelPages, sat_bind, mallocPage, sat_bind, sat_assert]
  refine ⟨fun _ => ?_, fun _ => trivial⟩
  rw [vaddrGet, sat_bind]
  simp only [sat_bind, sat_get]
  refine (Bitmap.sat_bitmapScan_some _ 1 s).mono fun r t ht => ?_
  cases r with
  | none => cases ht rfl
  | some i =>
    simp only [sat_bind, sat_get]
    refine (Res.sat_top trivial _).mono fun b u _ => ?_
    simp only [sat_modify, sat_pure, sat_bind]
    refine (sat_mapPages_true _ _ _ _).mono fun r v hr => ?_
    rw [hr, if_pos rfl]
    simp only [sat_pure, sat_bind]
    exact (Res.sat_top trivial _).mono fun _ _ _ => rfl

theorem sat_getKernelPages_single (hs : Held n f s) {Q : Option Nat → Mm → Prop}
    (hQ : ∀ page t, Held (n + 1) f t → Q (some page) t) : ((getKernelPages 1).on s).Sat True Q := by
  refine ((sat_getKernelPages_held hs 1).and (sat_getKernelPages_one s)).mono fun r t ht => ?_
  cases r with
  | none => cases ht.2
  | some page => exact hQ page t (ht.1.2 rfl)

end Single

section Fork

variable {n : Nat} {f : Nat → Option Bitmap} {s t : Mm} {child parent : Nat}

theorem sat_copyPcb_le (hs : Held n f s) : ((copyPcbVaddrbitmapStack0 child parent).on s).Sat
    True (fun ok t => ok = false → Held n f t) := by
  rw [copyPcbVaddrbitmapStack0, sat_bind]
  refine sat_getTask_held hs fun t _ _ => ?_
  rw [sat_bind]
  refine sat_held keeps_allocatePid hs fun pid v hv => ?_
  rw [sat_bind]
  refine (sat_getKernelPages_held hv _).mono fun r w hw => ?_
  cases r with
  | none => exact fun _ => hw.1
  | some bits =>
    simp only [sat_bind, sat_assert]
    exact ⟨fun _ h => (by cases h), fun _ => trivial⟩

theorem sat_copyProcess_le (hs : Held n f s) : ((copyProcess child parent).on s).Sat True
    (fun ok t => ok = false → Held (n + 1) f t) := by
  rw [copyProcess, sat_bind]
  refine sat_getKernelPages_single hs fun bufPage t ht => ?_
  dsimp only
  rw [sat_bind]
  refine (sat_copyPcb_le ht).mono fun ok u hu => ?_
  cases ok with
  | false => exact fun _ => hu rfl
  | true =>
    rw [if_pos rfl, sat_bind]
    refine (sat_getKernelPages_one u).mono fun r v hv => ?_
    cases r with
    | none => cases hv
    | some pgdir =>
      simp only [sat_bind]
      refine (Res.sat_top trivial _).mono fun _ _ _ => ?_
      refine (Res.sat_top trivial _).mono fun _ _ _ => ?_
      refine (Res.sat_top trivial _).mono fun _ _ _ => ?_
      exact (Res.sat_top trivial _).mono fun _ _ _ h => by cases h

theorem sat_sysFork_fails (hs : Held n f s) : ((sysFork parent).on s).Sat True
    (fun r t => r = none → Held (n + 2) f t) := by
  rw [sysFork, sat_bind]
  refine sat_getKernelPages_single hs fun child t ht => ?_
  dsimp only
  rw [sat_bind]
  refine sat_getTask_held ht fun tp _ _ => ?_
  simp only [sat_bind, sat_assert]
  refine ⟨fun _ => ?_, fun _ => trivial⟩
  refine (sat_copyProcess_le ht).mono fun ok u hu => ?_
  cases ok with
  | false => exact fun _ => hu rfl
  | true =>
    simp only [if_pos, sat_bind, sat_get, sat_assert, sat_modify]
    refine ⟨fun _ => ?_, fun _ => trivial⟩
    exact (Res.sat_top trivial _).mono fun _ _ _ h => by cases h

/-- A fork that returns -1 never leaves the kernel as it was. -/
theorem failed_fork_leaks (h : ((sysFork parent).on s).run = .ok (none, t)) :
    ¬(Restored s t ∧ t.threadAllList = s.threadAllList) := by
  rintro ⟨hr, -⟩
  have hheld := (sat_sysFork_fails ⟨rfl, le_rfl⟩).of_run h rfl
  have hused := hheld.used
  rw [kernelUsed, kernelUsed, hr.kernelVaddr] at hused
  omega

end Fork

section Example

def fragmented : Mm := { withInit with kernelVaddr := ⟨480, fun i => if i < 4 then 0xFF else 1⟩ }

def unforked : Mm := (sysFork kHeapStart).after fragmented

theorem unforked_run : ((sysFork kHeapStart).on fragmented).run = .ok (none, unforked) :=
  Prog.run_of_gives (by decide +kernel)

theorem fragmented_fork_leaks : ((sysFork kHeapStart).on fragmented).run = .ok (none, unforked) ∧
    ¬(Restored fragmented unforked ∧ unforked.threadAllList = fragmented.threadAllList) :=
  ⟨unforked_run, failed_fork_leaks unforked_run⟩

/-- A pid is gone with every such call. -/
theorem failed_fork_keeps_pid : ∃ (s t : Mm) (p : Nat), ((sysFork p).on s).run = .ok (none, t) ∧
    t.pidBitmap.bits 0 ≠ s.pidBitmap.bits 0 ∧ t.kernelVaddr.bits 4 ≠ s.kernelVaddr.bits 4 :=
  ⟨fragmented, unforked, kHeapStart, unforked_run, by decide +kernel, by decide +kernel⟩

end Example

end TrueOs.Mm
