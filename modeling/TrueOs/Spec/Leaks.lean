import TrueOs.Fs.Format
import TrueOs.Spec.Balance

/-! Which calls give back the memory they have worked with. -/

namespace TrueOs.Fs.Tracked

open Prog Mm

inductive Work
  | getcwd (cur size : Nat)
  | open (stack : Stack) (cur : Nat) (path : List UInt8) (flags : Nat)
  | mkdir (stack : Stack) (path : List UInt8)
  | unlink (stack : Stack) (path : List UInt8)
  | rmdir (stack : Stack) (path : List UInt8)
  | stat (stack : Stack) (path : List UInt8)
  | chdir (stack : Stack) (cur : Nat) (path : List UInt8)
  | read (g count : Nat)
  | write (g : Nat) (buf : Buf) (count : Nat)

def Work.prog (pf : PoolFlags) : Work → Prog (Fs × Blocks) Buf Unit
  | .getcwd cur size => do let _ ← sysGetcwd pf cur size
  | .open stack cur path flags => do let _ ← sysOpen pf stack cur path flags
  | .mkdir stack path => do let _ ← sysMkdir pf stack path
  | .unlink stack path => do let _ ← sysUnlink pf stack path
  | .rmdir stack path => do let _ ← sysRmdir pf stack path
  | .stat stack path => do let _ ← sysStat pf stack path
  | .chdir stack cur path => do let _ ← sysChdir pf stack cur path
  | .read g count => do let _ ← fileRead pf g count
  | .write g buf count => do let _ ← fileWrite pf g buf count

/-- `sys_getcwd` in the root directory, and `sys_open` of a file elsewhere that is there already. -/
def Work.Leaves (s : Fs) : Work → Prop
  | .getcwd cur _ => s.mem.cwdInodeNr cur = 0
  | .open stack _ path flags => Lost stack path flags s
  | _ => False

/-- The blocks in use are those from before, and the inodes that can be reached. -/
structure Restored (w w' : Fs × Blocks) : Prop where
  others : ∀ k, w'.2.pool (.other k) = w.2.pool (.other k)
  inodes : ∀ p, w'.2.pool (.inode p) ≠ none → p ∈ w'.1.mem.openInodes

variable {pf : PoolFlags} {w w' : Fs × Blocks}

theorem Plain.restored {o : Nat → Option PoolFlags} (hw : Plain False o w) (hw' : Plain False o w') :
    Restored w w' := by
  refine ⟨fun k => congrFun (hw'.others.trans hw.others.symm) k, fun p hp => ?_⟩
  rw [hw'.sound.listed, ← hw'.sound.block, Option.isSome_iff_ne_none]
  exact hp

theorem Holds.not_restored {d : Dir} (hd : d ≠ .root) (hw : Holds False pf (others w.2) d w') : ¬Restored w w' := by
  intro h
  cases d with
  | root => exact hd rfl
  | heap k p =>
    have hfree : others w.2 k = none := hw.free
    have hheld := congrFun hw.plain.others k
    have hkept : others w'.2 k = others w.2 k := h.others k
    rw [hkept, hfree] at hheld
    simp [Dir.hold] at hheld

theorem sat_sysGetcwd_root (hw : Sound w) {cur : Nat} (hcwd : w.1.mem.cwdInodeNr cur = 0) (size : Nat) :
    ((sysGetcwd pf cur size).on w).Sat True (fun _ w' => ¬Restored w w') := by
  have hplain : Plain False (others w.2) w := ⟨hw, rfl, False.elim⟩
  rw [sysGetcwd, sat_bind]
  refine sat_sysMalloc hplain fun k w₁ hfs hk h₁ => ?_
  rw [sat_bind, lift_on, Res.sat_lift, sat_get]
  dsimp only
  rw [sat_bind]
  refine (h₁.sat (keeps_lift (keeps_assert _))).mono fun _ w₂ h₂ => ?_
  rw [if_pos (by rwa [hfs]), bind_on, Res.sat_bind]
  have hstore : Keeps SameObjs (storePath size [slash]) := .ite (keeps_pure _) (keeps_halt _)
  refine (h₂.sat (keeps_lift hstore)).mono fun _ w₃ h₃ => ?_
  exact Holds.not_restored (d := .heap k 0) (by simp) ⟨hk, h₃⟩

theorem Work.sat (call : Work) (hw : Sound w) : ((call.prog pf).on w).Sat True
    (fun _ w' => Restored w w' ↔ ¬call.Leaves w.1) := by
  have hplain : Plain False (others w.2) w := ⟨hw, rfl, False.elim⟩
  have hbalanced : ∀ {α : Type} {c : Prog (Fs × Blocks) Buf α}, Keeps (Same False) c →
      ((c >>= fun _ => pure ()).on w).Sat True (fun _ w' => Restored w w' ↔ ¬False) := by
    intro α c hc
    rw [sat_bind]
    exact (hplain.sat hc).mono fun _ w' h => ⟨fun _ => not_false, fun _ => hplain.restored h⟩
  cases call with
  | getcwd cur size =>
    rw [Work.prog, sat_bind]
    by_cases hcwd : w.1.mem.cwdInodeNr cur = 0
    · exact (sat_sysGetcwd_root hw hcwd size).mono fun _ w' h => ⟨fun hr => absurd hr h, fun hr => absurd hcwd hr⟩
    · exact (sat_sysGetcwd hplain hcwd size).mono fun _ w' h => ⟨fun _ => hcwd, fun _ => hplain.restored h⟩
  | «open» stack cur path flags =>
    rw [Work.prog, sat_bind]
    refine (sat_sysOpen hplain stack cur path False.elim).mono fun _ w' h => ?_
    rcases h with ⟨hl, h⟩ | ⟨hl, d, hd, h⟩
    · exact ⟨fun _ => hl, fun _ => hplain.restored h⟩
    · exact ⟨fun hr => absurd hr (h.not_restored hd), fun hr => absurd hl hr⟩
  | mkdir stack path => exact hbalanced (keeps_sysMkdir stack path)
  | unlink stack path => exact hbalanced (keeps_sysUnlink stack path)
  | rmdir stack path => exact hbalanced (keeps_sysRmdir stack path)
  | stat stack path => exact hbalanced (keeps_sysStat stack path)
  | chdir stack cur path => exact hbalanced (keeps_sysChdir stack cur path)
  | read g count => exact hbalanced (keeps_fileRead g count)
  | write g buf count => exact hbalanced (keeps_fileWrite g buf count)

/-- A call that returns gives its memory back exactly if it is neither of the two. -/
theorem calls_restore_heap_iff {call : Work} (hw : Sound w) (hrun : ((call.prog pf).on w).run = .ok ((), w')) :
    Restored w w' ↔ ¬call.Leaves w.1 := (call.sat hw).of_run hrun

section Boot

/-- `filesys_init`, which the main thread of the kernel runs; of its blocks only the root inode is
followed. -/
def filesysInit (pad : Buf) : Prog (Fs × Blocks) Buf Unit := do
  lift (partitionFormat pad)
  lift mountPartition
  let p ← inodeOpen .kernel (← lift get).vol.sb.rootInodeNo
  lift (modify (fun s => { s with mem.rootDir := p }))

def noBlocks : Blocks := ⟨fun _ => none, 0, false⟩

theorem plain_boot (startLba secCnt : Nat) (disk : Buf) :
    Plain True (fun _ => none) (bootState startLba secCnt disk, noBlocks) :=
  ⟨⟨List.nodup_nil, fun p => by simp [bootState, bootMem], fun p => rfl, fun _ _ => rfl⟩, rfl,
    fun _ => ⟨fun _ _ h => (by cases h), rfl⟩⟩

theorem keeps_partitionFormat (pad : Buf) : Keeps SameObjs (partitionFormat pad) :=
  .bind keeps_get fun _ => .bind (Inner.keeps_ideWrite _ _ _) fun _ => .bind (Inner.keeps_ideWrite _ _ _) fun _ =>
    .bind (Inner.keeps_ideWrite _ _ _) fun _ => .bind (Inner.keeps_ideWrite _ _ _) fun _ => Inner.keeps_ideWrite _ _ _

theorem sat_mountPartition {s : Fs} (hs : s.mem.openInodes = []) :
    (mountPartition.on s).Sat True (fun _ t => SameObjs s t) := by
  have hread : ∀ (t : Fs) (lba cnt : Nat), SameObjs s t →
      ((ideRead lba cnt).on t).Sat True (fun _ u => SameObjs s u) :=
    fun t lba cnt ht => (Inner.keeps_ideRead lba cnt t).mono fun _ u hu => IsTrans.trans s t u ht hu
  rw [mountPartition, sat_bind, sat_get]
  dsimp only
  rw [sat_bind]
  refine (hread s _ _ (refl s)).mono fun _ t ht => ?_
  simp only [sat_bind, sat_modify]
  refine (hread _ _ _ (IsTrans.trans s t _ ht (Still.vol t _))).mono fun _ u hu => ?_
  refine (hread _ _ _ (IsTrans.trans s u _ hu (Still.vol u _))).mono fun _ v hv => ?_
  exact ⟨hs.symm, hv.live⟩

theorem sat_filesysInit (startLba secCnt : Nat) (disk pad : Buf) :
    ((filesysInit pad).on (bootState startLba secCnt disk, noBlocks)).Sat True
      (fun _ w => Plain True (fun _ => none) w) := by
  have hboot := plain_boot startLba secCnt disk
  rw [filesysInit, sat_bind, lift_on, Res.sat_lift]
  refine (keeps_partitionFormat pad _).mono fun _ s hs => ?_
  rw [sat_bind, lift_on, Res.sat_lift]
  refine (sat_mountPartition hs.list).mono fun _ t ht => ?_
  have hplain : Plain True (fun _ => none) (t, noBlocks) :=
    ⟨hboot.sound.same (IsTrans.trans _ s t hs ht), hboot.others, hboot.apart⟩
  have hroot : Keeps (Same True) (do
      let p ← inodeOpen .kernel (← lift get).vol.sb.rootInodeNo
      lift (modify (fun s => { s with mem.rootDir := p }))) :=
    .bind (keeps_lift keeps_get) fun _ => .bind (keeps_inodeOpen _) fun _ =>
      keeps_lift (keeps_modify fun _ => ⟨rfl, fun _ => rfl⟩)
  exact hplain.sat hroot

def started : Fs × Blocks := (filesysInit fun _ => 0).after (bootState 63 1000 fun _ => 0, noBlocks)

set_option maxRecDepth 100000 in
theorem plain_started : Plain True (fun _ => none) started :=
  (sat_filesysInit 63 1000 _ _).of_run (run_after (by decide +kernel))

def blank : Stack := ⟨⟨fun _ => 0, 0, 0⟩, fun _ => 0, fun _ => 0⟩

set_option maxRecDepth 100000 in
theorem mkdir_restores_heap : ∃ w w', Sound w ∧
    (((Work.mkdir blank [slash, 97]).prog .user).on w).run = .ok ((), w') ∧ Restored w w' := by
  have hrun := run_after (c := (Work.mkdir blank [slash, 97]).prog .user) (s := started) (by decide +kernel)
  exact ⟨started, _, plain_started.sound, hrun, (calls_restore_heap_iff plain_started.sound hrun).mpr not_false⟩

set_option maxRecDepth 100000 in
/-- The shell asks for its directory when it starts. -/
theorem getcwd_keeps_buffer : ∃ w w', Sound w ∧
    (((Work.getcwd 1 512).prog .user).on w).run = .ok ((), w') ∧ ¬Restored w w' := by
  have hrun := run_after (c := (Work.getcwd 1 512).prog .user) (s := started) (by decide +kernel)
  refine ⟨started, _, plain_started.sound, hrun, fun h => ?_⟩
  have hsome : ((Work.getcwd 1 512).prog .user |>.after started).2.pool (.other 1) = some .user := by decide +kernel
  have hnone := congrFun plain_started.others 1
  rw [h.others 1] at hsome
  exact absurd (hsome.symm.trans hnone) (by simp)

end Boot

end TrueOs.Fs.Tracked
