import TrueOs.Fs.Syscall
import TrueOs.Spec.Tables

/-! `file_create`, `file_open` and `file_close`. -/

namespace TrueOs.Fs

open Prog

namespace Mem

def freeSlot (m : Mem) : Option Nat :=
  (List.range' 3 (maxFileOpen - 3)).find? (fun k => (m.fileTable k).fdInode.isNone)

def freeFd (m : Mem) (cur : Nat) : Option Nat :=
  (List.range' 3 (maxFilesOpenPerProc - 3)).find? (fun l => m.fdTable cur l == -1)

@[simps] def setFd (m : Mem) (cur fd : Nat) (v : Int) : Mem :=
  { m with fdTable := Function.update m.fdTable cur (Function.update (m.fdTable cur) fd v) }

def addOpen (m : Mem) (p : Nat) : Mem := { m with openInodes := p :: m.openInodes }

def install (m : Mem) (cur k : Nat) : Mem := (m.freeFd cur).elim m (fun fd => m.setFd cur fd k)

def fdOf (m : Mem) (cur : Nat) : Int := (m.freeFd cur).elim (-1) (fun fd => fd)

end Mem

section Tables

variable {m : Mem} {cur k fd : Nat}

theorem freeSlot_some (h : m.freeSlot = some k) : 3 ≤ k ∧ k < 32 ∧ (m.fileTable k).fdInode = none := by
  have hr := List.mem_range'_1.mp (List.mem_of_find?_eq_some h)
  refine ⟨hr.1, by simp only [maxFileOpen] at hr; omega, ?_⟩
  simpa using List.find?_some h

theorem freeFd_some (h : m.freeFd cur = some fd) : 3 ≤ fd ∧ fd < 8 ∧ m.fdTable cur fd = -1 := by
  have hr := List.mem_range'_1.mp (List.mem_of_find?_eq_some h)
  refine ⟨hr.1, by simp only [maxFilesOpenPerProc] at hr; omega, ?_⟩
  simpa using List.find?_some h

theorem install_inodes (m : Mem) (cur k : Nat) : (m.install cur k).inodes = m.inodes := by
  rw [Mem.install]
  cases m.freeFd cur <;> rfl

theorem install_openInodes (m : Mem) (cur k : Nat) : (m.install cur k).openInodes = m.openInodes := by
  rw [Mem.install]
  cases m.freeFd cur <;> rfl

theorem install_rootDir (m : Mem) (cur k : Nat) : (m.install cur k).rootDir = m.rootDir := by
  rw [Mem.install]
  cases m.freeFd cur <;> rfl

end Tables

section Primitives

variable {g : Geom} {w : View} {m : Mem} {s : Fs} {E : Prop} {cur k p : Nat}
  {f : File} {R : Unit → Fs → Prop}

theorem sat_getFreeSlot (h : At g w m s) {Q : Option Nat → Fs → Prop} (hQ : Q m.freeSlot s) :
    (getFreeSlotInGlobal.on s).Sat E Q := by
  simp only [getFreeSlotInGlobal, bind_on, get_on, Res.bind, h.mem]
  exact hQ

theorem sat_pcbFdInstall (h : At g w m s) {Q : Int → Fs → Prop}
    (hQ : ∀ t, At g w (m.install cur k) t → Q (m.fdOf cur) t) :
    ((pcbFdInstall cur k).on s).Sat E Q := by
  simp only [pcbFdInstall, bind_on, get_on, Res.bind, h.mem]
  rw [Mem.install, Mem.fdOf, Mem.freeFd] at hQ
  cases hf : (List.range' 3 (maxFilesOpenPerProc - 3)).find? (fun l => m.fdTable cur l == -1) with
  | none =>
    rw [hf] at hQ
    exact hQ s h
  | some fd =>
    rw [hf] at hQ
    simp only [bind_on, modify_on, Res.bind, pure_on, Res.sat_done, h.mem]
    exact hQ _ (h.withMem (m.setFd cur fd k))

theorem sat_setFile (h : At g w m s) (hR : ∀ t, At g w (m.setFile k f) t → R () t) :
    ((setFile k f).on s).Sat E R := by
  simp only [Fs.setFile, sat_modify, h.mem]
  exact hR _ (h.withMem (m.setFile k f))

theorem sat_fileInode (h : At g w m s) (hk : (m.fileTable k).fdInode = some p) {Q : Nat → Fs → Prop}
    (hQ : Q p s) : ((fileInode k).on s).Sat E Q := by
  simp only [fileInode, bind_on, get_on, Res.bind, h.mem, hk]
  exact hQ

theorem sat_mallocInode (h : At g w m s) {i : Inode} {Q : Nat → Fs → Prop}
    (hQ : ∀ t, At g w (m.set m.fresh i) t → Q m.fresh t) : ((mallocInode i).on s).Sat E Q := by
  simp only [mallocInode, bind_on, get_on, Res.bind, h.mem, Res.sat_bind]
  apply sat_setInode h
  exact hQ

theorem sat_createDirEntry {name : List UInt8} {n ty : Nat} (hE : E ∨ name.length ≤ 16)
    {Q : DirEntry → Fs → Prop} (hQ : Q (Ent.entry ⟨name, n, ty⟩) s) :
    ((createDirEntry name n ty).on s).Sat E Q := by
  rw [createDirEntry, sat_bind, sat_assert, decide_eq_true_eq, decide_eq_false_iff_not]
  exact ⟨fun _ => hQ, fun hc => hE.resolve_right hc⟩

end Primitives

section Create

variable {g : Geom} {w : View} {m : Mem} {s : Fs} {E : Prop} {cur k n flag : Nat}
  {dr : DirRef} {i : Inode} {name : List UInt8}

structure Fits (g : Geom) (w : View) (i : Inode) (name : List UInt8) (blocks : Nat) : Prop where
  name : name.length ≤ 16
  size : i.iSize % 24 = 0
  no : i.iNo < 4096
  room : Room g w blocks

theorem clean_inodeInit (hn : n < 4096) : (inodeInit n).clean = inodeInit n := by
  simp only [Inode.clean, inodeInit, Nat.mod_eq_of_lt (show n < 2 ^ 32 by omega), Nat.zero_mod,
    ite_self]

theorem sat_fileInstall (h : At g w m s) (hfresh : m.inodes m.fresh = none) (hi : m.inodes (dr.ptr m) = some i)
    (hd : DirectOk g i.iSectors) (hn : n < 4096)
    (hE : E ∨ Fits g w i name 2) {Q : Int → Fs → Prop}
    (hQ : ∀ w₁ sec' t, Inserted g w i.iSectors ⟨name, n, ftRegular⟩ (w.place i.iSectors) w₁ sec' →
      At g ((w₁.setIno i.iNo (i.body (add32 i.iSize 24) sec').clean).setIno n (inodeInit n)).syncIbits
        ((((m.push m.fresh ((inodeInit n).cnt 1)).setFile k ⟨0, flag, some m.fresh⟩).set (dr.ptr m)
          (i.body (add32 i.iSize 24) sec')).install cur k) t → Q (m.fdOf cur) t) :
    ((fileInstall cur dr name flag n k).on s).Sat E Q := by
  have hdp : dr.ptr m ≠ m.fresh := by
    intro he
    rw [he, hfresh] at hi
    cases hi
  rw [fileInstall, sat_bind]
  apply sat_mallocInode h
  intro t₁ h₁
  rw [sat_bind]
  apply sat_setFile h₁
  intro t₂ h₂
  generalize hm₂ : (m.set m.fresh (inodeInit n)).setFile k ⟨0, flag, some m.fresh⟩ = m₂ at h₂
  have hptr : dr.ptr m₂ = dr.ptr m := by
    rw [← hm₂]
    cases dr <;> rfl
  have hi₂ : m₂.inodes (dr.ptr m) = some i := by
    rw [← hm₂, Mem.setFile_inodes, Mem.set_inodes, Function.update_of_ne hdp, hi]
  have hp₂ : m₂.inodes m.fresh = some (inodeInit n) := by
    rw [← hm₂, Mem.setFile_inodes, Mem.set_inodes_self]
  rw [sat_bind]
  apply sat_createDirEntry (hE.imp_right Fits.name)
  rw [sat_bind]
  apply sat_syncDirEntry h₂ (i := i)
  · rwa [hptr]
  · exact hd
  · exact hE.imp_right Fits.size
  · exact hE.imp_right Fits.room
  intro w₁ sec' t₃ hins h₃
  rw [hptr] at h₃
  generalize hm₃ : m₂.set (dr.ptr m) (i.body (add32 i.iSize 24) sec') = m₃ at h₃
  have hptr₃ : dr.ptr m₃ = dr.ptr m := by
    rw [← hptr, ← hm₃]
    cases dr <;> rfl
  have hi₃ : m₃.inodes (dr.ptr m₃) = some (i.body (add32 i.iSize 24) sec') := by
    rw [hptr₃, ← hm₃, Mem.set_inodes_self]
  have hp₃ : m₃.inodes m.fresh = some (inodeInit n) := by
    rw [← hm₃, Mem.set_inodes, Function.update_of_ne hdp.symm, hp₂]
  rw [if_pos rfl, sat_bind]
  apply sat_dirInode h₃
  rw [sat_bind]
  apply sat_getInode h₃ hi₃
  rw [sat_bind]
  have hno₃ : E ∨ (i.body (add32 i.iSize 24) sec').iNo < 4096 := hE.imp_right (·.no)
  apply sat_inodeSync h₃ hno₃
  intro t₄ h₄
  rw [sat_bind]
  apply sat_getInode h₄ hp₃
  rw [sat_bind]
  have hno : E ∨ (inodeInit n).iNo < 4096 := Or.inr hn
  apply sat_inodeSync h₄ hno
  intro t₅ h₅
  rw [sat_bind]
  apply sat_syncInodes h₅ hn
  intro t₆ h₆
  have h₇ := h₆.withMem (m₃.addOpen m.fresh)
  have hfin : (m₃.addOpen m.fresh).set m.fresh ((inodeInit n).cnt 1) =
      ((m.push m.fresh ((inodeInit n).cnt 1)).setFile k ⟨0, flag, some m.fresh⟩).set (dr.ptr m)
        (i.body (add32 i.iSize 24) sec') := by
    rw [← hm₃, ← hm₂]
    simp only [Mem.addOpen, Mem.set, Mem.setFile, Mem.push, Function.update_idem,
      Function.update_comm hdp]
  rw [bind_on, modify_on, Res.bind, sat_bind, h₆.mem]
  apply sat_getInode h₇ hp₃
  rw [sat_bind]
  apply sat_setInode h₇
  intro t₈ h₈
  rw [hfin] at h₈
  apply sat_pcbFdInstall h₈
  intro t₉ h₉
  rw [clean_inodeInit hn] at h₉
  exact hQ w₁ sec' t₉ hins h₉

theorem setIbit_undo (h : w.ibit n = false) : (w.setIbit n true).setIbit n false = w := by
  ext x
  · by_cases hx : x = n
    · rw [hx, View.setIbit_ibit, Function.update_self, h]
    · rw [View.setIbit_ibit, Function.update_of_ne hx, View.setIbit_ibit, Function.update_of_ne hx]
  all_goals rfl

theorem sat_fileCreate (h : At g w m s) (hfresh : m.inodes m.fresh = none) (hi : m.inodes (dr.ptr m) = some i)
    (hd : DirectOk g i.iSectors)
    (hE : E ∨ Fits g w i name 2 ∧ ∃ k < 4096, w.ibit k = false) {Q : Int → Fs → Prop}
    (hfail : ∀ t, At g w m t → Q (-1) t)
    (hQ : ∀ n k w₁ sec' t, FreeIno w n → m.freeSlot = some k →
      Inserted g (w.setIbit n true) i.iSectors ⟨name, n, ftRegular⟩ (w.place i.iSectors) w₁ sec' →
      At g ((w₁.setIno i.iNo (i.body (add32 i.iSize 24) sec').clean).setIno n (inodeInit n)).syncIbits
        ((((m.push m.fresh ((inodeInit n).cnt 1)).setFile k ⟨0, flag, some m.fresh⟩).set (dr.ptr m)
          (i.body (add32 i.iSize 24) sec')).install cur k) t → Q (m.fdOf cur) t) :
    ((fileCreate cur dr name flag).on s).Sat E Q := by
  rw [fileCreate, sat_bind]
  apply sat_inodeBitmapAlloc h (hE.imp_right And.right)
  intro n t₁ hn h₁
  dsimp only
  rw [sat_bind]
  apply sat_getFreeSlot h₁
  cases hk : m.freeSlot with
  | none =>
    dsimp only
    rw [sat_bind]
    apply sat_inodeBitmapSet h₁ hn.lt
    intro t₂ h₂
    rw [setIbit_undo hn.free] at h₂
    exact hfail t₂ h₂
  | some k =>
    apply sat_fileInstall h₁ hfresh hi hd hn.lt
    · exact hE.imp_right fun hf => ⟨hf.1.name, hf.1.size, hf.1.no, hf.1.room⟩
    intro w₁ sec' t₂ hins h₂
    exact hQ n k w₁ sec' t₂ hn hk hins h₂

def newDir (n lba : Nat) : Inode := ⟨n, 48, 0, false, Function.update (fun _ => 0) 0 lba⟩

def View.reserve (g : Geom) (w : View) (lba : Nat) (b : Buf) : View :=
  ((w.setUsed lba true).syncUsed g lba).setBlk lba b

theorem placeIn_congr {w' : View} {sec : Nat → Nat} {ks : List Nat}
    (h : ∀ k ∈ ks, sec k ≠ 0 → w'.blk (sec k) = w.blk (sec k)) : w'.placeIn sec ks = w.placeIn sec ks := by
  induction ks with
  | nil => rfl
  | cons k ks ih =>
    rw [View.placeIn, View.placeIn, ih fun k' hk' => h k' (List.mem_cons_of_mem _ hk')]
    by_cases h0 : sec k = 0
    · rw [if_pos h0, if_pos h0]
    · rw [if_neg h0, if_neg h0, h k List.mem_cons_self h0]

theorem sat_makeDir (h : At g w m s) (hi : m.inodes (dr.ptr m) = some i)
    (hd : DirectOk g i.iSectors)
    (hused : ∀ k < 12, i.iSectors k ≠ 0 → w.used (i.iSectors k) = true)
    (hE : E ∨ Fits g w i name 3 ∧ w.used g.base = true ∧ ∃ k < 4096, w.ibit k = false) {Q : Int → Fs → Prop}
    (hQ : ∀ n lba w₁ sec' t, FreeIno w n → FirstFree g w lba → lba ≤ maxLba →
      Inserted g ((w.setIbit n true).reserve g lba ((dotBlock n i.iNo).slice 0 512)) i.iSectors
        ⟨name, n, ftDirectory⟩ (w.place i.iSectors) w₁ sec' →
      At g ((w₁.setIno i.iNo (i.body (add32 i.iSize 24) sec').clean).setIno n
          (newDir n lba).clean).syncIbits
        (m.set (dr.ptr m) (i.body (add32 i.iSize 24) sec')) t →
      ((dirClose dr).on t).Sat E (fun _ => Q 0)) : ((makeDir dr name).on s).Sat E Q := by
  rw [makeDir, sat_bind]
  apply sat_inodeBitmapAlloc h (hE.imp_right (·.2.2))
  intro n t₁ hn h₁
  dsimp only
  rw [sat_bind]
  apply sat_blockBitmapAlloc h₁
  · apply hE.imp_right
    intro hfit
    obtain ⟨l, h₁, h₂, h₃, -⟩ := hfit.1.room.exists_free (by omega)
    exact ⟨l, h₁, h₂, h₃⟩
  intro lba t₂ hf h₂
  have hf' : FirstFree g w lba := ⟨hf.base_le, hf.lt_top, hf.free, hf.below⟩
  simp only [bind_on, get_on, Res.sat_bind, Res.sat_done, sat_assert, decide_eq_true_eq,
    decide_eq_false_iff_not]
  rw [h₂.bitIdx hf.base_le]
  refine ⟨fun _ => ?_, fun hc => hE.resolve_right fun hfit => ?_⟩
  rotate_left
  · -- the first block is the root's
    have hb := hf'.base_le
    obtain rfl : lba = g.base := by omega
    exact absurd (hf'.free.symm.trans hfit.2.1) (by decide)
  apply sat_syncBlock h₂ rfl hf.base_le hf.lt_top
  intro t₃ h₃
  apply sat_dirInode h₃
  apply sat_getInode h₃ hi
  apply sat_writeBlk h₃ (hE.imp_right fun hfit => hf'.le_maxLba hfit.1.room (by omega)) hf.base_le
  intro t₄ hm h₄
  apply sat_createDirEntry (hE.imp_right (·.1.name))
  -- the new block is none of the directory's
  have hplace : (((((w.setIbit n true).setUsed lba true).syncUsed g lba)).setBlk lba
      ((dotBlock n i.iNo).slice 0 512)).place i.iSectors = w.place i.iSectors := by
    apply placeIn_congr
    intro k hk h0
    rw [View.blk_setBlk_of_ne]
    · rfl
    · intro he
      have := hused k (List.mem_range.mp hk) h0
      rw [he, hf'.free] at this
      cases this
  apply sat_syncDirEntry h₄ (i := i)
  · exact hi
  · exact hd
  · exact hE.imp_right (·.1.size)
  · exact hE.imp_right fun hfit => Room.alloc hfit.1.room
  intro w₁ sec' t₅ hins h₅
  rw [hplace] at hins
  have hptr : dr.ptr (m.set (dr.ptr m) (i.body (add32 i.iSize 24) sec')) = dr.ptr m := by
    cases dr <;> rfl
  rw [if_pos rfl]
  simp only [sat_bind]
  apply sat_dirInode h₅
  apply sat_getInode h₅ (by rw [hptr, Mem.set_inodes_self])
  have hno₅ : E ∨ (i.body (add32 i.iSize 24) sec').iNo < 4096 := hE.imp_right (·.1.no)
  apply sat_inodeSync h₅ hno₅
  intro t₆ h₆
  refine sat_inodeSync h₆ (Or.inr ?_) ?_
  · exact hn.lt
  intro t₇ h₇
  apply sat_syncInodes h₇ hn.lt
  intro t₈ h₈
  rw [h₂.sb, g.entrySize] at h₈
  exact hQ n lba w₁ sec' t₈ hn hf' hm hins h₈

end Create

section OpenClose

variable {g : Geom} {w : View} {m : Mem} {s : Fs} {E : Prop} {cur k n p flag : Nat}
  {i : Inode}

def Inode.denied (i : Inode) (b : Bool) : Inode := { i with writeDeny := b }

def Mem.slotted (m : Mem) (w : View) (n k flag : Nat) : Mem :=
  (m.opened w n).setFile k ⟨0, flag, some (m.ptr n)⟩

inductive FileOpened (m : Mem) (w : View) (cur n flag : Nat) : Int → Mem → Prop
  | full (h : m.freeSlot = none) : FileOpened m w cur n flag (-1) m
  | denied (k : Nat) (h : m.freeSlot = some k) (hf : flag = oWronly ∨ flag = oRdwr)
      (hd : (m.deliver w n).writeDeny = true) : FileOpened m w cur n flag (-1) (m.slotted w n k flag)
  | write (k : Nat) (i : Inode) (h : m.freeSlot = some k) (hf : flag = oWronly ∨ flag = oRdwr)
      (hd : (m.deliver w n).writeDeny = false) (hi : (m.opened w n).inodes (m.ptr n) = some i) :
      FileOpened m w cur n flag (m.fdOf cur)
        (((m.slotted w n k flag).set (m.ptr n) (i.denied true)).install cur k)
  | read (k : Nat) (h : m.freeSlot = some k) (hf : ¬(flag = oWronly ∨ flag = oRdwr)) :
      FileOpened m w cur n flag (m.fdOf cur) ((m.slotted w n k flag).install cur k)

theorem opened_fdOf (m : Mem) (w : View) (n cur : Nat) : (m.opened w n).fdOf cur = m.fdOf cur := by
  rw [Mem.opened]
  split <;> rfl

theorem sat_fileOpen (h : At g w m s) (hn : E ∨ n < 4096) {Q : Int → Fs → Prop}
    (hQ : ∀ r m' t, FileOpened m w cur n flag r m' → At g w m' t → Q r t) :
    ((fileOpen cur n flag).on s).Sat E Q := by
  rw [fileOpen, sat_bind]
  apply sat_getFreeSlot h
  cases hk : m.freeSlot with
  | none => exact hQ _ _ s (.full hk) h
  | some k =>
    dsimp only
    rw [sat_bind]
    apply sat_inodeOpen h hn
    intro t₁ h₁
    rw [sat_bind]
    apply sat_setFile h₁
    intro t₂ h₂
    by_cases hf : flag = oWronly ∨ flag = oRdwr
    · obtain ⟨j, hj, hjd⟩ : ∃ j, (m.opened w n).inodes (m.ptr n) = some j ∧
          j.writeDeny = (m.deliver w n).writeDeny := ⟨_, Mem.opened_inodes n, rfl⟩
      rw [if_pos hf, sat_bind]
      apply sat_getInode h₂ hj
      rw [hjd]
      cases hd : (m.deliver w n).writeDeny with
      | true =>
        rw [if_pos rfl]
        exact hQ _ _ t₂ (.denied k hk hf hd) h₂
      | false =>
        rw [if_neg Bool.false_ne_true, sat_bind]
        apply sat_setInode h₂
        intro t₃ h₃
        apply sat_pcbFdInstall h₃
        intro t₄ h₄
        have hfd := opened_fdOf m w n cur
        have := hQ _ _ t₄ (.write k j hk hf hd hj) h₄
        rwa [← hfd] at this
    · rw [if_neg hf]
      apply sat_pcbFdInstall h₂
      intro t₃ h₃
      have hfd := opened_fdOf m w n cur
      have := hQ _ _ t₃ (.read k hk hf) h₃
      rwa [← hfd] at this

end OpenClose

end TrueOs.Fs
