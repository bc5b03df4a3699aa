import TrueOs.Fs.Inner

/-! The callers of `inode_sync` and `inode_delete` once more, with the size of the buffer that they
hand over.  A transfer that does not fit runs over its end, into the next block of the heap. -/

namespace TrueOs.Fs

open Prog

abbrev Straddles (inodeNo : Nat) : Prop := 512 - inodeNo * inodeSize % 512 < inodeSize

def recordBytes (inodeNo : Nat) : Nat := if Straddles inodeNo then 1024 else 512

theorem recordBytes_le (inodeNo : Nat) : recordBytes inodeNo ≤ 1024 := by
  rw [recordBytes]
  split <;> omega

theorem recordBytes_le_iff (inodeNo : Nat) : recordBytes inodeNo ≤ 512 ↔ ¬Straddles inodeNo := by
  rw [recordBytes]
  split
  · next h => exact ⟨fun hc => by omega, fun hc => absurd h hc⟩
  · next h => exact ⟨fun _ => h, fun _ => Nat.le_refl 512⟩

namespace Sized

def through (ioBuf bytes : Nat) : Prog Fs Buf Unit := if bytes ≤ ioBuf then return () else halt .fault

def inodeSync (i : Inode) (ioBuf : Nat) : Prog Fs Buf Unit := do
  let pos ← inodeLocate i.iNo
  assertInPart pos
  let inodeBuf ← ideRead pos.secLba pos.secs
  through ioBuf (512 * pos.secs)
  ideWrite pos.secLba pos.secs (fun _ => inodeBuf.splice pos.offSize inodeSize i.toPure.bytes)

def inodeDelete (inodeNo ioBuf : Nat) : Prog Fs Buf Unit := do
  assert (inodeNo < maxFilesPerPart)
  let pos ← inodeLocate inodeNo
  assertInPart pos
  let inodeBuf ← ideRead pos.secLba pos.secs
  through ioBuf (512 * pos.secs)
  ideWrite pos.secLba pos.secs (fun _ => inodeBuf.splice pos.offSize inodeSize (fun _ => 0))

def inodeRelease (inodeNo : Nat) : Prog Fs Buf Unit := do
  let p ← inodeOpen inodeNo
  let i ← getInode p
  assert (i.iNo = inodeNo)
  releaseSectors i
  inodeBitmapSet inodeNo false
  bitmapSync inodeNo .inode
  inodeDelete inodeNo 1024
  inodeClose p

def entryGone (p dirEntrySize ioBuf : Nat) : Prog Fs Buf Bool := do
  let i ← getInode p
  assert (dirEntrySize ≤ i.iSize)
  setInode p (i.body (i.iSize - dirEntrySize) i.iSectors)
  inodeSync (← getInode p) ioBuf
  return true

def deleteBlocks (p inodeNo : Nat) (allBlocks : Nat → Nat) (ioBufSize : Nat) : List Nat → Prog Fs Buf Bool
  | [] => return false
  | k :: ks => do
    if allBlocks k = 0 then
      deleteBlocks p inodeNo allBlocks ioBufSize ks
    else
      let ioBuf ← ideRead (allBlocks k) 1
      let dirEntrySize := (← get).vol.sb.dirEntrySize
      let scan ← scanEntries ioBuf inodeNo (List.range (512 / dirEntrySize)) ⟨false, 0, none⟩
      match scan.dirEntryFound with
      | none => deleteBlocks p inodeNo allBlocks ioBufSize ks
      | some j =>
        assert (1 ≤ scan.dirEntryCnt)
        if scan.dirEntryCnt = 1 ∧ scan.isDirFirstBlock = false then
          deleteBlock p (allBlocks k) k
          entryGone p dirEntrySize ioBufSize
        else
          ideWrite (allBlocks k) 1
            (fun _ => ioBuf.splice (dirEntryBytes * j) dirEntrySize (fun _ => 0))
          entryGone p dirEntrySize ioBufSize

def deleteDirEntry (pdir : DirRef) (inodeNo ioBuf : Nat) : Prog Fs Buf Bool := do
  let p ← pdir.inode
  let i ← getInode p
  let allBlocks ← dirBlocks i
  deleteBlocks p inodeNo allBlocks ioBuf (List.range 140)

def dirRemove (parentDir childDir : DirRef) : Prog Fs Buf Int := do
  let i ← getInode (← childDir.inode)
  assert ((List.range 12).all (fun k => i.iSectors (k + 1) == 0))
  let _ ← deleteDirEntry parentDir i.iNo (sectorSize * 2)
  inodeRelease i.iNo
  return 0

def fileInstall (cur : Nat) (parentDir : DirRef) (filename : List UInt8) (flag inodeNo fdIdx ioBuf : Nat) :
    Prog Fs Buf Int := do
  let p ← mallocInode (inodeInit inodeNo)
  setFile fdIdx ⟨0, flag, some p⟩
  let newDirEntry ← createDirEntry filename inodeNo ftRegular
  if ← syncDirEntry parentDir newDirEntry then
    inodeSync (← getInode (← parentDir.inode)) ioBuf
    inodeSync (← getInode p) ioBuf
    bitmapSync inodeNo .inode
    modify (fun s => { s with mem.openInodes := p :: s.mem.openInodes })
    let i ← getInode p
    setInode p (i.cnt 1)
    pcbFdInstall cur fdIdx
  else
    setFile fdIdx ⟨0, 0, none⟩
    freeInode p
    inodeBitmapSet inodeNo false
    return -1

def fileCreate (cur : Nat) (parentDir : DirRef) (filename : List UInt8) (flag : Nat) : Prog Fs Buf Int := do
  match ← inodeBitmapAlloc with
  | none => return -1
  | some inodeNo =>
    match ← getFreeSlotInGlobal with
    | none =>
      inodeBitmapSet inodeNo false
      return -1
    | some fdIdx => fileInstall cur parentDir filename flag inodeNo fdIdx 1024

def writeData (g p : Nat) (buf : Buf) (count ioBuf : Nat) : Prog Fs Buf Int := do
  match ← collectBlocks p count with
  | none => return -1
  | some allBlocks =>
    let i ← getInode p
    let f := (← get).mem.fileTable g
    setFile g { f with fdPos := sub32 i.iSize 1 }
    writeChunks g p allBlocks buf count (count + 1) 0 true
    inodeSync (← getInode p) ioBuf
    return count

/-- The buffer has `BLOCK_SIZE` bytes. -/
def fileWrite (g : Nat) (buf : Buf) (count : Nat) : Prog Fs Buf Int := do
  let p ← fileInode g
  let i ← getInode p
  if 512 * 140 < add32 i.iSize count then
    return -1
  else if !(← firstBlock p) then
    return -1
  else
    writeData g p buf count 512

def makeDir (parentDir : DirRef) (dirname : List UInt8) (ioBuf : Nat) : Prog Fs Buf Int := do
  match ← inodeBitmapAlloc with
  | none =>
    dirClose parentDir
    return -1
  | some inodeNo =>
    match ← blockBitmapAlloc with
    | none =>
      inodeBitmapSet inodeNo false
      dirClose parentDir
      return -1
    | some blockLba =>
      let v := (← get).vol
      assert (v.bitIdx blockLba ≠ 0)
      bitmapSync (v.bitIdx blockLba) .block
      let parentNo := (← getInode (← parentDir.inode)).iNo
      ideWrite blockLba 1 (fun _ => dotBlock inodeNo parentNo)
      let newDirInode : Inode := { inodeInit inodeNo with
        iSize := 2 * v.sb.dirEntrySize
        iSectors := Function.update (fun _ => 0) 0 blockLba }
      let newDirEntry ← createDirEntry dirname inodeNo ftDirectory
      if ← syncDirEntry parentDir newDirEntry then
        inodeSync (← getInode (← parentDir.inode)) ioBuf
        inodeSync newDirInode ioBuf
        bitmapSync inodeNo .inode
        dirClose parentDir
        return 0
      else
        inodeBitmapSet inodeNo false
        dirClose parentDir
        return -1

def sysMkdir (stack : Stack) (pathname : List UInt8) : Prog Fs Buf Int := do
  let (inodeNo, searchedRecord) ← searchFile stack.dirE pathname
  if inodeNo ≠ -1 then
    dirClose searchedRecord.parentDir
    return -1
  else
    let pathnameDepth ← pathDepthCnt stack.name₁ pathname
    let pathSearchedDepth ← pathDepthCnt stack.name₂ searchedRecord.searchedPath
    if pathnameDepth ≠ pathSearchedDepth then
      dirClose searchedRecord.parentDir
      return -1
    else if searchedRecord.searchedPath = [] then
      halt .fault
    else
      makeDir searchedRecord.parentDir (afterSlash searchedRecord.searchedPath) (sectorSize * 2)

def sysUnlink (stack : Stack) (pathname : List UInt8) : Prog Fs Buf Int := do
  assert (pathname.length < maxPathLen)
  let (inodeNo, searchedRecord) ← searchFile stack.dirE pathname
  assert (inodeNo ≠ 0)
  if inodeNo = -1 then
    dirClose searchedRecord.parentDir
    return -1
  else if searchedRecord.fileType = ftDirectory then
    dirClose searchedRecord.parentDir
    return -1
  else if inFileTable (← get).mem (uint32 inodeNo) then
    dirClose searchedRecord.parentDir
    return -1
  else
    let _ ← deleteDirEntry searchedRecord.parentDir (uint32 inodeNo) (sectorSize + sectorSize)
    inodeRelease (uint32 inodeNo)
    dirClose searchedRecord.parentDir
    return 0

section TwoSectors

/-! With 1024 bytes nothing changes. -/

theorem through_secs (pos : InodePosition) : through 1024 (512 * pos.secs) = pure () := by
  have h : 512 * pos.secs ≤ 1024 := by
    simp only [InodePosition.secs]
    split <;> omega
  exact if_pos h

theorem inodeSync_eq (i : Inode) : inodeSync i 1024 = Fs.inodeSync i := by
  simp only [inodeSync, through_secs, pure_bind]
  rfl

theorem inodeDelete_eq (inodeNo : Nat) : inodeDelete inodeNo 1024 = Fs.inodeDelete inodeNo := by
  simp only [inodeDelete, through_secs, pure_bind]
  rfl

theorem inodeRelease_eq (inodeNo : Nat) : inodeRelease inodeNo = Fs.inodeRelease inodeNo := by
  simp only [inodeRelease, inodeDelete_eq]
  rfl

theorem entryGone_eq (p size : Nat) : entryGone p size 1024 = Fs.entryGone p size := by
  simp only [entryGone, inodeSync_eq]
  rfl

theorem deleteBlocks_eq (p inodeNo : Nat) (all : Nat → Nat) (ks : List Nat) :
    deleteBlocks p inodeNo all 1024 ks = Fs.deleteBlocks p inodeNo all ks := by
  induction ks with
  | nil => rfl
  | cons k ks ih =>
    simp only [deleteBlocks, ih, entryGone_eq]
    rfl

theorem deleteDirEntry_eq (d : DirRef) (inodeNo : Nat) :
    deleteDirEntry d inodeNo 1024 = Fs.deleteDirEntry d inodeNo := by
  simp only [deleteDirEntry, deleteBlocks_eq]
  rfl

theorem dirRemove_eq (d e : DirRef) : dirRemove d e = Fs.dirRemove d e := by
  have h : ∀ n, deleteDirEntry d n (sectorSize * 2) = Fs.deleteDirEntry d n := deleteDirEntry_eq d
  simp only [dirRemove, h, inodeRelease_eq]
  rfl

theorem fileInstall_eq (cur : Nat) (d : DirRef) (name : List UInt8) (flag inodeNo fdIdx : Nat) :
    fileInstall cur d name flag inodeNo fdIdx 1024 = Fs.fileInstall cur d name flag inodeNo fdIdx := by
  simp only [fileInstall, inodeSync_eq]
  rfl

theorem fileCreate_eq (cur : Nat) (d : DirRef) (name : List UInt8) (flag : Nat) :
    fileCreate cur d name flag = Fs.fileCreate cur d name flag := by
  simp only [fileCreate, fileInstall_eq]
  rfl

theorem makeDir_eq (d : DirRef) (name : List UInt8) : makeDir d name 1024 = Fs.makeDir d name := by
  simp only [makeDir, inodeSync_eq]
  rfl

theorem sysMkdir_eq (stack : Stack) (path : List UInt8) : sysMkdir stack path = Fs.sysMkdir stack path := by
  have h : ∀ d name, makeDir d name (sectorSize * 2) = Fs.makeDir d name := makeDir_eq
  simp only [sysMkdir, h]
  rfl

theorem sysUnlink_eq (stack : Stack) (path : List UInt8) : sysUnlink stack path = Fs.sysUnlink stack path := by
  have h : ∀ d n, deleteDirEntry d n (sectorSize + sectorSize) = Fs.deleteDirEntry d n := deleteDirEntry_eq
  simp only [sysUnlink, h, inodeRelease_eq]
  rfl

end TwoSectors

section Write

variable {s : Fs} {g count : Nat} {buf : Buf}

/-- `file_write` up to its `inode_sync`; `none` stands for the result -1. -/
def writtenData (g p : Nat) (buf : Buf) (count : Nat) : Prog Fs Buf (Option Inode) := do
  match ← collectBlocks p count with
  | none => return none
  | some allBlocks =>
    let i ← getInode p
    let f := (← get).mem.fileTable g
    setFile g { f with fdPos := sub32 i.iSize 1 }
    writeChunks g p allBlocks buf count (count + 1) 0 true
    return some (← getInode p)

def written (g : Nat) (buf : Buf) (count : Nat) : Prog Fs Buf (Option Inode) := do
  let p ← fileInode g
  let i ← getInode p
  if 512 * 140 < add32 i.iSize count then
    return none
  else if !(← firstBlock p) then
    return none
  else
    writtenData g p buf count

def synced (ioBuf count : Nat) : Option Inode → Prog Fs Buf Int
  | none => return -1
  | some i => do
    inodeSync i ioBuf
    return count

theorem writeData_bind (g p : Nat) (buf : Buf) (count ioBuf : Nat) :
    writeData g p buf count ioBuf = writtenData g p buf count >>= synced ioBuf count := by
  simp only [writeData, writtenData, bind_assoc]
  congr 1
  funext r
  cases r with
  | none => rfl
  | some all => simp only [bind_assoc, pure_bind, synced]

theorem written_bind (ioBuf : Nat) : written g buf count >>= synced ioBuf count = (do
    let p ← fileInode g
    let i ← getInode p
    if 512 * 140 < add32 i.iSize count then
      return -1
    else if !(← firstBlock p) then
      return -1
    else
      writeData g p buf count ioBuf) := by
  simp only [written, bind_assoc]
  congr 1
  funext p
  congr 1
  funext i
  split
  · rfl
  · rw [bind_assoc]
    congr 1
    funext b
    cases b with
    | false => rfl
    | true => exact (writeData_bind g p buf count ioBuf).symm

theorem fileWrite_bind : fileWrite g buf count = written g buf count >>= synced 512 count := (written_bind 512).symm

theorem plain_fileWrite_bind : Fs.fileWrite g buf count = written g buf count >>= synced 1024 count := by
  rw [written_bind]
  simp only [writeData, inodeSync_eq]
  rfl

theorem run_inodeSync (i : Inode) (ioBuf : Nat) (s : Fs) : ((inodeSync i ioBuf).on s).run =
    ((Fs.inodeSync i).on s).run.bind (fun r =>
      if recordBytes i.iNo ≤ ioBuf then .ok r else .error .fault) := by
  by_cases h₁ : i.iNo < 4096
  · by_cases h₂ : s.vol.sb.inodeTableLba + i.iNo * 76 / 512 ≤ s.vol.startLba + s.vol.secCnt
    · by_cases h₃ : s.vol.sb.inodeTableLba + i.iNo * 76 / 512 ≤ maxLba
      · by_cases h₄ : Straddles i.iNo
        · simp [inodeSync, Fs.inodeSync, inodeLocate, assertInPart, ideRead, ideWrite, through, assert, transfer,
            Res.bind, Res.run, InodePosition.secs, recordBytes, Except.bind, h₁, h₂, h₃, h₄]
          split <;> rfl
        · simp [inodeSync, Fs.inodeSync, inodeLocate, assertInPart, ideRead, ideWrite, through, assert, transfer,
            Res.bind, Res.run, InodePosition.secs, recordBytes, Except.bind, h₁, h₂, h₃, h₄]
          split <;> rfl
      · simp [inodeSync, Fs.inodeSync, inodeLocate, assertInPart, ideRead, assert, Res.bind, Res.run, Except.bind,
          h₁, h₂, h₃]
    · simp [inodeSync, Fs.inodeSync, inodeLocate, assertInPart, assert, Res.bind, Res.run, Except.bind, h₁, h₂]
  · simp [inodeSync, Fs.inodeSync, inodeLocate, assert, Res.bind, Res.run, Except.bind, h₁]

def SameNumbers (s t : Fs) : Prop :=
  ∀ p i, s.mem.inodes p = some i → ∃ j, t.mem.inodes p = some j ∧ j.iNo = i.iNo

theorem SameNumbers.update {p : Nat} {i j : Inode} (hi : s.mem.inodes p = some i) (hj : j.iNo = i.iNo) :
    SameNumbers s { s with mem.inodes := Function.update s.mem.inodes p (some j) } := by
  intro q k hk
  by_cases hq : q = p
  · subst hq
    cases hi.symm.trans hk
    exact ⟨j, Function.update_self _ _ _, hj⟩
  · exact ⟨k, (Function.update_of_ne hq _ _).trans hk, rfl⟩

instance : Inner SameNumbers where
  refl _ _ i hi := ⟨i, hi, rfl⟩
  trans _ _ _ h h' p i hi := by
    obtain ⟨j, hj, hn⟩ := h p i hi
    obtain ⟨k, hk, hn'⟩ := h' p j hj
    exact ⟨k, hk, hn'.trans hn⟩
  vol _ _ _ i hi := ⟨i, hi, rfl⟩
  sectors _ _ _ _ hi := .update hi rfl
  body _ _ _ _ _ hi := .update hi rfl
  pos _ _ _ _ _ _ i hi := ⟨i, hi, rfl⟩

theorem sat_getInode_number {p : Nat} {i : Inode} {t : Fs} (hi : s.mem.inodes p = some i) (h : SameNumbers s t) :
    ((getInode p).on t).Sat True (fun j _ => j.iNo = i.iNo) := by
  refine (sat_getInode_eq p t).mono fun j u hj => ?_
  obtain ⟨k, hk, hn⟩ := h p i hi
  cases hj.2.symm.trans hk
  exact hn

theorem sat_writtenData {p : Nat} {i : Inode} {t : Fs} (hi : s.mem.inodes p = some i) (h : SameNumbers s t) :
    ((writtenData g p buf count).on t).Sat True (fun r _ => ∀ j, r = some j → j.iNo = i.iNo) := by
  have hc : Keeps SameNumbers (collectBlocks p count) := Inner.keeps_collectBlocks p count
  rw [writtenData, sat_bind]
  refine (hc t).mono fun r t₁ h₁ => ?_
  cases r with
  | none => exact fun j hj => nomatch hj
  | some all =>
    have hw : Keeps SameNumbers (writeChunks g p all buf count (count + 1) 0 true) :=
      Inner.keeps_writeChunks _ _ _ _ _ _ _ _
    dsimp only
    rw [sat_bind]
    refine (sat_getInode_eq p t₁).mono fun k u hk => ?_
    obtain ⟨rfl, -⟩ := hk
    simp only [bind_on, get_on, setFile, modify_on, Res.sat_bind, Res.sat_done]
    refine (hw _).mono fun _ t₂ h₂ => ?_
    have hn : SameNumbers s t₂ := IsTrans.trans _ _ _ h (IsTrans.trans _ _ _ h₁ h₂)
    refine (sat_getInode_number hi hn).mono fun j _ hj j' hj' => ?_
    cases hj'
    exact hj

theorem sat_written (s : Fs) : ((written g buf count).on s).Sat True (fun r _ =>
    ∀ j, r = some j → ∃ p i, (s.mem.fileTable g).fdInode = some p ∧ s.mem.inodes p = some i ∧ j.iNo = i.iNo) := by
  rw [written, sat_bind]
  refine (sat_fileInode_eq g s).mono fun p t ht => ?_
  obtain ⟨rfl, hp⟩ := ht
  rw [sat_bind]
  refine (sat_getInode_eq p t).mono fun i u hu => ?_
  obtain ⟨rfl, hi⟩ := hu
  rw [ite_on]
  split
  · exact fun j hj => nomatch hj
  · rw [sat_bind]
    have hf : Keeps SameNumbers (firstBlock p) := Inner.keeps_firstBlock p
    refine (hf u).mono fun b t₁ h₁ => ?_
    cases b with
    | false => exact fun j hj => nomatch hj
    | true =>
      refine (sat_writtenData hi h₁).mono fun r _ hr j hj => ?_
      exact ⟨p, i, hp, hi, hr j hj⟩

theorem run_synced_none (ioBuf : Nat) (s : Fs) : ((synced ioBuf count none).on s).run = .ok (-1, s) := rfl

theorem run_synced_some (i : Inode) (ioBuf : Nat) (s : Fs) : ((synced ioBuf count (some i)).on s).run =
    ((Fs.inodeSync i).on s).run.bind (fun r =>
      if recordBytes i.iNo ≤ ioBuf then .ok ((count : Int), r.2) else .error .fault) := by
  rw [synced, bind_on, Res.run_bind, run_inodeSync]
  cases ((Fs.inodeSync i).on s).run with
  | error e => rfl
  | ok r =>
    by_cases hle : recordBytes i.iNo ≤ ioBuf
    · simp only [Except.bind, if_pos hle]
      rfl
    · simp only [Except.bind, if_neg hle]

theorem run_fileWrite_iff : ((fileWrite g buf count).on s).run = ((Fs.fileWrite g buf count).on s).run ↔
    ∀ r t, ((Fs.fileWrite g buf count).on s).run = .ok (r, t) → r ≠ -1 →
      ∀ p i, (s.mem.fileTable g).fdInode = some p → s.mem.inodes p = some i → ¬Straddles i.iNo := by
  rw [fileWrite_bind, plain_fileWrite_bind, bind_on, bind_on, Res.run_bind, Res.run_bind]
  cases hw : ((written g buf count).on s).run with
  | error e => simp [Except.bind]
  | ok x =>
    obtain ⟨r, t⟩ := x
    cases r with
    | none => simp [Except.bind, run_synced_none]
    | some j =>
      obtain ⟨p, i, hp, hi, hn⟩ := (sat_written s).of_run hw j rfl
      have hone : (∀ q k, (s.mem.fileTable g).fdInode = some q → s.mem.inodes q = some k → ¬Straddles k.iNo) ↔
          recordBytes j.iNo ≤ 512 := by
        rw [recordBytes_le_iff, hn]
        constructor
        · exact fun h => h p i hp hi
        · intro h q k hq hk
          cases hp.symm.trans hq
          cases hi.symm.trans hk
          exact h
      have hcount : (count : Int) ≠ -1 := by omega
      simp only [Except.bind, run_synced_some, hone]
      cases ((Fs.inodeSync j).on t).run with
      | error e => simp
      | ok u =>
        dsimp only
        rw [if_pos (recordBytes_le j.iNo)]
        by_cases hle : recordBytes j.iNo ≤ 512
        · simp [hle]
        · simp [hle, hcount]

end Write

/-- The calls that hand a buffer to `inode_sync` or `inode_delete`; `delete_dir_entry` has it from
`sys_unlink` or `dir_remove`. -/
inductive Call
  | fileCreate (cur : Nat) (parentDir : DirRef) (filename : List UInt8) (flag : Nat)
  | fileWrite (g : Nat) (buf : Buf) (count : Nat)
  | sysMkdir (stack : Stack) (pathname : List UInt8)
  | sysUnlink (stack : Stack) (pathname : List UInt8)
  | dirRemove (parentDir childDir : DirRef)
  | inodeRelease (inodeNo : Nat)

def Call.prog : Call → Prog Fs Buf Int
  | .fileCreate cur parentDir filename flag => Fs.fileCreate cur parentDir filename flag
  | .fileWrite g buf count => Fs.fileWrite g buf count
  | .sysMkdir stack pathname => Fs.sysMkdir stack pathname
  | .sysUnlink stack pathname => Fs.sysUnlink stack pathname
  | .dirRemove parentDir childDir => Fs.dirRemove parentDir childDir
  | .inodeRelease inodeNo => do
    Fs.inodeRelease inodeNo
    return 0

def Call.sized : Call → Prog Fs Buf Int
  | .fileCreate cur parentDir filename flag => Sized.fileCreate cur parentDir filename flag
  | .fileWrite g buf count => Sized.fileWrite g buf count
  | .sysMkdir stack pathname => Sized.sysMkdir stack pathname
  | .sysUnlink stack pathname => Sized.sysUnlink stack pathname
  | .dirRemove parentDir childDir => Sized.dirRemove parentDir childDir
  | .inodeRelease inodeNo => do
    Sized.inodeRelease inodeNo
    return 0

/-- No transfer runs over the end of a buffer, unless `file_write` gets as far as to write back an
inode whose record lies in two sectors. -/
theorem buffers_suffice_iff (c : Call) (s : Fs) : (c.sized.on s).run = (c.prog.on s).run ↔
    ∀ g buf count, c = .fileWrite g buf count → ∀ r t, (c.prog.on s).run = .ok (r, t) → r ≠ -1 →
      ∀ p i, (s.mem.fileTable g).fdInode = some p → s.mem.inodes p = some i → ¬Straddles i.iNo := by
  cases c with
  | fileCreate cur d name flag => simp [Call.sized, Call.prog, fileCreate_eq]
  | sysMkdir stack path => simp [Call.sized, Call.prog, sysMkdir_eq]
  | sysUnlink stack path => simp [Call.sized, Call.prog, sysUnlink_eq]
  | dirRemove d e => simp [Call.sized, Call.prog, dirRemove_eq]
  | inodeRelease n => simp [Call.sized, Call.prog, inodeRelease_eq]
  | fileWrite g buf count =>
    constructor
    · rintro h _ _ _ ⟨⟩
      exact run_fileWrite_iff.mp h
    · intro h
      exact run_fileWrite_iff.mpr (h g buf count rfl)

def openSix : Fs where
  vol := ⟨0, 1000, ⟨0, 1000, 4096, 0, 1, 1, 2, 1, 3, 608, 611, 0, 24⟩, fun _ => 0, ⟨512, fun _ => 0⟩,
    ⟨512, fun _ => 0⟩⟩
  mem := ⟨Function.update (fun _ => none) 1 (some ⟨6, 0, 1, true, Function.update (fun _ => 0) 0 700⟩), [1], 0,
    Function.update (fun _ => ⟨0, 0, none⟩) 3 ⟨0, 1, some 1⟩, fun _ => none, fun _ _ => -1, fun _ => 0⟩

theorem release_fits : ((Call.inodeRelease 6).sized.on openSix).run = ((Call.inodeRelease 6).prog.on openSix).run :=
  (buffers_suffice_iff _ _).mpr fun _ _ _ h => nomatch h

/-- 1024 bytes go through the 512 bytes of `io_buf`. -/
theorem one_byte_overruns : ∃ t, ((Call.fileWrite 3 (fun _ => 65) 1).prog.on openSix).run = .ok (1, t) ∧
    ((Call.fileWrite 3 (fun _ => 65) 1).sized.on openSix).run = .error .fault :=
  ⟨_, run_of_gives (by decide), run_of_stops (by decide)⟩

end Sized

end TrueOs.Fs
