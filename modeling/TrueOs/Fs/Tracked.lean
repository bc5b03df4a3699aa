import TrueOs.Fs.Cwd
import TrueOs.Kernel.Memory
import TrueOs.Lib.Ghost

/-! The calls of `fs/` once more, with the heap blocks they take and give back.

`pf` is the pool that `sys_malloc` and `sys_free` choose for the running task: that of the
kernel exactly when its `pgdir` is null.  A block that goes to a pool it does not come from is
only noted, so that the calls do to the file system what they did before. -/

namespace TrueOs.Fs

open Prog Mm

/-- An inode goes by its pointer, any other block by the time it was taken at. -/
inductive Block
  | inode (p : Nat)
  | other (k : Nat)
  deriving DecidableEq

/-- `pool` is where a live block comes from; `mixed` says that one was given back elsewhere. -/
structure Blocks where
  pool : Block → Option PoolFlags
  next : Nat
  mixed : Bool

@[simps] def Blocks.take (h : Blocks) (b : Block) (pf : PoolFlags) : Blocks :=
  ⟨Function.update h.pool b (some pf), h.next, h.mixed⟩

@[simps] def Blocks.give (h : Blocks) (b : Block) (pf : PoolFlags) : Blocks :=
  ⟨Function.update h.pool b none, h.next, h.mixed || h.pool b != some pf⟩

@[simps] def Blocks.tick (h : Blocks) : Blocks := ⟨h.pool, h.next + 1, h.mixed⟩

/-- `struct dir` with the block it is in. -/
inductive Dir
  | root
  | heap (k p : Nat)
  deriving DecidableEq

def Dir.ref : Dir → DirRef
  | .root => .root
  | .heap _ p => .heap p

/-- `sys_mkdir` up to the `dir_close` that ends it. -/
def enterDir (parentDir : DirRef) (dirname : List UInt8) : Prog Fs Buf Int := do
  match ← inodeBitmapAlloc with
  | none => return -1
  | some inodeNo =>
    match ← blockBitmapAlloc with
    | none =>
      inodeBitmapSet inodeNo false
      return -1
    | some blockLba =>
      let v := (← get).vol
      assert (v.bitIdx blockLba ≠ 0)
      bitmapSync (v.bitIdx blockLba) .block
      let parentNo := (← getInode (← parentDir.inode)).iNo
      ideWrite blockLba 1 (fun _ => dotBlock inodeNo parentNo)
      let newDirInode : Inode := { inodeInit inodeNo with
        iSize := 2 * v.sb.dirEntrySize
        iSectors := Function.update (fun _ => 0) 0 blockLba }
      let newDirEntry ← createDirEntry dirname inodeNo ftDirectory
      if ← syncDirEntry parentDir newDirEntry then
        inodeSync (← getInode (← parentDir.inode))
        inodeSync newDirInode
        bitmapSync inodeNo .inode
        return 0
      else
        inodeBitmapSet inodeNo false
        return -1

theorem makeDir_eq (parentDir : DirRef) (dirname : List UInt8) : makeDir parentDir dirname = (do
    let ret ← enterDir parentDir dirname
    dirClose parentDir
    return ret) := by
  simp only [makeDir, enterDir, bind_assoc]
  congr 1
  funext r
  cases r with
  | none => simp only [pure_bind]
  | some inodeNo =>
    simp only [bind_assoc]
    congr 1
    funext r
    cases r with
    | none => simp only [bind_assoc, pure_bind]
    | some blockLba =>
      simp only [bind_assoc]
      congr!
      split <;> simp only [bind_assoc, pure_bind]

namespace Tracked

def sysMalloc (pf : PoolFlags) : Prog (Fs × Blocks) Buf Nat :=
  note (fun h => (h.next, (h.take (.other h.next) pf).tick))

/-- `sys_malloc(sizeof(struct inode))`, once the object has its pointer. -/
def mallocInode (p : Nat) (pf : PoolFlags) : Prog (Fs × Blocks) Buf Unit :=
  note (fun h => ((), h.take (.inode p) pf))

def sysFree (b : Block) (pf : PoolFlags) : Prog (Fs × Blocks) Buf Unit :=
  note (fun h => ((), h.give b pf))

/-- A buffer that is given back when the code that needs it is through. -/
def withBuf {α : Type} (pf : PoolFlags) (c : Prog (Fs × Blocks) Buf α) : Prog (Fs × Blocks) Buf α := do
  let k ← sysMalloc pf
  let a ← c
  sysFree (.other k) pf
  return a

variable (pf : PoolFlags)

/-- `cur->pgdir` is null while the inode is taken, but not for `inode_buf`. -/
def inodeOpen (inodeNo : Nat) : Prog (Fs × Blocks) Buf Nat := do
  match (← lift get).mem.find inodeNo with
  | some _ => lift (Fs.inodeOpen inodeNo)
  | none => withBuf pf do
    let p ← lift (Fs.inodeOpen inodeNo)
    mallocInode p .kernel
    return p

/-- `cur->pgdir` is null while the inode is given back. -/
def inodeClose (p : Nat) : Prog (Fs × Blocks) Buf Unit := do
  let i ← lift (getInode p)
  lift (Fs.inodeClose p)
  if sub32 i.iOpenCnts 1 = 0 then
    sysFree (.inode p) .kernel

def inodeRelease (inodeNo : Nat) : Prog (Fs × Blocks) Buf Unit := do
  let p ← inodeOpen pf inodeNo
  lift do
    let i ← getInode p
    assert (i.iNo = inodeNo)
    releaseSectors i
    inodeBitmapSet inodeNo false
    bitmapSync inodeNo .inode
  withBuf pf (lift (inodeDelete inodeNo))
  inodeClose p

def dirOpen (inodeNo : Nat) : Prog (Fs × Blocks) Buf Dir := do
  let k ← sysMalloc pf
  return .heap k (← inodeOpen pf inodeNo)

def dirClose : Dir → Prog (Fs × Blocks) Buf Unit
  | .root => return ()
  | .heap k p => do
    inodeClose p
    sysFree (.other k) pf

def searchDirEntry (pdir : Dir) (name : List UInt8) : Prog (Fs × Blocks) Buf (Option DirEntry) :=
  withBuf pf (withBuf pf (lift (Fs.searchDirEntry pdir.ref name)))

def dirRemove (parentDir childDir : Dir) : Prog (Fs × Blocks) Buf Int := do
  let i ← lift do
    let i ← getInode (← childDir.ref.inode)
    assert ((List.range 12).all (fun k => i.iSectors (k + 1) == 0))
    return i
  withBuf pf do
    let _ ← lift (deleteDirEntry parentDir.ref i.iNo)
    inodeRelease pf i.iNo
    return 0

structure PathSearchRecord where
  searchedPath : List UInt8
  parentDir : Dir
  fileType : Nat

def PathSearchRecord.erase (r : PathSearchRecord) : Fs.PathSearchRecord :=
  ⟨r.searchedPath, r.parentDir.ref, r.fileType⟩

def searchLoop : (turns : Nat) → (r : PathSearchRecord) → (name : List UInt8) →
    (subPath : Option (List UInt8)) → (parentInodeNo : Nat) → (dirE : DirEntry) →
    Prog (Fs × Blocks) Buf (Int × PathSearchRecord)
  | 0, _, _, _, _, _ => halt .loop
  | turns + 1, r, name, subPath, parentInodeNo, dirE => do
    if name = [] then
      dirClose pf r.parentDir
      let parentDir ← dirOpen pf parentInodeNo
      return (int32 dirE.iNo, ⟨r.searchedPath, parentDir, ftDirectory⟩)
    else
      lift do
        assert (r.searchedPath.length < maxPathLen)
        terminated name
      let r : PathSearchRecord := { r with searchedPath := r.searchedPath ++ slash :: name }
      match ← searchDirEntry pf r.parentDir name with
      | none => return (-1, r)
      | some dirE =>
        let next ← lift (nextName subPath)
        if dirE.fType = ftDirectory then
          let parentInodeNo ← lift do return (← getInode (← r.parentDir.ref.inode)).iNo
          dirClose pf r.parentDir
          let parentDir ← dirOpen pf dirE.iNo
          searchLoop turns { r with parentDir := parentDir } next.1 next.2 parentInodeNo dirE
        else if dirE.fType = ftRegular then
          return (int32 dirE.iNo, { r with fileType := ftRegular })
        else
          searchLoop turns r next.1 next.2 parentInodeNo dirE

def searchFile (dirE : DirEntry) (pathname : List UInt8) :
    Prog (Fs × Blocks) Buf (Int × PathSearchRecord) := do
  if isRootPath pathname then
    return (0, ⟨[], .root, ftDirectory⟩)
  else
    let next ← lift do
      assert (pathname.head? = some slash ∧ 1 < pathname.length ∧ pathname.length < maxPathLen)
      nextName (some pathname)
    searchLoop pf (pathname.length + 1) ⟨[], .root, ftUnknown⟩ next.1 next.2 0 dirE

/-- The inode comes from the pool of the running task here. -/
def fileInstall (cur : Nat) (parentDir : Dir) (filename : List UInt8) (flag inodeNo fdIdx : Nat) :
    Prog (Fs × Blocks) Buf Int := do
  let p ← lift (Fs.mallocInode (inodeInit inodeNo))
  mallocInode p pf
  let synced ← lift do
    setFile fdIdx ⟨0, flag, some p⟩
    let newDirEntry ← createDirEntry filename inodeNo ftRegular
    syncDirEntry parentDir.ref newDirEntry
  if synced then
    lift do
      inodeSync (← getInode (← parentDir.ref.inode))
      inodeSync (← getInode p)
      bitmapSync inodeNo .inode
      modify (fun s => { s with mem.openInodes := p :: s.mem.openInodes })
      let i ← getInode p
      setInode p (i.cnt 1)
      pcbFdInstall cur fdIdx
  else
    lift do
      setFile fdIdx ⟨0, 0, none⟩
      freeInode p
    sysFree (.inode p) pf
    lift (inodeBitmapSet inodeNo false)
    return -1

/-- Without an inode number `io_buf` stays behind; without a slot the inode goes as it came. -/
def fileCreate (cur : Nat) (parentDir : Dir) (filename : List UInt8) (flag : Nat) :
    Prog (Fs × Blocks) Buf Int := do
  let ioBuf ← sysMalloc pf
  match ← lift inodeBitmapAlloc with
  | none => return -1
  | some inodeNo =>
    match ← lift getFreeSlotInGlobal with
    | none =>
      withBuf pf (lift (inodeBitmapSet inodeNo false))
      sysFree (.other ioBuf) pf
      return -1
    | some fdIdx =>
      let fd ← fileInstall pf cur parentDir filename flag inodeNo fdIdx
      sysFree (.other ioBuf) pf
      return fd

def fileOpen (cur inodeNo flag : Nat) : Prog (Fs × Blocks) Buf Int := do
  match ← lift getFreeSlotInGlobal with
  | none => return -1
  | some fdIdx =>
    let p ← inodeOpen pf inodeNo
    lift do
      setFile fdIdx ⟨0, flag, some p⟩
      if flag = oWronly ∨ flag = oRdwr then
        let i ← getInode p
        if i.writeDeny then
          return -1
        else
          setInode p { i with writeDeny := true }
          pcbFdInstall cur fdIdx
      else
        pcbFdInstall cur fdIdx

def fileClose (g : Nat) : Prog (Fs × Blocks) Buf Int := do
  let p ← lift do
    let p ← fileInode g
    let i ← getInode p
    setInode p { i with writeDeny := false }
    return p
  inodeClose p
  lift do
    let f := (← get).mem.fileTable g
    setFile g { f with fdInode := none }
    return 0

/-- `io_buf` and `all_blocks` are given back at the end only. -/
def fileWrite (g : Nat) (buf : Buf) (count : Nat) : Prog (Fs × Blocks) Buf Int := do
  let p ← lift (fileInode g)
  let i ← lift (getInode p)
  if 512 * 140 < add32 i.iSize count then
    return -1
  else
    let ioBuf ← sysMalloc pf
    let allBlocks ← sysMalloc pf
    if !(← lift (firstBlock p)) then
      return -1
    else
      match ← lift (collectBlocks p count) with
      | none => return -1
      | some blocks =>
        lift do
          let i ← getInode p
          let f := (← get).mem.fileTable g
          setFile g { f with fdPos := sub32 i.iSize 1 }
          writeChunks g p blocks buf count (count + 1) 0 true
          inodeSync (← getInode p)
        sysFree (.other allBlocks) pf
        sysFree (.other ioBuf) pf
        return count

def fileRead (g count : Nat) : Prog (Fs × Blocks) Buf (Option (List UInt8)) := do
  let i ← lift do getInode (← fileInode g)
  let pos := ((← lift get).mem.fileTable g).fdPos
  let size := if i.iSize < add32 pos count then sub32 i.iSize pos else count
  if i.iSize < add32 pos count ∧ size = 0 then
    return none
  else
    withBuf pf <| withBuf pf <| lift do
      let blockReadStartIdx := pos / 512
      let blockReadEndIdx := add32 pos size / 512
      assert (blockReadStartIdx < 139 ∧ blockReadEndIdx < 139)
      let allBlocks ← readBlocks (← fileInode g) blockReadStartIdx blockReadEndIdx
      return some (← readChunks g allBlocks size (size + 1) 0)

def sysOpen (stack : Stack) (cur : Nat) (pathname : List UInt8) (flags : Nat) :
    Prog (Fs × Blocks) Buf Int := do
  match pathname.getLast? with
  | none => halt .fault
  | some c =>
    if c = slash then
      return -1
    else
      let pathnameDepth ← lift do
        assert (flags ≤ 7)
        pathDepthCnt stack.name₁ pathname
      let (inodeNo, searchedRecord) ← searchFile pf stack.dirE pathname
      let found := inodeNo ≠ -1
      if searchedRecord.fileType = ftDirectory then
        dirClose pf searchedRecord.parentDir
        return -1
      else
        let pathSearchedDepth ← lift (pathDepthCnt stack.name₂ searchedRecord.searchedPath)
        if pathnameDepth ≠ pathSearchedDepth then
          dirClose pf searchedRecord.parentDir
          return -1
        else if ¬found ∧ flags &&& oCreat = 0 then
          dirClose pf searchedRecord.parentDir
          return -1
        else if found ∧ flags &&& oCreat ≠ 0 then
          dirClose pf searchedRecord.parentDir
          return -1
        else if flags &&& oCreat = oCreat then
          let fd ← fileCreate pf cur searchedRecord.parentDir (afterSlash pathname) flags
          dirClose pf searchedRecord.parentDir
          return fd
        else
          fileOpen pf cur (uint32 inodeNo) flags

def sysClose (cur : Nat) (fd : Int) : Prog (Fs × Blocks) Buf Int := do
  if 2 < fd then
    let globalFd ← lift (fdLocal2Global cur fd.toNat)
    if ← lift (isPipe cur fd.toNat) then
      lift do
        closePipe globalFd
        setFd cur fd.toNat (-1)
        return 0
    else
      let ret ← fileClose globalFd
      lift (setFd cur fd.toNat (-1))
      return ret
  else
    return -1

def sysUnlink (stack : Stack) (pathname : List UInt8) : Prog (Fs × Blocks) Buf Int := do
  lift (assert (pathname.length < maxPathLen))
  let (inodeNo, searchedRecord) ← searchFile pf stack.dirE pathname
  lift (assert (inodeNo ≠ 0))
  if inodeNo = -1 then
    dirClose pf searchedRecord.parentDir
    return -1
  else if searchedRecord.fileType = ftDirectory then
    dirClose pf searchedRecord.parentDir
    return -1
  else if inFileTable (← lift get).mem (uint32 inodeNo) then
    dirClose pf searchedRecord.parentDir
    return -1
  else
    withBuf pf do
      let _ ← lift (deleteDirEntry searchedRecord.parentDir.ref (uint32 inodeNo))
      inodeRelease pf (uint32 inodeNo)
    dirClose pf searchedRecord.parentDir
    return 0

def sysMkdir (stack : Stack) (pathname : List UInt8) : Prog (Fs × Blocks) Buf Int := withBuf pf do
  let (inodeNo, searchedRecord) ← searchFile pf stack.dirE pathname
  if inodeNo ≠ -1 then
    dirClose pf searchedRecord.parentDir
    return -1
  else
    let pathnameDepth ← lift (pathDepthCnt stack.name₁ pathname)
    let pathSearchedDepth ← lift (pathDepthCnt stack.name₂ searchedRecord.searchedPath)
    if pathnameDepth ≠ pathSearchedDepth then
      dirClose pf searchedRecord.parentDir
      return -1
    else if searchedRecord.searchedPath = [] then
      halt .fault
    else
      let ret ← lift (enterDir searchedRecord.parentDir.ref (afterSlash searchedRecord.searchedPath))
      dirClose pf searchedRecord.parentDir
      return ret

def sysOpendir (stack : Stack) (pathname : List UInt8) : Prog (Fs × Blocks) Buf (Option Dir) := do
  lift (assert (pathname.length < maxPathLen))
  if pathname = [slash] then
    return some .root
  else
    let (inodeNo, searchedRecord) ← searchFile pf stack.dirE pathname
    if inodeNo ≠ -1 ∧ searchedRecord.fileType = ftDirectory then
      let ret ← dirOpen pf (uint32 inodeNo)
      dirClose pf searchedRecord.parentDir
      return some ret
    else
      dirClose pf searchedRecord.parentDir
      return none

def sysClosedir (dir : Dir) : Prog (Fs × Blocks) Buf Int := do
  dirClose pf dir
  return 0

def sysRmdir (stack : Stack) (pathname : List UInt8) : Prog (Fs × Blocks) Buf Int := do
  let (inodeNo, searchedRecord) ← searchFile pf stack.dirE pathname
  lift (assert (inodeNo ≠ 0))
  if inodeNo = -1 then
    dirClose pf searchedRecord.parentDir
    return -1
  else if searchedRecord.fileType = ftRegular then
    dirClose pf searchedRecord.parentDir
    return -1
  else
    let dir ← dirOpen pf (uint32 inodeNo)
    let retval ← if ← lift (dirIsEmpty dir.ref) then dirRemove pf searchedRecord.parentDir dir else pure (-1)
    dirClose pf dir
    dirClose pf searchedRecord.parentDir
    return retval

def sysChdir (stack : Stack) (cur : Nat) (path : List UInt8) : Prog (Fs × Blocks) Buf Int := do
  let (inodeNo, searchedRecord) ← searchFile pf stack.dirE path
  if inodeNo ≠ -1 ∧ searchedRecord.fileType = ftDirectory then
    lift (modify (fun s => { s with
      mem.cwdInodeNr := Function.update s.mem.cwdInodeNr cur (uint32 inodeNo) }))
    dirClose pf searchedRecord.parentDir
    return 0
  else
    dirClose pf searchedRecord.parentDir
    return -1

def sysStat (stack : Stack) (path : List UInt8) : Prog (Fs × Blocks) Buf (Option Stat) := do
  if isRootPath path then
    lift do
      let i ← getInode (← get).mem.rootDir
      return some ⟨0, i.iSize, ftDirectory⟩
  else
    let (inodeNo, searchedRecord) ← searchFile pf stack.dirE path
    if inodeNo ≠ -1 then
      let p ← inodeOpen pf (uint32 inodeNo)
      let i ← lift (getInode p)
      inodeClose p
      dirClose pf searchedRecord.parentDir
      return some ⟨uint32 inodeNo, i.iSize, searchedRecord.fileType⟩
    else
      dirClose pf searchedRecord.parentDir
      return none

def getParentDirInodeNr (childInodeNr : Nat) : Prog (Fs × Blocks) Buf Nat := do
  let p ← inodeOpen pf childInodeNr
  let blockLba ← lift do
    let blockLba := (← getInode p).iSectors 0
    assert ((← get).vol.sb.dataStartLba ≤ blockLba)
    return blockLba
  inodeClose p
  lift do
    let ioBuf ← ideRead blockLba 1
    let dirE := DirEntry.ofBytes ioBuf dirEntryBytes
    assert (dirE.iNo < 4096 ∧ dirE.fType = ftDirectory)
    return dirE.iNo

def getChildDirName (parentInodeNr childInodeNr : Nat) (path : List UInt8) :
    Prog (Fs × Blocks) Buf (Option (List UInt8)) := do
  let p ← inodeOpen pf parentInodeNr
  let i ← lift (getInode p)
  let allBlocks ← lift (dirBlocks i)
  inodeClose p
  let blockCnt := if i.iSectors 12 ≠ 0 then 140 else 12
  lift (childBlocks childInodeNr path allBlocks (List.range blockCnt))

def ascend : (turns : Nat) → (childInodeNr : Nat) → (path : List UInt8) →
    Prog (Fs × Blocks) Buf (Option (List UInt8))
  | 0, _, _ => halt .loop
  | turns + 1, childInodeNr, path => do
    if childInodeNr = 0 then
      return some path
    else
      let parentInodeNr ← getParentDirInodeNr pf childInodeNr
      match ← getChildDirName pf parentInodeNr childInodeNr path with
      | none => return none
      | some path => ascend turns parentInodeNr path

def cwdPath (size childInodeNr : Nat) : Prog (Fs × Blocks) Buf (Option (List UInt8)) := do
  match ← ascend pf (maxPathLen + 1) childInodeNr [] with
  | none => return none
  | some fullPathReverse => lift do
    assert (fullPathReverse.length ≤ size)
    return some (← storePath size (turnRound fullPathReverse.length fullPathReverse []))

/-- For the root directory the function returns before `io_buf` is given back. -/
def sysGetcwd (cur size : Nat) : Prog (Fs × Blocks) Buf (Option (List UInt8)) := do
  let ioBuf ← sysMalloc pf
  let childInodeNr := (← lift get).mem.cwdInodeNr cur
  lift (assert (childInodeNr < 4096))
  if childInodeNr = 0 then
    return some (← lift (storePath size [slash]))
  else
    let path ← cwdPath pf size childInodeNr
    sysFree (.other ioBuf) pf
    return path

end Tracked

end TrueOs.Fs
