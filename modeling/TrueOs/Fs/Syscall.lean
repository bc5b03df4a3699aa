import TrueOs.Shell.Pipe

/-! The system calls of `fs/fs.c`.  `cur` is the running thread, and `stack` what
the calls find in their uninitialised local variables. -/

namespace TrueOs.Fs

open Prog

/-- `dir_e` of `search_file`, and `name` of the first and second `path_depth_cnt`. -/
structure Stack where
  dirE : DirEntry
  name₁ : Buf
  name₂ : Buf

def uint32 (n : Int) : Nat := (n % 2 ^ 32).toNat

def setFd (cur : Nat) (fd : Nat) (v : Int) : Prog Fs Buf Unit :=
  modify (fun s => { s with
    mem.fdTable := Function.update s.mem.fdTable cur (Function.update (s.mem.fdTable cur) fd v) })

def sysOpen (stack : Stack) (cur : Nat) (pathname : List UInt8) (flags : Nat) : Prog Fs Buf Int := do
  match pathname.getLast? with
  | none => halt .fault
  | some c =>
    if c = slash then
      return -1
    else
      assert (flags ≤ 7)
      let pathnameDepth ← pathDepthCnt stack.name₁ pathname
      let (inodeNo, searchedRecord) ← searchFile stack.dirE pathname
      let found := inodeNo ≠ -1
      if searchedRecord.fileType = ftDirectory then
        dirClose searchedRecord.parentDir
        return -1
      else
        let pathSearchedDepth ← pathDepthCnt stack.name₂ searchedRecord.searchedPath
        if pathnameDepth ≠ pathSearchedDepth then
          dirClose searchedRecord.parentDir
          return -1
        else if ¬found ∧ flags &&& oCreat = 0 then
          dirClose searchedRecord.parentDir
          return -1
        else if found ∧ flags &&& oCreat ≠ 0 then
          dirClose searchedRecord.parentDir
          return -1
        else if flags &&& oCreat = oCreat then
          let fd ← fileCreate cur searchedRecord.parentDir (afterSlash pathname) flags
          dirClose searchedRecord.parentDir
          return fd
        else
          -- the directory `search_file` has left open stays open here
          fileOpen cur (uint32 inodeNo) flags

/-- The last descriptor of a pipe gives its page back. -/
def closePipe (globalFd : Nat) : Prog Fs Buf Unit := do
  let f := (← get).mem.fileTable globalFd
  let fdPos := sub32 f.fdPos 1
  if fdPos = 0 then
    let page ← fileInode globalFd
    modify (fun s => { s with mem.pipes := Function.update s.mem.pipes page none })
    setFile globalFd { f with fdPos := fdPos, fdInode := none }
  else
    setFile globalFd { f with fdPos := fdPos }

def sysClose (cur : Nat) (fd : Int) : Prog Fs Buf Int := do
  if 2 < fd then
    let globalFd ← fdLocal2Global cur fd.toNat
    if ← isPipe cur fd.toNat then
      closePipe globalFd
      setFd cur fd.toNat (-1)
      return 0
    else
      let ret ← fileClose globalFd
      setFd cur fd.toNat (-1)
      return ret
  else
    return -1

/-- The console is not modelled: writing to it only has to fit `tmp_buf`. -/
def consoleWrite (count : Nat) : Prog Fs Buf Int :=
  if count ≤ 1024 then return count else halt .fault

def sysWrite (cur : Nat) (fd : Int) (buf : Buf) (count : Nat) : Prog Fs Buf Int := do
  if fd < 0 then
    return -1
  else if ← isPipe cur fd.toNat then
    pipeWrite cur fd.toNat buf count
  else if fd = 1 then
    consoleWrite count
  else
    let g ← fdLocal2Global cur fd.toNat
    let wrFile := (← get).mem.fileTable g
    if wrFile.fdFlag &&& oWronly ≠ 0 ∨ wrFile.fdFlag &&& oRdwr ≠ 0 then
      fileWrite g buf count
    else
      return -1

def inFileTable (m : Mem) (inodeNo : Nat) : Bool :=
  (List.range maxFileOpen).any (fun idx => (m.fileTable idx).fdInode.any (fun p =>
    (m.inodes p).any (fun i => i.iNo == inodeNo)))

def sysUnlink (stack : Stack) (pathname : List UInt8) : Prog Fs Buf Int := do
  assert (pathname.length < maxPathLen)
  let (inodeNo, searchedRecord) ← searchFile stack.dirE pathname
  assert (inodeNo ≠ 0)
  if inodeNo = -1 then
    dirClose searchedRecord.parentDir
    return -1
  else if searchedRecord.fileType = ftDirectory then
    dirClose searchedRecord.parentDir
    return -1
  else if inFileTable (← get).mem (uint32 inodeNo) then
    dirClose searchedRecord.parentDir
    return -1
  else
    let _ ← deleteDirEntry searchedRecord.parentDir (uint32 inodeNo)
    inodeRelease (uint32 inodeNo)
    dirClose searchedRecord.parentDir
    return 0

def dotBlock (inodeNo parentNo : Nat) : Buf :=
  Buf.splice (Buf.splice (fun _ => 0) 0 dirEntryBytes
      (DirEntry.bytes ⟨fun i => dot.getD i 0, inodeNo, ftDirectory⟩))
    dirEntryBytes dirEntryBytes (DirEntry.bytes ⟨fun i => dotdot.getD i 0, parentNo, ftDirectory⟩)

/-- What `sys_mkdir` does once the name is known to be free.  The inode of the new
directory is a local variable. -/
def makeDir (parentDir : DirRef) (dirname : List UInt8) : Prog Fs Buf Int := do
  match ← inodeBitmapAlloc with
  | none =>
    dirClose parentDir
    return -1
  | some inodeNo =>
    match ← blockBitmapAlloc with
    | none =>
      inodeBitmapSet inodeNo false
      dirClose parentDir
      return -1
    | some blockLba =>
      let v := (← get).vol
      assert (v.bitIdx blockLba ≠ 0)
      bitmapSync (v.bitIdx blockLba) .block
      let parentNo := (← getInode (← parentDir.inode)).iNo
      ideWrite blockLba 1 (fun _ => dotBlock inodeNo parentNo)
      let newDirInode : Inode := { inodeInit inodeNo with
        iSize := 2 * v.sb.dirEntrySize
        iSectors := Function.update (fun _ => 0) 0 blockLba }
      let newDirEntry ← createDirEntry dirname inodeNo ftDirectory
      if ← syncDirEntry parentDir newDirEntry then
        inodeSync (← getInode (← parentDir.inode))
        inodeSync newDirInode
        bitmapSync inodeNo .inode
        dirClose parentDir
        return 0
      else
        inodeBitmapSet inodeNo false
        dirClose parentDir
        return -1

def sysMkdir (stack : Stack) (pathname : List UInt8) : Prog Fs Buf Int := do
  let (inodeNo, searchedRecord) ← searchFile stack.dirE pathname
  if inodeNo ≠ -1 then
    dirClose searchedRecord.parentDir
    return -1
  else
    let pathnameDepth ← pathDepthCnt stack.name₁ pathname
    let pathSearchedDepth ← pathDepthCnt stack.name₂ searchedRecord.searchedPath
    if pathnameDepth ≠ pathSearchedDepth then
      dirClose searchedRecord.parentDir
      return -1
    else if searchedRecord.searchedPath = [] then
      -- `strrchr` finds no slash and returns a null pointer
      halt .fault
    else
      makeDir searchedRecord.parentDir (afterSlash searchedRecord.searchedPath)

def sysOpendir (stack : Stack) (pathname : List UInt8) : Prog Fs Buf (Option DirRef) := do
  assert (pathname.length < maxPathLen)
  -- `pathname[0] == '.'` is tested where `pathname[1]` was meant, and cannot hold
  if pathname = [slash] then
    return some .root
  else
    let (inodeNo, searchedRecord) ← searchFile stack.dirE pathname
    if inodeNo ≠ -1 ∧ searchedRecord.fileType = ftDirectory then
      let ret ← dirOpen (uint32 inodeNo)
      dirClose searchedRecord.parentDir
      return some ret
    else
      dirClose searchedRecord.parentDir
      return none

def sysRmdir (stack : Stack) (pathname : List UInt8) : Prog Fs Buf Int := do
  let (inodeNo, searchedRecord) ← searchFile stack.dirE pathname
  assert (inodeNo ≠ 0)
  if inodeNo = -1 then
    dirClose searchedRecord.parentDir
    return -1
  else if searchedRecord.fileType = ftRegular then
    dirClose searchedRecord.parentDir
    return -1
  else
    let dir ← dirOpen (uint32 inodeNo)
    let retval ← if ← dirIsEmpty dir then dirRemove searchedRecord.parentDir dir else pure (-1)
    dirClose dir
    dirClose searchedRecord.parentDir
    return retval

def sysChdir (stack : Stack) (cur : Nat) (path : List UInt8) : Prog Fs Buf Int := do
  let (inodeNo, searchedRecord) ← searchFile stack.dirE path
  if inodeNo ≠ -1 ∧ searchedRecord.fileType = ftDirectory then
    modify (fun s => { s with
      mem.cwdInodeNr := Function.update s.mem.cwdInodeNr cur (uint32 inodeNo) })
    dirClose searchedRecord.parentDir
    return 0
  else
    dirClose searchedRecord.parentDir
    return -1

structure Stat where
  stIno : Nat
  stSize : Nat
  stFiletype : Nat

/-- `none` stands for the result `-1`. -/
def sysStat (stack : Stack) (path : List UInt8) : Prog Fs Buf (Option Stat) := do
  if isRootPath path then
    let i ← getInode (← get).mem.rootDir
    return some ⟨0, i.iSize, ftDirectory⟩
  else
    let (inodeNo, searchedRecord) ← searchFile stack.dirE path
    if inodeNo ≠ -1 then
      let p ← inodeOpen (uint32 inodeNo)
      let i ← getInode p
      inodeClose p
      dirClose searchedRecord.parentDir
      return some ⟨uint32 inodeNo, i.iSize, searchedRecord.fileType⟩
    else
      dirClose searchedRecord.parentDir
      return none

end TrueOs.Fs
