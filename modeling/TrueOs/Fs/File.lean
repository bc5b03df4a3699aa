import TrueOs.Fs.Dir

/-! `fs/file.c`.  A `struct file *` is an index into `file_table`. -/

namespace TrueOs.Fs

open Prog

def getFreeSlotInGlobal : Prog Fs Buf (Option Nat) := do
  let m := (← get).mem
  return (List.range' 3 (maxFileOpen - 3)).find? (fun g => (m.fileTable g).fdInode.isNone)

def pcbFdInstall (cur globalFdIdx : Nat) : Prog Fs Buf Int := do
  let m := (← get).mem
  match (List.range' 3 (maxFilesOpenPerProc - 3)).find? (fun l => m.fdTable cur l == -1) with
  | some localFdIdx =>
    modify (fun s => { s with
      mem.fdTable := Function.update s.mem.fdTable cur
        (Function.update (s.mem.fdTable cur) localFdIdx globalFdIdx) })
    return localFdIdx
  | none => return -1

def setFile (g : Nat) (f : File) : Prog Fs Buf Unit :=
  modify (fun s => { s with mem.fileTable := Function.update s.mem.fileTable g f })

def fileInode (g : Nat) : Prog Fs Buf Nat := do
  match ((← get).mem.fileTable g).fdInode with
  | some p => return p
  | none => halt .fault

/-- The new object is in the heap before it is on `open_inodes`. -/
def mallocInode (i : Inode) : Prog Fs Buf Nat := do
  let p := (← get).mem.fresh
  setInode p i
  return p

def freeInode (p : Nat) : Prog Fs Buf Unit :=
  modify (fun s => { s with mem.inodes := Function.update s.mem.inodes p none })

/-- What `file_create` does once the file has an inode number and a slot. -/
def fileInstall (cur : Nat) (parentDir : DirRef) (filename : List UInt8) (flag inodeNo fdIdx : Nat) :
    Prog Fs Buf Int := do
  let p ← mallocInode (inodeInit inodeNo)
  setFile fdIdx ⟨0, flag, some p⟩
  let newDirEntry ← createDirEntry filename inodeNo ftRegular
  if ← syncDirEntry parentDir newDirEntry then
    inodeSync (← getInode (← parentDir.inode))
    inodeSync (← getInode p)
    bitmapSync inodeNo .inode
    modify (fun s => { s with mem.openInodes := p :: s.mem.openInodes })
    let i ← getInode p
    setInode p (i.cnt 1)
    pcbFdInstall cur fdIdx
  else
    setFile fdIdx ⟨0, 0, none⟩
    freeInode p
    inodeBitmapSet inodeNo false
    return -1

def fileCreate (cur : Nat) (parentDir : DirRef) (filename : List UInt8) (flag : Nat) : Prog Fs Buf Int := do
  match ← inodeBitmapAlloc with
  | none => return -1
  | some inodeNo =>
    match ← getFreeSlotInGlobal with
    | none =>
      inodeBitmapSet inodeNo false
      return -1
    | some fdIdx => fileInstall cur parentDir filename flag inodeNo fdIdx

def fileOpen (cur inodeNo flag : Nat) : Prog Fs Buf Int := do
  match ← getFreeSlotInGlobal with
  | none => return -1
  | some fdIdx =>
    let p ← inodeOpen inodeNo
    setFile fdIdx ⟨0, flag, some p⟩
    if flag = oWronly ∨ flag = oRdwr then
      let i ← getInode p
      if i.writeDeny then
        return -1
      else
        setInode p { i with writeDeny := true }
        pcbFdInstall cur fdIdx
    else
      pcbFdInstall cur fdIdx

def fileClose (g : Nat) : Prog Fs Buf Int := do
  let p ← fileInode g
  let i ← getInode p
  setInode p { i with writeDeny := false }
  inodeClose p
  let f := (← get).mem.fileTable g
  setFile g { f with fdInode := none }
  return 0

def firstBlock (p : Nat) : Prog Fs Buf Bool := do
  let i ← getInode p
  if i.iSectors 0 = 0 then
    match ← blockBitmapAlloc with
    | none => return false
    | some blockLba =>
      setSector p 0 blockLba
      let blockBitmapIdx := (← get).vol.bitIdx blockLba
      assert (blockBitmapIdx ≠ 0)
      bitmapSync blockBitmapIdx .block
      return true
  else
    return true

/-- The loops that allocate block `idx` and the `n - 1` after it.  The three loops
of `file_write` are this one: situation 1 stays below 12, situation 3 above. -/
def allocBlocks (p : Nat) : (n idx : Nat) → (allBlocks : Nat → Nat) → Prog Fs Buf (Option (Nat → Nat))
  | 0, _, allBlocks => return some allBlocks
  | n + 1, idx, allBlocks => do
    match ← blockBitmapAlloc with
    | none => return none
    | some blockLba =>
      if idx < 12 then
        assert ((← getInode p).iSectors idx = 0)
        setSector p idx blockLba
      bitmapSync ((← get).vol.bitIdx blockLba) .block
      allocBlocks p n (idx + 1) (Function.update allBlocks idx blockLba)

def oneBlock (k lba : Nat) : Nat → Nat := Function.update (fun _ => 0) k lba

def tableBytes (allBlocks : Nat → Nat) : Buf := .ofWords (fun j => allBlocks (12 + j))

/-- Collect the addresses the write will use in `all_blocks`, allocating what is
missing. -/
def collectBlocks (p count : Nat) : Prog Fs Buf (Option (Nat → Nat)) := do
  let i ← getInode p
  let fileHasUsedBlocks := i.iSize / 512 + 1
  let fileWillUseBlocks := add32 i.iSize count / 512 + 1
  assert (fileWillUseBlocks ≤ 140)
  let addBlocks := sub32 fileWillUseBlocks fileHasUsedBlocks
  let last := fileHasUsedBlocks - 1
  if addBlocks = 0 then
    if fileHasUsedBlocks ≤ 12 then
      return some (oneBlock last (i.iSectors last))
    else
      assert (i.iSectors 12 ≠ 0)
      return some (withTable (fun _ => 0) (← ideRead (i.iSectors 12) 1))
  else if fileWillUseBlocks ≤ 12 then
    assert (i.iSectors last ≠ 0)
    allocBlocks p (fileWillUseBlocks - fileHasUsedBlocks) fileHasUsedBlocks
      (oneBlock last (i.iSectors last))
  else if fileHasUsedBlocks ≤ 12 then
    match ← blockBitmapAlloc with
    | none => return none
    | some indirectBlockTable =>
      assert ((← getInode p).iSectors 12 = 0)
      setSector p 12 indirectBlockTable
      match ← allocBlocks p (fileWillUseBlocks - fileHasUsedBlocks) fileHasUsedBlocks
          (oneBlock last (i.iSectors last)) with
      | none => return none
      | some allBlocks =>
        ideWrite indirectBlockTable 1 (fun _ => tableBytes allBlocks)
        return some allBlocks
  else
    assert (i.iSectors 12 ≠ 0)
    let table ← ideRead (i.iSectors 12) 1
    match ← allocBlocks p (fileWillUseBlocks - fileHasUsedBlocks) fileHasUsedBlocks
        (withTable (fun _ => 0) table) with
    | none => return none
    | some allBlocks =>
      ideWrite (i.iSectors 12) 1 (fun _ => tableBytes allBlocks)
      return some allBlocks

/-- Where a transfer at file offset `pos` goes. -/
def chunkSize (pos sizeLeft : Nat) : Nat :=
  if sizeLeft < 512 - pos % 512 then sizeLeft else 512 - pos % 512

def addPos (g n : Nat) : Prog Fs Buf Unit := do
  let f := (← get).mem.fileTable g
  setFile g { f with fdPos := add32 f.fdPos n }

/-- The loop that writes the data.  Only the first sector is read before it is
written.  Every turn writes at least one byte, so `count + 1` turns suffice. -/
def writeChunks (g p : Nat) (allBlocks : Nat → Nat) (buf : Buf) (count : Nat) :
    (turns bytesWritten : Nat) → (firstWriteBlock : Bool) → Prog Fs Buf Unit
  | 0, _, _ => halt .loop
  | turns + 1, bytesWritten, firstWriteBlock => do
    if bytesWritten < count then
      let pos := (← getInode p).iSize
      if pos / 512 < 140 then
        let secLba := allBlocks (pos / 512)
        let chunk := chunkSize pos (count - bytesWritten)
        let ioBuf ← if firstWriteBlock then ideRead secLba 1 else pure (fun _ => 0)
        ideWrite secLba 1
          (fun _ => ioBuf.splice (pos % 512) chunk (fun k => buf (bytesWritten + k)))
        addSize p chunk
        addPos g chunk
        writeChunks g p allBlocks buf count turns (bytesWritten + chunk) false
      else
        halt .fault
    else
      return ()

def writeData (g p : Nat) (buf : Buf) (count : Nat) : Prog Fs Buf Int := do
  match ← collectBlocks p count with
  | none => return -1
  | some allBlocks =>
    let i ← getInode p
    let f := (← get).mem.fileTable g
    setFile g { f with fdPos := sub32 i.iSize 1 }
    writeChunks g p allBlocks buf count (count + 1) 0 true
    inodeSync (← getInode p)
    return count

def fileWrite (g : Nat) (buf : Buf) (count : Nat) : Prog Fs Buf Int := do
  let p ← fileInode g
  let i ← getInode p
  if 512 * 140 < add32 i.iSize count then
    return -1
  else if !(← firstBlock p) then
    return -1
  else
    writeData g p buf count

def readBlocks (p startIdx endIdx : Nat) : Prog Fs Buf (Nat → Nat) := do
  let i ← getInode p
  if startIdx = endIdx then
    if endIdx < 12 then
      return oneBlock endIdx (i.iSectors endIdx)
    else
      return withTable (fun _ => 0) (← ideRead (i.iSectors 12) 1)
  else if endIdx < 12 then
    return fun k => if startIdx ≤ k ∧ k ≤ endIdx then i.iSectors k else 0
  else if startIdx < 12 then
    assert (i.iSectors 12 ≠ 0)
    return withTable (fun k => if startIdx ≤ k then i.iSectors k else 0)
      (← ideRead (i.iSectors 12) 1)
  else
    assert (i.iSectors 12 ≠ 0)
    return withTable (fun _ => 0) (← ideRead (i.iSectors 12) 1)

/-- The loop that reads the data; the bytes are those it stores through `buf_dst`. -/
def readChunks (g : Nat) (allBlocks : Nat → Nat) (size : Nat) :
    (turns bytesRead : Nat) → Prog Fs Buf (List UInt8)
  | 0, _ => halt .loop
  | turns + 1, bytesRead => do
    if bytesRead < size then
      let pos := ((← get).mem.fileTable g).fdPos
      if pos / 512 < 140 then
        let chunk := chunkSize pos (size - bytesRead)
        let ioBuf ← ideRead (allBlocks (pos / 512)) 1
        addPos g chunk
        let rest ← readChunks g allBlocks size turns (bytesRead + chunk)
        return (List.range chunk).map (fun k => ioBuf (pos % 512 + k)) ++ rest
      else
        halt .fault
    else
      return []

/-- `none` stands for the result `-1`, and the bytes for their number otherwise. -/
def fileRead (g count : Nat) : Prog Fs Buf (Option (List UInt8)) := do
  let i ← getInode (← fileInode g)
  let pos := ((← get).mem.fileTable g).fdPos
  let size := if i.iSize < add32 pos count then sub32 i.iSize pos else count
  if i.iSize < add32 pos count ∧ size = 0 then
    return none
  else
    let blockReadStartIdx := pos / 512
    let blockReadEndIdx := add32 pos size / 512
    assert (blockReadStartIdx < 139 ∧ blockReadEndIdx < 139)
    let allBlocks ← readBlocks (← fileInode g) blockReadStartIdx blockReadEndIdx
    return some (← readChunks g allBlocks size (size + 1) 0)

end TrueOs.Fs
