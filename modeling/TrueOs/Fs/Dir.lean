import TrueOs.Fs.Inode

/-! `fs/dir.c`. -/

namespace TrueOs.Fs

open Prog

def openRootDir : Prog Fs Buf Unit := do
  let p ← inodeOpen (← get).vol.sb.rootInodeNo
  modify (fun s => { s with mem.rootDir := p })

def dirOpen (inodeNo : Nat) : Prog Fs Buf DirRef := return .heap (← inodeOpen inodeNo)

/-- The root directory is never closed. -/
def dirClose : DirRef → Prog Fs Buf Unit
  | .root => return ()
  | .heap p => inodeClose p

/-- The addresses `search_dir_entry` and `delete_dir_entry` collect: the table is
read from disk when there is one. -/
def dirBlocks (i : Inode) : Prog Fs Buf (Nat → Nat) := do
  if i.iSectors 12 ≠ 0 then
    return withTable i.direct (← ideRead (i.iSectors 12) 1)
  else
    return i.direct

def searchBlocks (name : List UInt8) (allBlocks : Nat → Nat) : List Nat → Prog Fs Buf (Option DirEntry)
  | [] => return none
  | k :: ks => do
    if allBlocks k = 0 then
      searchBlocks name allBlocks ks
    else
      let buf ← ideRead (allBlocks k) 1
      let dirEntryCnt := 512 / (← get).vol.sb.dirEntrySize
      match (List.range dirEntryCnt).find? (fun j => buf.strEq (dirEntryBytes * j) name) with
      | some j => return some (DirEntry.ofBytes buf (dirEntryBytes * j))
      | none => searchBlocks name allBlocks ks

/-- The part of `search_dir_entry` that works with the inode it has read. -/
def searchIn (i : Inode) (name : List UInt8) : Prog Fs Buf (Option DirEntry) := do
  let allBlocks ← dirBlocks i
  searchBlocks name allBlocks (List.range 140)

def searchDirEntry (pdir : DirRef) (name : List UInt8) : Prog Fs Buf (Option DirEntry) := do
  let i ← getInode (← pdir.inode)
  searchIn i name

def createDirEntry (filename : List UInt8) (inodeNo fileType : Nat) : Prog Fs Buf DirEntry := do
  assert (filename.length ≤ maxFileNameLen)
  return ⟨fun i => filename.getD i 0, inodeNo, fileType⟩

def setSector (p k lba : Nat) : Prog Fs Buf Unit := do
  let i ← getInode p
  setInode p (i.body i.iSize (Function.update i.iSectors k lba))

def addSize (p n : Nat) : Prog Fs Buf Unit := do
  let i ← getInode p
  setInode p (i.body (add32 i.iSize n) i.iSectors)

def writeFirstEntry (p : Nat) (pDe : DirEntry) (lba : Nat) : Prog Fs Buf Bool := do
  let dirEntrySize := (← get).vol.sb.dirEntrySize
  ideWrite lba 1 (fun _ => Buf.splice (fun _ => 0) 0 dirEntrySize pDe.bytes)
  addSize p dirEntrySize
  return true

def allocSynced : Prog Fs Buf (Option Nat) := do
  match ← blockBitmapAlloc with
  | none => return none
  | some lba =>
    let v := (← get).vol
    assert ((lba : Int) - v.sb.dataStartLba ≠ -1)
    bitmapSync (v.bitIdx lba) .block
    return some lba

/-- The branch of `sync_dir_entry` for an address that is still zero. -/
def syncNewBlock (p : Nat) (pDe : DirEntry) (allBlocks : Nat → Nat) (k : Nat) : Prog Fs Buf Bool := do
  match ← allocSynced with
  | none => return false
  | some blockLba =>
    if k < 12 then
      setSector p k blockLba
      writeFirstEntry p pDe blockLba
    else if k = 12 then
      setSector p 12 blockLba
      match ← allocSynced with
      | none =>
        let v := (← get).vol
        blockBitmapSet (v.bitIdx blockLba) false
        setSector p 12 0
        return false
      | some entryLba =>
        let allBlocks := Function.update allBlocks 12 entryLba
        ideWrite blockLba 1 (fun _ => .ofWords (fun j => allBlocks (12 + j)))
        writeFirstEntry p pDe entryLba
    else
      let allBlocks := Function.update allBlocks k blockLba
      ideWrite ((← getInode p).iSectors 12) 1 (fun _ => .ofWords (fun j => allBlocks (12 + j)))
      writeFirstEntry p pDe blockLba

def syncBlocks (p : Nat) (pDe : DirEntry) (allBlocks : Nat → Nat) : List Nat → Prog Fs Buf Bool
  | [] => return false
  | k :: ks => do
    if allBlocks k = 0 then
      syncNewBlock p pDe allBlocks k
    else
      let ioBuf ← ideRead (allBlocks k) 1
      let dirEntrySize := (← get).vol.sb.dirEntrySize
      match (List.range (512 / dirEntrySize)).find?
          (fun j => (DirEntry.ofBytes ioBuf (dirEntryBytes * j)).fType == ftUnknown) with
      | some j =>
        ideWrite (allBlocks k) 1 (fun _ => ioBuf.splice (dirEntryBytes * j) dirEntrySize pDe.bytes)
        addSize p dirEntrySize
        return true
      | none => syncBlocks p pDe allBlocks ks

/-- Unlike its siblings it collects the direct addresses only: what a table on
disk holds stays zero in `allBlocks`. -/
def syncDirEntry (parentDir : DirRef) (pDe : DirEntry) : Prog Fs Buf Bool := do
  let p ← parentDir.inode
  let i ← getInode p
  assert (i.iSize % (← get).vol.sb.dirEntrySize = 0)
  syncBlocks p pDe i.direct (List.range 140)

def dot : List UInt8 := [46]
def dotdot : List UInt8 := [46, 46]

structure EntryScan where
  isDirFirstBlock : Bool
  dirEntryCnt : Nat
  dirEntryFound : Option Nat

def scanEntries (ioBuf : Buf) (inodeNo : Nat) : List Nat → EntryScan → Prog Fs Buf EntryScan
  | [], acc => return acc
  | j :: js, acc => do
    let e := DirEntry.ofBytes ioBuf (dirEntryBytes * j)
    if e.fType ≠ ftUnknown then
      if ioBuf.strEq (dirEntryBytes * j) dot then
        scanEntries ioBuf inodeNo js { acc with isDirFirstBlock := true }
      else if ioBuf.strEq (dirEntryBytes * j) dotdot then
        scanEntries ioBuf inodeNo js acc
      else
        let acc := { acc with dirEntryCnt := acc.dirEntryCnt + 1 }
        if e.iNo = inodeNo then
          assert acc.dirEntryFound.isNone
          scanEntries ioBuf inodeNo js { acc with dirEntryFound := some j }
        else
          scanEntries ioBuf inodeNo js acc
    else
      scanEntries ioBuf inodeNo js acc

/-- Give back the block of the last entry in it.  For an indirect block the loop
that counts the other ones never advances its index. -/
def deleteBlock (p lba k : Nat) : Prog Fs Buf Unit := do
  let blockBitmapIdx := (← get).vol.bitIdx lba
  blockBitmapSet blockBitmapIdx false
  bitmapSync blockBitmapIdx .block
  if k < 12 then
    setSector p k 0
  else
    halt .loop

/-- The size goes down and the inode is written back. -/
def entryGone (p dirEntrySize : Nat) : Prog Fs Buf Bool := do
  let i ← getInode p
  assert (dirEntrySize ≤ i.iSize)
  setInode p (i.body (i.iSize - dirEntrySize) i.iSectors)
  inodeSync (← getInode p)
  return true

def deleteBlocks (p inodeNo : Nat) (allBlocks : Nat → Nat) : List Nat → Prog Fs Buf Bool
  | [] => return false
  | k :: ks => do
    if allBlocks k = 0 then
      deleteBlocks p inodeNo allBlocks ks
    else
      let ioBuf ← ideRead (allBlocks k) 1
      let dirEntrySize := (← get).vol.sb.dirEntrySize
      let scan ← scanEntries ioBuf inodeNo (List.range (512 / dirEntrySize)) ⟨false, 0, none⟩
      match scan.dirEntryFound with
      | none => deleteBlocks p inodeNo allBlocks ks
      | some j =>
        assert (1 ≤ scan.dirEntryCnt)
        if scan.dirEntryCnt = 1 ∧ scan.isDirFirstBlock = false then
          deleteBlock p (allBlocks k) k
          entryGone p dirEntrySize
        else
          ideWrite (allBlocks k) 1
            (fun _ => ioBuf.splice (dirEntryBytes * j) dirEntrySize (fun _ => 0))
          entryGone p dirEntrySize

def deleteDirEntry (pdir : DirRef) (inodeNo : Nat) : Prog Fs Buf Bool := do
  let p ← pdir.inode
  let i ← getInode p
  let allBlocks ← dirBlocks i
  deleteBlocks p inodeNo allBlocks (List.range 140)

def dirIsEmpty (dir : DirRef) : Prog Fs Buf Bool := do
  let i ← getInode (← dir.inode)
  return i.iSize == (← get).vol.sb.dirEntrySize * 2

def dirRemove (parentDir childDir : DirRef) : Prog Fs Buf Int := do
  let i ← getInode (← childDir.inode)
  assert ((List.range 12).all (fun k => i.iSectors (k + 1) == 0))
  let _ ← deleteDirEntry parentDir i.iNo
  inodeRelease i.iNo
  return 0

end TrueOs.Fs
