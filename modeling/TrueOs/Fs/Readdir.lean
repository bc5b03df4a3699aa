import TrueOs.Fs.Dir

/-! `dir_read` of `fs/dir.c`, and the two calls that use the position of a directory. -/

namespace TrueOs.Fs

open Prog

/-- A directory with `dir_pos`, the size of the entries that have been returned. -/
structure OpenDir where
  dir : DirRef
  dirPos : Nat

/-- The walk over the slots of a sector.  Entries below `dirPos` were returned before; without an
entry to return the result is the offset behind those of this sector. -/
def dirReadSlots (dirEntrySize dirPos : Nat) (dirE : Buf) : List Nat → (curDirEntryPos : Nat) →
    Prog Fs Buf (Option DirEntry × Nat)
  | [], curDirEntryPos => return (none, curDirEntryPos)
  | j :: js, curDirEntryPos => do
    let e := DirEntry.ofBytes dirE (dirEntryBytes * j)
    if e.fType ≠ ftUnknown then
      if curDirEntryPos < dirPos then
        dirReadSlots dirEntrySize dirPos dirE js (add32 curDirEntryPos dirEntrySize)
      else
        assert (curDirEntryPos = dirPos)
        return (some e, curDirEntryPos)
    else
      dirReadSlots dirEntrySize dirPos dirE js curDirEntryPos

def dirReadBlocks (p dirEntrySize dirPos : Nat) (allBlocks : Nat → Nat) : List Nat → (curDirEntryPos : Nat) →
    Prog Fs Buf (Option DirEntry × Nat)
  | [], _ => return (none, dirPos)
  | k :: ks, curDirEntryPos => do
    if (← getInode p).iSize ≤ dirPos then
      return (none, dirPos)
    else if allBlocks k = 0 then
      dirReadBlocks p dirEntrySize dirPos allBlocks ks curDirEntryPos
    else
      let dirE ← ideRead (allBlocks k) 1
      let r ← dirReadSlots dirEntrySize dirPos dirE (List.range (512 / dirEntrySize)) curDirEntryPos
      match r.1 with
      | some e => return (some e, add32 dirPos dirEntrySize)
      | none => dirReadBlocks p dirEntrySize dirPos allBlocks ks r.2

def dirRead (d : OpenDir) : Prog Fs Buf (Option DirEntry × Nat) := do
  let p ← d.dir.inode
  let i ← getInode p
  let allBlocks ← dirBlocks i
  let blockCnt := if i.iSectors 12 ≠ 0 then 140 else 12
  let dirEntrySize := (← get).vol.sb.dirEntrySize
  dirReadBlocks p dirEntrySize d.dirPos allBlocks (List.range blockCnt) 0

def sysReaddir (d : OpenDir) : Prog Fs Buf (Option DirEntry × OpenDir) := do
  let r ← dirRead d
  return (r.1, { d with dirPos := r.2 })

def sysRewinddir (d : OpenDir) : OpenDir := { d with dirPos := 0 }

end TrueOs.Fs
