import TrueOs.Fs.Syscall

/-! `sys_getcwd` of `fs/fs.c`. -/

namespace TrueOs.Fs

open Prog

def getParentDirInodeNr (childInodeNr : Nat) : Prog Fs Buf Nat := do
  let p ← inodeOpen childInodeNr
  let blockLba := (← getInode p).iSectors 0
  assert ((← get).vol.sb.dataStartLba ≤ blockLba)
  inodeClose p
  let ioBuf ← ideRead blockLba 1
  let dirE := DirEntry.ofBytes ioBuf dirEntryBytes
  assert (dirE.iNo < 4096 ∧ dirE.fType = ftDirectory)
  return dirE.iNo

/-- The string at `a` in a sector buffer.  `strcat` runs out of the buffer when no zero follows. -/
def cstring (ioBuf : Buf) (a : Nat) : Prog Fs Buf (List UInt8) :=
  let chars := ((List.range' a (512 - a)).map ioBuf).takeWhile (· != 0)
  if chars.length < 512 - a then return chars else halt .fault

/-- `strcat(path, "/")` and `strcat(path, name)`, in a buffer of `MAX_PATH_LEN` characters. -/
def appendName (path name : List UInt8) : Prog Fs Buf (List UInt8) :=
  if path.length + name.length + 1 < maxPathLen then return path ++ slash :: name else halt .fault

/-- Any entry with the number will do: its type is not looked at. -/
def childBlocks (childInodeNr : Nat) (path : List UInt8) (allBlocks : Nat → Nat) :
    List Nat → Prog Fs Buf (Option (List UInt8))
  | [] => return none
  | k :: ks => do
    if allBlocks k = 0 then
      childBlocks childInodeNr path allBlocks ks
    else
      let ioBuf ← ideRead (allBlocks k) 1
      let dirEntrysPerSec := 512 / (← get).vol.sb.dirEntrySize
      match (List.range dirEntrysPerSec).find?
          (fun j => (DirEntry.ofBytes ioBuf (dirEntryBytes * j)).iNo == childInodeNr) with
      | some j =>
        let name ← cstring ioBuf (dirEntryBytes * j)
        return some (← appendName path name)
      | none => childBlocks childInodeNr path allBlocks ks

/-- `path` with the name of the child behind it; `none` stands for the result `-1`. -/
def getChildDirName (parentInodeNr childInodeNr : Nat) (path : List UInt8) :
    Prog Fs Buf (Option (List UInt8)) := do
  let p ← inodeOpen parentInodeNr
  let i ← getInode p
  let allBlocks ← dirBlocks i
  inodeClose p
  let blockCnt := if i.iSectors 12 ≠ 0 then 140 else 12
  childBlocks childInodeNr path allBlocks (List.range blockCnt)

/-- The loop up to the root.  Every turn makes the path longer, and the buffer ends it at last. -/
def ascend : (turns : Nat) → (childInodeNr : Nat) → (path : List UInt8) → Prog Fs Buf (Option (List UInt8))
  | 0, _, _ => halt .loop
  | turns + 1, childInodeNr, path => do
    if childInodeNr = 0 then
      return some path
    else
      let parentInodeNr ← getParentDirInodeNr childInodeNr
      match ← getChildDirName parentInodeNr childInodeNr path with
      | none => return none
      | some path => ascend turns parentInodeNr path

def beforeSlash (path : List UInt8) : List UInt8 := (path.reverse.dropWhile (· != slash)).tail.reverse

def turnRound : (turns : Nat) → (path buf : List UInt8) → List UInt8
  | 0, _, buf => buf
  | turns + 1, path, buf =>
    if slash ∈ path then turnRound turns (beforeSlash path) (buf ++ slash :: afterSlash path) else buf

def storePath (size : Nat) (path : List UInt8) : Prog Fs Buf (List UInt8) :=
  if path.length < size then return path else halt .fault

def cwdPath (size childInodeNr : Nat) : Prog Fs Buf (Option (List UInt8)) := do
  match ← ascend (maxPathLen + 1) childInodeNr [] with
  | none => return none
  | some fullPathReverse =>
    assert (fullPathReverse.length ≤ size)
    return some (← storePath size (turnRound fullPathReverse.length fullPathReverse []))

/-- `none` stands for a null pointer. -/
def sysGetcwd (cur size : Nat) : Prog Fs Buf (Option (List UInt8)) := do
  let childInodeNr := (← get).mem.cwdInodeNr cur
  assert (childInodeNr < 4096)
  if childInodeNr = 0 then
    return some (← storePath size [slash])
  else
    cwdPath size childInodeNr

end TrueOs.Fs
