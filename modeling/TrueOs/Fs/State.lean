import TrueOs.Kernel.Bitmap

/-! The data of `fs/`, and the disk as the file system sees it.

Pointers to `struct inode` are numbers; an inode object is present in `inodes`
from its `sys_malloc` to its `sys_free`.  `sys_malloc` is taken to succeed with
zeroed memory. -/

namespace TrueOs.Fs

abbrev sectorSize : Nat := 512
abbrev maxFileOpen : Nat := 32
abbrev maxFilesOpenPerProc : Nat := 8
abbrev maxFilesPerPart : Nat := 4096
abbrev bitsPerSector : Nat := 4096
abbrev maxFileNameLen : Nat := 16
abbrev maxPathLen : Nat := 512

/-- `sizeof(struct inode)`: four words, thirteen sectors, two list pointers. -/
abbrev inodeSize : Nat := 76

/-- The last sector of an 80 MB disk. -/
abbrev maxLba : Nat := 163839

/-- `enum file_types`, as stored in a directory entry. -/
abbrev ftUnknown : Nat := 0
abbrev ftRegular : Nat := 1
abbrev ftDirectory : Nat := 2

/-- `enum oflags`. -/
abbrev oRdonly : Nat := 0
abbrev oWronly : Nat := 1
abbrev oRdwr : Nat := 2
abbrev oCreat : Nat := 4

abbrev pipeFlag : Nat := 0xFFFF

structure SuperBlock where
  magic : Nat
  secCnt : Nat
  inodeCnt : Nat
  partLbaBase : Nat
  blockBitmapLba : Nat
  blockBitmapSects : Nat
  inodeBitmapLba : Nat
  inodeBitmapSects : Nat
  inodeTableLba : Nat
  inodeTableSects : Nat
  dataStartLba : Nat
  rootInodeNo : Nat
  dirEntrySize : Nat

structure Inode where
  iNo : Nat
  iSize : Nat
  iOpenCnts : Nat
  writeDeny : Bool
  iSectors : Nat → Nat

/-- What `struct inode` occupies on disk; `inode_tag` is the last two words. -/
def Inode.words (i : Inode) (k : Nat) : Nat :=
  if k = 0 then i.iNo
  else if k = 1 then i.iSize
  else if k = 2 then i.iOpenCnts
  else if k = 3 then i.writeDeny.toNat
  else if k < 17 then i.iSectors (k - 4)
  else 0

def Inode.bytes (i : Inode) : Buf := .ofWords i.words

def Inode.ofBytes (d : Buf) (a : Nat) : Inode where
  iNo := d.word a
  iSize := d.word (a + 4)
  iOpenCnts := d.word (a + 8)
  writeDeny := d.word (a + 12) != 0
  iSectors := fun k => if k < 13 then d.word (a + 16 + 4 * k) else 0

structure DirEntry where
  filename : Buf
  iNo : Nat
  fType : Nat

/-- `sizeof(struct dir_entry)`: sixteen characters and two words. -/
abbrev dirEntryBytes : Nat := 24

def DirEntry.bytes (e : DirEntry) : Buf := fun i =>
  if i < 16 then e.filename i
  else if i < 20 then Buf.wordByte e.iNo (i - 16)
  else Buf.wordByte e.fType (i - 20)

def DirEntry.ofBytes (d : Buf) (a : Nat) : DirEntry where
  filename := d.slice a 16
  iNo := d.word (a + 16)
  fType := d.word (a + 20)

structure File where
  fdPos : Nat
  fdFlag : Nat
  fdInode : Option Nat

/-- `struct dir`: the static `root_dir`, or one from the heap with its inode. -/
inductive DirRef
  | root
  | heap (inode : Nat)
  deriving DecidableEq

/-- `struct ioqueue`, the page behind a pipe. -/
structure Ioqueue where
  buf : Buf
  head : Nat
  tail : Nat

/-- The partition `cur_part` and its disk. -/
structure Vol where
  startLba : Nat
  secCnt : Nat
  sb : SuperBlock
  disk : Buf
  blockBitmap : Bitmap
  inodeBitmap : Bitmap

/-- The kernel's tables: `open_inodes` and the objects on it, `root_dir.inode`,
`file_table`, and of each process `fd_table` and `cwd_inode_nr`. -/
structure Mem where
  inodes : Nat → Option Inode
  openInodes : List Nat
  rootDir : Nat
  fileTable : Nat → File
  pipes : Nat → Option Ioqueue
  fdTable : Nat → Nat → Int
  cwdInodeNr : Nat → Nat

end Fs

structure Fs where
  vol : Fs.Vol
  mem : Fs.Mem


namespace Fs

open Prog

def add32 (a b : Nat) : Nat := (a + b) % 2 ^ 32

def sub32 (a b : Nat) : Nat := if b ≤ a then a - b else a + 2 ^ 32 - b

theorem add32_of_lt {a b : Nat} (h : a + b < 2 ^ 32) : add32 a b = a + b := Nat.mod_eq_of_lt h

theorem sub32_of_le {a b : Nat} (h : b ≤ a) : sub32 a b = a - b := if_pos h

/-- The 32-bit value of a machine word read as `int`. -/
def int32 (n : Nat) : Int := if n < 2 ^ 31 then n else (n : Int) - 2 ^ 32

def ideRead (lba secCnt : Nat) : Prog Fs Buf Buf := do
  assert (lba ≤ maxLba)
  assert (0 < secCnt)
  transfer (fun s => (s.vol.disk.slice (512 * lba) (512 * secCnt), s))

/-- The buffer is read when the transfer is made, which matters for the bitmaps:
they are shared. -/
def ideWrite (lba secCnt : Nat) (buf : Fs → Buf) : Prog Fs Buf Unit := do
  assert (lba ≤ maxLba)
  assert (0 < secCnt)
  let _ ← transfer (fun s =>
    (fun _ => 0, { s with vol.disk := s.vol.disk.splice (512 * lba) (512 * secCnt) (buf s) }))
  return ()

def getInode (p : Nat) : Prog Fs Buf Inode := do
  match (← get).mem.inodes p with
  | some i => return i
  | none => halt .fault

def setInode (p : Nat) (i : Inode) : Prog Fs Buf Unit :=
  modify (fun s => { s with mem.inodes := Function.update s.mem.inodes p (some i) })

/-- A pointer that `sys_malloc` may return: above every object in use. -/
def Mem.fresh (m : Mem) : Nat :=
  (m.openInodes ++ (List.range maxFileOpen).filterMap (fun g => (m.fileTable g).fdInode)).foldr
    max 0 + 1

def DirRef.inode (d : DirRef) : Prog Fs Buf Nat := do
  match d with
  | .root => return (← get).mem.rootDir
  | .heap p => return p

def blockBitmapSet (bitIdx : Nat) (value : Bool) : Prog Fs Buf Unit := do
  let b ← Bitmap.bitmapSet (← get).vol.blockBitmap bitIdx value
  modify (fun s => { s with vol.blockBitmap := b })

def inodeBitmapSet (bitIdx : Nat) (value : Bool) : Prog Fs Buf Unit := do
  let b ← Bitmap.bitmapSet (← get).vol.inodeBitmap bitIdx value
  modify (fun s => { s with vol.inodeBitmap := b })

def Vol.bitIdx (v : Vol) (lba : Nat) : Nat := sub32 lba v.sb.dataStartLba

def inodeBitmapAlloc : Prog Fs Buf (Option Nat) := do
  match ← Bitmap.bitmapScan (← get).vol.inodeBitmap 1 with
  | none => return none
  | some bitIdx =>
    inodeBitmapSet bitIdx true
    return some bitIdx

/-- The result is not a bit number but the sector the bit stands for. -/
def blockBitmapAlloc : Prog Fs Buf (Option Nat) := do
  match ← Bitmap.bitmapScan (← get).vol.blockBitmap 1 with
  | none => return none
  | some bitIdx =>
    blockBitmapSet bitIdx true
    return some ((← get).vol.sb.dataStartLba + bitIdx)

inductive BitmapType
  | inode | block

/-- Write back the 512 bytes of the bitmap that hold bit `bitIdx`. -/
def bitmapSync (bitIdx : Nat) (btmpType : BitmapType) : Prog Fs Buf Unit := do
  let offSec := bitIdx / bitsPerSector
  let offSize := offSec * 512
  let sb := (← get).vol.sb
  match btmpType with
  | .inode => ideWrite (sb.inodeBitmapLba + offSec) 1 (fun s => s.vol.inodeBitmap.bits.slice offSize 512)
  | .block => ideWrite (sb.blockBitmapLba + offSec) 1 (fun s => s.vol.blockBitmap.bits.slice offSize 512)

end Fs

end TrueOs
