import TrueOs.Kernel.Heap

/-! `userprog/exec.c`: an ELF file replaces the running program.

Of the file system a call sees the file it finds, and which buffers its functions take from
the heap of the caller on the way.  What the kernel notes about open files is left out, and
so are the registers of the new program. -/

namespace TrueOs

/-- A regular file: `i_size`, and the bytes its blocks hold. -/
structure Image where
  iSize : Nat
  bytes : Buf
  le : iSize ≤ 140 * 512

/-- `struct Elf32_Ehdr`, as far as `load` reads it. -/
structure Elf32Ehdr where
  eIdent : List UInt8
  eType : Nat
  eMachine : Nat
  eVersion : Nat
  eEntry : Nat
  ePhoff : Nat
  ePhentsize : Nat
  ePhnum : Nat

/-- `struct Elf32_Phdr`; `load` never looks at `p_memsz`. -/
structure Elf32Phdr where
  pType : Nat
  pOffset : Nat
  pVaddr : Nat
  pFilesz : Nat
  pMemsz : Nat
  deriving DecidableEq

namespace Image

def elfHeader (f : Image) : Elf32Ehdr where
  eIdent := (List.range 7).map f.bytes
  eType := f.bytes.half 16
  eMachine := f.bytes.half 18
  eVersion := f.bytes.word 20
  eEntry := f.bytes.word 24
  ePhoff := f.bytes.word 28
  ePhentsize := f.bytes.half 42
  ePhnum := f.bytes.half 44

def progHeader (f : Image) (pos : Nat) : Elf32Phdr where
  pType := f.bytes.word pos
  pOffset := f.bytes.word (pos + 4)
  pVaddr := f.bytes.word (pos + 8)
  pFilesz := f.bytes.word (pos + 16)
  pMemsz := f.bytes.word (pos + 20)

def elfMagic : List UInt8 := [0x7F, 0x45, 0x4C, 0x46, 1, 1, 1]

/-- The checks of `load`. -/
def accepted (f : Image) : Bool :=
  f.elfHeader.eIdent = elfMagic ∧ f.elfHeader.eType = 2 ∧ f.elfHeader.eMachine = 3 ∧ f.elfHeader.eVersion = 1 ∧
    f.elfHeader.ePhnum ≤ 1024 ∧ f.elfHeader.ePhentsize = 32

/-- `sys_lseek(fd, offset, SEEK_SET)`: the position afterwards.  An offset that is negative as
an `int32_t`, or not in the file, is refused. -/
def sysLseek (f : Image) (offset pos : Nat) : Nat := if 2 ^ 31 ≤ offset ∨ f.iSize ≤ offset then pos else offset

/-- How many bytes `file_read` copies; at the end of the file it returns -1. -/
def readSize (f : Image) (pos count : Nat) : Option Nat :=
  if f.iSize < (pos + count) % 2 ^ 32 then
    if f.iSize = pos then none else some ((f.iSize + 2 ^ 32 - pos) % 2 ^ 32)
  else
    some count

end Image

/-- Where `inode_open` finds an inode. -/
inductive Place
  | cached | oneSector | twoSectors
  deriving DecidableEq

/-- What `sys_open` finds behind the directories it has entered; `slot` and `fd` say whether
the file table and the table of the process have room. -/
inductive Found
  | missing
  | directory (parent : Place)
  | file (slot : Bool) (inode : Place) (fd : Bool) (image : Image)

/-- `refused` are the paths that are not looked up; `walk` enters directories below the root. -/
inductive Lookup
  | refused
  | walk (dirs : List Place) (found : Found)

namespace Mm

open Prog

/-- `(*pde & 1) && (*pte & 1)`. -/
def pagePresent (page : Nat) : Prog Mm Buf Bool := do
  if page < kernelBase ∧ (← get).activeTable page = none then
    return false
  else
    return (← getPte page).present

def writeByte (addr : Nat) (c : UInt8) : Prog Mm Buf Unit := do
  let b ← readPage (addr / 4096)
  writePage (addr / 4096) (Function.update b (addr % 4096) c)

/-- The bytes of a file go to memory, from position `pos` on. -/
def copyBytesTo (src : Buf) : (left vaddr pos : Nat) → Prog Mm Buf Unit
  | 0, _, _ => return ()
  | left + 1, vaddr, pos => do
    writeByte vaddr (src pos)
    copyBytesTo src left ((vaddr + 1) % 2 ^ 32) (pos + 1)

end Mm

namespace Heap

open Prog Mm

/-- A null pointer is used as a buffer. -/
def orNull (ptr : Option Nat) : Prog Heap Buf Nat :=
  match ptr with
  | some ptr => return ptr
  | none => halt .fault

/-- Whether the search is made at all; its buffers are freed again. -/
def searchDirEntry (cur : Nat) : Prog Heap Buf Bool := do
  match ← sysMalloc cur 560 with
  | none => return false
  | some allBlocks =>
    let buf ← orNull (← sysMalloc cur 512)
    sysFree cur buf
    sysFree cur allBlocks
    return true

/-- The sectors of an inode are read into a buffer. -/
def readInode (cur size : Nat) : Prog Heap Buf Unit := do
  let inodeBuf ← orNull (← sysMalloc cur size)
  sysFree cur inodeBuf

/-- The inode itself is in the kernel. -/
def inodeOpen (cur : Nat) (inode : Place) : Prog Heap Buf Unit :=
  match inode with
  | .cached => return ()
  | .oneSector => readInode cur 512
  | .twoSectors => readInode cur 1024

def dirOpen (cur : Nat) (inode : Place) : Prog Heap Buf Nat := do
  let pdir ← orNull (← sysMalloc cur 520)
  inodeOpen cur inode
  return pdir

/-- The root is not in the heap. -/
def dirClose (cur : Nat) (dir : Option Nat) : Prog Heap Buf Unit :=
  match dir with
  | none => return ()
  | some dir => sysFree cur dir

/-- The loop of `search_file` over the directories, and whether it came to its end. -/
def enterDirs (cur : Nat) : (dirs : List Place) → (parentDir : Option Nat) → Prog Heap Buf (Bool × Option Nat)
  | [], parentDir => return (true, parentDir)
  | inode :: dirs, parentDir => do
    if ← searchDirEntry cur then
      dirClose cur parentDir
      let dir ← dirOpen cur inode
      enterDirs cur dirs (some dir)
    else
      return (false, parentDir)

/-- `sys_open(pathname, O_RDONLY)`.  A regular file is opened without closing its directory. -/
def sysOpen (cur : Nat) (path : Lookup) : Prog Heap Buf (Option Image) := do
  match path with
  | .refused => return none
  | .walk dirs found =>
    let (entered, parentDir) ← enterDirs cur dirs none
    if entered then
      match found with
      | .missing =>
        let _ ← searchDirEntry cur
        dirClose cur parentDir
        return none
      | .directory parent =>
        dirClose cur parentDir
        let dir ← dirOpen cur parent
        dirClose cur (some dir)
        return none
      | .file slot inode fd image =>
        if ← searchDirEntry cur then
          if slot then
            inodeOpen cur inode
            return if fd then some image else none
          else
            return none
        else
          dirClose cur parentDir
          return none
    else
      dirClose cur parentDir
      return none

/-- `file_read` with its two buffers; `copy` takes the bytes to where they go. -/
def fileRead (cur : Nat) (f : Image) (pos count : Nat) (copy : Nat → Prog Heap Buf Unit) : Prog Heap Buf (Option Nat) := do
  match f.readSize pos count with
  | none => return none
  | some size =>
    let ioBuf ← sysMalloc cur 512
    match ← sysMalloc cur 560 with
    | none => return none
    | some allBlocks =>
      assert (pos / 512 < 139 ∧ (pos + size) % 2 ^ 32 / 512 < 139)
      let ioBuf ← orNull ioBuf
      copy size
      sysFree cur allBlocks
      sysFree cur ioBuf
      return some size

/-- `sys_read` of a regular file into memory that the caller reaches through its page tables. -/
def sysRead (cur : Nat) (f : Image) (pos vaddr count : Nat) : Prog Heap Buf (Option Nat) := do
  assert (vaddr ≠ 0)
  fileRead cur f pos count (fun size => ofMm (copyBytesTo f.bytes size vaddr pos))

def sysReadLocal (cur : Nat) (f : Image) (pos count : Nat) : Prog Heap Buf (Option Nat) :=
  fileRead cur f pos count (fun _ => pure ())

/-- The page count of `segment_load`, with `DIV_ROUND_UP` of 32 bits. -/
def occupyPages (filesz vaddr : Nat) : Nat :=
  let sizeInFirstPage := 4096 - vaddr % 4096
  if sizeInFirstPage < filesz then (filesz - sizeInFirstPage + 4095) % 2 ^ 32 / 4096 + 1 else 1

/-- The loop of `segment_load`. -/
def takeSegment (cur : Nat) : (left page : Nat) → Prog Heap Buf Bool
  | 0, _ => return true
  | left + 1, page => do
    if ← ofMm (pagePresent page) then
      dropPages cur (.user cur) page 1
    match ← ofMm (getAPage cur page) with
    | none => return false
    | some _ => takeSegment cur left ((page + 1) % 0x100000)

/-- The position after it, if it succeeds. -/
def segmentLoad (cur : Nat) (f : Image) (pos offset filesz vaddr : Nat) : Prog Heap Buf (Option Nat) := do
  if ← takeSegment cur (occupyPages filesz vaddr) (vaddr / 4096) then
    let pos := f.sysLseek offset pos
    let size ← sysRead cur f pos vaddr filesz
    return some ((pos + size.getD 0) % 2 ^ 32)
  else
    return none

/-- The loop of `load` over the program headers. -/
def loadSegments (cur : Nat) (f : Image) : (left progHeaderOffset pos : Nat) → Prog Heap Buf Bool
  | 0, _, _ => return true
  | left + 1, progHeaderOffset, pos => do
    let pos := f.sysLseek progHeaderOffset pos
    if (← sysReadLocal cur f pos 32) = some 32 then
      let ph := f.progHeader pos
      if ph.pType = 1 then
        match ← segmentLoad cur f (pos + 32) ph.pOffset ph.pFilesz ph.pVaddr with
        | none => return false
        | some pos => loadSegments cur f left ((progHeaderOffset + 32) % 2 ^ 32) pos
      else
        loadSegments cur f left ((progHeaderOffset + 32) % 2 ^ 32) (pos + 32)
    else
      return false

abbrev failed : Nat := 2 ^ 32 - 1

def load (cur : Nat) (path : Lookup) : Prog Heap Buf Nat := do
  match ← sysOpen cur path with
  | none => return failed
  | some f =>
    if (← sysReadLocal cur f 0 52) = some 52 then
      if f.accepted then
        if ← loadSegments cur f f.elfHeader.ePhnum f.elfHeader.ePhoff 52 then
          return f.elfHeader.eEntry
        else
          return failed
      else
        return failed
    else
      return failed

/-- `list_init` of every list in `u_block_desc`. -/
def resetLists (h : Heap) (cur : Nat) : Heap :=
  { h with freeList := Function.update h.freeList (.user cur) (fun i => if i < 7 then [] else h.freeList (.user cur) i) }

/-- The entry point of the new program, or `none` for -1. -/
def sysExecv (cur : Nat) (path : Lookup) : Prog Heap Buf (Option Nat) := do
  modify (fun h => h.resetLists cur)
  let entryPoint ← load cur path
  return if entryPoint = failed then none else some entryPoint

end Heap

end TrueOs
