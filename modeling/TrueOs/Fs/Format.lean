import TrueOs.Fs.Syscall

/-! `partition_format`, `mount_partition` and the end of `filesys_init`. -/

namespace TrueOs.Fs

open Prog

def superMagic : Nat := 0x19750130

def divRoundUp (x step : Nat) : Nat := add32 x (step - 1) / step

def SuperBlock.words (sb : SuperBlock) (k : Nat) : Nat :=
  [sb.magic, sb.secCnt, sb.inodeCnt, sb.partLbaBase, sb.blockBitmapLba, sb.blockBitmapSects,
    sb.inodeBitmapLba, sb.inodeBitmapSects, sb.inodeTableLba, sb.inodeTableSects, sb.dataStartLba,
    sb.rootInodeNo, sb.dirEntrySize].getD k 0

def SuperBlock.ofBytes (d : Buf) : SuperBlock where
  magic := d.word 0
  secCnt := d.word 4
  inodeCnt := d.word 8
  partLbaBase := d.word 12
  blockBitmapLba := d.word 16
  blockBitmapSects := d.word 20
  inodeBitmapLba := d.word 24
  inodeBitmapSects := d.word 28
  inodeTableLba := d.word 32
  inodeTableSects := d.word 36
  dataStartLba := d.word 40
  rootInodeNo := d.word 44
  dirEntrySize := d.word 48

def inodeBitmapSects : Nat := divRoundUp maxFilesPerPart bitsPerSector
def inodeTableSects : Nat := divRoundUp (inodeSize * maxFilesPerPart) sectorSize

def blockBitmapBitLen (secCnt : Nat) : Nat :=
  let usedSects := 1 + 1 + inodeBitmapSects + inodeTableSects
  let freeSects := sub32 secCnt usedSects
  sub32 freeSects (divRoundUp freeSects bitsPerSector)

def formatSuper (startLba secCnt : Nat) : SuperBlock :=
  let blockBitmapSects := divRoundUp (blockBitmapBitLen secCnt) bitsPerSector
  let blockBitmapLba := startLba + 2
  let inodeBitmapLba := blockBitmapLba + blockBitmapSects
  let inodeTableLba := inodeBitmapLba + inodeBitmapSects
  { magic := superMagic
    secCnt := secCnt
    inodeCnt := maxFilesPerPart
    partLbaBase := startLba
    blockBitmapLba := blockBitmapLba
    blockBitmapSects := blockBitmapSects
    inodeBitmapLba := inodeBitmapLba
    inodeBitmapSects := inodeBitmapSects
    inodeTableLba := inodeTableLba
    inodeTableSects := inodeTableSects
    dataStartLba := inodeTableLba + inodeTableSects
    rootInodeNo := 0
    dirEntrySize := dirEntryBytes }

/-- `while (bit_idx <= block_bitmap_last_bit) buf[last] &= ~(1 << bit_idx++);` -/
def clearBits (buf : Buf) (lastByte : Nat) : Nat → Buf
  | 0 => buf
  | n + 1 => (clearBits buf lastByte n).setBit (8 * lastByte + n) false

/-- The block bitmap before anything but the root directory has a block.  Bit
`bitLen` is the first that stands for no block, but it is cleared as well. -/
def formatBlockBitmap (bitLen : Nat) : Buf :=
  let lastByte := bitLen / 8
  let buf : Buf := Buf.setBit (fun _ => 0) 0 true
  clearBits (buf.splice lastByte (512 - lastByte % 512) (fun _ => 0xFF)) lastByte (bitLen % 8 + 1)

def rootInode (dataStartLba : Nat) : Inode :=
  { inodeInit 0 with
    iSize := dirEntryBytes * 2
    iSectors := Function.update (fun _ => 0) 0 dataStartLba }

/-- `pad` is what follows the thirteen words on the stack. -/
def partitionFormat (pad : Buf) : Prog Fs Buf Unit := do
  let v := (← get).vol
  let sb := formatSuper v.startLba v.secCnt
  ideWrite (v.startLba + 1) 1 (fun _ => pad.splice 0 52 (.ofWords sb.words))
  ideWrite sb.blockBitmapLba sb.blockBitmapSects
    (fun _ => formatBlockBitmap (blockBitmapBitLen v.secCnt))
  ideWrite sb.inodeBitmapLba sb.inodeBitmapSects (fun _ => Buf.setBit (fun _ => 0) 0 true)
  ideWrite sb.inodeTableLba sb.inodeTableSects
    (fun _ => Buf.splice (fun _ => 0) 0 inodeSize (rootInode sb.dataStartLba).bytes)
  ideWrite sb.dataStartLba 1 (fun _ => dotBlock 0 0)

def mountPartition : Prog Fs Buf Unit := do
  let startLba := (← get).vol.startLba
  let sb := SuperBlock.ofBytes (← ideRead (startLba + 1) 1)
  modify (fun s => { s with vol.sb := sb })
  let blockBits ← ideRead sb.blockBitmapLba sb.blockBitmapSects
  modify (fun s => { s with vol.blockBitmap := ⟨sb.blockBitmapSects * 512, blockBits⟩ })
  let inodeBits ← ideRead sb.inodeBitmapLba sb.inodeBitmapSects
  modify (fun s => { s with
    vol.inodeBitmap := ⟨sb.inodeBitmapSects * 512, inodeBits⟩
    mem.openInodes := [] })

/-- The tables of a kernel that has just started: `file_table` is empty, and every
thread has the three standard descriptors. -/
def bootMem : Mem where
  inodes := fun _ => none
  openInodes := []
  rootDir := 0
  fileTable := fun _ => ⟨0, 0, none⟩
  pipes := fun _ => none
  fdTable := fun _ fd => if fd < 3 then fd else -1
  cwdInodeNr := fun _ => 0

def bootState (startLba secCnt : Nat) (disk : Buf) : Fs where
  vol :=
    { startLba := startLba
      secCnt := secCnt
      sb := formatSuper startLba secCnt
      disk := disk
      blockBitmap := ⟨0, fun _ => 0⟩
      inodeBitmap := ⟨0, fun _ => 0⟩ }
  mem := bootMem

def filesysInit (pad : Buf) : Prog Fs Buf Unit := do
  partitionFormat pad
  mountPartition
  openRootDir

end TrueOs.Fs
