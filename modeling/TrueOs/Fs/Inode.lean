import TrueOs.Fs.State
import Mathlib.Tactic.Simps.Basic

/-! `fs/inode.c`. -/

namespace TrueOs.Fs

open Prog

structure InodePosition where
  twoSec : Bool
  secLba : Nat
  offSize : Nat

def inodeLocate (inodeNo : Nat) : Prog Fs Buf InodePosition := do
  assert (inodeNo < maxFilesPerPart)
  let inodeTableLba := (← get).vol.sb.inodeTableLba
  let offSize := inodeNo * inodeSize
  let offSec := offSize / 512
  let offSizeInSec := offSize % 512
  let leftInSec := 512 - offSizeInSec
  return ⟨leftInSec < inodeSize, inodeTableLba + offSec, offSizeInSec⟩

def InodePosition.secs (pos : InodePosition) : Nat := if pos.twoSec then 2 else 1

/-- `ASSERT(inode_pos.sec_lba <= (part->start_lba + part->sec_cnt))`. -/
def assertInPart (pos : InodePosition) : Prog Fs Buf Unit := do
  let v := (← get).vol
  assert (pos.secLba ≤ v.startLba + v.secCnt)

/-- The members that only mean something in memory are cleared on the way out. -/
def Inode.toPure (i : Inode) : Inode := ⟨i.iNo, i.iSize, 0, false, i.iSectors⟩

@[simps] def Inode.cnt (i : Inode) (c : Nat) : Inode := ⟨i.iNo, i.iSize, c, i.writeDeny, i.iSectors⟩

@[simps] def Inode.body (i : Inode) (size : Nat) (secs : Nat → Nat) : Inode :=
  ⟨i.iNo, size, i.iOpenCnts, i.writeDeny, secs⟩

/-- The inode is copied before the first transfer, so it is passed by value. -/
def inodeSync (i : Inode) : Prog Fs Buf Unit := do
  let pos ← inodeLocate i.iNo
  assertInPart pos
  let inodeBuf ← ideRead pos.secLba pos.secs
  ideWrite pos.secLba pos.secs (fun _ => inodeBuf.splice pos.offSize inodeSize i.toPure.bytes)

/-- An object for `i` enters the heap at the head of `open_inodes`. -/
def pushInode (i : Inode) : Prog Fs Buf Nat := do
  let p := (← get).mem.fresh
  modify (fun s => { s with
    mem.inodes := Function.update s.mem.inodes p (some i)
    mem.openInodes := p :: s.mem.openInodes })
  return p

/-- The member of `open_inodes` that is found first under a number. -/
def Mem.find (m : Mem) (inodeNo : Nat) : Option Nat :=
  m.openInodes.find? (fun p => (m.inodes p).any (fun i => i.iNo == inodeNo))

def inodeOpen (inodeNo : Nat) : Prog Fs Buf Nat := do
  match (← get).mem.find inodeNo with
  | some p =>
    let i ← getInode p
    setInode p (i.cnt (add32 i.iOpenCnts 1))
    return p
  | none =>
    let pos ← inodeLocate inodeNo
    let inodeBuf ← ideRead pos.secLba pos.secs
    pushInode ((Inode.ofBytes inodeBuf pos.offSize).cnt 1)

def inodeClose (p : Nat) : Prog Fs Buf Unit := do
  let i ← getInode p
  if sub32 i.iOpenCnts 1 = 0 then
    modify (fun s => { s with
      mem.inodes := Function.update s.mem.inodes p none
      mem.openInodes := s.mem.openInodes.erase p })
  else
    setInode p (i.cnt (sub32 i.iOpenCnts 1))

def inodeDelete (inodeNo : Nat) : Prog Fs Buf Unit := do
  assert (inodeNo < maxFilesPerPart)
  let pos ← inodeLocate inodeNo
  assertInPart pos
  let inodeBuf ← ideRead pos.secLba pos.secs
  ideWrite pos.secLba pos.secs (fun _ => inodeBuf.splice pos.offSize inodeSize (fun _ => 0))

def withTable (direct : Nat → Nat) (table : Buf) : Nat → Nat := fun k =>
  if k < 12 then direct k else if k < 140 then table.word (4 * (k - 12)) else 0

def releaseBlock (lba : Nat) : Prog Fs Buf Unit := do
  let blockBitmapIdx := (← get).vol.bitIdx lba
  assert (0 < blockBitmapIdx)
  blockBitmapSet blockBitmapIdx false
  bitmapSync blockBitmapIdx .block

def releaseBlocks (allBlocks : Nat → Nat) : List Nat → Prog Fs Buf Unit
  | [] => return ()
  | k :: ks => do
    if allBlocks k ≠ 0 then releaseBlock (allBlocks k)
    releaseBlocks allBlocks ks

def Inode.direct (i : Inode) : Nat → Nat := fun k => if k < 12 then i.iSectors k else 0

/-- The first half of `inode_release`: its table, then everything it can reach. -/
def releaseSectors (i : Inode) : Prog Fs Buf Unit := do
  if i.iSectors 12 ≠ 0 then
    let table ← ideRead (i.iSectors 12) 1
    releaseBlock (i.iSectors 12)
    releaseBlocks (withTable i.direct table) (List.range 140)
  else
    releaseBlocks i.direct (List.range 12)

def inodeRelease (inodeNo : Nat) : Prog Fs Buf Unit := do
  let p ← inodeOpen inodeNo
  let i ← getInode p
  assert (i.iNo = inodeNo)
  releaseSectors i
  inodeBitmapSet inodeNo false
  bitmapSync inodeNo .inode
  inodeDelete inodeNo
  inodeClose p

def inodeInit (inodeNo : Nat) : Inode := ⟨inodeNo, 0, 0, false, fun _ => 0⟩

end TrueOs.Fs
