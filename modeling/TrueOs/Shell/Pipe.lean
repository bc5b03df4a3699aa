import TrueOs.Fs.Path

/-! What the file system calls use of `shell/pipe.c` and `device/ioqueue.c`. -/

namespace TrueOs.Fs

open Prog

def bufsize : Nat := 2048

def nextPos (pos : Nat) : Nat := (pos + 1) % bufsize

def ioqFull (ioq : Ioqueue) : Bool := nextPos ioq.head == ioq.tail

def ioqLength (ioq : Ioqueue) : Nat :=
  if ioq.tail ≤ ioq.head then ioq.head - ioq.tail else bufsize - (ioq.tail - ioq.head)

/-- On a full queue the producer waits, and in a single call nobody reads. -/
def ioqPutchar (ioq : Ioqueue) (byte : UInt8) : Prog Fs Buf Ioqueue :=
  if ioqFull ioq then
    halt .loop
  else
    return { ioq with buf := Function.update ioq.buf ioq.head byte, head := nextPos ioq.head }

/-- On an empty queue the consumer waits. -/
def ioqGetchar (ioq : Ioqueue) : Prog Fs Buf (UInt8 × Ioqueue) :=
  if ioq.head == ioq.tail then
    halt .loop
  else
    return (ioq.buf ioq.tail, { ioq with tail := nextPos ioq.tail })

def fdLocal2Global (cur localFd : Nat) : Prog Fs Buf Nat := do
  if localFd < maxFilesOpenPerProc then
    let globalFd := (← get).mem.fdTable cur localFd
    assert (0 ≤ globalFd ∧ globalFd < maxFileOpen)
    return globalFd.toNat
  else
    halt .fault

def isPipe (cur localFd : Nat) : Prog Fs Buf Bool := do
  let globalFd ← fdLocal2Global cur localFd
  return ((← get).mem.fileTable globalFd).fdFlag == pipeFlag

def getChars : (size : Nat) → Ioqueue → Prog Fs Buf (List UInt8 × Ioqueue)
  | 0, ioq => return ([], ioq)
  | size + 1, ioq => do
    let (byte, ioq) ← ioqGetchar ioq
    let (bytes, ioq) ← getChars size ioq
    return (byte :: bytes, ioq)

/-- The bytes stand for their number, which is the result. -/
def pipeRead (cur fd count : Nat) : Prog Fs Buf (List UInt8) := do
  let globalFd ← fdLocal2Global cur fd
  let page ← fileInode globalFd
  match (← get).mem.pipes page with
  | none => halt .fault
  | some ioq =>
    let ioqLen := ioqLength ioq
    let size := if count < ioqLen then count else ioqLen
    let (bytes, ioq) ← getChars size ioq
    modify (fun s => { s with mem.pipes := Function.update s.mem.pipes page (some ioq) })
    return bytes

def putChars (buf : Buf) : (size bytesWrite : Nat) → Ioqueue → Prog Fs Buf Ioqueue
  | 0, _, ioq => return ioq
  | size + 1, bytesWrite, ioq => do
    let ioq ← ioqPutchar ioq (buf bytesWrite)
    putChars buf size (bytesWrite + 1) ioq

def pipeWrite (cur fd : Nat) (buf : Buf) (count : Nat) : Prog Fs Buf Int := do
  let globalFd ← fdLocal2Global cur fd
  let page ← fileInode globalFd
  match (← get).mem.pipes page with
  | none => halt .fault
  | some ioq =>
    let ioqLeft := bufsize - ioqLength ioq
    let size := if count < ioqLeft then count else ioqLeft
    let ioq ← putChars buf size 0 ioq
    modify (fun s => { s with mem.pipes := Function.update s.mem.pipes page (some ioq) })
    return size

end TrueOs.Fs
