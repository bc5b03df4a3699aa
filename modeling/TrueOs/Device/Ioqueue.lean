import TrueOs.Lib.Ring
import TrueOs.Shell.Pipe
import TrueOs.Thread.Sync

/-! `device/ioqueue.c`, used by any number of threads.

Interrupts are off, so a thread keeps the processor up to the next `thread_block`, in
`sema_down` or in `ioq_wait`.  One turn is what it does from where it was woken (or from
the start of a call) up to there, or up to its return. -/

namespace TrueOs.Ioqueue

open Fs Thread

def ioqEmpty (ioq : Fs.Ioqueue) : Bool := ioq.head == ioq.tail

/-- `get n`: `n` calls of `ioq_getchar` one after the other, as in the loop of `pipe_read`. -/
inductive Call
  | get (left : Nat)
  | put (byte : UInt8)
  deriving DecidableEq

/-- Where a thread is blocked or was woken: in `sema_down` or in `ioq_wait`. -/
inductive Pc
  | idle
  | down (c : Call)
  | wait (c : Call)
  deriving DecidableEq

/-- `puts` and `gets` are the bytes of the calls that have returned, in order. -/
structure Sys (ι : Type) where
  ioq : Fs.Ioqueue
  lock : Lock ι
  producer : Option ι
  consumer : Option ι
  pc : ι → Pc
  blocked : ι → Bool
  puts : List UInt8
  gets : List UInt8

variable {ι : Type} [DecidableEq ι]

/-- `ioqueue_init` on a page of zeros. -/
def init : Sys ι := ⟨⟨fun _ => 0, 0, 0⟩, lockInit, none, none, fun _ => .idle, fun _ => false, [], []⟩

namespace Sys

/-- The test of the loop in `ioq_getchar` and in `ioq_putchar`. -/
def mustWait (s : Sys ι) : Call → Bool
  | .get _ => ioqEmpty s.ioq
  | .put _ => ioqFull s.ioq

/-- `ioq->consumer` or `ioq->producer`. -/
def waiter (s : Sys ι) : Call → Option ι
  | .get _ => s.consumer
  | .put _ => s.producer

def setWaiter (s : Sys ι) (t : Option ι) : Call → Sys ι
  | .get _ => { s with consumer := t }
  | .put _ => { s with producer := t }

def goto (s : Sys ι) (t : ι) (pc : Pc) (b : Bool) : Sys ι :=
  { s with pc := Function.update s.pc t pc, blocked := Function.update s.blocked t b }

def threadUnblock (s : Sys ι) (t : ι) : Option (Sys ι) :=
  if s.blocked t then some { s with blocked := Function.update s.blocked t false } else none

def ioqWait (s : Sys ι) (t : ι) (c : Call) : Option (Sys ι) :=
  if s.waiter c = none then some ((s.setWaiter (some t) c).goto t (.wait c) true) else none

def wakeup (s : Sys ι) (c : Call) : Option (Sys ι) :=
  match s.waiter c with
  | none => some s
  | some u => (s.threadUnblock u).map (fun s => s.setWaiter none c)

/-- `sema_down` from the test of its loop on, and the rest of `lock_acquire`. -/
def semaDown (s : Sys ι) (t : ι) (c : Call) : Option (Sys ι) :=
  let psema := s.lock.semaphore
  if psema.value = 0 then
    if t ∈ psema.waiters then none
    else some ({ s with lock.semaphore.waiters := psema.waiters ++ [t] }.goto t (.down c) true)
  else if psema.value - 1 = 0 ∧ s.lock.holderRepeatNr = 0 then
    { s with lock := ⟨some t, ⟨psema.value - 1, psema.waiters⟩, 1⟩ }.ioqWait t c
  else
    none

def lockAcquire (s : Sys ι) (t : ι) (c : Call) : Option (Sys ι) :=
  if s.lock.holder ≠ some t then
    s.semaDown t c
  else
    { s with lock.holderRepeatNr := (s.lock.holderRepeatNr + 1) % 2 ^ 32 }.ioqWait t c

def semaUp (s : Sys ι) : Option (Sys ι) :=
  let psema := s.lock.semaphore
  let value := (psema.value + 1) % 2 ^ 8
  if psema.value ≠ 0 ∨ value ≠ 1 then
    none
  else
    match psema.waiters with
    | [] => some { s with lock.semaphore := ⟨value, []⟩ }
    | threadBlocked :: waiters => { s with lock.semaphore := ⟨value, waiters⟩ }.threadUnblock threadBlocked

def lockRelease (s : Sys ι) (t : ι) : Option (Sys ι) :=
  if s.lock.holder ≠ some t then
    none
  else if 1 < s.lock.holderRepeatNr then
    some { s with lock.holderRepeatNr := s.lock.holderRepeatNr - 1 }
  else if s.lock.holderRepeatNr = 1 then
    { s with lock.holder := none, lock.holderRepeatNr := 0 }.semaUp
  else
    none

def getByte (s : Sys ι) : Option (Sys ι) :=
  { s with
    ioq.tail := nextPos s.ioq.tail
    gets := s.gets ++ [s.ioq.buf s.ioq.tail] }.wakeup (.put 0)

def putByte (s : Sys ι) (byte : UInt8) : Option (Sys ι) :=
  { s with
    ioq.buf := Function.update s.ioq.buf s.ioq.head byte
    ioq.head := nextPos s.ioq.head
    puts := s.puts ++ [byte] }.wakeup (.get 0)

/-- The loops of `ioq_getchar`, one after the other, from the test on. -/
def getLoop (t : ι) : (left : Nat) → Sys ι → Option (Sys ι)
  | 0, s => some (s.goto t .idle false)
  | left + 1, s =>
    if s.mustWait (.get (left + 1)) then s.lockAcquire t (.get (left + 1)) else s.getByte.bind (getLoop t left)

def loop (s : Sys ι) (t : ι) : Call → Option (Sys ι)
  | .get left => getLoop t left s
  | .put byte =>
    if s.mustWait (.put byte) then s.lockAcquire t (.put byte)
    else (s.putByte byte).map (fun s => s.goto t .idle false)

/-- What thread `t` does when it is given the processor; only an idle thread makes a new
call.  `none`: it is blocked, or an `ASSERT` stops the system. -/
def turn (s : Sys ι) (t : ι) (call : Call) : Option (Sys ι) :=
  if s.blocked t then none else
  match s.pc t with
  | .idle => s.loop t call
  | .down c => s.semaDown t c
  | .wait c => (s.lockRelease t).bind (fun s => s.loop t c)

/-- `pipe_read`: the size is fixed before the first byte is taken. -/
def pipeRead (s : Sys ι) (t : ι) (count : Nat) : Option (Sys ι) :=
  let ioqLen := ioqLength s.ioq
  s.turn t (.get (if count < ioqLen then count else ioqLen))

end Sys

inductive Reach : Sys ι → Prop
  | init : Reach init
  | turn {s s' : Sys ι} (h : Reach s) (t : ι) (call : Call) (hs : s.turn t call = some s') : Reach s'

end TrueOs.Ioqueue
