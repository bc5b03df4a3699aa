import Mathlib.Algebra.Group.Nat.Defs
import Mathlib.Logic.Function.Basic
import Mathlib.Logic.Relation

/-! `thread/sync.c`: semaphores and re-entrant locks, used by any number of threads.

The bodies of `sema_down` and `sema_up` run with interrupts off and are one step each,
up to `thread_block`; between any two other statements somebody else may run. -/

namespace TrueOs.Thread

variable {ι : Type} [DecidableEq ι]

structure Semaphore (ι : Type) where
  value : Nat
  waiters : List ι

structure Lock (ι : Type) where
  holder : Option ι
  semaphore : Semaphore ι
  holderRepeatNr : Nat

def lockInit : Lock ι := ⟨none, ⟨1, []⟩, 0⟩

/-- The statement a thread is at.  A counter that goes up or down is loaded and
stored in two steps; the store remembers what was loaded. -/
inductive Pc
  | idle
  | acquireTest | down | downLoop | setHolder | assertZero | setOne
  | incLoad | incStore (n : Nat)
  | assertHolder | releaseTest | decLoad | decStore (n : Nat)
  | assertOne | clearHolder | clearNr | up
  | failed
  deriving DecidableEq

inductive Call
  | lockAcquire | lockRelease

/-- `depth` counts the `lock_acquire` calls of a thread that have returned and are
not yet matched by a `lock_release` that has. -/
structure Sys (ι : Type) where
  lock : Lock ι
  pc : ι → Pc
  blocked : ι → Bool
  depth : ι → Nat

def boot : Sys ι := ⟨lockInit, fun _ => .idle, fun _ => false, fun _ => 0⟩

namespace Sys

variable (s : Sys ι) (t : ι)

def goto (pc : Pc) : Sys ι := { s with pc := Function.update s.pc t pc }

def ret (d : Nat) : Sys ι :=
  { s with pc := Function.update s.pc t .idle, depth := Function.update s.depth t d }

def setLock (l : Lock ι) : Sys ι := { s with lock := l }

def assert (c : Bool) (pc : Pc) : Sys ι := s.goto t (if c then pc else .failed)

/-- One turn of the loop in `sema_down`, and what follows it. -/
def semaDown : Sys ι :=
  let psema := s.lock.semaphore
  if psema.value = 0 then
    if t ∈ psema.waiters then
      s.goto t .failed
    else
      { s.setLock { s.lock with semaphore := ⟨psema.value, psema.waiters ++ [t]⟩ } with
        pc := Function.update s.pc t .downLoop
        blocked := Function.update s.blocked t true }
  else
    (s.setLock { s.lock with semaphore := ⟨psema.value - 1, psema.waiters⟩ }).assert t
      (psema.value - 1 = 0) .setHolder

/-- `thread_unblock` asserts that the thread it wakes is blocked. -/
def semaUp : Sys ι :=
  let psema := s.lock.semaphore
  let value := (psema.value + 1) % 2 ^ 8
  if psema.value ≠ 0 ∨ value ≠ 1 then
    s.goto t .failed
  else
    match psema.waiters with
    | [] => (s.setLock { s.lock with semaphore := ⟨value, []⟩ }).ret t (s.depth t - 1)
    | threadBlocked :: waiters =>
      if s.blocked threadBlocked then
        { (s.setLock { s.lock with semaphore := ⟨value, waiters⟩ }).ret t (s.depth t - 1) with
          blocked := Function.update s.blocked threadBlocked false }
      else
        s.goto t .failed

/-- What thread `t` does when it is given the processor.  A blocked thread is not, and
a thread only releases what it holds. -/
def step (call : Call) : Sys ι :=
  if s.blocked t then s else
  match s.pc t, call with
  | .idle, .lockAcquire => s.goto t .acquireTest
  | .idle, .lockRelease => if s.depth t = 0 then s else s.goto t .assertHolder
  | .acquireTest, _ => s.goto t (if s.lock.holder ≠ some t then .down else .incLoad)
  | .down, _ => s.semaDown t
  | .downLoop, _ => s.semaDown t
  | .setHolder, _ => (s.setLock { s.lock with holder := some t }).goto t .assertZero
  | .assertZero, _ => s.assert t (s.lock.holderRepeatNr = 0) .setOne
  | .setOne, _ => (s.setLock { s.lock with holderRepeatNr := 1 }).ret t (s.depth t + 1)
  | .incLoad, _ => s.goto t (.incStore s.lock.holderRepeatNr)
  | .incStore n, _ =>
    (s.setLock { s.lock with holderRepeatNr := (n + 1) % 2 ^ 32 }).ret t (s.depth t + 1)
  | .assertHolder, _ => s.assert t (s.lock.holder = some t) .releaseTest
  | .releaseTest, _ => s.goto t (if 1 < s.lock.holderRepeatNr then .decLoad else .assertOne)
  | .decLoad, _ => s.goto t (.decStore s.lock.holderRepeatNr)
  | .decStore n, _ => (s.setLock { s.lock with holderRepeatNr := n - 1 }).ret t (s.depth t - 1)
  | .assertOne, _ => s.assert t (s.lock.holderRepeatNr = 1) .clearHolder
  | .clearHolder, _ => (s.setLock { s.lock with holder := none }).goto t .clearNr
  | .clearNr, _ => (s.setLock { s.lock with holderRepeatNr := 0 }).goto t .up
  | .up, _ => s.semaUp t
  | .failed, _ => s

end Sys

def Next (s s' : Sys ι) : Prop := ∃ t call, s' = s.step t call

/-- No thread has nested its calls as deep as the 32-bit counter is wide. -/
def Shallow (s : Sys ι) : Prop := ∀ t, s.depth t < 2 ^ 32

/-- A step into a state in which the counter has not wrapped. -/
def ShallowNext (s s' : Sys ι) : Prop := Next s s' ∧ Shallow s'

end TrueOs.Thread
