import TrueOs.Kernel.Memory

/-! `thread/thread.c`: the scheduler, on the one list node that a task has for the ready list
and for the waiters of a semaphore.

Interrupts are off in all of it, so an operation runs up to `switch_to`, with which it ends
here: what follows in the source runs when the task is picked again. -/

namespace TrueOs.Sched

open Function (update)
open Prog Mm

/-- PCBs are named by their page, semaphores by a number.  `found` is not in the source: it
keeps what the idle thread was doing each time nothing was ready. -/
structure Sys where
  status : Nat → TaskStatus
  pid : Nat → Nat
  parentPid : Nat → Int
  exitStatus : Nat → Int
  readyList : List Nat
  allList : List Nat
  cur : Nat
  value : Nat → Nat
  waiters : Nat → List Nat
  pidBitmap : Bitmap
  mainThread : Nat
  idleThread : Nat
  found : List TaskStatus

namespace Sys

variable (s : Sys)

def setStatus (t : Nat) (st : TaskStatus) : Sys := { s with status := update s.status t st }

def setWaiters (k : Nat) (l : List Nat) : Sys := { s with waiters := update s.waiters k l }

def setValue (k v : Nat) : Sys := { s with value := update s.value k v }

end Sys

def allocatePid : Prog Sys Unit Nat := do
  match ← quiet (Bitmap.bitmapScan (← get).pidBitmap 1) with
  | none => halt .fault
  | some bitIdx =>
    let btmp ← quiet ((← get).pidBitmap.bitmapSet bitIdx true)
    modify (fun s => { s with pidBitmap := btmp })
    return bitIdx + 1

def releasePid (pid : Nat) : Prog Sys Unit Unit := do
  let btmp ← quiet ((← get).pidBitmap.bitmapSet (pid - 1) false)
  modify (fun s => { s with pidBitmap := btmp })

def asleep : TaskStatus → Bool
  | .blocked | .waiting | .hanging => true
  | _ => false

def threadUnblock (t : Nat) : Prog Sys Unit Unit := do
  assert (asleep ((← get).status t))
  assert (t ∉ (← get).readyList)
  modify (fun s => { s with readyList := t :: s.readyList })
  modify (fun s => s.setStatus t .ready)

/-- `schedule` up to its first blank line: the clock has stopped a task that can go on. -/
def requeue : Prog Sys Unit Unit := do
  let cur := (← get).cur
  if (← get).status cur = .running then
    assert (cur ∉ (← get).readyList)
    modify (fun s => { s with readyList := s.readyList ++ [cur] })
    modify (fun s => s.setStatus cur .ready)
  else
    pure ()

def wakeIdle : Prog Sys Unit Unit := do
  if (← get).readyList = [] then
    modify (fun s => { s with found := s.status s.idleThread :: s.found })
    threadUnblock (← get).idleThread
  else
    pure ()

def switch : Prog Sys Unit Unit := do
  assert ((← get).readyList ≠ [])
  match (← get).readyList with
  | [] => halt .fault
  | next :: rest =>
    modify (fun s => { s with readyList := rest, cur := next })
    modify (fun s => s.setStatus next .running)

def schedule : Prog Sys Unit Unit := do
  requeue
  wakeIdle
  switch

def threadBlock (stat : TaskStatus) : Prog Sys Unit Unit := do
  assert (asleep stat)
  modify (fun s => s.setStatus s.cur stat)
  schedule

def threadYield : Prog Sys Unit Unit := do
  assert ((← get).cur ∉ (← get).readyList)
  modify (fun s => { s with readyList := s.readyList ++ [s.cur] })
  modify (fun s => s.setStatus s.cur .ready)
  schedule

/-- The end of `thread_start` and of `sys_fork`. -/
def enlist (t : Nat) : Prog Sys Unit Unit := do
  assert (t ∉ (← get).readyList)
  modify (fun s => { s with readyList := s.readyList ++ [t] })
  assert (t ∉ (← get).allList)
  modify (fun s => { s with allList := s.allList ++ [t] })

/-- `init_thread` on the new page `t`. -/
def initThread (t : Nat) : Prog Sys Unit Unit := do
  let pid ← allocatePid
  modify (fun s => { s with
    pid := update s.pid t pid
    parentPid := update s.parentPid t (-1)
    exitStatus := update s.exitStatus t 0 })
  modify (fun s => s.setStatus t (if t = s.mainThread then .running else .ready))

def threadStart (t : Nat) : Prog Sys Unit Unit := do
  initThread t
  enlist t

/-- `page` is what `get_kernel_pages` gives for the PCB, and `room` tells whether the child's
bitmap has found its pages. -/
def sysFork (page : Option Nat) (room : Bool) : Prog Sys Unit (Option Nat) := do
  match page with
  | none => return none
  | some child =>
    let pid ← allocatePid
    if room then
      modify (fun s => { s with
        pid := update s.pid child pid
        parentPid := update s.parentPid child (s.pid s.cur)
        exitStatus := update s.exitStatus child (s.exitStatus s.cur) })
      modify (fun s => s.setStatus child .ready)
      enlist child
      return some child
    else
      return none

def threadExit (threadOver : Nat) (needSchedule : Bool) : Prog Sys Unit Unit := do
  modify (fun s => s.setStatus threadOver .died)
  modify (fun s => { s with
    readyList := s.readyList.erase threadOver
    allList := s.allList.erase threadOver })
  releasePid ((← get).pid threadOver)
  if needSchedule then
    schedule

/-- One turn of the loop, or what follows it.  That a value other than 0 and 1 fails an
`ASSERT` is up to the callers. -/
def semaDown (k : Nat) : Prog Sys Unit Unit := do
  if (← get).value k = 0 then
    assert ((← get).cur ∉ (← get).waiters k)
    modify (fun s => s.setWaiters k (s.waiters k ++ [s.cur]))
    threadBlock .blocked
  else if (← get).value k = 1 then
    modify (fun s => s.setValue k 0)
  else
    halt .assert

def semaUp (k : Nat) : Prog Sys Unit Unit := do
  if (← get).value k = 0 then
    match (← get).waiters k with
    | [] => modify (fun s => s.setValue k 1)
    | threadBlocked :: rest =>
      modify (fun s => s.setWaiters k rest)
      threadUnblock threadBlocked
      modify (fun s => s.setValue k 1)
  else
    halt .assert

/-- After `thread_init`: the first process, the thread that has booted, and the idle one.  A
semaphore comes with the value it is initialised to. -/
def boot (init main idle : Nat) (value : Nat → Nat) : Sys where
  status := fun t => if t = main then .running else if t = init ∨ t = idle then .ready else .died
  pid := fun t => if t = init then 1 else if t = main then 2 else 3
  parentPid := fun _ => -1
  exitStatus := fun _ => 0
  readyList := [init, idle]
  allList := [init, main, idle]
  cur := main
  value := value
  waiters := fun _ => []
  pidBitmap := ⟨128, fun i => if i = 0 then 7 else 0⟩
  mainThread := main
  idleThread := idle
  found := []

end TrueOs.Sched
