import TrueOs.Kernel.Memory

/-! Processes: `userprog/process.c`, `userprog/fork.c` and `userprog/wait_exit.c`, with
`thread_exit` and the pids of `thread/thread.c`.

Stacks, registers and the ready queue are left out; the descriptors of a process have
their own model. -/

namespace TrueOs.Mm

open Prog

def allocatePid : Prog Mm Buf Nat := do
  match ← Bitmap.bitmapScan (← get).pidBitmap 1 with
  | none => halt .fault
  | some bitIdx =>
    let btmp ← (← get).pidBitmap.bitmapSet bitIdx true
    modify (fun m => { m with pidBitmap := btmp })
    return bitIdx + 1

def releasePid (pid : Nat) : Prog Mm Buf Unit := do
  let btmp ← (← get).pidBitmap.bitmapSet (pid - 1) false
  modify (fun m => { m with pidBitmap := btmp })

/-- The new directory has the kernel's half only. -/
def createPageDir : Prog Mm Buf (Option Nat) := getKernelPages 1

def pageDirActivate (p : Nat) : Prog Mm Buf Unit := modify (fun m => { m with active := p })

/-- Nobody looks at a failed allocation: the null page is then used. -/
def orFault (page : Option Nat) : Prog Mm Buf Nat :=
  match page with
  | some page => return page
  | none => halt .fault

/-- The process is in the lists and has not run yet; `parent_pid` of a new thread is -1. -/
def processExecute (name : List UInt8) : Prog Mm Buf Nat := do
  let thread ← orFault (← getKernelPages 1)
  let pid ← allocatePid
  let bits ← orFault (← getKernelPages (divRoundUp userBitmapLen 4096))
  let pgdir ← createPageDir
  setTask thread
    { name := name, pid := pid, parentPid := -1, status := .ready, pgdir := pgdir
      pde := fun _ => none, bits := bits, vaddrBitmap := ⟨userBitmapLen, fun _ => 0⟩ }
  modify (fun m => { m with threadAllList := m.threadAllList ++ [thread] })
  return thread

/-- What `start_process` allocates, as the process itself. -/
def startProcess (cur : Nat) : Prog Mm Buf Unit := do
  pageDirActivate cur
  let _ ← getAPage cur userStack3Vaddr
  return ()

def forkSuffix : List UInt8 := [0x5F, 0x66, 0x6F, 0x72, 0x6B]

/-- The child's page directory is not there yet. -/
def copyPcbVaddrbitmapStack0 (child parent : Nat) : Prog Mm Buf Bool := do
  let t ← getTask parent
  let pid ← allocatePid
  match ← getKernelPages (divRoundUp userBitmapLen 4096) with
  | none => return false
  | some bits =>
    assert (t.name.length < 11)
    setTask child
      { t with name := t.name ++ forkSuffix, pid := pid, parentPid := t.pid, status := .ready
               bits := bits }
    return true

/-- One page is carried over in the kernel's buffer. -/
def copyPage (child parent bufPage page : Nat) : Prog Mm Buf Unit := do
  writePage bufPage (← readPage page)
  pageDirActivate child
  let _ ← getAPageWithoutOpvaddrbitmap .user page
  writePage page (← readPage bufPage)
  pageDirActivate parent

def copyBits (child parent bufPage : Nat) (byte : UInt8) (idxByte : Nat) : (left idxBit : Nat) → Prog Mm Buf Unit
  | 0, _ => return ()
  | left + 1, idxBit => do
    if byte.toBitVec.getLsbD idxBit then
      copyPage child parent bufPage (bitPage (idxByte * 8 + idxBit))
    copyBits child parent bufPage byte idxByte left (idxBit + 1)

def copyBytes (child parent bufPage : Nat) (bits : Buf) : (left idxByte : Nat) → Prog Mm Buf Unit
  | 0, _ => return ()
  | left + 1, idxByte => do
    if bits idxByte ≠ 0 then
      copyBits child parent bufPage (bits idxByte) idxByte 8 0
    copyBytes child parent bufPage bits left (idxByte + 1)

def copyBodyStack3 (child parent bufPage : Nat) : Prog Mm Buf Unit := do
  let t ← getTask parent
  copyBytes child parent bufPage t.vaddrBitmap.bits t.vaddrBitmap.btmpBytesLen 0

def copyProcess (child parent : Nat) : Prog Mm Buf Bool := do
  match ← getKernelPages 1 with
  | none => return false
  | some bufPage =>
    if ← copyPcbVaddrbitmapStack0 child parent then
      match ← createPageDir with
      | none => return false
      | some pgdir =>
        let t ← getTask child
        setTask child { t with pgdir := some pgdir, pde := fun _ => none }
        copyBodyStack3 child parent bufPage
        mfreePage parent .kernel bufPage 1
        return true
    else
      return false

/-- The PCB of the child comes with its pid. -/
def sysFork (cur : Nat) : Prog Mm Buf (Option (Nat × Nat)) := do
  match ← getKernelPages 1 with
  | none => return none
  | some child =>
    let t ← getTask cur
    assert t.pgdir.isSome
    if ← copyProcess child cur then
      assert (¬child ∈ (← get).threadAllList)
      modify (fun m => { m with threadAllList := m.threadAllList ++ [child] })
      let t ← getTask child
      return some (child, t.pid)
    else
      return none

def freeFrames (page : Nat) : (left pteIdx : Nat) → Prog Mm Buf Unit
  | 0, _ => return ()
  | left + 1, pteIdx => do
    let pte ← getPte (page + pteIdx)
    if pte.present then
      pfree pte.frame
    freeFrames page left (pteIdx + 1)

def freeTables (t : Task) : (left pdeIdx : Nat) → Prog Mm Buf Unit
  | 0, _ => return ()
  | left + 1, pdeIdx => do
    match t.pde pdeIdx with
    | some table =>
      freeFrames (pdeIdx * 1024) 1024 0
      pfree table
    | none => pure ()
    freeTables t left (pdeIdx + 1)

/-- `release_prog_resource` up to the descriptors. -/
def releaseProgResource (p : Nat) : Prog Mm Buf Unit := do
  let t ← getTask p
  freeTables t 768 0
  mfreePage p .kernel t.bits (t.vaddrBitmap.btmpBytesLen / 4096)

/-- `init_adopt_a_child` for every task. -/
def initAdopt (m : Mm) (pid : Nat) : Mm :=
  { m with tasks := fun p => (m.tasks p).map (fun t =>
      if p ∈ m.threadAllList ∧ t.parentPid = (pid : Int) then { t with parentPid := 1 } else t) }

def pid2thread (m : Mm) (pid : Int) : Option Nat :=
  m.threadAllList.find? (fun p => (m.tasks p).any (fun t => (t.pid : Int) == pid))

def sysExit (cur : Nat) : Prog Mm Buf Unit := do
  let t ← getTask cur
  assert (t.parentPid ≠ -1)
  modify (fun m => m.initAdopt t.pid)
  releaseProgResource cur
  let t ← getTask cur
  match (← get).pid2thread t.parentPid with
  | none => halt .fault
  | some parent =>
    let tp ← getTask parent
    if tp.status = .waiting then
      setTask parent { tp with status := .ready }
    let t ← getTask cur
    setTask cur { t with status := .hanging }

/-- The pid is read from the page just freed, which the TLB still maps. -/
def threadExit (cur threadOver : Nat) : Prog Mm Buf Unit := do
  let t ← getTask threadOver
  setTask threadOver { t with status := .died }
  match t.pgdir with
  | some pgdir => mfreePage cur .kernel pgdir 1
  | none => pure ()
  modify (fun m => { m with threadAllList := m.threadAllList.erase threadOver })
  mfreePage cur .kernel threadOver 1
  modify (fun m => { m with tasks := Function.update m.tasks threadOver none })
  releasePid t.pid

def findHangingChild (m : Mm) (ppid : Nat) : Option Nat :=
  m.threadAllList.find? (fun p => (m.tasks p).any (fun t => t.parentPid == (ppid : Int) && t.status == .hanging))

def findChild (m : Mm) (ppid : Nat) : Option Nat :=
  m.threadAllList.find? (fun p => (m.tasks p).any (fun t => t.parentPid == (ppid : Int)))

/-- With children that run the caller blocks, and in a single call nobody wakes it. -/
def sysWait (cur : Nat) : Prog Mm Buf (Option Nat) := do
  let t ← getTask cur
  match (← get).findHangingChild t.pid with
  | some child =>
    let c ← getTask child
    threadExit cur child
    return some c.pid
  | none =>
    match (← get).findChild t.pid with
    | none => return none
    | some _ => halt .loop

end TrueOs.Mm
