import TrueOs.Fs.Syscall

/-! How processes come to share open files: `sys_pipe` and `sys_fd_redirect` of
`shell/pipe.c`, `sys_read`, `sys_lseek`, and what `sys_fork` and `sys_exit` do to descriptors. -/

namespace TrueOs.Fs

open Prog

/-- A full `file_table` gives the index -1, and the page is stored in front of the
table.  The ring buffer is empty and its lock free. -/
def sysPipe (cur : Nat) : Prog Fs Buf (Int × Int) := do
  match ← getFreeSlotInGlobal with
  | none => halt .fault
  | some globalFd =>
    let page := (← get).mem.fresh
    modify (fun s => { s with mem.pipes := Function.update s.mem.pipes page (some ⟨fun _ => 0, 0, 0⟩) })
    setFile globalFd ⟨2, pipeFlag, some page⟩
    let rd ← pcbFdInstall cur globalFd
    let wr ← pcbFdInstall cur globalFd
    return (rd, wr)

/-- An index outside `fd_table` is some other memory of the PCB. -/
def sysFdRedirect (cur oldLocalFd newLocalFd : Nat) : Prog Fs Buf Unit := do
  if oldLocalFd < maxFilesOpenPerProc then
    if newLocalFd < 3 then
      setFd cur oldLocalFd newLocalFd
    else if newLocalFd < maxFilesOpenPerProc then
      setFd cur oldLocalFd ((← get).mem.fdTable cur newLocalFd)
    else
      halt .fault
  else
    halt .fault

/-- `pf->fd_inode->i_size`.  In the page of a pipe that word is the value of the free
lock. -/
def fileSize (f : File) : Prog Fs Buf Int := do
  match f.fdInode with
  | none => halt .fault
  | some p =>
    if f.fdFlag = pipeFlag then
      return 1
    else
      return int32 (← getInode p).iSize

def sysLseek (cur : Nat) (fd offset : Int) (whence : Nat) : Prog Fs Buf Int := do
  if fd < 0 then
    return -1
  else
    assert (0 < whence ∧ whence < 4)
    let g ← fdLocal2Global cur fd.toNat
    let pf := (← get).mem.fileTable g
    let size ← fileSize pf
    let newPos :=
      if whence = 1 then offset else if whence = 2 then int32 pf.fdPos + offset else size + offset
    if newPos < 0 ∨ size - 1 < newPos then
      return -1
    else
      setFile g { pf with fdPos := newPos.toNat }
      return newPos

/-- The loop runs while the parent is the running thread. -/
def updateInodeOpenCnts (cur child : Nat) : List Nat → Prog Fs Buf Unit
  | [] => return ()
  | localFd :: rest => do
    let globalFd := (← get).mem.fdTable child localFd
    assert (globalFd < maxFileOpen)
    if globalFd ≠ -1 then
      if ← isPipe cur localFd then
        let f := (← get).mem.fileTable globalFd.toNat
        setFile globalFd.toNat { f with fdPos := add32 f.fdPos 1 }
      else
        let p ← fileInode globalFd.toNat
        let i ← getInode p
        setInode p (i.cnt (add32 i.iOpenCnts 1))
    updateInodeOpenCnts cur child rest

def localFds : List Nat := List.range' 3 (maxFilesOpenPerProc - 3)

/-- What `sys_fork` does to descriptors: the PCB is copied, then the counts go up. -/
def forkFiles (cur child : Nat) : Prog Fs Buf Unit := do
  modify (fun s => { s with
    mem.fdTable := Function.update s.mem.fdTable child (s.mem.fdTable cur)
    mem.cwdInodeNr := Function.update s.mem.cwdInodeNr child (s.mem.cwdInodeNr cur) })
  updateInodeOpenCnts cur child localFds

/-- The last loop of `release_prog_resource`.  The descriptor of a pipe is not reset. -/
def closeFiles (cur : Nat) : List Nat → Prog Fs Buf Unit
  | [] => return ()
  | localFd :: rest => do
    if (← get).mem.fdTable cur localFd ≠ -1 then
      if ← isPipe cur localFd then
        closePipe (← fdLocal2Global cur localFd)
      else
        let _ ← sysClose cur localFd
    closeFiles cur rest

def exitFiles (cur : Nat) : Prog Fs Buf Unit := closeFiles cur localFds

def readFile (cur fd count : Nat) : Prog Fs Buf (Option (List UInt8)) := do
  fileRead (← fdLocal2Global cur fd) count

/-- The keys `kbd` are typed in time.  `none` stands for -1, and the bytes for their number
otherwise. -/
def sysRead (cur : Nat) (kbd : Nat → UInt8) (fd : Int) (count : Nat) : Prog Fs Buf (Option (List UInt8)) := do
  if fd < 0 ∨ fd = 1 ∨ fd = 2 then
    return none
  else if ← isPipe cur fd.toNat then
    return some (← pipeRead cur fd.toNat count)
  else if fd = 0 then
    return if count = 0 then none else some ((List.range count).map kbd)
  else
    readFile cur fd.toNat count

theorem sat_fdLocal2Global (cur fd : Nat) (s : Fs) : ((fdLocal2Global cur fd : Prog Fs Buf Nat).on s).Sat
    True (fun (g : Nat) t => t = s ∧ fd < maxFilesOpenPerProc ∧ s.mem.fdTable cur fd = g ∧
      g < maxFileOpen) := by
  rw [fdLocal2Global, ite_on]
  split
  · next hfd =>
    simp only [bind_on, get_on, Res.sat_bind, Res.sat_done, sat_assert, decide_eq_true_eq, pure_on]
    refine ⟨fun hv => ⟨trivial, hfd, (Int.toNat_of_nonneg hv.1).symm, ?_⟩, fun _ => trivial⟩
    omega
  · trivial

theorem sat_isPipe (cur fd : Nat) (s : Fs) : ((isPipe cur fd).on s).Sat True (fun b t =>
    t = s ∧ ∃ g : Nat, s.mem.fdTable cur fd = g ∧ b = ((s.mem.fileTable g).fdFlag == pipeFlag)) := by
  rw [isPipe, sat_bind]
  refine (sat_fdLocal2Global cur fd s).mono fun g t hg => ?_
  obtain ⟨rfl, -, hg, -⟩ := hg
  exact ⟨rfl, g, hg, rfl⟩

end TrueOs.Fs
