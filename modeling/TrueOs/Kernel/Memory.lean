import Mathlib.Logic.Function.Basic
import TrueOs.Kernel.Bitmap

/-! `kernel/memory.c`: the pools of page frames, page tables and virtual addresses.

Pages and frames are numbered by their address over 4096.  The page directory of a task
is kept with its PCB and a user page table under the frame it is in; the kernel's page
tables are there from the start and shared by all. -/

namespace TrueOs

namespace Mm

inductive PoolFlags
  | kernel | user
  deriving DecidableEq

def PoolFlags.start : PoolFlags → Nat
  | .kernel => 0x200
  | .user => 0x1100

abbrev kernelBase : Nat := 0xC0000

abbrev kHeapStart : Nat := 0xC0200

abbrev userVaddrStart : Nat := 0x8048

abbrev userStack3Vaddr : Nat := kernelBase - 1

/-- `(0xc0000000 - USER_VADDR_START) / PG_SIZE / 8`. -/
abbrev userBitmapLen : Nat := (kernelBase - userVaddrStart) / 8

def bitPage (k : Nat) : Nat := userVaddrStart + k

def divRoundUp (x step : Nat) : Nat := (x + step - 1) / step

structure Pte where
  frame : Nat
  present : Bool
  deriving DecidableEq

inductive TaskStatus
  | running | ready | blocked | waiting | hanging | died
  deriving DecidableEq

/-- The fields of `struct task_struct` that memory management uses.  `pde` is the user
half of the page directory, `bits` the page of `vaddr_bitmap.bits`. -/
structure Task where
  name : List UInt8
  pid : Nat
  parentPid : Int
  status : TaskStatus
  pgdir : Option Nat
  pde : Nat → Option Nat
  bits : Nat
  vaddrBitmap : Bitmap

end Mm

/-- `tasks` are the PCBs by their page, `active` is the one whose directory is in `cr3`. -/
structure Mm where
  kernelPool : Bitmap
  userPool : Bitmap
  kernelVaddr : Bitmap
  pidBitmap : Bitmap
  kpte : Nat → Mm.Pte
  tables : Nat → Nat → Mm.Pte
  phys : Nat → Buf
  tasks : Nat → Option Mm.Task
  threadAllList : List Nat
  active : Nat

namespace Mm

open Prog

def pool (m : Mm) : PoolFlags → Bitmap
  | .kernel => m.kernelPool
  | .user => m.userPool

def setPool (m : Mm) : PoolFlags → Bitmap → Mm
  | .kernel, b => { m with kernelPool := b }
  | .user, b => { m with userPool := b }

def getTask (p : Nat) : Prog Mm Buf Task := do
  match (← get).tasks p with
  | some t => return t
  | none => halt .fault

def setTask (p : Nat) (t : Task) : Prog Mm Buf Unit :=
  modify (fun m => { m with tasks := Function.update m.tasks p (some t) })

/-- The loops of `vaddr_get` and `vaddr_remove`. -/
def bitmapSetRun (value : Bool) : (pgCnt bitIdx : Nat) → Bitmap → Prog Mm Buf Bitmap
  | 0, _, btmp => return btmp
  | pgCnt + 1, bitIdx, btmp => do
    let btmp ← btmp.bitmapSet bitIdx value
    bitmapSetRun value pgCnt (bitIdx + 1) btmp

/-- The page right behind the user bitmap is the kernel's first one, which is mapped: a
run that ends there is never handed out. -/
def vaddrGet (cur : Nat) (pf : PoolFlags) (pgCnt : Nat) : Prog Mm Buf (Option Nat) := do
  match pf with
  | .kernel =>
    match ← Bitmap.bitmapScan (← get).kernelVaddr pgCnt with
    | none => return none
    | some bitIdxStart =>
      let btmp ← bitmapSetRun true pgCnt bitIdxStart (← get).kernelVaddr
      modify (fun m => { m with kernelVaddr := btmp })
      return some (kHeapStart + bitIdxStart)
  | .user =>
    let t ← getTask cur
    match ← Bitmap.bitmapScan t.vaddrBitmap pgCnt with
    | none => return none
    | some bitIdxStart =>
      let btmp ← bitmapSetRun true pgCnt bitIdxStart t.vaddrBitmap
      setTask cur { t with vaddrBitmap := btmp }
      assert (bitPage bitIdxStart < kernelBase - 1)
      return some (bitPage bitIdxStart)

def palloc (pf : PoolFlags) : Prog Mm Buf (Option Nat) := do
  match ← Bitmap.bitmapScan ((← get).pool pf) 1 with
  | none => return none
  | some bitIdx =>
    let btmp ← ((← get).pool pf).bitmapSet bitIdx true
    modify (fun m => m.setPool pf btmp)
    return some (pf.start + bitIdx)

/-- The page table that `pte_ptr` reaches through the active directory. -/
def activeTable (m : Mm) (page : Nat) : Option Nat := (m.tasks m.active).bind (fun t => t.pde (page / 1024))

/-- `*pte_ptr(vaddr)`; without a page table the access faults. -/
def getPte (page : Nat) : Prog Mm Buf Pte := do
  if page < kernelBase then
    match (← get).activeTable page with
    | some table => return (← get).tables table (page % 1024)
    | none => halt .fault
  else
    return (← get).kpte page

def setTable (table idx : Nat) (pte : Pte) : Prog Mm Buf Unit :=
  modify (fun m => { m with tables := Function.update m.tables table (Function.update (m.tables table) idx pte) })

def setPte (page : Nat) (pte : Pte) : Prog Mm Buf Unit := do
  if page < kernelBase then
    match (← get).activeTable page with
    | some table => setTable table (page % 1024) pte
    | none => halt .fault
  else
    modify (fun m => { m with kpte := Function.update m.kpte page pte })

/-- The branch of `page_table_add` without a page table.  `palloc` does not fail: the
scan of a full map asserts. -/
def newTable (page : Nat) : Prog Mm Buf Unit := do
  match ← palloc .kernel with
  | none => halt .fault
  | some table =>
    let cur := (← get).active
    let t ← getTask cur
    setTask cur { t with pde := Function.update t.pde (page / 1024) (some table) }
    modify (fun m => { m with tables := Function.update m.tables table (fun _ => ⟨0, false⟩) })

def pageTableAdd (page frame : Nat) : Prog Mm Buf Unit := do
  if page < kernelBase ∧ (← get).activeTable page = none then
    newTable page
  let pte ← getPte page
  assert (!pte.present)
  setPte page ⟨frame, true⟩

/-- The loop of `malloc_page`. -/
def mapPages (pf : PoolFlags) : (cnt page : Nat) → Prog Mm Buf Bool
  | 0, _ => return true
  | cnt + 1, page => do
    match ← palloc pf with
    | none => return false
    | some frame =>
      pageTableAdd page frame
      mapPages pf cnt (page + 1)

def mallocPage (cur : Nat) (pf : PoolFlags) (pgCnt : Nat) : Prog Mm Buf (Option Nat) := do
  assert (0 < pgCnt ∧ pgCnt < 3840)
  match ← vaddrGet cur pf pgCnt with
  | none => return none
  | some page =>
    if ← mapPages pf pgCnt page then return some page else return none

def readPage (page : Nat) : Prog Mm Buf Buf := do
  let pte ← getPte page
  if pte.present then
    return (← get).phys pte.frame
  else
    halt .fault

def writePage (page : Nat) (b : Buf) : Prog Mm Buf Unit := do
  let pte ← getPte page
  if pte.present then
    modify (fun m => { m with phys := Function.update m.phys pte.frame b })
  else
    halt .fault

def clearPages : (cnt page : Nat) → Prog Mm Buf Unit
  | 0, _ => return ()
  | cnt + 1, page => do
    writePage page (fun _ => 0)
    clearPages cnt (page + 1)

def getKernelPages (pgCnt : Nat) : Prog Mm Buf (Option Nat) := do
  match ← mallocPage 0 .kernel pgCnt with
  | none => return none
  | some page =>
    clearPages pgCnt page
    return some page

/-- `(vaddr - vaddr_start) / PG_SIZE` of unsigned addresses. -/
def bitOf (page start : Nat) : Nat := (page + 0x100000 - start) % 0x100000

/-- A user process takes a page of its own; any other use is a `PANIC`. -/
def getAPage (cur page : Nat) : Prog Mm Buf (Option Nat) := do
  let t ← getTask cur
  assert t.pgdir.isSome
  let btmp ← t.vaddrBitmap.bitmapSet (bitOf page userVaddrStart) true
  setTask cur { t with vaddrBitmap := btmp }
  match ← palloc .user with
  | none => return none
  | some frame =>
    pageTableAdd page frame
    return some page

def getAPageWithoutOpvaddrbitmap (pf : PoolFlags) (page : Nat) : Prog Mm Buf (Option Nat) := do
  match ← palloc pf with
  | none => return none
  | some frame =>
    pageTableAdd page frame
    return some page

/-- `pfree`, and `free_a_phy_page` word for word. -/
def pfree (frame : Nat) : Prog Mm Buf Unit := do
  let pf := if PoolFlags.user.start ≤ frame then PoolFlags.user else .kernel
  let btmp ← ((← get).pool pf).bitmapSet (bitOf frame pf.start) false
  modify (fun m => m.setPool pf btmp)

def pageTablePteRemove (page : Nat) : Prog Mm Buf Unit := do
  let pte ← getPte page
  setPte page { pte with present := false }

def vaddrRemove (cur : Nat) (pf : PoolFlags) (page pgCnt : Nat) : Prog Mm Buf Unit := do
  match pf with
  | .kernel =>
    let btmp ← bitmapSetRun false pgCnt (bitOf page kHeapStart) (← get).kernelVaddr
    modify (fun m => { m with kernelVaddr := btmp })
  | .user =>
    let t ← getTask cur
    let btmp ← bitmapSetRun false pgCnt (bitOf page userVaddrStart) t.vaddrBitmap
    setTask cur { t with vaddrBitmap := btmp }

/-- The loops of `mfree_page`, one for each pool. -/
def unmapPages (inPool : Nat → Bool) : (pgCnt page : Nat) → Prog Mm Buf Unit
  | 0, _ => return ()
  | pgCnt + 1, page => do
    let pte ← getPte page
    assert (inPool pte.frame)
    pfree pte.frame
    pageTablePteRemove page
    unmapPages inPool pgCnt (page + 1)

def mfreePage (cur : Nat) (pf : PoolFlags) (page pgCnt : Nat) : Prog Mm Buf Unit := do
  assert (1 ≤ pgCnt)
  let pte ← getPte page
  assert (0x102 ≤ pte.frame)
  if PoolFlags.user.start ≤ pte.frame then
    unmapPages (fun frame => PoolFlags.user.start ≤ frame) pgCnt page
  else
    unmapPages (fun frame => PoolFlags.kernel.start ≤ frame ∧ frame < PoolFlags.user.start) pgCnt page
  vaddrRemove cur pf page pgCnt

end Mm

end TrueOs
