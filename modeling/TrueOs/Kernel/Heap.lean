import TrueOs.Kernel.Memory

/-! `kernel/memory.c`: blocks of the heap, `sys_malloc` and `sys_free`.

An arena is found by the page it starts.  Its `desc` is a pointer into some PCB or to the
kernel's own array, so that a page copied elsewhere still has the old one. -/

namespace TrueOs

namespace Mm

/-- Whose heap it is: `k_block_descs` or the `u_block_desc` of a process. -/
inductive Ctx
  | kernel
  | user (p : Nat)
  deriving DecidableEq

def Ctx.pf : Ctx → PoolFlags
  | .kernel => .kernel
  | .user _ => .user

/-- `struct arena`; a descriptor is named by its array and its index. -/
structure Arena where
  desc : Option (Ctx × Nat)
  cnt : Nat
  large : Bool
  deriving DecidableEq

end Mm

/-- `arena` and `held` are by address space and page: what is at the start of the page, and
whether `malloc_page` gave the page to the heap. -/
structure Heap where
  mm : Mm
  freeList : Mm.Ctx → Nat → List Nat
  arena : Mm.Ctx → Nat → Option Mm.Arena
  held : Mm.Ctx → Nat → Bool

namespace Heap

open Prog Mm

def blockSize (i : Nat) : Nat := 16 * 2 ^ i

/-- `(PG_SIZE - sizeof(struct arena)) / block_size`. -/
def blocksPerArena (i : Nat) : Nat := (4096 - 12) / blockSize i

abbrev poolSize : Nat := 480 * 8 * 4096

def arena2block (a idx i : Nat) : Nat := 4096 * a + 12 + idx * blockSize i

def block2arena (b : Nat) : Nat := b / 4096

def ofMm {α : Type} (c : Prog Mm Buf α) : Prog Heap Buf α := ⟨fun h =>
  match (c.on h.mm).run with
  | .ok r => .done r.1 { h with mm := r.2 }
  | .error r => .stop r⟩

/-- The test of `pgdir` at the start of both calls. -/
def context (cur : Nat) : Prog Heap Buf Ctx := do
  let t ← ofMm (getTask cur)
  return if t.pgdir.isNone then .kernel else .user cur

def setFree (h : Heap) (o : Ctx) (i : Nat) (l : List Nat) : Heap :=
  { h with freeList := Function.update h.freeList o (Function.update (h.freeList o) i l) }

def setArena (h : Heap) (ctx : Ctx) (a : Nat) (x : Option Arena) : Heap :=
  { h with arena := Function.update h.arena ctx (Function.update (h.arena ctx) a x) }

def setHeld (h : Heap) (ctx : Ctx) (page pgCnt : Nat) (v : Bool) : Heap :=
  { h with held := Function.update h.held ctx (fun q => if page ≤ q ∧ q < page + pgCnt then v else h.held ctx q) }

/-- `malloc_page`, with a note of what it gave. -/
def takePages (cur : Nat) (ctx : Ctx) (pgCnt : Nat) : Prog Heap Buf (Option Nat) := do
  match ← ofMm (mallocPage cur ctx.pf pgCnt) with
  | none => return none
  | some page =>
    modify (fun h => h.setHeld ctx page pgCnt true)
    return some page

/-- `mfree_page`; the arena goes with its pages. -/
def dropPages (cur : Nat) (ctx : Ctx) (page pgCnt : Nat) : Prog Heap Buf Unit := do
  ofMm (mfreePage cur ctx.pf page pgCnt)
  modify (fun h => (h.setHeld ctx page pgCnt false).setArena ctx page none)

/-- The loop of `sys_malloc` over a new arena. -/
def splitArena (o : Ctx) (i a : Nat) : (left blockIdx : Nat) → Prog Heap Buf Unit
  | 0, _ => return ()
  | left + 1, blockIdx => do
    let b := arena2block a blockIdx i
    assert (b ∉ (← get).freeList o i)
    modify (fun h => h.setFree o i (h.freeList o i ++ [b]))
    splitArena o i a left (blockIdx + 1)

def findDesc (size : Nat) : (left descIdx : Nat) → Nat
  | 0, descIdx => descIdx
  | left + 1, descIdx => if size ≤ blockSize descIdx then descIdx else findDesc size left (descIdx + 1)

def popBlock (ctx : Ctx) (i : Nat) : Prog Heap Buf (Option Nat) := do
  match (← get).freeList ctx i with
  | [] => halt .fault
  | b :: rest =>
    modify (fun h => h.setFree ctx i rest)
    match (← get).arena ctx (block2arena b) with
    | none => halt .fault
    | some x =>
      modify (fun h => h.setArena ctx (block2arena b) (some { x with cnt := x.cnt - 1 }))
      return some b

def sysMalloc (cur size : Nat) : Prog Heap Buf (Option Nat) := do
  let ctx ← context cur
  if ¬(0 < size ∧ size ≤ poolSize) then
    return none
  else if 1024 < size then
    let pageCnt := divRoundUp (size + 12) 4096
    match ← takePages cur ctx pageCnt with
    | none => return none
    | some a =>
      modify (fun h => h.setArena ctx a (some ⟨none, pageCnt, true⟩))
      return some (4096 * a + 12)
  else
    let descIdx := findDesc size 7 0
    if (← get).freeList ctx descIdx = [] then
      match ← takePages cur ctx 1 with
      | none => return none
      | some a =>
        modify (fun h => h.setArena ctx a (some ⟨some (ctx, descIdx), blocksPerArena descIdx, false⟩))
        splitArena ctx descIdx a (blocksPerArena descIdx) 0
        popBlock ctx descIdx
    else
      popBlock ctx descIdx

/-- The loop of `sys_free` over an arena without live blocks. -/
def unlinkBlocks (o : Ctx) (i a : Nat) : (left blockIdx : Nat) → Prog Heap Buf Unit
  | 0, _ => return ()
  | left + 1, blockIdx => do
    let b := arena2block a blockIdx i
    assert (b ∈ (← get).freeList o i)
    modify (fun h => h.setFree o i ((h.freeList o i).erase b))
    unlinkBlocks o i a left (blockIdx + 1)

/-- An arena without a descriptor is a large one; the first words of any other page are no
arena. -/
def sysFree (cur ptr : Nat) : Prog Heap Buf Unit := do
  assert (ptr ≠ 0)
  let ctx ← context cur
  assert (ctx = .kernel → 4096 * kHeapStart ≤ ptr)
  let a := block2arena ptr
  match (← get).arena ctx a with
  | none => halt .fault
  | some x =>
    match x.desc with
    | none => if x.large then dropPages cur ctx a x.cnt else halt .fault
    | some (o, i) =>
      modify (fun h => h.setFree o i (h.freeList o i ++ [ptr]))
      modify (fun h => h.setArena ctx a (some { x with cnt := x.cnt + 1 }))
      if x.cnt + 1 = blocksPerArena i then
        unlinkBlocks o i a (blocksPerArena i) 0
        dropPages cur ctx a 1

end Heap

end TrueOs
