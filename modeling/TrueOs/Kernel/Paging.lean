import Mathlib.Logic.Function.Basic
import TrueOs.Kernel.Bitmap
import TrueOs.Lib.Keeps

/-! The page tables of `kernel/memory.c` in physical memory, reached through the last entry of the page directory,
which maps the directory itself. -/

namespace TrueOs.Paging

open Function (update update_self update_of_ne)
open Prog

abbrev Phys := Nat → Nat

def pdeIdx (addr : Nat) : Nat := (addr &&& 0xFFC00000) >>> 22

def pteIdx (addr : Nat) : Nat := (addr &&& 0x003FF000) >>> 12

def ptePtr (vaddr : Nat) : Nat := (0xFFC00000 + ((vaddr &&& 0xFFC00000) >>> 10) + pteIdx vaddr * 4) % 2 ^ 32

def pdePtr (vaddr : Nat) : Nat := (0xFFFFF000 + pdeIdx vaddr * 4) % 2 ^ 32

def present (entry : Nat) : Bool := entry &&& 0x00000001 == 1

def frameOf (entry : Nat) : Nat := entry &&& 0xfffff000

/-- The walk of the processor from the directory `dir`: top ten bits, next ten bits, offset. -/
def walk (dir : Nat) (m : Phys) (vaddr : Nat) : Option Nat :=
  let pde := m (dir + vaddr / 2 ^ 22 * 4)
  if present pde then
    let pte := m (frameOf pde + vaddr / 2 ^ 12 % 2 ^ 10 * 4)
    if present pte then some (frameOf pte + vaddr % 2 ^ 12) else none
  else
    none

/-- The memory that `setup_page` of the loader leaves if it was clear: the directory at 0x100000, its entries 0 and 768
with one table, and the first megabyte in that table. -/
def setupPage : Phys := fun a =>
  if a = 0x100000 ∨ a = 0x100C00 then 0x101007
  else if a = 0x100FFC then 0x100007
  else if 0x100C04 ≤ a ∧ a < 0x100FFC then 0x102007 + (a - 0x100C04) / 4 * 0x1000
  else if 0x101000 ≤ a ∧ a < 0x101400 then (a - 0x101000) / 4 * 0x1000 + 7
  else 0

/-- `*pte` is read through the page tables. -/
def addrV2p (dir : Nat) (m : Phys) (vaddr : Nat) : Option Nat :=
  (walk dir m (ptePtr vaddr)).map (fun a => (m a &&& 0xfffff000) + (vaddr &&& 0x00000fff))

structure SelfMap (dir : Nat) (m : Phys) : Prop where
  present : present (m (dir + 1023 * 4)) = true
  frame : frameOf (m (dir + 1023 * 4)) = dir

/-- `dir` is what `cr3` holds. -/
structure Machine where
  phys : Phys
  dir : Nat
  kernelPool : Bitmap
  phyAddrStart : Nat

def load (addr : Nat) : Prog Machine Buf Nat := do
  match walk (← get).dir (← get).phys addr with
  | some a => return (← get).phys a
  | none => halt .fault

def store (addr value : Nat) : Prog Machine Buf Unit := do
  match walk (← get).dir (← get).phys addr with
  | some a => modify (fun s => { s with phys := update s.phys a value })
  | none => halt .fault

def palloc : Prog Machine Buf (Option Nat) := do
  match ← Bitmap.bitmapScan (← get).kernelPool 1 with
  | none => return none
  | some bitIdx =>
    let btmp ← (← get).kernelPool.bitmapSet bitIdx true
    modify (fun s => { s with kernelPool := btmp })
    return some (bitIdx * 4096 + (← get).phyAddrStart)

/-- `memset` of `n` words from word `k` on. -/
def clearWords (addr : Nat) : (n k : Nat) → Prog Machine Buf Unit
  | 0, _ => return ()
  | n + 1, k => do
    store (addr + k * 4) 0
    clearWords addr n (k + 1)

/-- The end of both branches.  Behind the assertion the `PANIC` is not reached. -/
def enterPage (pte pagePhyaddr : Nat) : Prog Machine Buf Unit := do
  let entry ← load pte
  assert (!present entry)
  store pte (pagePhyaddr ||| 7)

/-- NULL from `palloc` would be the frame 0. -/
def pageTableAdd (vaddr pagePhyaddr : Nat) : Prog Machine Buf Unit := do
  let pde := pdePtr vaddr
  let pte := ptePtr vaddr
  let entry ← load pde
  if present entry then
    enterPage pte pagePhyaddr
  else
    let pdePhyaddr := (← palloc).getD 0
    store pde (pdePhyaddr ||| 7)
    clearWords (pte &&& 0xFFFFF000) 1024 0
    enterPage pte pagePhyaddr

/-- `invlpg` gets the address of the local variable; translations are not cached here. -/
def pageTablePteRemove (vaddr : Nat) : Prog Machine Buf Unit := do
  let pte := ptePtr vaddr
  let entry ← load pte
  store pte (entry &&& 0xFFFFFFFE)

section Fields

variable {v : Nat}

theorem pdeIdx_eq (hv : v < 2 ^ 32) : pdeIdx v = v / 2 ^ 22 := by
  rw [pdeIdx, Nat.shiftRight_and_distrib, Nat.shiftRight_eq_div_pow]
  change v / 2 ^ 22 &&& (2 ^ 10 - 1) = _
  rw [Nat.and_two_pow_sub_one_eq_mod]
  omega

theorem pteIdx_eq (v : Nat) : pteIdx v = v / 2 ^ 12 % 2 ^ 10 := by
  rw [pteIdx, Nat.shiftRight_and_distrib, Nat.shiftRight_eq_div_pow]
  exact Nat.and_two_pow_sub_one_eq_mod _ 10

theorem tableField_eq (hv : v < 2 ^ 32) : (v &&& 0xFFC00000) >>> 10 = v / 2 ^ 22 * 2 ^ 12 := by
  have h := pdeIdx_eq hv
  rw [pdeIdx, Nat.shiftRight_eq_div_pow] at h
  have hmod : (v &&& 0xFFC00000) % 2 ^ 22 = 0 := by
    rw [Nat.and_mod_two_pow]
    exact Nat.and_zero _
  rw [Nat.shiftRight_eq_div_pow]
  omega

theorem ptePtr_eq (hv : v < 2 ^ 32) :
    ptePtr v = 0xFFC00000 + v / 2 ^ 22 * 2 ^ 12 + v / 2 ^ 12 % 2 ^ 10 * 4 := by
  rw [ptePtr, tableField_eq hv, pteIdx_eq]
  omega

theorem pdePtr_eq (hv : v < 2 ^ 32) : pdePtr v = 0xFFFFF000 + v / 2 ^ 22 * 4 := by
  rw [pdePtr, pdeIdx_eq hv]
  omega

theorem offset_eq (v : Nat) : v &&& 0x00000fff = v % 2 ^ 12 := Nat.and_two_pow_sub_one_eq_mod v 12

end Fields

section SelfMap

variable {dir v : Nat} {m : Phys}

theorem SelfMap.walk_eq (h : SelfMap dir m) {a : Nat} (ha : a / 2 ^ 22 = 1023)
    (hp : Paging.present (m (dir + a / 2 ^ 12 % 2 ^ 10 * 4)) = true) :
    walk dir m a = some (frameOf (m (dir + a / 2 ^ 12 % 2 ^ 10 * 4)) + a % 2 ^ 12) := by
  simp only [walk, ha, h.present, h.frame, if_true, hp]

theorem walk_ptePtr (h : SelfMap dir m) (hv : v < 2 ^ 32) (hp : Paging.present (m (dir + v / 2 ^ 22 * 4)) = true) :
    walk dir m (ptePtr v) = some (frameOf (m (dir + v / 2 ^ 22 * 4)) + v / 2 ^ 12 % 2 ^ 10 * 4) := by
  have hptr := ptePtr_eq hv
  have htop : ptePtr v / 2 ^ 22 = 1023 := by omega
  have hmid : ptePtr v / 2 ^ 12 % 2 ^ 10 = v / 2 ^ 22 := by omega
  have hoff : ptePtr v % 2 ^ 12 = v / 2 ^ 12 % 2 ^ 10 * 4 := by omega
  rw [h.walk_eq htop (by rw [hmid]; exact hp), hmid, hoff]

theorem walk_pdePtr (h : SelfMap dir m) (hv : v < 2 ^ 32) : walk dir m (pdePtr v) = some (dir + v / 2 ^ 22 * 4) := by
  have hptr := pdePtr_eq hv
  have htop : pdePtr v / 2 ^ 22 = 1023 := by omega
  have hmid : pdePtr v / 2 ^ 12 % 2 ^ 10 = 1023 := by omega
  have hoff : pdePtr v % 2 ^ 12 = v / 2 ^ 22 * 4 := by omega
  rw [h.walk_eq htop (by rw [hmid]; exact h.present), hmid, hoff, h.frame]

theorem addrV2p_eq (h : SelfMap dir m) (hv : v < 2 ^ 32) (hp : Paging.present (m (dir + v / 2 ^ 22 * 4)) = true) :
    addrV2p dir m v =
      some (frameOf (m (frameOf (m (dir + v / 2 ^ 22 * 4)) + v / 2 ^ 12 % 2 ^ 10 * 4)) + v % 2 ^ 12) := by
  rw [addrV2p, walk_ptePtr h hv hp, Option.map_some, offset_eq]
  rfl

theorem addrV2p_of_walk (h : SelfMap dir m) (hv : v < 2 ^ 32)
    (hp : Paging.present (m (dir + v / 2 ^ 22 * 4)) = true) (a : Nat) (ha : walk dir m v = some a) :
    addrV2p dir m v = some a := by
  rw [addrV2p_eq h hv hp, ← ha]
  simp only [walk, hp, if_true] at ha ⊢
  split at ha
  · next hpte => rw [if_pos hpte]
  · cases ha

/-- The pointers reach the entries of `v`, and `addr_v2p` agrees with the walk of a page that is mapped. -/
theorem self_map_pointers (h : SelfMap dir m) (hv : v < 2 ^ 32)
    (hp : Paging.present (m (dir + v / 2 ^ 22 * 4)) = true) :
    walk dir m (ptePtr v) = some (frameOf (m (dir + v / 2 ^ 22 * 4)) + v / 2 ^ 12 % 2 ^ 10 * 4) ∧
    walk dir m (pdePtr v) = some (dir + v / 2 ^ 22 * 4) ∧
    ∀ a, walk dir m v = some a → addrV2p dir m v = some a :=
  ⟨walk_ptePtr h hv hp, walk_pdePtr h hv, addrV2p_of_walk h hv hp⟩

theorem setupPage_selfMap : SelfMap 0x100000 setupPage := ⟨by decide, by decide⟩

theorem kernel_pointers : walk 0x100000 setupPage (ptePtr 0xC0001234) = some 0x101004 ∧
    walk 0x100000 setupPage (pdePtr 0xC0001234) = some 0x100C00 ∧
    addrV2p 0x100000 setupPage 0xC0001234 = some 0x1234 := by
  obtain ⟨hpte, hpde, hv2p⟩ := self_map_pointers (v := 0xC0001234) setupPage_selfMap (by decide) (by decide)
  exact ⟨hpte.trans (by decide), hpde.trans (by decide), hv2p 0x1234 (by decide)⟩

end SelfMap

section Entries

theorem frameOf_mod (e : Nat) : frameOf e % 2 ^ 12 = 0 := by
  rw [frameOf, Nat.and_mod_two_pow]
  exact Nat.and_zero _

theorem frameOf_of_lt {e : Nat} (he : e < 2 ^ 32) : frameOf e = e / 2 ^ 12 * 2 ^ 12 := by
  have hmod := frameOf_mod e
  have hdiv : frameOf e / 2 ^ 12 = e / 2 ^ 12 := by
    rw [frameOf, ← Nat.shiftRight_eq_div_pow, Nat.shiftRight_and_distrib, Nat.shiftRight_eq_div_pow]
    change e / 2 ^ 12 &&& (2 ^ 20 - 1) = _
    rw [Nat.and_two_pow_sub_one_eq_mod]
    omega
  omega

theorem frameOf_eq {p : Nat} (hp : p % 2 ^ 12 = 0) (hlt : p < 2 ^ 32) : frameOf p = p := by
  rw [frameOf_of_lt hlt]
  omega

theorem frameOf_flags {p : Nat} (hp : p % 2 ^ 12 = 0) (hlt : p < 2 ^ 32) : frameOf (p ||| 7) = p := by
  have h := frameOf_eq hp hlt
  rw [frameOf] at h ⊢
  rw [Nat.and_or_distrib_right, h]
  exact Nat.or_zero p

theorem present_flags (p : Nat) : present (p ||| 7) = true := by
  rw [present, Nat.and_or_distrib_right, beq_iff_eq, Nat.and_one_is_mod]
  rcases Nat.mod_two_eq_zero_or_one p with h | h <;> rw [h] <;> rfl

theorem present_removed (e : Nat) : present (e &&& 0xFFFFFFFE) = false := by
  rw [present, Nat.and_assoc]
  exact congrArg (· == 1) (Nat.and_zero e)

end Entries

section Stores

variable {s : Machine} {a pa w : Nat}

theorem run_load (h : walk s.dir s.phys a = some pa) : ((load a).on s).run = .ok (s.phys pa, s) := by
  rw [load, run_seq (a := s) (t := s) rfl, run_seq (a := s) (t := s) rfl, h]
  rfl

theorem run_store (h : walk s.dir s.phys a = some pa) :
    ((store a w).on s).run = .ok ((), { s with phys := update s.phys pa w }) := by
  rw [store, run_seq (a := s) (t := s) rfl, run_seq (a := s) (t := s) rfl, h]
  rfl

theorem run_enterPage {p : Nat} (h : walk s.dir s.phys a = some pa) (hp : present (s.phys pa) = false) :
    ((enterPage a p).on s).run = .ok ((), { s with phys := update s.phys pa (p ||| 7) }) := by
  have habs : (!present (s.phys pa)) = true := by
    rw [hp]
    rfl
  rw [enterPage, run_seq (run_load h), run_seq (run_assert habs s)]
  exact run_store h

def cleared (f : Nat) : (n k : Nat) → Phys → Phys
  | 0, _, m => m
  | n + 1, k, m => cleared f n (k + 1) (update m (f + k * 4) 0)

theorem cleared_of_ne {f : Nat} (n k : Nat) (m : Phys) (h : ∀ j, k ≤ j → j < k + n → a ≠ f + j * 4) :
    cleared f n k m a = m a := by
  induction n generalizing k m with
  | zero => rfl
  | succ n ih =>
    rw [cleared, ih (k + 1) _ fun j hj hlt => h j (by omega) (by omega)]
    exact update_of_ne (h k (by omega) (by omega)) _ _

theorem cleared_of_lt {f j : Nat} (n k : Nat) (m : Phys) (hk : k ≤ j) (hj : j < k + n) :
    cleared f n k m (f + j * 4) = 0 := by
  induction n generalizing k m with
  | zero => omega
  | succ n ih =>
    by_cases he : j = k
    · subst he
      rw [cleared, cleared_of_ne n (j + 1) _ fun i hi _ => by omega]
      exact update_self _ _ _
    · exact ih (k + 1) _ (by omega) (by omega)

end Stores

def SoleTable (dir : Nat) (m : Phys) (i t : Nat) : Prop :=
  ∀ k < 1024, k ≠ i → present (m (dir + k * 4)) = true → frameOf (m (dir + k * 4)) ≠ t

section Walk

variable {dir f v u : Nat} {m m' : Phys}

theorem SelfMap.dir_mod (h : SelfMap dir m) : dir % 2 ^ 12 = 0 := h.frame ▸ frameOf_mod _

theorem walk_congr (hd : m' (dir + u / 2 ^ 22 * 4) = m (dir + u / 2 ^ 22 * 4))
    (ht : present (m (dir + u / 2 ^ 22 * 4)) = true →
      m' (frameOf (m (dir + u / 2 ^ 22 * 4)) + u / 2 ^ 12 % 2 ^ 10 * 4) =
        m (frameOf (m (dir + u / 2 ^ 22 * 4)) + u / 2 ^ 12 % 2 ^ 10 * 4)) : walk dir m' u = walk dir m u := by
  simp only [walk]
  rw [hd]
  by_cases hp : present (m (dir + u / 2 ^ 22 * 4)) = true
  · rw [if_pos hp, if_pos hp, ht hp]
  · rw [if_neg hp, if_neg hp]

theorem SelfMap.congr (h : SelfMap dir m) (he : m' (dir + 1023 * 4) = m (dir + 1023 * 4)) : SelfMap dir m' :=
  ⟨he ▸ h.present, he ▸ h.frame⟩

theorem SoleTable.ne_dir (hs : SelfMap dir m) {i : Nat} (h : SoleTable dir m i f) (hi : i ≠ 1023) : f ≠ dir := by
  have hne := h 1023 (by decide) hi.symm hs.present
  rw [hs.frame] at hne
  exact hne.symm

theorem dir_ne_entry (hs : SelfMap dir m) (hf : f % 2 ^ 12 = 0) (hne : f ≠ dir) {k j : Nat} (hk : k < 1024) (hj : j < 1024) :
    dir + k * 4 ≠ f + j * 4 := by
  have := hs.dir_mod
  omega

theorem walk_of_entry (hp : present (m (dir + v / 2 ^ 22 * 4)) = true) {o : Nat} (hv : v % 2 ^ 12 = 0) (ho : o < 2 ^ 12) :
    walk dir m (v + o) =
      if present (m (frameOf (m (dir + v / 2 ^ 22 * 4)) + v / 2 ^ 12 % 2 ^ 10 * 4)) then
        some (frameOf (m (frameOf (m (dir + v / 2 ^ 22 * 4)) + v / 2 ^ 12 % 2 ^ 10 * 4)) + o) else none := by
  have htop : (v + o) / 2 ^ 22 = v / 2 ^ 22 := by omega
  have hmid : (v + o) / 2 ^ 12 % 2 ^ 10 = v / 2 ^ 12 % 2 ^ 10 := by omega
  have hoff : (v + o) % 2 ^ 12 = o := by omega
  simp only [walk, htop, hmid, hoff, hp, if_true]

end Walk

section Entry

variable {dir v u w : Nat} {m : Phys}

structure EntrySet (dir v : Nat) (m m' : Phys) : Prop where
  entries : ∀ k < 1024, m' (dir + k * 4) = m (dir + k * 4)
  others : ∀ u < 2 ^ 32, u / 2 ^ 12 ≠ v / 2 ^ 12 → walk dir m' u = walk dir m u

theorem entrySet (hs : SelfMap dir m) (hv : v < 0xFFC00000)
    (hsole : SoleTable dir m (v / 2 ^ 22) (frameOf (m (dir + v / 2 ^ 22 * 4)))) (w : Nat) :
    EntrySet dir v m (update m (frameOf (m (dir + v / 2 ^ 22 * 4)) + v / 2 ^ 12 % 2 ^ 10 * 4) w) := by
  have hf := frameOf_mod (m (dir + v / 2 ^ 22 * 4))
  have hne := hsole.ne_dir hs (by omega)
  have hentries : ∀ k < 1024, update m (frameOf (m (dir + v / 2 ^ 22 * 4)) + v / 2 ^ 12 % 2 ^ 10 * 4) w
      (dir + k * 4) = m (dir + k * 4) := by
    intro k hk
    exact update_of_ne (dir_ne_entry hs hf hne hk (by omega)) _ _
  refine ⟨hentries, fun u hu hpage => walk_congr (hentries _ (by omega)) fun hpu => ?_⟩
  refine update_of_ne (fun heq => ?_) _ _
  have hfu := frameOf_mod (m (dir + u / 2 ^ 22 * 4))
  -- two entries at one place are in one table, which only the entry of `v` names
  have hframe : frameOf (m (dir + u / 2 ^ 22 * 4)) = frameOf (m (dir + v / 2 ^ 22 * 4)) := by omega
  by_cases htop : u / 2 ^ 22 = v / 2 ^ 22
  · omega
  · exact hsole _ (by omega) htop hpu hframe

theorem EntrySet.selfMap {m' : Phys} (h : EntrySet dir v m m') (hs : SelfMap dir m) : SelfMap dir m' :=
  hs.congr (h.entries 1023 (by decide))

theorem EntrySet.sole {m' : Phys} {i t : Nat} (h : EntrySet dir v m m') (hs : SoleTable dir m i t) : SoleTable dir m' i t := by
  intro k hk hi
  rw [h.entries k hk]
  exact hs k hk hi

end Entry

section Table

variable {dir v f : Nat} {m : Phys}

structure TableMade (dir v f : Nat) (m m' : Phys) : Prop where
  entries : ∀ k < 1024, k ≠ v / 2 ^ 22 → m' (dir + k * 4) = m (dir + k * 4)
  entry : m' (dir + v / 2 ^ 22 * 4) = f ||| 7
  words : ∀ j < 1024, m' (f + j * 4) = 0
  others : ∀ u < 2 ^ 32, u / 2 ^ 12 ≠ 0xFFC00 + v / 2 ^ 22 → walk dir m' u = walk dir m u

def withTable (dir v f : Nat) (m : Phys) : Phys := cleared f 1024 0 (update m (dir + v / 2 ^ 22 * 4) (f ||| 7))

theorem withTable_of_ne {a : Nat} (ha : ∀ j < 1024, a ≠ f + j * 4) (hd : a ≠ dir + v / 2 ^ 22 * 4) :
    withTable dir v f m a = m a := by
  rw [withTable, cleared_of_ne 1024 0 _ fun j _ hj => ha j (by omega)]
  exact update_of_ne hd _ _

theorem tableMade (hs : SelfMap dir m) (hv : v < 0xFFC00000) (hf : f % 2 ^ 12 = 0) (hlt : f < 2 ^ 32)
    (habs : present (m (dir + v / 2 ^ 22 * 4)) = false) (hsole : SoleTable dir m (v / 2 ^ 22) f)
    (hdir : SoleTable dir m 1023 dir) : TableMade dir v f m (withTable dir v f m) := by
  have hne := hsole.ne_dir hs (by omega)
  have hmod := hs.dir_mod
  have hentries : ∀ k < 1024, k ≠ v / 2 ^ 22 → withTable dir v f m (dir + k * 4) = m (dir + k * 4) := by
    intro k hk hki
    exact withTable_of_ne (fun j hj => dir_ne_entry hs hf hne hk hj) (by omega)
  have hentry : withTable dir v f m (dir + v / 2 ^ 22 * 4) = f ||| 7 := by
    rw [withTable, cleared_of_ne 1024 0 _ fun j _ hj => dir_ne_entry hs hf hne (by omega) (by omega)]
    exact update_self _ _ _
  have hwords : ∀ j < 1024, withTable dir v f m (f + j * 4) = 0 := fun j hj =>
    cleared_of_lt 1024 0 _ (Nat.zero_le j) (by omega)
  refine ⟨hentries, hentry, hwords, fun u hu hpage => ?_⟩
  by_cases htop : u / 2 ^ 22 = v / 2 ^ 22
  · -- the table of `v` was missing, and now it is empty
    simp only [walk, htop, habs, hentry, present_flags, frameOf_flags hf hlt, if_true]
    rw [hwords _ (by omega)]
    rfl
  · refine walk_congr (hentries _ (by omega) htop) fun hpu => withTable_of_ne (fun j hj heq => ?_) fun heq => ?_
    · have hfu := frameOf_mod (m (dir + u / 2 ^ 22 * 4))
      exact hsole _ (by omega) htop hpu (by omega)
    · -- only the last entry reads the directory as a table
      have hfu := frameOf_mod (m (dir + u / 2 ^ 22 * 4))
      have hframe : frameOf (m (dir + u / 2 ^ 22 * 4)) = dir := by omega
      by_cases hlast : u / 2 ^ 22 = 1023
      · omega
      · exact hdir _ (by omega) hlast hpu hframe

theorem run_clearWords {s : Machine} (hs : SelfMap s.dir s.phys) {i addr : Nat} (haddr : addr = 0xFFC00000 + i * 2 ^ 12)
    (hi : i < 1023) (hf : f % 2 ^ 12 = 0) (hlt : f < 2 ^ 32) (hne : f ≠ s.dir)
    (he : s.phys (s.dir + i * 4) = f ||| 7) (n k : Nat) (hk : k + n ≤ 1024) :
    ((clearWords addr n k).on s).run = .ok ((), { s with phys := cleared f n k s.phys }) := by
  induction n generalizing k s with
  | zero => rfl
  | succ n ih =>
    have htop : (addr + k * 4) / 2 ^ 22 = 1023 := by omega
    have hmid : (addr + k * 4) / 2 ^ 12 % 2 ^ 10 = i := by omega
    have hoff : (addr + k * 4) % 2 ^ 12 = k * 4 := by omega
    have hwalk : walk s.dir s.phys (addr + k * 4) = some (f + k * 4) := by
      rw [hs.walk_eq htop (by rw [hmid, he]; exact present_flags f), hmid, hoff, he, frameOf_flags hf hlt]
    have hkeep : ∀ j < 1024, update s.phys (f + k * 4) 0 (s.dir + j * 4) = s.phys (s.dir + j * 4) := fun j hj =>
      update_of_ne (dir_ne_entry hs hf hne hj (by omega)) _ _
    rw [clearWords, run_seq (run_store hwalk)]
    exact ih (s := { s with phys := update s.phys (f + k * 4) 0 }) (hs.congr (hkeep 1023 (by decide))) hne
      ((hkeep i (by omega)).trans he) (k + 1) (by omega)

end Table

/-- The page of `v` is mapped to `p`, and every other page as before.  A new table appears at its page of the self-map. -/
structure PageAdded (dir v p : Nat) (m m' : Phys) : Prop where
  page : ∀ o < 2 ^ 12, addrV2p dir m' (v + o) = some (p + o) ∧ walk dir m' (v + o) = some (p + o)
  others : ∀ u < 2 ^ 32, u / 2 ^ 12 ≠ v / 2 ^ 12 →
    present (m (dir + v / 2 ^ 22 * 4)) = true ∨ u / 2 ^ 12 ≠ 0xFFC00 + v / 2 ^ 22 → walk dir m' u = walk dir m u
  fresh : present (m (dir + v / 2 ^ 22 * 4)) = false →
    ∀ u < 2 ^ 32, u / 2 ^ 22 = v / 2 ^ 22 → u / 2 ^ 12 ≠ v / 2 ^ 12 → walk dir m' u = none

structure PageRemoved (dir v : Nat) (m m' : Phys) : Prop where
  page : ∀ o < 2 ^ 12, walk dir m' (v + o) = none
  others : ∀ u < 2 ^ 32, u / 2 ^ 12 ≠ v / 2 ^ 12 → walk dir m' u = walk dir m u

/-- What the mapping of `v` needs: its table, or the frame `f` for a new one, is named by no other directory entry. -/
structure Separate (s : Machine) (v f : Nat) : Prop where
  table : present (s.phys (s.dir + v / 2 ^ 22 * 4)) = true →
    SoleTable s.dir s.phys (v / 2 ^ 22) (frameOf (s.phys (s.dir + v / 2 ^ 22 * 4)))
  frame : present (s.phys (s.dir + v / 2 ^ 22 * 4)) = false → SoleTable s.dir s.phys (v / 2 ^ 22) f
  dir : present (s.phys (s.dir + v / 2 ^ 22 * 4)) = false → SoleTable s.dir s.phys 1023 s.dir

def FrameFor (s : Machine) (v f : Nat) : Prop :=
  present (s.phys (s.dir + v / 2 ^ 22 * 4)) = false →
    (∃ pool, (palloc.on s).run = .ok (some f, { s with kernelPool := pool })) ∧ f % 2 ^ 12 = 0 ∧ f < 2 ^ 32

section Add

variable {s : Machine} {dir v p f : Nat} {m : Phys}

def entryAt (dir : Nat) (m : Phys) (v : Nat) : Nat := frameOf (m (dir + v / 2 ^ 22 * 4)) + v / 2 ^ 12 % 2 ^ 10 * 4

theorem walk_entry (hs : SelfMap dir m) (hv : v < 0xFFC00000) (hva : v % 2 ^ 12 = 0)
    (hp : present (m (dir + v / 2 ^ 22 * 4)) = true)
    (hsole : SoleTable dir m (v / 2 ^ 22) (frameOf (m (dir + v / 2 ^ 22 * 4)))) (w : Nat) {o : Nat} (ho : o < 2 ^ 12) :
    walk dir (update m (entryAt dir m v) w) (v + o) = if present w then some (frameOf w + o) else none := by
  have hkeep := (entrySet hs hv hsole w).entries (v / 2 ^ 22) (by omega)
  rw [← entryAt] at hkeep
  rw [walk_of_entry (by rw [hkeep]; exact hp) hva ho, hkeep, ← entryAt, update_self]

theorem added_of_entry (hs : SelfMap dir m) (hv : v < 0xFFC00000) (hva : v % 2 ^ 12 = 0)
    (hp : present (m (dir + v / 2 ^ 22 * 4)) = true)
    (hsole : SoleTable dir m (v / 2 ^ 22) (frameOf (m (dir + v / 2 ^ 22 * 4)))) (hpa : p % 2 ^ 12 = 0)
    (hlt : p < 2 ^ 32) {o : Nat} (ho : o < 2 ^ 12) :
    addrV2p dir (update m (entryAt dir m v) (p ||| 7)) (v + o) = some (p + o) ∧
      walk dir (update m (entryAt dir m v) (p ||| 7)) (v + o) = some (p + o) := by
  have hset := entrySet hs hv hsole (p ||| 7)
  rw [← entryAt] at hset
  have hwalk := walk_entry hs hv hva hp hsole (p ||| 7) ho
  rw [present_flags, if_pos rfl, frameOf_flags hpa hlt] at hwalk
  have htop : (v + o) / 2 ^ 22 = v / 2 ^ 22 := by omega
  refine ⟨addrV2p_of_walk (hset.selfMap hs) (by omega) ?_ _ hwalk, hwalk⟩
  rw [htop, hset.entries _ (by omega)]
  exact hp

theorem entry_absent (hp : present (m (dir + v / 2 ^ 22 * 4)) = true) (hun : walk dir m v = none) :
    present (m (entryAt dir m v)) = false := by
  rw [entryAt]
  simp only [walk, hp, if_true] at hun
  split at hun
  · cases hun
  · next h => simpa using h

theorem run_enterPage_ptr (hs : SelfMap s.dir s.phys) (hv : v < 2 ^ 32)
    (hp : present (s.phys (s.dir + v / 2 ^ 22 * 4)) = true)
    (habs : present (s.phys (entryAt s.dir s.phys v)) = false) (p : Nat) : ((enterPage (ptePtr v) p).on s).run =
      .ok ((), { s with phys := update s.phys (entryAt s.dir s.phys v) (p ||| 7) }) :=
  run_enterPage (walk_ptePtr hs hv hp) habs

theorem run_add_present (hs : SelfMap s.dir s.phys) (hv : v < 0xFFC00000)
    (hp : present (s.phys (s.dir + v / 2 ^ 22 * 4)) = true) (hun : walk s.dir s.phys v = none) :
    ((pageTableAdd v p).on s).run =
      .ok ((), { s with phys := update s.phys (entryAt s.dir s.phys v) (p ||| 7) }) := by
  rw [pageTableAdd]
  dsimp only
  rw [run_seq (run_load (walk_pdePtr hs (by omega))), if_pos hp]
  exact run_enterPage_ptr hs (by omega) hp (entry_absent hp hun) p

theorem ptePtr_page (hv : v < 2 ^ 32) : ptePtr v &&& 0xFFFFF000 = 0xFFC00000 + v / 2 ^ 22 * 2 ^ 12 := by
  have hptr := ptePtr_eq hv
  have hframe := frameOf_of_lt (e := ptePtr v) (by omega)
  rw [frameOf] at hframe
  rw [hframe]
  omega

theorem TableMade.selfMap {m' : Phys} (h : TableMade dir v f m m') (hs : SelfMap dir m) (hv : v < 0xFFC00000) :
    SelfMap dir m' :=
  hs.congr (h.entries 1023 (by decide) (by omega))

theorem TableMade.sole {m' : Phys} (h : TableMade dir v f m m') (hsole : SoleTable dir m (v / 2 ^ 22) f) :
    SoleTable dir m' (v / 2 ^ 22) f := by
  intro k hk hki
  rw [h.entries k hk hki]
  exact hsole k hk hki

theorem TableMade.entryAt {m' : Phys} (h : TableMade dir v f m m') (hf : f % 2 ^ 12 = 0) (hlt : f < 2 ^ 32) :
    entryAt dir m' v = f + v / 2 ^ 12 % 2 ^ 10 * 4 := by
  rw [Paging.entryAt, h.entry, frameOf_flags hf hlt]

theorem run_add_absent {pool : Bitmap} {m' : Phys} (hs : SelfMap s.dir s.phys) (hv : v < 0xFFC00000)
    (habs : present (s.phys (s.dir + v / 2 ^ 22 * 4)) = false)
    (hpal : (palloc.on s).run = .ok (some f, { s with kernelPool := pool })) (hf : f % 2 ^ 12 = 0) (hlt : f < 2 ^ 32)
    (hm : m' = withTable s.dir v f s.phys) (hmade : TableMade s.dir v f s.phys m') (hne : f ≠ s.dir) :
    ((pageTableAdd v p).on s).run = .ok ((), { s with
      kernelPool := pool
      phys := update m' (entryAt s.dir m' v) (p ||| 7) }) := by
  have hv32 : v < 2 ^ 32 := by omega
  have hmod := hs.dir_mod
  -- the store that makes the table visible is not to the last entry
  have hself : SelfMap s.dir (update s.phys (s.dir + v / 2 ^ 22 * 4) (f ||| 7)) :=
    hs.congr (update_of_ne (by omega) _ _)
  have hsee : present (m' (s.dir + v / 2 ^ 22 * 4)) = true := by
    rw [hmade.entry]
    exact present_flags f
  have hzero : present (m' (entryAt s.dir m' v)) = false := by
    rw [hmade.entryAt hf hlt, hmade.words _ (by omega)]
    rfl
  have hstore := run_store (s := { s with kernelPool := pool }) (w := f ||| 7) (walk_pdePtr hs hv32)
  have hclear := run_clearWords (s := { s with
    kernelPool := pool
    phys := update s.phys (s.dir + v / 2 ^ 22 * 4) (f ||| 7) }) hself (ptePtr_page hv32) (by omega) hf hlt hne
    (update_self _ _ _) 1024 0 (by omega)
  have henter := run_enterPage_ptr (s := { s with kernelPool := pool, phys := m' }) (hmade.selfMap hs hv) hv32 hsee hzero p
  dsimp only at hclear
  rw [← withTable, ← hm] at hclear
  rw [pageTableAdd]
  dsimp only
  rw [run_seq (run_load (walk_pdePtr hs hv32)), if_neg (by rw [habs]; exact Bool.false_ne_true), run_seq hpal,
    Option.getD_some, run_seq hstore, run_seq hclear]
  exact henter

theorem run_remove (hs : SelfMap s.dir s.phys) (hv : v < 0xFFC00000)
    (hp : present (s.phys (s.dir + v / 2 ^ 22 * 4)) = true) :
    ((pageTablePteRemove v).on s).run = .ok ((), { s with
      phys := update s.phys (entryAt s.dir s.phys v) (s.phys (entryAt s.dir s.phys v) &&& 0xFFFFFFFE) }) := by
  have hwalk := walk_ptePtr hs (by omega : v < 2 ^ 32) hp
  rw [pageTablePteRemove, run_seq (run_load hwalk)]
  exact run_store hwalk

theorem exists_remove (hs : SelfMap s.dir s.phys) (hv : v < 0xFFC00000) (hva : v % 2 ^ 12 = 0)
    (hp : present (s.phys (s.dir + v / 2 ^ 22 * 4)) = true)
    (hsole : SoleTable s.dir s.phys (v / 2 ^ 22) (frameOf (s.phys (s.dir + v / 2 ^ 22 * 4)))) :
    ∃ t, ((pageTablePteRemove v).on s).run = .ok ((), t) ∧ PageRemoved s.dir v s.phys t.phys := by
  refine ⟨_, run_remove hs hv hp, fun o ho => ?_, (entrySet hs hv hsole _).others⟩
  rw [walk_entry hs hv hva hp hsole _ ho, present_removed]
  rfl

theorem exists_add (hs : SelfMap s.dir s.phys) (hv : v < 0xFFC00000) (hun : walk s.dir s.phys v = none)
    (hframe : FrameFor s v f) (hsep : Separate s v f) (p : Nat) : ∃ pool m,
      ((pageTableAdd v p).on s).run = .ok ((), { s with
        kernelPool := pool
        phys := update m (entryAt s.dir m v) (p ||| 7) }) ∧
      SelfMap s.dir m ∧ present (m (s.dir + v / 2 ^ 22 * 4)) = true ∧
      SoleTable s.dir m (v / 2 ^ 22) (frameOf (m (s.dir + v / 2 ^ 22 * 4))) ∧
      ∀ u < 2 ^ 32, present (s.phys (s.dir + v / 2 ^ 22 * 4)) = true ∨ u / 2 ^ 12 ≠ 0xFFC00 + v / 2 ^ 22 →
        walk s.dir m u = walk s.dir s.phys u := by
  cases hp : present (s.phys (s.dir + v / 2 ^ 22 * 4)) with
  | true => exact ⟨s.kernelPool, s.phys, run_add_present hs hv hp hun, hs, hp, hsep.table hp, fun _ _ _ => rfl⟩
  | false =>
    obtain ⟨⟨pool, hpal⟩, hf, hlt⟩ := hframe hp
    have hsole := hsep.frame hp
    have hmade := tableMade hs hv hf hlt hp hsole (hsep.dir hp)
    refine ⟨pool, _, run_add_absent hs hv hp hpal hf hlt rfl hmade (hsole.ne_dir hs (by omega)), hmade.selfMap hs hv, ?_, ?_,
      fun u hu hor => hmade.others u hu (hor.resolve_left (by decide))⟩
    · rw [hmade.entry]
      exact present_flags f
    · rw [hmade.entry, frameOf_flags hf hlt]
      exact hmade.sole hsole

theorem page_table_add_remove (hs : SelfMap s.dir s.phys) (hv : v < 0xFFC00000) (hva : v % 2 ^ 12 = 0)
    (hun : walk s.dir s.phys v = none) (hpa : p % 2 ^ 12 = 0) (hlt : p < 2 ^ 32) (hframe : FrameFor s v f)
    (hsep : Separate s v f) : ∃ t, ((pageTableAdd v p).on s).run = .ok ((), t) ∧ PageAdded s.dir v p s.phys t.phys ∧
      ∃ t', ((pageTablePteRemove v).on t).run = .ok ((), t') ∧ PageRemoved s.dir v t.phys t'.phys := by
  obtain ⟨pool, m, hrun, hself, hsee, hsole, hsame⟩ := exists_add hs hv hun hframe hsep p
  have hset := entrySet hself hv hsole (p ||| 7)
  rw [← entryAt] at hset
  have hothers : ∀ u < 2 ^ 32, u / 2 ^ 12 ≠ v / 2 ^ 12 →
      present (s.phys (s.dir + v / 2 ^ 22 * 4)) = true ∨ u / 2 ^ 12 ≠ 0xFFC00 + v / 2 ^ 22 →
        walk s.dir (update m (entryAt s.dir m v) (p ||| 7)) u = walk s.dir s.phys u :=
    fun u hu hpage hor => (hset.others u hu hpage).trans (hsame u hu hor)
  have hentry := hset.entries (v / 2 ^ 22) (by omega)
  refine ⟨_, hrun, ⟨fun o ho => added_of_entry hself hv hva hsee hsole hpa hlt ho, hothers,
    fun habs u hu htop hpage => ?_⟩, ?_⟩
  · rw [hothers u hu hpage (Or.inr (by omega))]
    simp only [walk, htop, habs]
    rfl
  · refine exists_remove (s := { s with kernelPool := pool, phys := _ }) (hset.selfMap hself) hv hva ?_ ?_
    · exact (congrArg present hentry).trans hsee
    · change SoleTable s.dir _ _ (frameOf (update m (entryAt s.dir m v) (p ||| 7) (s.dir + v / 2 ^ 22 * 4)))
      rw [hentry]
      exact hset.sole hsole

def loaded : Machine := ⟨setupPage, 0x100000, ⟨480, fun _ => 0⟩, 0x200000⟩

/-- A page of a program, whose table is missing. -/
theorem page_added_08048000 : ∃ t, ((pageTableAdd 0x08048000 0x300000).on loaded).run = .ok ((), t) ∧
    PageAdded 0x100000 0x08048000 0x300000 setupPage t.phys ∧
      ∃ t', ((pageTablePteRemove 0x08048000).on t).run = .ok ((), t') ∧ PageRemoved 0x100000 0x08048000 t.phys t'.phys := by
  have hframe : FrameFor loaded 0x08048000 0x200000 := fun _ => ⟨⟨_, rfl⟩, by decide, by decide⟩
  have hsep : Separate loaded 0x08048000 0x200000 := by
    refine ⟨fun h => absurd h (by decide), fun _ => ?_, fun _ => ?_⟩ <;> unfold SoleTable <;> decide +kernel
  exact page_table_add_remove (s := loaded) setupPage_selfMap (by decide) (by decide) (by decide) (by decide) (by decide)
    hframe hsep

/-- Directory entries 0 and 768 share their table: the first page of the kernel heap is mapped at two addresses. -/
theorem shared_table_maps_both : walk 0x100000 setupPage 0xC0200000 = none ∧ walk 0x100000 setupPage 0x00200000 = none ∧
    ((pageTableAdd 0xC0200000 0x300000).on loaded).run = .ok ((), (pageTableAdd 0xC0200000 0x300000).after loaded) ∧
    walk 0x100000 ((pageTableAdd 0xC0200000 0x300000).after loaded).phys 0x00200000 = some 0x300000 :=
  ⟨by decide, by decide, run_of_gives (by decide), by decide⟩

end Add

end TrueOs.Paging
