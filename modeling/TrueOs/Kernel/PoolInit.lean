import Mathlib.Order.Interval.Finset.Nat
import TrueOs.Kernel.Heap

/-! `mem_pool_init` of `kernel/memory.c`: how the memory of the machine is shared out. -/

namespace TrueOs.Mm.Boot

abbrev memBitmapBase : Nat := 0xC009A000

/-- The PCB of the main thread is the page below `KERNEL_STACK_ADDR`. -/
abbrev mainThread : Nat := 0xC009F000 - 4096

def uint16 (n : Nat) : Nat := n % 2 ^ 16

structure BitmapAt where
  bits : Nat
  btmpBytesLen : Nat

structure Pool where
  poolBitmap : BitmapAt
  phyAddrStart : Nat
  poolSize : Nat

structure VirtualAddr where
  vaddrBitmap : BitmapAt
  vaddrStart : Nat

structure Pools where
  kernelPool : Pool
  userPool : Pool
  kernelVaddr : VirtualAddr
  memory : Buf

def bitmapInit (memory : Buf) (b : BitmapAt) : Buf := memory.splice b.bits b.btmpBytesLen (fun _ => 0)

def usedMem : Nat := 4096 * 256 + 0x100000

def memPoolInit (memory : Buf) (allMem : Nat) : Pools :=
  let freeMem := allMem - usedMem
  let allFreePages := uint16 (freeMem / 4096)
  let kernelFreePages := uint16 (allFreePages / 2)
  let userFreePages := uint16 (allFreePages - kernelFreePages)
  let kbmLength := kernelFreePages / 8
  let ubmLength := userFreePages / 8
  let kpStart := usedMem
  let upStart := kpStart + kernelFreePages * 4096
  let kernelPool : Pool := ⟨⟨memBitmapBase, kbmLength⟩, kpStart, kernelFreePages * 4096⟩
  let userPool : Pool := ⟨⟨memBitmapBase + kbmLength, ubmLength⟩, upStart, userFreePages * 4096⟩
  let kernelVaddr : VirtualAddr := ⟨⟨memBitmapBase + kbmLength + ubmLength, kbmLength⟩, 4096 * kHeapStart⟩
  let memory := bitmapInit memory kernelPool.poolBitmap
  let memory := bitmapInit memory userPool.poolBitmap
  ⟨kernelPool, userPool, kernelVaddr, bitmapInit memory kernelVaddr.vaddrBitmap⟩

def Pool.Hands (p : Pool) (a : Nat) : Prop :=
  ∃ bitIdx < 8 * p.poolBitmap.btmpBytesLen, a = bitIdx * 4096 + p.phyAddrStart

def BitmapAt.Disjoint (b c : BitmapAt) : Prop :=
  b.bits + b.btmpBytesLen ≤ c.bits ∨ c.bits + c.btmpBytesLen ≤ b.bits

def BitmapAt.InWindow (b : BitmapAt) : Prop :=
  memBitmapBase ≤ b.bits ∧ b.bits + b.btmpBytesLen ≤ memBitmapBase + 4 * 4096 ∧
    b.bits + b.btmpBytesLen ≤ mainThread

/-- The pools fit a machine with `allMem` bytes. -/
structure Pools.Fit (P : Pools) (allMem : Nat) : Prop where
  kernel : ∀ a, P.kernelPool.Hands a → usedMem ≤ a ∧ a + 4096 ≤ allMem
  user : ∀ a, P.userPool.Hands a → usedMem ≤ a ∧ a + 4096 ≤ allMem
  disjoint : ∀ a b, P.kernelPool.Hands a → P.userPool.Hands b → a + 4096 ≤ b ∨ b + 4096 ≤ a
  cover : ∃ K U : Finset Nat, K.card < 8 ∧ U.card < 8 ∧ ∀ q < (allMem - usedMem) / 4096,
    P.kernelPool.Hands (usedMem + q * 4096) ∨ P.userPool.Hands (usedMem + q * 4096) ∨ q ∈ K ∨ q ∈ U
  bitmaps : P.kernelPool.poolBitmap.Disjoint P.userPool.poolBitmap ∧
    P.kernelPool.poolBitmap.Disjoint P.kernelVaddr.vaddrBitmap ∧
    P.userPool.poolBitmap.Disjoint P.kernelVaddr.vaddrBitmap
  window : P.kernelPool.poolBitmap.InWindow ∧ P.userPool.poolBitmap.InWindow ∧
    P.kernelVaddr.vaddrBitmap.InWindow

structure Shared (P : Pools) (n k : Nat) : Prop where
  kernelStart : P.kernelPool.phyAddrStart = usedMem
  userStart : P.userPool.phyAddrStart = usedMem + n * 4096
  kernelBits : P.kernelPool.poolBitmap = ⟨memBitmapBase, n / 8⟩
  userBits : P.userPool.poolBitmap = ⟨memBitmapBase + n / 8, k / 8⟩
  vaddrBits : P.kernelVaddr.vaddrBitmap = ⟨memBitmapBase + n / 8 + k / 8, n / 8⟩

section Shared

variable {P : Pools} {n k allMem : Nat}

theorem Shared.kernel_hands (h : Shared P n k) (q : Nat) :
    P.kernelPool.Hands (usedMem + q * 4096) ↔ q < 8 * (n / 8) := by
  simp only [Pool.Hands, h.kernelStart, h.kernelBits]
  constructor
  · rintro ⟨i, hi, he⟩
    omega
  · intro hq
    exact ⟨q, hq, Nat.add_comm _ _⟩

theorem Shared.user_hands (h : Shared P n k) (q : Nat) :
    P.userPool.Hands (usedMem + q * 4096) ↔ n ≤ q ∧ q < n + 8 * (k / 8) := by
  simp only [Pool.Hands, h.userStart, h.userBits]
  constructor
  · rintro ⟨i, hi, he⟩
    omega
  · rintro ⟨hn, hq⟩
    exact ⟨q - n, by omega, by omega⟩

theorem Shared.cover (h : Shared P n k) : ∃ K U : Finset Nat, K.card < 8 ∧ U.card < 8 ∧ ∀ q < n + k,
    P.kernelPool.Hands (usedMem + q * 4096) ∨ P.userPool.Hands (usedMem + q * 4096) ∨
      q ∈ K ∨ q ∈ U := by
  refine ⟨Finset.Ico (8 * (n / 8)) n, Finset.Ico (n + 8 * (k / 8)) (n + k), ?_, ?_, ?_⟩
  · rw [Nat.card_Ico]
    omega
  · rw [Nat.card_Ico]
    omega
  · intro q hq
    rw [h.kernel_hands, h.user_hands, Finset.mem_Ico, Finset.mem_Ico]
    omega

theorem Shared.fit (h : Shared P n k) (hn : n + k = (allMem - usedMem) / 4096) (hlt : n + k < 2 ^ 16)
    (hle : n ≤ k) (hm : usedMem < allMem) : P.Fit allMem where
  kernel := by
    rintro a ⟨i, hi, rfl⟩
    rw [h.kernelBits] at hi
    rw [h.kernelStart]
    dsimp only at hi
    omega
  user := by
    rintro a ⟨i, hi, rfl⟩
    rw [h.userBits] at hi
    rw [h.userStart]
    dsimp only at hi
    omega
  disjoint := by
    rintro a b ⟨i, hi, rfl⟩ ⟨j, hj, rfl⟩
    rw [h.kernelBits] at hi
    rw [h.kernelStart, h.userStart]
    dsimp only at hi
    omega
  cover := hn ▸ h.cover
  bitmaps := by
    simp only [BitmapAt.Disjoint, h.kernelBits, h.userBits, h.vaddrBits]
    omega
  window := by
    simp only [BitmapAt.InWindow, h.kernelBits, h.userBits, h.vaddrBits, memBitmapBase, mainThread]
    omega

theorem Shared.not_fit (h : Shared P n k) (hlt : n + k + 15 ≤ (allMem - usedMem) / 4096) : ¬P.Fit allMem := by
  intro hf
  obtain ⟨K, U, hK, hU, hc⟩ := hf.cover
  have hsub : Finset.Ico (n + k) (n + k + 15) ⊆ K ∪ U := by
    intro q hq
    rw [Finset.mem_Ico] at hq
    rcases hc q (by omega) with hk | hu | hq'
    · rw [h.kernel_hands] at hk
      omega
    · rw [h.user_hands] at hu
      omega
    · exact Finset.mem_union.mpr hq'
  have h₁ := Finset.card_le_card hsub
  have h₂ := Finset.card_union_le K U
  rw [Nat.card_Ico] at h₁
  omega

end Shared

theorem memPoolInit_shared (memory : Buf) (allMem : Nat) :
    ∃ n k, Shared (memPoolInit memory allMem) n k ∧ n ≤ k ∧ n + k = uint16 ((allMem - usedMem) / 4096) := by
  refine ⟨_, _, ⟨rfl, rfl, rfl, rfl, rfl⟩, ?_, ?_⟩
  · simp only [uint16]
    omega
  · simp only [uint16]
    omega

/-- Above 258 MB the number of pages does not fit an `uint16_t`. -/
theorem memory_pools_fit_iff (memory : Buf) {allMem : Nat} (hlow : 0x200000 < allMem) (hhigh : allMem ≤ 0x20000000) :
    (memPoolInit memory allMem).Fit allMem ↔ allMem < 0x10200000 := by
  obtain ⟨n, k, hs, hle, hsum⟩ := memPoolInit_shared memory allMem
  have hu : usedMem = 0x200000 := rfl
  rw [uint16] at hsum
  constructor
  · intro hf
    by_contra hc
    exact hs.not_fit (by omega) hf
  · intro hlt
    exact hs.fit (by omega) (by omega) hle (by omega)

/-- The machine the other modules are about. -/
theorem memory_pools_fit_32MB :
    0x200000 < 0x2000000 ∧ (memPoolInit (fun _ => 0xFF) 0x2000000).Fit 0x2000000 :=
  ⟨by decide, (memory_pools_fit_iff _ (by decide) (by decide)).mpr (by decide)⟩

theorem memory_pools_512MB :
    ¬(memPoolInit (fun _ => 0xFF) 0x20000000).Fit 0x20000000 := by
  obtain ⟨n, k, hs, -, hsum⟩ := memPoolInit_shared (fun _ => 0xFF) 0x20000000
  have hu : usedMem = 0x200000 := rfl
  rw [uint16] at hsum
  exact hs.not_fit (by omega)

end TrueOs.Mm.Boot
