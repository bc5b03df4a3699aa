import TrueOs.Fs.Inode

/-! What the file system keeps on a partition, region by region.

The code below sees sectors and bytes; the view of a volume has the two bitmaps in
memory and on disk, the inode table and the data blocks, each indexed by its own
numbers.  Every primitive of the code changes one of these components. -/

namespace TrueOs.Fs

open Prog

structure Geom where
  startLba : Nat
  secCnt : Nat
  sb : SuperBlock
  entrySize : sb.dirEntrySize = 24
  rootNo : sb.rootInodeNo = 0
  bitmap_pos : 0 < sb.blockBitmapLba
  bitmap_le : sb.blockBitmapLba + sb.blockBitmapSects ≤ sb.inodeBitmapLba
  inodes_le : sb.inodeBitmapLba < sb.inodeTableLba
  table_le : sb.inodeTableLba + 608 ≤ sb.dataStartLba
  data_le : sb.dataStartLba ≤ startLba + secCnt
  data_lba : sb.dataStartLba ≤ maxLba
  small : sb.dataStartLba + 4096 * sb.blockBitmapSects < 2 ^ 31

def Geom.base (g : Geom) : Nat := g.sb.dataStartLba

def Geom.top (g : Geom) : Nat := g.base + 4096 * g.sb.blockBitmapSects

theorem Geom.base_pos (g : Geom) : 0 < g.base := by
  have h₁ := g.bitmap_pos
  have h₂ := g.bitmap_le
  have h₃ := g.inodes_le
  have h₄ := g.table_le
  simp only [Geom.base]
  omega

theorem Geom.top_lt (g : Geom) : g.top < 2 ^ 31 := g.small

@[ext] structure View where
  ibit : Nat → Bool
  dibit : Nat → Bool
  used : Nat → Bool
  dused : Nat → Bool
  ino : Nat → Inode
  blk : Nat → Buf

def noInode : Inode := ⟨0, 0, 0, false, fun _ => 0⟩

def Geom.view (g : Geom) (v : Vol) : View where
  ibit n := decide (n < 4096) && v.inodeBitmap.bits.bit n
  dibit n := decide (n < 4096) && v.disk.bit (4096 * g.sb.inodeBitmapLba + n)
  used lba := decide (g.base ≤ lba ∧ lba < g.top) && v.blockBitmap.bits.bit (lba - g.base)
  dused lba := decide (g.base ≤ lba ∧ lba < g.top) &&
    v.disk.bit (4096 * g.sb.blockBitmapLba + (lba - g.base))
  ino n := if n < 4096 then Inode.ofBytes v.disk (512 * g.sb.inodeTableLba + 76 * n) else noInode
  blk lba := if g.base ≤ lba then v.disk.slice (512 * lba) 512 else fun _ => 0

structure At (g : Geom) (w : View) (m : Mem) (s : Fs) : Prop where
  startLba : s.vol.startLba = g.startLba
  secCnt : s.vol.secCnt = g.secCnt
  sb : s.vol.sb = g.sb
  blen : s.vol.blockBitmap.btmpBytesLen = 512 * g.sb.blockBitmapSects
  ilen : s.vol.inodeBitmap.btmpBytesLen = 512
  view : g.view s.vol = w
  mem : s.mem = m

def Inode.clean (i : Inode) : Inode where
  iNo := i.iNo % 2 ^ 32
  iSize := i.iSize % 2 ^ 32
  iOpenCnts := 0
  writeDeny := false
  iSectors := fun k => if k < 13 then i.iSectors k % 2 ^ 32 else 0

namespace View

@[simps] def setIno (w : View) (n : Nat) (i : Inode) : View := { w with ino := Function.update w.ino n i }

@[simps] def setBlk (w : View) (lba : Nat) (b : Buf) : View := { w with blk := Function.update w.blk lba b }

@[simps] def setIbit (w : View) (n : Nat) (b : Bool) : View := { w with ibit := Function.update w.ibit n b }

@[simps] def setUsed (w : View) (lba : Nat) (b : Bool) : View :=
  { w with used := Function.update w.used lba b }

@[simps] def syncIbits (w : View) : View := { w with dibit := w.ibit }

@[simps] def syncUsed (g : Geom) (w : View) (lba : Nat) : View :=
  { w with dused := fun l =>
      if (l - g.base) / 4096 = (lba - g.base) / 4096 then w.used l else w.dused l }

@[simp] theorem blk_setBlk_self (w : View) (lba : Nat) (b : Buf) : (w.setBlk lba b).blk lba = b :=
  Function.update_self _ _ _

theorem blk_setBlk_of_ne {l lba : Nat} (h : l ≠ lba) (w : View) (b : Buf) :
    (w.setBlk lba b).blk l = w.blk l := Function.update_of_ne h _ _

end View

section Regions

variable {g : Geom} {v : Vol} {a n : Nat} {b : Buf}

def Vol.write (v : Vol) (a n : Nat) (b : Buf) : Vol := { v with disk := v.disk.splice a n b }

theorem bit_splice_of_disjoint {d : Buf} {lba i : Nat}
    (h : 512 * lba + i / 8 < a ∨ a + n ≤ 512 * lba + i / 8) :
    (d.splice a n b).bit (4096 * lba + i) = d.bit (4096 * lba + i) := by
  apply Buf.bit_congr
  rw [show (4096 * lba + i) / 8 = 512 * lba + i / 8 by omega]
  exact Buf.splice_of_not_mem h

theorem dibit_write (h : 512 * (g.sb.inodeBitmapLba + 1) ≤ a ∨ a + n ≤ 512 * g.sb.inodeBitmapLba) :
    (g.view (v.write a n b)).dibit = (g.view v).dibit := by
  funext i
  simp only [Geom.view, Vol.write]
  by_cases hi : i < 4096
  · rw [bit_splice_of_disjoint (by omega)]
  · simp [hi]

theorem dused_write (h : 512 * (g.sb.blockBitmapLba + g.sb.blockBitmapSects) ≤ a ∨
    a + n ≤ 512 * g.sb.blockBitmapLba) : (g.view (v.write a n b)).dused = (g.view v).dused := by
  funext l
  simp only [Geom.view, Vol.write]
  by_cases hl : g.base ≤ l ∧ l < g.top
  · simp only [Geom.top] at hl
    rw [bit_splice_of_disjoint (by omega)]
  · simp [hl]

theorem ofBytes_congr {d e : Buf} {c : Nat} (h : ∀ k < 76, d (a + k) = e (c + k)) :
    Inode.ofBytes d a = Inode.ofBytes e c := by
  have hw : ∀ k, k + 4 ≤ 76 → d.word (a + k) = e.word (c + k) := by
    intro k hk
    apply Buf.word_congr
    intro i hi
    rw [Nat.add_assoc, Nat.add_assoc]
    exact h _ (by omega)
  simp only [Inode.ofBytes, Inode.mk.injEq]
  refine ⟨hw 0 (by omega), hw 4 (by omega), hw 8 (by omega), by rw [hw 12 (by omega)], ?_⟩
  funext k
  split
  · rw [Nat.add_assoc, Nat.add_assoc]
    exact hw _ (by omega)
  · rfl

theorem ino_write (h : 512 * (g.sb.inodeTableLba + 608) ≤ a ∨ a + n ≤ 512 * g.sb.inodeTableLba) :
    (g.view (v.write a n b)).ino = (g.view v).ino := by
  funext i
  simp only [Geom.view, Vol.write]
  split
  · apply ofBytes_congr
    intro k hk
    exact Buf.splice_of_not_mem (by omega)
  · rfl

theorem blk_write (h : a + n ≤ 512 * g.base) : (g.view (v.write a n b)).blk = (g.view v).blk := by
  funext l
  simp only [Geom.view, Vol.write]
  split
  · exact Buf.slice_splice_disjoint (by omega)
  · rfl

theorem view_write_blk {lba : Nat} (h : g.base ≤ lba) :
    g.view (v.write (512 * lba) 512 b) = (g.view v).setBlk lba (b.slice 0 512) := by
  have h₁ := g.bitmap_le
  have h₂ := g.inodes_le
  have h₃ := g.table_le
  have hb : g.base = g.sb.dataStartLba := rfl
  apply View.ext
  · rfl
  · exact dibit_write (by omega)
  · rfl
  · exact dused_write (by omega)
  · exact ino_write (by omega)
  · funext l
    simp only [View.setBlk, Function.update_apply]
    split
    · rename_i hl
      subst hl
      simp only [Geom.view, Vol.write, if_pos h, Buf.slice_splice_self]
    · simp only [Geom.view, Vol.write]
      split
      · exact Buf.slice_splice_disjoint (by omega)
      · rfl

theorem view_write_ino {k : Nat} (h : k < 4096) :
    g.view (v.write (512 * g.sb.inodeTableLba + 76 * k) 76 b) =
      (g.view v).setIno k (Inode.ofBytes b 0) := by
  have h₁ := g.bitmap_le
  have h₂ := g.inodes_le
  have h₃ := g.table_le
  have hb : g.base = g.sb.dataStartLba := rfl
  apply View.ext
  · rfl
  · exact dibit_write (by omega)
  · rfl
  · exact dused_write (by omega)
  · funext i
    simp only [View.setIno, Function.update_apply, Geom.view, Vol.write]
    by_cases hi : i = k
    · subst hi
      rw [if_pos h, if_pos rfl]
      apply ofBytes_congr
      intro j hj
      rw [Buf.splice_of_mem (by omega) (by omega)]
      congr 1
      omega
    · rw [if_neg hi]
      split
      · apply ofBytes_congr
        intro j hj
        exact Buf.splice_of_not_mem (by omega)
      · rfl
  · exact blk_write (by omega)

theorem view_write_ibits :
    g.view (v.write (512 * g.sb.inodeBitmapLba) 512 (v.inodeBitmap.bits.slice 0 512)) =
      (g.view v).syncIbits := by
  have h₁ := g.bitmap_le
  have h₂ := g.inodes_le
  have h₃ := g.table_le
  have hb : g.base = g.sb.dataStartLba := rfl
  apply View.ext
  · rfl
  · funext i
    simp only [View.syncIbits, Geom.view, Vol.write]
    by_cases hi : i < 4096
    · simp only [hi, decide_true, Bool.true_and, Buf.bit]
      rw [Buf.splice_of_mem (by omega) (by omega), Buf.slice_of_lt (by omega),
        show 0 + ((4096 * g.sb.inodeBitmapLba + i) / 8 - 512 * g.sb.inodeBitmapLba) = i / 8 by omega,
        show (4096 * g.sb.inodeBitmapLba + i) % 8 = i % 8 by omega]
    · simp [hi]
  · rfl
  · exact dused_write (by omega)
  · exact ino_write (by omega)
  · exact blk_write (by omega)

theorem view_write_used {lba off : Nat} (hl : g.base ≤ lba) (ht : lba < g.top)
    (ho : off = (lba - g.base) / 4096) :
    g.view (v.write (512 * (g.sb.blockBitmapLba + off)) 512
      (v.blockBitmap.bits.slice (off * 512) 512)) = (g.view v).syncUsed g lba := by
  have h₁ := g.bitmap_le
  have h₂ := g.inodes_le
  have h₃ := g.table_le
  have hb : g.base = g.sb.dataStartLba := rfl
  simp only [Geom.top] at ht
  apply View.ext
  · rfl
  · exact dibit_write (by omega)
  · rfl
  · funext l
    simp only [View.syncUsed, Geom.view, Vol.write, ← ho]
    by_cases hl : g.base ≤ l ∧ l < g.top
    · simp only [hl, and_self, decide_true, Bool.true_and]
      simp only [Geom.top] at hl
      split
      · simp only [Buf.bit]
        rw [Buf.splice_of_mem (by omega) (by omega), Buf.slice_of_lt (by omega),
          show (4096 * g.sb.blockBitmapLba + (l - g.base)) % 8 = (l - g.base) % 8 by omega]
        congr 3
        omega
      · rw [bit_splice_of_disjoint (by omega)]
    · simp [hl]
  · exact ino_write (by omega)
  · exact blk_write (by omega)

theorem view_set_ibit {i : Nat} (h : i < 4096) (c : Bool) :
    g.view { v with inodeBitmap.bits := v.inodeBitmap.bits.setBit i c } =
      (g.view v).setIbit i c := by
  apply View.ext <;> try rfl
  funext j
  simp only [Geom.view, View.setIbit, Function.update_apply, Buf.bit_setBit]
  split
  · rename_i hj
    simp [hj, h]
  · rfl

theorem view_set_used {lba : Nat} (hl : g.base ≤ lba) (ht : lba < g.top) (c : Bool) :
    g.view { v with blockBitmap.bits := v.blockBitmap.bits.setBit (lba - g.base) c } =
      (g.view v).setUsed lba c := by
  apply View.ext <;> try rfl
  funext l
  simp only [Geom.view, View.setUsed, Function.update_apply, Buf.bit_setBit]
  by_cases h : l = lba
  · simp [h, hl, ht]
  · rw [if_neg h]
    by_cases hr : g.base ≤ l ∧ l < g.top
    · rw [if_neg (by omega)]
    · simp [hr]

end Regions

end TrueOs.Fs
