import TrueOs.Fs.Format
import TrueOs.Spec.Edit

/-! A freshly formatted and mounted partition is consistent. -/

namespace TrueOs.Fs

open Prog

/-- Room for the tables and eight blocks, on a disk of 80 MB.  With fewer blocks the
bit of the root directory is cleared together with the last bits of the map. -/
def Sized (startLba secCnt : Nat) : Prop := 620 ≤ secCnt ∧ startLba + secCnt ≤ maxLba + 1

/-- Room for the tables and one block, and no sum of 32 bits wraps. -/
structure Large (startLba secCnt : Nat) : Prop where
  room : 613 ≤ secCnt
  round : secCnt + 4096 ≤ 2 ^ 32
  ends : startLba + secCnt < 2 ^ 32

section Layout

variable {startLba secCnt : Nat}

theorem Sized.large (h : Sized startLba secCnt) : Large startLba secCnt := by
  obtain ⟨h₁, h₂⟩ := h
  simp only [maxLba] at h₂
  exact ⟨by omega, by omega, by omega⟩

theorem bitLen_eq (h : Large startLba secCnt) : blockBitmapBitLen secCnt =
    secCnt - 611 - (secCnt - 611 + 4095) / 4096 := by
  obtain ⟨h₁, h₂, -⟩ := h
  have hused : 1 + 1 + inodeBitmapSects + inodeTableSects = 611 := by decide
  have hsub : sub32 secCnt 611 = secCnt - 611 := sub32_of_le (by omega)
  have hdiv : divRoundUp (secCnt - 611) 4096 = (secCnt - 611 + 4095) / 4096 := by
    rw [divRoundUp, add32_of_lt (by omega)]
  simp only [blockBitmapBitLen, hused, hsub, bitsPerSector, hdiv]
  rw [sub32_of_le (by omega)]

theorem blockBitmapSects_eq (h : Large startLba secCnt) :
    (formatSuper startLba secCnt).blockBitmapSects = (blockBitmapBitLen secCnt + 4095) / 4096 := by
  have hb := bitLen_eq h
  obtain ⟨h₁, h₂, -⟩ := h
  simp only [formatSuper, divRoundUp, bitsPerSector]
  rw [add32_of_lt (by omega)]

theorem dataStartLba_eq : (formatSuper startLba secCnt).dataStartLba =
    startLba + 2 + (formatSuper startLba secCnt).blockBitmapSects + 1 + 608 := rfl

structure Laid (startLba : Nat) (sb : SuperBlock) : Prop where
  blockLba : sb.blockBitmapLba = startLba + 2
  inodeLba : sb.inodeBitmapLba = startLba + 2 + sb.blockBitmapSects
  inodeSects : sb.inodeBitmapSects = 1
  tableLba : sb.inodeTableLba = startLba + 2 + sb.blockBitmapSects + 1
  tableSects : sb.inodeTableSects = 608
  dataLba : sb.dataStartLba = startLba + 2 + sb.blockBitmapSects + 1 + 608

theorem laid (startLba secCnt : Nat) : Laid startLba (formatSuper startLba secCnt) :=
  ⟨rfl, rfl, rfl, rfl, rfl, rfl⟩

def formatGeom (h : Sized startLba secCnt) : Geom where
  startLba := startLba
  secCnt := secCnt
  sb := formatSuper startLba secCnt
  entrySize := rfl
  rootNo := rfl
  bitmap_pos := by simp only [formatSuper]; omega
  bitmap_le := Nat.le_refl _
  inodes_le := Nat.lt_succ_self _
  table_le := Nat.le_refl _
  data_le := by
    rw [dataStartLba_eq, blockBitmapSects_eq h.large, bitLen_eq h.large]
    have := h.1
    omega
  data_lba := by
    rw [dataStartLba_eq, blockBitmapSects_eq h.large, bitLen_eq h.large]
    have h₁ := h.1
    have h₂ := h.2
    simp only [maxLba] at h₂ ⊢
    omega
  small := by
    rw [dataStartLba_eq, blockBitmapSects_eq h.large, bitLen_eq h.large]
    have h₁ := h.1
    have h₂ := h.2
    simp only [maxLba] at h₂ ⊢
    omega

end Layout

section Bits

theorem bit_ofNat (d : Buf) (a n b : Nat) (h : b / 8 < n) : (d.slice a n).bit b = d.bit (8 * a + b) := by
  simp only [Buf.bit]
  rw [Buf.slice_of_lt h, show a + b / 8 = (8 * a + b) / 8 by omega,
    show (8 * a + b) % 8 = b % 8 by omega]

theorem clearBits_bit (d : Buf) (l n b : Nat) : (clearBits d l n).bit b =
    if 8 * l ≤ b ∧ b < 8 * l + n then false else d.bit b := by
  induction n with
  | zero => rw [clearBits, if_neg (by omega)]
  | succ n ih =>
    rw [clearBits, Buf.bit_setBit, ih]
    by_cases h : b = 8 * l + n
    · rw [if_pos h, if_pos (by omega)]
    · rw [if_neg h]
      by_cases hb : 8 * l ≤ b ∧ b < 8 * l + n
      · rw [if_pos hb, if_pos (by omega)]
      · rw [if_neg hb, if_neg (by omega)]

theorem full_byte : ∀ k < 8, (0xFF : UInt8).toBitVec.getLsbD k = true := by decide

theorem zero_bit (b : Nat) : Buf.bit (fun _ => 0) b = false := by
  simp [Buf.bit]

theorem formatBlockBitmap_bit {len b : Nat} (hlen : 8 ≤ len) (hb : b < 4096 * ((len + 4095) / 4096)) :
    (formatBlockBitmap len).bit b = decide (b = 0 ∨ len < b) := by
  simp only [formatBlockBitmap]
  rw [clearBits_bit]
  by_cases hc : 8 * (len / 8) ≤ b ∧ b < 8 * (len / 8) + (len % 8 + 1)
  · rw [if_pos hc, eq_comm, decide_eq_false_iff_not]
    omega
  · rw [if_neg hc]
    by_cases hf : len / 8 ≤ b / 8
    · have : len < b := by omega
      simp only [Buf.bit, this, or_true, decide_true]
      rw [Buf.splice_of_mem hf (by omega)]
      exact full_byte _ (by omega)
    · rw [Buf.bit_congr (Buf.splice_of_not_mem (by omega)), Buf.bit_setBit, zero_bit]
      by_cases h0 : b = 0
      · simp [h0]
      · rw [if_neg h0, eq_comm, decide_eq_false_iff_not]
        omega

end Bits

theorem clean_rootInode {base : Nat} (h : base ≤ maxLba) : (rootInode base).clean = rootInode base := by
  rw [maxLba] at h
  simp only [Inode.clean, rootInode, inodeInit, Inode.mk.injEq, dirEntryBytes]
  refine ⟨rfl, rfl, trivial, trivial, ?_⟩
  funext k
  by_cases hk : k = 0
  · subst hk
    simp only [Function.update_self]
    rw [if_pos (by omega), Nat.mod_eq_of_lt (by omega)]
  · simp [Function.update_of_ne hk]

structure Formatted (g : Geom) (w : View) (len : Nat) : Prop where
  ibit : ∀ n, w.ibit n = decide (n = 0)
  used : ∀ l, w.used l = (decide (g.base ≤ l ∧ l < g.top) && decide (l = g.base ∨ g.base + len < l))
  root : w.ino 0 = rootInode g.base
  blk : w.blk g.base = (dotBlock 0 0).slice 0 512

section Disk

variable {startLba secCnt : Nat}

def formatDisk (startLba secCnt : Nat) (pad disk : Buf) : Buf :=
  let sb := formatSuper startLba secCnt
  ((((disk.splice (512 * (startLba + 1)) (512 * 1) (pad.splice 0 52 (.ofWords sb.words))).splice
    (512 * sb.blockBitmapLba) (512 * sb.blockBitmapSects)
      (formatBlockBitmap (blockBitmapBitLen secCnt))).splice
    (512 * sb.inodeBitmapLba) (512 * sb.inodeBitmapSects) (Buf.setBit (fun _ => 0) 0 true)).splice
    (512 * sb.inodeTableLba) (512 * sb.inodeTableSects)
      (Buf.splice (fun _ => 0) 0 inodeSize (rootInode sb.dataStartLba).bytes)).splice
    (512 * sb.dataStartLba) (512 * 1) (dotBlock 0 0)

theorem sat_partitionFormat (h : Large startLba secCnt) (hdata : (formatSuper startLba secCnt).dataStartLba ≤ maxLba)
    (pad disk : Buf) {R : Unit → Fs → Prop}
    (hR : R () { bootState startLba secCnt disk with
      vol.disk := formatDisk startLba secCnt pad disk }) :
    ((partitionFormat pad).on (bootState startLba secCnt disk)).Sat False R := by
  have hlen := bitLen_eq h
  have hsects := blockBitmapSects_eq h
  have hlaid := laid startLba secCnt
  have h₁ := h.room
  obtain ⟨e₁, e₂, e₃, e₄, e₅, e₆⟩ := hlaid
  rw [partitionFormat, sat_bind, sat_get, sat_bind]
  apply sat_ideWrite (.inr (by simp only [bootState]; omega)) (by omega)
  intro _
  rw [sat_bind]
  apply sat_ideWrite (.inr (by simp only [bootState]; omega)) (by simp only [bootState]; omega)
  intro _
  rw [sat_bind]
  apply sat_ideWrite (.inr (by simp only [bootState]; omega)) (by simp only [bootState]; omega)
  intro _
  rw [sat_bind]
  apply sat_ideWrite (.inr (by simp only [bootState]; omega)) (by simp only [bootState]; omega)
  intro _
  apply sat_ideWrite (.inr (by simp only [bootState]; omega)) (by omega)
  intro _
  exact hR

section Regions

variable (startLba secCnt) (pad disk : Buf)

theorem formatDisk_super : (formatDisk startLba secCnt pad disk).slice (512 * (startLba + 1)) 512 =
    (pad.splice 0 52 (.ofWords (formatSuper startLba secCnt).words)).slice 0 512 := by
  obtain ⟨e₁, e₂, e₃, e₄, e₅, e₆⟩ := laid startLba secCnt
  simp only [formatDisk, Nat.mul_one]
  rw [Buf.slice_splice_disjoint (by omega), Buf.slice_splice_disjoint (by omega),
    Buf.slice_splice_disjoint (by omega), Buf.slice_splice_disjoint (by omega), Buf.slice_splice_self]

theorem formatDisk_blocks : (formatDisk startLba secCnt pad disk).slice
      (512 * (formatSuper startLba secCnt).blockBitmapLba)
      (512 * (formatSuper startLba secCnt).blockBitmapSects) =
    (formatBlockBitmap (blockBitmapBitLen secCnt)).slice 0
      (512 * (formatSuper startLba secCnt).blockBitmapSects) := by
  obtain ⟨e₁, e₂, e₃, e₄, e₅, e₆⟩ := laid startLba secCnt
  simp only [formatDisk, Nat.mul_one]
  rw [Buf.slice_splice_disjoint (by omega), Buf.slice_splice_disjoint (by omega),
    Buf.slice_splice_disjoint (by omega), Buf.slice_splice_self]

theorem formatDisk_inodes : (formatDisk startLba secCnt pad disk).slice
      (512 * (formatSuper startLba secCnt).inodeBitmapLba) 512 =
    (Buf.setBit (fun _ => 0) 0 true).slice 0 512 := by
  obtain ⟨e₁, e₂, e₃, e₄, e₅, e₆⟩ := laid startLba secCnt
  simp only [formatDisk, Nat.mul_one, e₃]
  rw [Buf.slice_splice_disjoint (by omega), Buf.slice_splice_disjoint (by omega),
    Buf.slice_splice_self]

theorem formatDisk_root : (formatDisk startLba secCnt pad disk).slice
      (512 * (formatSuper startLba secCnt).dataStartLba) 512 = (dotBlock 0 0).slice 0 512 := by
  simp only [formatDisk, Nat.mul_one]
  rw [Buf.slice_splice_self]

theorem formatDisk_inode {k : Nat} (hk : k < 76) : formatDisk startLba secCnt pad disk
      (512 * (formatSuper startLba secCnt).inodeTableLba + 76 * 0 + k) =
    (rootInode (formatSuper startLba secCnt).dataStartLba).toPure.bytes (0 + k) := by
  obtain ⟨e₁, e₂, e₃, e₄, e₅, e₆⟩ := laid startLba secCnt
  simp only [formatDisk, Nat.mul_one, e₅]
  rw [Buf.splice_of_not_mem (by omega), Buf.splice_of_mem (by omega) (by omega),
    Buf.splice_of_mem (by omega) (by simp only [inodeSize]; omega),
    show 512 * (formatSuper startLba secCnt).inodeTableLba + 76 * 0 + k -
      512 * (formatSuper startLba secCnt).inodeTableLba - 0 = 0 + k by omega]
  rfl

end Regions

theorem super_ofBytes (h : Large startLba secCnt) (pad : Buf) :
    SuperBlock.ofBytes ((pad.splice 0 52 (.ofWords (formatSuper startLba secCnt).words)).slice 0 512) =
      formatSuper startLba secCnt := by
  have hsects := blockBitmapSects_eq h
  have hlen := bitLen_eq h
  obtain ⟨e₁, e₂, e₃, e₄, e₅, e₆⟩ := laid startLba secCnt
  obtain ⟨h₁, h₂, h₃⟩ := h
  have hdata : (formatSuper startLba secCnt).dataStartLba < 2 ^ 32 := by omega
  have hword : ∀ k < 13, (formatSuper startLba secCnt).words k < 2 ^ 32 →
      ((pad.splice 0 52 (.ofWords (formatSuper startLba secCnt).words)).slice 0 512).word (4 * k) =
        (formatSuper startLba secCnt).words k := by
    intro k hk hlt
    rw [Buf.word_slice (by omega), Buf.word_splice_of_mem (by omega) (by omega), Nat.zero_add,
      Nat.sub_zero, Buf.word_ofWords_of_lt hlt]
  have hsec : (formatSuper startLba secCnt).secCnt = secCnt := rfl
  have hbase : (formatSuper startLba secCnt).partLbaBase = startLba := rfl
  generalize hsb : formatSuper startLba secCnt = sb at *
  have hconst : sb.magic = superMagic ∧ sb.inodeCnt = 4096 ∧ sb.rootInodeNo = 0 ∧
      sb.dirEntrySize = 24 := by
    subst hsb
    exact ⟨rfl, rfl, rfl, rfl⟩
  clear hsb
  obtain ⟨magic, cnt, icnt, base, bl, bs, il, is, tl, ts, dl, rn, es⟩ := sb
  obtain ⟨c₁, c₂, c₃, c₄⟩ := hconst
  simp only [superMagic] at *
  simp only [SuperBlock.ofBytes, SuperBlock.mk.injEq]
  refine ⟨hword 0 (by decide) ?_, hword 1 (by decide) ?_, hword 2 (by decide) ?_,
    hword 3 (by decide) ?_, hword 4 (by decide) ?_, hword 5 (by decide) ?_, hword 6 (by decide) ?_,
    hword 7 (by decide) ?_, hword 8 (by decide) ?_, hword 9 (by decide) ?_, hword 10 (by decide) ?_,
    hword 11 (by decide) ?_, hword 12 (by decide) ?_⟩
  all_goals
    simp only [SuperBlock.words, List.getD_cons_zero, List.getD_cons_succ]
    omega

def mountVol (startLba secCnt : Nat) (pad disk : Buf) : Vol :=
  let sb := formatSuper startLba secCnt
  { startLba := startLba
    secCnt := secCnt
    sb := sb
    disk := formatDisk startLba secCnt pad disk
    blockBitmap := ⟨sb.blockBitmapSects * 512, (formatBlockBitmap (blockBitmapBitLen secCnt)).slice 0
      (512 * sb.blockBitmapSects)⟩
    inodeBitmap := ⟨512, (Buf.setBit (fun _ => 0) 0 true).slice 0 512⟩ }

theorem sat_mountPartition (h : Large startLba secCnt) (hdata : (formatSuper startLba secCnt).dataStartLba ≤ maxLba)
    (pad disk : Buf) {R : Unit → Fs → Prop}
    (hR : R () ⟨mountVol startLba secCnt pad disk, bootMem⟩) :
    (mountPartition.on { bootState startLba secCnt disk with
      vol.disk := formatDisk startLba secCnt pad disk }).Sat False R := by
  have hlen := bitLen_eq h
  have hsects := blockBitmapSects_eq h
  obtain ⟨e₁, e₂, e₃, e₄, e₅, e₆⟩ := laid startLba secCnt
  have hsuper := super_ofBytes h pad
  have h₁ := h.room
  rw [mountPartition, sat_bind, sat_get, sat_bind]
  apply sat_ideRead (.inr (by simp only [bootState]; omega)) (by omega)
  simp only [bootState, Nat.mul_one, formatDisk_super, hsuper]
  rw [sat_bind, sat_modify, sat_bind]
  apply sat_ideRead (.inr (by omega)) (by omega)
  simp only [formatDisk_blocks]
  rw [sat_bind, sat_modify, sat_bind]
  apply sat_ideRead (.inr (by omega)) (by omega)
  simp only [e₃, Nat.mul_one, formatDisk_inodes]
  exact hR

theorem at_mount (h : Sized startLba secCnt) (pad disk : Buf) (m : Mem) :
    ∃ w, Formatted (formatGeom h) w (blockBitmapBitLen secCnt) ∧
      At (formatGeom h) w m ⟨mountVol startLba secCnt pad disk, m⟩ := by
  have hlen := bitLen_eq h.large
  have htop : (formatGeom h).top = (formatGeom h).base + 4096 * (formatSuper startLba secCnt).blockBitmapSects := rfl
  refine ⟨(formatGeom h).view (mountVol startLba secCnt pad disk), ⟨fun n => ?_, fun l => ?_, ?_, ?_⟩, rfl, rfl, rfl,
    Nat.mul_comm _ _, rfl, rfl, rfl⟩
  · by_cases hn : n < 4096
    · simp only [Geom.view, hn, decide_true, Bool.true_and, mountVol]
      rw [bit_ofNat _ _ _ _ (by omega), Nat.mul_zero, Nat.zero_add, Buf.bit_setBit, zero_bit]
      by_cases h0 : n = 0 <;> simp [h0]
    · have h0 : n ≠ 0 := by omega
      simp only [Geom.view, hn, h0, decide_false, Bool.false_and]
  · by_cases hl : (formatGeom h).base ≤ l ∧ l < (formatGeom h).top
    · simp only [Geom.view, decide_eq_true hl, Bool.true_and, mountVol]
      rw [bit_ofNat _ _ _ _ (by omega), Nat.mul_zero, Nat.zero_add,
        formatBlockBitmap_bit (by have := h.1; omega) (by have := blockBitmapSects_eq h.large; omega)]
      exact decide_eq_decide.mpr (by omega)
    · simp only [Geom.view, decide_eq_false hl, Bool.false_and]
  · have hclean := clean_rootInode (formatGeom h).data_lba
    change (rootInode (formatGeom h).base).clean = rootInode (formatGeom h).base at hclean
    rw [← hclean, ← ofBytes_clean]
    simp only [Geom.view]
    rw [if_pos (by omega)]
    exact ofBytes_congr fun k hk => formatDisk_inode startLba secCnt pad disk hk
  · simp only [Geom.view]
    rw [if_pos (Nat.le_refl _)]
    exact formatDisk_root startLba secCnt pad disk

end Disk

end TrueOs.Fs
