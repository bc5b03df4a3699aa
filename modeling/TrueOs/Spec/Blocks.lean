import TrueOs.Spec.Format

/-! The regions of a formatted partition, the blocks it marks as free, and which of them
are handed out once it is mounted. -/

namespace TrueOs.Fs

open Prog

def regions (startLba secCnt : Nat) : List (Nat × Nat) :=
  let sb := formatSuper startLba secCnt
  [(startLba, 1), (startLba + 1, 1), (sb.blockBitmapLba, sb.blockBitmapSects), (sb.inodeBitmapLba, sb.inodeBitmapSects),
    (sb.inodeTableLba, sb.inodeTableSects), (sb.dataStartLba, blockBitmapBitLen secCnt)]

structure Layout (startLba secCnt : Nat) : Prop where
  apart : (regions startLba secCnt).Pairwise (fun r r' => r.1 + r.2 ≤ r'.1)
  inside : ∀ r ∈ regions startLba secCnt, startLba ≤ r.1 ∧ r.1 + r.2 ≤ startLba + secCnt

/-- Of the bits that are written, only those of existing blocks are clear. -/
def Exact (startLba secCnt : Nat) : Prop :=
  ∀ b < 4096 * (formatSuper startLba secCnt).blockBitmapSects,
    (formatBlockBitmap (blockBitmapBitLen secCnt)).bit b = true ↔ b = 0 ∨ blockBitmapBitLen secCnt ≤ b

inductive Taking (s : Fs) : Fs → List Nat → Prop
  | mounted : Taking s s []
  | alloc {t u : Fs} {held : List Nat} {lba : Nat} (h : Taking s t held)
      (hr : (blockBitmapAlloc.on t).run = .ok (some lba, u)) : Taking s u (lba :: held)
  | free {t u : Fs} {held : List Nat} {lba : Nat} (h : Taking s t held) (hl : lba ∈ held)
      (hr : ((blockBitmapSet (t.vol.bitIdx lba) false).on t).run = .ok ((), u)) : Taking s u (held.erase lba)

def Inside (s : Fs) : Prop :=
  ∀ t held lba u, Taking s t held → (blockBitmapAlloc.on t).run = .ok (some lba, u) →
    s.vol.startLba ≤ lba ∧ lba < s.vol.startLba + s.vol.secCnt

section Bits

variable {startLba secCnt : Nat}

theorem bitLen_pos (h : Large startLba secCnt) : 0 < blockBitmapBitLen secCnt := by
  have hroom := h.room
  rw [bitLen_eq h]
  omega

theorem formatBlockBitmap_small {len b : Nat} (hlen : len < 8) (hb : b < 4096) :
    (formatBlockBitmap len).bit b = decide (len < b) := by
  simp only [formatBlockBitmap]
  rw [clearBits_bit, show 8 * (len / 8) = 0 by omega, show len / 8 = 0 by omega, show len % 8 = len by omega]
  by_cases hc : b < len + 1
  · rw [if_pos ⟨Nat.zero_le _, by omega⟩, eq_comm, decide_eq_false_iff_not]
    omega
  · rw [if_neg (by omega), decide_eq_true (show len < b by omega), Buf.bit, Buf.splice_of_mem (Nat.zero_le _) (by omega)]
    exact full_byte _ (by omega)

theorem free_iff {len b : Nat} (hlen : 0 < len) (hb : b < 4096 * ((len + 4095) / 4096)) :
    (formatBlockBitmap len).bit b = false ↔ b ≤ len ∧ (8 ≤ len → b ≠ 0) := by
  by_cases h8 : 8 ≤ len
  · rw [formatBlockBitmap_bit h8 hb, decide_eq_false_iff_not]
    omega
  · rw [formatBlockBitmap_small (by omega) (by omega), decide_eq_false_iff_not]
    omega

theorem exact_iff (h : Large startLba secCnt) : Exact startLba secCnt ↔ 4096 ∣ blockBitmapBitLen secCnt := by
  have hpos := bitLen_pos h
  rw [Exact, blockBitmapSects_eq h]
  generalize blockBitmapBitLen secCnt = len at *
  constructor
  · intro hex
    by_contra hdvd
    have hb : len < 4096 * ((len + 4095) / 4096) := by omega
    have hbit := (hex len hb).mpr (Or.inr le_rfl)
    rw [(free_iff hpos hb).mpr ⟨le_rfl, by omega⟩] at hbit
    cases hbit
  · rintro ⟨k, rfl⟩ b hb
    rw [← Bool.not_eq_false, free_iff hpos hb]
    omega

end Bits

section Alloc

variable {s t u : Fs} {lba i : Nat} {held : List Nat}

def putBlock (s : Fs) (i : Nat) (v : Bool) : Fs :=
  { s with vol.blockBitmap := ⟨s.vol.blockBitmap.btmpBytesLen, s.vol.blockBitmap.bits.setBit i v⟩ }

theorem run_alloc (h : t.vol.blockBitmap.FirstFree i) :
    (blockBitmapAlloc.on t).run = .ok (some (t.vol.sb.dataStartLba + i), t.putBlock i true) := by
  have hlt := Bitmap.fullBytes_lt h.lt h.free
  have hi := (Bitmap.firstFree_scan hlt).unique h
  have hlt' := h.lt
  simp only [blockBitmapAlloc, blockBitmapSet, Bitmap.bitmapScan, Bitmap.bitmapSet, bind_on, get_on, Res.bind, Prog.assert,
    if_neg (Nat.ne_of_lt hlt), if_pos, pure_on, hi, if_pos (show i / 8 < t.vol.blockBitmap.btmpBytesLen by omega), modify_on,
    Res.run, decide_eq_true hlt]
  rfl

theorem alloc_cases (h : (blockBitmapAlloc.on t).run = .ok (some lba, u)) :
    ∃ i, t.vol.blockBitmap.FirstFree i ∧ lba = t.vol.sb.dataStartLba + i ∧ u = t.putBlock i true := by
  by_cases hlt : Bitmap.fullBytes t.vol.blockBitmap.bits t.vol.blockBitmap.btmpBytesLen 0 < t.vol.blockBitmap.btmpBytesLen
  · have hfirst := Bitmap.firstFree_scan hlt
    rw [run_alloc hfirst] at h
    cases h
    exact ⟨_, hfirst, rfl, rfl⟩
  · simp only [blockBitmapAlloc, Bitmap.bitmapScan, bind_on, get_on, Res.bind, Prog.assert, Res.run,
      decide_eq_false hlt] at h
    cases h

theorem free_cases (h : ((blockBitmapSet i false).on t).run = .ok ((), u)) : u = t.putBlock i false := by
  simp only [blockBitmapSet, Bitmap.bitmapSet, bind_on, get_on, Res.bind] at h
  split at h
  · cases h
    rfl
  · cases h

structure Within (s t : Fs) (held : List Nat) : Prop where
  sb : t.vol.sb = s.vol.sb
  len : t.vol.blockBitmap.btmpBytesLen = s.vol.blockBitmap.btmpBytesLen
  clear : ∀ i, t.vol.blockBitmap.bits.bit i = false → s.vol.blockBitmap.bits.bit i = false
  held : ∀ lba ∈ held, ∃ i, s.vol.blockBitmap.bits.bit i = false ∧ lba = s.vol.sb.dataStartLba + i

theorem Within.alloc (h : Within s t held) (hi : t.vol.blockBitmap.FirstFree i) :
    Within s (t.putBlock i true) ((t.vol.sb.dataStartLba + i) :: held) where
  sb := h.sb
  len := h.len
  clear j hj := by
    change (t.vol.blockBitmap.bits.setBit i true).bit j = false at hj
    rw [Buf.bit_setBit] at hj
    by_cases hji : j = i
    · rw [if_pos hji] at hj
      cases hj
    · rw [if_neg hji] at hj
      exact h.clear j hj
  held lba hl := by
    rcases List.mem_cons.mp hl with rfl | hl
    · exact ⟨i, h.clear i hi.free, by rw [h.sb]⟩
    · exact h.held lba hl

theorem Within.free (h : Within s t held) (hl : lba ∈ held) :
    Within s (t.putBlock (t.vol.bitIdx lba) false) (held.erase lba) where
  sb := h.sb
  len := h.len
  clear j hj := by
    change (t.vol.blockBitmap.bits.setBit _ false).bit j = false at hj
    rw [Buf.bit_setBit] at hj
    by_cases hji : j = t.vol.bitIdx lba
    · obtain ⟨i, hi, rfl⟩ := h.held lba hl
      rw [Vol.bitIdx, h.sb, sub32_of_le (Nat.le_add_right _ _), Nat.add_sub_cancel_left] at hji
      rw [hji, hi]
    · rw [if_neg hji] at hj
      exact h.clear j hj
  held lba' hl' := h.held lba' (List.mem_of_mem_erase hl')

theorem Taking.within (h : Taking s t held) : Within s t held := by
  induction h with
  | mounted => exact ⟨rfl, rfl, fun _ h => h, fun _ h => absurd h List.not_mem_nil⟩
  | alloc _ hr ih =>
    obtain ⟨i, hi, rfl, rfl⟩ := alloc_cases hr
    exact ih.alloc hi
  | free _ hl hr ih =>
    rw [free_cases hr]
    exact ih.free hl

theorem exists_taking (s : Fs) {n : Nat} (hn : n ≤ 8 * s.vol.blockBitmap.btmpBytesLen) :
    ∃ t held, Taking s t held ∧ ∀ i, t.vol.blockBitmap.bits.bit i = if i < n then true else s.vol.blockBitmap.bits.bit i := by
  induction n with
  | zero => exact ⟨s, [], .mounted, fun i => (if_neg (Nat.not_lt_zero i)).symm⟩
  | succ n ih =>
    obtain ⟨t, held, ht, hbits⟩ := ih (by omega)
    have hat := hbits n
    rw [if_neg (lt_irrefl n)] at hat
    cases hn' : s.vol.blockBitmap.bits.bit n with
    | true =>
      refine ⟨t, held, ht, fun i => ?_⟩
      rw [hbits]
      by_cases hi : i = n
      · rw [hi, if_neg (lt_irrefl n), if_pos (Nat.lt_succ_self n), hn']
      · congr 1
        exact propext (by omega)
    | false =>
      have hfirst : t.vol.blockBitmap.FirstFree n :=
        ⟨by rw [ht.within.len]; omega, hat.trans hn', fun j hj => by rw [hbits, if_pos hj]⟩
      refine ⟨_, _, ht.alloc (run_alloc hfirst), fun i => ?_⟩
      change (t.vol.blockBitmap.bits.setBit n true).bit i = _
      rw [Buf.bit_setBit, hbits]
      by_cases hi : i = n
      · rw [if_pos hi, if_pos (by omega)]
      · rw [if_neg hi]
        congr 1
        exact propext (by omega)

theorem inside_iff (hbase : s.vol.startLba ≤ s.vol.sb.dataStartLba) : Inside s ↔
    ∀ i < 8 * s.vol.blockBitmap.btmpBytesLen, s.vol.blockBitmap.bits.bit i = false →
      s.vol.sb.dataStartLba + i < s.vol.startLba + s.vol.secCnt := by
  constructor
  · intro h i hi hfree
    obtain ⟨t, held, ht, hbits⟩ := exists_taking s (Nat.le_of_lt hi)
    have hfirst : t.vol.blockBitmap.FirstFree i :=
      ⟨by rw [ht.within.len]; exact hi, by rw [hbits, if_neg (lt_irrefl i), hfree], fun j hj => by rw [hbits, if_pos hj]⟩
    have hlba := (h t held _ _ ht (run_alloc hfirst)).2
    rw [ht.within.sb] at hlba
    exact hlba
  · intro h t held lba u ht hr
    obtain ⟨i, hi, rfl, -⟩ := alloc_cases hr
    have hw := ht.within
    rw [hw.sb]
    exact ⟨by omega, h i (by rw [← hw.len]; exact hi.lt) (hw.clear i hi.free)⟩

end Alloc

section Mount

variable {startLba secCnt : Nat}

theorem layout (h : Large startLba secCnt) : Layout startLba secCnt := by
  have hlen := bitLen_eq h
  have hsects := blockBitmapSects_eq h
  have hroom := h.room
  obtain ⟨e₁, e₂, e₃, e₄, e₅, e₆⟩ := laid startLba secCnt
  refine ⟨?_, ?_⟩
  · simp only [regions, List.pairwise_cons, List.mem_cons, List.not_mem_nil, or_false, forall_eq_or_imp, forall_eq,
      List.Pairwise.nil, and_true, false_imp_iff, implies_true]
    omega
  · simp only [regions, List.mem_cons, List.not_mem_nil, or_false, forall_eq_or_imp, forall_eq]
    omega

def Dropped (startLba secCnt : Nat) : Prop :=
  (formatSuper startLba secCnt).blockBitmapSects < divRoundUp (sub32 secCnt 611) bitsPerSector

theorem inside_mount_iff (h : Large startLba secCnt) (pad disk : Buf) (m : Mem) :
    Inside ⟨mountVol startLba secCnt pad disk, m⟩ ↔ 4096 ∣ blockBitmapBitLen secCnt ∨ Dropped startLba secCnt := by
  have hlen := bitLen_eq h
  have hpos := bitLen_pos h
  have hsects := blockBitmapSects_eq h
  have hround : divRoundUp (sub32 secCnt 611) bitsPerSector = (secCnt - 611 + 4095) / 4096 := by
    have h₁ := h.room
    have h₂ := h.round
    rw [sub32_of_le (by omega), divRoundUp, bitsPerSector, add32_of_lt (by omega)]
  obtain ⟨e₁, e₂, e₃, e₄, e₅, e₆⟩ := laid startLba secCnt
  have hbit : ∀ i < 4096 * (formatSuper startLba secCnt).blockBitmapSects,
      ((formatBlockBitmap (blockBitmapBitLen secCnt)).slice 0 (512 * (formatSuper startLba secCnt).blockBitmapSects)).bit i =
        (formatBlockBitmap (blockBitmapBitLen secCnt)).bit i := by
    intro i hi
    rw [bit_ofNat _ _ _ _ (by omega), Nat.mul_zero, Nat.zero_add]
  have hroom := h.room
  rw [inside_iff (by simp only [mountVol]; omega), Dropped, hround]
  simp only [mountVol, e₆]
  constructor
  · intro hin
    by_contra hc
    have hb : blockBitmapBitLen secCnt < 4096 * (formatSuper startLba secCnt).blockBitmapSects := by omega
    have hlast := hin (blockBitmapBitLen secCnt) (by omega)
      (by rw [hbit _ hb, free_iff hpos (by omega)]; exact ⟨le_rfl, by omega⟩)
    omega
  · intro hcond i hi hfree
    rw [hbit i (by omega), free_iff hpos (by omega)] at hfree
    omega

/-- `partition_format` and `mount_partition` return, and the map they leave is the right
one just when it ends with a sector. -/
theorem partition_format_exact_iff (h : Large startLba secCnt) (pad disk : Buf) :
    Layout startLba secCnt ∧ (Exact startLba secCnt ↔ 4096 ∣ blockBitmapBitLen secCnt) ∧
      ((formatSuper startLba secCnt).dataStartLba ≤ maxLba →
        ∃ s, ((do partitionFormat pad; mountPartition).on (bootState startLba secCnt disk)).run = .ok ((), s) ∧
          (Inside s ↔ 4096 ∣ blockBitmapBitLen secCnt ∨ Dropped startLba secCnt)) := by
  refine ⟨layout h, exact_iff h, fun hdata => ?_⟩
  have hsat : ((do partitionFormat pad; mountPartition).on (bootState startLba secCnt disk)).Sat False
      (fun _ s => s = (⟨mountVol startLba secCnt pad disk, bootMem⟩ : Fs)) := by
    rw [sat_bind]
    exact sat_partitionFormat h hdata pad disk (sat_mountPartition h hdata pad disk rfl)
  obtain ⟨_, s, hrun, rfl⟩ := hsat.exists_run
  exact ⟨_, hrun, inside_mount_iff h pad disk bootMem⟩

/-- One sector of map for 4096 blocks. -/
theorem format_whole_sector : Layout 63 4709 ∧ Exact 63 4709 ∧
    ∃ s, ((do partitionFormat (fun _ => 0); mountPartition).on (bootState 63 4709 fun _ => 0)).run = .ok ((), s) ∧ Inside s := by
  have hlen : 4096 ∣ blockBitmapBitLen 4709 := by decide
  have hlarge : Large 63 4709 := ⟨by decide, by decide, by decide⟩
  obtain ⟨hlayout, hexact, hmount⟩ := partition_format_exact_iff hlarge (fun _ => 0) (fun _ => 0)
  obtain ⟨s, hrun, hinside⟩ := hmount (by decide)
  exact ⟨hlayout, hexact.mpr hlen, s, hrun, hinside.mpr (Or.inl hlen)⟩

/-- Block 388 of 388 is clear, and the first sector behind the partition. -/
theorem format_clears_next : Large 63 1000 ∧ 388 < 4096 * (formatSuper 63 1000).blockBitmapSects ∧
    blockBitmapBitLen 1000 ≤ 388 ∧ (formatBlockBitmap (blockBitmapBitLen 1000)).bit 388 = false ∧
      ¬Exact 63 1000 ∧ (formatSuper 63 1000).dataStartLba + 388 = 63 + 1000 := by
  refine ⟨⟨by decide, by decide, by decide⟩, by decide, by decide, by decide, fun h => ?_, by decide⟩
  have hbit := (h 388 (by decide)).mpr (Or.inr (by decide))
  revert hbit
  decide

end Mount

end TrueOs.Fs
