import TrueOs.Fs.View
import Mathlib.Data.Finset.Card
import Mathlib.Data.Finset.Range

/-! The primitives of the file system, as changes of the view and of the tables. -/

namespace TrueOs.Fs

open Prog

variable {g : Geom} {w : View} {m : Mem} {s : Fs} {E : Prop}

structure FirstFree (g : Geom) (w : View) (lba : Nat) : Prop where
  base_le : g.base ≤ lba
  lt_top : lba < g.top
  free : w.used lba = false
  below : ∀ l, g.base ≤ l → l < lba → w.used l = true

structure FreeIno (w : View) (n : Nat) : Prop where
  lt : n < 4096
  free : w.ibit n = false

def freeBlocks (g : Geom) (w : View) : Finset Nat :=
  (Finset.range (maxLba + 1)).filter (fun l => g.base ≤ l ∧ l < g.top ∧ w.used l = false)

def Room (g : Geom) (w : View) (n : Nat) : Prop := n ≤ (freeBlocks g w).card

section Room

variable {n k lba : Nat}

theorem Room.mono (h : Room g w n) (hk : k ≤ n) : Room g w k := Nat.le_trans hk h

theorem Room.exists_free (h : Room g w n) (hn : 0 < n) :
    ∃ l, g.base ≤ l ∧ l < g.top ∧ w.used l = false ∧ l ≤ maxLba := by
  obtain ⟨l, hl⟩ := Finset.card_pos.mp (Nat.lt_of_lt_of_le hn h)
  simp only [freeBlocks, Finset.mem_filter, Finset.mem_range] at hl
  exact ⟨l, hl.2.1, hl.2.2.1, hl.2.2.2, by omega⟩

theorem FirstFree.le_maxLba (hf : FirstFree g w lba) (h : Room g w n) (hn : 0 < n) : lba ≤ maxLba := by
  obtain ⟨l, hb, -, hu, hl⟩ := h.exists_free hn
  by_contra hc
  have := hf.below l hb (by omega)
  simp [hu] at this

theorem Room.alloc (h : Room g w (n + 1)) : Room g (w.setUsed lba true) n := by
  have hsub : (freeBlocks g w).erase lba ⊆ freeBlocks g (w.setUsed lba true) := by
    intro l hl
    obtain ⟨hne, hl⟩ := Finset.mem_erase.mp hl
    simp only [freeBlocks, Finset.mem_filter] at hl ⊢
    rwa [View.setUsed_used, Function.update_of_ne hne]
  have h₁ := Finset.card_le_card hsub
  have h₂ := Finset.pred_card_le_card_erase (s := freeBlocks g w) (a := lba)
  unfold Room at h ⊢
  omega

end Room

theorem At.write (h : At g w m s) {a n : Nat} {b : Buf} {w' : View}
    (hw : g.view (s.vol.write a n b) = w') : At g w' m { s with vol := s.vol.write a n b } :=
  ⟨h.startLba, h.secCnt, h.sb, h.blen, h.ilen, hw, h.mem⟩

theorem At.withMem (h : At g w m s) (m' : Mem) : At g w m' { s with mem := m' } :=
  ⟨h.startLba, h.secCnt, h.sb, h.blen, h.ilen, h.view, rfl⟩

theorem At.used (h : At g w m s) {lba : Nat} (hl : g.base ≤ lba) (ht : lba < g.top) :
    s.vol.blockBitmap.bits.bit (lba - g.base) = w.used lba := by
  rw [← h.view]
  simp [Geom.view, hl, ht]

theorem At.ibit (h : At g w m s) {n : Nat} (hn : n < 4096) :
    s.vol.inodeBitmap.bits.bit n = w.ibit n := by
  rw [← h.view]
  simp [Geom.view, hn]

theorem At.bitIdx (h : At g w m s) {lba : Nat} (hl : g.base ≤ lba) :
    s.vol.bitIdx lba = lba - g.base := by
  rw [Vol.bitIdx, sub32, h.sb]
  exact if_pos hl

section Transfers

variable {Q : Buf → Fs → Prop} {R : Unit → Fs → Prop} {lba cnt : Nat}

theorem sat_ideRead (hE : E ∨ lba ≤ maxLba) (hc : 0 < cnt)
    (hQ : Q (s.vol.disk.slice (512 * lba) (512 * cnt)) s) : ((ideRead lba cnt).on s).Sat E Q := by
  simp only [ideRead, sat_bind, sat_assert, sat_transfer, hc, decide_true,
    decide_eq_true_eq, decide_eq_false_iff_not]
  refine ⟨fun _ => ⟨fun _ => hQ, by simp⟩, fun hn => hE.resolve_right hn⟩

theorem sat_ideWrite (hE : E ∨ lba ≤ maxLba) (hc : 0 < cnt)
    {buf : Fs → Buf}
    (hR : lba ≤ maxLba → R () { s with vol := s.vol.write (512 * lba) (512 * cnt) (buf s) }) :
    ((ideWrite lba cnt buf).on s).Sat E R := by
  simp only [ideWrite, sat_bind, sat_assert, sat_transfer, hc, decide_true,
    decide_eq_true_eq, decide_eq_false_iff_not, sat_pure]
  refine ⟨fun hl => ⟨fun _ => hR hl, by simp⟩, fun hn => hE.resolve_right hn⟩

theorem sat_readBlk (h : At g w m s) (hE : E ∨ lba ≤ maxLba) (hl : g.base ≤ lba)
    (hQ : Q (w.blk lba) s) : ((ideRead lba 1).on s).Sat E Q := by
  apply sat_ideRead hE Nat.one_pos
  rw [← h.view] at hQ
  simpa only [Geom.view, if_pos hl] using hQ

theorem sat_writeBlk (h : At g w m s) (hE : E ∨ lba ≤ maxLba) (hl : g.base ≤ lba)
    {buf : Fs → Buf}
    (hR : ∀ t, lba ≤ maxLba → At g (w.setBlk lba ((buf s).slice 0 512)) m t → R () t) :
    ((ideWrite lba 1 buf).on s).Sat E R := by
  apply sat_ideWrite hE Nat.one_pos
  intro hm
  apply hR _ hm
  apply h.write
  rw [Nat.mul_one, view_write_blk hl, h.view]

end Transfers

section Bitmaps

variable {R : Unit → Fs → Prop} {lba n : Nat}

theorem sat_blockBitmapSet (h : At g w m s) {idx : Nat} (hi : idx = lba - g.base) (hl : g.base ≤ lba)
    (ht : lba < g.top) (c : Bool) (hR : ∀ t, At g (w.setUsed lba c) m t → R () t) :
    ((blockBitmapSet idx c).on s).Sat E R := by
  subst hi
  simp only [blockBitmapSet, bind_on, get_on, Res.sat_bind, Res.sat_done]
  apply Bitmap.sat_bitmapSet
  · rw [h.blen]
    simp only [Geom.top] at ht
    omega
  · simp only [sat_modify]
    apply hR
    exact ⟨h.startLba, h.secCnt, h.sb, h.blen, h.ilen, by rw [← h.view]; exact view_set_used hl ht c,
      h.mem⟩

theorem sat_inodeBitmapSet (h : At g w m s) (hn : n < 4096) (c : Bool)
    (hR : ∀ t, At g (w.setIbit n c) m t → R () t) : ((inodeBitmapSet n c).on s).Sat E R := by
  simp only [inodeBitmapSet, bind_on, get_on, Res.sat_bind, Res.sat_done]
  apply Bitmap.sat_bitmapSet
  · rw [h.ilen]
    omega
  · simp only [sat_modify]
    apply hR
    exact ⟨h.startLba, h.secCnt, h.sb, h.blen, h.ilen, by rw [← h.view]; exact view_set_ibit hn c,
      h.mem⟩

theorem sat_blockBitmapAlloc (h : At g w m s) {Q : Option Nat → Fs → Prop}
    (hE : E ∨ ∃ l, g.base ≤ l ∧ l < g.top ∧ w.used l = false)
    (hQ : ∀ lba t, FirstFree g w lba → At g (w.setUsed lba true) m t → Q (some lba) t) :
    (blockBitmapAlloc.on s).Sat E Q := by
  simp only [blockBitmapAlloc, bind_on, get_on, Res.sat_bind, Res.sat_done]
  apply Bitmap.sat_bitmapScan_one
  · apply hE.imp_right
    rintro ⟨l, hl, ht, hf⟩
    refine ⟨l - g.base, ?_, by rw [h.used hl ht, hf]⟩
    rw [h.blen]
    simp only [Geom.top] at ht
    omega
  · intro i hi
    have hlt := hi.lt
    rw [h.blen] at hlt
    have ht : g.base + i < g.top := by simp only [Geom.top]; omega
    have hff : FirstFree g w (g.base + i) := by
      refine ⟨by omega, ht, ?_, ?_⟩
      · rw [← h.used (by omega) ht, Nat.add_sub_cancel_left]
        exact hi.free
      · intro l hl hli
        rw [← h.used hl (by omega)]
        exact hi.used _ (by omega)
    simp only [sat_bind]
    apply sat_blockBitmapSet h (show i = g.base + i - g.base by omega) hff.base_le ht true
    intro t ht'
    simp only [sat_get, sat_pure, ht'.sb]
    exact hQ _ t hff ht'

theorem sat_inodeBitmapAlloc (h : At g w m s) {Q : Option Nat → Fs → Prop}
    (hE : E ∨ ∃ k < 4096, w.ibit k = false)
    (hQ : ∀ n t, FreeIno w n → At g (w.setIbit n true) m t → Q (some n) t) :
    (inodeBitmapAlloc.on s).Sat E Q := by
  simp only [inodeBitmapAlloc, bind_on, get_on, Res.sat_bind, Res.sat_done]
  apply Bitmap.sat_bitmapScan_one
  · apply hE.imp_right
    rintro ⟨k, hk, hf⟩
    refine ⟨k, ?_, by rw [h.ibit hk, hf]⟩
    rw [h.ilen]
    omega
  · intro i hi
    have hlt := hi.lt
    rw [h.ilen] at hlt
    have hff : FreeIno w i := by
      refine ⟨by omega, ?_⟩
      rw [← h.ibit (by omega)]
      exact hi.free
    simp only [sat_bind]
    apply sat_inodeBitmapSet h hff.lt true
    intro t ht'
    exact hQ _ t hff ht'

theorem sat_syncBlock (h : At g w m s) {idx : Nat} (hi : idx = lba - g.base)
    (hl : g.base ≤ lba) (ht : lba < g.top) (hR : ∀ t, At g (w.syncUsed g lba) m t → R () t) :
    ((bitmapSync idx .block).on s).Sat E R := by
  subst hi
  have h₁ := g.bitmap_le
  have h₂ := g.inodes_le
  have h₃ := g.table_le
  have h₄ := g.data_lba
  simp only [bitmapSync, bind_on, get_on, Res.bind, h.sb]
  apply sat_ideWrite _ Nat.one_pos
  · intro _
    apply hR
    apply h.write
    rw [← h.view, Nat.mul_one]
    exact view_write_used hl ht rfl
  · simp only [Geom.top, bitsPerSector] at ht ⊢
    omega

theorem sat_syncInodes (h : At g w m s) (hn : n < 4096)
    (hR : ∀ t, At g w.syncIbits m t → R () t) : ((bitmapSync n .inode).on s).Sat E R := by
  have h₂ := g.inodes_le
  have h₃ := g.table_le
  have h₄ := g.data_lba
  have ho : n / bitsPerSector = 0 := by simp only [bitsPerSector]; omega
  simp only [bitmapSync, bind_on, get_on, Res.bind, h.sb, ho, Nat.add_zero, Nat.zero_mul]
  apply sat_ideWrite _ Nat.one_pos
  · intro _
    apply hR
    apply h.write
    rw [← h.view, Nat.mul_one]
    exact view_write_ibits
  · omega

end Bitmaps

section Inodes

variable {R : Unit → Fs → Prop} {i : Inode} {n p : Nat}

theorem ofBytes_clean (i : Inode) : Inode.ofBytes i.toPure.bytes 0 = i.clean := by
  have hw : ∀ k, i.toPure.bytes.word (4 * k) = i.toPure.words k % 2 ^ 32 :=
    Buf.word_ofWords i.toPure.words
  simp only [Inode.ofBytes, Inode.clean, Inode.mk.injEq, Nat.zero_add]
  refine ⟨hw 0, hw 1, hw 2, ?_, ?_⟩
  · rw [show 12 = 4 * 3 from rfl, hw 3]
    rfl
  · funext k
    split
    · rename_i hk
      rw [show 16 + 4 * k = 4 * (4 + k) by omega, hw]
      simp only [Inode.words, Inode.toPure]
      rw [if_neg (by omega), if_neg (by omega), if_neg (by omega), if_neg (by omega),
        if_pos (by omega), show 4 + k - 4 = k by omega]
    · rfl

def Geom.locate (g : Geom) (n : Nat) : InodePosition :=
  ⟨512 - n * 76 % 512 < 76, g.sb.inodeTableLba + n * 76 / 512, n * 76 % 512⟩

theorem Geom.locate_lba (g : Geom) (hn : n < 4096) : (g.locate n).secLba ≤ maxLba := by
  have h₃ := g.table_le
  have h₄ := g.data_lba
  simp only [Geom.locate]
  omega

theorem InodePosition.secs_pos (pos : InodePosition) : 0 < pos.secs := by
  simp only [InodePosition.secs]
  split <;> omega

theorem Geom.locate_fits (g : Geom) (n : Nat) :
    (g.locate n).offSize + 76 ≤ 512 * (g.locate n).secs := by
  simp only [Geom.locate, InodePosition.secs, decide_eq_true_eq]
  split <;> omega

theorem Geom.locate_byte (g : Geom) (n : Nat) :
    512 * (g.locate n).secLba + (g.locate n).offSize = 512 * g.sb.inodeTableLba + 76 * n := by
  simp only [Geom.locate]
  omega

theorem sat_inodeLocate (h : At g w m s) (hn : E ∨ n < 4096) {Q : InodePosition → Fs → Prop}
    (hQ : n < 4096 → Q (g.locate n) s) : ((inodeLocate n).on s).Sat E Q := by
  simp only [inodeLocate, sat_bind, sat_assert, decide_eq_true_eq,
    decide_eq_false_iff_not]
  refine ⟨fun h' => ?_, fun h' => hn.resolve_right h'⟩
  simp only [sat_get, sat_pure, h.sb]
  exact hQ h'

theorem sat_assertInPart (h : At g w m s) (hn : n < 4096) (hR : R () s) :
    ((assertInPart (g.locate n)).on s).Sat E R := by
  have h₁ := g.table_le
  have h₂ := g.data_le
  have hle : (g.locate n).secLba ≤ g.startLba + g.secCnt := by
    simp only [Geom.locate]
    omega
  simp only [assertInPart, bind_on, get_on, Res.bind, h.startLba, h.secCnt, sat_assert, hle,
    decide_true, true_implies, Bool.true_eq_false, false_implies, and_true]
  exact hR

theorem sat_rewriteInode (h : At g w m s) (hn : n < 4096) {b : Buf}
    (hR : ∀ t, At g (w.setIno n (Inode.ofBytes b 0)) m t → R () t) :
    ((do
      let inodeBuf ← ideRead (g.locate n).secLba (g.locate n).secs
      ideWrite (g.locate n).secLba (g.locate n).secs
        (fun _ => inodeBuf.splice (g.locate n).offSize inodeSize b) : Prog Fs Buf Unit).on s).Sat E R := by
  simp only [sat_bind]
  apply sat_ideRead (Or.inr (g.locate_lba hn)) (InodePosition.secs_pos _)
  apply sat_ideWrite (Or.inr (g.locate_lba hn)) (InodePosition.secs_pos _)
  intro _
  apply hR
  apply h.write
  rw [Vol.write, Buf.splice_slice_splice (g.locate_fits n), g.locate_byte]
  rw [← h.view]
  exact view_write_ino hn

theorem sat_inodeSync (h : At g w m s) (hn : E ∨ i.iNo < 4096)
    (hR : ∀ t, At g (w.setIno i.iNo i.clean) m t → R () t) : ((inodeSync i).on s).Sat E R := by
  simp only [inodeSync, sat_bind]
  apply sat_inodeLocate h hn
  intro hn
  apply sat_assertInPart h hn
  have := sat_rewriteInode (E := E) h hn (b := i.toPure.bytes) (R := R)
    (by rwa [ofBytes_clean])
  simpa only [sat_bind] using this

theorem sat_inodeDelete (h : At g w m s) (hn : E ∨ n < 4096)
    (hR : ∀ t, At g (w.setIno n noInode) m t → R () t) : ((inodeDelete n).on s).Sat E R := by
  simp only [inodeDelete, sat_bind, sat_assert, decide_eq_true_eq,
    decide_eq_false_iff_not]
  refine ⟨fun hn => ?_, fun h' => hn.resolve_right h'⟩
  apply sat_inodeLocate h (Or.inr hn)
  intro hn
  apply sat_assertInPart h hn
  have hz : Inode.ofBytes (fun _ => 0) 0 = noInode := by
    simp [Inode.ofBytes, noInode]
  have := sat_rewriteInode (E := E) h hn (b := fun _ => 0) (R := R) (by rwa [hz])
  simpa only [sat_bind] using this

end Inodes

end TrueOs.Fs
