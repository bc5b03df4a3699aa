import TrueOs.Spec.Alloc

/-! `file_write`. -/

namespace TrueOs.Fs

open Prog

section Chunks

theorem chunkSize_pos (pos : Nat) {left : Nat} (h : 0 < left) : 0 < chunkSize pos left := by
  have := Nat.mod_lt pos (show 0 < 512 by omega)
  rw [chunkSize]
  split <;> omega

theorem chunkSize_le (pos left : Nat) : chunkSize pos left ≤ left := by
  rw [chunkSize]
  split <;> omega

theorem chunkSize_fits (pos left : Nat) : pos % 512 + chunkSize pos left ≤ 512 := by
  have := Nat.mod_lt pos (show 0 < 512 by omega)
  rw [chunkSize]
  split <;> omega

end Chunks

section Loop

variable {g : Geom} {w : View} {m : Mem} {s : Fs} {p k size count : Nat}
  {i : Inode} {f : File} {all : Nat → Nat} {buf : Buf}

def Mem.writing (m : Mem) (p k : Nat) (i : Inode) (f : File) (size pos : Nat) : Mem :=
  (m.set p (i.body size i.iSectors)).setFile k ⟨pos, f.fdFlag, f.fdInode⟩

structure Addresses (g : Geom) (all : Nat → Nat) (first last : Nat) : Prop where
  low : ∀ b, first ≤ b → b ≤ last → g.base ≤ all b
  high : ∀ b, first ≤ b → b ≤ last → all b ≤ maxLba

theorem sat_addPos (h : At g w m s) {n : Nat} {R : Unit → Fs → Prop}
    (hR : ∀ t, At g w (m.setFile k { m.fileTable k with fdPos := add32 (m.fileTable k).fdPos n }) t →
      R () t) : ((addPos k n).on s).Sat False R := by
  simp only [addPos, bind_on, get_on, Res.sat_bind, Res.sat_done, h.mem]
  exact sat_setFile h hR

theorem sat_writeChunks (ha : Addresses g all (size / 512) ((size + count) / 512))
    (hlt : size + count < 512 * 140) {turns n pos : Nat} {first : Bool} (hn : n ≤ count) (ht : count - n < turns)
    (h : At g w (m.writing p k i f (size + n) pos) s) {R : Unit → Fs → Prop}
    (hR : ∀ W pos t, At g W (m.writing p k i f (size + count) pos) t → R () t) :
    ((writeChunks k p all buf count turns n first).on s).Sat False R := by
  induction turns generalizing n pos first w s with
  | zero => omega
  | succ turns ih =>
    rw [writeChunks]
    by_cases hlt' : n < count
    · have hobj : (m.writing p k i f (size + n) pos).inodes p = some (i.body (size + n) i.iSectors) :=
        Mem.set_inodes_self _ _ _
      have hb₁ := ha.low ((size + n) / 512) (by omega) (by omega)
      have hb₂ := ha.high ((size + n) / 512) (by omega) (by omega)
      have hcont : ∀ io : Buf,
          ((do
            ideWrite (all ((size + n) / 512)) 1 (fun _ => io.splice ((size + n) % 512)
              (chunkSize (size + n) (count - n)) (fun k => buf (n + k)))
            addSize p (chunkSize (size + n) (count - n))
            addPos k (chunkSize (size + n) (count - n))
            writeChunks k p all buf count turns (n + chunkSize (size + n) (count - n)) false :
              Prog Fs Buf Unit).on s).Sat False R := by
        intro io
        have hc := chunkSize_le (size + n) (count - n)
        have hc' := chunkSize_pos (size + n) (show 0 < count - n by omega)
        generalize chunkSize (size + n) (count - n) = c at *
        simp only [sat_bind]
        apply sat_writeBlk h (.inr hb₂) hb₁
        intro t₁ hm h₁
        apply sat_addSize h₁ hobj
        intro t₂ h₂
        apply sat_addPos h₂
        intro t₃ h₃
        rw [Inode.body_iSize, add32_of_lt (show size + n + c < 2 ^ 32 by omega), Nat.add_assoc] at h₃
        have h₄ : At g (w.setBlk (all ((size + n) / 512))
            ((io.splice ((size + n) % 512) c fun k => buf (n + k)).slice 0 512))
            (m.writing p k i f (size + (n + c)) (add32 pos c)) t₃ := by
          simpa only [Mem.writing, Mem.set, Mem.setFile, Function.update_self, Function.update_idem,
            Inode.body] using h₃
        exact ih (by omega) (by omega) h₄
      rw [if_pos hlt', sat_bind]
      apply sat_getInode h hobj
      rw [Inode.body_iSize, if_pos (show (size + n) / 512 < 140 by omega)]
      -- the sector is read first only for the first chunk
      cases first with
      | true =>
        rw [if_pos rfl, sat_bind]
        apply sat_readBlk h (.inr hb₂) hb₁
        exact hcont _
      | false =>
        rw [if_neg Bool.false_ne_true]
        exact hcont _
    · obtain rfl : n = count := by omega
      rw [if_neg hlt']
      exact hR w pos s h

end Loop

section FileWrite

variable {g : Geom} {w : View} {m : Mem} {s : Fs} {p k count : Nat}
  {i : Inode} {buf : Buf}

def InRange (g : Geom) (w : View) : Prop := ∀ l, w.used l = true → g.base ≤ l ∧ l < g.top

theorem At.inRange (h : At g w m s) : InRange g w := by
  intro l hl
  rw [← h.view] at hl
  simp only [Geom.view, Bool.and_eq_true, decide_eq_true_eq] at hl
  exact hl.1

structure Writable (g : Geom) (w : View) (i : Inode) (count : Nat) : Prop where
  rep : FileRep w i.iSectors i.iSize
  used : ∀ q, w.hold i.iSectors q ≠ 0 → w.used (w.hold i.iSectors q) = true
  high : ∀ q, w.hold i.iSectors q ≤ maxLba
  fits : i.iSize + count < 512 * 140
  base : w.used g.base = true
  room : Room g w (newBlocks (blockCount i.iSectors i.iSize) ((i.iSize + count) / 512))

theorem Grow.addresses {w' : View} {sec sec' : Nat → Nat} {nb last : Nat} {ls : List Nat}
    {tb : Option Nat} (h : Grow g w sec nb ls tb w' sec') (hs : Span w sec nb)
    (hu : ∀ q, w.hold sec q ≠ 0 → w.used (w.hold sec q) = true)
    (hr : InRange g w') (hlast : last < nb + ls.length) (h140 : last < 140)
    (hhigh : ∀ q, w.hold sec q ≤ maxLba) (hroom : Room g w (ls.length + tb.toList.length)) (first : Nat) :
    Addresses g (w'.addr sec') first last := by
  have hne : ∀ b, b ≤ last → w'.addr sec' b ≠ 0 := fun b hb =>
    ((h.span hs).addr b (by omega)).mpr (by omega)
  refine ⟨?_, ?_⟩
  · intro b _ hb
    obtain ⟨q, hq⟩ := exists_hold w' sec' b
    rw [← hq]
    exact (hr _ (h.used hu q (by rw [hq]; exact hne b hb))).1
  · intro b _ hb
    obtain ⟨w₂, ht, -⟩ := h.bits
    obtain ⟨q, hq⟩ := exists_hold w' sec' b
    rw [← hq]
    rcases h.held (by rw [hq]; exact hne b hb) with he | hn
    · rw [← he]
      exact hhigh q
    · exact ht.le_maxLba hroom _ hn

theorem Addresses.congr {all all' : Nat → Nat} {first last : Nat} (h : Addresses g all first last)
    (he : ∀ b, first ≤ b → b ≤ last → all' b = all b) : Addresses g all' first last where
  low b h₁ h₂ := (h.low b h₁ h₂).trans_eq (he b h₁ h₂).symm
  high b h₁ h₂ := (he b h₁ h₂).trans_le (h.high b h₁ h₂)

theorem sat_writeData (h : At g w m s) (hp : m.inodes p = some i)
    (hspan : Span w i.iSectors (i.iSize / 512 + 1))
    (hused : ∀ q, w.hold i.iSectors q ≠ 0 → w.used (w.hold i.iSectors q) = true)
    (hhigh : ∀ q, w.hold i.iSectors q ≤ maxLba) (hfit : i.iSize + count < 512 * 140)
    (hroom : Room g w (newBlocks (i.iSize / 512 + 1) ((i.iSize + count) / 512))) (hno : i.iNo < 4096)
    {Q : Int → Fs → Prop} (hQ : ∀ sec W pos t,
      At g W (m.writing p k (i.body i.iSize sec) (m.fileTable k) (i.iSize + count) pos) t → Q count t) :
    ((writeData k p buf count).on s).Sat False Q := by
  have hlow : i.iSectors 12 ≠ 0 → g.base ≤ i.iSectors 12 := by
    intro h12
    have := hused 12 (by rwa [hold_table])
    rw [hold_table] at this
    exact (h.inRange _ this).1
  have htable := hhigh 12
  rw [hold_table] at htable
  rw [writeData, sat_bind]
  apply sat_collectBlocks h hp ⟨hspan, hfit, hlow, htable, hroom⟩
  intro ls tb w₁ sec' all t₁ hlen hg hall h₁
  have hblocks : i.iSize / 512 + 1 + ls.length = (i.iSize + count) / 512 + 1 := by omega
  have haddr : Addresses g (w₁.addr sec') (i.iSize / 512) ((i.iSize + count) / 512) :=
    hg.addresses hspan hused h₁.inRange (by omega) (by omega) hhigh (hg.newBlocks_eq hblocks ▸ hroom) _
  dsimp only
  rw [sat_bind]
  apply sat_getInode h₁ (Mem.set_inodes_self _ _ _)
  simp only [bind_on, get_on, Res.sat_bind, Res.sat_done, h₁.mem]
  apply sat_setFile h₁
  intro t₂ h₂
  have h₃ : At g w₁ (m.writing p k (i.body i.iSize sec') (m.fileTable k) (i.iSize + 0)
      (sub32 i.iSize 1)) t₂ := h₂
  apply sat_writeChunks (haddr.congr hall) hfit (by omega) (by omega) h₃
  intro W pos t₄ h₄
  apply sat_getInode h₄ (Mem.set_inodes_self _ _ _)
  apply sat_inodeSync h₄
  · exact .inr hno
  intro t₅ h₅
  exact hQ sec' _ pos t₅ h₅

theorem writing_set (m : Mem) (p k : Nat) (i j : Inode) (f : File) (size pos : Nat) :
    (m.set p j).writing p k i f size pos = m.writing p k i f size pos := by
  rw [Mem.writing, Mem.writing, Mem.set_set]

theorem sat_fileWrite (h : At g w m s) (hk : (m.fileTable k).fdInode = some p)
    (hp : m.inodes p = some i) (hw : Writable g w i count) (hno : i.iNo < 4096) {Q : Int → Fs → Prop}
    (hQ : ∀ sec W pos t,
      At g W (m.writing p k (i.body i.iSize sec) (m.fileTable k) (i.iSize + count) pos) t → Q count t) :
    ((fileWrite k buf count).on s).Sat False Q := by
  have hspan := hw.rep.span
  have hfit := hw.fits
  have hroom := hw.room
  rw [fileWrite, sat_bind]
  apply sat_fileInode h hk
  rw [sat_bind]
  apply sat_getInode h hp
  rw [add32_of_lt (by omega), if_neg (by omega), sat_bind]
  apply sat_firstBlock h hp
  · refine fun h0 => ⟨hroom.mono ?_, hw.base⟩
    rw [blockCount, if_pos h0, newBlocks]
    omega
  · intro h0
    have hbc : blockCount i.iSectors i.iSize = i.iSize / 512 + 1 := if_neg h0
    rw [hbc] at hspan hroom
    simp only [Bool.not_true, Bool.false_eq_true, if_false]
    exact sat_writeData h hp hspan hw.used hw.high hfit hroom hno hQ
  · intro l t₁ h0 hf h₁
    have hbc : blockCount i.iSectors i.iSize = 0 := if_pos h0
    have hsz : i.iSize = 0 := hw.rep.fresh h0
    have hone : i.iSize / 512 + 1 = 1 := by omega
    rw [hbc] at hspan hroom
    have hroom₁ : Room g w (newBlocks (i.iSize / 512 + 1) ((i.iSize + count) / 512) + 1) := by
      rwa [hone, ← newBlocks_zero]
    have hg : Grow g w i.iSectors 0 [l] none _ _ := grow_first hf
    have hhigh : ∀ q, ((w.setUsed l true).syncUsed g l).hold (Function.update i.iSectors 0 l) q ≤ maxLba := by
      intro q
      by_cases hq : ((w.setUsed l true).syncUsed g l).hold (Function.update i.iSectors 0 l) q = 0
      · rw [hq]
        omega
      · rcases hg.held hq with he | hn
        · rw [← he]
          exact hw.high q
        · obtain ⟨w₂, ht, -⟩ := hg.bits
          exact ht.le_maxLba (hroom₁.mono (Nat.le_add_left 1 _)) _ hn
    have hspan₁ := hg.span hspan
    rw [Nat.zero_add, List.length_singleton, ← hone] at hspan₁
    simp only [Bool.not_true, Bool.false_eq_true, if_false]
    apply sat_writeData h₁ (Mem.set_inodes_self _ _ _) hspan₁ (hg.used hw.used) hhigh hfit hroom₁.alloc hno
    intro sec W pos t ht
    rw [writing_set] at ht
    exact hQ sec W pos t ht

end FileWrite

end TrueOs.Fs
