import TrueOs.Lib.Bare
import TrueOs.Spec.Blocks
import TrueOs.Spec.Sizes

/-! `file_write` on a partition that has no block left, with `ASSERT` compiled out.

A map without a clear bit is then reported to the caller.  Blocks that the write got before
are not given back. -/

namespace TrueOs

namespace Bitmap

variable {σ β : Type} {b : Bitmap} {s : σ}

def Full (b : Bitmap) : Prop := ∀ i < 8 * b.btmpBytesLen, b.bits.bit i = true

def OneFree (b : Bitmap) : Prop := ∃ i, b.FirstFree i ∧ ∀ j < 8 * b.btmpBytesLen, j ≠ i → b.bits.bit j = true

theorem FirstFree.not_full {n : Nat} (h : b.FirstFree n) : ¬b.Full := by
  intro hfull
  have := hfull n h.lt
  rw [h.free] at this
  cases this

theorem bare_bitmapScan {Q : Option Nat → σ → Prop} (hfull : b.Full → Q none s) (hfree : ∀ i, b.FirstFree i → Q (some i) s) :
    ((bitmapScan b 1 : Prog σ β (Option Nat)).on s).Bare Q := by
  rw [bitmapScan, Prog.bind_on, Res.bare_bind, Prog.bare_assert, Prog.ite_on]
  by_cases hlt : fullBytes b.bits b.btmpBytesLen 0 < b.btmpBytesLen
  · rw [if_neg (Nat.ne_of_lt hlt)]
    exact hfree _ (firstFree_scan hlt)
  · have hle := (fullBytes_spec b.bits b.btmpBytesLen 0).2.1
    rw [if_pos (by omega)]
    refine hfull fun i hi => ?_
    by_contra hbit
    exact hlt (fullBytes_lt hi (Bool.eq_false_iff.mpr hbit))

theorem bare_bitmapSet {i : Nat} {v : Bool} {Q : Bitmap → σ → Prop}
    (hQ : Q ⟨b.btmpBytesLen, b.bits.setBit i v⟩ s) : ((bitmapSet b i v : Prog σ β Bitmap).on s).Bare Q := by
  rw [bitmapSet, Prog.ite_on]
  split
  · exact hQ
  · trivial

end Bitmap

namespace Fs

open Prog

def More (s t : Fs) : Prop := ∀ i, s.vol.blockBitmap.bits.bit i = true → t.vol.blockBitmap.bits.bit i = true

instance : IsPreorder Fs More where
  refl _ _ h := h
  trans _ _ _ h h' i hi := h' i (h i hi)

def Spent (s t : Fs) : Prop :=
  s.vol.blockBitmap.Full ∧ t = s ∨ More s t ∧
    ∃ i < 8 * s.vol.blockBitmap.btmpBytesLen, s.vol.blockBitmap.bits.bit i = false ∧ t.vol.blockBitmap.bits.bit i = true

section Alloc

variable {s t u : Fs} {i : Nat}

theorem more_putBlock (s : Fs) (i : Nat) : More s (s.putBlock i true) := by
  intro j hj
  change (s.vol.blockBitmap.bits.setBit i true).bit j = true
  rw [Buf.bit_setBit]
  split
  · rfl
  · exact hj

theorem spent_of_alloc (h : s.vol.blockBitmap.FirstFree i) (ht : More (s.putBlock i true) t) : Spent s t := by
  refine .inr ⟨trans_of More (more_putBlock s i) ht, i, h.lt, h.free, ht i ?_⟩
  change (s.vol.blockBitmap.bits.setBit i true).bit i = true
  rw [Buf.bit_setBit, if_pos rfl]

theorem Spent.more (h : Spent s t) : More s t := by
  obtain ⟨-, rfl⟩ | ⟨h, -⟩ := h
  · exact refl t
  · exact h

theorem bare_blockBitmapAlloc {Q : Option Nat → Fs → Prop} (hfull : s.vol.blockBitmap.Full → Q none s)
    (hfree : ∀ i, s.vol.blockBitmap.FirstFree i → Q (some (s.vol.sb.dataStartLba + i)) (s.putBlock i true)) :
    (blockBitmapAlloc.on s).Bare Q := by
  rw [blockBitmapAlloc, bind_on, Res.bare_bind, get_on, Res.bare_done, bind_on, Res.bare_bind]
  refine Bitmap.bare_bitmapScan hfull fun i hi => ?_
  simp only [blockBitmapSet, bind_on, get_on, Res.bare_bind, Res.bare_done]
  exact Bitmap.bare_bitmapSet (hfree i hi)

end Alloc

section Retains

variable {R : Fs → Fs → Prop} [IsPreorder Fs R]

theorem retains_ideRead (lba cnt : Nat) : Retains R (ideRead lba cnt) :=
  (retains_assert _).bind fun _ => (retains_assert _).bind fun _ => retains_transfer fun s => refl s

theorem retains_getInode (p : Nat) : Retains R (getInode p) := by
  refine retains_get.bind fun s => ?_
  split
  · exact retains_pure _
  · exact retains_halt _

end Retains

section Write

variable {α : Type} {s : Fs} {g p n count : Nat} {i : Inode} {buf : Buf}

theorem bare_getInode (p : Nat) (s : Fs) {Q : Inode → Fs → Prop} (h : ∀ i, s.mem.inodes p = some i → Q i s) :
    ((getInode p).on s).Bare Q := by
  simp only [getInode, bind_on, get_on, Res.bind]
  cases hp : s.mem.inodes p with
  | none => trivial
  | some i => exact h i hp

theorem bare_ideRead {lba cnt : Nat} {Q : Buf → Fs → Prop} :
    ((ideRead lba cnt).on s).Bare Q ↔ Q (s.vol.disk.slice (512 * lba) (512 * cnt)) s := Iff.rfl

theorem more_ideWrite (lba cnt : Nat) (buf : Fs → Buf) : Retains More (ideWrite lba cnt buf) :=
  (retains_assert _).bind fun _ => (retains_assert _).bind fun _ =>
    (retains_transfer fun _ _ h => h).bind fun _ => retains_pure _

theorem more_setSector (p k lba : Nat) : Retains More (setSector p k lba) :=
  (retains_getInode p).bind fun _ => retains_modify fun _ _ h => h

theorem more_bitmapSync (bitIdx : Nat) : Retains More (bitmapSync bitIdx .block) :=
  retains_get.bind fun _ => more_ideWrite _ _ _

theorem more_blockBitmapAlloc : Retains More blockBitmapAlloc :=
  fun s => bare_blockBitmapAlloc (fun _ => refl s) fun i _ => more_putBlock s i

theorem more_allocTurn (p idx lba : Nat) {next : Prog Fs Buf (Option (Nat → Nat))} (h : Retains More next) :
    Retains More (do
      if idx < 12 then
        assert ((← getInode p).iSectors idx = 0)
        setSector p idx lba
      bitmapSync ((← get).vol.bitIdx lba) .block
      next) := by
  have hnext : Retains More (do
      bitmapSync ((← get).vol.bitIdx lba) .block
      next) := retains_get.bind fun _ => (more_bitmapSync _).bind fun _ => h
  refine .ite ?_ hnext
  exact (retains_getInode p).bind fun _ => (retains_assert _).bind fun _ => (more_setSector _ _ _).bind fun _ => hnext

theorem more_allocBlocks (p n idx : Nat) (all : Nat → Nat) : Retains More (allocBlocks p n idx all) := by
  induction n generalizing idx all with
  | zero => exact retains_pure _
  | succ n ih =>
    refine more_blockBitmapAlloc.bind fun r => ?_
    cases r with
    | none => exact retains_pure _
    | some lba => exact more_allocTurn p idx lba (ih _ _)

theorem spent_alloc {f : Option Nat → Prog Fs Buf (Option α)} (hnone : f none = pure none)
    (hsome : ∀ lba, Retains More (f (some lba))) (s : Fs) :
    ((blockBitmapAlloc >>= f).on s).Bare (fun r t => r = none → Spent s t) := by
  rw [bind_on, Res.bare_bind]
  refine bare_blockBitmapAlloc (fun hfull => ?_) fun i hi => ?_
  · rw [hnone]
    exact fun _ => .inl ⟨hfull, rfl⟩
  · exact (hsome _ _).mono fun _ _ ht _ => spent_of_alloc hi ht

theorem spent_allocBlocks (p n idx : Nat) (all : Nat → Nat) (s : Fs) :
    ((allocBlocks p n idx all).on s).Bare (fun r t => r = none → Spent s t) := by
  cases n with
  | zero => exact fun h => nomatch h
  | succ n =>
    rw [allocBlocks]
    refine spent_alloc ?_ (fun lba => ?_) s
    · rfl
    · exact more_allocTurn p idx lba (more_allocBlocks _ _ _ _)

theorem spent_then {c : Prog Fs Buf (Option (Nat → Nat))} {f : (Nat → Nat) → Prog Fs Buf Unit}
    (h : (c.on s).Bare (fun r t => r = none → Spent s t)) :
    ((do
      match ← c with
      | none => return none
      | some all =>
        f all
        return some all : Prog Fs Buf (Option (Nat → Nat))).on s).Bare (fun r t => r = none → Spent s t) := by
  rw [bind_on, Res.bare_bind]
  refine h.mono fun r t ht => ?_
  cases r with
  | none => exact ht
  | some all =>
    refine bare_last (fun _ u => ?_) t
    exact fun hc : some all = none => nomatch hc

theorem spent_collectBlocks (p count : Nat) (s : Fs) :
    ((collectBlocks p count).on s).Bare (fun r t => r = none → Spent s t) := by
  rw [collectBlocks, bind_on, Res.bare_bind]
  refine bare_getInode p s fun i hi => ?_
  dsimp only
  rw [bind_on, Res.bare_bind, bare_assert, ite_on]
  split
  · -- the write stays in the last block
    rw [ite_on]
    split
    · intro hc
      cases hc
    · refine bare_last (fun _ u => bare_last (fun table v => ?_) u) s
      intro hc
      cases (hc : some _ = none)
  · rw [ite_on]
    split
    · rw [bind_on, Res.bare_bind, bare_assert]
      exact spent_allocBlocks _ _ _ _ s
    · rw [ite_on]
      split
      · refine spent_alloc ?_ (fun lba => ?_) s
        · rfl
        · refine (retains_getInode p).bind fun _ => (retains_assert _).bind fun _ => (more_setSector _ _ _).bind fun _ => ?_
          refine (more_allocBlocks _ _ _ _).bind fun r => ?_
          cases r with
          | none => exact retains_pure _
          | some all => exact (more_ideWrite _ _ _).bind fun _ => retains_pure _
      · rw [bind_on, Res.bare_bind, bare_assert, bind_on, Res.bare_bind, bare_ideRead]
        exact spent_then (spent_allocBlocks _ _ _ _ s)

theorem spent_writeData (g p : Nat) (buf : Buf) (count : Nat) (s : Fs) :
    ((writeData g p buf count).on s).Bare (fun r t => r = -1 → Spent s t) := by
  rw [writeData, bind_on, Res.bare_bind]
  refine (spent_collectBlocks p count s).mono fun r t ht => ?_
  cases r with
  | none => exact fun _ => ht rfl
  | some all =>
    refine bare_last (fun i => bare_last fun f => bare_last fun _ => bare_last fun _ => bare_last fun _ =>
      bare_last fun _ u => ?_) t
    intro (hc : (count : Int) = -1)
    omega

theorem bare_firstBlock (p : Nat) (s : Fs) : ((firstBlock p).on s).Bare (fun b t =>
    (b = false → s.vol.blockBitmap.Full) ∧ (t = s ∨ b = true ∧ ∃ i, s.vol.blockBitmap.FirstFree i ∧
      More (s.putBlock i true) t)) := by
  rw [firstBlock, bind_on, Res.bare_bind]
  refine bare_getInode p s fun i _ => ?_
  rw [ite_on]
  split
  · rw [bind_on, Res.bare_bind]
    refine bare_blockBitmapAlloc (fun hfull => ⟨fun _ => hfull, .inl rfl⟩) fun i hi => ?_
    rw [bind_on, Res.bare_bind]
    refine (more_setSector p 0 _ _).mono fun _ t₁ h₁ => ?_
    simp only [bind_on, get_on, Res.bare_bind, Res.bare_done, bare_assert, pure_on]
    refine (more_bitmapSync _ t₁).mono fun _ t₂ h₂ => ?_
    exact ⟨fun hc => Bool.noConfusion hc, .inr ⟨trivial, i, hi, trans_of More h₁ h₂⟩⟩
  · exact ⟨fun hc => Bool.noConfusion hc, .inl rfl⟩

theorem spent_fileWrite (hpi : OpenAs s g p i) (hle : ¬512 * 140 < add32 i.iSize count) :
    ((fileWrite g buf count).on s).Bare (fun r t => r = -1 → Spent s t) := by
  simp only [fileWrite, fileInode, getInode, bind_on, get_on, Res.bind, hpi.file, hpi.inode, if_neg hle, pure_on]
  rw [Res.bare_bind]
  refine (bare_firstBlock p s).mono fun b t ht => ?_
  cases b with
  | false =>
    obtain ⟨hfull, rfl | ⟨hc, -⟩⟩ := ht
    · exact fun _ => .inl ⟨hfull rfl, rfl⟩
    · cases hc
  | true =>
    refine (spent_writeData g p buf count t).mono fun r u hu hr => ?_
    obtain ⟨-, rfl | ⟨-, i, hi, ht⟩⟩ := ht
    · exact hu hr
    · exact spent_of_alloc hi (trans_of More ht (hu hr).more)

structure Restored (s t : Fs) (p : Nat) (i : Inode) : Prop where
  bitmap : t.vol.blockBitmap = s.vol.blockBitmap
  synced : ∀ k < 512 * s.vol.sb.blockBitmapSects, t.vol.disk (512 * s.vol.sb.blockBitmapLba + k) =
    s.vol.disk (512 * s.vol.sb.blockBitmapLba + k)
  inode : ∃ j, t.mem.inodes p = some j ∧ j.iSize = i.iSize ∧ j.iSectors = i.iSectors
  table : t.vol.disk.slice (512 * i.iSectors 12) 512 = s.vol.disk.slice (512 * i.iSectors 12) 512

/-- The size is not too large, so it was a block that was missing. -/
theorem failed_write_restores_iff {t : Fs} (hpi : OpenAs s g p i) (hle : add32 i.iSize count ≤ 71680)
    (hrun : ((fileWrite g buf count).unchecked.on s).run = .ok (-1, t)) :
    Restored s t p i ↔ s.vol.blockBitmap.Full := by
  have hspent : Spent s t := (spent_fileWrite hpi (by omega)).of_run hrun rfl
  constructor
  · intro hr
    obtain ⟨hfull, -⟩ | ⟨-, j, -, hfree, hused⟩ := hspent
    · exact hfull
    · rw [hr.bitmap, hfree] at hused
      cases hused
  · intro hfull
    obtain ⟨-, rfl⟩ | ⟨-, j, hj, hfree, -⟩ := hspent
    · exact ⟨rfl, fun _ _ => rfl, ⟨i, hpi.inode, rfl, rfl⟩, rfl⟩
    · rw [hfull j hj] at hfree
      cases hfree

def crowded (bits : UInt8) : Fs where
  vol := ⟨0, 1000, ⟨0, 1000, 4096, 0, 1, 1, 2, 1, 3, 608, 611, 0, 24⟩, fun _ => 0, ⟨1, fun _ => bits⟩, ⟨512, fun _ => 0⟩⟩
  mem := ⟨Function.update (fun _ => none) 1 (some ⟨1, 0, 1, true, fun _ => 0⟩), [1], 0,
    Function.update (fun _ => ⟨0, 0, none⟩) 3 ⟨0, 2, some 1⟩, fun _ => none, fun _ _ => -1, fun _ => 0⟩

theorem full_map_restores : ∃ t, ((fileWrite 3 (fun _ => 65) 512).unchecked.on (crowded 0xFF)).run = .ok (-1, t) ∧
    Restored (crowded 0xFF) t 1 ⟨1, 0, 1, true, fun _ => 0⟩ := by
  have hrun : ((fileWrite 3 (fun _ => 65) 512).unchecked.on (crowded 0xFF)).run = .ok (-1, _) :=
    run_of_gives (by decide)
  have hfull : ∀ i < 8, (crowded 0xFF).vol.blockBitmap.bits.bit i = true := by decide
  exact ⟨_, hrun, (failed_write_restores_iff ⟨rfl, rfl⟩ (by decide) hrun).mpr hfull⟩

/-- The first block of the file was the last one of the partition. -/
theorem last_block_lost : ∃ t, ((fileWrite 3 (fun _ => 65) 512).unchecked.on (crowded 0x7F)).run = .ok (-1, t) ∧
    (crowded 0x7F).vol.blockBitmap.bits.bit 7 = false ∧ t.vol.blockBitmap.bits.bit 7 = true :=
  ⟨_, run_of_gives (by decide), by decide, by decide⟩

end Write

end Fs

end TrueOs
