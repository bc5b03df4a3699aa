import TrueOs.Spec.Entries
import TrueOs.Spec.Sizes

/-! The largest file that `file_write` makes. -/

namespace TrueOs.Fs

open Prog

section Limit

variable {g : Geom} {w : View} {m : Mem} {s : Fs} {p k count : Nat} {i : Inode} {buf : Buf}

structure Limited (s : Fs) (k p size : Nat) (buf : Buf) (count : Nat) : Prop where
  fits : size + count ≤ 71680 → ∃ t, ((fileWrite k buf count).on s).run = .ok ((count : Int), t) ∧
    (t.mem.inodes p).map Inode.iSize = some (size + count)
  exceeds : 71680 < size + count → ((fileWrite k buf count).on s).run = .ok (-1, s)

structure Kept (w : View) (i : Inode) : Prop where
  rep : FileRep w i.iSectors i.iSize
  own : OwnSec w i.iSectors
  high : ∀ q, w.hold i.iSectors q ≤ maxLba

theorem kept_new (w : View) (no cnt : Nat) (deny : Bool) : Kept w ⟨no, 0, cnt, deny, fun _ => 0⟩ where
  rep := fileRep_new w
  own := ⟨fun q hq => absurd (hold_zero w q) hq, fun q _ hq => absurd (hold_zero w q) hq⟩
  high q := by
    rw [hold_zero]
    exact Nat.zero_le _

theorem run_fileWrite_exceeds (hk : OpenAs s k p i) (hbig : 512 * 140 < add32 i.iSize count) :
    ((fileWrite k buf count).on s).run = .ok (-1, s) := by
  simp only [fileWrite, fileInode, getInode, bind_on, get_on, Res.bind, hk.file, hk.inode, if_pos hbig, pure_on]
  rfl

theorem run_fileWrite_fits (h : At g w m s) (hk : OpenAs s k p i) (hw : Kept w i) (hbase : w.used g.base = true)
    (hroom : Room g w (newBlocks (blockCount i.iSectors i.iSize) ((i.iSize + count) / 512))) (hno : i.iNo < 4096)
    (hlt : i.iSize + count < 71680) : ∃ t, ((fileWrite k buf count).on s).run = .ok ((count : Int), t) ∧
      (t.mem.inodes p).map Inode.iSize = some (i.iSize + count) := by
  have hwr : Writable g w i count := ⟨hw.rep, hw.own.used, hw.high, hlt, hbase, hroom⟩
  have hsat : ((fileWrite k buf count).on s).Sat False (fun r t =>
      r = (count : Int) ∧ (t.mem.inodes p).map Inode.iSize = some (i.iSize + count)) := by
    apply sat_fileWrite h (h.mem ▸ hk.file) (h.mem ▸ hk.inode) hwr hno
    intro sec W pos t ht
    refine ⟨rfl, ?_⟩
    rw [ht.mem]
    simp only [Mem.writing, Mem.setFile_inodes, Mem.set_inodes_self, Option.map_some, Inode.body_iSize]
  obtain ⟨r, t, hrun, rfl, hsize⟩ := hsat.exists_run
  exact ⟨t, hrun, hsize⟩

theorem run_fileWrite_inside (hk : OpenAs s k p i) (hsize : i.iSize < 2 ^ 32) {r : Int} {t : Fs}
    (hrun : ((fileWrite k buf count).on s).run = .ok (r, t)) :
    512 * 140 < add32 i.iSize count ∨ add32 i.iSize count < 512 * 140 ∧ (0 < count → i.iSize + count ≤ 512 * 140) := by
  have hone : ∀ q j, OpenAs s k q j → q = p ∧ j = i := by
    intro q j hq
    cases hk.file.symm.trans hq.file
    cases hk.inode.symm.trans hq.inode
    exact ⟨rfl, rfl⟩
  obtain ⟨q, j, hq, hcase⟩ := (sat_fileWrite_sizes fun q j hq => (hone q j hq).2 ▸ hsize).of_run hrun
  obtain ⟨rfl, rfl⟩ := hone q j hq
  obtain ⟨-, hbig, -⟩ | ⟨-, hlt, happ⟩ := hcase
  · exact .inl hbig
  · exact .inr ⟨hlt, happ.fits⟩

/-- Writing up to the last byte trips an `ASSERT`, and a sum beyond 32 bits is taken for a small one. -/
theorem write_limit_iff (h : At g w m s) (hk : OpenAs s k p i) (hsize : i.iSize ≤ 71680)
    (hw : i.iSize < 71680 → Kept w i) (hbase : w.used g.base = true) (hroom : i.iSize + count < 71680 →
      Room g w (newBlocks (blockCount i.iSectors i.iSize) ((i.iSize + count) / 512))) (hno : i.iNo < 4096)
    (hcount : count < 2 ^ 32) :
    Limited s k p i.iSize buf count ↔ i.iSize + count ≠ 71680 ∧ i.iSize + count < 2 ^ 32 := by
  constructor
  · intro hlim
    obtain ⟨r, t, hrun⟩ : ∃ r t, ((fileWrite k buf count).on s).run = .ok (r, t) := by
      by_cases hle : i.iSize + count ≤ 71680
      · obtain ⟨t, hrun, -⟩ := hlim.fits hle
        exact ⟨_, t, hrun⟩
      · exact ⟨_, _, hlim.exceeds (by omega)⟩
    have hin := run_fileWrite_inside hk (by omega) hrun
    rw [add32] at hin
    omega
  · rintro ⟨hne, hlt⟩
    refine ⟨fun hle => ?_, fun hbig => run_fileWrite_exceeds hk ?_⟩
    · exact run_fileWrite_fits h hk (hw (by omega)) hbase (hroom (by omega)) hno (by omega)
    · rw [add32_of_lt hlt]
      exact hbig

def smallGeom : Geom :=
  ⟨0, 1000, ⟨0, 1000, 4096, 0, 1, 1, 2, 1, 3, 608, 611, 0, 24⟩, rfl, rfl, by decide, by decide, by decide, by decide,
    by decide, by decide, by decide⟩

def justCreated : Fs where
  vol := ⟨0, 1000, smallGeom.sb, fun _ => 0, ⟨512, Function.update (fun _ => 0) 0 1⟩, ⟨512, fun _ => 0⟩⟩
  mem := ⟨Function.update (fun _ => none) 1 (some ⟨1, 0, 1, true, fun _ => 0⟩), [1], 0,
    Function.update (fun _ => ⟨0, 0, none⟩) 3 ⟨0, 2, some 1⟩, fun _ => none, fun _ _ => -1, fun _ => 0⟩

theorem write_limit_one_byte : Limited justCreated 3 1 0 (fun _ => 65) 1 := by
  have hat : At smallGeom (smallGeom.view justCreated.vol) justCreated.mem justCreated :=
    ⟨rfl, rfl, rfl, rfl, rfl, rfl, rfl⟩
  have hroom : Room smallGeom (smallGeom.view justCreated.vol) (newBlocks (blockCount (fun _ => 0) 0) ((0 + 1) / 512)) := by
    refine Finset.card_pos.mpr ⟨612, ?_⟩
    simp only [freeBlocks, Finset.mem_filter, Finset.mem_range]
    decide
  exact (write_limit_iff (i := ⟨1, 0, 1, true, fun _ => 0⟩) hat ⟨rfl, rfl⟩ (by decide) (fun _ => kept_new _ _ _ _)
    (by decide) (fun _ => hroom) (by decide) (by decide)).mpr (by decide)

theorem write_whole_limit : ((fileWrite 3 (fun _ => 65) 71680).on justCreated).run = .error .assert :=
  run_of_stops (by decide)

end Limit

end TrueOs.Fs
