import TrueOs.Spec.Cache

/-! The inode table: what `inode_sync` and `inode_delete` store is what `inode_open` reads,
whatever else is on the disk. -/

namespace TrueOs.Fs

open Prog

structure Vol.TableFits (v : Vol) : Prop where
  part : v.sb.inodeTableLba + 607 ≤ v.startLba + v.secCnt
  disk : v.sb.inodeTableLba + 607 ≤ maxLba

def Vol.inodeByte (v : Vol) (n : Nat) : Nat := 512 * v.sb.inodeTableLba + 76 * n

def Vol.inodeAt (v : Vol) (n : Nat) : Inode := Inode.ofBytes v.disk (v.inodeByte n)

structure Inode.Wide (i : Inode) : Prop where
  size : i.iSize < 2 ^ 32
  sector : ∀ k, i.iSectors k < 2 ^ 32
  last : ∀ k, 13 ≤ k → i.iSectors k = 0

def Vol.position (v : Vol) (n : Nat) : InodePosition :=
  ⟨512 - n * 76 % 512 < 76, v.sb.inodeTableLba + n * 76 / 512, n * 76 % 512⟩

section Position

variable (v : Vol) (n : Nat)

theorem Vol.position_fits : (v.position n).offSize + 76 ≤ 512 * (v.position n).secs := by
  simp only [Vol.position, InodePosition.secs, decide_eq_true_eq]
  split <;> omega

theorem Vol.position_byte : 512 * (v.position n).secLba + (v.position n).offSize = v.inodeByte n := by
  simp only [Vol.position, Vol.inodeByte]
  omega

end Position

section Runs

variable {s : Fs} {n lba cnt : Nat}

theorem run_ideRead (hl : lba ≤ maxLba) (hc : 0 < cnt) :
    ((ideRead lba cnt).on s).run = .ok (s.vol.disk.slice (512 * lba) (512 * cnt), s) := by
  simp [ideRead, assert, transfer, Res.bind, Res.run, hl, hc]

theorem run_ideWrite (hl : lba ≤ maxLba) (hc : 0 < cnt) (buf : Fs → Buf) :
    ((ideWrite lba cnt buf).on s).run =
      .ok ((), { s with vol := s.vol.write (512 * lba) (512 * cnt) (buf s) }) := by
  simp [ideWrite, assert, transfer, Res.bind, Res.run, hl, hc, Vol.write]

theorem run_inodeLocate (hn : n < 4096) : ((inodeLocate n).on s).run = .ok (s.vol.position n, s) := by
  simp [inodeLocate, assert, Res.bind, Res.run, hn, Vol.position]

theorem run_assertInPart (hv : s.vol.TableFits) (hn : n < 4096) :
    ((assertInPart (s.vol.position n)).on s).run = .ok ((), s) := by
  have h := hv.part
  have hle : s.vol.sb.inodeTableLba + n * 76 / 512 ≤ s.vol.startLba + s.vol.secCnt := by omega
  simp [assertInPart, assert, Res.bind, Res.run, Vol.position, hle]

theorem Vol.TableFits.position_lba (hv : s.vol.TableFits) (hn : n < 4096) : (s.vol.position n).secLba ≤ maxLba := by
  have h := hv.disk
  simp only [Vol.position]
  omega

theorem run_rewrite (hv : s.vol.TableFits) (hn : n < 4096) (b : Buf) :
    ((do
      let inodeBuf ← ideRead (s.vol.position n).secLba (s.vol.position n).secs
      ideWrite (s.vol.position n).secLba (s.vol.position n).secs
        (fun _ => inodeBuf.splice (s.vol.position n).offSize inodeSize b) : Prog Fs Buf Unit).on s).run =
      .ok ((), { s with vol := s.vol.write (s.vol.inodeByte n) 76 b }) := by
  have hl := hv.position_lba hn
  have hc := InodePosition.secs_pos (s.vol.position n)
  rw [run_seq (run_ideRead hl hc), run_ideWrite hl hc, Vol.write, Buf.splice_slice_splice (s.vol.position_fits n), s.vol.position_byte]
  rfl

theorem run_inodeSync {i : Inode} (hv : s.vol.TableFits) (hn : i.iNo < 4096) :
    ((inodeSync i).on s).run =
      .ok ((), { s with vol := s.vol.write (s.vol.inodeByte i.iNo) 76 i.toPure.bytes }) := by
  rw [inodeSync, run_seq (run_inodeLocate hn), run_seq (run_assertInPart hv hn)]
  exact run_rewrite hv hn _

theorem run_inodeDelete (hv : s.vol.TableFits) (hn : n < 4096) :
    ((inodeDelete n).on s).run =
      .ok ((), { s with vol := s.vol.write (s.vol.inodeByte n) 76 (fun _ => 0) }) := by
  have hassert : ((assert (n < 4096) : Prog Fs Buf Unit).on s).run = .ok ((), s) := by
    simp [assert, Res.run, hn]
  rw [inodeDelete, run_seq hassert, run_seq (run_inodeLocate hn), run_seq (run_assertInPart hv hn)]
  exact run_rewrite hv hn _

end Runs

def opens (v : Vol) (m : Mem) (n : Nat) : Except Stop (Nat × Mem) :=
  ((inodeOpen n).on ⟨v, m⟩).run.map (fun r => (r.1, r.2.mem))

section Opens

variable {v v' : Vol} {m : Mem} {n : Nat}

theorem opens_uncached (hv : v.TableFits) (hn : n < 4096) (hf : m.find n = none) :
    opens v m n = .ok (m.fresh, m.push m.fresh ((v.inodeAt n).cnt 1)) := by
  have hl := Vol.TableFits.position_lba (s := ⟨v, m⟩) hv hn
  have hi : Inode.ofBytes (v.disk.slice (512 * (v.position n).secLba) (512 * (v.position n).secs))
      (v.position n).offSize = v.inodeAt n := by
    apply ofBytes_congr
    intro k hk
    have := v.position_fits n
    rw [Buf.slice_of_lt (by omega), ← v.position_byte n, Nat.add_assoc]
  have hrun : ((inodeOpen n).on ⟨v, m⟩).run = .ok (m.fresh, ⟨v, m.push m.fresh ((v.inodeAt n).cnt 1)⟩) := by
    simp only [inodeOpen, bind_on, get_on, Res.bind, hf]
    rw [Res.run_bind, run_inodeLocate hn]
    show ((ideRead _ _ >>= fun _ => _).on _).run = _
    rw [bind_on, Res.run_bind, run_ideRead hl (InodePosition.secs_pos _)]
    show Except.ok (m.fresh, (⟨v, m.push m.fresh ((Inode.ofBytes (v.disk.slice (512 * (v.position n).secLba)
      (512 * (v.position n).secs)) (v.position n).offSize).cnt 1)⟩ : Fs)) = _
    rw [hi]
  rw [opens, hrun]
  rfl

theorem opens_cached {p : Nat} (hf : m.find n = some p) : opens v m n = opens v' m n := by
  obtain ⟨-, i, hi, -⟩ := Mem.find_some hf
  simp [opens, inodeOpen, getInode, setInode, Res.bind, Res.run, hf, hi, Except.map]

theorem opens_congr (hv : v.TableFits) (hv' : v'.TableFits) (hn : n < 4096) (h : v.inodeAt n = v'.inodeAt n) :
    opens v m n = opens v' m n := by
  cases hf : m.find n with
  | some p => exact opens_cached hf
  | none => rw [opens_uncached hv hn hf, opens_uncached hv' hn hf, h]

end Opens

structure Stored (s t : Fs) (n : Nat) (j : Inode) : Prop where
  mem : t.mem = s.mem
  vol : t.vol = { s.vol with disk := t.vol.disk }
  outside : ∀ a, a < 512 * s.vol.sb.inodeTableLba ∨ 512 * (s.vol.sb.inodeTableLba + 608) ≤ a →
    t.vol.disk a = s.vol.disk a
  self : ∀ m : Mem, m.find n = none →
    ∃ m', opens t.vol m n = .ok (m.fresh, m') ∧ m'.inodes m.fresh = some j
  other : ∀ k < 4096, k ≠ n → ∀ m : Mem, opens t.vol m k = opens s.vol m k

theorem stored_write {s : Fs} (hv : s.vol.TableFits) {n : Nat} (hn : n < 4096) (b : Buf) :
    Stored s { s with vol := s.vol.write (s.vol.inodeByte n) 76 b } n ((Inode.ofBytes b 0).cnt 1) where
  mem := rfl
  vol := rfl
  outside a ha := by
    apply Buf.splice_of_not_mem
    simp only [Vol.inodeByte]
    omega
  self m hf := by
    have hi : (s.vol.write (s.vol.inodeByte n) 76 b).inodeAt n = Inode.ofBytes b 0 := by
      apply ofBytes_congr
      intro k hk
      show s.vol.disk.splice (s.vol.inodeByte n) 76 b (s.vol.inodeByte n + k) = b (0 + k)
      rw [Buf.splice_of_mem (by omega) (by omega)]
      congr 1
      omega
    have hv' : (s.vol.write (s.vol.inodeByte n) 76 b).TableFits := ⟨hv.part, hv.disk⟩
    refine ⟨_, opens_uncached hv' hn hf, ?_⟩
    rw [Mem.push_inodes, Function.update_self, hi]
  other k hk hkn m := by
    have hv' : (s.vol.write (s.vol.inodeByte n) 76 b).TableFits := ⟨hv.part, hv.disk⟩
    apply opens_congr hv' hv hk
    apply ofBytes_congr
    intro j hj
    apply Buf.splice_of_not_mem
    simp only [Vol.inodeByte, Vol.write]
    omega

theorem Inode.Wide.ofBytes_toPure {i : Inode} (h : i.Wide) (hn : i.iNo < 4096) :
    Inode.ofBytes i.toPure.bytes 0 = ⟨i.iNo, i.iSize, 0, false, i.iSectors⟩ := by
  rw [ofBytes_clean, Inode.clean, Nat.mod_eq_of_lt (by omega), Nat.mod_eq_of_lt h.size]
  congr 1
  funext k
  split
  · exact Nat.mod_eq_of_lt (h.sector k)
  · rw [h.last k (by omega)]

theorem inode_table_round_trip (s : Fs) (hv : s.vol.TableFits) {n : Nat} (hn : n < 4096) :
    (∀ i : Inode, i.iNo = n → i.Wide → ∃ t, ((inodeSync i).on s).run = .ok ((), t) ∧
        Stored s t n ⟨n, i.iSize, 1, false, i.iSectors⟩) ∧
      ∃ t, ((inodeDelete n).on s).run = .ok ((), t) ∧ Stored s t n ⟨0, 0, 1, false, fun _ => 0⟩ := by
  refine ⟨?_, ?_⟩
  · rintro i rfl hi
    refine ⟨_, run_inodeSync hv hn, ?_⟩
    have := stored_write hv hn i.toPure.bytes
    rwa [hi.ofBytes_toPure hn] at this
  · refine ⟨_, run_inodeDelete hv hn, ?_⟩
    have := stored_write hv hn (fun _ => 0)
    have hz : (Inode.ofBytes (fun _ => 0) 0).cnt 1 = ⟨0, 0, 1, false, fun _ => 0⟩ := by
      simp [Inode.ofBytes, Inode.cnt]
    rwa [hz] at this

def packed : Fs where
  vol := ⟨0, 1000, ⟨0, 1000, 4096, 0, 1, 1, 2, 1, 3, 608, 611, 0, 24⟩, fun _ => 0xFF, ⟨512, fun _ => 0⟩,
    ⟨512, fun _ => 0⟩⟩
  mem := ⟨fun _ => none, [], 0, fun _ => ⟨0, 0, none⟩, fun _ => none, fun _ _ => -1, fun _ => 0⟩

/-- Inode 6 lies in two sectors. -/
theorem round_trip_two_sectors : packed.vol.TableFits ∧ (packed.vol.position 6).twoSec = true ∧
    ∃ t, ((inodeDelete 6).on packed).run = .ok ((), t) ∧ Stored packed t 6 ⟨0, 0, 1, false, fun _ => 0⟩ :=
  have hv : packed.vol.TableFits := ⟨by decide, by decide⟩
  ⟨hv, by decide, (inode_table_round_trip packed hv (by decide)).2⟩

end TrueOs.Fs
