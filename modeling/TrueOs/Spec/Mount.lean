import TrueOs.Lib.Keeps
import TrueOs.Spec.Format

/-! A partition that was just formatted and mounted is consistent. -/

namespace TrueOs.Fs

open Prog

theorem hold_single (w : View) (lba q : Nat) :
    w.hold (Function.update (fun _ => 0) 0 lba) q = if q = 0 then lba else 0 := by
  rcases hold_cases q with hq | rfl | ⟨k, hk, rfl⟩
  · rw [hold_of_lt hq, addr_single]
  · rw [hold_table]
    rfl
  · rw [hold_succ hk, addr_single, if_neg (by omega), if_neg (by omega)]

def rootGhost : Ghost := ⟨fun n => decide (n = 0), fun _ => 0⟩

def mountMem (w : View) : Mem := { bootMem.opened w 0 with rootDir := bootMem.ptr 0 }

theorem mountMem_inodes {w : View} {p : Nat} {i : Inode} (hi : (mountMem w).inodes p = some i) : p = 1 ∧ i = (w.ino 0).cnt 1 := by
  have : (mountMem w).inodes p = Function.update (fun _ => none) 1 (some ((w.ino 0).cnt 1)) p := rfl
  rw [this] at hi
  by_cases hp : p = 1
  · subst hp
    rw [Function.update_self, Option.some.injEq] at hi
    exact ⟨rfl, hi.symm⟩
  · rw [Function.update_of_ne hp] at hi
    cases hi

theorem Tree.mount {g : Geom} {w : View} {γ : Ghost} (h : Tree g w γ) : Cached w (mountMem w) := by
  have hno : ((w.ino 0).cnt 1).iNo = 0 := (h.no 0 h.root.1).2
  constructor
  · exact List.nodup_singleton 1
  · intro p
    constructor
    · intro hp
      obtain rfl := List.mem_singleton.mp hp
      exact ⟨(w.ino 0).cnt 1, rfl⟩
    · rintro ⟨i, hi⟩
      exact List.mem_singleton.mpr (mountMem_inodes hi).1
  · intro p i hi
    obtain ⟨-, rfl⟩ := mountMem_inodes hi
    rw [hno]
    exact h.root.1
  · intro p i hi
    obtain ⟨-, rfl⟩ := mountMem_inodes hi
    rw [hno]
    exact ⟨rfl, rfl⟩
  · intro p i hi
    obtain ⟨-, rfl⟩ := mountMem_inodes hi
    exact Nat.le_refl 1
  · intro p i q j hi hj _
    rw [(mountMem_inodes hi).1, (mountMem_inodes hj).1]
  · exact ⟨(w.ino 0).cnt 1, rfl, hno⟩

namespace Formatted

variable {g : Geom} {w : View} {len : Nat}

section

variable (h : Formatted g w len)
include h

theorem sec : w.sec 0 = Function.update (fun _ => 0) 0 g.base := by
  rw [View.sec, h.root, rootInode]

theorem rep : DirRep g w (w.sec 0) 0 0 := by
  rw [h.sec]
  exact dirRep_new (by omega) (by omega) h.blk (Nat.le_refl _) g.data_lba

theorem not_normal {k j : Nat} {e : Ent}
    (he : w.ent (w.sec 0) k j = some e) : e.normal = false := by
  rw [h.sec] at he
  exact new_not_normal (by omega) (by omega) h.blk (by have := g.base_pos; omega) he

theorem eq_zero {n : Nat} (hn : w.ibit n = true) : n = 0 := by
  simpa [h.ibit] using hn

theorem hold {n q : Nat} (hn : w.ibit n = true)
    (hq : w.hold (w.sec n) q ≠ 0) : n = 0 ∧ q = 0 ∧ w.hold (w.sec n) q = g.base := by
  obtain rfl := h.eq_zero hn
  rw [h.sec, hold_single] at hq ⊢
  split at hq
  · rename_i h0
    exact ⟨rfl, h0, if_pos h0⟩
  · exact absurd rfl hq

theorem own (htop : g.base < g.top) : Own w where
  used n q hn hq := by
    rw [(h.hold hn hq).2.2, h.used, decide_eq_true ⟨Nat.le_refl _, htop⟩]
    simp
  once n q n' q' hn hn' hq he := by
    obtain ⟨h₁, h₂, -⟩ := h.hold hn hq
    obtain ⟨h₃, h₄, -⟩ := h.hold hn' (he ▸ hq)
    exact ⟨h₁.trans h₃.symm, h₂.trans h₄.symm⟩

theorem tree : Tree g w rootGhost where
  root := ⟨by rw [h.ibit]; rfl, rfl, rfl⟩
  no n hn := by
    obtain rfl := h.eq_zero hn
    exact ⟨by omega, by rw [h.root]; rfl⟩
  clean n hn := by
    obtain rfl := h.eq_zero hn
    rw [h.root]
    exact clean_rootInode g.data_lba
  dir d hd _ := by
    obtain rfl := h.eq_zero hd
    exact h.rep
  file n hn hf := by
    obtain rfl := h.eq_zero hn
    cases hf
  ent d k j e hd _ he hn := by
    obtain rfl := h.eq_zero hd
    rw [h.not_normal he] at hn
    cases hn
  once d k j e k' j' e' hd _ he _ hn := by
    obtain rfl := h.eq_zero hd
    rw [h.not_normal he] at hn
    cases hn
  par n _ := ⟨by rw [h.ibit]; rfl, rfl⟩
  size d hd _ := by
    obtain rfl := h.eq_zero hd
    have : children w rootGhost 0 = ∅ := by
      rw [Finset.eq_empty_iff_forall_notMem]
      intro n hn
      obtain ⟨-, hb, h0, -⟩ := mem_children.mp hn
      exact h0 (h.eq_zero hb)
    rw [this, h.root]
    rfl

theorem cached : Cached w (mountMem w) := h.tree.mount

end

theorem calm : Calm (mountMem w) := by
  intro p i hi
  obtain ⟨-, rfl⟩ := mountMem_inodes hi
  exact show 1 + 4 < 2 ^ 32 by decide

end Formatted

theorem sat_filesysInit {startLba secCnt : Nat} (h : Sized startLba secCnt) (pad disk : Buf)
    {R : Unit → Fs → Prop} (hR : ∀ w s, Formatted (formatGeom h) w (blockBitmapBitLen secCnt) →
      At (formatGeom h) w (mountMem w) s → R () s) :
    ((filesysInit pad).on (bootState startLba secCnt disk)).Sat False R := by
  have hdata : (formatSuper startLba secCnt).dataStartLba ≤ maxLba := (formatGeom h).data_lba
  rw [filesysInit, sat_bind]
  apply sat_partitionFormat h.large hdata
  rw [sat_bind]
  apply sat_mountPartition h.large hdata
  obtain ⟨w, hf, hat⟩ := at_mount h pad disk bootMem
  rw [openRootDir, sat_bind, sat_get, hat.sb, Geom.rootNo, sat_bind]
  apply sat_inodeOpen hat (Or.inr (by omega))
  intro t ht
  rw [sat_modify, ht.mem]
  exact hR w _ hf (ht.withMem _)

section Small

variable {startLba secCnt : Nat}

theorem formatGeom_base_add_lt (h : Sized startLba secCnt) : (formatGeom h).base + 3 < (formatGeom h).top ∧
    (formatGeom h).base + 3 ≤ maxLba ∧ 3 ≤ blockBitmapBitLen secCnt := by
  have hbase : (formatGeom h).base = (formatSuper startLba secCnt).dataStartLba := rfl
  have htop : (formatGeom h).top = (formatSuper startLba secCnt).dataStartLba +
    4096 * (formatSuper startLba secCnt).blockBitmapSects := rfl
  have h₁ := h.1
  have h₂ := h.2
  rw [hbase, htop, dataStartLba_eq, blockBitmapSects_eq h.large, bitLen_eq h.large]
  simp only [maxLba] at h₂ ⊢
  omega

theorem sized_small : Sized 63 1000 := by
  constructor <;> decide

@[irreducible] def mounted : Fs := (filesysInit fun _ => 0).after (bootState 63 1000 fun _ => 0)

def noStack : Stack := ⟨⟨fun _ => 0, 0, 0⟩, fun _ => 0, fun _ => 0⟩

theorem sat_mount : ((filesysInit fun _ => 0).on (bootState 63 1000 fun _ => 0)).Sat False (fun _ s =>
    ∃ w, Formatted (formatGeom sized_small) w (blockBitmapBitLen 1000) ∧
      At (formatGeom sized_small) w (mountMem w) s) :=
  sat_filesysInit sized_small _ _ fun w _ hf h => ⟨w, hf, h⟩

theorem mounted_run : ((filesysInit fun _ => 0).on (bootState 63 1000 fun _ => 0)).run = .ok ((), mounted) := by
  obtain ⟨⟨⟩, s, hrun, -⟩ := sat_mount.exists_run
  rw [mounted]
  apply run_after
  rw [returns, hrun]
  rfl

theorem at_mounted : ∃ w, Formatted (formatGeom sized_small) w (blockBitmapBitLen 1000) ∧
    At (formatGeom sized_small) w (mountMem w) mounted := sat_mount.of_run mounted_run

end Small

end TrueOs.Fs
