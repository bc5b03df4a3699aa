import TrueOs.Spec.Removing
import Mathlib.Order.Interval.Finset.Nat

/-! Which paths the system calls take without halting the kernel. -/

namespace TrueOs.Fs

open Prog

section Reading

variable {g : Geom} {w : View} {m : Mem} {γ : Ghost} {s : Fs} {p : List UInt8} {stack : Stack}

theorem sat_dirClose_beside {par n : Nat} {E : Prop} (h : At g w ((m.opened w par).opened w n) s)
    (hS : Sane g w m γ) (hc : Calm m) (hpar : IsDir w γ par) :
    ((dirClose (.heap (m.ptr par))).on s).Sat E (fun _ _ => True) := by
  have hC₁ : Cached w (m.at w (some par)) := hS.cached_at hc hpar
  obtain ⟨i, hi, -⟩ := opened_old (n := n) hC₁ (Mem.opened_inodes par)
  exact sat_inodeClose h hi fun _ _ => trivial

theorem sat_sysOpendir {E : Prop} (h : At g w m s) (hS : Sane g w m γ) (hc : Calm m) (hnul : 0 ∉ p)
    (hp : components p ≠ [] ∨ isRootPath p = true) (hE : E ∨ PathOk p) :
    ((sysOpendir stack p).on s).Sat E (fun _ _ => True) := by
  have hI := hS.dirs hc.counted
  rw [sysOpendir, sat_bind, sat_assert, decide_eq_true_eq, decide_eq_false_iff_not]
  refine ⟨fun _ => ?_, fun hlen => hE.resolve_right fun hp => hlen hp.len⟩
  by_cases hslash : p = [slash]
  · rw [if_pos hslash]
    trivial
  rw [if_neg hslash, sat_bind]
  apply sat_searchFile h hI hnul hE
  intro r m' t _ _ hf ht
  dsimp only
  cases hf with
  | root hr =>
    rw [if_pos ⟨by decide, rfl⟩, sat_bind]
    apply sat_dirOpen ht (Or.inr (by decide))
    intro t' _
    trivial
  | slashes hr hcs => exact absurd hp (by simp [hr, hcs])
  | dir par no hr hcs hs hw =>
    have hroot : IsDir w γ ((none : Option Nat).getD 0) := hI.root.1
    obtain ⟨_, c, e, -, hpar, hl, hty, rfl⟩ := hI.walk_dir hroot hcs hw
    have hlt := (hI.no _ (hI.lookup_dir hpar hl hty)).1
    rw [if_pos ⟨by omega, rfl⟩, uint32_of_lt (by omega), sat_bind]
    apply sat_dirOpen ht (Or.inr hlt)
    intro t' ht'
    rw [sat_bind]
    exact sat_dirClose_beside ht' hS hc hpar
  | file c no tried left hr hcs hne hs hw =>
    rw [if_neg fun hc => absurd hc.2 (show ¬ftRegular = ftDirectory by decide)]
    exact sat_dirClose_return c ht hI fun _ _ => trivial
  | miss c tried left hr hcs hne hs hw =>
    rw [if_neg fun hc => absurd hc.2 (show ¬ftUnknown = ftDirectory by decide)]
    exact sat_dirClose_return c ht hI fun _ _ => trivial

theorem sat_sysStat {E : Prop} (h : At g w m s) (hS : Sane g w m γ) (hc : Calm m) (hnul : 0 ∉ p)
    (hp : components p ≠ [] ∨ isRootPath p = true) (hE : E ∨ PathOk p) :
    ((sysStat stack p).on s).Sat E (fun _ _ => True) := by
  have hI := hS.dirs hc.counted
  rw [sysStat]
  by_cases hroot : isRootPath p = true
  · obtain ⟨i, hi, -⟩ := hS.cached.root
    rw [if_pos hroot, sat_bind, sat_get, h.mem, sat_bind]
    exact sat_getInode h hi trivial
  rw [if_neg hroot, sat_bind]
  apply sat_searchFile h hI hnul hE
  intro r m' t _ _ hf ht
  dsimp only
  -- the inode is opened beside the directory, and closed again
  have hopen : ∀ (cur : Option Nat) n u, IsDir w γ (cur.getD 0) → w.ibit n = true →
      At g w (m.at w cur) u → ((do
        let p ← inodeOpen (uint32 n)
        let i ← getInode p
        inodeClose p
        dirClose (m.ref cur)
        return some ⟨uint32 n, i.iSize, r.2.fileType⟩ : Prog Fs Buf (Option Stat)).on u).Sat E
          (fun _ _ => True) := by
    intro cur n u hd hn hu
    have hlt := (hS.tree.no n hn).1
    have hS' : Sane g w (m.at w cur) γ := hS.at hc hd
    rw [uint32_of_lt (by omega), sat_bind]
    apply sat_inodeOpen hu (Or.inr hlt)
    intro u₁ hu₁
    rw [sat_bind]
    apply sat_getInode hu₁ (Mem.opened_inodes n)
    rw [sat_bind]
    apply sat_inodeClose hu₁ (Mem.opened_inodes n)
    rw [hS'.cached.closed_opened (hS.counted_at hc hd)]
    intro u₂ hu₂
    rw [sat_bind]
    exact sat_dirClose_ref hu₂ hI fun _ _ => trivial
  have hstart : IsDir w γ ((none : Option Nat).getD 0) := hI.root.1
  cases hf with
  | root hr => exact absurd hr hroot
  | slashes hr hcs => exact absurd hp (by simp [hr, hcs])
  | dir par no hr hcs hs hw =>
    obtain ⟨_, c, e, -, hpar, hl, hty, rfl⟩ := hI.walk_dir hstart hcs hw
    rw [if_pos (by omega)]
    exact hopen (some par) e.ino t hpar (hI.lookup_dir hpar hl hty).1 ht
  | file c no tried left hr hcs hne hs hw =>
    obtain ⟨_, _, e, _, hd, hl, hty, rfl⟩ := hI.walk_file hstart hw
    obtain ⟨k, j, he, -⟩ := lookup_some hl
    rw [if_pos (by omega)]
    exact hopen c e.ino t hd (hI.target hd he).1 ht
  | miss c tried left hr hcs hne hs hw =>
    rw [if_neg fun hc => hc rfl]
    exact sat_dirClose_return c ht hI fun _ _ => trivial

end Reading

inductive PathCall
  | openFile (cur flags : Nat)
  | unlink
  | mkdir
  | rmdir
  | opendir
  | chdir (cur : Nat)
  | stat

def PathCall.run (stack : Stack) (p : List UInt8) : PathCall → Prog Fs Buf Unit
  | .openFile cur flags => do let _ ← sysOpen stack cur p flags
  | .unlink => do let _ ← sysUnlink stack p
  | .mkdir => do let _ ← sysMkdir stack p
  | .rmdir => do let _ ← sysRmdir stack p
  | .opendir => do let _ ← sysOpendir stack p
  | .chdir cur => do let _ ← sysChdir stack cur p
  | .stat => do let _ ← sysStat stack p

/-- What a caller has to know beside the form of the path: flags are those of `fs.h`, and
the root is not removed. -/
def PathCall.Allowed (w : View) (p : List UInt8) : PathCall → Prop
  | .openFile _ flags => flags ≤ 7
  | .unlink => ¬ToRoot w p
  | .rmdir => ¬ToRoot w p
  | _ => True

section Calls

variable {g : Geom} {w : View} {m : Mem} {γ : Ghost} {s : Fs} {p : List UInt8} {stack : Stack} {call : PathCall}

end Calls

section Start

variable {startLba secCnt : Nat} {h : Sized startLba secCnt} {w : View}

namespace Formatted

theorem sane (hf : Formatted (formatGeom h) w (blockBitmapBitLen secCnt)) :
    Sane (formatGeom h) w (mountMem w) rootGhost where
  own := hf.own (Nat.lt_of_le_of_lt (Nat.le_add_right _ 3) (formatGeom_base_add_lt h).1)
  tree := hf.tree
  cached := hf.cached
  base := by rw [hf.sec, Function.update_self]

theorem spare (hf : Formatted (formatGeom h) w (blockBitmapBitLen secCnt)) : Spare (formatGeom h) w where
  room := by
    obtain ⟨h₁, h₂, h₃⟩ := formatGeom_base_add_lt h
    have hsub : Finset.Icc ((formatGeom h).base + 1) ((formatGeom h).base + 3) ⊆ freeBlocks (formatGeom h) w := by
      intro l hl
      rw [Finset.mem_Icc] at hl
      simp only [freeBlocks, Finset.mem_filter, Finset.mem_range]
      refine ⟨by omega, by omega, by omega, ?_⟩
      rw [hf.used, decide_eq_false (p := _ ∨ _) (by omega), Bool.and_false]
    have hcard := Finset.card_le_card hsub
    rw [Nat.card_Icc] at hcard
    rw [Room]
    omega
  inode := ⟨1, by omega, by rw [hf.ibit]; rfl⟩

theorem tame (hf : Formatted (formatGeom h) w (blockBitmapBitLen secCnt)) : Tame w rootGhost where
  flat d hd := by
    obtain rfl := hf.eq_zero hd.1
    rw [hf.sec]
    rfl
  low n q hn := by
    by_cases hq : w.hold (w.sec n) q = 0
    · rw [hq]
      exact Nat.zero_le _
    · rw [(hf.hold hn hq).2.2]
      exact (formatGeom h).data_lba

end Formatted

end Start

end TrueOs.Fs
