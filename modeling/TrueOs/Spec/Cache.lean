import TrueOs.Spec.Prim
import Mathlib.Data.List.Nodup

/-! `open_inodes`: opening an inode and closing it again leaves the tables alone. -/

namespace TrueOs.Fs

open Prog

namespace Mem

@[simps] def set (m : Mem) (p : Nat) (i : Inode) : Mem :=
  { m with inodes := Function.update m.inodes p (some i) }

@[simps] def push (m : Mem) (p : Nat) (i : Inode) : Mem :=
  { m with inodes := Function.update m.inodes p (some i), openInodes := p :: m.openInodes }

@[simps] def drop (m : Mem) (p : Nat) : Mem :=
  { m with inodes := Function.update m.inodes p none, openInodes := m.openInodes.erase p }

def ptr (m : Mem) (n : Nat) : Nat := (m.find n).getD m.fresh

def deliver (m : Mem) (w : View) (n : Nat) : Inode :=
  ((m.find n).bind m.inodes).getD (w.ino n)

def opened (m : Mem) (w : View) (n : Nat) : Mem :=
  match m.find n with
  | some p => m.set p ((m.deliver w n).cnt (add32 (m.deliver w n).iOpenCnts 1))
  | none => m.push m.fresh ((w.ino n).cnt 1)

def closed (m : Mem) (p : Nat) : Mem :=
  match m.inodes p with
  | some i =>
    if sub32 i.iOpenCnts 1 = 0 then m.drop p else m.set p (i.cnt (sub32 i.iOpenCnts 1))
  | none => m

structure Ok (m : Mem) : Prop where
  nodup : m.openInodes.Nodup
  obj : ∀ p ∈ m.openInodes, ∃ i, m.inodes p = some i
  known : ∀ p i, m.inodes p = some i →
    p ∈ m.openInodes ∨ ∃ k < 32, (m.fileTable k).fdInode = some p

end Mem

section Tables

variable {m : Mem} {w : View} {n p q : Nat} {i : Inode}

theorem le_foldr_max {l : List Nat} {x : Nat} (h : x ∈ l) : x ≤ l.foldr max 0 := by
  induction l with
  | nil => cases h
  | cons y l ih =>
    simp only [List.foldr_cons]
    rcases List.mem_cons.mp h with rfl | h
    · exact Nat.le_max_left _ _
    · exact Nat.le_trans (ih h) (Nat.le_max_right _ _)

@[simp] theorem Inode.body_body (i : Inode) (n n' : Nat) (f f' : Nat → Nat) :
    (i.body n f).body n' f' = i.body n' f' := rfl

theorem Inode.cnt_body (i : Inode) (c : Nat) : (i.cnt c).body i.iSize i.iSectors = i.cnt c := rfl

namespace Mem

theorem lt_fresh_of_mem (h : p ∈ m.openInodes) : p < m.fresh := by
  have := le_foldr_max (List.mem_append_left
    ((List.range maxFileOpen).filterMap (fun k => (m.fileTable k).fdInode)) h)
  simp only [fresh]
  omega

theorem lt_fresh_of_file {k : Nat} (hk : k < 32) (h : (m.fileTable k).fdInode = some p) :
    p < m.fresh := by
  have hmem : p ∈ (List.range maxFileOpen).filterMap (fun k => (m.fileTable k).fdInode) :=
    List.mem_filterMap.mpr ⟨k, List.mem_range.mpr hk, h⟩
  have := le_foldr_max (List.mem_append_right m.openInodes hmem)
  simp only [fresh]
  omega

theorem Ok.fresh_none (h : m.Ok) : m.inodes m.fresh = none := by
  cases hi : m.inodes m.fresh with
  | none => rfl
  | some i =>
    rcases h.known _ i hi with hm | ⟨k, hk, hf⟩
    · exact absurd (lt_fresh_of_mem hm) (Nat.lt_irrefl _)
    · exact absurd (lt_fresh_of_file hk hf) (Nat.lt_irrefl _)

theorem find_some (h : m.find n = some p) :
    p ∈ m.openInodes ∧ ∃ i, m.inodes p = some i ∧ i.iNo = n := by
  refine ⟨List.mem_of_find?_eq_some h, ?_⟩
  have := List.find?_some h
  cases hi : m.inodes p with
  | none => simp [hi] at this
  | some i => exact ⟨i, rfl, by simpa [hi] using this⟩

theorem find_none (h : m.find n = none) (hp : p ∈ m.openInodes) (hi : m.inodes p = some i) :
    i.iNo ≠ n := by
  have := List.find?_eq_none.mp h p hp
  simpa [hi] using this

theorem find_isSome (hp : p ∈ m.openInodes) (hi : m.inodes p = some i) : (m.find i.iNo).isSome := by
  cases h : m.find i.iNo with
  | none => exact absurd rfl (find_none h hp hi)
  | some q => rfl

theorem ptr_of_find (h : m.find n = some p) : m.ptr n = p := by
  simp [ptr, h]

theorem deliver_of_find (h : m.find n = some p) (hi : m.inodes p = some i) : m.deliver w n = i := by
  simp [deliver, h, hi]

theorem deliver_of_none (h : m.find n = none) : m.deliver w n = w.ino n := by
  simp [deliver, h]

theorem opened_inodes (n : Nat) : (m.opened w n).inodes (m.ptr n) =
    some ((m.deliver w n).cnt
      (if m.find n = none then 1 else add32 (m.deliver w n).iOpenCnts 1)) := by
  cases h : m.find n with
  | none => simp [opened, ptr, deliver, h, push]
  | some p => simp [opened, ptr, h, set]

@[simp] theorem set_inodes_self (m : Mem) (p : Nat) (i : Inode) : (m.set p i).inodes p = some i :=
  Function.update_self _ _ _

@[simp] theorem set_set (m : Mem) (p : Nat) (i j : Inode) : (m.set p i).set p j = m.set p j := by
  simp [set]

theorem set_self (h : m.inodes p = some i) : m.set p i = m := by
  rw [set, ← h, Function.update_eq_self]

theorem closed_set_comm (h : p ≠ q) (i : Inode) : (m.set p i).closed q = (m.closed q).set p i := by
  have hq : (m.set p i).inodes q = m.inodes q := by simp [set, Function.update_of_ne h.symm]
  simp only [closed, hq]
  cases m.inodes q with
  | none => rfl
  | some j =>
    dsimp only
    split
    · simp only [drop, set, Function.update_comm h]
    · simp only [set, Function.update_comm h]

theorem sub32_add32 {c : Nat} (h : c < 2 ^ 32) : sub32 (add32 c 1) 1 = c := by
  rw [sub32, add32]
  by_cases hc : 1 ≤ (c + 1) % 2 ^ 32
  · rw [if_pos hc]
    omega
  · rw [if_neg hc]
    omega

theorem closed_body_opened (hok : m.Ok)
    (hc : ∀ p i, m.find n = some p → m.inodes p = some i → 1 ≤ i.iOpenCnts ∧ i.iOpenCnts < 2 ^ 32)
    {j : Inode} (hj : (m.opened w n).inodes (m.ptr n) = some j) (size : Nat) (secs : Nat → Nat) :
    ((m.opened w n).set (m.ptr n) (j.body size secs)).closed (m.ptr n) =
      match m.find n with
      | some p => m.set p ((m.deliver w n).body size secs)
      | none => m := by
  rw [opened_inodes] at hj
  cases h : m.find n with
  | none =>
    simp only [h, if_true, Option.some.injEq] at hj
    subst hj
    have hf := hok.fresh_none
    simp only [opened, ptr, h, push, set, closed, drop, Inode.body, Inode.cnt, Option.getD_none,
      Function.update_self, Function.update_idem, List.erase_cons_head]
    rw [if_pos (by simp [sub32]), ← hf, Function.update_eq_self]
  | some p =>
    obtain ⟨-, i, hi, -⟩ := find_some h
    have hd : m.deliver w n = i := deliver_of_find h hi
    obtain ⟨h₁, h₂⟩ := hc p i h hi
    simp only [h, reduceCtorEq, if_false, Option.some.injEq, hd] at hj
    subst hj
    have hmod := sub32_add32 h₂
    simp only [opened, ptr_of_find h, h, set_set, hd]
    simp only [closed, set, Function.update_self, Inode.body, Inode.cnt, hmod]
    rw [if_neg (by omega), Function.update_idem]

theorem closed_opened (hok : m.Ok)
    (hc : ∀ p i, m.find n = some p → m.inodes p = some i → 1 ≤ i.iOpenCnts ∧ i.iOpenCnts < 2 ^ 32) :
    (m.opened w n).closed (m.ptr n) = m := by
  have hj : (m.opened w n).inodes (m.ptr n) = _ := opened_inodes n
  have key := closed_body_opened hok hc hj (m.deliver w n).iSize (m.deliver w n).iSectors
  rw [Inode.cnt_body, set_self hj] at key
  rw [key]
  cases h : m.find n with
  | none => rfl
  | some p =>
    obtain ⟨-, i, hi, -⟩ := find_some h
    rw [deliver_of_find h hi]
    exact set_self hi

end Mem

end Tables

variable {g : Geom} {w : View} {m : Mem} {s : Fs} {E : Prop} {n p : Nat} {i : Inode}

theorem sat_getInode (h : At g w m s) (hp : m.inodes p = some i) {Q : Inode → Fs → Prop} (hQ : Q i s) :
    ((getInode p).on s).Sat E Q := by
  simp only [getInode, bind_on, get_on, Res.bind, h.mem, hp]
  exact hQ

theorem sat_setInode (h : At g w m s) {R : Unit → Fs → Prop}
    (hR : ∀ t, At g w (m.set p i) t → R () t) : ((setInode p i).on s).Sat E R := by
  simp only [setInode, sat_modify]
  apply hR
  have := h.withMem (m.set p i)
  rwa [← h.mem] at this ⊢

theorem sat_inodeOpen (h : At g w m s) (hn : E ∨ n < 4096) {Q : Nat → Fs → Prop}
    (hQ : ∀ t, At g w (m.opened w n) t → Q (m.ptr n) t) : ((inodeOpen n).on s).Sat E Q := by
  simp only [inodeOpen, bind_on, get_on, Res.bind, h.mem]
  cases hf : m.find n with
  | some p =>
    obtain ⟨-, i, hi, -⟩ := Mem.find_some hf
    simp only [sat_bind]
    apply sat_getInode h hi
    apply sat_setInode h
    intro t ht
    have := hQ t (by rwa [Mem.opened, hf, Mem.deliver_of_find hf hi])
    rwa [Mem.ptr_of_find hf] at this
  | none =>
    simp only [sat_bind]
    apply sat_inodeLocate h hn
    intro hn
    apply sat_ideRead (Or.inr (g.locate_lba hn)) (InodePosition.secs_pos _)
    have hi : Inode.ofBytes (s.vol.disk.slice (512 * (g.locate n).secLba) (512 * (g.locate n).secs))
        (g.locate n).offSize = w.ino n := by
      rw [← h.view]
      simp only [Geom.view, if_pos hn]
      apply ofBytes_congr
      intro k hk
      have := g.locate_fits n
      rw [Buf.slice_of_lt (by omega), ← g.locate_byte n, Nat.add_assoc]
    simp only [pushInode, bind_on, get_on, Res.bind, modify_on, pure_on, Res.sat_done, hi, h.mem]
    have := hQ { s with mem := m.opened w n } (h.withMem _)
    simpa only [Mem.opened, Mem.ptr, hf, Mem.push, Option.getD_none] using this

theorem sat_inodeClose (h : At g w m s) (hp : m.inodes p = some i) {R : Unit → Fs → Prop}
    (hR : ∀ t, At g w (m.closed p) t → R () t) : ((inodeClose p).on s).Sat E R := by
  rw [inodeClose, sat_bind]
  apply sat_getInode h hp
  rw [Mem.closed, hp] at hR
  dsimp only at hR
  by_cases hz : sub32 i.iOpenCnts 1 = 0
  · rw [if_pos hz] at hR ⊢
    have := hR _ (h.withMem (m.drop p))
    rwa [← h.mem] at this
  · rw [if_neg hz] at hR ⊢
    exact sat_setInode h hR

end TrueOs.Fs
