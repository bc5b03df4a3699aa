import Mathlib.Algebra.Order.BigOperators.Group.List
import Mathlib.Algebra.Order.Group.Nat
import TrueOs.Fs.Format
import TrueOs.Fs.Readdir
import TrueOs.Spec.InodeTable
import TrueOs.Spec.Sync

/-! Repeated calls of `sys_readdir` list a directory. -/

namespace TrueOs.Fs

open Prog

def Vol.sector (v : Vol) (lba : Nat) : Buf := v.disk.slice (512 * lba) 512

def Vol.blocks (v : Vol) (i : Inode) : Nat → Nat :=
  if i.iSectors 12 ≠ 0 then withTable i.direct (v.sector (i.iSectors 12)) else i.direct

def liveSlot (b : Buf) (j : Nat) : Option DirEntry :=
  if (DirEntry.ofBytes b (dirEntryBytes * j)).fType ≠ ftUnknown then
    some (DirEntry.ofBytes b (dirEntryBytes * j))
  else
    none

def Vol.liveIn (v : Vol) (lba : Nat) : List DirEntry :=
  if lba = 0 then [] else (List.range 21).filterMap (liveSlot (v.sector lba))

def Vol.live (v : Vol) (i : Inode) : List DirEntry :=
  (List.range 140).flatMap fun k => v.liveIn (v.blocks i k)

/-- A directory that can be read, with the size that its entries have. -/
structure Readable (s : Fs) (i : Inode) : Prop where
  entry : s.vol.sb.dirEntrySize = dirEntryBytes
  size : i.iSize = dirEntryBytes * (s.vol.live i).length
  tbl : i.iSectors 12 ≤ maxLba
  blocks : ∀ k < 140, s.vol.blocks i k ≤ maxLba

def readdirs : (n : Nat) → (d : OpenDir) → Prog Fs Buf (List (Option DirEntry) × OpenDir)
  | 0, d => return ([], d)
  | n + 1, d => do
    let r ← sysReaddir d
    let rest ← readdirs n r.2
    return (r.1 :: rest.1, rest.2)

section Slots

variable {s : Fs} {b : Buf} {n c p : Nat} {js ks : List Nat} {i : Inode} {addr : Nat → Nat}

theorem liveSlot_none {j : Nat} (h : liveSlot b j = none) :
    (DirEntry.ofBytes b (dirEntryBytes * j)).fType = ftUnknown := by
  by_contra hc
  rw [liveSlot, if_pos hc] at h
  cases h

theorem liveSlot_some {j : Nat} {e : DirEntry} (h : liveSlot b j = some e) :
    (DirEntry.ofBytes b (dirEntryBytes * j)).fType ≠ ftUnknown ∧ DirEntry.ofBytes b (dirEntryBytes * j) = e := by
  rw [liveSlot] at h
  split at h
  · rename_i hc
    exact ⟨hc, Option.some.inj h⟩
  · cases h

theorem dirReadSlots_passed (h : c + (js.filterMap (liveSlot b)).length ≤ n) (hn : 24 * n < 2 ^ 32) :
    ((dirReadSlots 24 (24 * n) b js (24 * c)).on s).run =
      .ok ((none, 24 * (c + (js.filterMap (liveSlot b)).length)), s) := by
  induction js generalizing c with
  | nil => rfl
  | cons j js ih =>
    rw [dirReadSlots, ite_on]
    cases hj : liveSlot b j with
    | none =>
      rw [List.filterMap_cons_none hj] at h ⊢
      rw [if_neg (not_not.mpr (liveSlot_none hj))]
      exact ih h
    | some e =>
      rw [List.filterMap_cons_some hj, List.length_cons] at h ⊢
      have hadd : add32 (24 * c) 24 = 24 * (c + 1) := by rw [add32_of_lt (by omega)]; omega
      rw [if_pos (liveSlot_some hj).1, ite_on, if_pos (by omega), hadd, ih (by omega),
        Nat.add_assoc, Nat.add_comm 1]

theorem dirReadSlots_next (hc : c ≤ n) (h : n < c + (js.filterMap (liveSlot b)).length)
    (hn : 24 * n < 2 ^ 32) :
    ((dirReadSlots 24 (24 * n) b js (24 * c)).on s).run =
      .ok (((js.filterMap (liveSlot b))[n - c]?, 24 * n), s) := by
  induction js generalizing c with
  | nil =>
    rw [List.filterMap_nil, List.length_nil] at h
    omega
  | cons j js ih =>
    rw [dirReadSlots, ite_on]
    cases hj : liveSlot b j with
    | none =>
      rw [List.filterMap_cons_none hj] at h ⊢
      rw [if_neg (not_not.mpr (liveSlot_none hj))]
      exact ih hc h
    | some e =>
      rw [List.filterMap_cons_some hj] at h ⊢
      rw [List.length_cons] at h
      rw [if_pos (liveSlot_some hj).1, ite_on]
      by_cases hlt : c < n
      · have hadd : add32 (24 * c) 24 = 24 * (c + 1) := by rw [add32_of_lt (by omega)]; omega
        obtain ⟨k, rfl⟩ := Nat.exists_eq_add_of_lt hlt
        rw [if_pos (by omega), hadd, ih (by omega) (by omega)]
        simp [show c + k + 1 - c = k + 1 by omega]
      · obtain rfl : c = n := by omega
        rw [if_neg (by omega), Nat.sub_self, List.getElem?_cons_zero, ← (liveSlot_some hj).2]
        simp [assert, Res.bind, Res.run]

end Slots

section Blocks

variable {s : Fs} {n c p : Nat} {ks : List Nat} {i : Inode} {addr : Nat → Nat}

theorem run_getInode (h : s.mem.inodes p = some i) : ((getInode p).on s).run = .ok (i, s) := by
  simp [getInode, Res.run, Res.bind, h]

theorem run_dirReadBlocks (hp : s.mem.inodes p = some i) {k cur : Nat} (hk : addr k ≤ maxLba) :
    ((dirReadBlocks p 24 (24 * n) addr (k :: ks) cur).on s).run =
      if i.iSize ≤ 24 * n then .ok ((none, 24 * n), s)
      else if addr k = 0 then ((dirReadBlocks p 24 (24 * n) addr ks cur).on s).run
      else ((dirReadSlots 24 (24 * n) (s.vol.sector (addr k)) (List.range 21) cur >>= fun r =>
        r.1.elim (dirReadBlocks p 24 (24 * n) addr ks r.2)
          (fun e => pure (some e, add32 (24 * n) 24))).on s).run := by
  rw [dirReadBlocks, run_seq (run_getInode hp), ite_on, ite_on]
  split
  · rfl
  · split
    · rfl
    · rw [run_seq (run_ideRead hk Nat.one_pos)]
      congr 3
      funext r
      cases r.1 <;> rfl

theorem liveIn_of_ne {v : Vol} {lba : Nat} (h : lba ≠ 0) :
    v.liveIn lba = (List.range 21).filterMap (liveSlot (v.sector lba)) := if_neg h

theorem dirReadBlocks_passed (hp : s.mem.inodes p = some i) (hks : ∀ k ∈ ks, addr k ≤ maxLba)
    (h : c + (ks.flatMap fun k => s.vol.liveIn (addr k)).length ≤ n) (hn : 24 * n < 2 ^ 32) :
    ((dirReadBlocks p 24 (24 * n) addr ks (24 * c)).on s).run = .ok ((none, 24 * n), s) := by
  induction ks generalizing c with
  | nil => rfl
  | cons k ks ih =>
    have hks' : ∀ k ∈ ks, addr k ≤ maxLba := fun k hk => hks k (List.mem_cons_of_mem _ hk)
    rw [List.flatMap_cons, List.length_append] at h
    rw [run_dirReadBlocks hp (hks k List.mem_cons_self)]
    by_cases hsize : i.iSize ≤ 24 * n
    · rw [if_pos hsize]
    · rw [if_neg hsize]
      by_cases ha : addr k = 0
      · rw [if_pos ha]
        exact ih hks' (by omega)
      · rw [liveIn_of_ne ha] at h
        rw [if_neg ha, run_seq (dirReadSlots_passed (by omega) hn)]
        exact ih hks' (by omega)

theorem dirReadBlocks_next (hp : s.mem.inodes p = some i) (hks : ∀ k ∈ ks, addr k ≤ maxLba)
    (hc : c ≤ n) (h : n < c + (ks.flatMap fun k => s.vol.liveIn (addr k)).length)
    (hsize : 24 * n < i.iSize) (hn : 24 * (n + 1) < 2 ^ 32) :
    ((dirReadBlocks p 24 (24 * n) addr ks (24 * c)).on s).run =
      .ok (((ks.flatMap fun k => s.vol.liveIn (addr k))[n - c]?, 24 * (n + 1)), s) := by
  induction ks generalizing c with
  | nil =>
    rw [List.flatMap_nil, List.length_nil] at h
    omega
  | cons k ks ih =>
    have hks' : ∀ k ∈ ks, addr k ≤ maxLba := fun k hk => hks k (List.mem_cons_of_mem _ hk)
    have hn' : 24 * n < 2 ^ 32 := by omega
    rw [List.flatMap_cons] at h ⊢
    rw [List.length_append] at h
    rw [run_dirReadBlocks hp (hks k List.mem_cons_self), if_neg (by omega)]
    by_cases ha : addr k = 0
    · have hnil : s.vol.liveIn (addr k) = [] := if_pos ha
      rw [hnil, List.length_nil] at h
      rw [if_pos ha, hnil, List.nil_append]
      exact ih hks' hc (by omega)
    · rw [liveIn_of_ne ha] at h ⊢
      rw [if_neg ha]
      by_cases hin : n < c + ((List.range 21).filterMap (liveSlot (s.vol.sector (addr k)))).length
      · have hlt : n - c < ((List.range 21).filterMap (liveSlot (s.vol.sector (addr k)))).length := by omega
        have hadd : add32 (24 * n) 24 = 24 * (n + 1) := by rw [add32_of_lt (by omega)]; omega
        rw [run_seq (dirReadSlots_next hc hin hn'), List.getElem?_append_left hlt, List.getElem?_eq_getElem hlt, hadd]
        rfl
      · rw [run_seq (dirReadSlots_passed (by omega) hn'), List.getElem?_append_right (by omega), Nat.sub_sub]
        exact ih hks' (by omega) (by omega)

end Blocks

section Calls

variable {s : Fs} {d : OpenDir} {i : Inode} {n : Nat}

theorem run_dirBlocks (h : i.iSectors 12 ≤ maxLba) : ((dirBlocks i).on s).run = .ok (s.vol.blocks i, s) := by
  rw [dirBlocks, ite_on, Vol.blocks]
  split
  · rw [run_seq (run_ideRead h Nat.one_pos)]
    rfl
  · rfl

theorem live_eq (v : Vol) (i : Inode) : v.live i =
    (List.range (if i.iSectors 12 ≠ 0 then 140 else 12)).flatMap fun k => v.liveIn (v.blocks i k) := by
  rw [Vol.live]
  by_cases h : i.iSectors 12 = 0
  · have hrange : List.range 140 = List.range 12 ++ List.range' 12 128 := by decide
    have hrest : ((List.range' 12 128).flatMap fun k => v.liveIn (v.blocks i k)) = [] := by
      rw [List.flatMap_eq_nil_iff]
      intro k hk
      have hk' : ¬ k < 12 := by
        have := (List.mem_range'_1.mp hk).1
        omega
      have hzero : v.blocks i k = 0 := by
        rw [Vol.blocks, if_neg (not_not.mpr h), Inode.direct, if_neg hk']
      rw [hzero]
      exact if_pos rfl
    rw [if_neg (not_not.mpr h), hrange, List.flatMap_append, hrest, List.append_nil]
  · rw [if_pos h]

theorem length_live_le (v : Vol) (i : Inode) : (v.live i).length ≤ 2940 := by
  have hin : ∀ lba, (v.liveIn lba).length ≤ 21 := by
    intro lba
    rw [Vol.liveIn]
    split
    · exact Nat.zero_le _
    · exact (List.length_filterMap_le _ _).trans (by rw [List.length_range])
  have hsum := List.sum_le_card_nsmul ((List.range 140).map fun k => (v.liveIn (v.blocks i k)).length) 21
    (fun x hx => by
      obtain ⟨k, -, rfl⟩ := List.mem_map.mp hx
      exact hin _)
  rw [List.length_map, List.length_range] at hsum
  rw [Vol.live, List.length_flatMap]
  exact hsum

theorem run_dirRef (dir : DirRef) : (dir.inode.on s).run = .ok (dir.ptr s.mem, s) := by
  cases dir <;> rfl

theorem run_dirRead (hp : s.mem.inodes (d.dir.ptr s.mem) = some i) (h : Readable s i) :
    ((dirRead d).on s).run = ((dirReadBlocks (d.dir.ptr s.mem) 24 d.dirPos (s.vol.blocks i)
      (List.range (if i.iSectors 12 ≠ 0 then 140 else 12)) 0).on s).run := by
  rw [dirRead, run_seq (run_dirRef d.dir), run_seq (run_getInode hp), run_seq (run_dirBlocks h.tbl)]
  have hsize : s.vol.sb.dirEntrySize = 24 := h.entry
  rw [← hsize]
  rfl

theorem run_sysReaddir (hp : s.mem.inodes (d.dir.ptr s.mem) = some i) (h : Readable s i)
    (hn : n ≤ (s.vol.live i).length) :
    ((sysReaddir { d with dirPos := 24 * n }).on s).run =
      .ok (((s.vol.live i)[n]?, { d with dirPos := 24 * min (n + 1) (s.vol.live i).length }), s) := by
  have hlen := length_live_le s.vol i
  have hsize : i.iSize = 24 * (s.vol.live i).length := h.size
  have hks : ∀ k ∈ List.range (if i.iSectors 12 ≠ 0 then 140 else 12), s.vol.blocks i k ≤ maxLba := by
    intro k hk
    apply h.blocks
    have := List.mem_range.mp hk
    split at this <;> omega
  have hread := run_dirRead (d := { d with dirPos := 24 * n }) hp h
  rw [live_eq] at hn hlen hsize ⊢
  by_cases hlt : n < ((List.range (if i.iSectors 12 ≠ 0 then 140 else 12)).flatMap fun k =>
      s.vol.liveIn (s.vol.blocks i k)).length
  · have hnext := dirReadBlocks_next hp hks (Nat.zero_le n) (by omega) (by omega) (by omega)
    rw [sysReaddir, run_seq (hread.trans hnext), Nat.min_eq_left hlt]
    rfl
  · have hpass := dirReadBlocks_passed (c := 0) (n := n) hp hks (by omega) (by omega)
    rw [sysReaddir, run_seq (hread.trans hpass), Nat.min_eq_right (by omega), List.getElem?_eq_none (by omega),
      show n = _ from Nat.le_antisymm hn (by omega)]
    rfl

theorem run_readdirs (hp : s.mem.inodes (d.dir.ptr s.mem) = some i) (h : Readable s i) {m : Nat}
    (hn : n ≤ (s.vol.live i).length) :
    ((readdirs m { d with dirPos := 24 * n }).on s).run =
      .ok (((List.range m).map fun k => (s.vol.live i)[n + k]?,
        { d with dirPos := 24 * min (n + m) (s.vol.live i).length }), s) := by
  induction m generalizing n with
  | zero => rw [Nat.add_zero, Nat.min_eq_left hn]; rfl
  | succ m ih =>
    have hrest : ∀ k, (s.vol.live i)[min (n + 1) (s.vol.live i).length + k]? = (s.vol.live i)[n + (k + 1)]? := by
      intro k
      by_cases hlt : n < (s.vol.live i).length
      · rw [Nat.min_eq_left hlt, Nat.succ_add_eq_add_succ]
      · rw [List.getElem?_eq_none (by omega), List.getElem?_eq_none (by omega)]
    have hpos : min (min (n + 1) (s.vol.live i).length + m) (s.vol.live i).length =
        min (n + (m + 1)) (s.vol.live i).length := by omega
    rw [readdirs, run_seq (run_sysReaddir hp h hn), run_seq (ih (Nat.min_le_right _ _)),
      List.range_succ_eq_map, List.map_cons, List.map_map, Nat.add_zero, hpos]
    simp only [hrest]
    rfl

theorem readdir_lists {s : Fs} {d : OpenDir} {i : Inode} (hp : s.mem.inodes (d.dir.ptr s.mem) = some i)
    (h : Readable s i) (n : Nat) :
    ((readdirs n (sysRewinddir d)).on s).run =
      .ok (((List.range n).map fun k => (s.vol.live i)[k]?,
        { d with dirPos := 24 * min n (s.vol.live i).length }), s) := by
  have := run_readdirs (n := 0) (m := n) hp h (Nat.zero_le _)
  rw [sysRewinddir]
  simpa only [Nat.zero_add, Nat.mul_zero] using this

def gapInode : Inode := ⟨5, 48, 1, false, fun k => if k = 1 then 700 else 0⟩

def gapDisk : Buf := fun x => if x = 512 * 700 + 24 * 3 + 20 ∨ x = 512 * 700 + 24 * 5 + 20 then 1 else 0

def gaps : Fs :=
  { bootState 63 1000 gapDisk with mem.inodes := fun p => if p = 7 then some gapInode else none }

theorem readable_gaps : Readable gaps gapInode where
  entry := rfl
  size := by decide
  tbl := by decide
  blocks := by decide

theorem readdir_lists_gaps : (gaps.vol.live gapInode).length = 2 ∧
    ((readdirs 3 (sysRewinddir ⟨.heap 7, 48⟩)).on gaps).run =
      .ok (((List.range 3).map fun k => (gaps.vol.live gapInode)[k]?, ⟨.heap 7, 48⟩), gaps) := by
  have hlen : (gaps.vol.live gapInode).length = 2 := by decide
  have := readdir_lists (d := ⟨.heap 7, 48⟩) rfl readable_gaps 3
  rw [hlen] at this
  exact ⟨hlen, this⟩

end Calls

end TrueOs.Fs
