import TrueOs.Spec.Search

/-! `sync_dir_entry`: where a new entry goes. -/

namespace TrueOs.Fs

open Prog

inductive Place
  | slot (k j : Nat)
  | direct (k : Nat)
  | table
  deriving DecidableEq

def Place.need : Place → Nat
  | .slot _ _ => 0
  | .direct _ => 1
  | .table => 2

theorem Place.need_le (pl : Place) : pl.need ≤ 2 := by
  cases pl <;> simp [need]

def firstDead (b : Buf) : Option Nat := (List.range 21).find? (fun j => (slot b j).isNone)

/-- The first empty slot of a direct block, unless a zero address comes before it.
Behind the direct blocks there is always room for a new table. -/
def View.placeIn (w : View) (sec : Nat → Nat) : List Nat → Place
  | [] => .table
  | k :: ks =>
    if sec k = 0 then .direct k
    else match firstDead (w.blk (sec k)) with
      | some j => .slot k j
      | none => w.placeIn sec ks

def View.place (w : View) (sec : Nat → Nat) : Place := w.placeIn sec (List.range 12)

def entryBlock (e : Ent) : Buf := (Buf.splice (fun _ => 0) (24 * 0) 24 e.entry.bytes).slice 0 512

def tableBlock (lba : Nat) : Buf :=
  (Buf.ofWords (fun j => if j = 0 then lba else 0)).slice 0 512

inductive Inserted (g : Geom) (w : View) (sec : Nat → Nat) (e : Ent) :
    Place → View → (Nat → Nat) → Prop
  | slot (k j : Nat) : Inserted g w sec e (.slot k j)
      (w.setBlk (sec k) (((w.blk (sec k)).splice (24 * j) 24 e.entry.bytes).slice 0 512)) sec
  | direct (k lba : Nat) (hf : FirstFree g w lba) (hm : lba ≤ maxLba) : Inserted g w sec e (.direct k)
      (((w.setUsed lba true).syncUsed g lba).setBlk lba (entryBlock e)) (Function.update sec k lba)
  | table (l₁ l₂ : Nat) (hf₁ : FirstFree g w l₁) (hf₂ : FirstFree g (w.setUsed l₁ true) l₂)
      (hm₁ : l₁ ≤ maxLba) (hm₂ : l₂ ≤ maxLba) :
      Inserted g w sec e .table
        ((((((w.setUsed l₁ true).syncUsed g l₁).setUsed l₂ true).syncUsed g l₂).setBlk l₁
          (tableBlock l₂)).setBlk l₂ (entryBlock e)) (Function.update sec 12 l₁)

variable {g : Geom} {w : View} {m : Mem} {s : Fs} {E : Prop} {p : Nat} {i : Inode}
  {e : Ent}

theorem sat_setSector (h : At g w m s) (hp : m.inodes p = some i) {k lba : Nat}
    {R : Unit → Fs → Prop}
    (hR : ∀ t, At g w (m.set p (i.body i.iSize (Function.update i.iSectors k lba))) t → R () t) :
    ((setSector p k lba).on s).Sat E R := by
  rw [setSector, sat_bind]
  apply sat_getInode h hp
  exact sat_setInode h hR

theorem sat_addSize (h : At g w m s) (hp : m.inodes p = some i) {n : Nat} {R : Unit → Fs → Prop}
    (hR : ∀ t, At g w (m.set p (i.body (add32 i.iSize n) i.iSectors)) t → R () t) :
    ((addSize p n).on s).Sat E R := by
  rw [addSize, sat_bind]
  apply sat_getInode h hp
  exact sat_setInode h hR

theorem sat_allocSynced (h : At g w m s) (hE : E ∨ Room g w 1)
    {Q : Option Nat → Fs → Prop}
    (hQ : ∀ lba t, FirstFree g w lba → At g ((w.setUsed lba true).syncUsed g lba) m t →
      Q (some lba) t) : (allocSynced.on s).Sat E Q := by
  rw [allocSynced, sat_bind]
  apply sat_blockBitmapAlloc h
  · apply hE.imp_right
    intro hr
    obtain ⟨l, h₁, h₂, h₃, -⟩ := hr.exists_free Nat.one_pos
    exact ⟨l, h₁, h₂, h₃⟩
  · intro lba t hf ht
    have hb := hf.base_le
    have hne : (lba : Int) - g.sb.dataStartLba ≠ -1 := by
      simp only [Geom.base] at hb
      omega
    simp only [bind_on, get_on, Res.sat_bind, Res.sat_done, sat_assert, ht.sb, hne, decide_true,
      ne_eq, not_false_eq_true, true_implies, Bool.true_eq_false, false_implies, and_true]
    apply sat_syncBlock ht (ht.bitIdx hb) hb hf.lt_top
    intro t' ht'
    exact hQ lba t' hf ht'

theorem sat_writeFirstEntry (h : At g w m s) (hp : m.inodes p = some i)
    {lba : Nat} (hl : g.base ≤ lba) (hE : E ∨ lba ≤ maxLba) {Q : Bool → Fs → Prop}
    (hQ : ∀ t, lba ≤ maxLba →
      At g (w.setBlk lba (entryBlock e)) (m.set p (i.body (add32 i.iSize 24) i.iSectors)) t →
      Q true t) : ((writeFirstEntry p e.entry lba).on s).Sat E Q := by
  simp only [writeFirstEntry, bind_on, get_on, Res.sat_bind, Res.sat_done, h.sb, g.entrySize]
  apply sat_writeBlk h hE hl
  intro t hm ht
  apply sat_addSize ht hp
  intro t' ht'
  exact hQ t' hm ht'

theorem tableBlock_eq (i : Inode) (lba : Nat) :
    (Buf.ofWords (fun j => Function.update i.direct 12 lba (12 + j))).slice 0 512 =
      tableBlock lba := by
  rw [tableBlock]
  congr 2
  funext j
  cases j with
  | zero => simp
  | succ j => simp [Inode.direct]

variable {Q : Bool → Fs → Prop} {ks rest : List Nat}

theorem sat_syncNewBlock_direct (h : At g w m s) (hp : m.inodes p = some i) (hE : E ∨ Room g w 1) {k : Nat} (hk : k < 12)
    (hQ : ∀ w' sec' t, Inserted g w i.iSectors e (.direct k) w' sec' →
      At g w' (m.set p (i.body (add32 i.iSize 24) sec')) t → Q true t) :
    ((syncNewBlock p e.entry i.direct k).on s).Sat E Q := by
  rw [syncNewBlock, sat_bind]
  apply sat_allocSynced h hE
  intro lba t hf ht
  simp only [if_pos hk, sat_bind]
  apply sat_setSector ht hp
  intro t₁ ht₁
  apply sat_writeFirstEntry ht₁ (Mem.set_inodes_self _ _ _) hf.base_le
  · exact hE.imp_right (fun hr => hf.le_maxLba hr Nat.one_pos)
  · intro t₂ hm ht₂
    rw [Mem.set_set, Inode.body_body] at ht₂
    exact hQ _ _ t₂ (.direct k lba hf hm) ht₂

theorem FirstFree.of_sync {l lba : Nat} (h : FirstFree g (w.syncUsed g l) lba) :
    FirstFree g w lba := ⟨h.base_le, h.lt_top, h.free, h.below⟩

theorem FirstFree.of_setUsed_sync {l lba : Nat} {b : Bool}
    (h : FirstFree g ((w.setUsed l b).syncUsed g l) lba) : FirstFree g (w.setUsed l b) lba :=
  h.of_sync

theorem sat_syncNewBlock_table (h : At g w m s) (hp : m.inodes p = some i) (hE : E ∨ Room g w 2)
    (hQ : ∀ w' sec' t, Inserted g w i.iSectors e .table w' sec' →
      At g w' (m.set p (i.body (add32 i.iSize 24) sec')) t → Q true t) :
    ((syncNewBlock p e.entry i.direct 12).on s).Sat E Q := by
  rw [syncNewBlock, sat_bind]
  apply sat_allocSynced h (hE.imp_right (Room.mono · (by omega)))
  intro l₁ t hf₁ ht
  simp only [if_neg (show ¬(12 < 12) by omega), if_true, sat_bind]
  apply sat_setSector ht hp
  intro t₁ ht₁
  have hE₂ : E ∨ Room g ((w.setUsed l₁ true).syncUsed g l₁) 1 := hE.imp_right Room.alloc
  apply sat_allocSynced ht₁ hE₂
  intro l₂ t₂ hf₂ ht₂
  simp only [sat_bind]
  apply sat_writeBlk ht₂ (hE.imp_right (hf₁.le_maxLba · (by omega))) hf₁.base_le
  intro t₃ hm₁ ht₃
  rw [tableBlock_eq] at ht₃
  apply sat_writeFirstEntry ht₃ (Mem.set_inodes_self _ _ _) hf₂.base_le
  · exact hE₂.imp_right (hf₂.le_maxLba · Nat.one_pos)
  · intro t₄ hm₂ ht₄
    rw [Mem.set_set, Inode.body_body] at ht₄
    exact hQ _ _ t₄ (.table l₁ l₂ hf₁ hf₂.of_setUsed_sync hm₁ hm₂) ht₄

def DirectOk (g : Geom) (sec : Nat → Nat) : Prop :=
  ∀ k < 12, sec k ≠ 0 → g.base ≤ sec k ∧ sec k ≤ maxLba

theorem firstDead_eq (b : Buf) :
    (List.range (512 / 24)).find? (fun j => (DirEntry.ofBytes b (24 * j)).fType == ftUnknown) =
      firstDead b := by
  apply List.find?_congr
  intro j _
  simp only [slot]
  split
  · rename_i h
    simp [h]
  · rename_i h
    simp [h]

theorem sat_syncBlocks (h : At g w m s) (hp : m.inodes p = some i) (hd : DirectOk g i.iSectors) (hE : E ∨ Room g w (w.placeIn i.iSectors ks).need)
    (hks : ∀ k ∈ ks, k < 12)
    (hQ : ∀ w' sec' t, Inserted g w i.iSectors e (w.placeIn i.iSectors ks) w' sec' →
      At g w' (m.set p (i.body (add32 i.iSize 24) sec')) t → Q true t) :
    ((syncBlocks p e.entry i.direct (ks ++ 12 :: rest)).on s).Sat E Q := by
  induction ks with
  | nil =>
    simp only [List.nil_append, syncBlocks, ite_on]
    rw [if_pos (by simp [Inode.direct])]
    exact sat_syncNewBlock_table h hp hE hQ
  | cons k ks ih =>
    have hk := hks k List.mem_cons_self
    have hdir : i.direct k = i.iSectors k := by simp [Inode.direct, hk]
    simp only [List.cons_append, syncBlocks, ite_on, hdir]
    simp only [View.placeIn] at hQ hE
    by_cases ha : i.iSectors k = 0
    · rw [if_pos ha] at hQ hE ⊢
      exact sat_syncNewBlock_direct h hp hE hk hQ
    · rw [if_neg ha] at hQ hE ⊢
      obtain ⟨h₁, h₂⟩ := hd k hk ha
      rw [sat_bind]
      apply sat_readBlk h (Or.inr h₂) h₁
      simp only [bind_on, get_on, Res.bind, h.sb, g.entrySize, firstDead_eq]
      cases hf : firstDead (w.blk (i.iSectors k)) with
      | none =>
        rw [hf] at hQ hE
        exact ih hE (fun k hk => hks k (List.mem_cons_of_mem _ hk)) hQ
      | some j =>
        rw [hf] at hQ
        simp only [sat_bind]
        apply sat_writeBlk h (Or.inr h₂) h₁
        intro t _ ht
        apply sat_addSize ht hp
        intro t' ht'
        exact hQ _ _ t' (.slot k j) ht'

def DirRef.ptr (m : Mem) : DirRef → Nat
  | .root => m.rootDir
  | .heap p => p

theorem sat_dirInode (h : At g w m s) (d : DirRef) {R : Nat → Fs → Prop} (hR : R (d.ptr m) s) :
    (d.inode.on s).Sat E R := by
  cases d with
  | root =>
    simp only [DirRef.inode, bind_on, get_on, Res.bind, h.mem]
    exact hR
  | heap p => exact hR

theorem sat_syncDirEntry_need (h : At g w m s) {d : DirRef} (hp : m.inodes (d.ptr m) = some i) (hd : DirectOk g i.iSectors) (hsz : E ∨ i.iSize % 24 = 0)
    (hE : E ∨ Room g w (w.place i.iSectors).need)
    (hQ : ∀ w' sec' t, Inserted g w i.iSectors e (w.place i.iSectors) w' sec' →
      At g w' (m.set (d.ptr m) (i.body (add32 i.iSize 24) sec')) t → Q true t) :
    ((syncDirEntry d e.entry).on s).Sat E Q := by
  rw [syncDirEntry, sat_bind]
  apply sat_dirInode h
  rw [sat_bind]
  apply sat_getInode h hp
  simp only [bind_on, get_on, Res.sat_bind, Res.sat_done, h.sb, g.entrySize, sat_assert,
    decide_eq_true_eq, decide_eq_false_iff_not]
  refine ⟨fun _ => ?_, fun hc => hsz.resolve_right hc⟩
  exact sat_syncBlocks h hp hd hE (fun k hk => List.mem_range.mp hk) hQ

theorem sat_syncDirEntry (h : At g w m s) {d : DirRef} (hp : m.inodes (d.ptr m) = some i) (hd : DirectOk g i.iSectors) (hsz : E ∨ i.iSize % 24 = 0)
    (hE : E ∨ Room g w 2)
    (hQ : ∀ w' sec' t, Inserted g w i.iSectors e (w.place i.iSectors) w' sec' →
      At g w' (m.set (d.ptr m) (i.body (add32 i.iSize 24) sec')) t → Q true t) :
    ((syncDirEntry d e.entry).on s).Sat E Q :=
  sat_syncDirEntry_need h hp hd hsz (hE.imp_right (Room.mono · (Place.need_le _))) hQ

end TrueOs.Fs
