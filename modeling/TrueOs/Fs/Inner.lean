import TrueOs.Fs.Cwd
import TrueOs.Lib.Keeps

/-! What the code that works on inodes already open leaves alone: it moves the volume, the sizes and
sectors of live inode objects and the positions of files, and nothing else. -/

namespace TrueOs.Fs

open Prog

class Still (R : Fs → Fs → Prop) : Prop extends IsPreorder Fs R where
  vol : ∀ s v, R s { s with vol := v }
  sectors : ∀ s p i f, s.mem.inodes p = some i →
    R s { s with mem.inodes := Function.update s.mem.inodes p (some (i.body i.iSize f)) }

class Inner (R : Fs → Fs → Prop) : Prop extends Still R where
  body : ∀ s p i n f, s.mem.inodes p = some i →
    R s { s with mem.inodes := Function.update s.mem.inodes p (some (i.body n f)) }
  pos : ∀ s g f, f.fdInode = (s.mem.fileTable g).fdInode → f.fdFlag = (s.mem.fileTable g).fdFlag →
    R s { s with mem.fileTable := Function.update s.mem.fileTable g f }

theorem sat_getInode_eq (p : Nat) (s : Fs) : ((getInode p).on s).Sat True
    (fun i t => t = s ∧ s.mem.inodes p = some i) := by
  simp only [getInode, sat_bind, sat_get]
  cases h : s.mem.inodes p with
  | none => trivial
  | some i => exact ⟨rfl, rfl⟩

theorem sat_fileInode_eq (g : Nat) (s : Fs) : ((fileInode g).on s).Sat True
    (fun p t => t = s ∧ (s.mem.fileTable g).fdInode = some p) := by
  simp only [fileInode, sat_bind, sat_get]
  cases h : (s.mem.fileTable g).fdInode with
  | none => trivial
  | some p => exact ⟨rfl, rfl⟩

theorem Inner.keeps_read {R : Fs → Fs → Prop} {α : Type} {p : Nat} {k : Inode → Prog Fs Buf α} (h : ∀ i s, s.mem.inodes p = some i →
    ((k i).on s).Sat True (fun _ t => R s t)) : Keeps R (getInode p >>= k) := by
  intro s
  rw [sat_bind]
  refine (sat_getInode_eq p s).mono fun i t ht => ?_
  obtain ⟨rfl, hi⟩ := ht
  exact h i t hi

section Path

variable {R : Fs → Fs → Prop} [IsPreorder Fs R]

theorem keeps_storeName (name : List UInt8) : Keeps R (storeName name) := .ite (keeps_pure _) (keeps_halt _)

theorem keeps_terminated (name : List UInt8) : Keeps R (terminated name) := .ite (keeps_pure _) (keeps_halt _)

theorem keeps_nextName (sub : Option (List UInt8)) : Keeps R (nextName sub) := by
  cases sub with
  | none => exact keeps_pure _
  | some path => exact .bind (keeps_storeName _) fun _ => keeps_pure _

theorem keeps_depthLoop (turns : Nat) (c : UInt8) (p : Option (List UInt8)) (depth : Nat) :
    Keeps R (depthLoop turns c p depth) := by
  induction turns generalizing c p depth with
  | zero => exact keeps_halt _
  | succ turns ih =>
    refine .ite (keeps_pure _) ?_
    cases p with
    | none => exact ih _ _ _
    | some p => exact .bind (keeps_storeName _) fun _ => ih _ _ _

theorem keeps_pathDepthCnt (name : Buf) (path : List UInt8) : Keeps R (pathDepthCnt name path) :=
  .bind (keeps_storeName _) fun _ => keeps_depthLoop _ _ _ _

end Path

namespace Inner

section Prim

variable {R : Fs → Fs → Prop} [Still R]

theorem keeps_ideRead (lba cnt : Nat) : Keeps R (ideRead lba cnt) :=
  .bind (keeps_assert _) fun _ => .bind (keeps_assert _) fun _ => keeps_transfer fun s => refl s

theorem keeps_ideWrite (lba cnt : Nat) (buf : Fs → Buf) : Keeps R (ideWrite lba cnt buf) :=
  .bind (keeps_assert _) fun _ => .bind (keeps_assert _) fun _ =>
    .bind (keeps_transfer fun s => Still.vol s _) fun _ => keeps_pure _

theorem keeps_getInode (p : Nat) : Keeps R (getInode p) := by
  refine .bind keeps_get fun s => ?_
  split
  · exact keeps_pure _
  · exact keeps_halt _

theorem sat_setInode {α : Type} {p : Nat} {j : Inode} {s : Fs} {c : Prog Fs Buf α}
    (hs : R s { s with mem.inodes := Function.update s.mem.inodes p (some j) }) (hc : Keeps R c) :
    ((setInode p j >>= fun _ => c).on s).Sat True (fun _ t => R s t) := by
  rw [sat_bind]
  exact (hc _).mono fun _ u hu => IsTrans.trans _ _ u hs hu

theorem keeps_inode (d : DirRef) : Keeps R d.inode := by
  cases d with
  | root => exact .bind keeps_get fun _ => keeps_pure _
  | heap p => exact keeps_pure _

theorem keeps_bitmapScan (b : Bitmap) (n : Nat) : Keeps R (b.bitmapScan n : Prog Fs Buf (Option Nat)) :=
  .bind (keeps_assert _) fun _ => .ite (keeps_pure _) (.ite (keeps_pure _) (keeps_pure _))

theorem keeps_bitmapSet (b : Bitmap) (i : Nat) (v : Bool) : Keeps R (b.bitmapSet i v : Prog Fs Buf Bitmap) :=
  .ite (keeps_pure _) (keeps_halt _)

theorem keeps_blockBitmapSet (i : Nat) (v : Bool) : Keeps R (blockBitmapSet i v) :=
  .bind keeps_get fun _ => .bind (keeps_bitmapSet _ _ _) fun _ => keeps_modify fun s => Still.vol s _

theorem keeps_inodeBitmapSet (i : Nat) (v : Bool) : Keeps R (inodeBitmapSet i v) :=
  .bind keeps_get fun _ => .bind (keeps_bitmapSet _ _ _) fun _ => keeps_modify fun s => Still.vol s _

theorem keeps_inodeBitmapAlloc : Keeps R inodeBitmapAlloc := by
  refine .bind keeps_get fun s => .bind (keeps_bitmapScan _ _) fun r => ?_
  cases r with
  | none => exact keeps_pure _
  | some i => exact .bind (keeps_inodeBitmapSet _ _) fun _ => keeps_pure _

theorem keeps_blockBitmapAlloc : Keeps R blockBitmapAlloc := by
  refine .bind keeps_get fun s => .bind (keeps_bitmapScan _ _) fun r => ?_
  cases r with
  | none => exact keeps_pure _
  | some i => exact .bind (keeps_blockBitmapSet _ _) fun _ => .bind keeps_get fun _ => keeps_pure _

theorem keeps_bitmapSync (i : Nat) (b : BitmapType) : Keeps R (bitmapSync i b) := by
  refine .bind keeps_get fun s => ?_
  cases b with
  | inode => exact keeps_ideWrite _ _ _
  | block => exact keeps_ideWrite _ _ _

end Prim

section Inode

variable {R : Fs → Fs → Prop} [Still R]

theorem keeps_inodeLocate (n : Nat) : Keeps R (inodeLocate n) :=
  .bind (keeps_assert _) fun _ => .bind keeps_get fun _ => keeps_pure _

theorem keeps_assertInPart (pos : InodePosition) : Keeps R (assertInPart pos) :=
  .bind keeps_get fun _ => keeps_assert _

theorem keeps_inodeSync (i : Inode) : Keeps R (inodeSync i) :=
  .bind (keeps_inodeLocate _) fun _ => .bind (keeps_assertInPart _) fun _ =>
    .bind (keeps_ideRead _ _) fun _ => keeps_ideWrite _ _ _

theorem keeps_inodeDelete (n : Nat) : Keeps R (inodeDelete n) :=
  .bind (keeps_assert _) fun _ => .bind (keeps_inodeLocate _) fun _ => .bind (keeps_assertInPart _) fun _ =>
    .bind (keeps_ideRead _ _) fun _ => keeps_ideWrite _ _ _

theorem keeps_releaseBlock (lba : Nat) : Keeps R (releaseBlock lba) :=
  .bind keeps_get fun _ => .bind (keeps_assert _) fun _ => .bind (keeps_blockBitmapSet _ _) fun _ =>
    keeps_bitmapSync _ _

theorem keeps_releaseBlocks (all : Nat → Nat) (ks : List Nat) : Keeps R (releaseBlocks all ks) := by
  induction ks with
  | nil => exact keeps_pure _
  | cons k ks ih => exact .ite (.bind (keeps_releaseBlock _) fun _ => ih) ih

theorem keeps_releaseSectors (i : Inode) : Keeps R (releaseSectors i) :=
  .ite (.bind (keeps_ideRead _ _) fun _ => .bind (keeps_releaseBlock _) fun _ => keeps_releaseBlocks _ _)
    (keeps_releaseBlocks _ _)

end Inode

section Entries

variable {R : Fs → Fs → Prop} [Still R]

theorem keeps_dirBlocks (i : Inode) : Keeps R (dirBlocks i) :=
  .ite (.bind (keeps_ideRead _ _) fun _ => keeps_pure _) (keeps_pure _)

theorem keeps_searchBlocks (name : List UInt8) (all : Nat → Nat) (ks : List Nat) :
    Keeps R (searchBlocks name all ks) := by
  induction ks with
  | nil => exact keeps_pure _
  | cons k ks ih =>
    refine .ite ih (.bind (keeps_ideRead _ _) fun b => .bind keeps_get fun s => ?_)
    dsimp only
    split
    · exact keeps_pure _
    · exact ih

theorem keeps_searchDirEntry (d : DirRef) (name : List UInt8) : Keeps R (searchDirEntry d name) :=
  .bind (keeps_inode d) fun _ => .bind (keeps_getInode _) fun _ => .bind (keeps_dirBlocks _) fun _ =>
    keeps_searchBlocks _ _ _

theorem keeps_createDirEntry (name : List UInt8) (n ft : Nat) : Keeps R (createDirEntry name n ft) :=
  .bind (keeps_assert _) fun _ => keeps_pure _

theorem keeps_setSector (p k lba : Nat) : Keeps R (setSector p k lba) :=
  keeps_read fun i s hi => Still.sectors s p i _ hi

theorem keeps_allocSynced : Keeps R allocSynced := by
  refine .bind keeps_blockBitmapAlloc fun r => ?_
  cases r with
  | none => exact keeps_pure _
  | some lba =>
    exact .bind keeps_get fun _ => .bind (keeps_assert _) fun _ => .bind (keeps_bitmapSync _ _) fun _ => keeps_pure _

theorem keeps_scanEntries (b : Buf) (n : Nat) (js : List Nat) (acc : EntryScan) :
    Keeps R (scanEntries b n js acc) := by
  induction js generalizing acc with
  | nil => exact keeps_pure _
  | cons j js ih =>
    refine .ite (.ite (ih _) (.ite (ih _) (.ite ?_ (ih _)))) (ih _)
    exact .bind (keeps_assert _) fun _ => ih _

theorem keeps_deleteBlock (p lba k : Nat) : Keeps R (deleteBlock p lba k) :=
  .bind keeps_get fun _ => .bind (keeps_blockBitmapSet _ _) fun _ => .bind (keeps_bitmapSync _ _) fun _ =>
    .ite (keeps_setSector _ _ _) (keeps_halt _)

theorem keeps_dirIsEmpty (d : DirRef) : Keeps R (dirIsEmpty d) :=
  .bind (keeps_inode d) fun _ => .bind (keeps_getInode _) fun _ => .bind keeps_get fun _ => keeps_pure _

end Entries

section Dir

variable {R : Fs → Fs → Prop} [Inner R]

theorem keeps_addSize (p n : Nat) : Keeps R (addSize p n) := keeps_read fun i s hi => body s p i _ _ hi

theorem keeps_writeFirstEntry (p : Nat) (e : DirEntry) (lba : Nat) : Keeps R (writeFirstEntry p e lba) :=
  .bind keeps_get fun _ => .bind (keeps_ideWrite _ _ _) fun _ => .bind (keeps_addSize _ _) fun _ => keeps_pure _

theorem keeps_syncNewBlock (p : Nat) (e : DirEntry) (all : Nat → Nat) (k : Nat) :
    Keeps R (syncNewBlock p e all k) := by
  refine .bind keeps_allocSynced fun r => ?_
  cases r with
  | none => exact keeps_pure _
  | some lba =>
    refine .ite (.bind (keeps_setSector _ _ _) fun _ => keeps_writeFirstEntry _ _ _) (.ite ?_ ?_)
    · refine .bind (keeps_setSector _ _ _) fun _ => .bind keeps_allocSynced fun r => ?_
      cases r with
      | none =>
        exact .bind keeps_get fun _ => .bind (keeps_blockBitmapSet _ _) fun _ =>
          .bind (keeps_setSector _ _ _) fun _ => keeps_pure _
      | some lba' => exact .bind (keeps_ideWrite _ _ _) fun _ => keeps_writeFirstEntry _ _ _
    · exact .bind (keeps_getInode _) fun _ => .bind (keeps_ideWrite _ _ _) fun _ => keeps_writeFirstEntry _ _ _

theorem keeps_syncBlocks (p : Nat) (e : DirEntry) (all : Nat → Nat) (ks : List Nat) :
    Keeps R (syncBlocks p e all ks) := by
  induction ks with
  | nil => exact keeps_pure _
  | cons k ks ih =>
    refine .ite (keeps_syncNewBlock _ _ _ _) (.bind (keeps_ideRead _ _) fun b => .bind keeps_get fun s => ?_)
    dsimp only
    split
    · exact .bind (keeps_ideWrite _ _ _) fun _ => .bind (keeps_addSize _ _) fun _ => keeps_pure _
    · exact ih

theorem keeps_syncDirEntry (d : DirRef) (e : DirEntry) : Keeps R (syncDirEntry d e) :=
  .bind (keeps_inode d) fun _ => .bind (keeps_getInode _) fun _ => .bind keeps_get fun _ =>
    .bind (keeps_assert _) fun _ => keeps_syncBlocks _ _ _ _

theorem keeps_entryGone (p size : Nat) : Keeps R (entryGone p size) := by
  refine keeps_read fun i s hi => ?_
  rw [sat_bind, sat_assert]
  refine ⟨fun _ => sat_setInode (body s p i _ _ hi) ?_, fun _ => trivial⟩
  exact .bind (keeps_getInode p) fun _ => .bind (keeps_inodeSync _) fun _ => keeps_pure _

theorem keeps_deleteBlocks (p n : Nat) (all : Nat → Nat) (ks : List Nat) : Keeps R (deleteBlocks p n all ks) := by
  induction ks with
  | nil => exact keeps_pure _
  | cons k ks ih =>
    refine .ite ih (.bind (keeps_ideRead _ _) fun b => .bind keeps_get fun s => ?_)
    refine .bind (keeps_scanEntries _ _ _ _) fun scan => ?_
    split
    · exact ih
    · refine .bind (keeps_assert _) fun _ => .ite ?_ ?_
      · exact .bind (keeps_deleteBlock _ _ _) fun _ => keeps_entryGone _ _
      · exact .bind (keeps_ideWrite _ _ _) fun _ => keeps_entryGone _ _

theorem keeps_deleteDirEntry (d : DirRef) (n : Nat) : Keeps R (deleteDirEntry d n) :=
  .bind (keeps_inode d) fun _ => .bind (keeps_getInode _) fun _ => .bind (keeps_dirBlocks _) fun _ =>
    keeps_deleteBlocks _ _ _ _

end Dir

section Cwd

variable {R : Fs → Fs → Prop} [Still R]

theorem keeps_childBlocks (n : Nat) (path : List UInt8) (all : Nat → Nat) (ks : List Nat) :
    Keeps R (childBlocks n path all ks) := by
  induction ks with
  | nil => exact keeps_pure _
  | cons k ks ih =>
    refine .ite ih (.bind (keeps_ideRead _ _) fun b => .bind keeps_get fun s => ?_)
    dsimp only
    split
    · exact .bind (.ite (keeps_pure _) (keeps_halt _)) fun _ => .bind (.ite (keeps_pure _) (keeps_halt _)) fun _ =>
        keeps_pure _
    · exact ih

end Cwd

section Files

variable {R : Fs → Fs → Prop} [Still R]

theorem keeps_fileInode (g : Nat) : Keeps R (fileInode g) := by
  refine .bind keeps_get fun s => ?_
  split
  · exact keeps_pure _
  · exact keeps_halt _

theorem keeps_getFreeSlotInGlobal : Keeps R getFreeSlotInGlobal := .bind keeps_get fun _ => keeps_pure _

theorem keeps_fdLocal2Global (cur fd : Nat) : Keeps R (fdLocal2Global cur fd : Prog Fs Buf Nat) :=
  .ite (.bind keeps_get fun _ => .bind (keeps_assert _) fun _ => keeps_pure _) (keeps_halt _)

theorem keeps_isPipe (cur fd : Nat) : Keeps R (isPipe cur fd) :=
  .bind (keeps_fdLocal2Global cur fd) fun _ => .bind keeps_get fun _ => keeps_pure _

theorem keeps_firstBlock (p : Nat) : Keeps R (firstBlock p) := by
  refine .bind (keeps_getInode p) fun i => .ite (.bind keeps_blockBitmapAlloc fun r => ?_) (keeps_pure _)
  cases r with
  | none => exact keeps_pure _
  | some lba =>
    exact .bind (keeps_setSector _ _ _) fun _ => .bind keeps_get fun _ => .bind (keeps_assert _) fun _ =>
      .bind (keeps_bitmapSync _ _) fun _ => keeps_pure _

theorem keeps_allocBlocks (p n idx : Nat) (all : Nat → Nat) : Keeps R (allocBlocks p n idx all) := by
  induction n generalizing idx all with
  | zero => exact keeps_pure _
  | succ n ih =>
    refine .bind keeps_blockBitmapAlloc fun r => ?_
    cases r with
    | none => exact keeps_pure _
    | some lba =>
      refine .ite ?_ ?_
      · exact .bind (keeps_getInode _) fun _ => .bind (keeps_assert _) fun _ => .bind (keeps_setSector _ _ _) fun _ =>
          .bind keeps_get fun _ => .bind (keeps_bitmapSync _ _) fun _ => ih _ _
      · exact .bind keeps_get fun _ => .bind (keeps_bitmapSync _ _) fun _ => ih _ _

theorem keeps_collectBlocks (p count : Nat) : Keeps R (collectBlocks p count) := by
  refine .bind (keeps_getInode p) fun i => .bind (keeps_assert _) fun _ => .ite ?_ (.ite ?_ (.ite ?_ ?_))
  · exact .ite (keeps_pure _) (.bind (keeps_assert _) fun _ => .bind (keeps_ideRead _ _) fun _ => keeps_pure _)
  · exact .bind (keeps_assert _) fun _ => keeps_allocBlocks _ _ _ _
  · refine .bind keeps_blockBitmapAlloc fun r => ?_
    cases r with
    | none => exact keeps_pure _
    | some lba =>
      refine .bind (keeps_getInode _) fun _ => .bind (keeps_assert _) fun _ => .bind (keeps_setSector _ _ _) fun _ => ?_
      refine .bind (keeps_allocBlocks _ _ _ _) fun r => ?_
      cases r with
      | none => exact keeps_pure _
      | some all => exact .bind (keeps_ideWrite _ _ _) fun _ => keeps_pure _
  · refine .bind (keeps_assert _) fun _ => .bind (keeps_ideRead _ _) fun table => ?_
    refine .bind (keeps_allocBlocks _ _ _ _) fun r => ?_
    cases r with
    | none => exact keeps_pure _
    | some all => exact .bind (keeps_ideWrite _ _ _) fun _ => keeps_pure _

theorem keeps_readBlocks (p a b : Nat) : Keeps R (readBlocks p a b) := by
  have htable : ∀ (i : Inode) (f : Nat → Nat), Keeps R (do
      return withTable f (← ideRead (i.iSectors 12) 1)) := fun i f =>
    .bind (keeps_ideRead _ _) fun _ => keeps_pure _
  have hassert : ∀ (i : Inode) (f : Nat → Nat), Keeps R (do
      assert (i.iSectors 12 ≠ 0)
      return withTable f (← ideRead (i.iSectors 12) 1)) := fun i f =>
    .bind (keeps_assert _) fun _ => htable i f
  refine .bind (keeps_getInode p) fun i => ?_
  refine .ite (.ite (keeps_pure _) (htable i _)) (.ite (keeps_pure _) ?_)
  exact .ite (hassert i _) (hassert i _)

end Files

section Positions

variable {R : Fs → Fs → Prop} [Inner R]

theorem keeps_move (g : Nat) (n : Fs → Nat) : Keeps R (do
    let s ← get
    setFile g { s.mem.fileTable g with fdPos := n s } : Prog Fs Buf Unit) := fun s => pos s g _ rfl rfl

theorem keeps_addPos (g n : Nat) : Keeps R (addPos g n) := keeps_move g fun s => add32 (s.mem.fileTable g).fdPos n

theorem keeps_writeChunks (g p : Nat) (all : Nat → Nat) (buf : Buf) (count turns done : Nat) (first : Bool) :
    Keeps R (writeChunks g p all buf count turns done first) := by
  induction turns generalizing done first with
  | zero => exact keeps_halt _
  | succ turns ih =>
    refine .ite (.bind (keeps_getInode p) fun i => .ite ?_ (keeps_halt _)) (keeps_pure _)
    refine .ite ?_ ?_
    · exact .bind (keeps_ideRead _ _) fun _ => .bind (keeps_ideWrite _ _ _) fun _ => .bind (keeps_addSize _ _) fun _ =>
        .bind (keeps_addPos _ _) fun _ => ih _ _
    · exact .bind (keeps_pure _) fun _ => .bind (keeps_ideWrite _ _ _) fun _ => .bind (keeps_addSize _ _) fun _ =>
        .bind (keeps_addPos _ _) fun _ => ih _ _

theorem keeps_readChunks (g : Nat) (all : Nat → Nat) (size turns done : Nat) :
    Keeps R (readChunks g all size turns done) := by
  induction turns generalizing done with
  | zero => exact keeps_halt _
  | succ turns ih =>
    refine .ite (.bind keeps_get fun s => .ite ?_ (keeps_halt _)) (keeps_pure _)
    refine .bind (keeps_ideRead _ _) fun _ => .bind (keeps_addPos _ _) fun _ => ?_
    exact .bind (ih _) fun _ => keeps_pure _

end Positions

end Inner

end TrueOs.Fs
