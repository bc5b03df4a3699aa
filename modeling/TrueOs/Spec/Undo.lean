import TrueOs.Spec.Cache
import TrueOs.Spec.NoSpace

/-! What `sys_mkdir` and `file_create` take and do not give back when they fail, with `ASSERT`
compiled out. -/

namespace TrueOs.Fs

open Function (update update_self update_of_ne)
open Prog

structure InUse (s : Fs) (p : Nat) (i : Inode) : Prop where
  mem : p ∈ s.mem.openInodes
  inode : s.mem.inodes p = some i
  pos : i.iOpenCnts ≠ 0
  lt : i.iOpenCnts < 2 ^ 32

structure Lent (s : Fs) (d : DirRef) (t : Fs) : Prop where
  vol : t.vol = s.vol
  inodes : ∀ p i, InUse s p i → p ∈ t.mem.openInodes ∧
    t.mem.inodes p = some (i.cnt (if d = .heap p then add32 i.iOpenCnts 1 else i.iOpenCnts))

structure Undone (s t : Fs) : Prop where
  vol : t.vol = s.vol
  inodes : ∀ p i, InUse s p i → t.mem.inodes p = some i

section Search

variable {R : Fs → Fs → Prop} [IsPreorder Fs R] {s t : Fs} {d : DirRef}

theorem retains_inode (d : DirRef) : Retains R d.inode := by
  cases d with
  | root => exact retains_get.bind fun _ => retains_pure _
  | heap p => exact retains_pure _

theorem retains_dirBlocks (i : Inode) : Retains R (dirBlocks i) :=
  .ite ((retains_ideRead _ _).bind fun _ => retains_pure _) (retains_pure _)

theorem retains_searchBlocks (name : List UInt8) (all : Nat → Nat) (ks : List Nat) :
    Retains R (searchBlocks name all ks) := by
  induction ks with
  | nil => exact retains_pure _
  | cons k ks ih =>
    refine .ite ih ((retains_ideRead _ _).bind fun b => retains_get.bind fun s => ?_)
    dsimp only
    split
    · exact retains_pure _
    · exact ih

theorem retains_searchDirEntry (d : DirRef) (name : List UInt8) : Retains R (searchDirEntry d name) :=
  (retains_inode d).bind fun p => (retains_getInode p).bind fun i => (retains_dirBlocks i).bind fun all =>
    retains_searchBlocks name all _

theorem retains_storeName (name : List UInt8) : Retains R (storeName name) := .ite (retains_pure _) (retains_halt _)

theorem retains_terminated (name : List UInt8) : Retains R (terminated name) := .ite (retains_pure _) (retains_halt _)

theorem retains_nextName (sub : Option (List UInt8)) : Retains R (nextName sub) := by
  cases sub with
  | none => exact retains_pure _
  | some path => exact (retains_storeName _).bind fun _ => retains_pure _

theorem retains_depthLoop (turns : Nat) (c : UInt8) (path : Option (List UInt8)) (depth : Nat) :
    Retains R (depthLoop turns c path depth) := by
  induction turns generalizing c path depth with
  | zero => exact retains_halt _
  | succ turns ih =>
    refine .ite (retains_pure _) ?_
    cases path with
    | none => exact ih _ _ _
    | some path => exact (retains_storeName _).bind fun _ => ih _ _ _

theorem retains_pathDepthCnt (name : Buf) (path : List UInt8) : Retains R (pathDepthCnt name path) :=
  (retains_storeName _).bind fun _ => retains_depthLoop _ _ _ _

theorem lent_root (s : Fs) : Lent s .root s := ⟨rfl, fun _ _ h => ⟨h.mem, h.inode⟩⟩

theorem bare_dirClose (h : Lent s d t) : ((dirClose d).on t).Bare (fun _ u => Lent s .root u) := by
  cases d with
  | root => exact h
  | heap q =>
    rw [dirClose, inodeClose, bind_on, Res.bare_bind]
    refine bare_getInode q t fun j hj => ?_
    rw [ite_on]
    split
    · next hzero =>
      refine ⟨h.vol, fun p i hp => ?_⟩
      obtain ⟨hmem, hi⟩ := h.inodes p i hp
      have hne : p ≠ q := by
        rintro rfl
        rw [hi, if_pos rfl] at hj
        cases hj
        exact hp.pos ((Mem.sub32_add32 hp.lt).symm.trans hzero)
      rw [if_neg fun hc => hne (DirRef.heap.inj hc).symm] at hi
      exact ⟨(List.mem_erase_of_ne hne).mpr hmem, (update_of_ne hne _ _).trans hi⟩
    · refine ⟨h.vol, fun p i hp => ?_⟩
      obtain ⟨hmem, hi⟩ := h.inodes p i hp
      refine ⟨hmem, ?_⟩
      by_cases hpq : p = q
      · subst hpq
        rw [hi, if_pos rfl] at hj
        cases hj
        have hroot : DirRef.root ≠ .heap p := by
          intro hc
          cases hc
        rw [if_neg hroot]
        refine (update_self _ _ _).trans ?_
        simp only [Inode.cnt, Mem.sub32_add32 hp.lt]
      · rw [if_neg fun hc => hpq (DirRef.heap.inj hc).symm] at hi
        exact (update_of_ne hpq _ _).trans hi

theorem bare_dirOpen (h : Lent s .root t) (n : Nat) : ((dirOpen n).on t).Bare (fun d u => Lent s d u) := by
  rw [dirOpen, bind_on, Res.bare_bind, inodeOpen, bind_on, get_on, Res.bind]
  cases t.mem.find n with
  | some q =>
    dsimp only
    rw [bind_on, Res.bare_bind]
    refine bare_getInode q t fun j hj => ⟨h.vol, fun p i hp => ?_⟩
    obtain ⟨hmem, hi⟩ := h.inodes p i hp
    refine ⟨hmem, ?_⟩
    by_cases hpq : p = q
    · subst hpq
      cases hi.symm.trans hj
      rw [if_pos rfl]
      exact update_self _ _ _
    · rw [if_neg fun hc => hpq (DirRef.heap.inj hc).symm]
      exact (update_of_ne hpq _ _).trans hi
  | none =>
    dsimp only
    simp only [inodeLocate, pushInode, bind_on, get_on, Res.bare_bind, Res.bare_done, bare_assert, bare_ideRead, modify_on,
      pure_on]
    refine ⟨h.vol, fun p i hp => ?_⟩
    obtain ⟨hmem, hi⟩ := h.inodes p i hp
    have hne : p ≠ t.mem.fresh := Nat.ne_of_lt (Mem.lt_fresh_of_mem hmem)
    rw [if_neg fun hc => hne (DirRef.heap.inj hc).symm]
    exact ⟨List.mem_cons_of_mem _ hmem, (update_of_ne hne _ _).trans hi⟩

theorem bare_searchLoop (turns : Nat) (r : PathSearchRecord) (name : List UInt8) (sub : Option (List UInt8)) (n : Nat)
    (e : DirEntry) (h : Lent s r.parentDir t) :
    ((searchLoop turns r name sub n e).on t).Bare (fun x u => Lent s x.2.parentDir u) := by
  induction turns generalizing r name sub n e t with
  | zero => trivial
  | succ turns ih =>
    rw [searchLoop, ite_on]
    split
    · rw [bind_on, Res.bare_bind]
      refine (bare_dirClose h).mono fun _ t₁ h₁ => ?_
      rw [bind_on, Res.bare_bind]
      exact bare_dirOpen h₁ n
    · refine (retains_assert _).skip fun _ => (retains_terminated name).skip fun _ => ?_
      refine (retains_searchDirEntry _ _).skip fun found => ?_
      cases found with
      | none => exact h
      | some e =>
        refine (retains_nextName sub).skip fun next => ?_
        rw [ite_on]
        split
        · refine (retains_inode _).skip fun q => (retains_getInode q).skip fun j => ?_
          rw [bind_on, Res.bare_bind]
          refine (bare_dirClose h).mono fun _ t₁ h₁ => ?_
          rw [bind_on, Res.bare_bind]
          exact (bare_dirOpen h₁ e.iNo).mono fun d t₂ h₂ => ih _ _ _ _ _ h₂
        · rw [ite_on]
          split
          · exact h
          · exact ih _ _ _ _ _ h

theorem bare_searchFile (e : DirEntry) (path : List UInt8) (s : Fs) :
    ((searchFile e path).on s).Bare (fun x t => Lent s x.2.parentDir t) := by
  rw [searchFile, ite_on]
  split
  · exact lent_root s
  · refine (retains_assert _).skip fun _ => (retains_nextName _).skip fun next => ?_
    exact bare_searchLoop _ _ _ _ _ _ (lent_root s)

end Search

section Mkdir

variable {s t : Fs} {d : DirRef} {n : Nat}

def findParent (stack : Stack) (pathname : List UInt8) : Prog Fs Buf (Option (DirRef × List UInt8)) := do
  let (inodeNo, searchedRecord) ← searchFile stack.dirE pathname
  if inodeNo ≠ -1 then
    dirClose searchedRecord.parentDir
    return none
  else
    let pathnameDepth ← pathDepthCnt stack.name₁ pathname
    let pathSearchedDepth ← pathDepthCnt stack.name₂ searchedRecord.searchedPath
    if pathnameDepth ≠ pathSearchedDepth then
      dirClose searchedRecord.parentDir
      return none
    else if searchedRecord.searchedPath = [] then
      halt .fault
    else
      return some (searchedRecord.parentDir, afterSlash searchedRecord.searchedPath)

theorem sysMkdir_eq (stack : Stack) (path : List UInt8) : sysMkdir stack path =
    findParent stack path >>= fun x => x.elim (pure (-1)) fun y => makeDir y.1 y.2 := by
  rw [sysMkdir, findParent, bind_assoc]
  congr 1
  funext x
  obtain ⟨no, r⟩ := x
  by_cases hno : no ≠ -1
  · simp only [if_pos hno, bind_assoc, pure_bind, Option.elim]
  · simp only [if_neg hno, bind_assoc]
    congr 1
    funext a
    congr 1
    funext b
    by_cases hd : a ≠ b
    · simp only [if_pos hd, bind_assoc, pure_bind, Option.elim]
    · by_cases hp : r.searchedPath = []
      · simp only [if_neg hd, if_pos hp]
        rfl
      · simp only [if_neg hd, if_neg hp, pure_bind, Option.elim]

theorem bare_findParent (stack : Stack) (path : List UInt8) (s : Fs) :
    ((findParent stack path).on s).Bare (fun x t => Lent s (x.elim .root Prod.fst) t) := by
  rw [findParent, bind_on, Res.bare_bind]
  refine (bare_searchFile stack.dirE path s).mono fun x t h => ?_
  obtain ⟨no, r⟩ := x
  dsimp only
  rw [ite_on]
  split
  · rw [bind_on, Res.bare_bind]
    exact bare_dirClose h
  · refine (retains_pathDepthCnt _ _).skip fun a => (retains_pathDepthCnt _ _).skip fun b => ?_
    rw [ite_on]
    split
    · rw [bind_on, Res.bare_bind]
      exact bare_dirClose h
    · rw [ite_on]
      split
      · trivial
      · exact h

theorem Lent.undone (h : Lent s .root t) : Undone s t := ⟨h.vol, fun p i hp => (h.inodes p i hp).2⟩

def putInode (s : Fs) (n : Nat) (v : Bool) : Fs :=
  { s with vol.inodeBitmap := ⟨s.vol.inodeBitmap.btmpBytesLen, s.vol.inodeBitmap.bits.setBit n v⟩ }

theorem setBit_setBit_clear {b : Buf} (h : b.bit n = false) : (b.setBit n true).setBit n false = b := by
  funext j
  refine Buf.apply_eq_of_bit_eq fun i _ => ?_
  by_cases hi : i = n
  · rw [hi, Buf.bit_setBit_self, h]
  · rw [Buf.bit_setBit_of_ne hi, Buf.bit_setBit_of_ne hi]

theorem putInode_putInode (h : s.vol.inodeBitmap.bits.bit n = false) : (s.putInode n true).putInode n false = s := by
  simp only [putInode, setBit_setBit_clear h]

theorem bare_inodeBitmapAlloc {Q : Option Nat → Fs → Prop} (hfull : s.vol.inodeBitmap.Full → Q none s)
    (hfree : ∀ n, s.vol.inodeBitmap.FirstFree n → Q (some n) (s.putInode n true)) : (inodeBitmapAlloc.on s).Bare Q := by
  rw [inodeBitmapAlloc, bind_on, Res.bare_bind, get_on, Res.bare_done, bind_on, Res.bare_bind]
  refine Bitmap.bare_bitmapScan hfull fun n hn => ?_
  simp only [inodeBitmapSet, bind_on, get_on, Res.bare_bind, Res.bare_done]
  exact Bitmap.bare_bitmapSet (hfree n hn)

theorem bare_inodeBitmapSet {v : Bool} {Q : Unit → Fs → Prop} (h : Q () (s.putInode n v)) :
    ((inodeBitmapSet n v).on s).Bare Q := by
  simp only [inodeBitmapSet, bind_on, get_on, Res.bare_bind, Res.bare_done]
  exact Bitmap.bare_bitmapSet h

theorem bare_makeDir (h : Lent s d t) (name : List UInt8)
    (hfull : s.vol.inodeBitmap.Full ∨ s.vol.blockBitmap.Full) :
    ((makeDir d name).on t).Bare (fun _ u => Undone s u) := by
  rw [makeDir, bind_on, Res.bare_bind]
  refine bare_inodeBitmapAlloc (fun _ => ?_) fun n hn => ?_
  · dsimp only
    rw [bind_on, Res.bare_bind]
    exact (bare_dirClose h).mono fun _ _ hu => hu.undone
  · dsimp only
    rw [bind_on, Res.bare_bind]
    refine bare_blockBitmapAlloc (fun _ => ?_) fun i hi => ?_
    · dsimp only
      rw [bind_on, Res.bare_bind]
      refine bare_inodeBitmapSet ?_
      rw [putInode_putInode hn.free, bind_on, Res.bare_bind]
      exact (bare_dirClose h).mono fun _ _ hu => hu.undone
    · have hmaps := h.vol
      refine absurd hfull (not_or.mpr ⟨?_, ?_⟩)
      · exact hmaps ▸ hn.not_full
      · exact hmaps ▸ hi.not_full

end Mkdir

section Create

variable {s t u : Fs} {i n : Nat}

theorem oneFree_of_full (hi : s.vol.blockBitmap.FirstFree i) (ht : t.vol.blockBitmap = (s.putBlock i true).vol.blockBitmap)
    (hfull : t.vol.blockBitmap.Full) : s.vol.blockBitmap.OneFree := by
  refine ⟨i, hi, fun j hj hne => ?_⟩
  rw [ht] at hfull
  have hbit : (s.vol.blockBitmap.bits.setBit i true).bit j = true := hfull j hj
  rwa [Buf.bit_setBit_of_ne hne] at hbit

theorem bare_allocSynced {Q : Option Nat → Fs → Prop} (hfull : s.vol.blockBitmap.Full → Q none s)
    (hfree : ∀ i t, s.vol.blockBitmap.FirstFree i → t.vol.blockBitmap = (s.putBlock i true).vol.blockBitmap →
      Q (some (s.vol.sb.dataStartLba + i)) t) : (allocSynced.on s).Bare Q := by
  rw [allocSynced, bind_on, Res.bare_bind]
  refine bare_blockBitmapAlloc hfull fun i hi => ?_
  exact hfree i _ hi rfl

def Wanting (s t : Fs) : Prop := s.vol.blockBitmap.Full ∧ t = s ∨ s.vol.blockBitmap.OneFree

theorem bare_writeFirstEntry (p : Nat) (e : DirEntry) (lba : Nat) (t : Fs) :
    ((writeFirstEntry p e lba).on t).Bare (fun r _ => r = true) := by
  refine bare_last (fun _ => bare_last fun _ => bare_last fun _ u => ?_) t
  exact Eq.refl true

theorem bare_setSector (p k lba : Nat) (t : Fs) : ((setSector p k lba).on t).Bare (fun _ u => u.vol = t.vol) := by
  rw [setSector, bind_on, Res.bare_bind]
  exact bare_getInode p t fun _ _ => rfl

theorem bare_syncNewBlock (p : Nat) (e : DirEntry) (all : Nat → Nat) (k : Nat) (s : Fs) :
    ((syncNewBlock p e all k).on s).Bare (fun r t => r = false → Wanting s t) := by
  have hok : ∀ {r : Bool} {t : Fs}, r = true → r = false → Wanting s t := fun h h' => nomatch h.symm.trans h'
  rw [syncNewBlock, bind_on, Res.bare_bind]
  refine bare_allocSynced (fun hfull _ => .inl ⟨hfull, rfl⟩) fun i t hi ht => ?_
  dsimp only
  rw [ite_on]
  split
  · exact bare_last (fun _ u => (bare_writeFirstEntry p e _ u).mono fun _ _ => hok) t
  · rw [ite_on]
    split
    · rw [bind_on, Res.bare_bind]
      refine (bare_setSector p 12 _ t).mono fun _ u hu => ?_
      rw [bind_on, Res.bare_bind]
      refine bare_allocSynced (fun hfull => ?_) fun i' v _ _ => ?_
      · exact (Res.bare_top _).mono fun _ _ _ _ => .inr (oneFree_of_full hi (hu ▸ ht) hfull)
      · exact bare_last (fun _ v => (bare_writeFirstEntry p e _ v).mono fun _ _ => hok) v
    · exact bare_last (fun _ => bare_last fun _ v => (bare_writeFirstEntry p e _ v).mono fun _ _ => hok) t

theorem bare_syncBlocks (p : Nat) (e : DirEntry) {all : Nat → Nat} (h12 : all 12 = 0) {ks : List Nat} (hks : 12 ∈ ks)
    (s : Fs) : ((syncBlocks p e all ks).on s).Bare (fun r t => r = false → Wanting s t) := by
  induction ks with
  | nil => cases hks
  | cons k ks ih =>
    rw [syncBlocks, ite_on]
    split
    · exact bare_syncNewBlock p e all k s
    · next hk =>
      refine (retains_ideRead _ _).skip fun b => retains_get.skip fun v => ?_
      dsimp only
      split
      · refine bare_last (fun _ => bare_last fun _ u => ?_) s
        intro hc
        cases (hc : true = false)
      · refine ih ((List.mem_cons.mp hks).resolve_left ?_)
        rintro rfl
        exact hk h12

theorem bare_syncDirEntry (d : DirRef) (e : DirEntry) (s : Fs) :
    ((syncDirEntry d e).on s).Bare (fun r t => r = false → Wanting s t) := by
  refine (retains_inode d).skip fun p => (retains_getInode p).skip fun i => ?_
  refine retains_get.skip fun v => (retains_assert _).skip fun _ => ?_
  exact bare_syncBlocks p e rfl (List.mem_range.mpr (by decide)) s

/-- `file_create` up to `pcb_fd_install`, with the slot of the file if it was made. -/
def fileMade (parentDir : DirRef) (filename : List UInt8) (flag : Nat) : Prog Fs Buf (Option Nat) := do
  match ← inodeBitmapAlloc with
  | none => return none
  | some inodeNo =>
    match ← getFreeSlotInGlobal with
    | none =>
      inodeBitmapSet inodeNo false
      return none
    | some fdIdx =>
      let p ← mallocInode (inodeInit inodeNo)
      setFile fdIdx ⟨0, flag, some p⟩
      let newDirEntry ← createDirEntry filename inodeNo ftRegular
      if ← syncDirEntry parentDir newDirEntry then
        inodeSync (← getInode (← parentDir.inode))
        inodeSync (← getInode p)
        bitmapSync inodeNo .inode
        modify (fun s => { s with mem.openInodes := p :: s.mem.openInodes })
        let i ← getInode p
        setInode p (i.cnt 1)
        return some fdIdx
      else
        setFile fdIdx ⟨0, 0, none⟩
        freeInode p
        inodeBitmapSet inodeNo false
        return none

theorem fileCreate_eq (cur : Nat) (d : DirRef) (name : List UInt8) (flag : Nat) : fileCreate cur d name flag =
    fileMade d name flag >>= fun r => r.elim (pure (-1)) (pcbFdInstall cur) := by
  rw [fileCreate, fileMade, bind_assoc]
  congr 1
  funext r
  cases r with
  | none => rfl
  | some n =>
    dsimp only
    rw [bind_assoc]
    congr 1
    funext g
    cases g with
    | none => simp only [bind_assoc, pure_bind, Option.elim]
    | some g =>
      simp only [fileInstall, bind_assoc]
      congr 1
      funext p
      congr 1
      funext _
      congr 1
      funext e
      congr 1
      funext b
      cases b with
      | true => simp only [if_pos, bind_assoc, pure_bind, Option.elim]
      | false => simp only [Bool.false_eq_true, if_false, bind_assoc, pure_bind, Option.elim]

def SlotsTaken (s : Fs) : Prop := ∀ g, 3 ≤ g → g < maxFileOpen → (s.mem.fileTable g).fdInode.isNone = false

theorem SlotsTaken.find_eq_none (h : SlotsTaken s) :
    (List.range' 3 (maxFileOpen - 3)).find? (fun g => (s.mem.fileTable g).fdInode.isNone) = none := by
  rw [List.find?_eq_none]
  intro g hg
  rw [List.mem_range'_1] at hg
  rw [h g hg.1 hg.2]
  exact Bool.false_ne_true

theorem bare_fileMade (d : DirRef) (name : List UInt8) (flag : Nat)
    (h : s.vol.inodeBitmap.Full ∨ SlotsTaken s ∨ ¬s.vol.blockBitmap.OneFree) :
    ((fileMade d name flag).on s).Bare (fun r t => r = none → Undone s t) := by
  have hself : Undone s s := ⟨rfl, fun _ _ hp => hp.inode⟩
  rw [fileMade, bind_on, Res.bare_bind]
  refine bare_inodeBitmapAlloc (fun _ _ => hself) fun n hn => ?_
  dsimp only
  rw [bind_on, Res.bare_bind, getFreeSlotInGlobal, bind_on, get_on, Res.bind, pure_on, Res.bare_done]
  cases hslot : (List.range' 3 (maxFileOpen - 3)).find? (fun g => ((s.putInode n true).mem.fileTable g).fdInode.isNone) with
  | none =>
    dsimp only
    rw [bind_on, Res.bare_bind]
    refine bare_inodeBitmapSet ?_
    rw [putInode_putInode hn.free]
    exact fun _ => hself
  | some g =>
    have hone : ¬s.vol.blockBitmap.OneFree := by
      obtain hfull | htaken | hone := h
      · exact absurd hfull hn.not_full
      · cases htaken.find_eq_none.symm.trans hslot
      · exact hone
    dsimp only
    simp only [mallocInode, setInode, setFile, createDirEntry, bind_on, get_on, modify_on, pure_on, Res.bare_bind, Res.bare_done,
      bare_assert]
    refine (bare_syncDirEntry d _ _).mono fun b t ht => ?_
    cases b with
    | true =>
      refine bare_last (fun _ => bare_last fun _ => bare_last fun _ => bare_last fun _ => bare_last fun _ => bare_last fun _ =>
        bare_last fun _ => bare_last fun _ => bare_last fun _ u => ?_) t
      intro hc
      cases (hc : some g = none)
    | false =>
      obtain ⟨-, rfl⟩ | hc := ht rfl
      · simp only [Bool.false_eq_true, if_false, bind_on, modify_on, Res.bare_bind, Res.bare_done, freeInode]
        have hvol : ((s.putInode n true).putInode n false).vol = s.vol := by rw [putInode_putInode hn.free]
        refine bare_inodeBitmapSet fun _ => ⟨hvol, fun p i hp => ?_⟩
        · have hne : p ≠ s.mem.fresh := Nat.ne_of_lt (Mem.lt_fresh_of_mem hp.mem)
          exact (update_of_ne hne _ _).trans ((update_of_ne hne _ _).trans hp.inode)
      · exact absurd hc hone

inductive MakeCall where
  | mkdir (stack : Stack) (pathname : List UInt8)
  | create (parentDir : DirRef) (filename : List UInt8) (flag : Nat)

/-- The call returns -1, `file_create` before it comes to `pcb_fd_install`. -/
inductive MakeFails (s : Fs) : MakeCall → Fs → Prop
  | mkdir {stack : Stack} {pathname : List UInt8} {t : Fs} :
      ((sysMkdir stack pathname).unchecked.on s).run = .ok (-1, t) → MakeFails s (.mkdir stack pathname) t
  | create {parentDir : DirRef} {filename : List UInt8} {flag : Nat} {t : Fs} :
      ((fileMade parentDir filename flag).unchecked.on s).run = .ok (none, t) →
        MakeFails s (.create parentDir filename flag) t

def MakeCall.Careful (s : Fs) : MakeCall → Prop
  | .mkdir stack pathname => s.vol.inodeBitmap.Full ∨ s.vol.blockBitmap.Full ∨
      ∃ t, ((findParent stack pathname).unchecked.on s).run = .ok (none, t)
  | .create _ _ _ => s.vol.inodeBitmap.Full ∨ SlotsTaken s ∨ ¬s.vol.blockBitmap.OneFree

theorem bare_sysMkdir (stack : Stack) (path : List UInt8) (h : s.vol.inodeBitmap.Full ∨ s.vol.blockBitmap.Full) :
    ((sysMkdir stack path).on s).Bare (fun _ t => Undone s t) := by
  rw [sysMkdir_eq, bind_on, Res.bare_bind]
  refine (bare_findParent stack path s).mono fun x t hx => ?_
  cases x with
  | none => exact hx.undone
  | some y => exact bare_makeDir hx y.2 h

def tightRoot (bits : UInt8) : Fs where
  vol := ⟨0, 1000, ⟨0, 1000, 4096, 0, 1, 1, 2, 1, 3, 608, 611, 0, 24⟩, fun _ => 1, ⟨1, fun _ => bits⟩,
    ⟨512, update (fun _ => 0) 0 1⟩⟩
  mem := ⟨update (fun _ => none) 1 (some ⟨0, 504, 1, false, update (fun _ => 0) 0 700⟩), [1], 1,
    fun _ => ⟨0, 0, none⟩, fun _ => none, fun _ _ => -1, fun _ => 0⟩

def mkdirA : MakeCall := .mkdir ⟨⟨fun _ => 0, 0, 0⟩, fun _ => 0, fun _ => 0⟩ [slash, 97]

end Create

end TrueOs.Fs
