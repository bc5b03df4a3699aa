import Mathlib.Data.Nat.Bitwise
import TrueOs.Fs.Erased
import TrueOs.Fs.Inner
import TrueOs.Kernel.Pages
import TrueOs.Spec.Cache

/-! The heap blocks over one call: what is taken on the way is given back, but for inodes and for the
directory a search ends in. -/

namespace TrueOs.Fs

open Function (update update_self update_of_ne update_eq_self update_comm)
open Prog Mm

structure SameObjs (s t : Fs) : Prop where
  list : t.mem.openInodes = s.mem.openInodes
  live : ∀ p, (t.mem.inodes p).isSome = (s.mem.inodes p).isSome

theorem SameObjs.update {s : Fs} {p : Nat} {i j : Inode} (hi : s.mem.inodes p = some i) :
    SameObjs s { s with mem.inodes := update s.mem.inodes p (some j) } := by
  refine ⟨rfl, fun q => ?_⟩
  by_cases hq : q = p
  · subst hq
    simp only [update_self, hi, Option.isSome_some]
  · simp only [update_of_ne hq]

instance : Inner SameObjs where
  refl _ := ⟨rfl, fun _ => rfl⟩
  trans _ _ _ h h' := ⟨h'.list.trans h.list, fun p => (h'.live p).trans (h.live p)⟩
  vol _ _ := ⟨rfl, fun _ => rfl⟩
  sectors _ _ _ _ hi := .update hi
  body _ _ _ _ _ hi := .update hi
  pos _ _ _ _ _ := ⟨rfl, fun _ => rfl⟩

theorem keeps_edit_objs (p : Nat) (f : Inode → Inode) : Keeps SameObjs (do
    let i ← getInode p
    setInode p (f i)) := Inner.keeps_read fun _ _ hi => .update hi

theorem keeps_setFile_objs (g : Nat) (f : File) : Keeps SameObjs (setFile g f) :=
  keeps_modify fun _ => ⟨rfl, fun _ => rfl⟩

theorem keeps_setFd_objs (cur fd : Nat) (v : Int) : Keeps SameObjs (setFd cur fd v) :=
  keeps_modify fun _ => ⟨rfl, fun _ => rfl⟩

theorem keeps_pcbFdInstall_objs (cur g : Nat) : Keeps SameObjs (pcbFdInstall cur g) := by
  refine .bind keeps_get fun s => ?_
  dsimp only
  split
  · exact .bind (keeps_modify fun _ => ⟨rfl, fun _ => rfl⟩) fun _ => keeps_pure _
  · exact keeps_pure _

namespace Tracked

def others (h : Blocks) : Nat → Option PoolFlags := fun k => h.pool (.other k)

structure Sound (w : Fs × Blocks) : Prop where
  nodup : w.1.mem.openInodes.Nodup
  listed : ∀ p, p ∈ w.1.mem.openInodes ↔ (w.1.mem.inodes p).isSome = true
  block : ∀ p, (w.2.pool (.inode p)).isSome = (w.1.mem.inodes p).isSome
  fresh : ∀ k, w.2.next ≤ k → others w.2 k = none

structure Apart (h : Blocks) : Prop where
  kernel : ∀ p pf, h.pool (.inode p) = some pf → pf = .kernel
  mixed : h.mixed = false

structure Plain (q : Prop) (o : Nat → Option PoolFlags) (w : Fs × Blocks) : Prop where
  sound : Sound w
  others : others w.2 = o
  apart : q → Apart w.2

def Same (q : Prop) (w w' : Fs × Blocks) : Prop := ∀ o, Plain q o w → Plain q o w'

instance {q : Prop} : IsPreorder (Fs × Blocks) (Same q) where
  refl _ _ h := h
  trans _ _ _ h h' o hw := h' o (h o hw)

section Blocks

variable {h : Blocks} {b : Block} {pf : PoolFlags} {k p : Nat}

@[simp] theorem others_take_inode : others (h.take (.inode p) pf) = others h := by
  funext j
  simp [others]

@[simp] theorem others_give_inode : others (h.give (.inode p) pf) = others h := by
  funext j
  simp [others]

@[simp] theorem others_tick : others h.tick = others h := rfl

@[simp] theorem others_take : others (h.take (.other k) pf) = update (others h) k (some pf) := by
  funext j
  by_cases hj : j = k
  · subst hj
    simp [others]
  · simp [others, hj]

@[simp] theorem others_give : others (h.give (.other k) pf) = update (others h) k none := by
  funext j
  by_cases hj : j = k
  · subst hj
    simp [others]
  · simp [others, hj]

theorem Apart.take_other (ha : Apart h) : Apart (h.take (.other k) pf).tick :=
  ⟨fun p x hx => ha.kernel p x (by simpa using hx), ha.mixed⟩

theorem Apart.take_inode (ha : Apart h) (hpf : pf = .kernel) : Apart (h.take (.inode p) pf) := by
  refine ⟨fun r x hx => ?_, ha.mixed⟩
  by_cases hr : r = p
  · subst hr
    simp only [Blocks.take_pool, update_self, Option.some.injEq] at hx
    rw [← hx, hpf]
  · exact ha.kernel r x (by simpa [hr] using hx)

theorem Apart.give (ha : Apart h) (hb : h.pool b = some pf) : Apart (h.give b pf) := by
  refine ⟨fun r x hx => ?_, ?_⟩
  · by_cases hr : Block.inode r = b
    · subst hr
      simp at hx
    · exact ha.kernel r x (by simpa [hr] using hx)
  · rw [Blocks.give_mixed, ha.mixed, hb]
    simp

end Blocks

section Steps

variable {q : Prop} {o : Nat → Option PoolFlags} {w : Fs × Blocks} {pf : PoolFlags}

theorem Sound.same {s t : Fs} {h : Blocks} (hw : Sound (s, h)) (ht : SameObjs s t) : Sound (t, h) :=
  ⟨by rw [ht.list]; exact hw.nodup, fun p => by rw [ht.list, ht.live]; exact hw.listed p,
    fun p => by rw [ht.live]; exact hw.block p, hw.fresh⟩

theorem keeps_lift {α : Type} {c : Prog Fs Buf α} (hc : Keeps SameObjs c) : Keeps (Same q) (lift c) :=
  hc.lift fun _ _ _ ht _ hw => ⟨hw.sound.same ht, hw.others, hw.apart⟩

theorem sat_sysMalloc (hw : Plain q o w) {Q : Nat → Fs × Blocks → Prop}
    (hQ : ∀ k w', w'.1 = w.1 → o k = none → Plain q (update o k (some pf)) w' → Q k w') :
    ((sysMalloc pf).on w).Sat True Q := by
  have hnext : o w.2.next = none := by
    rw [← hw.others]
    exact hw.sound.fresh _ le_rfl
  refine hQ w.2.next _ rfl hnext ⟨⟨hw.sound.nodup, hw.sound.listed, fun p => ?_, fun k hk => ?_⟩, ?_, fun hq => ?_⟩
  · simpa using hw.sound.block p
  · have hk' : w.2.next + 1 ≤ k := hk
    simp only [others_tick, others_take]
    rw [update_of_ne (by omega)]
    exact hw.sound.fresh k (by omega)
  · simp only [others_tick, others_take, hw.others]
  · exact (hw.apart hq).take_other

theorem Plain.give {k : Nat} (hw : Plain q (update o k (some pf)) w) (hk : o k = none) :
    Plain q o (w.1, w.2.give (.other k) pf) := by
  have ho : update o k none = o := by rw [← hk, update_eq_self]
  refine ⟨⟨hw.sound.nodup, hw.sound.listed, fun p => ?_, fun j hj => ?_⟩, ?_, fun hq => ?_⟩
  · simpa using hw.sound.block p
  · rw [others_give]
    by_cases h : j = k
    · subst h
      exact update_self _ _ _
    · rw [update_of_ne h]
      exact hw.sound.fresh j hj
  · rw [others_give, hw.others, Function.update_idem, ho]
  · exact (hw.apart hq).give ((congrFun hw.others k).trans (update_self _ _ _))

theorem keeps_same {α : Type} {c : Prog (Fs × Blocks) Buf α}
    (h : ∀ o w, Plain q o w → (c.on w).Sat True (fun _ w' => Plain q o w')) : Keeps (Same q) c := by
  intro w
  by_cases hw : Plain q (Tracked.others w.2) w
  · refine (h _ w hw).mono fun _ w' hw' o ho => ?_
    rwa [← ho.others]
  · refine (Res.sat_top trivial _).mono fun _ w' _ o ho => ?_
    exact absurd (by rwa [ho.others]) hw

theorem Plain.sat {α : Type} {c : Prog (Fs × Blocks) Buf α} (hw : Plain q o w) (hc : Keeps (Same q) c) :
    (c.on w).Sat True (fun _ w' => Plain q o w') := (hc w).mono fun _ _ h => h o hw

theorem keeps_withBuf {α : Type} {c : Prog (Fs × Blocks) Buf α} (hc : Keeps (Same q) c) :
    Keeps (Same q) (withBuf pf c) := by
  refine keeps_same fun o w hw => ?_
  rw [withBuf, sat_bind]
  refine sat_sysMalloc hw fun k w₁ _ hk h₁ => ?_
  rw [sat_bind]
  exact (h₁.sat hc).mono fun _ w₂ h₂ => h₂.give hk

end Steps

section Inode

variable {q : Prop} {o : Nat → Option PoolFlags} {w : Fs × Blocks} {pf : PoolFlags}

theorem keeps_pushInode (i : Inode) : Keeps (Same q) (do
    let p ← lift (pushInode i)
    mallocInode p .kernel
    return p) := by
  refine keeps_same fun o w hw => ?_
  have hp : w.1.mem.fresh ∉ w.1.mem.openInodes := fun h => absurd (Mem.lt_fresh_of_mem h) (Nat.lt_irrefl _)
  refine ⟨⟨List.nodup_cons.mpr ⟨hp, hw.sound.nodup⟩, fun r => ?_, fun r => ?_, fun k hk => ?_⟩, ?_, fun hq => ?_⟩
  · by_cases hr : r = w.1.mem.fresh
    · subst hr
      simp
    · simpa [hr] using hw.sound.listed r
  · by_cases hr : r = w.1.mem.fresh
    · subst hr
      simp
    · simpa [hr] using hw.sound.block r
  · rw [others_take_inode]
    exact hw.sound.fresh k hk
  · rw [others_take_inode]
    exact hw.others
  · exact (hw.apart hq).take_inode rfl

theorem inodeOpen_on_some {s : Fs} {n p : Nat} (hf : s.mem.find n = some p) : (Fs.inodeOpen n).on s = (do
    let i ← getInode p
    setInode p (i.cnt (add32 i.iOpenCnts 1))
    return p : Prog Fs Buf Nat).on s := by
  rw [Fs.inodeOpen, bind_on, get_on, Res.bind, hf]

theorem inodeOpen_on_none {s : Fs} {n : Nat} (hf : s.mem.find n = none) : (Fs.inodeOpen n).on s = (do
    let pos ← inodeLocate n
    let inodeBuf ← ideRead pos.secLba pos.secs
    pushInode ((Inode.ofBytes inodeBuf pos.offSize).cnt 1) : Prog Fs Buf Nat).on s := by
  rw [Fs.inodeOpen, bind_on, get_on, Res.bind, hf]

theorem keeps_inodeOpen (n : Nat) : Keeps (Same q) (inodeOpen pf n) := by
  refine keeps_same fun o w hw => ?_
  rw [inodeOpen, sat_bind, lift_on, Res.sat_lift, sat_get]
  cases hf : w.1.mem.find n with
  | some p =>
    have hopen : Keeps SameObjs (do
        let i ← getInode p
        setInode p (i.cnt (add32 i.iOpenCnts 1))
        return p) := by
      rw [← bind_assoc]
      exact .bind (keeps_edit_objs p _) fun _ => keeps_pure _
    have hsat := hw.sat (keeps_lift hopen)
    rwa [lift_on, ← inodeOpen_on_some hf, ← lift_on] at hsat
  | none =>
    dsimp only
    rw [withBuf, sat_bind]
    refine sat_sysMalloc hw fun k w₁ hfs hk h₁ => ?_
    rw [sat_bind]
    have hopen : Keeps (Same q) (do
        let pos ← lift (inodeLocate n)
        let inodeBuf ← lift (ideRead pos.secLba pos.secs)
        let p ← lift (pushInode ((Inode.ofBytes inodeBuf pos.offSize).cnt 1))
        mallocInode p .kernel
        return p) :=
      .bind (keeps_lift (Inner.keeps_inodeLocate n)) fun _ => .bind (keeps_lift (Inner.keeps_ideRead _ _)) fun _ =>
        keeps_pushInode _
    have hsat := h₁.sat hopen
    simp only [← bind_assoc, ← lift_bind] at hsat
    rw [bind_on, lift_on, ← inodeOpen_on_none (by rwa [hfs]), ← lift_on, ← bind_on] at hsat
    exact hsat.mono fun _ w₂ h₂ => h₂.give hk

theorem Plain.drop {p : Nat} (hw : Plain q o w) (hp : (w.1.mem.inodes p).isSome = true) :
    Plain q o ({ w.1 with
      mem.inodes := update w.1.mem.inodes p none
      mem.openInodes := w.1.mem.openInodes.erase p }, w.2.give (.inode p) .kernel) := by
  refine ⟨⟨hw.sound.nodup.erase p, fun r => ?_, fun r => ?_, fun k hk => ?_⟩, ?_, fun hq => ?_⟩
  · rw [hw.sound.nodup.mem_erase_iff]
    by_cases hr : r = p
    · subst hr
      simp
    · simpa [hr] using hw.sound.listed r
  · by_cases hr : r = p
    · subst hr
      simp
    · simpa [hr] using hw.sound.block r
  · rw [others_give_inode]
    exact hw.sound.fresh k hk
  · rw [others_give_inode]
    exact hw.others
  · obtain ⟨x, hx⟩ := Option.isSome_iff_exists.mp ((hw.sound.block p).trans hp)
    exact (hw.apart hq).give (by rw [hx, (hw.apart hq).kernel p x hx])

theorem keeps_inodeClose (p : Nat) : Keeps (Same q) (inodeClose p) := by
  refine keeps_same fun o w hw => ?_
  rw [inodeClose, sat_bind, lift_on, Res.sat_lift]
  refine (sat_getInode_eq p w.1).mono fun i t ht => ?_
  obtain ⟨rfl, hi⟩ := ht
  rw [sat_bind, lift_on, Res.sat_lift]
  simp only [Fs.inodeClose, getInode, bind_on, get_on, Res.bind, hi, pure_on, ite_on]
  split
  · exact hw.drop (by rw [hi]; rfl)
  · exact ⟨hw.sound.same (.update hi), hw.others, hw.apart⟩

theorem keeps_inodeRelease (n : Nat) : Keeps (Same q) (inodeRelease pf n) := by
  refine .bind (keeps_inodeOpen n) fun p => .bind (keeps_lift ?_) fun _ => ?_
  · exact .bind (Inner.keeps_getInode p) fun i => .bind (keeps_assert _) fun _ =>
      .bind (Inner.keeps_releaseSectors i) fun _ => .bind (Inner.keeps_inodeBitmapSet _ _) fun _ =>
      Inner.keeps_bitmapSync _ _
  · exact .bind (keeps_withBuf (keeps_lift (Inner.keeps_inodeDelete n))) fun _ => keeps_inodeClose p

end Inode

section Dir

def Dir.hold (pf : PoolFlags) (o : Nat → Option PoolFlags) : Dir → Nat → Option PoolFlags
  | .root => o
  | .heap k _ => update o k (some pf)

def Dir.Free (o : Nat → Option PoolFlags) : Dir → Prop
  | .root => True
  | .heap k _ => o k = none

variable {q : Prop} {o : Nat → Option PoolFlags} {w : Fs × Blocks} {pf : PoolFlags}

structure Holds (q : Prop) (pf : PoolFlags) (o : Nat → Option PoolFlags) (d : Dir) (w : Fs × Blocks) : Prop where
  free : Dir.Free o d
  plain : Plain q (Dir.hold pf o d) w

theorem sat_dirOpen (hw : Plain q o w) (n : Nat) : ((dirOpen pf n).on w).Sat True
    (fun d w' => Holds q pf o d w') := by
  rw [dirOpen, sat_bind]
  refine sat_sysMalloc hw fun k w₁ _ hk h₁ => ?_
  rw [sat_bind]
  exact (h₁.sat (keeps_inodeOpen n)).mono fun p w₂ h₂ => ⟨hk, h₂⟩

theorem sat_dirClose {d : Dir} (hw : Holds q pf o d w) : ((dirClose pf d).on w).Sat True
    (fun _ w' => Plain q o w') := by
  cases d with
  | root => exact hw.plain
  | heap k p =>
    rw [dirClose, sat_bind]
    exact (hw.plain.sat (keeps_inodeClose p)).mono fun _ w₁ h₁ => h₁.give hw.free

theorem keeps_searchDirEntry (d : Dir) (name : List UInt8) : Keeps (Same q) (searchDirEntry pf d name) :=
  keeps_withBuf (keeps_withBuf (keeps_lift (Inner.keeps_searchDirEntry _ _)))

theorem keeps_dirRemove (parent child : Dir) : Keeps (Same q) (dirRemove pf parent child) := by
  refine .bind (keeps_lift ?_) fun i => keeps_withBuf ?_
  · exact .bind (Inner.keeps_inode _) fun _ => .bind (Inner.keeps_getInode _) fun _ => .bind (keeps_assert _) fun _ =>
      keeps_pure _
  · exact .bind (keeps_lift (Inner.keeps_deleteDirEntry _ _)) fun _ => .bind (keeps_inodeRelease _) fun _ => keeps_pure _

theorem Holds.sat {α : Type} {c : Prog (Fs × Blocks) Buf α} {d : Dir} (hw : Holds q pf o d w) (hc : Keeps (Same q) c) :
    (c.on w).Sat True (fun _ w' => Holds q pf o d w') :=
  (hw.plain.sat hc).mono fun _ _ h => ⟨hw.free, h⟩

theorem Holds.swap {d d' : Dir} (hw : Holds q pf (Dir.hold pf o d) d' w) (hd : Dir.Free o d) :
    Dir.Free o d' ∧ Holds q pf (Dir.hold pf o d') d w := by
  cases d with
  | root => exact ⟨hw.free, trivial, hw.plain⟩
  | heap k p =>
    cases d' with
    | root => exact ⟨trivial, hd, hw.plain⟩
    | heap k' p' =>
      have hfree : update o k (some pf) k' = none := hw.free
      have hne : k' ≠ k := by
        rintro rfl
        rw [update_self] at hfree
        cases hfree
      rw [update_of_ne hne] at hfree
      refine ⟨hfree, ⟨(update_of_ne hne.symm _ _).trans hd, ?_⟩⟩
      have hcomm : update (update o k' (some pf)) k (some pf) =
          update (update o k (some pf)) k' (some pf) := update_comm hne _ _ _
      simpa only [Dir.hold, hcomm] using hw.plain

theorem sat_closing {α : Type} {d : Dir} (hw : Holds q pf o d w) (a : α) :
    ((dirClose pf d >>= fun _ => pure a).on w).Sat True (fun _ w' => Plain q o w') := by
  rw [sat_bind]
  exact sat_dirClose hw

theorem sat_searchLoop (turns : Nat) (r : PathSearchRecord) (name : List UInt8) (sub : Option (List UInt8))
    (parentInodeNo : Nat) (dirE : DirEntry) {w : Fs × Blocks} (hw : Holds q pf o r.parentDir w) :
    ((searchLoop pf turns r name sub parentInodeNo dirE).on w).Sat True
      (fun r' w' => Holds q pf o r'.2.parentDir w') := by
  induction turns generalizing r name sub parentInodeNo dirE w with
  | zero => trivial
  | succ turns ih =>
    rw [searchLoop]
    split
    · rw [sat_bind]
      refine (sat_dirClose hw).mono fun _ w₁ h₁ => ?_
      rw [sat_bind]
      exact (sat_dirOpen h₁ parentInodeNo).mono fun d w₂ h₂ => h₂
    · rw [sat_bind]
      have hname : Keeps SameObjs (do
          assert (r.searchedPath.length < maxPathLen)
          terminated name) := .bind (keeps_assert _) fun _ => keeps_terminated name
      refine (hw.sat (keeps_lift hname)).mono fun _ w₁ h₁ => ?_
      dsimp only
      rw [sat_bind]
      refine (h₁.sat (keeps_searchDirEntry _ _)).mono fun e w₂ h₂ => ?_
      cases e with
      | none => exact h₂
      | some e =>
        dsimp only
        rw [sat_bind]
        refine (h₂.sat (keeps_lift (keeps_nextName sub))).mono fun next w₃ h₃ => ?_
        split
        · have hno : Keeps SameObjs (do return (← getInode (← r.parentDir.ref.inode)).iNo) :=
            .bind (Inner.keeps_inode _) fun _ => .bind (Inner.keeps_getInode _) fun _ => keeps_pure _
          rw [sat_bind]
          refine (h₃.sat (keeps_lift hno)).mono fun n w₄ h₄ => ?_
          rw [sat_bind]
          refine (sat_dirClose h₄).mono fun _ w₅ h₅ => ?_
          rw [sat_bind]
          exact (sat_dirOpen h₅ _).mono fun d w₆ h₆ => ih _ _ _ _ _ h₆
        · split
          · exact h₃
          · exact ih _ _ _ _ _ h₃

theorem sat_searchFile (hw : Plain q o w) (dirE : DirEntry) (path : List UInt8) :
    ((searchFile pf dirE path).on w).Sat True (fun r w' => Holds q pf o r.2.parentDir w') := by
  have hroot : Holds q pf o .root w := ⟨trivial, hw⟩
  rw [searchFile]
  split
  · exact hroot
  · rw [sat_bind]
    refine (hroot.sat (keeps_lift ?_)).mono fun next w₁ h₁ => sat_searchLoop _ _ _ _ _ _ h₁
    exact .bind (keeps_assert _) fun _ => keeps_nextName _

end Dir

section File

variable {q : Prop} {o : Nat → Option PoolFlags} {w : Fs × Blocks} {pf : PoolFlags}

structure Pending (q : Prop) (o : Nat → Option PoolFlags) (p : Nat) (pf : PoolFlags) (w : Fs × Blocks) : Prop where
  nodup : w.1.mem.openInodes.Nodup
  listed : ∀ r, r ∈ w.1.mem.openInodes ↔ r ≠ p ∧ (w.1.mem.inodes r).isSome = true
  live : (w.1.mem.inodes p).isSome = true
  block : ∀ r, (w.2.pool (.inode r)).isSome = (w.1.mem.inodes r).isSome
  pool : w.2.pool (.inode p) = some pf
  fresh : ∀ k, w.2.next ≤ k → Tracked.others w.2 k = none
  others : Tracked.others w.2 = o
  apart : q → Apart w.2

theorem Pending.same {s t : Fs} {h : Blocks} {p : Nat} (hw : Pending q o p pf (s, h)) (ht : SameObjs s t) :
    Pending q o p pf (t, h) :=
  ⟨by rw [ht.list]; exact hw.nodup, fun r => by rw [ht.list, ht.live]; exact hw.listed r,
    by rw [ht.live]; exact hw.live, fun r => by rw [ht.live]; exact hw.block r, hw.pool, hw.fresh, hw.others, hw.apart⟩

theorem Pending.sat {α : Type} {c : Prog Fs Buf α} {p : Nat} (hw : Pending q o p pf w) (hc : Keeps SameObjs c) :
    (((lift c : Prog (Fs × Blocks) Buf α)).on w).Sat True (fun _ w' => Pending q o p pf w') := by
  rw [lift_on, Res.sat_lift]
  exact (hc w.1).mono fun _ t ht => hw.same ht

theorem sat_mallocInode (hw : Plain q o w) (hq : q → pf = .kernel) (i : Inode) {Q : Nat → Fs × Blocks → Prop}
    (hQ : ∀ p w', Pending q o p pf w' → Q p w') :
    ((do
      let p ← lift (Fs.mallocInode i)
      mallocInode p pf
      return p : Prog (Fs × Blocks) Buf Nat).on w).Sat True Q := by
  have hp : w.1.mem.fresh ∉ w.1.mem.openInodes := fun h => absurd (Mem.lt_fresh_of_mem h) (Nat.lt_irrefl _)
  refine hQ w.1.mem.fresh _ ⟨hw.sound.nodup, fun r => ?_, ?_, fun r => ?_, ?_, fun k hk => ?_, ?_, fun h => ?_⟩
  · by_cases hr : r = w.1.mem.fresh
    · subst hr
      simpa using hp
    · simpa [hr] using hw.sound.listed r
  · simp
  · by_cases hr : r = w.1.mem.fresh
    · subst hr
      simp
    · simpa [hr] using hw.sound.block r
  · simp
  · rw [others_take_inode]
    exact hw.sound.fresh k hk
  · rw [others_take_inode]
    exact hw.others
  · exact (hw.apart h).take_inode (hq h)

theorem Pending.push {p : Nat} (hw : Pending q o p pf w) :
    Plain q o ({ w.1 with mem.openInodes := p :: w.1.mem.openInodes }, w.2) := by
  have hp : p ∉ w.1.mem.openInodes := fun h => ((hw.listed p).mp h).1 rfl
  refine ⟨⟨List.nodup_cons.mpr ⟨hp, hw.nodup⟩, fun r => ?_, hw.block, hw.fresh⟩, hw.others, hw.apart⟩
  by_cases hr : r = p
  · subst hr
    simpa using hw.live
  · simpa [hr] using hw.listed r

theorem Pending.free {p : Nat} (hw : Pending q o p pf w) : Plain q o
    ({ w.1 with mem.inodes := update w.1.mem.inodes p none }, w.2.give (.inode p) pf) := by
  refine ⟨⟨hw.nodup, fun r => ?_, fun r => ?_, fun k hk => ?_⟩, ?_, fun h => ?_⟩
  · by_cases hr : r = p
    · subst hr
      simpa using hw.listed r
    · simpa [hr] using hw.listed r
  · by_cases hr : r = p
    · subst hr
      simp
    · simpa [hr] using hw.block r
  · rw [others_give_inode]
    exact hw.fresh k hk
  · rw [others_give_inode]
    exact hw.others
  · exact (hw.apart h).give hw.pool

theorem keeps_fileInstall (hq : q → pf = .kernel) (cur : Nat) (d : Dir) (name : List UInt8) (flag n fdIdx : Nat) :
    Keeps (Same q) (fileInstall pf cur d name flag n fdIdx) := by
  refine keeps_same fun o w hw => ?_
  have hnew := sat_mallocInode hw hq (inodeInit n) fun p w' h => h
  rw [fileInstall, sat_bind]
  simp only [sat_bind, sat_pure] at hnew
  refine hnew.mono fun p w₁ h₁ => ?_
  rw [sat_bind]
  refine h₁.mono fun _ w₂ h₂ => ?_
  have hentry : Keeps SameObjs (do
      setFile fdIdx ⟨0, flag, some p⟩
      let newDirEntry ← createDirEntry name n ftRegular
      syncDirEntry d.ref newDirEntry) :=
    .bind (keeps_setFile_objs _ _) fun _ => .bind (Inner.keeps_createDirEntry _ _ _) fun _ =>
      Inner.keeps_syncDirEntry _ _
  rw [sat_bind]
  refine (h₂.sat hentry).mono fun b w₃ h₃ => ?_
  split
  · simp only [lift_bind]
    rw [sat_bind]
    refine (h₃.sat (Inner.keeps_inode _)).mono fun r w₄ h₄ => ?_
    rw [sat_bind]
    refine (h₄.sat (Inner.keeps_getInode r)).mono fun i w₅ h₅ => ?_
    rw [sat_bind]
    refine (h₅.sat (Inner.keeps_inodeSync i)).mono fun _ w₆ h₆ => ?_
    rw [sat_bind]
    refine (h₆.sat (Inner.keeps_getInode p)).mono fun j w₇ h₇ => ?_
    rw [sat_bind]
    refine (h₇.sat (Inner.keeps_inodeSync j)).mono fun _ w₈ h₈ => ?_
    rw [sat_bind]
    refine (h₈.sat (Inner.keeps_bitmapSync _ _)).mono fun _ w₉ h₉ => ?_
    have hlast : Keeps SameObjs ((do
        let i ← getInode p
        setInode p (i.cnt 1)) >>= fun _ => pcbFdInstall cur fdIdx) :=
      .bind (keeps_edit_objs p _) fun _ => keeps_pcbFdInstall_objs _ _
    have hsat := h₉.push.sat (keeps_lift hlast)
    simp only [lift_bind, bind_assoc] at hsat
    exact hsat
  · simp only [lift_bind, bind_assoc]
    rw [sat_bind]
    refine (h₃.sat (keeps_setFile_objs _ _)).mono fun _ w₄ h₄ => ?_
    exact h₄.free.sat (.bind (keeps_lift (Inner.keeps_inodeBitmapSet _ _)) fun _ => keeps_pure _)

theorem yields_inodeBitmapAlloc : Yields (fun r => r.isSome = true) inodeBitmapAlloc := by
  refine yields_last fun s => Yields.bind (fun s => Bitmap.sat_bitmapScan_some _ 1 s) fun r hr => ?_
  cases r with
  | none => cases hr rfl
  | some i => exact yields_last fun _ => yields_pure rfl

theorem yields_blockBitmapAlloc : Yields (fun r => r.isSome = true) blockBitmapAlloc := by
  refine yields_last fun s => Yields.bind (fun s => Bitmap.sat_bitmapScan_some _ 1 s) fun r hr => ?_
  cases r with
  | none => cases hr rfl
  | some i => exact yields_last fun _ => yields_last fun _ => yields_pure rfl

theorem keeps_fileCreate (hq : q → pf = .kernel) (cur : Nat) (d : Dir) (name : List UInt8) (flag : Nat) :
    Keeps (Same q) (fileCreate pf cur d name flag) := by
  refine keeps_same fun o w hw => ?_
  rw [fileCreate, sat_bind]
  refine sat_sysMalloc hw fun k w₁ _ hk h₁ => ?_
  rw [sat_bind]
  have hsome := yields_inodeBitmapAlloc.lift.and_sat (h₁.sat (keeps_lift Inner.keeps_inodeBitmapAlloc))
  refine hsome.mono fun r w₂ h₂ => ?_
  cases r with
  | none => cases h₂.1
  | some n =>
    dsimp only
    rw [sat_bind]
    refine (h₂.2.sat (keeps_lift Inner.keeps_getFreeSlotInGlobal)).mono fun r w₃ h₃ => ?_
    cases r with
    | none =>
      dsimp only
      rw [sat_bind]
      exact (h₃.sat (keeps_withBuf (keeps_lift (Inner.keeps_inodeBitmapSet _ _)))).mono fun _ w₄ h₄ => h₄.give hk
    | some g =>
      dsimp only
      rw [sat_bind]
      exact (h₃.sat (keeps_fileInstall hq _ _ _ _ _ _)).mono fun _ w₄ h₄ => h₄.give hk

theorem keeps_fileOpen (cur n flag : Nat) : Keeps (Same q) (fileOpen pf cur n flag) := by
  refine .bind (keeps_lift Inner.keeps_getFreeSlotInGlobal) fun r => ?_
  cases r with
  | none => exact keeps_pure _
  | some g =>
    refine .bind (keeps_inodeOpen n) fun p => keeps_lift (.bind (keeps_setFile_objs _ _) fun _ => .ite ?_ ?_)
    · refine Inner.keeps_read fun i s hi => ?_
      split
      · exact ⟨rfl, fun _ => rfl⟩
      · exact Inner.sat_setInode (.update hi) (keeps_pcbFdInstall_objs _ _)
    · exact keeps_pcbFdInstall_objs _ _

theorem keeps_fileClose (g : Nat) : Keeps (Same q) (fileClose g) := by
  refine .bind (keeps_lift ?_) fun p => .bind (keeps_inodeClose p) fun _ => keeps_lift ?_
  · exact .bind (Inner.keeps_fileInode g) fun p => Inner.keeps_read fun i s hi =>
      Inner.sat_setInode (.update hi) (keeps_pure _)
  · exact .bind keeps_get fun _ => .bind (keeps_setFile_objs _ _) fun _ => keeps_pure _

theorem yields_firstBlock (p : Nat) : Yields (fun r => r = true) (firstBlock p) := by
  refine yields_last fun i => .ite (yields_blockBitmapAlloc.bind fun r hr => ?_) (yields_pure rfl)
  cases r with
  | none => cases hr
  | some lba => exact yields_last fun _ => yields_last fun _ => yields_last fun _ => yields_last fun _ => yields_pure rfl

theorem yields_allocBlocks (p n idx : Nat) (all : Nat → Nat) :
    Yields (fun r => r.isSome = true) (allocBlocks p n idx all) := by
  induction n generalizing idx all with
  | zero => exact yields_pure rfl
  | succ n ih =>
    refine yields_blockBitmapAlloc.bind fun r hr => ?_
    cases r with
    | none => cases hr
    | some lba =>
      refine .ite ?_ ?_
      · exact yields_last fun _ => yields_last fun _ => yields_last fun _ => yields_last fun _ =>
          yields_last fun _ => ih _ _
      · exact yields_last fun _ => yields_last fun _ => ih _ _

theorem yields_collectBlocks (p count : Nat) : Yields (fun r => r.isSome = true) (collectBlocks p count) := by
  refine yields_last fun i => yields_last fun _ => .ite ?_ (.ite ?_ (.ite ?_ ?_))
  · exact .ite (yields_pure rfl) (yields_last fun _ => yields_last fun _ => yields_pure rfl)
  · exact yields_last fun _ => yields_allocBlocks _ _ _ _
  · refine yields_blockBitmapAlloc.bind fun r hr => ?_
    cases r with
    | none => cases hr
    | some lba =>
      refine yields_last fun _ => yields_last fun _ => yields_last fun _ => ?_
      refine (yields_allocBlocks _ _ _ _).bind fun r hr => ?_
      cases r with
      | none => cases hr
      | some all => exact yields_last fun _ => yields_pure rfl
  · refine yields_last fun _ => yields_last fun _ => (yields_allocBlocks _ _ _ _).bind fun r hr => ?_
    cases r with
    | none => cases hr
    | some all => exact yields_last fun _ => yields_pure rfl

theorem keeps_fileWrite (g : Nat) (buf : Buf) (count : Nat) : Keeps (Same q) (fileWrite pf g buf count) := by
  refine .bind (keeps_lift (Inner.keeps_fileInode g)) fun p => .bind (keeps_lift (Inner.keeps_getInode p)) fun i => ?_
  refine .ite (keeps_pure _) (keeps_same fun o w hw => ?_)
  rw [sat_bind]
  refine sat_sysMalloc hw fun k w₁ _ hk h₁ => ?_
  rw [sat_bind]
  refine sat_sysMalloc h₁ fun k' w₂ _ hk' h₂ => ?_
  rw [sat_bind]
  have hfirst := (yields_firstBlock p).lift.and_sat (h₂.sat (keeps_lift (Inner.keeps_firstBlock p)))
  refine hfirst.mono fun b w₃ h₃ => ?_
  obtain ⟨rfl, h₃⟩ := h₃
  rw [if_neg (by decide), sat_bind]
  have hblocks := (yields_collectBlocks p count).lift.and_sat (h₃.sat (keeps_lift (Inner.keeps_collectBlocks p count)))
  refine hblocks.mono fun r w₄ h₄ => ?_
  cases r with
  | none => cases h₄.1
  | some all =>
    have hdata : Keeps SameObjs (do
        let i ← getInode p
        let f := (← get).mem.fileTable g
        setFile g { f with fdPos := sub32 i.iSize 1 }
        writeChunks g p all buf count (count + 1) 0 true
        inodeSync (← getInode p)) :=
      .bind (Inner.keeps_getInode p) fun i => .bind keeps_get fun _ => .bind (keeps_setFile_objs _ _) fun _ =>
        .bind (Inner.keeps_writeChunks _ _ _ _ _ _ _ _) fun _ => .bind (Inner.keeps_getInode p) fun _ =>
        Inner.keeps_inodeSync _
    dsimp only
    rw [sat_bind]
    exact (h₄.2.sat (keeps_lift hdata)).mono fun _ w₅ h₅ => (h₅.give hk').give hk

theorem keeps_fileRead (g count : Nat) : Keeps (Same q) (fileRead pf g count) := by
  refine .bind (keeps_lift ?_) fun i => .bind (keeps_lift keeps_get) fun s => .ite (keeps_pure _) ?_
  · exact .bind (Inner.keeps_fileInode g) fun p => Inner.keeps_getInode p
  · refine keeps_withBuf (keeps_withBuf (keeps_lift (.bind (keeps_assert _) fun _ => ?_)))
    exact .bind (Inner.keeps_fileInode g) fun _ => .bind (Inner.keeps_readBlocks _ _ _) fun _ =>
      .bind (Inner.keeps_readChunks _ _ _ _ _) fun _ => keeps_pure _

end File

section Calls

variable {q : Prop} {o : Nat → Option PoolFlags} {w : Fs × Blocks} {pf : PoolFlags}

theorem keeps_search {α : Type} {stack : Stack} {path : List UInt8}
    {k : Int × PathSearchRecord → Prog (Fs × Blocks) Buf α}
    (hk : ∀ r o w, Holds q pf o r.2.parentDir w →
      ((k r).on w).Sat True (fun _ w' => Plain q o w')) :
    Keeps (Same q) (searchFile pf stack.dirE path >>= k) := by
  refine keeps_same fun o w hw => ?_
  rw [sat_bind]
  exact (sat_searchFile hw _ _).mono fun r w' h => hk r o w' h

theorem sat_work {α γ : Type} {d : Dir} {c : Prog (Fs × Blocks) Buf α} {a : α → γ} (hw : Holds q pf o d w)
    (hc : Keeps (Same q) c) : ((c >>= fun x => dirClose pf d >>= fun _ => pure (a x)).on w).Sat
      True (fun _ w' => Plain q o w') := by
  rw [sat_bind]
  exact (hw.sat hc).mono fun x w' h => sat_closing h _

theorem keeps_sysClose (cur : Nat) (fd : Int) : Keeps (Same q) (sysClose cur fd) := by
  refine .ite ?_ (keeps_pure _)
  refine .bind (keeps_lift (Inner.keeps_fdLocal2Global _ _)) fun g => .bind (keeps_lift (Inner.keeps_isPipe _ _)) fun b => ?_
  refine .ite (keeps_lift ?_) ?_
  · refine .bind (.bind keeps_get fun s => .ite ?_ (keeps_setFile_objs _ _)) fun _ =>
      .bind (keeps_setFd_objs _ _ _) fun _ => keeps_pure _
    exact .bind (Inner.keeps_fileInode g) fun _ => .bind (keeps_modify fun _ => ⟨rfl, fun _ => rfl⟩) fun _ =>
      keeps_setFile_objs _ _
  · exact .bind (keeps_fileClose g) fun _ => .bind (keeps_lift (keeps_setFd_objs _ _ _)) fun _ => keeps_pure _

theorem keeps_sysUnlink (stack : Stack) (path : List UInt8) : Keeps (Same q) (sysUnlink pf stack path) := by
  refine .bind (keeps_lift (keeps_assert _)) fun _ => keeps_search fun r o w hw => ?_
  rw [sat_bind]
  refine (hw.sat (keeps_lift (keeps_assert _))).mono fun _ w₁ h₁ => ?_
  split
  · exact sat_closing h₁ _
  · split
    · exact sat_closing h₁ _
    · rw [sat_bind]
      refine (h₁.sat (keeps_lift keeps_get)).mono fun s w₂ h₂ => ?_
      split
      · exact sat_closing h₂ _
      · refine sat_work (a := fun _ => 0) h₂ (keeps_withBuf ?_)
        exact .bind (keeps_lift (Inner.keeps_deleteDirEntry _ _)) fun _ => keeps_inodeRelease _

theorem keeps_enterDir (d : DirRef) (name : List UInt8) : Keeps SameObjs (enterDir d name) := by
  refine .bind Inner.keeps_inodeBitmapAlloc fun r => ?_
  cases r with
  | none => exact keeps_pure _
  | some n =>
    refine .bind Inner.keeps_blockBitmapAlloc fun r => ?_
    cases r with
    | none => exact .bind (Inner.keeps_inodeBitmapSet _ _) fun _ => keeps_pure _
    | some lba =>
      refine .bind keeps_get fun s => .bind (keeps_assert _) fun _ => .bind (Inner.keeps_bitmapSync _ _) fun _ => ?_
      refine .bind (Inner.keeps_inode d) fun _ => .bind (Inner.keeps_getInode _) fun _ => ?_
      refine .bind (Inner.keeps_ideWrite _ _ _) fun _ => .bind (Inner.keeps_createDirEntry _ _ _) fun _ => ?_
      refine .bind (Inner.keeps_syncDirEntry _ _) fun b => .ite ?_ ?_
      · exact .bind (Inner.keeps_inode d) fun _ => .bind (Inner.keeps_getInode _) fun _ =>
          .bind (Inner.keeps_inodeSync _) fun _ => .bind (Inner.keeps_inodeSync _) fun _ =>
          .bind (Inner.keeps_bitmapSync _ _) fun _ => keeps_pure _
      · exact .bind (Inner.keeps_inodeBitmapSet _ _) fun _ => keeps_pure _

theorem keeps_sysMkdir (stack : Stack) (path : List UInt8) : Keeps (Same q) (sysMkdir pf stack path) := by
  refine keeps_withBuf (keeps_search fun r o w hw => ?_)
  dsimp only
  split
  · exact sat_closing hw _
  · rw [sat_bind]
    refine (hw.sat (keeps_lift (keeps_pathDepthCnt _ _))).mono fun _ w₁ h₁ => ?_
    rw [sat_bind]
    refine (h₁.sat (keeps_lift (keeps_pathDepthCnt _ _))).mono fun _ w₂ h₂ => ?_
    split
    · exact sat_closing h₂ _
    · split
      · trivial
      · exact sat_work (a := fun x => x) h₂ (keeps_lift (keeps_enterDir _ _))

theorem keeps_sysRmdir (stack : Stack) (path : List UInt8) : Keeps (Same q) (sysRmdir pf stack path) := by
  refine keeps_search fun r o w hw => ?_
  rw [sat_bind]
  refine (hw.sat (keeps_lift (keeps_assert _))).mono fun _ w₁ h₁ => ?_
  split
  · exact sat_closing h₁ _
  · split
    · exact sat_closing h₁ _
    · rw [sat_bind]
      refine (sat_dirOpen h₁.plain _).mono fun d w₂ h₂ => ?_
      rw [sat_bind]
      refine (h₂.sat (keeps_lift (Inner.keeps_dirIsEmpty _))).mono fun b w₃ h₃ => ?_
      have hclose : ∀ (ret : Int) w', Holds q pf (Dir.hold pf o r.2.parentDir) d w' →
          ((dirClose pf d >>= fun _ => dirClose pf r.2.parentDir >>= fun _ => pure ret).on w').Sat
            True (fun _ w' => Plain q o w') := by
        intro ret w' h
        rw [sat_bind]
        exact (sat_dirClose h).mono fun _ w₅ h₅ => sat_closing ⟨h₁.free, h₅⟩ ret
      split
      · rw [sat_bind]
        exact (h₃.sat (keeps_dirRemove _ _)).mono fun ret w₄ h₄ => hclose ret w₄ h₄
      · exact hclose (-1) w₃ h₃

theorem keeps_sysChdir (stack : Stack) (cur : Nat) (path : List UInt8) : Keeps (Same q) (sysChdir pf stack cur path) := by
  refine keeps_search fun r o w hw => ?_
  dsimp only
  split
  · exact sat_work (a := fun _ => 0) hw (keeps_lift (keeps_modify fun _ => ⟨rfl, fun _ => rfl⟩))
  · exact sat_closing hw _

theorem keeps_sysStat (stack : Stack) (path : List UInt8) : Keeps (Same q) (sysStat pf stack path) := by
  refine .ite (keeps_lift ?_) (keeps_search fun r o w hw => ?_)
  · exact .bind keeps_get fun _ => .bind (Inner.keeps_getInode _) fun _ => keeps_pure _
  · dsimp only
    split
    · rw [sat_bind]
      refine (hw.sat (keeps_inodeOpen _)).mono fun p w₁ h₁ => ?_
      rw [sat_bind]
      refine (h₁.sat (keeps_lift (Inner.keeps_getInode p))).mono fun i w₂ h₂ => ?_
      exact sat_work (a := fun _ => _) h₂ (keeps_inodeClose p)
    · exact sat_closing hw _

theorem and_oCreat (flags : Nat) : flags &&& oCreat = 0 ∨ flags &&& oCreat = oCreat := by
  have h : flags &&& oCreat = (flags.testBit 2).toNat * 2 ^ 2 := Nat.and_two_pow flags 2
  cases hb : flags.testBit 2 with
  | false => exact .inl (by rw [h, hb]; rfl)
  | true => exact .inr (by rw [h, hb]; rfl)

def Lost (stack : Stack) (path : List UInt8) (flags : Nat) (s : Fs) : Prop :=
  path.getLast? ≠ some slash ∧ flags &&& oCreat = 0 ∧ ∃ n r t,
    ((pathDepthCnt stack.name₁ path).on s).run = .ok (n, s) ∧
    ((Fs.searchFile stack.dirE path).on s).run = .ok (r, t) ∧
    ((pathDepthCnt stack.name₂ r.2.searchedPath).on t).run = .ok (n, t) ∧
    r.1 ≠ -1 ∧ r.2.fileType ≠ ftDirectory ∧ r.2.parentDir ≠ .root

theorem sat_reading {α : Type} {c : Prog Fs Buf α} (hc : Keeps Eq c) (w : Fs × Blocks) :
    ((lift c : Prog (Fs × Blocks) Buf α).on w).Sat True
      (fun a w' => w' = w ∧ (c.on w.1).run = .ok (a, w.1)) := by
  rw [lift_on, Res.sat_lift]
  refine ((hc w.1).and (Res.sat_of_run fun a t h => h)).mono fun a t h => ?_
  obtain ⟨rfl, hrun⟩ := h
  exact ⟨rfl, hrun⟩

theorem sat_sysOpen (hw : Plain q o w) (stack : Stack) (cur : Nat) (path : List UInt8) {flags : Nat}
    (hq : q → pf = .kernel ∨ flags &&& oCreat = 0) :
    ((sysOpen pf stack cur path flags).on w).Sat True (fun _ w' =>
      (¬Lost stack path flags w.1 ∧ Plain q o w') ∨
        (Lost stack path flags w.1 ∧ ∃ d, d ≠ .root ∧ Holds q pf o d w')) := by
  rw [sysOpen]
  split
  · trivial
  next c hlast =>
  split
  next hc => exact .inl ⟨fun h => h.1 (by rw [hlast, hc]), hw⟩
  next hc =>
  simp only [lift_bind, bind_assoc]
  rw [sat_bind]
  refine (sat_reading (keeps_assert _) w).mono fun _ w₁ h₁ => ?_
  obtain ⟨rfl, -⟩ := h₁
  rw [sat_bind]
  refine (sat_reading (keeps_pathDepthCnt _ _) w₁).mono fun depth w₂ h₂ => ?_
  obtain ⟨rfl, hdepth⟩ := h₂
  rw [sat_bind]
  refine ((sat_searchFile hw _ _).and (Res.sat_of_run fun r w₃ h => h)).mono fun r w₃ h₃ => ?_
  obtain ⟨h₃, hr⟩ := h₃
  have hr' := (erases_searchFile stack.dirE path).run hr
  -- the branches before the last one all close the directory
  have hclose : ∀ {w' : Fs × Blocks} (a : Int), ¬Lost stack path flags w₂.1 → Holds q pf o r.2.parentDir w' →
      ((dirClose pf r.2.parentDir >>= fun _ => pure a).on w').Sat True (fun _ w' =>
        (¬Lost stack path flags w₂.1 ∧ Plain q o w') ∨
          (Lost stack path flags w₂.1 ∧ ∃ d, d ≠ .root ∧ Holds q pf o d w')) :=
    fun a hl h => (sat_closing h a).mono fun _ _ h => .inl ⟨hl, h⟩
  have hlost : Lost stack path flags w₂.1 → flags &&& oCreat = 0 ∧ r.1 ≠ -1 ∧ r.2.fileType ≠ ftDirectory ∧
      r.2.parentDir.ref ≠ .root ∧
      ((pathDepthCnt stack.name₂ r.2.searchedPath).on w₃.1).run = .ok (depth, w₃.1) := by
    rintro ⟨-, hflags, n, r₀, t, hn, hrun, hn', hne, hfile, hdir⟩
    rw [hr'] at hrun
    rw [hdepth] at hn
    cases hrun
    cases hn
    exact ⟨hflags, hne, hfile, hdir, hn'⟩
  split
  next hfile => exact hclose _ (fun h => (hlost h).2.2.1 hfile) h₃
  next hfile =>
  rw [sat_bind]
  refine (sat_reading (keeps_pathDepthCnt _ _) w₃).mono fun depth' w₄ h₄ => ?_
  obtain ⟨rfl, hdepth'⟩ := h₄
  split
  next hne =>
    refine hclose _ (fun h => hne ?_) h₃
    have hsame := (hlost h).2.2.2.2
    rw [hdepth'] at hsame
    cases hsame
    rfl
  next heq =>
  split
  next hmiss => exact hclose _ (fun h => hmiss.1 (hlost h).2.1) h₃
  next hmiss =>
  split
  next hdup => exact hclose _ (fun h => hdup.2 (hlost h).1) h₃
  next hdup =>
  split
  next hcreat =>
    have hzero : flags &&& oCreat ≠ 0 := by rw [hcreat]; decide
    have hkernel : q → pf = .kernel := fun h => (hq h).resolve_right hzero
    refine (sat_work (a := fun x => x) h₃ (keeps_fileCreate hkernel _ _ _ _)).mono fun _ _ h => ?_
    exact .inl ⟨fun hl => hzero (hlost hl).1, h⟩
  next hcreat =>
    have hplain := (and_oCreat flags).resolve_right hcreat
    have hfound : r.1 ≠ -1 := fun h => hmiss ⟨fun hf => hf h, hplain⟩
    refine (h₃.sat (keeps_fileOpen _ _ _)).mono fun _ w₅ h₅ => ?_
    by_cases hdir : r.2.parentDir = .root
    · rw [hdir] at h₅
      exact .inl ⟨fun hl => (hlost hl).2.2.2.1 (by rw [hdir]; rfl), h₅.plain⟩
    · have href : r.2.parentDir.ref ≠ .root := fun h => hdir (by
        cases hd : r.2.parentDir with
        | root => rfl
        | heap k p => rw [hd] at h; cases h)
      refine .inr ⟨⟨fun h => hc ?_, hplain, depth, eraseFound r, w₄.1, hdepth, hr', ?_, hfound, hfile, href⟩,
        r.2.parentDir, hdir, h₅⟩
      · rw [hlast] at h
        exact Option.some.inj h
      · have hd : depth = depth' := not_not.mp heq
        rw [hd]
        exact hdepth'

theorem sat_sysOpendir (hw : Plain q o w) (stack : Stack) (path : List UInt8) :
    ((sysOpendir pf stack path).on w).Sat True
      (fun d w' => Holds q pf o (d.getD .root) w') := by
  have hroot : Holds q pf o .root w := ⟨trivial, hw⟩
  rw [sysOpendir, sat_bind]
  refine (hroot.sat (keeps_lift (keeps_assert _))).mono fun _ w₁ h₁ => ?_
  split
  · exact h₁
  · rw [sat_bind]
    refine (sat_searchFile h₁.plain _ _).mono fun r w₂ h₂ => ?_
    dsimp only
    split
    · rw [sat_bind]
      refine (sat_dirOpen h₂.plain _).mono fun d w₃ h₃ => ?_
      obtain ⟨hfree, hswap⟩ := h₃.swap h₂.free
      rw [sat_bind]
      exact (sat_dirClose hswap).mono fun _ w₄ h₄ => ⟨hfree, h₄⟩
    · rw [sat_bind]
      exact (sat_dirClose h₂).mono fun _ w₃ h₃ => (⟨trivial, h₃⟩ : Holds q pf o .root w₃)

theorem keeps_getParentDirInodeNr (n : Nat) : Keeps (Same q) (getParentDirInodeNr pf n) := by
  refine .bind (keeps_inodeOpen n) fun p => .bind (keeps_lift ?_) fun lba => .bind (keeps_inodeClose p) fun _ => keeps_lift ?_
  · exact .bind (Inner.keeps_getInode p) fun _ => .bind keeps_get fun _ => .bind (keeps_assert _) fun _ => keeps_pure _
  · exact .bind (Inner.keeps_ideRead _ _) fun _ => .bind (keeps_assert _) fun _ => keeps_pure _

theorem keeps_getChildDirName (parent child : Nat) (path : List UInt8) :
    Keeps (Same q) (getChildDirName pf parent child path) :=
  .bind (keeps_inodeOpen _) fun p => .bind (keeps_lift (Inner.keeps_getInode p)) fun _ =>
    .bind (keeps_lift (Inner.keeps_dirBlocks _)) fun _ => .bind (keeps_inodeClose p) fun _ =>
    keeps_lift (Inner.keeps_childBlocks _ _ _ _)

theorem keeps_ascend (turns n : Nat) (path : List UInt8) : Keeps (Same q) (ascend pf turns n path) := by
  induction turns generalizing n path with
  | zero => exact keeps_halt _
  | succ turns ih =>
    refine .ite (keeps_pure _) (.bind (keeps_getParentDirInodeNr n) fun parent => ?_)
    refine .bind (keeps_getChildDirName _ _ _) fun r => ?_
    cases r with
    | none => exact keeps_pure _
    | some path => exact ih _ _

theorem keeps_cwdPath (size n : Nat) : Keeps (Same q) (cwdPath pf size n) := by
  refine .bind (keeps_ascend _ _ _) fun r => ?_
  cases r with
  | none => exact keeps_pure _
  | some path =>
    exact keeps_lift (.bind (keeps_assert _) fun _ => .bind (.ite (keeps_pure _) (keeps_halt _)) fun _ => keeps_pure _)

theorem sat_sysGetcwd (hw : Plain q o w) {cur : Nat} (hcwd : w.1.mem.cwdInodeNr cur ≠ 0) (size : Nat) :
    ((sysGetcwd pf cur size).on w).Sat True (fun _ w' => Plain q o w') := by
  rw [sysGetcwd, sat_bind]
  refine sat_sysMalloc hw fun k w₁ hfs hk h₁ => ?_
  rw [sat_bind, lift_on, Res.sat_lift, sat_get]
  dsimp only
  rw [sat_bind]
  refine (h₁.sat (keeps_lift (keeps_assert _))).mono fun _ w₂ h₂ => ?_
  rw [if_neg (by rwa [hfs]), bind_on, Res.sat_bind]
  exact (h₂.sat (keeps_cwdPath _ _)).mono fun _ w₃ h₃ => h₃.give hk

end Calls

end Tracked

end TrueOs.Fs
