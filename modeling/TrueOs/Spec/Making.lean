import TrueOs.Spec.Cwd
import TrueOs.Spec.Entries

/-! `sys_mkdir` and `sys_open` on a consistent file system. -/

namespace TrueOs.Fs

open Function (update_self update_of_ne update_comm)
open Prog

structure Sane (g : Geom) (w : View) (m : Mem) (γ : Ghost) : Prop where
  own : Own w
  tree : Tree g w γ
  cached : Cached w m
  base : w.sec 0 0 = g.base

section Sane

variable {g : Geom} {w W : View} {m : Mem} {γ : Ghost} {s : Fs} {E : Prop} {cur : Option Nat} {d n size : Nat}
  {sec : Nat → Nat} {i i' : Inode} {b : Bool}

theorem Sane.dirs (h : Sane g w m γ) (hc : Counted m) : Dirs g w m γ := h.tree.dirs h.cached hc

theorem Sane.used_base (h : Sane g w m γ) : w.used g.base = true := by
  have hhold : w.hold (w.sec 0) 0 = g.base := by rw [hold_of_lt (by omega), View.addr, if_pos (by omega), h.base]
  rw [← hhold]
  apply h.own.used 0 0 h.tree.root.1
  rw [hhold]
  have := g.base_pos
  omega

theorem Grown.cached (h : Grown g w γ d n size sec i' b W) (hC : Cached w m) :
    Cached W (m.upd d size sec) := by
  have hne : d ≠ n := by
    rintro rfl
    exact absurd (h.dir.1.symm.trans h.free) (by decide)
  have hold : ∀ p i, m.inodes p = some i → i.iNo ≠ n := by
    rintro p i hi rfl
    exact absurd ((hC.alloc p i hi).symm.trans h.free) (by decide)
  apply hC.upd
  · intro p i hi
    rw [h.ibit, update_of_ne (hold p i hi)]
    exact hC.alloc p i hi
  · rw [h.ino, update_of_ne hne, update_self]
    exact ⟨rfl, rfl⟩
  · intro p i hi hd
    rw [h.ino, update_of_ne (hold p i hi), update_of_ne hd]

theorem Grown.isDir {x : Nat} (h : Grown g w γ d n size sec i' b W) (hx : IsDir w γ x) :
    IsDir W (γ.add n d b) x := by
  have hne : x ≠ n := by
    rintro rfl
    exact absurd (hx.1.symm.trans h.free) (by decide)
  refine ⟨?_, ?_⟩
  · rw [h.ibit, update_of_ne hne]
    exact hx.1
  · exact (update_of_ne hne _ _).trans hx.2

theorem Shrunk.cached (h : Shrunk g w γ d n size sec W) (hC : Cached w m)
    (hno : ∀ p i, m.inodes p = some i → i.iNo ≠ n) : Cached W (m.upd d size sec) := by
  apply hC.upd
  · intro p i hi
    rw [h.ibit, update_of_ne (hno p i hi)]
    exact hC.alloc p i hi
  · rw [h.ino, update_of_ne h.ne, update_self]
    exact ⟨rfl, rfl⟩
  · intro p i hi hd
    rw [h.ino, update_of_ne (hno p i hi), update_of_ne hd]

theorem Shrunk.isDir {x : Nat} (h : Shrunk g w γ d n size sec W) (hx : IsDir w γ x) (hne : x ≠ n) :
    IsDir W γ x := by
  refine ⟨?_, hx.2⟩
  rw [h.ibit, update_of_ne hne]
  exact hx.1

theorem Dirs.stands (h : Dirs g w m γ) (hd : IsDir w γ (cur.getD 0)) :
    ∃ i, (m.at w cur).inodes ((m.ref cur).ptr (m.at w cur)) = some i ∧ Stands w (cur.getD 0) i := by
  obtain ⟨i, hi, h₁, h₂, h₃⟩ := h.cursor hd
  exact ⟨i, hi, h₁, h₂, h₃⟩

theorem sat_dirClose_upd (h : At g W ((m.at w cur).set ((m.ref cur).ptr (m.at w cur)) (i.body size sec)) s)
    (hC : Cached w m) (hc : Calm m) (hi : (m.at w cur).inodes ((m.ref cur).ptr (m.at w cur)) = some i)
    (hno : i.iNo = cur.getD 0) {R : Unit → Fs → Prop}
    (hR : ∀ t, At g W (m.upd (cur.getD 0) size sec) t → R () t) : ((dirClose (m.ref cur)).on s).Sat E R := by
  cases cur with
  | none =>
    have hupd : (m.at w none).set ((m.ref none).ptr (m.at w none)) (i.body size sec) = m.upd i.iNo size sec :=
      hC.set_eq_upd hi
    rw [hupd, hno] at h
    exact hR s h
  | some d =>
    have hupd : ((m.at w (some d)).set ((m.ref (some d)).ptr (m.at w (some d))) (i.body size sec)).closed
        (m.ptr d) = m.upd d size sec := hC.closed_upd hc hi
    apply sat_inodeClose h (Mem.set_inodes_self _ _ _)
    intro t ht
    exact hR t (hupd ▸ ht)

end Sane

section Ends

variable {g : Geom} {w : View} {m : Mem} {γ : Ghost} {par : Nat} {cur cur' : Option Nat}
  {cs left : List (List UInt8)}

section

variable (hI : Dirs g w m γ)
include hI

theorem Dirs.walk_miss (hd : IsDir w γ (cur.getD 0)) (hw : w.walk par cur cs = .miss cur' left) :
    ∃ init c, cs = init ++ c :: left ∧ IsDir w γ (cur'.getD 0) ∧ w.lookup (w.sec (cur'.getD 0)) c = none := by
  induction cs generalizing par cur with
  | nil => cases hw
  | cons c cs ih =>
    rcases walk_cons w par cur c cs with ⟨hl, hw'⟩ | ⟨e, hl, ⟨ht, hw'⟩ | ⟨-, hw'⟩⟩
    · rw [hw', Hit.miss.injEq] at hw
      obtain ⟨rfl, rfl⟩ := hw
      exact ⟨[], c, rfl, hd, hl⟩
    · rw [hw'] at hw
      have hd' : IsDir w γ ((some e.ino).getD 0) := hI.lookup_dir hd hl ht
      obtain ⟨init, c', rfl, h⟩ := ih hd' hw
      exact ⟨c :: init, c', rfl, h⟩
    · rw [hw'] at hw
      cases hw

theorem Dirs.walk_file {no : Nat} (hd : IsDir w γ (cur.getD 0))
    (hw : w.walk par cur cs = .file cur' no left) :
    ∃ init c e, cs = init ++ c :: left ∧ IsDir w γ (cur'.getD 0) ∧
      w.lookup (w.sec (cur'.getD 0)) c = some e ∧ e.ty ≠ ftDirectory ∧ e.ino = no := by
  induction cs generalizing par cur with
  | nil => cases hw
  | cons c cs ih =>
    rcases walk_cons w par cur c cs with ⟨-, hw'⟩ | ⟨e, hl, ⟨ht, hw'⟩ | ⟨ht, hw'⟩⟩
    · rw [hw'] at hw
      cases hw
    · rw [hw'] at hw
      have hd' : IsDir w γ ((some e.ino).getD 0) := hI.lookup_dir hd hl ht
      obtain ⟨init, c', e', rfl, h⟩ := ih hd' hw
      exact ⟨c :: init, c', e', rfl, h⟩
    · rw [hw', Hit.file.injEq] at hw
      obtain ⟨rfl, rfl, rfl⟩ := hw
      exact ⟨[], c, e, rfl, hd, hl, ht, rfl⟩

theorem Dirs.walk_dir {par' no : Nat} (hd : IsDir w γ (cur.getD 0)) (hne : cs ≠ [])
    (hw : w.walk par cur cs = .dir par' no) :
    ∃ init c e, cs = init ++ [c] ∧ IsDir w γ par' ∧ w.lookup (w.sec par') c = some e ∧
      e.ty = ftDirectory ∧ e.ino = no := by
  induction cs generalizing par cur with
  | nil => exact absurd rfl hne
  | cons c cs ih =>
    rcases walk_cons w par cur c cs with ⟨-, hw'⟩ | ⟨e, hl, ⟨ht, hw'⟩ | ⟨-, hw'⟩⟩
    · rw [hw'] at hw
      cases hw
    · rw [hw'] at hw
      by_cases hcs : cs = []
      · subst hcs
        rw [View.walk, Hit.dir.injEq] at hw
        obtain ⟨rfl, rfl⟩ := hw
        exact ⟨[], c, e, rfl, hd, hl, ht, rfl⟩
      · have hd' : IsDir w γ ((some e.ino).getD 0) := hI.lookup_dir hd hl ht
        obtain ⟨init, c', e', rfl, h⟩ := ih hd' hcs hw
        exact ⟨c :: init, c', e', rfl, h⟩
    · rw [hw'] at hw
      cases hw

theorem Dirs.walk_isDir {par' no : Nat} (hd : IsDir w γ (cur.getD 0))
    (hw : w.walk par cur cs = .dir par' no) : IsDir w γ no := by
  by_cases hne : cs = []
  · subst hne
    rw [View.walk, Hit.dir.injEq] at hw
    exact hw.2 ▸ hd
  · obtain ⟨_, _, e, _, hpar, hl, hty, rfl⟩ := hI.walk_dir hd hne hw
    exact hI.lookup_dir hpar hl hty

theorem Dirs.fresh {d : Nat} {c : List UInt8} (hd : IsDir w γ d) (hv : ValidName c)
    (hl : w.lookup (w.sec d) c = none) : NewName w (w.sec d) c := by
  have hr := hI.list d hd
  refine ⟨hv, ⟨?_, ?_⟩, hl⟩
  · rintro rfl
    exact lookup_none hl hr.dot rfl
  · rintro rfl
    exact lookup_none hl hr.dotdot rfl

theorem Dirs.missed {p : List UInt8} {tried : List (List UInt8)} (hnul : 0 ∉ p)
    (hc : components p = tried ++ left) (hs : Short tried)
    (hw : w.walk 0 none (components p) = .miss cur' left) :
    ∃ init c, tried = init ++ [c] ∧ slash ∉ c ∧ IsDir w γ (cur'.getD 0) ∧ NewName w (w.sec (cur'.getD 0)) c := by
  have hroot : IsDir w γ ((none : Option Nat).getD 0) := hI.root.1
  obtain ⟨init, c, hcs, hd, hl⟩ := hI.walk_miss hroot hw
  have htried : tried = init ++ [c] := by
    have happ : tried ++ left = (init ++ [c]) ++ left := by
      rw [← hc, hcs, List.append_assoc, List.singleton_append]
    exact List.append_cancel_right happ
  have hmem : c ∈ components p := by
    rw [hcs]
    exact List.mem_append_right _ List.mem_cons_self
  refine ⟨init, c, htried, fun hx => (mem_of_mem_components hmem hx).2 rfl, hd, hI.fresh hd ⟨?_, ?_, ?_⟩ hl⟩
  · exact ne_nil_of_mem_components hmem
  · apply hs
    rw [htried]
    exact List.mem_append_right _ List.mem_cons_self
  · exact fun h0 => hnul (mem_of_mem_components hmem h0).1

end

theorem joinPath_ne_nil {cs : List (List UInt8)} (h : cs ≠ []) : joinPath cs ≠ [] := by
  obtain ⟨c, cs, rfl⟩ := List.exists_cons_of_ne_nil h
  rw [joinPath_cons]
  exact List.cons_ne_nil _ _

theorem afterSlash_joinPath {init : List (List UInt8)} {c : List UInt8} (h : slash ∉ c) :
    afterSlash (joinPath (init ++ [c])) = c := by
  rw [joinPath_append, joinPath_single, afterSlash_append h]

theorem components_afterSlash {p : List UInt8} (h : slash ∈ p) (hne : afterSlash p ≠ []) :
    ∃ init, components p = init ++ [afterSlash p] := by
  have hns : slash ∉ afterSlash p := by
    intro hm
    have := List.mem_takeWhile_imp (List.mem_reverse.mp hm)
    simp at this
  cases hd : p.reverse.dropWhile (· != slash) with
  | nil =>
    have := List.dropWhile_eq_nil_iff.mp hd slash (List.mem_reverse.mpr h)
    simp at this
  | cons x xs =>
    obtain rfl := head_dropWhile_ne hd
    have happ := List.takeWhile_append_dropWhile (p := (· != slash)) (l := p.reverse)
    rw [hd] at happ
    have hp : p = xs.reverse ++ slash :: afterSlash p := by
      have hrev := congrArg List.reverse happ
      rw [List.reverse_append, List.reverse_reverse, List.reverse_cons, List.append_assoc] at hrev
      exact hrev.symm
    have hcomp : components p = components xs.reverse ++ components (afterSlash p) := by
      conv_lhs => rw [hp]
      rw [components, List.splitOn_append_cons_self, List.filter_append]
      rfl
    rw [hcomp, components_single hne hns]
    exact ⟨_, rfl⟩

theorem afterSlash_ne_nil {p : List UInt8} {x : UInt8} (h : p.getLast? = some x) (hx : x ≠ slash) :
    afterSlash p ≠ [] := by
  obtain ⟨l, rfl⟩ := List.getLast?_eq_some_iff.mp h
  rw [afterSlash, List.reverse_append, List.reverse_singleton, List.singleton_append,
    List.takeWhile_cons_of_pos (by simpa using hx)]
  simp

theorem nul_not_mem_joinPath {cs : List (List UInt8)} (h : ∀ c ∈ cs, 0 ∉ c) : 0 ∉ joinPath cs := by
  intro h0
  obtain ⟨c, hc, hx⟩ := List.mem_flatMap.mp h0
  rcases List.mem_cons.mp hx with hx | hx
  · exact absurd hx (by decide)
  · exact h c hc hx

end Ends

section Depths

variable {s : Fs} {E : Prop} {p : List UInt8} {tried left : List (List UInt8)}

theorem sat_depth_path (name : Buf) (hnul : 0 ∉ p) (hE : E ∨ Short (components p)) (hne : components p ≠ [])
    {Q : Nat → Fs → Prop} (hQ : Q (components p).length s) : ((pathDepthCnt name p).on s).Sat E Q := by
  apply sat_pathDepthCnt name hnul hE
  rw [depthOf, if_neg hne]
  exact hQ

theorem sat_depth_tried (name : Buf) (hnul : 0 ∉ p) (hc : components p = tried ++ left) (ht : tried ≠ [])
    (hs : Short tried) {Q : Nat → Fs → Prop} (hQ : Q tried.length s) :
    ((pathDepthCnt name (joinPath tried)).on s).Sat E Q := by
  have hmem : ∀ c ∈ tried, c ∈ components p := fun c h => hc ▸ List.mem_append_left _ h
  have hcomp : components (joinPath tried) = tried := components_joinPath fun c h =>
    ⟨ne_nil_of_mem_components (hmem c h), fun hx => (mem_of_mem_components (hmem c h) hx).2 rfl⟩
  have hnul' : 0 ∉ joinPath tried :=
    nul_not_mem_joinPath fun c h h0 => hnul (mem_of_mem_components (hmem c h) h0).1
  have hs' : E ∨ Short (components (joinPath tried)) := Or.inr (hcomp.symm ▸ hs)
  have hne : components (joinPath tried) ≠ [] := hcomp.symm ▸ ht
  apply sat_depth_path name hnul' hs' hne
  rw [hcomp]
  exact hQ

end Depths

section Mkdir

variable {g : Geom} {w : View} {m : Mem} {γ : Ghost} {s : Fs} {E : Prop} {p : List UInt8} {stack : Stack}

structure Spare (g : Geom) (w : View) : Prop where
  room : Room g w 3
  inode : ∃ k < 4096, w.ibit k = false

theorem Sane.directOk (h : Sane g w m γ) {d : Nat} {i : Inode} (hd : IsDir w γ d) (hs : Stands w d i) :
    DirectOk g i.iSectors := by
  intro k hk h0
  have hadd : w.addr (w.sec d) k = w.sec d k := if_pos hk
  rw [hs.sec] at h0 ⊢
  have := (h.tree.rep hd).ok.addr k (by omega) (hadd.symm ▸ h0)
  rwa [hadd] at this

theorem Sane.fits (h : Sane g w m γ) {d blocks : Nat} {i : Inode} {name : List UInt8} (hd : IsDir w γ d)
    (hs : Stands w d i) (hv : ValidName name) (hr : Room g w blocks) : Fits g w i name blocks where
  name := Nat.le_succ_of_le hv.len
  size := by
    rw [hs.size]
    exact (h.tree.size_lt hd).2.1
  no := by
    rw [hs.no]
    exact (h.tree.no d hd.1).1
  room := hr

theorem sat_sysMkdir (h : At g w m s) (hS : Sane g w m γ) (hc : Calm m) (hnul : 0 ∉ p)
    (hE : E ∨ PathOk p ∧ (components p ≠ [] ∨ isRootPath p = true) ∧ Spare g w) {Q : Int → Fs → Prop}
    (hno : ∀ t, At g w m t → Q (-1) t)
    (hyes : ∀ d n size sec lba W t, Grown g w γ d n size sec (newDir n lba) true W →
      At g W (m.upd d size sec) t → Q 0 t) : ((sysMkdir stack p).on s).Sat E Q := by
  have hI := hS.dirs hc.counted
  rw [sysMkdir, sat_bind]
  apply sat_searchFile h hI hnul (hE.imp_right And.left)
  intro r m' t _ _ hf ht
  cases hf with
  | root hr =>
    dsimp only
    rw [if_pos (by decide)]
    exact sat_dirClose_return none ht hI hno
  | slashes hr hcs =>
    dsimp only
    have he : E := hE.resolve_right fun hp => hp.2.1.elim (fun h => h hcs) (by simp [hr])
    by_cases hj : int32 stack.dirE.iNo = -1
    · -- the number happens to say that nothing was found
      rw [if_neg (by simpa using hj), sat_bind]
      apply sat_pathDepthCnt _ hnul (Or.inl he)
      rw [sat_bind]
      apply sat_pathDepthCnt _ List.not_mem_nil (Or.inl he)
      by_cases hdep : depthOf stack.name₁ (components p) = depthOf stack.name₂ (components [])
      · rw [if_neg (by simpa using hdep), if_pos rfl]
        exact he
      · rw [if_pos hdep]
        exact sat_dirClose_return (some 0) ht hI hno
    · rw [if_pos hj]
      exact sat_dirClose_return (some 0) ht hI hno
  | dir par no hr hcs hs hw =>
    dsimp only
    rw [if_pos (by omega)]
    exact sat_dirClose_return (some par) ht hI hno
  | file cur no tried left hr hcs hne hs hw =>
    dsimp only
    rw [if_pos (by omega)]
    exact sat_dirClose_return cur ht hI hno
  | miss cur tried left hr hcs hne hs hw =>
    obtain ⟨init, c, rfl, hslash, hd, hfresh⟩ := hI.missed hnul hcs hs hw
    obtain ⟨i, hi, hst⟩ := hI.stands hd
    dsimp only
    rw [if_neg (by decide), sat_bind]
    apply sat_depth_path _ hnul (hE.imp_right fun hp => hp.1.short) (by simp [hcs])
    rw [sat_bind]
    apply sat_depth_tried _ hnul hcs hne hs
    by_cases hlen : (components p).length = (init ++ [c]).length
    · rw [if_neg (by simpa using hlen), if_neg (joinPath_ne_nil hne), afterSlash_joinPath hslash]
      apply sat_makeDir ht hi (hS.directOk hd hst)
      · intro k hk h0
        have hhold : w.hold (w.sec (cur.getD 0)) k = w.sec (cur.getD 0) k := by
          rw [hold_of_lt hk, View.addr, if_pos hk]
        rw [hst.sec] at h0 ⊢
        rw [← hhold] at h0 ⊢
        exact hS.own.used _ k hd.1 h0
      · exact hE.imp_right fun hp => ⟨hS.fits hd hst hfresh.valid hp.2.2.room, hS.used_base, hp.2.2.inode⟩
      · intro n lba w₁ sec' t' hn hf hl hins ht'
        have hgrown := grown_dir hS.own hS.tree hd hst hn hf hl hfresh hins
        apply sat_dirClose_upd ht' hS.cached hc hi hst.no
        exact fun u hu => hyes _ _ _ _ _ _ u hgrown hu
    · rw [if_pos (by simpa using hlen)]
      exact sat_dirClose_return cur ht hI hno

end Mkdir

section Open

variable {g : Geom} {w : View} {m : Mem} {γ : Ghost} {s : Fs} {E : Prop} {p : List UInt8} {stack : Stack}
  {cur flags : Nat}

def Mem.created (m : Mem) (cur d size : Nat) (sec : Nat → Nat) (n k q flags : Nat) : Mem :=
  (((m.upd d size sec).push q ((inodeInit n).cnt 1)).setFile k ⟨0, flags, some q⟩).install cur k

theorem closed_push {i : Inode} {q r : Nat} (h : q ≠ r) : (m.push q i).closed r = (m.closed r).push q i := by
  have hr : (m.push q i).inodes r = m.inodes r := update_of_ne h.symm _ _
  simp only [Mem.closed, hr]
  cases m.inodes r with
  | none => rfl
  | some j =>
    dsimp only
    split
    · have herase : (q :: m.openInodes).erase r = q :: m.openInodes.erase r :=
        List.erase_cons_tail (by simpa using h)
      simp only [Mem.drop, Mem.push, update_comm h, herase]
    · simp only [Mem.set, Mem.push, update_comm h]

theorem closed_setFile {k r : Nat} {f : File} : (m.setFile k f).closed r = (m.closed r).setFile k f := by
  simp only [Mem.closed, Mem.setFile_inodes]
  cases m.inodes r with
  | none => rfl
  | some j =>
    dsimp only
    split <;> rfl

theorem closed_fdTable (m : Mem) (r : Nat) : (m.closed r).fdTable = m.fdTable := by
  rw [Mem.closed]
  split
  · split <;> rfl
  · rfl

theorem closed_install {k r : Nat} : (m.install cur k).closed r = (m.closed r).install cur k := by
  have hfd : (m.closed r).freeFd cur = m.freeFd cur := by rw [Mem.freeFd, Mem.freeFd, closed_fdTable]
  rw [Mem.install, Mem.install, hfd]
  cases m.freeFd cur with
  | none => rfl
  | some fd =>
    simp only [Option.elim_some, Mem.closed, Mem.setFd_inodes]
    cases m.inodes r with
    | none => rfl
    | some j =>
      dsimp only
      split <;> rfl

theorem push_set {i j : Inode} {q r : Nat} (h : q ≠ r) : (m.push q i).set r j = (m.set r j).push q i := by
  simp only [Mem.set, Mem.push, update_comm h]

theorem sat_dirClose_created {W : View} {c : Option Nat} {i : Inode} {n k q size : Nat} {sec : Nat → Nat}
    (h : At g W (((((m.at w c).push q ((inodeInit n).cnt 1)).setFile k ⟨0, flags, some q⟩).set
      ((m.ref c).ptr (m.at w c)) (i.body size sec)).install cur k) s) (hC : Cached w m) (hc : Calm m)
    (hi : (m.at w c).inodes ((m.ref c).ptr (m.at w c)) = some i) (hno : i.iNo = c.getD 0)
    (hq : q ≠ (m.ref c).ptr (m.at w c)) {R : Unit → Fs → Prop}
    (hR : ∀ t, At g W (m.created cur (c.getD 0) size sec n k q flags) t → R () t) :
    ((dirClose (m.ref c)).on s).Sat E R := by
  have hset : ((((m.at w c).push q ((inodeInit n).cnt 1)).setFile k ⟨0, flags, some q⟩).set
      ((m.ref c).ptr (m.at w c)) (i.body size sec)) = ((((m.at w c).set ((m.ref c).ptr (m.at w c))
        (i.body size sec)).push q ((inodeInit n).cnt 1)).setFile k ⟨0, flags, some q⟩) := by
    rw [← push_set hq]
    rfl
  rw [hset] at h
  cases c with
  | none =>
    have hupd : (m.at w none).set ((m.ref none).ptr (m.at w none)) (i.body size sec) = m.upd i.iNo size sec :=
      hC.set_eq_upd hi
    rw [hupd, hno] at h
    exact hR s h
  | some d =>
    have hupd : ((m.at w (some d)).set ((m.ref (some d)).ptr (m.at w (some d))) (i.body size sec)).closed
        (m.ptr d) = m.upd d size sec := hC.closed_upd hc hi
    have hobj : (((((m.at w (some d)).set (m.ptr d) (i.body size sec)).push q ((inodeInit n).cnt 1)).setFile k
        ⟨0, flags, some q⟩).install cur k).inodes (m.ptr d) = some (i.body size sec) := by
      rw [install_inodes]
      exact (update_of_ne hq.symm _ _).trans (Mem.set_inodes_self _ _ _)
    apply sat_inodeClose h hobj
    intro t ht
    rw [closed_install, closed_setFile, closed_push (r := m.ptr d) hq, hupd] at ht
    exact hR t ht

theorem creat_cases (h : flags ≤ 7) : flags &&& oCreat = 0 ∨ flags &&& oCreat = oCreat := by
  have hall : ∀ f < 8, f &&& oCreat = 0 ∨ f &&& oCreat = oCreat := by decide
  exact hall flags (by omega)

theorem at_freeSlot (m : Mem) (w : View) (c : Option Nat) : (m.at w c).freeSlot = m.freeSlot := by
  cases c with
  | none => rfl
  | some d =>
    have hfile : (m.at w (some d)).fileTable = m.fileTable := opened_fileTable m w d
    rw [Mem.freeSlot, Mem.freeSlot, hfile]

theorem at_fdOf (m : Mem) (w : View) (c : Option Nat) : (m.at w c).fdOf cur = m.fdOf cur := by
  cases c with
  | none => rfl
  | some d => exact opened_fdOf m w d cur

theorem Sane.cached_at {c : Option Nat} (h : Sane g w m γ) (hc : Calm m) (hd : IsDir w γ (c.getD 0)) :
    Cached w (m.at w c) := by
  cases c with
  | none => exact h.cached
  | some d => exact h.cached.opened (hc.below (by omega)) hd.1 (h.tree.no d hd.1).2

theorem Sane.none_of_at {c : Option Nat} {q : Nat} (h : Sane g w m γ) (hq : (m.at w c).inodes q = none) :
    m.inodes q = none := by
  cases c with
  | none => exact hq
  | some d =>
    cases hj : m.inodes q with
    | none => rfl
    | some j =>
      obtain ⟨j', hj', -⟩ := opened_old (n := d) h.cached hj
      cases hq.symm.trans hj'

theorem sat_sysOpen (h : At g w m s) (hS : Sane g w m γ) (hc : Calm m) (hnul : 0 ∉ p)
    (hE : E ∨ PathOk p ∧ flags ≤ 7 ∧ Spare g w) {Q : Int → Fs → Prop}
    (hno : ∀ t, At g w m t → Q (-1) t)
    (hcreate : ∀ d n size sec k q W t, flags &&& oCreat = oCreat →
      Grown g w γ d n size sec (inodeInit n) false W → m.freeSlot = some k → m.inodes q = none →
      At g W (m.created cur d size sec n k q flags) t → Q (m.fdOf cur) t)
    (hopen : ∀ c n r m' t, flags &&& oCreat = 0 → FileOpened (m.at w c) w cur n flags r m' →
      At g w m' t → Q r t) : ((sysOpen stack cur p flags).on s).Sat E Q := by
  have hI := hS.dirs hc.counted
  rw [sysOpen]
  cases hlast : p.getLast? with
  | none =>
    rw [List.getLast?_eq_none_iff] at hlast
    subst hlast
    exact hE.resolve_right fun hp => absurd hp.1.abs (by simp)
  | some x =>
    dsimp only
    by_cases hx : x = slash
    · rw [if_pos hx]
      exact hno s h
    rw [if_neg hx, sat_bind, sat_assert, decide_eq_true_eq, decide_eq_false_iff_not]
    refine ⟨fun hflags => ?_, fun hc => hE.resolve_right fun hp => hc hp.2.1⟩
    rw [sat_bind]
    apply sat_pathDepthCnt _ hnul (hE.imp_right fun hp => hp.1.short)
    rw [sat_bind]
    apply sat_searchFile h hI hnul (hE.imp_right And.left)
    intro r m' t habs _ hf ht
    cases hf with
    | root hr =>
      dsimp only
      rw [if_pos rfl]
      exact sat_dirClose_return none ht hI hno
    | slashes hr hcs =>
      dsimp only
      rw [if_pos rfl]
      exact sat_dirClose_return (some 0) ht hI hno
    | dir par no hr hcs hs hw =>
      dsimp only
      rw [if_pos rfl]
      exact sat_dirClose_return (some par) ht hI hno
    | file c no tried left hr hcs hne hs hw =>
      dsimp only
      have hcomps : components p ≠ [] := by simp [hcs, hne]
      rw [if_neg (by decide), sat_bind]
      apply sat_depth_tried _ hnul hcs hne hs
      rw [depthOf, if_neg hcomps]
      by_cases hlen : (components p).length = tried.length
      · rw [if_neg (by simpa using hlen), if_neg (by omega)]
        rcases creat_cases hflags with hcr | hcr
        · have hroot : IsDir w γ ((none : Option Nat).getD 0) := hI.root.1
          obtain ⟨_, _, e, _, hd, hl, hty, rfl⟩ := hI.walk_file hroot hw
          have hlt := (hI.lookup_file hd hl hty).1
          rw [if_neg (by simp [hcr]), if_neg (by rw [hcr]; decide), uint32_of_lt (by omega)]
          apply sat_fileOpen ht (Or.inr hlt)
          exact fun r m' t => hopen c _ r m' t hcr
        · rw [if_pos ⟨by omega, by rw [hcr]; decide⟩]
          exact sat_dirClose_return c ht hI hno
      · rw [if_pos (by simpa using hlen)]
        exact sat_dirClose_return c ht hI hno
    | miss c tried left hr hcs hne hs hw =>
      dsimp only
      obtain ⟨init, name, rfl, hslash, hd, hfresh⟩ := hI.missed hnul hcs hs hw
      obtain ⟨i, hi, hst⟩ := hI.stands hd
      have hcomps : components p ≠ [] := by simp [hcs]
      rw [if_neg (by decide), sat_bind]
      apply sat_depth_tried _ hnul hcs hne hs
      rw [depthOf, if_neg hcomps]
      by_cases hlen : (components p).length = (init ++ [name]).length
      · rw [if_neg (by simpa using hlen)]
        rcases creat_cases hflags with hcr | hcr
        · rw [if_pos ⟨by decide, hcr⟩]
          exact sat_dirClose_return c ht hI hno
        · have hcr0 : flags &&& oCreat ≠ 0 := by
            rw [hcr]
            decide
          rw [if_neg fun hf => hcr0 hf.2, if_neg fun hf => hf.1 rfl, if_pos hcr, sat_bind]
          -- the name that is created is the last one that was looked up
          have hafter : afterSlash p = name := by
            have hleft : left = [] := by
              have := congrArg List.length hcs
              simp only [List.length_append, List.length_singleton] at this hlen
              exact List.length_eq_zero_iff.mp (by omega)
            obtain ⟨init', hp⟩ := components_afterSlash (List.mem_of_mem_head? habs) (afterSlash_ne_nil hlast hx)
            rw [hcs, hleft, List.append_nil] at hp
            exact (List.singleton_injective (List.append_inj' hp rfl).2).symm
          have hnone := (hS.cached_at hc hd).ok.fresh_none
          rw [hafter]
          apply sat_fileCreate ht hnone hi (hS.directOk hd hst)
          · exact hE.imp_right fun hp => ⟨hS.fits hd hst hfresh.valid (hp.2.2.room.mono (by omega)), hp.2.2.inode⟩
          · exact fun t ht => sat_dirClose_return c ht hI hno
          · intro n k w₁ sec' t' hn hk hins ht'
            have hgrown := grown_file hS.own hS.tree hd hst hn hfresh hins
            have hq : (m.at w c).fresh ≠ (m.ref c).ptr (m.at w c) := by
              intro he
              rw [he, hi] at hnone
              cases hnone
            rw [at_freeSlot] at hk
            rw [at_fdOf, sat_bind]
            apply sat_dirClose_created ht' hS.cached hc hi hst.no hq
            exact fun u hu => hcreate _ _ _ _ _ _ _ u hcr hgrown hk (hS.none_of_at hnone) hu
      · rw [if_pos (by simpa using hlen)]
        exact sat_dirClose_return c ht hI hno

end Open

end TrueOs.Fs
