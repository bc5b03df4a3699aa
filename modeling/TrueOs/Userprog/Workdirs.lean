import TrueOs.Spec.Returns
import TrueOs.Userprog.Descriptors

/-! Working directories.  A process has the bare number of its directory; nothing counts it. -/

namespace TrueOs.Fs.Workdir

open Function (update update_self update_of_ne)
open Prog

structure World where
  fs : Fs
  live : Finset Nat

inductive Call
  | chdir (path : List UInt8)
  | mkdir (path : List UInt8)
  | rmdir (path : List UInt8)
  | fork (child : Nat)
  | creat (path : List UInt8)

/-- A call of a live process `p` that returns.  A path has no zero before its end, and there
are 1024 pids. -/
inductive Step : World → Call → World → Prop
  | chdir {s t : Fs} {live : Finset Nat} {p : Nat} {stack : Stack} {path : List UInt8} {r : Int} (hp : p ∈ live)
      (hnul : 0 ∉ path) (hr : ((sysChdir stack p path).on s).run = .ok (r, t)) :
      Step ⟨s, live⟩ (.chdir path) ⟨t, live⟩
  | mkdir {s t : Fs} {live : Finset Nat} {stack : Stack} {path : List UInt8} {r : Int}
      (hnul : 0 ∉ path) (hr : ((sysMkdir stack path).on s).run = .ok (r, t)) :
      Step ⟨s, live⟩ (.mkdir path) ⟨t, live⟩
  | rmdir {s t : Fs} {live : Finset Nat} {stack : Stack} {path : List UInt8} {r : Int}
      (hnul : 0 ∉ path) (hr : ((sysRmdir stack path).on s).run = .ok (r, t)) :
      Step ⟨s, live⟩ (.rmdir path) ⟨t, live⟩
  | fork {s t : Fs} {live : Finset Nat} {p c : Nat} (hp : p ∈ live) (hc : c ∉ live)
      (hpid : c ∈ Finset.Icc 1 1024) (hr : ((forkFiles p c).on s).run = .ok ((), t)) :
      Step ⟨s, live⟩ (.fork c) ⟨t, insert c live⟩
  | creat {s t : Fs} {live : Finset Nat} {p flags : Nat} {stack : Stack} {path : List UInt8} {r : Int}
      (hp : p ∈ live) (hnul : 0 ∉ path) (hflags : flags &&& oCreat ≠ 0)
      (hr : ((sysOpen stack p path flags).on s).run = .ok (r, t)) : Step ⟨s, live⟩ (.creat path) ⟨t, live⟩

/-- Any consistent disk, just mounted, and any processes. -/
def Started (g : Geom) (x : World) : Prop := x.live ⊆ Finset.Icc 1 1024 ∧ ∃ w γ,
  At g w (mountMem w) x.fs ∧ Own w ∧ Tree g w γ ∧ w.sec 0 0 = g.base

inductive Reach (g : Geom) (C : World → Call → Prop) : World → Prop
  | start {x : World} (h : Started g x) : Reach g C x
  | step {x y : World} {call : Call} (h : Reach g C x) (hc : C x call) (hs : Step x call y) : Reach g C y

/-- Nothing is entered or removed by a path of slashes only, no directory is removed under its
name `.`, and none that somebody works in. -/
def Careful (g : Geom) (x : World) : Call → Prop
  | .chdir path => components path ≠ [] ∨ isRootPath path = true
  | .rmdir path => (components path ≠ [] ∨ isRootPath path = true) ∧ (components path).getLast? ≠ some dot ∧
      ∀ par n, (g.view x.fs.vol).walk 0 none (components path) = .dir par n →
        ∀ q ∈ x.live, x.fs.mem.cwdInodeNr q ≠ n
  | _ => True

/-- `open_inodes` agrees with the disk, and has no directory but the root. -/
structure Tables (w : View) (γ : Ghost) (b : Nat) (m : Mem) : Prop where
  cached : Cached w m
  cnt : ∀ p i, m.inodes p = some i → i.iOpenCnts ≤ b
  dirs : ∀ p i, m.inodes p = some i → γ.isDir i.iNo = true → i.iNo = 0

section Tables

variable {g : Geom} {w W : View} {γ : Ghost} {b c d n size : Nat} {sec : Nat → Nat} {m : Mem} {i' : Inode}
  {f : Bool}

section

variable (h : Tables w γ b m)
include h

theorem Tables.mono (hc : b ≤ c) : Tables w γ c m :=
  ⟨h.cached, fun p i hi => Nat.le_trans (h.cnt p i hi) hc, h.dirs⟩

theorem Tables.calm (hb : b + 4 < 2 ^ 32) : Calm m := by
  intro p i hi
  have := h.cnt p i hi
  omega

theorem Tables.congr {m' : Mem} (h₁ : m'.inodes = m.inodes)
    (h₂ : m'.openInodes = m.openInodes) (h₃ : m'.rootDir = m.rootDir) : Tables w γ b m' := by
  refine ⟨h.cached.congr h₁ h₂ h₃, ?_, ?_⟩
  · rw [h₁]
    exact h.cnt
  · rw [h₁]
    exact h.dirs

theorem Tables.add_isDir {p : Nat} {i : Inode} (hf : w.ibit n = false)
    (hi : m.inodes p = some i) : (γ.add n d f).isDir i.iNo = γ.isDir i.iNo := by
  have hne : i.iNo ≠ n := by
    rintro rfl
    exact absurd ((h.cached.alloc p i hi).symm.trans hf) (by decide)
  exact update_of_ne hne _ _

theorem Tables.grown (hG : Grown g w γ d n size sec i' f W) :
    Tables W (γ.add n d f) b (m.upd d size sec) := by
  refine ⟨hG.cached h.cached, ?_, ?_⟩
  · intro p j hj
    obtain ⟨i, hi, -, hcnt, -⟩ := mem_upd m d size sec hj
    rw [hcnt]
    exact h.cnt p i hi
  · intro p j hj
    obtain ⟨i, hi, hno, -⟩ := mem_upd m d size sec hj
    rw [hno, h.add_isDir hG.free hi]
    exact h.dirs p i hi

theorem Tables.created {k q flags cur : Nat} (hb : 1 ≤ b)
    (hG : Grown g w γ d n size sec (inodeInit n) false W) (hq : m.inodes q = none) :
    Tables W (γ.add n d false) b (m.created cur d size sec n k q flags) := by
  have hU := h.grown hG
  have hfree : ∀ p i, (m.upd d size sec).inodes p = some i → i.iNo ≠ n := by
    rintro p j hj rfl
    obtain ⟨i, hi, hno, -⟩ := mem_upd m d size sec hj
    have := h.cached.alloc p i hi
    rw [← hno, hG.free] at this
    cases this
  have hq' : (m.upd d size sec).inodes q = none := by rw [Mem.upd_inodes, hq, Option.map_none]
  have hpush : Tables W (γ.add n d false) b ((m.upd d size sec).push q ((inodeInit n).cnt 1)) := by
    have hcases : ∀ p i, ((m.upd d size sec).push q ((inodeInit n).cnt 1)).inodes p = some i →
        i = (inodeInit n).cnt 1 ∨ (m.upd d size sec).inodes p = some i := by
      intro p i hi
      by_cases hp : p = q
      · subst hp
        rw [Mem.push_inodes, update_self, Option.some.injEq] at hi
        exact Or.inl hi.symm
      · rw [Mem.push_inodes, update_of_ne hp] at hi
        exact Or.inr hi
    refine ⟨?_, ?_, ?_⟩
    · apply hU.cached.push hq' hfree
      · show W.ibit n = true
        rw [hG.ibit, update_self]
      · show _ = (W.ino n).iSize ∧ _ = (W.ino n).iSectors
        rw [hG.ino, update_self]
        exact ⟨rfl, rfl⟩
      · exact Nat.le_refl 1
    · intro p i hi
      rcases hcases p i hi with rfl | hi
      · exact hb
      · exact hU.cnt p i hi
    · intro p i hi
      rcases hcases p i hi with rfl | hi
      · intro hd
        have hfile : (γ.add n d false).isDir ((inodeInit n).cnt 1).iNo = false := update_self _ _ _
        rw [hfile] at hd
        cases hd
      · exact hU.dirs p i hi
  apply hpush.congr
  · exact install_inodes _ _ _
  · exact install_openInodes _ _ _
  · exact install_rootDir _ _ _

theorem Tables.shrunk (hS : Shrunk g w γ d n size sec W) (hn : γ.isDir n = true) :
    Tables W γ b (m.upd d size sec) := by
  have h0 : n ≠ 0 := by
    rintro rfl
    have := hS.tree.root.1
    rw [hS.ibit, update_self] at this
    cases this
  have hno : ∀ p i, m.inodes p = some i → i.iNo ≠ n := by
    rintro p i hi rfl
    exact h0 (h.dirs p i hi hn)
  refine ⟨hS.cached h.cached hno, ?_, ?_⟩
  · intro p j hj
    obtain ⟨i, hi, -, hcnt, -⟩ := mem_upd m d size sec hj
    rw [hcnt]
    exact h.cnt p i hi
  · intro p j hj
    obtain ⟨i, hi, hin, -⟩ := mem_upd m d size sec hj
    rw [hin]
    exact h.dirs p i hi

theorem Tables.bump {p : Nat} {i : Inode} (hb : b + 1 < 2 ^ 32) (hi : m.inodes p = some i) :
    Tables w γ (b + 1) (m.set p (i.cnt (add32 i.iOpenCnts 1))) := by
  have hcnt := h.cnt p i hi
  have hadd : add32 i.iOpenCnts 1 = i.iOpenCnts + 1 := add32_of_lt (by omega)
  have hcases : ∀ q j, (m.set p (i.cnt (add32 i.iOpenCnts 1))).inodes q = some j →
      ∃ j₀, m.inodes q = some j₀ ∧ j.iNo = j₀.iNo ∧ j.iOpenCnts ≤ j₀.iOpenCnts + 1 := by
    intro q j hj
    by_cases hq : q = p
    · subst hq
      rw [Mem.set_inodes_self, Option.some.injEq] at hj
      subst hj
      exact ⟨i, hi, rfl, by rw [Inode.cnt_iOpenCnts, hadd]⟩
    · rw [Mem.set_inodes, update_of_ne hq] at hj
      exact ⟨j, hj, rfl, Nat.le_succ _⟩
  refine ⟨h.cached.set hi rfl ⟨rfl, rfl⟩ ?_, ?_, ?_⟩
  · rw [Inode.cnt_iOpenCnts, hadd]
    omega
  · intro q j hj
    obtain ⟨j₀, hj₀, -, hle⟩ := hcases q j hj
    have := h.cnt q j₀ hj₀
    omega
  · intro q j hj
    obtain ⟨j₀, hj₀, hno, -⟩ := hcases q j hj
    rw [hno]
    exact h.dirs q j₀ hj₀

end

end Tables

section Fork

variable {g : Geom} {w : View} {γ : Ghost} {b : Nat} {m : Mem} {s : Fs} {cur child : Nat}

theorem sat_isPipe_any (cur fd : Nat) (s : Fs) {Q : Bool → Fs → Prop} (hQ : ∀ b, Q b s) :
    ((isPipe cur fd).on s).Sat True Q := by
  refine (sat_isPipe cur fd s).mono fun b t hb => ?_
  rw [hb.1]
  exact hQ b

theorem sat_updateInodeOpenCnts (ls : List Nat) (h : At g w m s) (hT : Tables w γ b m)
    (hb : b + ls.length < 2 ^ 32) : ((updateInodeOpenCnts cur child ls).on s).Sat True (fun _ t =>
      ∃ m', At g w m' t ∧ Tables w γ (b + ls.length) m' ∧ m'.cwdInodeNr = m.cwdInodeNr) := by
  induction ls generalizing m s b with
  | nil => exact ⟨m, h, hT, rfl⟩
  | cons l ls ih =>
    simp only [List.length_cons] at hb ⊢
    have hnext : ∀ m' t, At g w m' t → Tables w γ (b + 1) m' → m'.cwdInodeNr = m.cwdInodeNr →
        ((updateInodeOpenCnts cur child ls).on t).Sat True (fun _ t =>
          ∃ m', At g w m' t ∧ Tables w γ (b + (ls.length + 1)) m' ∧ m'.cwdInodeNr = m.cwdInodeNr) := by
      intro m' t ht hT' hcwd
      refine (ih ht hT' (by omega)).mono fun _ u hu => ?_
      obtain ⟨m'', hu', hT'', hcwd'⟩ := hu
      exact ⟨m'', hu', hT''.mono (by omega), hcwd'.trans hcwd⟩
    simp only [updateInodeOpenCnts, sat_bind, sat_get, sat_assert]
    refine ⟨fun _ => ?_, fun _ => trivial⟩
    split
    · rw [sat_bind]
      apply sat_isPipe_any
      intro pipe
      cases pipe with
      | true =>
        rw [if_pos rfl]
        simp only [sat_bind, sat_get]
        apply sat_setFile h
        exact fun t ht => hnext _ t ht ((hT.mono (Nat.le_succ b)).congr rfl rfl rfl) rfl
      | false =>
        rw [if_neg Bool.false_ne_true, sat_bind]
        rw [fileInode, sat_bind, sat_get, h.mem]
        cases (m.fileTable (m.fdTable child l).toNat).fdInode with
        | none => trivial
        | some p =>
          rw [sat_pure, sat_bind]
          cases hi : m.inodes p with
          | none =>
            simp only [getInode, bind_on, get_on, Res.bind, h.mem, hi]
            trivial
          | some i =>
            apply sat_getInode h hi
            rw [sat_bind]
            apply sat_setInode h
            exact fun t ht => hnext _ t ht (hT.bump (by omega) hi) rfl
    · exact hnext m s h (hT.mono (Nat.le_succ b)) rfl

end Fork

structure Valid (g : Geom) (w : View) (γ : Ghost) (x : World) : Prop where
  state : At g w x.fs.mem x.fs
  own : Own w
  tree : Tree g w γ
  base : w.sec 0 0 = g.base
  tables : Tables w γ (1 + 5 * x.live.card) x.fs.mem
  cwd : ∀ q ∈ x.live, IsDir w γ (x.fs.mem.cwdInodeNr q)
  pids : x.live ⊆ Finset.Icc 1 1024

section Runs

variable {g : Geom} {w : View} {γ : Ghost} {x y : World} {call : Call}

theorem card_le (h : x.live ⊆ Finset.Icc 1 1024) : x.live.card ≤ 1024 := by
  have := Finset.card_le_card h
  rwa [Nat.card_Icc] at this

theorem Valid.sane (h : Valid g w γ x) : Sane g w x.fs.mem γ := ⟨h.own, h.tree, h.tables.cached, h.base⟩

theorem Valid.calm (h : Valid g w γ x) : Calm x.fs.mem := by
  have := card_le h.pids
  exact h.tables.calm (by omega)

theorem Started.valid (h : Started g x) : ∃ w γ, Valid g w γ x := by
  obtain ⟨hpids, w, γ, hat, hO, hT, hbase⟩ := h
  have hmem := hat.mem
  refine ⟨w, γ, ⟨hmem ▸ hat, hO, hT, hbase, ?_, ?_, hpids⟩⟩
  · rw [hmem]
    refine ⟨hT.mount, ?_, ?_⟩
    · intro p i hi
      obtain ⟨-, rfl⟩ := mountMem_inodes hi
      exact Nat.le_add_right 1 _
    · intro p i hi _
      obtain ⟨-, rfl⟩ := mountMem_inodes hi
      exact (hT.no 0 hT.root.1).2
  · intro q _
    rw [hmem]
    exact ⟨hT.root.1, hT.root.2.1⟩

theorem Valid.withCwd {s : Fs} {m : Mem} (h : Valid g w γ x) (ht : At g w m s)
    (hT : Tables w γ (1 + 5 * x.live.card) m) (hcwd : ∀ q ∈ x.live, IsDir w γ (m.cwdInodeNr q)) :
    Valid g w γ ⟨s, x.live⟩ := by
  have hmem := ht.mem
  exact ⟨hmem ▸ ht, h.own, h.tree, h.base, hmem ▸ hT, hmem ▸ hcwd, h.pids⟩

theorem Valid.same {s : Fs} (h : Valid g w γ x) (ht : At g w x.fs.mem s) : Valid g w γ ⟨s, x.live⟩ :=
  h.withCwd ht h.tables h.cwd

theorem Valid.grown {W : View} {d n size : Nat} {sec : Nat → Nat} {i' : Inode} {f : Bool} {m : Mem} {t : Fs}
    (h : Valid g w γ x) (hG : Grown g w γ d n size sec i' f W) (ht : At g W m t)
    (hT : Tables W (γ.add n d f) (1 + 5 * x.live.card) m) (hcwd : m.cwdInodeNr = x.fs.mem.cwdInodeNr) :
    Valid g W (γ.add n d f) ⟨t, x.live⟩ := by
  have hmem := ht.mem
  refine ⟨hmem ▸ ht, hG.own, hG.tree, hG.base.trans h.base, hmem ▸ hT, ?_, h.pids⟩
  intro q hq
  rw [hmem, hcwd]
  exact hG.isDir (h.cwd q hq)

theorem created_cwd (m : Mem) (cur d size : Nat) (sec : Nat → Nat) (n k q flags : Nat) :
    (m.created cur d size sec n k q flags).cwdInodeNr = m.cwdInodeNr := by
  rw [Mem.created, Mem.install]
  cases Mem.freeFd _ cur <;> rfl

theorem step_valid (h : Valid g w γ x) (hc : Careful g x call) (hs : Step x call y) :
    ∃ W γ', Valid g W γ' y := by
  have hS := h.sane
  have hcalm := h.calm
  have hI := hS.dirs hcalm.counted
  cases hs with
  | @chdir s t live p stack path r hp hnul hr =>
    have key : ((sysChdir stack p path).on s).Sat True (fun _ t => ∃ W γ', Valid g W γ' ⟨t, live⟩) := by
      apply sat_sysChdir h.state hI hnul (Or.inl trivial) hc
      · exact fun t ht => ⟨w, γ, h.same ht⟩
      · intro n cs t hn _ ht
        refine ⟨w, γ, h.withCwd ht (h.tables.congr rfl rfl rfl) fun q hq => ?_⟩
        by_cases hqp : q = p
        · rw [hqp, show (s.mem.setCwd p n).cwdInodeNr p = n from update_self _ _ _]
          exact hn.isDir hI
        · rw [show (s.mem.setCwd p n).cwdInodeNr q = s.mem.cwdInodeNr q from update_of_ne hqp _ _]
          exact h.cwd q hq
    exact key.of_run hr
  | @mkdir s t live stack path r hnul hr =>
    have key : ((sysMkdir stack path).on s).Sat True (fun _ t => ∃ W γ', Valid g W γ' ⟨t, live⟩) := by
      apply sat_sysMkdir h.state hS hcalm hnul (Or.inl trivial)
      · exact fun t ht => ⟨w, γ, h.same ht⟩
      · intro d n size sec lba W t hG ht
        exact ⟨W, _, h.grown hG ht (h.tables.grown hG) rfl⟩
    exact key.of_run hr
  | @rmdir s t live stack path r hnul hr =>
    obtain ⟨hne, hdot, hfree⟩ := hc
    have key : ((sysRmdir stack path).on s).Sat True (fun _ t => ∃ W γ', Valid g W γ' ⟨t, live⟩) := by
      apply sat_sysRmdir h.state hS hcalm hnul hne (Or.inl trivial)
      · exact fun t ht => ⟨w, γ, h.same ht⟩
      · intro par n size sec W t hw hsh ht
        have hroot : IsDir w γ ((none : Option Nat).getD 0) := hI.root.1
        have hn : IsDir w γ n := hI.walk_isDir hroot hw
        rw [← h.state.view] at hw
        have hmem := ht.mem
        refine ⟨W, γ, ⟨hmem ▸ ht, hsh.own, hsh.tree, hsh.base.trans h.base,
          hmem ▸ h.tables.shrunk hsh hn.2, ?_, h.pids⟩⟩
        intro q hq
        rw [hmem]
        exact hsh.isDir (h.cwd q hq) (hfree par n hw q hq)
      · exact fun hd => absurd hd hdot
    exact key.of_run hr
  | @fork s t live p c hp hcl hpid hr =>
    have hcard := card_le h.pids
    have key : ((forkFiles p c).on s).Sat True (fun _ t => ∃ W γ', Valid g W γ' ⟨t, insert c live⟩) := by
      rw [forkFiles, sat_bind, sat_modify]
      have hlen : localFds.length = 5 := by decide
      have hstate : At g w s.mem s := h.state
      have hat := hstate.withMem { s.mem with
        fdTable := update s.mem.fdTable c (s.mem.fdTable p)
        cwdInodeNr := update s.mem.cwdInodeNr c (s.mem.cwdInodeNr p) }
      refine (sat_updateInodeOpenCnts localFds hat (h.tables.congr rfl rfl rfl) (by rw [hlen]; omega)).mono
        fun _ u hu => ?_
      obtain ⟨m', hu, hT, hcwd⟩ := hu
      have hmem := hu.mem
      refine ⟨w, γ, ⟨hmem ▸ hu, h.own, h.tree, h.base, ?_, ?_, Finset.insert_subset hpid h.pids⟩⟩
      · rw [hmem]
        apply hT.mono
        rw [hlen, Finset.card_insert_of_notMem hcl]
        exact Nat.le_refl _
      · intro q hq
        rw [hmem, hcwd]
        show IsDir w γ (update s.mem.cwdInodeNr c (s.mem.cwdInodeNr p) q)
        by_cases hqc : q = c
        · rw [hqc, update_self]
          exact h.cwd p hp
        · rw [update_of_ne hqc]
          exact h.cwd q ((Finset.mem_insert.mp hq).resolve_left hqc)
    exact key.of_run hr
  | @creat s t live p flags stack path r hp hnul hflags hr =>
    have key : ((sysOpen stack p path flags).on s).Sat True (fun _ t => ∃ W γ', Valid g W γ' ⟨t, live⟩) := by
      apply sat_sysOpen h.state hS hcalm hnul (Or.inl trivial)
      · exact fun t ht => ⟨w, γ, h.same ht⟩
      · intro d n size sec k q W t _ hG _ hq ht
        exact ⟨W, _, h.grown hG ht (h.tables.created (Nat.le_add_right 1 _) hG hq) (created_cwd _ _ _ _ _ _ _ _ _)⟩
      · exact fun _ _ _ _ _ hz => absurd hz hflags
    exact key.of_run hr

theorem Reach.valid (h : Reach g (Careful g) x) : ∃ w γ, Valid g w γ x := by
  induction h with
  | start h => exact h.valid
  | step _ hc hs ih =>
    obtain ⟨w, γ, hv⟩ := ih
    exact step_valid hv hc hs

end Runs

section Getcwd

variable {g : Geom} {w : View} {m : Mem} {γ : Ghost} {s : Fs} {d : Nat}

theorem clear_cstring (b : Buf) (a : Nat) (s : Fs) {Q : List UInt8 → Fs → Prop} (hQ : ∀ name, Q name s) :
    ((cstring b a).on s).Clear Q := by
  simp only [cstring]
  split
  · exact hQ _
  · exact fun h => by cases h

theorem clear_appendName (path name : List UInt8) (s : Fs) {Q : List UInt8 → Fs → Prop}
    (hQ : ∀ path', path'.length < 512 → Q path' s) : ((appendName path name).on s).Clear Q := by
  rw [appendName]
  split
  · next hlt =>
    rw [maxPathLen] at hlt
    apply hQ
    simp only [List.length_append, List.length_cons]
    omega
  · exact fun h => by cases h

theorem clear_childBlocks {sec : Nat → Nat} {c : Nat} {path : List UInt8} (h : At g w m s)
    (hd : DirOk g w sec) (ks : List Nat) (hks : ∀ k ∈ ks, k < 140) {Q : Option (List UInt8) → Fs → Prop}
    (hnone : Q none s) (hsome : ∀ path', path'.length < 512 → Q (some path') s) :
    ((childBlocks c path (w.addr sec) ks).on s).Clear Q := by
  induction ks with
  | nil => exact hnone
  | cons k ks ih =>
    have hk := hks k List.mem_cons_self
    have ih := ih fun k hk => hks k (List.mem_cons_of_mem _ hk)
    rw [childBlocks]
    by_cases ha : w.addr sec k = 0
    · rw [if_pos ha]
      exact ih
    · obtain ⟨h₁, h₂⟩ := hd.addr k hk ha
      rw [if_neg ha, bind_on, Res.clear_bind]
      apply Res.Sat.clear
      apply sat_readBlk h (Or.inr h₂) h₁
      rw [bind_on, Res.clear_bind, get_on, Res.clear_done]
      dsimp only
      split
      · simp only [bind_on, Res.clear_bind]
        apply clear_cstring
        intro name
        exact clear_appendName path name s hsome
      · exact ih

theorem clear_getChildDirName {c : Nat} {path : List UInt8} (h : At g w m s) (hI : Dirs g w m γ)
    (hd : IsDir w γ d) {Q : Option (List UInt8) → Fs → Prop} (hnone : ∀ t, At g w m t → Q none t)
    (hsome : ∀ path' t, path'.length < 512 → At g w m t → Q (some path') t) :
    ((getChildDirName d c path).on s).Clear Q := by
  obtain ⟨-, -, hsec⟩ := hI.cached.deliver (hI.no d hd).2
  have hok := (hI.list d hd).ok
  rw [getChildDirName, bind_on, Res.clear_bind]
  apply Res.Sat.clear
  apply sat_inodeOpen h (Or.inr (hI.no d hd).1)
  intro t ht
  rw [bind_on, Res.clear_bind]
  apply Res.Sat.clear
  apply sat_getInode ht (Mem.opened_inodes d)
  rw [bind_on, Res.clear_bind]
  apply Res.Sat.clear
  apply sat_dirBlocks ht (hsec.symm ▸ hok).tbl
  rw [bind_on, Res.clear_bind]
  apply Res.Sat.clear
  apply sat_inodeClose ht (Mem.opened_inodes d)
  intro u hu
  rw [hI.cached.closed_opened hI.counted] at hu
  dsimp only
  apply clear_childBlocks hu (hsec.symm ▸ hok)
  · have hle : ∀ (c : Prop) [Decidable c], (if c then 140 else 12) ≤ 140 := by
      intro c _
      split <;> omega
    exact fun k hk => Nat.lt_of_lt_of_le (List.mem_range.mp hk) (hle _)
  · exact hnone u hu
  · exact fun path' hlen => hsome path' u hlen hu

theorem clear_ascend {turns : Nat} {path : List UInt8} (h : At g w m s) (hI : Dirs g w m γ)
    (hd : IsDir w γ d) (hlen : path.length < 512) :
    ((ascend turns d path).on s).Clear (fun r _ => ∀ path', r = some path' → path'.length < 512) := by
  induction turns generalizing d path s with
  | zero => exact fun h => by cases h
  | succ turns ih =>
    rw [ascend]
    by_cases h0 : d = 0
    · rw [if_pos h0]
      intro path' he
      cases he
      exact hlen
    · rw [if_neg h0, bind_on, Res.clear_bind]
      apply Res.Sat.clear
      apply sat_getParentDirInodeNr h hI hd
      intro t ht
      rw [bind_on, Res.clear_bind]
      apply clear_getChildDirName ht hI (hI.par d hd)
      · exact fun _ _ _ he => by cases he
      · exact fun path' u hlen hu => ih hu (hI.par d hd) hlen

theorem clear_sysGetcwd {cur size : Nat} (h : At g w m s) (hI : Dirs g w m γ)
    (hd : IsDir w γ (m.cwdInodeNr cur)) (hsize : 511 ≤ size) :
    ((sysGetcwd cur size).on s).Clear (fun _ _ => True) := by
  have hstore : ∀ path t, ((do return some (← storePath size path) :
      Prog Fs Buf (Option (List UInt8))).on t).Clear (fun _ _ => True) := by
    intro path t
    rw [storePath]
    split
    · trivial
    · exact fun h => by cases h
  have hlt := (hI.no _ hd).1
  simp only [sysGetcwd, bind_on, Res.clear_bind, get_on, Res.clear_done, clear_assert, decide_eq_true_eq, h.mem]
  refine ⟨hlt, ?_⟩
  by_cases h0 : m.cwdInodeNr cur = 0
  · rw [if_pos h0]
    exact hstore _ _
  · rw [if_neg h0, cwdPath, bind_on, Res.clear_bind]
    refine (clear_ascend h hI hd (by decide)).mono fun r t hr => ?_
    cases r with
    | none => trivial
    | some path =>
      have := hr path rfl
      rw [bind_on, Res.clear_bind, clear_assert, decide_eq_true_eq]
      exact ⟨by omega, hstore _ _⟩

end Getcwd

/-- Inode `n` is marked in the bitmap, and its first entry is its own `.`. -/
structure AllocatedDir (g : Geom) (s : Fs) (n : Nat) : Prop where
  lt : n < 4096
  bit : s.vol.inodeBitmap.bits.bit n = true
  dot : (g.view s.vol).ent ((g.view s.vol).sec n) 0 0 = some ⟨dot, n, ftDirectory⟩

theorem workdir_stays_valid {g : Geom} {x : World} (h : Reach g (Careful g) x) {q : Nat} (hq : q ∈ x.live) :
    AllocatedDir g x.fs (x.fs.mem.cwdInodeNr q) ∧
      ∀ size, 511 ≤ size → ((sysGetcwd q size).on x.fs).run ≠ .error .assert := by
  obtain ⟨w, γ, hv⟩ := h.valid
  have hI := hv.sane.dirs hv.calm.counted
  have hd := hv.cwd q hq
  have hlt := (hI.no _ hd).1
  refine ⟨⟨hlt, ?_, ?_⟩, fun size hsize => (clear_sysGetcwd hv.state hI hd hsize).run_ne⟩
  · have hbit := hd.1
    rw [← hv.state.view] at hbit
    exact (Bool.and_eq_true_iff.mp hbit).2
  · rw [hv.state.view]
    exact (hI.list _ hd).dot

/-- No block is held twice, by whichever files and directories, and what is held is marked and among the data. -/
theorem blocks_owned_once {g : Geom} {x : World} (h : Reach g (Careful g) x) {w : View} (hw : g.view x.fs.vol = w) :
    Own w ∧ ∀ n q, w.ibit n = true → w.hold (w.sec n) q ≠ 0 →
      g.base ≤ w.hold (w.sec n) q ∧ w.hold (w.sec n) q < g.top := by
  obtain ⟨_, γ, hv⟩ := h.valid
  obtain rfl := hv.state.view
  obtain rfl := hw
  refine ⟨hv.own, fun n q hn hq => ?_⟩
  exact of_decide_eq_true (Bool.and_eq_true_iff.mp (hv.own.used n q hn hq)).1

section Example

@[irreducible] def made : Fs := (sysMkdir noStack [slash, 97]).after mounted
@[irreducible] def entered : Fs := (sysChdir noStack 1 [slash, 97]).after made
@[irreducible] def removed : Fs := (sysRmdir noStack [slash, 97]).after entered

set_option maxRecDepth 100000 in
theorem made_run : ((sysMkdir noStack [slash, 97]).on mounted).run = .ok (0, made) := by
  rw [made]
  exact run_of_gives (by decide +kernel)

set_option maxRecDepth 100000 in
theorem entered_run : ((sysChdir noStack 1 [slash, 97]).on made).run = .ok (0, entered) := by
  rw [entered]
  exact run_of_gives (by decide +kernel)

set_option maxRecDepth 100000 in
theorem removed_run : ((sysRmdir noStack [slash, 97]).on entered).run = .ok (0, removed) := by
  rw [removed]
  exact run_of_gives (by decide +kernel)

theorem reach_entered {C : World → Call → Prop} (h₁ : C ⟨mounted, {1}⟩ (.mkdir [slash, 97]))
    (h₂ : C ⟨made, {1}⟩ (.chdir [slash, 97])) : Reach (formatGeom sized_small) C ⟨entered, {1}⟩ := by
  obtain ⟨w, hf, hat⟩ := at_mounted
  have hS := hf.sane
  have hpid : ({1} : Finset Nat) ⊆ Finset.Icc 1 1024 :=
    Finset.singleton_subset_iff.mpr (Finset.mem_Icc.mpr ⟨by omega, by omega⟩)
  have hstart : Started (formatGeom sized_small) ⟨mounted, {1}⟩ :=
    ⟨hpid, w, rootGhost, hat, hS.own, hS.tree, hS.base⟩
  have hone := (Reach.start hstart).step h₁ (.mkdir (by decide) made_run)
  exact hone.step h₂ (.chdir (Finset.mem_singleton_self 1) (by decide) entered_run)

theorem entered_valid : 1 ∈ ({1} : Finset Nat) ∧
    AllocatedDir (formatGeom sized_small) entered (entered.mem.cwdInodeNr 1) ∧
      ∀ size, 511 ≤ size → ((sysGetcwd 1 size).on entered).run ≠ .error .assert := by
  have hreach : Reach (formatGeom sized_small) (Careful (formatGeom sized_small)) ⟨entered, {1}⟩ :=
    reach_entered trivial (Or.inl (by decide))
  have hone := Finset.mem_singleton_self 1
  exact ⟨hone, workdir_stays_valid hreach hone⟩

theorem entered_blocks_owned : Own ((formatGeom sized_small).view entered.vol) :=
  (blocks_owned_once (reach_entered trivial (Or.inl (by decide))) rfl).1

set_option maxRecDepth 100000 in
theorem removed_facts : removed.vol.inodeBitmap.bits.bit (removed.mem.cwdInodeNr 1) = false ∧
    (sysGetcwd 1 512).stops removed = some .assert := by
  decide +kernel

/-- The directory somebody works in is removed. -/
theorem removed_workdir_halts : ∃ x, Reach (formatGeom sized_small) (fun _ _ => True) x ∧ 1 ∈ x.live ∧
    ¬AllocatedDir (formatGeom sized_small) x.fs (x.fs.mem.cwdInodeNr 1) ∧
    ((sysGetcwd 1 512).on x.fs).run = .error .assert := by
  have hreach := (reach_entered (C := fun _ _ => True) trivial trivial).step trivial
    (.rmdir (by decide) removed_run)
  refine ⟨⟨removed, {1}⟩, hreach, Finset.mem_singleton_self 1, fun h => ?_, run_of_stops removed_facts.2⟩
  exact absurd (h.bit.symm.trans removed_facts.1) (by decide)

end Example

end TrueOs.Fs.Workdir
