import TrueOs.Fs.Format
import TrueOs.Lib.Keeps
import TrueOs.Userprog.Descriptors

/-! A descriptor that two processes share after `sys_fork`. -/

namespace TrueOs.Fs

open Function (update update_self update_of_ne)
open Prog

structure Closes (cur fd : Nat) (s t : Fs) : Prop where
  flag : ∀ k, (t.mem.fileTable k).fdFlag = (s.mem.fileTable k).fdFlag
  free : ∀ k, (s.mem.fileTable k).fdInode = none → (t.mem.fileTable k).fdInode = none
  fds : ∀ q l, ¬(q = cur ∧ l = fd) → t.mem.fdTable q l = s.mem.fdTable q l

structure SameSlots (s t : Fs) : Prop where
  flag : ∀ k, (t.mem.fileTable k).fdFlag = (s.mem.fileTable k).fdFlag
  inode : ∀ k, (t.mem.fileTable k).fdInode = (s.mem.fileTable k).fdInode
  fds : t.mem.fdTable = s.mem.fdTable

section Frames

variable {cur fd : Nat}

theorem Closes.refl (s : Fs) : Closes cur fd s s := ⟨fun _ => rfl, fun _ h => h, fun _ _ _ => rfl⟩

theorem Closes.trans {s t u : Fs} (h : Closes cur fd s t) (h' : Closes cur fd t u) :
    Closes cur fd s u :=
  ⟨fun k => (h'.flag k).trans (h.flag k), fun k hk => h'.free k (h.free k hk),
    fun q l hq => (h'.fds q l hq).trans (h.fds q l hq)⟩

theorem SameSlots.refl (s : Fs) : SameSlots s s := ⟨fun _ => rfl, fun _ => rfl, rfl⟩

theorem SameSlots.trans {s t u : Fs} (h : SameSlots s t) (h' : SameSlots t u) : SameSlots s u :=
  ⟨fun k => (h'.flag k).trans (h.flag k), fun k => (h'.inode k).trans (h.inode k),
    h'.fds.trans h.fds⟩

instance : IsPreorder Fs (Closes cur fd) where
  refl := Closes.refl
  trans _ _ _ := Closes.trans

instance : IsPreorder Fs SameSlots where
  refl := SameSlots.refl
  trans _ _ _ := SameSlots.trans

theorem SameSlots.closes {s t : Fs} (h : SameSlots s t) : Closes cur fd s t :=
  ⟨h.flag, fun k hk => (h.inode k).trans hk, fun q l _ => by rw [h.fds]⟩

theorem keeps_fdLocal2Global (cur localFd : Nat) :
    Keeps SameSlots (fdLocal2Global cur localFd : Prog Fs Buf Nat) := by
  refine Keeps.ite (.bind (keeps_get) fun s => ?_) (keeps_halt _)
  exact .bind (keeps_assert _) fun _ => keeps_pure _

theorem keeps_isPipe (cur localFd : Nat) : Keeps SameSlots (isPipe cur localFd) :=
  .bind (keeps_fdLocal2Global cur localFd) fun _ =>
    .bind (keeps_get) fun _ => keeps_pure _

theorem keeps_fileInode (g : Nat) : Keeps SameSlots (fileInode g) := by
  refine .bind (keeps_get) fun s => ?_
  split
  · exact keeps_pure _
  · exact keeps_halt _

theorem keeps_getInode (p : Nat) : Keeps SameSlots (getInode p) := by
  refine .bind (keeps_get) fun s => ?_
  split
  · exact keeps_pure _
  · exact keeps_halt _

theorem keeps_setInode (p : Nat) (i : Inode) : Keeps SameSlots (setInode p i) :=
  keeps_modify fun _ => ⟨fun _ => rfl, fun _ => rfl, rfl⟩

theorem keeps_inodeClose (p : Nat) : Keeps SameSlots (inodeClose p) :=
  .bind (keeps_getInode p) fun _ =>
    .ite (keeps_modify fun _ => ⟨fun _ => rfl, fun _ => rfl, rfl⟩) (keeps_setInode _ _)

theorem keeps_ideRead (lba cnt : Nat) : Keeps SameSlots (ideRead lba cnt) :=
  .bind (keeps_assert _) fun _ =>
    .bind (keeps_assert _) fun _ => keeps_transfer SameSlots.refl

theorem sat_movePos {g : Nat} {s : Fs} {f : File} (hi : f.fdInode = (s.mem.fileTable g).fdInode)
    (hf : f.fdFlag = (s.mem.fileTable g).fdFlag) :
    ((setFile g f : Prog Fs Buf Unit).on s).Sat True (fun _ t => SameSlots s t) := by
  refine ⟨fun k => ?_, fun k => ?_, rfl⟩ <;>
  · by_cases hk : k = g
    · subst hk
      simpa only [update_self] using by assumption
    · simp only [update_of_ne hk]

theorem keeps_addPos (g n : Nat) : Keeps SameSlots (addPos g n) := fun _ => sat_movePos rfl rfl

theorem keeps_readBlocks (p a b : Nat) : Keeps SameSlots (readBlocks p a b) := by
  have htable : ∀ (i : Inode) (f : Nat → Nat), Keeps SameSlots (do
      return withTable f (← ideRead (i.iSectors 12) 1)) := fun i f =>
    .bind (keeps_ideRead _ _) fun _ => keeps_pure _
  have hassert : ∀ (i : Inode) (f : Nat → Nat), Keeps SameSlots (do
      assert (i.iSectors 12 ≠ 0)
      return withTable f (← ideRead (i.iSectors 12) 1)) := fun i f =>
    .bind (keeps_assert _) fun _ => htable i f
  refine .bind (keeps_getInode p) fun i => ?_
  refine .ite (.ite (keeps_pure _) (htable i _)) (.ite (keeps_pure _) ?_)
  exact .ite (hassert i _) (hassert i _)

theorem keeps_readChunks (g : Nat) (all : Nat → Nat) (size turns done : Nat) :
    Keeps SameSlots (readChunks g all size turns done) := by
  induction turns generalizing done with
  | zero => exact keeps_halt _
  | succ turns ih =>
    refine .ite (.bind (keeps_get) fun s => .ite ?_ (keeps_halt _))
      (keeps_pure _)
    refine .bind (keeps_ideRead _ _) fun _ => ?_
    refine .bind (keeps_addPos _ _) fun _ => ?_
    exact .bind (ih _) fun _ => keeps_pure _

theorem keeps_fileRead (g count : Nat) : Keeps SameSlots (fileRead g count) := by
  refine .bind (keeps_fileInode g) fun p => ?_
  refine .bind (keeps_getInode p) fun i => ?_
  refine .bind (keeps_get) fun s => ?_
  refine .ite (keeps_pure _) ?_
  refine .bind (keeps_assert _) fun _ => ?_
  refine .bind (keeps_fileInode g) fun p => ?_
  refine .bind (keeps_readBlocks p _ _) fun all => ?_
  exact .bind (keeps_readChunks g all _ _ _) fun _ => keeps_pure _

theorem keeps_readFile (cur fd count : Nat) : Keeps SameSlots (readFile cur fd count) :=
  .bind (keeps_fdLocal2Global cur fd) fun g => keeps_fileRead g count

end Frames

section Close

variable {cur fd k : Nat}

theorem Keeps.closes {α : Type} {c : Prog Fs Buf α} (h : Keeps SameSlots c) : Keeps (Closes cur fd) c :=
  fun s => (h s).mono fun _ _ ht => ht.closes

theorem keeps_clearSlot {g : Nat} {f : Fs → File} (hf : ∀ s, (f s).fdFlag = (s.mem.fileTable g).fdFlag)
    (hi : ∀ s, (s.mem.fileTable g).fdInode = none → (f s).fdInode = none) :
    Keeps (Closes cur fd) (do setFile g (f (← get)) : Prog Fs Buf Unit) := by
  refine fun s => ⟨fun k => ?_, fun k hk => ?_, fun _ _ _ => rfl⟩
  · by_cases h : k = g
    · subst h
      simpa only [update_self] using hf s
    · simp only [update_of_ne h]
  · by_cases h : k = g
    · subst h
      simpa only [update_self] using hi s hk
    · simpa only [update_of_ne h] using hk

theorem keeps_fileClose (g : Nat) : Keeps (Closes cur fd) (fileClose g) := by
  refine .bind (Keeps.closes (keeps_fileInode g)) fun p => ?_
  refine .bind (Keeps.closes (keeps_getInode p)) fun i => ?_
  refine .bind (Keeps.closes (keeps_setInode p _)) fun _ => ?_
  refine .bind (Keeps.closes (keeps_inodeClose p)) fun _ => ?_
  exact fun s => keeps_clearSlot (g := g) (f := fun s => { s.mem.fileTable g with fdInode := none })
    (fun _ => rfl) (fun _ _ => rfl) s

theorem keeps_closePipe (g : Nat) : Keeps (Closes cur fd) (closePipe g) := by
  intro s
  rw [closePipe, sat_bind, sat_get]
  dsimp only
  split
  · rw [sat_bind]
    refine (keeps_fileInode g s).mono fun page t ht => ?_
    rw [sat_bind, sat_modify]
    refine ⟨fun k => ?_, fun k hk => ?_, fun q l _ => by rw [← ht.fds]⟩
    · by_cases h : k = g
      · subst h
        simp only [update_self]
      · simpa only [update_of_ne h] using ht.flag k
    · by_cases h : k = g
      · subst h
        simp only [update_self]
      · simpa only [update_of_ne h] using (ht.inode k).trans hk
  · refine ⟨fun k => ?_, fun k hk => ?_, fun _ _ _ => rfl⟩
    · by_cases h : k = g
      · subst h
        simp only [update_self]
      · simp only [update_of_ne h]
    · by_cases h : k = g
      · subst h
        simpa only [update_self] using hk
      · simpa only [update_of_ne h] using hk

theorem keeps_setFd (v : Int) : Keeps (Closes cur fd) (setFd cur fd v) := by
  refine keeps_modify fun s => ⟨fun _ => rfl, fun _ h => h, fun q l hq => ?_⟩
  by_cases h : q = cur
  · subst h
    have hl : l ≠ fd := fun hl => hq ⟨rfl, hl⟩
    simp only [update_self, update_of_ne hl]
  · simp only [update_of_ne h]

theorem keeps_sysClose (cur fd : Nat) : Keeps (Closes cur fd) (sysClose cur fd) := by
  refine .ite ?_ (keeps_pure _)
  refine .bind (Keeps.closes (keeps_fdLocal2Global cur _)) fun g => ?_
  refine .bind (Keeps.closes (keeps_isPipe cur _)) fun b => .ite ?_ ?_
  · refine .bind (keeps_closePipe g) fun _ => ?_
    exact .bind (keeps_setFd _) fun _ => keeps_pure _
  · refine .bind (keeps_fileClose g) fun _ => ?_
    exact .bind (keeps_setFd _) fun _ => keeps_pure _

theorem sat_fdLocal2Global_eq {s : Fs} {E : Prop} (hfd : s.mem.fdTable cur fd = k)
    (h8 : fd < 8) (hk : E ∨ k < 32) {Q : Nat → Fs → Prop} (hQ : Q k s) :
    ((fdLocal2Global cur fd : Prog Fs Buf Nat).on s).Sat E Q := by
  rw [fdLocal2Global, if_pos h8, sat_bind, sat_get]
  simp only [sat_bind, sat_assert, hfd, decide_eq_true_eq, decide_eq_false_iff_not]
  refine ⟨fun _ => hQ, fun hn => hk.resolve_right fun hlt => hn ⟨by omega, ?_⟩⟩
  simp only [maxFileOpen]
  omega

theorem sat_isPipe_eq {s : Fs} {E : Prop} (hfd : s.mem.fdTable cur fd = k)
    (h8 : fd < 8) (hk : E ∨ k < 32) {Q : Bool → Fs → Prop}
    (hQ : Q ((s.mem.fileTable k).fdFlag == pipeFlag) s) : ((isPipe cur fd).on s).Sat E Q := by
  rw [isPipe, sat_bind]
  exact sat_fdLocal2Global_eq hfd h8 hk hQ

theorem sat_fileClose_free (g : Nat) (s : Fs) : ((fileClose g).on s).Sat True
    (fun _ t => (t.mem.fileTable g).fdInode = none) := by
  rw [fileClose, sat_bind]
  refine (Res.sat_top trivial _).mono fun p t _ => ?_
  rw [sat_bind]
  refine (Res.sat_top trivial _).mono fun i t _ => ?_
  rw [sat_bind]
  refine (Res.sat_top trivial _).mono fun _ t _ => ?_
  rw [sat_bind]
  refine (Res.sat_top trivial _).mono fun _ t _ => ?_
  simp only [sat_bind, sat_get, setFile, sat_modify, sat_pure,
    update_self]

theorem sat_sysClose_frees {s : Fs} (hfd : s.mem.fdTable cur fd = k) (h3 : 3 ≤ fd) (h8 : fd < 8)
    (hflag : (s.mem.fileTable k).fdFlag ≠ pipeFlag) : ((sysClose cur fd).on s).Sat True
      (fun _ t => (t.mem.fileTable k).fdInode = none) := by
  rw [sysClose, if_pos (by omega), Int.toNat_natCast, sat_bind]
  apply sat_fdLocal2Global_eq hfd h8 (Or.inl trivial)
  rw [sat_bind]
  apply sat_isPipe_eq hfd h8 (Or.inl trivial)
  rw [if_neg (by simpa using hflag), sat_bind]
  exact (sat_fileClose_free k s).mono fun _ t ht => ht

theorem sat_sysClose_faults {s : Fs} (hfd : s.mem.fdTable cur fd = k) (h3 : 3 ≤ fd) (h8 : fd < 8)
    (hflag : (s.mem.fileTable k).fdFlag ≠ pipeFlag) (hfree : (s.mem.fileTable k).fdInode = none) :
    ((sysClose cur fd).on s).Sat True (fun _ _ => False) := by
  rw [sysClose, if_pos (by omega), Int.toNat_natCast, sat_bind]
  apply sat_fdLocal2Global_eq hfd h8 (Or.inl trivial)
  rw [sat_bind]
  apply sat_isPipe_eq hfd h8 (Or.inl trivial)
  rw [if_neg (by simpa using hflag), sat_bind, fileClose, sat_bind, fileInode,
    sat_bind, sat_get, hfree]
  trivial

end Close

section Exit

variable {cur fd k : Nat}

structure Exits (cur : Nat) (s t : Fs) : Prop where
  flag : ∀ k, (t.mem.fileTable k).fdFlag = (s.mem.fileTable k).fdFlag
  free : ∀ k, (s.mem.fileTable k).fdInode = none → (t.mem.fileTable k).fdInode = none
  fds : ∀ q, q ≠ cur → t.mem.fdTable q = s.mem.fdTable q

instance : IsPreorder Fs (Exits cur) where
  refl _ := ⟨fun _ => rfl, fun _ h => h, fun _ _ => rfl⟩
  trans _ _ _ h h' := ⟨fun k => (h'.flag k).trans (h.flag k), fun k hk => h'.free k (h.free k hk),
    fun q hq => (h'.fds q hq).trans (h.fds q hq)⟩

theorem Closes.exits {s t : Fs} (h : Closes cur fd s t) : Exits cur s t :=
  ⟨h.flag, h.free, fun q hq => funext fun l => h.fds q l fun he => hq he.1⟩

theorem keeps_exits {α : Type} {c : Prog Fs Buf α} (h : Keeps (Closes cur fd) c) : Keeps (Exits cur) c :=
  fun s => (h s).mono fun _ _ ht => ht.exits

theorem keeps_closeFiles (cur : Nat) (ls : List Nat) : Keeps (Exits cur) (closeFiles cur ls) := by
  induction ls with
  | nil => exact keeps_pure _
  | cons l ls ih =>
    refine .bind keeps_get fun s => .ite ?_ ih
    refine .bind (keeps_exits (Keeps.closes (keeps_isPipe cur l) : Keeps (Closes cur l) _)) fun b => .ite ?_ ?_
    · refine .bind (keeps_exits (Keeps.closes (keeps_fdLocal2Global cur l) : Keeps (Closes cur l) _)) fun g => ?_
      exact .bind (keeps_exits (keeps_closePipe g : Keeps (Closes cur l) _)) fun _ => ih
    · exact .bind (keeps_exits (keeps_sysClose cur l)) fun _ => ih

theorem sat_closeFiles {P Q : Fs → Prop} (hP : ∀ s t, Exits cur s t → P s → P t)
    (hQ : ∀ s t, Exits cur s t → Q s → Q t)
    (hclose : ∀ t : Fs, t.mem.fdTable cur fd = k → (t.mem.fileTable k).fdFlag ≠ pipeFlag → P t →
      ((sysClose cur fd).on t).Sat True (fun _ => Q))
    (ls : List Nat) (hls : ∀ l ∈ ls, 3 ≤ l ∧ l < 8) (hmem : fd ∈ ls) {s : Fs}
    (hfd : s.mem.fdTable cur fd = k) (hflag : (s.mem.fileTable k).fdFlag ≠ pipeFlag) (hs : P s) :
    ((closeFiles cur ls).on s).Sat True (fun _ => Q) := by
  induction ls generalizing s with
  | nil => cases hmem
  | cons l ls ih =>
    obtain ⟨h3, h8⟩ := hls l List.mem_cons_self
    have hrest : ∀ l ∈ ls, 3 ≤ l ∧ l < 8 := fun x hx => hls x (List.mem_cons_of_mem l hx)
    rw [closeFiles, sat_bind, sat_get]
    by_cases hl : l = fd
    · subst hl
      rw [if_pos (by rw [hfd]; omega), bind_on, Res.sat_bind]
      apply sat_isPipe_eq hfd h8 (Or.inl trivial)
      rw [if_neg (by simpa using hflag), sat_bind]
      refine (hclose s hfd hflag hs).mono fun _ t ht => ?_
      exact (keeps_closeFiles cur ls t).mono fun _ u hu => hQ t u hu ht
    · -- before its turn the descriptor still refers to the slot
      have hmem' : fd ∈ ls := (List.mem_cons.mp hmem).resolve_left (Ne.symm hl)
      have hne : ¬(cur = cur ∧ fd = l) := fun h => hl h.2.symm
      have hstep : ∀ t, Closes cur l s t →
          ((closeFiles cur ls).on t).Sat True (fun _ => Q) := by
        intro t ht
        refine ih hrest hmem' ?_ ?_ (hP s t ht.exits hs)
        · rw [ht.fds cur fd hne, hfd]
        · rwa [ht.flag k]
      split
      · rw [sat_bind]
        refine (keeps_isPipe cur l s).mono fun b t ht => ?_
        cases b with
        | true =>
          rw [if_pos rfl, sat_bind]
          refine (keeps_fdLocal2Global cur l t).mono fun g u hu => ?_
          rw [sat_bind]
          refine ((keeps_closePipe g : Keeps (Closes cur l) _) u).mono fun _ v hv => ?_
          exact hstep v ((ht.trans hu).closes.trans hv)
        | false =>
          rw [if_neg Bool.false_ne_true, sat_bind]
          exact (keeps_sysClose cur l t).mono fun _ v hv => hstep v (ht.closes.trans hv)
      · exact ih hrest hmem' hfd hflag hs

theorem mem_localFds {l : Nat} : l ∈ localFds ↔ 3 ≤ l ∧ l < 8 := by
  simp only [localFds, maxFilesOpenPerProc, List.mem_range'_1]

theorem sat_exitFiles_frees {s : Fs} (h3 : 3 ≤ fd) (h8 : fd < 8) (hfd : s.mem.fdTable cur fd = k)
    (hflag : (s.mem.fileTable k).fdFlag ≠ pipeFlag) : ((exitFiles cur).on s).Sat True
      (fun _ t => (t.mem.fileTable k).fdInode = none) :=
  sat_closeFiles (P := fun _ => True) (fun _ _ _ _ => trivial) (fun _ _ h hs => h.free k hs)
    (fun _ hfd hflag _ => sat_sysClose_frees hfd h3 h8 hflag) localFds
    (fun _ => mem_localFds.mp) (mem_localFds.mpr ⟨h3, h8⟩) hfd hflag trivial

theorem sat_exitFiles_faults {s : Fs} (h3 : 3 ≤ fd) (h8 : fd < 8) (hfd : s.mem.fdTable cur fd = k)
    (hflag : (s.mem.fileTable k).fdFlag ≠ pipeFlag) (hfree : (s.mem.fileTable k).fdInode = none) :
    ((exitFiles cur).on s).Sat True (fun _ _ => False) :=
  sat_closeFiles (P := fun t => (t.mem.fileTable k).fdInode = none) (fun _ _ h hs => h.free k hs)
    (fun _ _ _ h => h) (fun _ hfd hflag hfree => sat_sysClose_faults hfd h3 h8 hflag hfree) localFds
    (fun _ => mem_localFds.mp) (mem_localFds.mpr ⟨h3, h8⟩) hfd hflag hfree

end Exit

section Fork

theorem keeps_updateInodeOpenCnts (cur child : Nat) (ls : List Nat) :
    Keeps SameSlots (updateInodeOpenCnts cur child ls) := by
  induction ls with
  | nil => exact keeps_pure _
  | cons l ls ih =>
    refine .bind keeps_get fun s => .bind (keeps_assert _) fun _ => .ite ?_ ih
    refine .bind (keeps_isPipe cur l) fun b => .ite ?_ ?_
    · refine fun t => ?_
      rw [sat_bind, sat_get, sat_bind]
      refine Res.Sat.mono (Q := fun _ u => SameSlots t u) (sat_movePos rfl rfl) fun _ u hu => ?_
      exact (ih u).mono fun _ v hv => hu.trans hv
    · refine .bind (keeps_fileInode _) fun p => .bind (keeps_getInode p) fun i => ?_
      exact .bind (keeps_setInode _ _) fun _ => ih

theorem forkFiles_run {p c : Nat} {s t : Fs} (h : ((forkFiles p c).on s).run = .ok ((), t)) :
    (∀ k, (t.mem.fileTable k).fdFlag = (s.mem.fileTable k).fdFlag) ∧
      (∀ k, (t.mem.fileTable k).fdInode = (s.mem.fileTable k).fdInode) ∧
      t.mem.fdTable = update s.mem.fdTable c (s.mem.fdTable p) := by
  have hk := keeps_updateInodeOpenCnts p c localFds _ |>.of_run h
  exact ⟨hk.flag, hk.inode, hk.fds⟩

end Fork

section Runs

/-- What the two processes do after the fork; `fd` is the descriptor they share. -/
inductive Event
  | close (who : Nat)
  | exit (who : Nat)
  | read (who fd count : Nat)
  deriving DecidableEq

def Event.who : Event → Nat
  | .close who | .exit who | .read who _ _ => who

def Event.prog (fd : Nat) : Event → Prog Fs Buf Unit
  | .close who => do
    let _ ← sysClose who fd
  | .exit who => exitFiles who
  | .read who l count => do
    let _ ← readFile who l count

/-- The events `evs` lead from `s` to `t`, every call returning. -/
inductive Run (fd : Nat) (s : Fs) : List Event → Fs → Prop
  | nil : Run fd s [] s
  | snoc {evs : List Event} {t u : Fs} (h : Run fd s evs t) (e : Event)
      (hr : ((e.prog fd).on t).run = .ok ((), u)) : Run fd s (evs ++ [e]) u

def Gone (who : Nat) (evs : List Event) : Prop := Event.close who ∈ evs ∨ Event.exit who ∈ evs

def Event.isRead : Event → Bool
  | .read _ _ _ => true
  | _ => false

def openCnts (t : Fs) (x : Nat) : Nat := ((t.mem.inodes x).map Inode.iOpenCnts).getD 0

/-- Who still has the descriptor finds the inode `x` behind it, and slot `k` is free and
the count back at `pre` exactly when both are gone. -/
structure Survives (p c fd k x pre : Nat) (evs : List Event) (t : Fs) : Prop where
  kept : ∀ who, who = p ∨ who = c → ¬Gone who evs →
    ∃ g : Nat, t.mem.fdTable who fd = g ∧ (t.mem.fileTable g).fdInode = some x
  last : (t.mem.fileTable k).fdInode = none ∧ openCnts t x = pre ↔ Gone p evs ∧ Gone c evs

variable {p c fd k x : Nat}

structure Intact (p c fd k x : Nat) (evs : List Event) (t : Fs) : Prop where
  parent : t.mem.fdTable p fd = k
  child : t.mem.fdTable c fd = k
  inode : (t.mem.fileTable k).fdInode = some x
  reads : ∀ e ∈ evs, e.isRead = true

structure Broken (p c fd k : Nat) (evs : List Event) (t : Fs) : Prop where
  inode : (t.mem.fileTable k).fdInode = none
  other : ∃ who, (who = p ∨ who = c) ∧ ¬Gone who evs ∧ t.mem.fdTable who fd = k
  closed : ∃ e ∈ evs, e.isRead = false

theorem gone_snoc {who : Nat} {evs : List Event} {e : Event} (h : ¬Gone who evs)
    (he : e.isRead = true ∨ e.who ≠ who) : ¬Gone who (evs ++ [e]) := by
  rintro (hm | hm)
  all_goals
    rcases List.mem_append.mp hm with hm | hm
    · exact h (by first | exact Or.inl hm | exact Or.inr hm)
    · obtain rfl := List.mem_singleton.mp hm
      rcases he with he | he
      · cases he
      · exact he rfl

theorem Intact.read {evs : List Event} {t u : Fs} (h : Intact p c fd k x evs t) {e : Event}
    (he : e.isRead = true) (hu : SameSlots t u) : Intact p c fd k x (evs ++ [e]) u where
  parent := by rw [hu.fds, h.parent]
  child := by rw [hu.fds, h.child]
  inode := (hu.inode k).trans h.inode
  reads e' he' := by
    rcases List.mem_append.mp he' with hm | hm
    · exact h.reads e' hm
    · rw [List.mem_singleton.mp hm, he]

theorem Intact.close {evs : List Event} {t u : Fs} (h : Intact p c fd k x evs t) (hpc : p ≠ c)
    {e : Event} (he : e.isRead = false) (hwho : e.who = p ∨ e.who = c) (hu : Exits e.who t u)
    (hfree : (u.mem.fileTable k).fdInode = none) : Broken p c fd k (evs ++ [e]) u where
  inode := hfree
  closed := ⟨e, List.mem_append_right evs List.mem_cons_self, he⟩
  other := by
    have hnot : ∀ who, ¬Gone who evs := by
      rintro who (hm | hm)
      · exact absurd (h.reads _ hm) Bool.false_ne_true
      · exact absurd (h.reads _ hm) Bool.false_ne_true
    rcases hwho with hw | hw
    · refine ⟨c, Or.inr rfl, gone_snoc (hnot c) (Or.inr (hw ▸ hpc)), ?_⟩
      rw [hu.fds c (hw ▸ hpc.symm), h.child]
    · refine ⟨p, Or.inl rfl, gone_snoc (hnot p) (Or.inr (hw ▸ hpc.symm)), ?_⟩
      rw [hu.fds p (hw ▸ hpc), h.parent]

theorem Broken.step {evs : List Event} {t u : Fs} (h : Broken p c fd k evs t) {e : Event}
    (hfree : (u.mem.fileTable k).fdInode = none)
    (hother : ∀ who, t.mem.fdTable who fd = k → (e.isRead = true ∨ e.who ≠ who) ∧
      u.mem.fdTable who fd = t.mem.fdTable who fd) : Broken p c fd k (evs ++ [e]) u where
  inode := hfree
  closed := by
    obtain ⟨e', he', hc⟩ := h.closed
    exact ⟨e', List.mem_append_left _ he', hc⟩
  other := by
    obtain ⟨who, hw, hg, hk⟩ := h.other
    obtain ⟨he, hu⟩ := hother who hk
    exact ⟨who, hw, gone_snoc hg he, hu.trans hk⟩

theorem Event.read_run {e : Event} (he : e.isRead = true) {t u : Fs}
    (hr : ((e.prog fd).on t).run = .ok ((), u)) : SameSlots t u := by
  cases e with
  | close who => cases he
  | exit who => cases he
  | read who l count => exact (keeps_readFile who l count |>.bind fun _ => keeps_pure _).of_run hr

theorem Event.close_run {e : Event} (he : e.isRead = false) (h3 : 3 ≤ fd) (h8 : fd < 8) {t u : Fs}
    (hflag : (t.mem.fileTable k).fdFlag ≠ pipeFlag) (hr : ((e.prog fd).on t).run = .ok ((), u)) :
    Exits e.who t u ∧ (t.mem.fdTable e.who fd = k → (u.mem.fileTable k).fdInode = none ∧
      (t.mem.fileTable k).fdInode ≠ none) := by
  cases e with
  | close who =>
    have hrel : Keeps (Exits who) ((Event.close who).prog fd) :=
      .bind (keeps_exits (keeps_sysClose who fd)) fun _ => keeps_pure _
    refine ⟨hrel.of_run hr, fun hk => ⟨?_, fun hnone => ?_⟩⟩
    · have := sat_sysClose_frees hk h3 h8 hflag
      exact Res.Sat.of_run (Q := fun _ t => (t.mem.fileTable k).fdInode = none)
        ((Res.sat_bind _ _).mpr this) hr
    · have := sat_sysClose_faults hk h3 h8 hflag hnone
      exact Res.Sat.of_run (Q := fun _ _ => False) ((Res.sat_bind _ _).mpr this) hr
  | exit who =>
    refine ⟨(keeps_closeFiles who localFds).of_run hr, fun hk => ⟨?_, fun hnone => ?_⟩⟩
    · exact (sat_exitFiles_frees h3 h8 hk hflag).of_run hr
    · exact (sat_exitFiles_faults h3 h8 hk hflag hnone).of_run hr
  | read who l count => cases he

theorem Run.intact_or_broken (hpc : p ≠ c) (h3 : 3 ≤ fd) (h8 : fd < 8) {s t : Fs} {evs : List Event}
    (hs : Intact p c fd k x [] s) (hflag : (s.mem.fileTable k).fdFlag ≠ pipeFlag)
    (hwho : ∀ e ∈ evs, e.who = p ∨ e.who = c) (hr : Run fd s evs t) :
    (t.mem.fileTable k).fdFlag ≠ pipeFlag ∧
      (Intact p c fd k x evs t ∨ Broken p c fd k evs t) := by
  induction hr with
  | nil => exact ⟨hflag, Or.inl hs⟩
  | @snoc evs t u _ e hstep ih =>
    obtain ⟨hf, hcase⟩ := ih fun e he => hwho e (List.mem_append_left _ he)
    have hw := hwho e (List.mem_append_right evs List.mem_cons_self)
    cases he : e.isRead with
    | true =>
      have hu := Event.read_run he hstep
      refine ⟨by rwa [hu.flag k], ?_⟩
      rcases hcase with h | h
      · exact Or.inl (h.read he hu)
      · exact Or.inr (h.step ((hu.inode k).trans h.inode) fun who _ => ⟨Or.inl he, by rw [hu.fds]⟩)
    | false =>
      obtain ⟨hu, hcl⟩ := Event.close_run he h3 h8 hf hstep
      refine ⟨by rwa [hu.flag k], Or.inr ?_⟩
      rcases hcase with h | h
      · have hk : t.mem.fdTable e.who fd = k := by
          rcases hw with hw | hw
          · rw [hw, h.parent]
          · rw [hw, h.child]
        exact h.close hpc he hw hu (hcl hk).1
      · refine h.step (hu.free k h.inode) fun who hk => ?_
        have hne : e.who ≠ who := fun heq => (hcl (heq ▸ hk)).2 h.inode
        exact ⟨Or.inr hne, by rw [hu.fds who hne.symm]⟩

def created : Fs := Prog.after (do
  filesysInit (fun _ => 0)
  sysOpen ⟨⟨fun _ => 0, 0, 0⟩, fun _ => 0, fun _ => 0⟩ 1 [slash, 102] 6) (bootState 63 1000 fun _ => 0)

def forked : Fs := (forkFiles 1 2).after created

set_option maxRecDepth 100000 in
theorem created_facts : created.mem.fdTable 1 3 = (3 : Nat) ∧
    (created.mem.fileTable 3).fdInode = some 2 ∧ (created.mem.fileTable 3).fdFlag ≠ pipeFlag ∧
    (forkFiles 1 2).returns created = true ∧
    (Event.prog 3 (.read 1 3 1)).returns forked = true ∧
    (Event.prog 3 (.close 2)).returns forked = true := by
  decide

theorem created_fork : ((forkFiles 1 2).on created).run = .ok ((), forked) :=
  run_after created_facts.2.2.2.1

/-- The child closes, and its parent is left with a slot that has no inode. -/
theorem child_close_breaks_parent : ∃ t, Run 3 forked [.close 2] t ∧ ¬Gone 1 [.close 2] ∧
    t.mem.fdTable 1 3 = (3 : Nat) ∧ (t.mem.fileTable 3).fdInode = none ∧
    ¬Survives 1 2 3 3 2 (openCnts created 2 - 1) [.close 2] t := by
  obtain ⟨hfd, hk, hflag, -, -, hclose⟩ := created_facts
  obtain ⟨hflags, hinodes, hfds⟩ := forkFiles_run created_fork
  have hs : Intact 1 2 3 3 2 [] forked := by
    refine ⟨?_, ?_, (hinodes 3).trans hk, fun _ he => absurd he List.not_mem_nil⟩
    · rw [hfds, update_of_ne (by decide), hfd]
    · rw [hfds, update_self, hfd]
  have hrun : Run 3 forked ([] ++ [.close 2]) _ := .snoc .nil (.close 2) (run_after hclose)
  have hgone : ¬Gone 1 [.close 2] := by
    rintro (h | h)
    · cases h with | tail _ h => cases h
    · cases h with | tail _ h => cases h
  obtain ⟨-, h | h⟩ := hrun.intact_or_broken (by decide) (by decide) (by decide) hs (by rwa [hflags 3])
    (fun e he => Or.inr (by rw [List.mem_singleton.mp he]; rfl))
  · exact absurd (h.reads _ List.mem_cons_self) Bool.false_ne_true
  · obtain ⟨hu, -⟩ := Event.close_run (e := .close 2) rfl (k := 3) (by decide) (by decide)
      (by rwa [hflags 3]) (run_after hclose)
    have hp := hu.fds 1 (by decide)
    have hfd' : _ = ((3 : Nat) : Int) := (congrFun hp 3).trans hs.parent
    refine ⟨_, hrun, hgone, hfd', h.inode, fun hsv => ?_⟩
    obtain ⟨g, hg, hx⟩ := hsv.kept 1 (Or.inl rfl) hgone
    have hgk : g = 3 := by
      rw [hfd'] at hg
      omega
    rw [hgk, h.inode] at hx
    cases hx

/-- A shared descriptor of a regular file survives exactly as long as nobody closes it. -/
theorem descriptor_survives_iff {s₀ s t : Fs} {evs : List Event} (hpc : p ≠ c)
    (h3 : 3 ≤ fd) (h8 : fd < 8) (hfd : s₀.mem.fdTable p fd = k)
    (hk : (s₀.mem.fileTable k).fdInode = some x) (hflag : (s₀.mem.fileTable k).fdFlag ≠ pipeFlag)
    (hfork : ((forkFiles p c).on s₀).run = .ok ((), s))
    (hwho : ∀ e ∈ evs, e.who = p ∨ e.who = c) (hr : Run fd s evs t) :
    Survives p c fd k x (openCnts s₀ x - 1) evs t ↔ ∀ e ∈ evs, e.isRead = true := by
  obtain ⟨hflags, hinodes, hfds⟩ := forkFiles_run hfork
  have hs : Intact p c fd k x [] s := by
    refine ⟨?_, ?_, (hinodes k).trans hk, fun _ he => absurd he List.not_mem_nil⟩
    · rw [hfds, update_of_ne hpc, hfd]
    · rw [hfds, update_self, hfd]
  obtain ⟨-, h | h⟩ := hr.intact_or_broken hpc h3 h8 hs (by rwa [hflags k]) hwho
  · refine ⟨fun _ => h.reads, fun _ => ⟨fun who hw _ => ⟨k, ?_, h.inode⟩, ?_⟩⟩
    · rcases hw with rfl | rfl
      · exact h.parent
      · exact h.child
    · refine ⟨fun hn => ?_, fun hg => ?_⟩
      · rw [h.inode] at hn
        cases hn.1
      · rcases hg.1 with hm | hm
        · exact absurd (h.reads _ hm) Bool.false_ne_true
        · exact absurd (h.reads _ hm) Bool.false_ne_true
  · refine ⟨fun hsv => ?_, fun hreads => ?_⟩
    · obtain ⟨who, hw, hg, hfdw⟩ := h.other
      obtain ⟨g, hg', hx⟩ := hsv.kept who hw hg
      have hgk : g = k := by
        rw [hfdw] at hg'
        omega
      rw [hgk, h.inode] at hx
      cases hx
    · obtain ⟨e, he, hc⟩ := h.closed
      rw [hreads e he] at hc
      cases hc

/-- The parent reads while both still have the descriptor. -/
theorem read_keeps_descriptor : ∃ t, Run 3 forked [.read 1 3 1] t ∧
    Survives 1 2 3 3 2 (openCnts created 2 - 1) [.read 1 3 1] t := by
  obtain ⟨hfd, hk, hflag, -, hread, -⟩ := created_facts
  have hrun : Run 3 forked ([] ++ [.read 1 3 1]) _ := .snoc .nil (.read 1 3 1) (run_after hread)
  refine ⟨_, hrun, (descriptor_survives_iff (by decide) (by decide) (by decide) hfd hk hflag
    created_fork ?_ hrun).mpr ?_⟩
  · intro e he
    rw [List.mem_singleton.mp he]
    exact Or.inl rfl
  · intro e he
    rw [List.mem_singleton.mp he]
    rfl

end Runs

end TrueOs.Fs
