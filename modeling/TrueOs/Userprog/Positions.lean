import TrueOs.Spec.Sizes
import TrueOs.Userprog.Descriptors

/-! Where the descriptors of regular files stand in their files. -/

namespace TrueOs.Fs

open Function (update update_self update_of_ne)
open Prog

def Positions (s : Fs) : Prop :=
  ∀ k < maxFileOpen, ∀ p i, (s.mem.fileTable k).fdFlag ≠ pipeFlag → (s.mem.fileTable k).fdInode = some p →
    s.mem.inodes p = some i → (s.mem.fileTable k).fdPos ≤ i.iSize

structure Fine (s : Fs) : Prop where
  narrow : Narrow s
  positions : Positions s

def Upholds (s t : Fs) : Prop := Fine s → Fine t

instance : IsPreorder Fs Upholds where
  refl _ := id
  trans _ _ _ h h' := fun hs => h' (h hs)

section Upholds

variable {α : Type} {s t : Fs} {g p : Nat} {i : Inode}

theorem SameSizes.positions (h : SameSizes s t) (hs : Positions s) : Positions t := by
  intro k hk p i
  rw [h.files]
  intro hf hp hi
  obtain ⟨j, hj, he⟩ := exists_of_map_eq (h.size p) hi
  rw [← he]
  exact hs k hk p j hf hp hj

theorem SameSizes.upholds (h : SameSizes s t) : Upholds s t := fun hs => ⟨h.narrow hs.narrow, h.positions hs.positions⟩

theorem keeps_upholds {c : Prog Fs Buf α} (h : Keeps SameSizes c) : Keeps Upholds c :=
  fun s => (h s).mono fun _ _ ht => ht.upholds

theorem upholds_push (hi : i.iSize < 2 ^ 32) : Upholds s { s with mem := s.mem.push s.mem.fresh i } := by
  intro hs
  refine ⟨fun q j hj => ?_, fun k hk q j hf hq hj => ?_⟩
  · by_cases hqf : q = s.mem.fresh
    · subst hqf
      rw [Mem.push_inodes, update_self] at hj
      cases hj
      exact hi
    · rw [Mem.push_inodes, update_of_ne hqf] at hj
      exact hs.narrow q j hj
  · have hlt : q < s.mem.fresh := Mem.lt_fresh_of_file hk hq
    rw [Mem.push_inodes, update_of_ne (by omega)] at hj
    exact hs.positions k hk q j hf hq hj

theorem Moved.upholds {pos : Nat} (h : Moved s t g pos)
    (hle : ∀ p i, (s.mem.fileTable g).fdFlag ≠ pipeFlag → (s.mem.fileTable g).fdInode = some p →
      s.mem.inodes p = some i → pos ≤ i.iSize) : Upholds s t := by
  intro hs
  have hsame : SameSizes { s with mem := { s.mem with fileTable := t.mem.fileTable } } t := ⟨rfl, h.size⟩
  have hnew : Fine { s with mem := { s.mem with fileTable := t.mem.fileTable } } := by
    refine ⟨hs.narrow, fun k hk p i hf hp hi => ?_⟩
    dsimp only at hf hp ⊢
    rw [h.files] at hf hp ⊢
    by_cases hkg : k = g
    · subst hkg
      rw [update_self] at hf hp ⊢
      exact hle p i hf hp hi
    · rw [update_of_ne hkg] at hf hp ⊢
      exact hs.positions k hk p i hf hp hi
  exact hsame.upholds hnew

theorem keeps_inodeOpen_upholds (n : Nat) : Keeps Upholds (inodeOpen n) := by
  intro s
  rw [inodeOpen, bind_on, get_on, Res.bind]
  cases s.mem.find n with
  | some p =>
    have h : Keeps SameSizes (do
        let i ← getInode p
        setInode p (i.cnt (add32 i.iOpenCnts 1))
        return p : Prog Fs Buf Nat) := by
      refine Inner.keeps_read fun i s hi => ?_
      exact Inner.sat_setInode (.update hi rfl) (keeps_pure _)
    exact keeps_upholds h s
  | none =>
    have h : Keeps Upholds (do
        let pos ← inodeLocate n
        let inodeBuf ← ideRead pos.secLba pos.secs
        pushInode ((Inode.ofBytes inodeBuf pos.offSize).cnt 1) : Prog Fs Buf Nat) := by
      refine .bind (keeps_upholds (Inner.keeps_inodeLocate n)) fun pos => ?_
      refine .bind (keeps_upholds (Inner.keeps_ideRead _ _)) fun b => fun s => ?_
      exact upholds_push (Buf.word_lt b _)
    exact h s

theorem keeps_pcbFdInstall_sizes (cur g : Nat) : Keeps SameSizes (pcbFdInstall cur g) := by
  refine .bind keeps_get fun s => ?_
  dsimp only
  split
  · exact .bind (keeps_modify fun _ => ⟨rfl, fun _ => rfl⟩) fun _ => keeps_pure _
  · exact keeps_pure _

theorem keeps_setFile_zero (g flag : Nat) (r : Option Nat) : Keeps Upholds (setFile g ⟨0, flag, r⟩) := by
  intro s hs
  refine ⟨hs.narrow, fun k hk p i hf hp hi => ?_⟩
  by_cases hkg : k = g
  · subst hkg
    simp only [update_self, Nat.zero_le]
  · simp only [update_of_ne hkg] at hf hp ⊢
    exact hs.positions k hk p i hf hp hi

theorem keeps_fileOpen_upholds (cur n flag : Nat) : Keeps Upholds (fileOpen cur n flag) := by
  refine .bind (keeps_upholds Inner.keeps_getFreeSlotInGlobal) fun r => ?_
  cases r with
  | none => exact keeps_pure _
  | some g =>
    refine .bind (keeps_inodeOpen_upholds n) fun p => .bind (keeps_setFile_zero _ _ _) fun _ => .ite ?_ ?_
    · refine keeps_upholds (Inner.keeps_read fun i s hi => ?_)
      split
      · exact ⟨rfl, fun _ => rfl⟩
      · exact Inner.sat_setInode (.update hi rfl) (keeps_pcbFdInstall_sizes _ _)
    · exact keeps_upholds (keeps_pcbFdInstall_sizes _ _)

theorem int32_le (n : Nat) : int32 n ≤ n := by
  rw [int32]
  split <;> omega

theorem sat_fileSize_le (f : File) (s : Fs) : ((fileSize f).on s).Sat True (fun size t =>
    t = s ∧ ∀ p i, f.fdFlag ≠ pipeFlag → f.fdInode = some p → s.mem.inodes p = some i → size ≤ (i.iSize : Int)) := by
  rw [fileSize]
  cases f.fdInode with
  | none => trivial
  | some p =>
    dsimp only
    rw [ite_on]
    split
    · next hf => exact ⟨rfl, fun _ _ hc => absurd hf hc⟩
    · rw [sat_bind]
      refine (sat_getInode_eq p s).mono fun i t hi => ?_
      obtain ⟨rfl, hi⟩ := hi
      refine ⟨rfl, fun q j _ hq hj => ?_⟩
      cases hq
      cases hi.symm.trans hj
      exact int32_le _

theorem keeps_sysLseek_upholds (cur : Nat) (fd offset : Int) (whence : Nat) :
    Keeps Upholds (sysLseek cur fd offset whence) := by
  intro s
  rw [sysLseek, ite_on]
  split
  · exact id
  · rw [sat_bind, sat_assert]
    refine ⟨fun _ => ?_, fun _ => trivial⟩
    rw [sat_bind]
    refine (sat_fdLocal2Global cur fd.toNat s).mono fun g t hg => ?_
    obtain ⟨rfl, -, -⟩ := hg
    simp only [bind_on, get_on, Res.sat_bind, Res.sat_done]
    refine (sat_fileSize_le (t.mem.fileTable g) t).mono fun size u hu => ?_
    obtain ⟨rfl, hsize⟩ := hu
    generalize (if whence = 1 then offset else if whence = 2 then int32 (u.mem.fileTable g).fdPos + offset
      else size + offset) = newPos
    rw [ite_on]
    split
    · exact id
    · next hpos =>
      have hmoved : Moved u { u with mem := u.mem.seek g newPos.toNat } g newPos.toNat := ⟨rfl, fun _ => rfl⟩
      refine hmoved.upholds fun p i hf hp hi => ?_
      have := hsize p i hf hp hi
      omega

theorem keeps_getChars (size : Nat) (ioq : Ioqueue) : Keeps SameSizes (getChars size ioq) := by
  induction size generalizing ioq with
  | zero => exact keeps_pure _
  | succ size ih =>
    rw [getChars]
    refine .bind ?_ fun r => .bind (ih r.2) fun r' => keeps_pure _
    exact .ite (keeps_halt _) (keeps_pure _)

theorem keeps_putChars (buf : Buf) (size n : Nat) (ioq : Ioqueue) : Keeps SameSizes (putChars buf size n ioq) := by
  induction size generalizing n ioq with
  | zero => exact keeps_pure _
  | succ size ih => exact .bind (.ite (keeps_halt _) (keeps_pure _)) fun r => ih _ r

theorem keeps_pipeRead_sizes (cur fd count : Nat) : Keeps SameSizes (pipeRead cur fd count) := by
  refine .bind (Inner.keeps_fdLocal2Global cur fd) fun g => .bind (Inner.keeps_fileInode g) fun page => ?_
  refine .bind keeps_get fun s => ?_
  cases s.mem.pipes page with
  | none => exact keeps_halt _
  | some ioq =>
    refine .bind (keeps_getChars _ ioq) fun r => .bind ?_ fun _ => keeps_pure _
    exact keeps_modify fun _ => ⟨rfl, fun _ => rfl⟩

theorem keeps_pipeWrite_sizes (cur fd : Nat) (buf : Buf) (count : Nat) :
    Keeps SameSizes (pipeWrite cur fd buf count) := by
  refine .bind (Inner.keeps_fdLocal2Global cur fd) fun g => .bind (Inner.keeps_fileInode g) fun page => ?_
  refine .bind keeps_get fun s => ?_
  cases s.mem.pipes page with
  | none => exact keeps_halt _
  | some ioq =>
    refine .bind (keeps_putChars buf _ 0 ioq) fun r => .bind ?_ fun _ => keeps_pure _
    exact keeps_modify fun _ => ⟨rfl, fun _ => rfl⟩

theorem sat_fileRead_upholds (count : Nat) (hg : g < maxFileOpen) (hflag : (s.mem.fileTable g).fdFlag ≠ pipeFlag) :
    ((fileRead g count).on s).Sat True (fun _ t => Upholds s t) := by
  by_cases hs : Fine s
  · have hle : ∀ p i, OpenAs s g p i → (s.mem.fileTable g).fdPos ≤ i.iSize :=
      fun p i hpi => hs.positions g hg p i hflag hpi.file hpi.inode
    refine (sat_fileRead_moved hle).mono fun _ t ht => ?_
    obtain ⟨p, i, hpi, pos, hpos, ht⟩ := ht
    refine ht.upholds fun q j _ hq hj => ?_
    cases hpi.file.symm.trans hq
    cases hpi.inode.symm.trans hj
    exact hpos
  · exact (Res.sat_top trivial _).mono fun _ _ _ h => absurd h hs

theorem keeps_sysRead_upholds (cur : Nat) (kbd : Nat → UInt8) (fd : Int) (count : Nat) :
    Keeps Upholds (sysRead cur kbd fd count) := by
  intro s
  rw [sysRead, ite_on]
  split
  · exact id
  · rw [sat_bind]
    refine (sat_isPipe cur fd.toNat s).mono fun b t hb => ?_
    obtain ⟨rfl, g, hg, hb⟩ := hb
    rw [ite_on]
    split
    · exact ((keeps_upholds (keeps_pipeRead_sizes cur fd.toNat count)).bind fun _ => keeps_pure _) t
    · next hnot =>
      have hflag : (t.mem.fileTable g).fdFlag ≠ pipeFlag := by
        simpa only [hb, beq_iff_eq] using hnot
      rw [ite_on]
      split
      · exact id
      · rw [readFile, sat_bind]
        refine (sat_fdLocal2Global cur fd.toNat t).mono fun g' u hg' => ?_
        obtain ⟨rfl, -, hslot, hlt⟩ := hg'
        obtain rfl : g = g' := by
          rw [hg] at hslot
          exact Int.ofNat.inj hslot
        exact sat_fileRead_upholds count hlt hflag

end Upholds

section Writes

variable {s t : Fs} {g p size count : Nat} {i : Inode} {buf : Buf}

theorem Appended.narrow (h : Appended s t g p i.iSize count) (hs : Fine s) (hpi : OpenAs s g p i) : Narrow t := by
  intro q j hj
  have hi := hs.narrow p i hpi.inode
  have hfits := h.fits
  by_cases hqp : q = p
  · subst hqp
    have := h.size_eq hj
    omega
  · obtain ⟨j', hj', he⟩ := exists_of_map_eq (h.others q hqp) hj
    exact he ▸ hs.narrow q j' hj'

theorem Appended.positions (h : Appended s t g p i.iSize count) (hs : Fine s) (hpi : OpenAs s g p i)
    (hpos : 0 < i.iSize ∨ 0 < count) : Positions t := by
  intro k hk q j hf hq hj
  rw [h.files] at hf hq ⊢
  by_cases hkg : k = g
  · subst hkg
    rw [update_self] at hq ⊢
    cases hpi.file.symm.trans hq
    have hi := hs.narrow p i hpi.inode
    have hfits := h.fits
    simp only [add32, sub32, h.size_eq hj]
    split <;> omega
  · rw [update_of_ne hkg] at hf hq ⊢
    by_cases hqp : q = p
    · subst hqp
      have hle := hs.positions k hk q i hf hq hpi.inode
      rw [h.size_eq hj]
      omega
    · obtain ⟨j', hj', he⟩ := exists_of_map_eq (h.others q hqp) hj
      exact he ▸ hs.positions k hk q j' hf hq hj'

theorem Appended.behind (h : Appended s t g p 0 0) (hg : g < maxFileOpen)
    (hflag : (s.mem.fileTable g).fdFlag ≠ pipeFlag) (hfile : (s.mem.fileTable g).fdInode = some p) : ¬Positions t := by
  intro hpos
  obtain ⟨j, hj, hsize⟩ := Option.map_eq_some_iff.mp h.self
  have hf := h.files
  have hle := hpos g hg p j (by rw [hf, update_self]; exact hflag)
    (by rw [hf, update_self]; exact hfile) hj
  rw [hf, update_self, hsize] at hle
  dsimp only at hle
  exact absurd hle (by decide)

end Writes

inductive FileCall where
  | fileOpen (cur inodeNo flag : Nat)
  | sysWrite (cur : Nat) (fd : Int) (buf : Buf) (count : Nat)
  | sysRead (cur : Nat) (kbd : Nat → UInt8) (fd : Int) (count : Nat)
  | sysLseek (cur : Nat) (fd offset : Int) (whence : Nat)

/-- The call comes back, with `t`. -/
inductive FileStep : Fs → FileCall → Fs → Prop
  | fileOpen {s t : Fs} {cur inodeNo flag : Nat} {r : Int} :
      ((fileOpen cur inodeNo flag).on s).run = .ok (r, t) → FileStep s (.fileOpen cur inodeNo flag) t
  | sysWrite {s t : Fs} {cur : Nat} {fd : Int} {buf : Buf} {count : Nat} {r : Int} :
      ((sysWrite cur fd buf count).on s).run = .ok (r, t) → FileStep s (.sysWrite cur fd buf count) t
  | sysRead {s t : Fs} {cur : Nat} {kbd : Nat → UInt8} {fd : Int} {count : Nat} {r : Option (List UInt8)} :
      ((sysRead cur kbd fd count).on s).run = .ok (r, t) → FileStep s (.sysRead cur kbd fd count) t
  | sysLseek {s t : Fs} {cur : Nat} {fd offset : Int} {whence : Nat} {r : Int} :
      ((sysLseek cur fd offset whence).on s).run = .ok (r, t) → FileStep s (.sysLseek cur fd offset whence) t

inductive FileRun : Fs → List (Fs × FileCall) → Fs → Prop
  | nil (s : Fs) : FileRun s [] s
  | cons {s t u : Fs} {c : FileCall} {l : List (Fs × FileCall)} :
      FileStep s c t → FileRun t l u → FileRun s ((s, c) :: l) u

structure WritesTo (s : Fs) (cur : Nat) (fd : Int) (g : Nat) : Prop where
  nonneg : 0 ≤ fd
  ne_stdout : fd ≠ 1
  slot : s.mem.fdTable cur fd.toNat = g
  regular : (s.mem.fileTable g).fdFlag ≠ pipeFlag
  writable : (s.mem.fileTable g).fdFlag &&& oWronly ≠ 0 ∨ (s.mem.fileTable g).fdFlag &&& oRdwr ≠ 0

/-- 0 bytes are written to a file of 0 bytes. -/
inductive EmptyWrite (s : Fs) : FileCall → Prop
  | intro {cur g p : Nat} {fd : Int} {buf : Buf} {i : Inode} :
      WritesTo s cur fd g → OpenAs s g p i → i.iSize = 0 → EmptyWrite s (.sysWrite cur fd buf 0)

section Runs

variable {s t : Fs}

theorem emptyWrite_iff {cur g p count : Nat} {fd : Int} {buf : Buf} {i : Inode} (hw : WritesTo s cur fd g)
    (hpi : OpenAs s g p i) : EmptyWrite s (.sysWrite cur fd buf count) ↔ i.iSize = 0 ∧ count = 0 := by
  constructor
  · rintro ⟨hw', hqj, hzero⟩
    cases hw.slot.symm.trans hw'.slot
    cases hpi.file.symm.trans hqj.file
    cases hpi.inode.symm.trans hqj.inode
    exact ⟨hzero, rfl⟩
  · rintro ⟨hzero, rfl⟩
    exact ⟨hw, hpi, hzero⟩

theorem sat_fileWrite_positions {cur g count : Nat} {fd : Int} {buf : Buf} (hs : Fine s) (hw : WritesTo s cur fd g)
    (hg : g < maxFileOpen) : ((fileWrite g buf count).on s).Sat True (fun _ t =>
      Narrow t ∧ (Positions t ↔ ¬EmptyWrite s (.sysWrite cur fd buf count))) := by
  refine (sat_fileWrite_sizes fun p i hpi => hs.narrow p i hpi.inode).mono fun r t ht => ?_
  obtain ⟨p, i, hpi, ⟨-, hbig, rfl⟩ | ⟨-, -, happ⟩⟩ := ht
  · rw [emptyWrite_iff hw hpi]
    refine ⟨hs.narrow, iff_of_true hs.positions ?_⟩
    rintro ⟨hzero, rfl⟩
    rw [hzero] at hbig
    exact absurd hbig (by decide)
  · rw [emptyWrite_iff hw hpi]
    refine ⟨happ.narrow hs hpi, fun hpos => ?_, fun hno => happ.positions hs hpi (by omega)⟩
    rintro ⟨hzero, rfl⟩
    rw [hzero] at happ
    exact happ.behind hg hw.regular hpi.file hpos

theorem sat_sysWrite_positions (cur : Nat) (fd : Int) (buf : Buf) (count : Nat) (hs : Fine s) :
    ((sysWrite cur fd buf count).on s).Sat True (fun _ t =>
      Narrow t ∧ (Positions t ↔ ¬EmptyWrite s (.sysWrite cur fd buf count))) := by
  -- A call that does not come to `file_write` is no empty write.
  have helse : ∀ {t : Fs}, Upholds s t → (∀ g, ¬WritesTo s cur fd g) →
      Narrow t ∧ (Positions t ↔ ¬EmptyWrite s (.sysWrite cur fd buf count)) := by
    intro t ht hno
    refine ⟨(ht hs).narrow, iff_of_true (ht hs).positions ?_⟩
    rintro ⟨hw, -, -⟩
    exact hno _ hw
  rw [sysWrite, ite_on]
  split
  · next hneg => exact helse id fun g hw => absurd hw.nonneg (not_le.mpr hneg)
  · next hneg =>
    rw [sat_bind]
    refine (sat_isPipe cur fd.toNat s).mono fun b t hb => ?_
    obtain ⟨rfl, g, hg, rfl⟩ := hb
    have hslot : ∀ g', WritesTo t cur fd g' → g' = g := fun g' hw => Int.ofNat.inj (hw.slot.symm.trans hg)
    rw [ite_on]
    split
    · next hpipe =>
      refine (keeps_pipeWrite_sizes cur fd.toNat buf count t).mono fun _ u hu => helse hu.upholds fun g' hw => ?_
      rw [beq_iff_eq] at hpipe
      exact hw.regular (hslot g' hw ▸ hpipe)
    · next hpipe =>
      rw [beq_iff_eq] at hpipe
      rw [ite_on]
      split
      · next hone =>
        rw [consoleWrite, ite_on]
        split
        · exact helse id fun g' hw => hw.ne_stdout hone
        · trivial
      · next hone =>
        rw [sat_bind]
        refine (sat_fdLocal2Global cur fd.toNat t).mono fun g' u hg' => ?_
        obtain ⟨rfl, -, hg', hlt⟩ := hg'
        obtain rfl : g' = g := Int.ofNat.inj (hg'.symm.trans hg)
        rw [bind_on, get_on, Res.bind]
        dsimp only
        rw [ite_on]
        split
        · next hmode =>
          have hw : WritesTo u cur fd g' := ⟨by omega, hone, hg, hpipe, hmode⟩
          exact sat_fileWrite_positions hs hw hlt
        · next hmode => exact helse id fun g'' hw => hmode (hslot g'' hw ▸ hw.writable)

theorem FileStep.fine_iff {c : FileCall} (h : FileStep s c t) (hs : Fine s) :
    Narrow t ∧ (Positions t ↔ ¬EmptyWrite s c) := by
  cases h with
  | fileOpen hr =>
    have ht := (keeps_fileOpen_upholds _ _ _).of_run hr hs
    exact ⟨ht.narrow, iff_of_true ht.positions nofun⟩
  | sysWrite hr => exact (sat_sysWrite_positions _ _ _ _ hs).of_run hr
  | sysRead hr =>
    have ht := (keeps_sysRead_upholds _ _ _ _).of_run hr hs
    exact ⟨ht.narrow, iff_of_true ht.positions nofun⟩
  | sysLseek hr =>
    have ht := (keeps_sysLseek_upholds _ _ _ _).of_run hr hs
    exact ⟨ht.narrow, iff_of_true ht.positions nofun⟩

theorem file_positions_kept_iff {l : List (Fs × FileCall)} (h : FileRun s l t) (hs : Fine s) :
    ((∀ x ∈ l, Positions x.1) ∧ Positions t) ↔ ∀ x ∈ l, ¬EmptyWrite x.1 x.2 := by
  induction h with
  | nil s => simp [hs.positions]
  | @cons s u t c l hc hl ih =>
    obtain ⟨hnarrow, hu⟩ := hc.fine_iff hs
    rw [List.forall_mem_cons, List.forall_mem_cons, ← hu]
    constructor
    · rintro ⟨⟨-, hall⟩, ht⟩
      have hpos : Positions u := by
        cases hl with
        | nil => exact ht
        | cons => exact (List.forall_mem_cons.mp hall).1
      exact ⟨hpos, (ih ⟨hnarrow, hpos⟩).mp ⟨hall, ht⟩⟩
    · rintro ⟨hpos, hrest⟩
      obtain ⟨hall, ht⟩ := (ih ⟨hnarrow, hpos⟩).mpr hrest
      exact ⟨⟨hs.positions, hall⟩, ht⟩

def openEmpty : Fs where
  vol := ⟨0, 1000, ⟨0, 1000, 4096, 0, 1, 1, 2, 1, 3, 608, 611, 0, 24⟩, fun _ => 0, ⟨512, fun _ => 0⟩,
    ⟨512, fun _ => 0⟩⟩
  mem := ⟨update (fun _ => none) 1 (some ⟨6, 0, 1, true, update (fun _ => 0) 0 700⟩), [1], 0,
    update (fun _ => ⟨0, 0, none⟩) 3 ⟨0, 1, some 1⟩, fun _ => none, fun _ fd => if fd = 3 then 3 else -1,
    fun _ => 0⟩

theorem fine_openEmpty : Fine openEmpty where
  narrow p i hi := by
    have hp : p = 1 := by
      by_contra hp
      simp only [openEmpty, update_of_ne hp] at hi
      cases hi
    subst hp
    cases hi
    decide
  positions k hk p i hf hp hi := by
    have hk3 : k = 3 := by
      by_contra hk3
      simp only [openEmpty, update_of_ne hk3] at hp
      cases hp
    subst hk3
    exact Nat.zero_le _

theorem position_kept_one_byte : ∃ t, FileRun openEmpty [(openEmpty, .sysWrite 0 3 (fun _ => 65) 1)] t ∧ Positions t := by
  have hrun : FileRun openEmpty [(openEmpty, .sysWrite 0 3 (fun _ => 65) 1)] _ :=
    .cons (.sysWrite (run_of_gives (a := 1) (by decide))) (.nil _)
  exact ⟨_, hrun, ((file_positions_kept_iff hrun fine_openEmpty).mpr (by simpa using nofun)).2⟩

/-- `i_size - 1` wraps, and no byte is written that would bring the position back. -/
theorem position_of_empty_write : ∃ t, FileStep openEmpty (.sysWrite 0 3 (fun _ => 65) 0) t ∧
    (t.mem.fileTable 3).fdPos = 4294967295 ∧ ¬Positions t := by
  have hstep : FileStep openEmpty (.sysWrite 0 3 (fun _ => 65) 0) _ := .sysWrite (run_of_gives (a := 0) (by decide))
  have hempty : EmptyWrite openEmpty (.sysWrite 0 3 (fun _ => 65) 0) :=
    .intro (g := 3) ⟨by decide, by decide, rfl, by decide, by decide⟩ (p := 1) ⟨rfl, rfl⟩ rfl
  refine ⟨_, hstep, by decide, fun hpos => ?_⟩
  exact (hstep.fine_iff fine_openEmpty).2.mp hpos hempty

end Runs

end TrueOs.Fs
