import TrueOs.Lib.Ghost
import TrueOs.Spec.Mount
import TrueOs.Userprog.Calls
import TrueOs.Userprog.Pipes
import TrueOs.Userprog.Reap

/-! When a call on a pipe comes back. -/

namespace TrueOs.Fs

open Function (update update_self update_of_ne)
open Prog Fs.Shell

/-- The write comes back with as many bytes as there was room for, and they stand behind those in the ring. -/
def WritesRoom (cur fd page : Nat) (q : List UInt8) (buf : Buf) (count : Nat) (s : Fs) : Prop :=
  ∃ ioq, Holds ioq (q ++ (List.range (min count (bufsize - 1 - q.length))).map buf) ∧
    ((pipeWrite cur fd buf count).on s).run = .ok ((min count (bufsize - 1 - q.length) : Nat),
      { s with mem.pipes := update s.mem.pipes page (some ioq) })

section Write

variable {s : Fs} {cur fd g page count : Nat} {ioq : Ioqueue} {q : List UInt8} {buf : Buf}

def putSize (page size : Nat) (buf : Buf) (ioq : Ioqueue) : Prog Fs Buf Int := do
  let ioq ← putChars buf size 0 ioq
  modify (fun s => { s with mem.pipes := update s.mem.pipes page (some ioq) })
  return size

theorem run_fdLocal2Global (hg : openSlot s.mem cur fd = some g) :
    ((fdLocal2Global cur fd : Prog Fs Buf Nat).on s).run = .ok (g, s) := by
  rw [openSlot] at hg
  split at hg
  · next hv =>
    obtain ⟨-, h8, h0, h32⟩ := hv
    rw [Int.toNat_natCast] at h0 h32 hg
    obtain rfl := Option.some.inj hg
    rw [fdLocal2Global, if_pos (show fd < maxFilesOpenPerProc by simp only [maxFilesOpenPerProc]; omega)]
    simp [Prog.assert, Res.bind, Res.run, maxFileOpen, h0, h32]
  · cases hg

theorem run_fileInode (hp : (s.mem.fileTable g).fdInode = some page) :
    ((fileInode g).on s).run = .ok (page, s) := by
  simp [fileInode, Res.bind, Res.run, hp]

theorem pipeWrite_run (hg : openSlot s.mem cur fd = some g) (hp : (s.mem.fileTable g).fdInode = some page)
    (hq : s.mem.pipes page = some ioq) : ((pipeWrite cur fd buf count).on s).run =
      ((putSize page (min count (bufsize - ioqLength ioq)) buf ioq).on s).run := by
  have hsize : (if count < bufsize - ioqLength ioq then count else bufsize - ioqLength ioq) =
      min count (bufsize - ioqLength ioq) := by
    split <;> omega
  rw [pipeWrite, run_seq (run_fdLocal2Global hg), run_seq (run_fileInode hp), run_seq (a := s) (t := s) rfl, hq]
  dsimp only
  rw [hsize]
  rfl

theorem putChars_pure (h : Holds ioq q) (buf : Buf) (size k : Nat) (hroom : q.length + size < bufsize) :
    ∃ ioq', putChars buf size k ioq = pure ioq' ∧ Holds ioq' (q ++ (List.range' k size).map buf) := by
  induction size generalizing k ioq q with
  | zero => exact ⟨ioq, rfl, by simpa using h⟩
  | succ size ih =>
    have hfull : ¬ioqFull ioq = true := fun hf => by
      have := h.full.mp hf
      omega
    have hput := h.put (by simpa using hfull) (buf k)
    obtain ⟨ioq', hrun, hq'⟩ := ih hput (k + 1) (by rw [List.length_append, List.length_singleton]; omega)
    refine ⟨ioq', ?_, ?_⟩
    · rw [putChars, ioqPutchar, if_neg hfull, pure_bind]
      exact hrun
    · rw [List.range'_succ, List.map_cons, List.append_cons]
      exact hq'

theorem pipe_write_iff (hg : openSlot s.mem cur fd = some g) (hp : (s.mem.fileTable g).fdInode = some page)
    (hq : s.mem.pipes page = some ioq) (h : Holds ioq q) (buf : Buf) (count : Nat) :
    WritesRoom cur fd page q buf count s ↔ q.length + count < bufsize := by
  have hlt := h.lt
  rw [WritesRoom, pipeWrite_run hg hp hq, h.length]
  constructor
  · rintro ⟨ioq', -, hrun⟩
    -- a call that comes back has found room for each byte it meant to write
    have hret : Returns (putSize page (min count (bufsize - q.length)) buf ioq) s := ⟨_, hrun⟩
    have hroom := (returns_putChars h fun _ => returns_modify_pure _ _).mp hret
    omega
  · intro hroom
    have hall : min count (bufsize - 1 - q.length) = count := by omega
    have hsize : min count (bufsize - q.length) = count := by omega
    obtain ⟨ioq', hput, hq'⟩ := putChars_pure h buf count 0 hroom
    rw [hall, hsize]
    refine ⟨ioq', by rwa [List.range_eq_range'], ?_⟩
    rw [putSize, hput, pure_bind]
    rfl

def emptyPipe : Fs := (sysPipe 1).after (bootState 63 1000 fun _ => 0)

theorem pipe_write_two_bytes : WritesRoom 1 4 1 [] (fun _ => 7) 2 emptyPipe := by
  have hring : emptyPipe.mem.pipes 1 = some ⟨fun _ => 0, 0, 0⟩ := rfl
  have hempty : Holds ⟨fun _ => 0, 0, 0⟩ [] := ⟨by decide, by decide, rfl⟩
  exact (pipe_write_iff (g := 3) (by decide) (by decide) hring hempty _ _).mpr (by decide)

def fullPipe : Fs :=
  { emptyPipe with mem.pipes := update emptyPipe.mem.pipes 1 (some ⟨fun _ => 0, 2047, 0⟩) }

/-- One byte is taken to fit, and the producer waits. -/
theorem full_pipe_waits : ((pipeWrite 1 4 (fun _ => 7) 1).on fullPipe).run = .error .loop :=
  run_of_stops (by decide)

end Write

section Make

variable {s t : Fs} {m m' : Mm} {cur g page : Nat}

def pipeInstall (cur globalFd : Nat) : Prog Fs Buf (Int × Int) := do
  let page := (← get).mem.fresh
  modify (fun s => { s with mem.pipes := update s.mem.pipes page (some ⟨fun _ => 0, 0, 0⟩) })
  setFile globalFd ⟨2, pipeFlag, some page⟩
  let rd ← pcbFdInstall cur globalFd
  let wr ← pcbFdInstall cur globalFd
  return (rd, wr)

/-- `sys_pipe` with the pools it takes its page from: the result and `pipefd`.  Index -1 is the memory in front of
`file_table`, and `ioqueue_init` comes before the test of its argument. -/
def sysPipePages (cur : Nat) : Prog (Fs × Mm) Buf (Int × Int × Int) := do
  let slot ← lift getFreeSlotInGlobal
  let page ← liftSnd (Mm.getKernelPages 1)
  match slot, page with
  | some globalFd, some _ =>
    let (rd, wr) ← lift (pipeInstall cur globalFd)
    return (0, rd, wr)
  | _, _ => halt .fault

/-- Both ends are new descriptors of one new slot, and its ring is empty. -/
def PipeMade (cur : Nat) (s : Fs) (r : Int × Int × Int) (t : Fs) : Prop :=
  ∃ (g rd wr page : Nat) (ioq : Ioqueue), r = (0, (rd : Int), (wr : Int)) ∧ rd ∈ localFds ∧ wr ∈ localFds ∧ rd ≠ wr ∧
    s.mem.fdTable cur rd = -1 ∧ s.mem.fdTable cur wr = -1 ∧ 3 ≤ g ∧ g < 32 ∧ (s.mem.fileTable g).fdInode = none ∧
    t.mem.fileTable = update s.mem.fileTable g ⟨2, pipeFlag, some page⟩ ∧
    t.mem.pipes page = some ioq ∧ Holds ioq [] ∧
    t.mem.fdTable = update s.mem.fdTable cur
      (update (update (s.mem.fdTable cur) rd (g : Int)) wr (g : Int))

def PipeRefused (s : Fs) (m : Mm) (r : Int × Int × Int) (t : Fs) (m' : Mm) : Prop :=
  r.1 = -1 ∧ t.mem.fileTable = s.mem.fileTable ∧ t.mem.fdTable = s.mem.fdTable ∧
    m'.kernelPool = m.kernelPool ∧ m'.userPool = m.userPool ∧ m'.kernelVaddr = m.kernelVaddr

def PipeWhole (cur : Nat) (s : Fs) (m : Mm) : Prop :=
  ∃ r t m', ((sysPipePages cur).on (s, m)).run = .ok (r, t, m') ∧ (PipeMade cur s r t ∨ PipeRefused s m r t m')

theorem sysPipe_eq (cur : Nat) :
    sysPipe cur = getFreeSlotInGlobal >>= fun slot => slot.elim (halt .fault) (pipeInstall cur) := by
  rw [sysPipe]
  refine congrArg (getFreeSlotInGlobal >>= ·) (funext fun slot => ?_)
  cases slot with
  | none => rfl
  | some g => rfl

theorem run_getFreeSlot (s : Fs) : ((getFreeSlotInGlobal).on s).run = .ok (s.mem.freeSlot, s) := rfl

theorem run_pcbFdInstall (cur g : Nat) (s : Fs) :
    ((pcbFdInstall cur g).on s).run = .ok (s.mem.fdOf cur, { s with mem := s.mem.install cur g }) := by
  rw [pcbFdInstall, run_seq (a := s) (t := s) rfl, Mem.fdOf, Mem.install]
  dsimp only
  cases hfd : s.mem.freeFd cur with
  | none =>
    rw [Mem.freeFd] at hfd
    rw [hfd]
    rfl
  | some fd =>
    rw [Mem.freeFd] at hfd
    rw [hfd]
    rfl

def Mem.addPipe (m : Mem) (g : Nat) : Mem :=
  { m with
    pipes := update m.pipes m.fresh (some ⟨fun _ => 0, 0, 0⟩)
    fileTable := update m.fileTable g ⟨2, pipeFlag, some m.fresh⟩ }

theorem run_pipeInstall (cur g : Nat) (s : Fs) : ((pipeInstall cur g).on s).run =
    .ok ((s.mem.fdOf cur, ((s.mem.addPipe g).install cur g).fdOf cur),
      { s with mem := ((s.mem.addPipe g).install cur g).install cur g }) := by
  rw [pipeInstall, run_seq (a := s) (t := s) rfl, run_seq (a := ()) rfl,
    run_seq (a := ()) (t := { s with mem := s.mem.addPipe g }) rfl, run_seq (run_pcbFdInstall cur g _),
    run_seq (run_pcbFdInstall cur g _)]
  rfl

theorem run_sysPipePages (hg : s.mem.freeSlot = some g) (hm : ((Mm.getKernelPages 1).on m).run = .ok (some page, m')) :
    ((sysPipePages cur).on (s, m)).run = .ok ((0, s.mem.fdOf cur, ((s.mem.addPipe g).install cur g).fdOf cur),
      { s with mem := ((s.mem.addPipe g).install cur g).install cur g }, m') := by
  have hslot : ((getFreeSlotInGlobal).on s).run = .ok (some g, s) := hg ▸ run_getFreeSlot s
  rw [sysPipePages, run_seq (run_lift hslot m), run_seq (run_liftSnd hm s)]
  dsimp only
  rw [run_seq (run_lift (run_pipeInstall cur g s) m')]
  rfl

theorem sysPipePages_inv {r : Int × Int × Int} {x : Fs × Mm} (h : ((sysPipePages cur).on (s, m)).run = .ok (r, x)) :
    ∃ g page m', s.mem.freeSlot = some g ∧ ((Mm.getKernelPages 1).on m).run = .ok (some page, m') := by
  rw [sysPipePages, run_seq (run_lift (run_getFreeSlot s) m), bind_on, Res.run_bind] at h
  rw [liftSnd, Res.run_liftSnd] at h
  cases hm : ((Mm.getKernelPages 1).on m).run with
  | error e =>
    rw [hm] at h
    cases h
  | ok y =>
    rw [hm] at h
    obtain ⟨page, m'⟩ := y
    cases hs : s.mem.freeSlot with
    | none =>
      rw [hs] at h
      cases h
    | some g =>
      rw [hs] at h
      cases page with
      | none => cases h
      | some page => exact ⟨g, page, m', rfl, rfl⟩

theorem run_sysPipe_of_pages {r : Int × Int × Int} (h : ((sysPipePages cur).on (s, m)).run = .ok (r, t, m')) :
    ((sysPipe cur).on s).run = .ok (r.2, t) := by
  obtain ⟨g, page, m'', hg, hm⟩ := sysPipePages_inv h
  have hr := (run_sysPipePages hg hm).symm.trans h
  obtain ⟨rfl, hx⟩ := Prod.mk.inj (Except.ok.inj hr)
  obtain ⟨rfl, -⟩ := Prod.mk.inj hx
  have hslot : ((getFreeSlotInGlobal).on s).run = .ok (some g, s) := hg ▸ run_getFreeSlot s
  rw [sysPipe_eq, run_seq hslot, Option.elim_some]
  exact run_pipeInstall cur g s

theorem two_le_mine {fds : Nat → Int} {rd wr : Nat} (hr : rd ∈ localFds) (hw : wr ∈ localFds) (hne : rd ≠ wr)
    (hrd : fds rd = -1) (hwr : fds wr = -1) : 2 ≤ Pipe.mine fds localFds (-1) := by
  have hm := Pipe.mine_update (v := 0) (x := -1) fds hr
  rw [if_pos hrd, if_neg (by decide)] at hm
  have hpos : 0 < Pipe.mine (update fds rd 0) localFds (-1) :=
    List.countP_pos_iff.mpr ⟨wr, hw, by rw [update_of_ne hne.symm, hwr]; rfl⟩
  omega

theorem exists_two_fds {m : Mem} (h : 2 ≤ Pipe.mine (m.fdTable cur) localFds (-1)) (g : Nat) :
    ∃ rd wr, m.freeFd cur = some rd ∧ (m.install cur g).freeFd cur = some wr ∧ rd ≠ wr ∧
      m.fdTable cur wr = -1 := by
  obtain ⟨rd, hrd⟩ := Pipe.exists_freeFd (show 0 < Pipe.mine (m.fdTable cur) localFds (-1) by omega)
  obtain ⟨h3, h8, hold⟩ := freeFd_some hrd
  have hin : m.install cur g = m.setFd cur rd g := by rw [Mem.install, hrd, Option.elim_some]
  have htab : (m.install cur g).fdTable cur = update (m.fdTable cur) rd (g : Int) := by
    rw [hin]
    exact update_self _ _ _
  have hm := Pipe.mine_update (v := (g : Int)) (x := -1) (m.fdTable cur) (mem_localFds.mpr ⟨h3, h8⟩)
  rw [if_pos hold, if_neg (by omega), ← htab] at hm
  have hleft : 0 < Pipe.mine ((m.install cur g).fdTable cur) localFds (-1) := by omega
  obtain ⟨wr, hwr⟩ := Pipe.exists_freeFd hleft
  obtain ⟨-, -, hnew⟩ := freeFd_some hwr
  rw [htab] at hnew
  have hne : rd ≠ wr := by
    rintro rfl
    rw [update_self] at hnew
    omega
  rw [update_of_ne hne.symm] at hnew
  exact ⟨rd, wr, hrd, hwr, hne, hnew⟩

theorem sys_pipe_iff (cur : Nat) (s : Fs) (m : Mm) : PipeWhole cur s m ↔
    s.mem.freeSlot ≠ none ∧ (∃ page m', ((Mm.getKernelPages 1).on m).run = .ok (some page, m')) ∧
      2 ≤ Pipe.mine (s.mem.fdTable cur) localFds (-1) := by
  constructor
  · rintro ⟨r, t, m', hrun, hwhole⟩
    obtain ⟨g, page, m'', hg, hm⟩ := sysPipePages_inv hrun
    refine ⟨by rw [hg]; exact Option.some_ne_none g, ⟨page, m'', hm⟩, ?_⟩
    rcases hwhole with hmade | hrefused
    · obtain ⟨-, rd, wr, -, -, -, hr, hw, hne, hrd, hwr, -⟩ := hmade
      exact two_le_mine hr hw hne hrd hwr
    · -- the result is 0 whatever has been found
      have hr := (run_sysPipePages hg hm).symm.trans hrun
      have hzero : 0 = r.1 := congrArg Prod.fst (Prod.mk.inj (Except.ok.inj hr)).1
      rw [hrefused.1] at hzero
      exact absurd hzero (by decide)
  · rintro ⟨hslot, ⟨page, m', hm⟩, htwo⟩
    obtain ⟨g, hg⟩ := Option.ne_none_iff_exists'.mp hslot
    obtain ⟨h3, h32, hfree⟩ := freeSlot_some hg
    obtain ⟨rd, wr, hrd, hwr, hne, hold⟩ := exists_two_fds (m := s.mem.addPipe g) htwo g
    have hrd' := freeFd_some hrd
    have hwr' := freeFd_some hwr
    have hin : (s.mem.addPipe g).install cur g = (s.mem.addPipe g).setFd cur rd g := by
      rw [Mem.install, hrd, Option.elim_some]
    refine ⟨_, _, m', run_sysPipePages hg hm, Or.inl ⟨g, rd, wr, s.mem.fresh, ⟨fun _ => 0, 0, 0⟩, ?_, ?_, ?_, hne,
      hrd'.2.2, hold, h3, h32, hfree, ?_, ?_, ⟨by decide, by decide, rfl⟩, ?_⟩⟩
    · have hfirst : s.mem.fdOf cur = rd := by
        change ((s.mem.addPipe g).freeFd cur).elim (-1 : Int) _ = _
        rw [hrd, Option.elim_some]
      rw [hfirst, Mem.fdOf, hwr, Option.elim_some]
    · exact mem_localFds.mpr ⟨hrd'.1, hrd'.2.1⟩
    · exact mem_localFds.mpr ⟨hwr'.1, hwr'.2.1⟩
    · rw [Mem.install, hwr, Option.elim_some, hin]
      rfl
    · rw [Mem.install, hwr, Option.elim_some, hin]
      exact update_self _ _ _
    · rw [Mem.install, hwr, Option.elim_some, hin]
      change update (update s.mem.fdTable cur _) cur
        (update (update s.mem.fdTable cur _ cur) wr _) = _
      rw [Function.update_idem, update_self]
      rfl

theorem sys_pipe_at_boot : PipeWhole 1 (bootState 63 1000 fun _ => 0) Mm.booted := by
  obtain ⟨r, hr⟩ : ∃ r, (Mm.getKernelPages 1).gives Mm.booted (some r) = true := ⟨Mm.kHeapStart, by decide⟩
  exact (sys_pipe_iff 1 _ _).mpr ⟨by decide, ⟨r, _, run_of_gives hr⟩, by decide⟩

def oneFd : Fs :=
  { bootState 63 1000 (fun _ => 0) with
    mem.fdTable := fun _ l => if l = 7 then -1 else 0 }

/-- Descriptor 7 is one end, the other end is -1, and the result is 0. -/
theorem one_descriptor_half_pipe :
    ∃ x, ((sysPipePages 1).on (oneFd, Mm.booted)).run = .ok ((0, 7, -1), x) :=
  ⟨_, run_of_gives (by decide)⟩

end Make

end TrueOs.Fs
