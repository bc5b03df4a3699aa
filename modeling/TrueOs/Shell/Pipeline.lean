import TrueOs.Lib.Keeps
import TrueOs.Lib.Ring
import TrueOs.Userprog.ForkClose

/-! `my_shell` and a command line with pipes.

The commands run one after the other, and all use the same ring: the first one writes to
it, those in the middle read from it and write to it, and the last one reads. -/

namespace TrueOs.Fs.Shell

open Function (update update_self update_of_ne)
open Prog

/-- A command, as far as its standard input and output go. -/
inductive Cmd
  | exit
  | read (count : Nat) (k : Option (List UInt8) → Cmd)
  | write (bytes : List UInt8) (k : Int → Cmd)

/-- The bytes that a command has read, and those that were taken of what it wrote. -/
structure Trace where
  reads : List UInt8
  wrote : List UInt8
  deriving DecidableEq

/-- The traces of the commands that were started, and the state, unless one of them never
comes back. -/
structure Outcome where
  traces : List Trace
  fs : Option Fs

def Outcome.andThen (o : Outcome) (f : Fs → Outcome) : Outcome :=
  match o.fs with
  | none => o
  | some s => ⟨o.traces ++ (f s).traces, (f s).fs⟩

def call {α : Type} (c : Prog Fs Buf α) (f : α → Fs → Outcome) (s : Fs) : Outcome :=
  match (c.on s).run with
  | .ok r => f r.1 r.2
  | .error _ => ⟨[], none⟩

def Cmd.exec (p : Nat) (kbd : Nat → UInt8) : Cmd → Trace → Fs → Outcome
  | .exit, tr, s => ⟨[tr], some s⟩
  | .read count k, tr, s =>
    match ((sysRead p (fun i => kbd (tr.reads.length + i)) 0 count).on s).run with
    | .ok r => (k r.1).exec p kbd { tr with reads := tr.reads ++ r.1.getD [] } r.2
    | .error _ => ⟨[tr], none⟩
  | .write bytes k, tr, s =>
    match ((sysWrite p 1 (fun i => bytes.getD i 0) bytes.length).on s).run with
    | .ok r => (k r.1).exec p kbd { tr with wrote := tr.wrote ++ bytes.take r.1.toNat } r.2
    | .error _ => ⟨[tr], none⟩

/-- A command that is built in, or one that runs in a child of the shell `sh`. -/
inductive Job (sh : Nat)
  | builtin (c : Cmd)
  | external (child : Nat) (hne : child ≠ sh) (c : Cmd)

variable {sh : Nat}

def cmdExecute (kbd : Nat → UInt8) : Job sh → Fs → Outcome
  | .builtin c => c.exec sh kbd ⟨[], []⟩
  | .external child _ c =>
    call (forkFiles sh child) fun _ s =>
      (c.exec child kbd ⟨[], []⟩ s).andThen (call (exitFiles child) fun _ s => ⟨[], some s⟩)

def runMiddle (kbd : Nat → UInt8) : List (Job sh) → Fs → Outcome
  | [], s => ⟨[], some s⟩
  | job :: jobs, s => (cmdExecute kbd job s).andThen (runMiddle kbd jobs)

/-- The part of `my_shell` for a line `first|middle|..|last`. -/
def myShell (kbd : Nat → UInt8) (first : Job sh) (middle : List (Job sh)) (last : Job sh) : Fs → Outcome :=
  call (sysPipe sh) fun fd =>
  call (sysFdRedirect sh 1 (uint32 fd.2)) fun _ s =>
  (cmdExecute kbd first s).andThen <|
  call (sysFdRedirect sh 0 (uint32 fd.1)) fun _ s =>
  (runMiddle kbd middle s).andThen <|
  call (sysFdRedirect sh 1 1) fun _ s =>
  (cmdExecute kbd last s).andThen <|
  call (sysFdRedirect sh 0 0) fun _ =>
  call (sysClose sh fd.1) fun _ =>
  call (sysClose sh fd.2) fun _ s => ⟨[], some s⟩

/-- The shell at its prompt: the standard descriptors are the keyboard and the screen. -/
structure Idle (sh : Nat) (s : Fs) : Prop where
  stdin : s.mem.fdTable sh 0 = 0
  console : ∀ g < 3, (s.mem.fileTable g).fdFlag ≠ pipeFlag

/-- Each command has read a first part of what the one before it wrote. -/
def Connected (traces : List Trace) : Prop := traces.IsChain (fun a b => b.reads <+: a.wrote)

/-- `n` commands in the middle: each takes as many bytes as the one before it wrote, and
one that never comes back no more than that. -/
def Drained : (n : Nat) → List Trace → Prop
  | n + 1, a :: b :: rest =>
    b.reads.length ≤ a.wrote.length ∧ (rest ≠ [] → b.reads.length = a.wrote.length) ∧ Drained n (b :: rest)
  | _, _ => True

section Outcome

variable {α : Type} {o : Outcome} {s : Fs}

theorem andThen_none {f : Fs → Outcome} (h : o.fs = none) : o.andThen f = o := by
  rw [Outcome.andThen, h]

theorem andThen_some {f : Fs → Outcome} (h : o.fs = some s) : o.andThen f = ⟨o.traces ++ (f s).traces, (f s).fs⟩ := by
  rw [Outcome.andThen, h]

theorem andThen_assoc (o : Outcome) (f g : Fs → Outcome) :
    (o.andThen f).andThen g = o.andThen (fun s => (f s).andThen g) := by
  cases ho : o.fs with
  | none => rw [andThen_none ho, andThen_none ho, andThen_none ho]
  | some s =>
    rw [andThen_some ho, andThen_some ho]
    cases hf : (f s).fs with
    | none => rw [andThen_none rfl, andThen_none hf, hf]
    | some t => rw [andThen_some rfl, andThen_some hf, List.append_assoc]

theorem call_cases (c : Prog Fs Buf α) (f : α → Fs → Outcome) (s : Fs) :
    call c f s = ⟨[], none⟩ ∨ ∃ r, (c.on s).run = .ok r ∧ call c f s = f r.1 r.2 := by
  rw [call]
  cases hrun : (c.on s).run with
  | error e => exact Or.inl rfl
  | ok r => exact Or.inr ⟨r, rfl, rfl⟩

end Outcome

section Ring

variable {ioq : Ioqueue}

structure Holds (ioq : Ioqueue) (q : List UInt8) : Prop where
  head : ioq.head < bufsize
  tail : ioq.tail < bufsize
  contents : Ring.contents bufsize ioq.buf ioq.head ioq.tail = q

theorem Holds.put {q : List UInt8} (h : Holds ioq q) (hfull : ioqFull ioq = false) (b : UInt8) :
    Holds { ioq with buf := update ioq.buf ioq.head b, head := nextPos ioq.head } (q ++ [b]) := by
  refine ⟨Nat.mod_lt _ (by decide), h.tail, ?_⟩
  rw [← h.contents]
  exact Ring.contents_push h.head h.tail (by simpa [ioqFull, nextPos] using hfull) ioq.buf b

theorem Holds.get {q : List UInt8} (h : Holds ioq q) (hne : ioq.head ≠ ioq.tail) :
    ∃ q', q = ioq.buf ioq.tail :: q' ∧ Holds { ioq with tail := nextPos ioq.tail } q' :=
  ⟨_, h.contents ▸ Ring.contents_pop h.head h.tail hne ioq.buf, h.head, Nat.mod_lt _ (by decide), rfl⟩

theorem sat_putChars {q : List UInt8} (h : Holds ioq q) (buf : Buf) (size k : Nat) (s : Fs) :
    ((putChars buf size k ioq).on s).Sat True (fun ioq' t => t = s ∧
      Holds ioq' (q ++ (List.range' k size).map buf)) := by
  induction size generalizing k ioq q with
  | zero => exact ⟨rfl, by simpa using h⟩
  | succ size ih =>
    rw [putChars, sat_bind, ioqPutchar]
    split
    · trivial
    · next hfull =>
      rw [sat_pure]
      refine (ih (h.put (by simpa using hfull) (buf k)) (k + 1)).mono fun ioq' t ht => ⟨ht.1, ?_⟩
      rw [List.range'_succ, List.map_cons, List.append_cons]
      exact ht.2

theorem sat_getChars {q : List UInt8} (h : Holds ioq q) (size : Nat) (s : Fs) :
    ((getChars size ioq).on s).Sat True (fun r t => t = s ∧ ∃ q', q = r.1 ++ q' ∧ Holds r.2 q') := by
  induction size generalizing ioq q with
  | zero => exact ⟨rfl, q, rfl, h⟩
  | succ size ih =>
    rw [getChars, sat_bind, ioqGetchar]
    split
    · trivial
    · next hne =>
      obtain ⟨q', rfl, hq'⟩ := h.get (by simpa using hne)
      rw [sat_pure, sat_bind]
      refine (ih hq').mono fun r t ht => ?_
      obtain ⟨rfl, q'', rfl, hr⟩ := ht
      exact ⟨rfl, q'', rfl, hr⟩

end Ring

section Stage

structure Ringed (g page : Nat) (q : List UInt8) (s : Fs) : Prop where
  flag : (s.mem.fileTable g).fdFlag = pipeFlag
  inode : ∀ x, (s.mem.fileTable g).fdInode = some x → x = page
  ring : ∀ ioq, s.mem.pipes page = some ioq → Holds ioq q

structure Std (p g i o : Nat) (s : Fs) : Prop where
  stdin : s.mem.fdTable p 0 = i
  stdout : s.mem.fdTable p 1 = o
  source : i ≠ g → (s.mem.fileTable i).fdFlag ≠ pipeFlag
  sink : o ≠ g → (s.mem.fileTable o).fdFlag ≠ pipeFlag

structure Still (s t : Fs) : Prop where
  slots : t.mem.fileTable = s.mem.fileTable
  fds : t.mem.fdTable = s.mem.fdTable

variable {p g page i o : Nat} {q : List UInt8} {s t u : Fs}

theorem Still.refl (s : Fs) : Still s s := ⟨rfl, rfl⟩

theorem Still.trans (h : Still s t) (h' : Still t u) : Still s u := ⟨h'.slots.trans h.slots, h'.fds.trans h.fds⟩

theorem Std.still (h : Std p g i o s) (hs : Still s t) : Std p g i o t :=
  ⟨by rw [hs.fds, h.stdin], by rw [hs.fds, h.stdout], by rw [hs.slots]; exact h.source, by rw [hs.slots]; exact h.sink⟩

theorem sat_fdLocal2Global_of {fd k : Nat} (hfd : s.mem.fdTable p fd = k) :
    ((fdLocal2Global p fd : Prog Fs Buf Nat).on s).Sat True (fun r t => r = k ∧ t = s) := by
  refine (sat_fdLocal2Global p fd s).mono fun r t hr => ?_
  obtain ⟨rfl, -, hg, -⟩ := hr
  exact ⟨Int.ofNat.inj (hg.symm.trans hfd), rfl⟩

theorem sat_isPipe_of {fd k : Nat} (hfd : s.mem.fdTable p fd = k) :
    ((isPipe p fd).on s).Sat True (fun r t =>
      (r = true ↔ (s.mem.fileTable k).fdFlag = pipeFlag) ∧ t = s) := by
  rw [isPipe, sat_bind]
  refine (sat_fdLocal2Global_of hfd).mono fun r t hr => ?_
  obtain ⟨rfl, rfl⟩ := hr
  exact ⟨by simp, rfl⟩

section

variable (h : Ringed g page q s)
include h

theorem sat_fileInode_of :
    ((fileInode g).on s).Sat True (fun x t => x = page ∧ t = s) := by
  simp only [fileInode, bind_on, get_on, Res.sat_bind, Res.sat_done]
  cases hx : (s.mem.fileTable g).fdInode with
  | none => trivial
  | some x => exact ⟨h.inode x hx, rfl⟩

theorem Ringed.put {ioq : Ioqueue} {q' : List UInt8} (hq : Holds ioq q') :
    Ringed g page q' { s with mem.pipes := update s.mem.pipes page (some ioq) } where
  flag := h.flag
  inode := h.inode
  ring ioq' hi := by
    change update s.mem.pipes page (some ioq) page = some ioq' at hi
    rw [update_self, Option.some.injEq] at hi
    exact hi ▸ hq

theorem sat_pipeRead {fd : Nat} (hfd : s.mem.fdTable p fd = g) (count : Nat) :
    ((pipeRead p fd count).on s).Sat True (fun r t => Still s t ∧ ∃ q', q = r ++ q' ∧ Ringed g page q' t) := by
  rw [pipeRead, sat_bind]
  refine (sat_fdLocal2Global_of hfd).mono fun _ _ hr => ?_
  obtain ⟨rfl, rfl⟩ := hr
  rw [sat_bind]
  refine (sat_fileInode_of h).mono fun _ _ hr => ?_
  obtain ⟨rfl, rfl⟩ := hr
  simp only [bind_on, get_on, Res.sat_bind, Res.sat_done]
  split
  · trivial
  · next ioq hioq =>
    rw [sat_bind]
    refine (sat_getChars (h.ring ioq hioq) _ _).mono fun r t ht => ?_
    obtain ⟨rfl, q', hq, hr⟩ := ht
    exact ⟨⟨rfl, rfl⟩, q', hq, h.put hr⟩

theorem sat_pipeWrite {fd : Nat} (hfd : s.mem.fdTable p fd = g) (bytes : List UInt8) :
    ((pipeWrite p fd (fun i => bytes.getD i 0) bytes.length).on s).Sat True (fun r t =>
      Still s t ∧ Ringed g page (q ++ bytes.take r.toNat) t) := by
  rw [pipeWrite, sat_bind]
  refine (sat_fdLocal2Global_of hfd).mono fun _ _ hr => ?_
  obtain ⟨rfl, rfl⟩ := hr
  rw [sat_bind]
  refine (sat_fileInode_of h).mono fun _ _ hr => ?_
  obtain ⟨rfl, rfl⟩ := hr
  simp only [bind_on, get_on, Res.sat_bind, Res.sat_done]
  split
  · trivial
  · next ioq hioq =>
    have hle : (if bytes.length < bufsize - ioqLength ioq then bytes.length else bufsize - ioqLength ioq) ≤ bytes.length := by
      split <;> omega
    generalize (if bytes.length < bufsize - ioqLength ioq then bytes.length else bufsize - ioqLength ioq) = size at hle
    rw [sat_bind]
    refine (sat_putChars (h.ring ioq hioq) _ size 0 _).mono fun ioq' t ht => ?_
    obtain ⟨rfl, hr⟩ := ht
    have hbytes : (List.range' 0 size).map (fun i => bytes.getD i 0) = bytes.take size := by
      apply List.ext_getElem
      · simp [hle]
      · intro n h₁ h₂
        simp only [List.length_map, List.length_range'] at h₁
        simp [List.getElem?_eq_getElem (show n < bytes.length by omega)]
    rw [hbytes] at hr
    exact ⟨⟨rfl, rfl⟩, h.put hr⟩

theorem sat_sysRead (hp : Std p g i o s) (kbd : Nat → UInt8) (count : Nat) :
    ((sysRead p kbd 0 count).on s).Sat True (fun r t => Still s t ∧
      ∃ q', q = (if i = g then r.getD [] else []) ++ q' ∧ Ringed g page q' t) := by
  rw [sysRead, if_neg (by decide), sat_bind]
  refine (sat_isPipe_of hp.stdin).mono fun b t hb => ?_
  obtain ⟨hb, rfl⟩ := hb
  by_cases hi : i = g
  · subst hi
    rw [if_pos (hb.mpr h.flag), sat_bind]
    refine (sat_pipeRead h hp.stdin count).mono fun r t ht => ?_
    rw [sat_pure, if_pos rfl]
    exact ht
  · rw [if_neg (fun hc => hp.source hi (hb.mp hc)), if_pos rfl]
    simp only [sat_pure, if_neg hi]
    exact ⟨Still.refl _, q, rfl, h⟩

theorem sat_sysWrite (hp : Std p g i o s) (bytes : List UInt8) :
    ((sysWrite p 1 (fun i => bytes.getD i 0) bytes.length).on s).Sat True (fun r t => Still s t ∧
      Ringed g page (q ++ if o = g then bytes.take r.toNat else []) t) := by
  rw [sysWrite, if_neg (by decide), sat_bind]
  refine (sat_isPipe_of hp.stdout).mono fun b t hb => ?_
  obtain ⟨hb, rfl⟩ := hb
  by_cases ho : o = g
  · subst ho
    rw [if_pos (hb.mpr h.flag)]
    simp only [if_pos]
    exact sat_pipeWrite h hp.stdout bytes
  · rw [if_neg (fun hc => hp.sink ho (hb.mp hc)), if_pos rfl, consoleWrite]
    simp only [if_neg ho, List.append_nil]
    split
    · exact ⟨Still.refl _, h⟩
    · trivial

end

end Stage

section Exec

variable {p g page i o : Nat} {q : List UInt8} {s : Fs}

theorem exec_flow (kbd : Nat → UInt8) (c : Cmd) (tr : Trace) (h : Ringed g page q s) (hp : Std p g i o s) :
    ∃ r w q', (c.exec p kbd tr s).traces = [⟨tr.reads ++ r, tr.wrote ++ w⟩] ∧
      (q ++ if o = g then w else []) = (if i = g then r else []) ++ q' ∧
      ∀ t, (c.exec p kbd tr s).fs = some t → Still s t ∧ Ringed g page q' t := by
  induction c generalizing tr q s with
  | exit =>
    refine ⟨[], [], q, by simp [Cmd.exec], by simp, fun t ht => ?_⟩
    obtain rfl := Option.some.inj ht
    exact ⟨Still.refl s, h⟩
  | read count k ih =>
    rw [Cmd.exec]
    cases hrun : ((sysRead p (fun i => kbd (tr.reads.length + i)) 0 count).on s).run with
    | error e => exact ⟨[], [], q, by simp, by simp, fun t ht => by cases ht⟩
    | ok a =>
      obtain ⟨hs, q₁, hq, h₁⟩ := (sat_sysRead h hp _ count).of_run (a := a.1) (s := a.2) hrun
      obtain ⟨r, w, q', htr, hflow, hend⟩ := ih a.1 { tr with reads := tr.reads ++ a.1.getD [] } h₁ (hp.still hs)
      refine ⟨a.1.getD [] ++ r, w, q', by simpa using htr, ?_, fun t ht => ⟨hs.trans (hend t ht).1, (hend t ht).2⟩⟩
      rw [hq, List.append_assoc, hflow]
      split <;> simp
  | write bytes k ih =>
    rw [Cmd.exec]
    cases hrun : ((sysWrite p 1 (fun i => bytes.getD i 0) bytes.length).on s).run with
    | error e => exact ⟨[], [], q, by simp, by simp, fun t ht => by cases ht⟩
    | ok a =>
      obtain ⟨hs, h₁⟩ := (sat_sysWrite h hp bytes).of_run (a := a.1) (s := a.2) hrun
      obtain ⟨r, w, q', htr, hflow, hend⟩ :=
        ih a.1 { tr with wrote := tr.wrote ++ bytes.take a.1.toNat } h₁ (hp.still hs)
      refine ⟨r, bytes.take a.1.toNat ++ w, q', by simpa using htr, ?_, fun t ht => ⟨hs.trans (hend t ht).1, (hend t ht).2⟩⟩
      rw [← hflow]
      split <;> simp

end Exec

section Fork

structure Fades (p : Nat) (s t : Fs) : Prop where
  flag : ∀ g, (t.mem.fileTable g).fdFlag = (s.mem.fileTable g).fdFlag
  inode : ∀ g x, (t.mem.fileTable g).fdInode = some x → (s.mem.fileTable g).fdInode = some x
  ring : ∀ page ioq, t.mem.pipes page = some ioq → s.mem.pipes page = some ioq
  fds : ∀ q, q ≠ p → t.mem.fdTable q = s.mem.fdTable q

variable {p : Nat}

instance : IsPreorder Fs (Fades p) where
  refl _ := ⟨fun _ => rfl, fun _ _ h => h, fun _ _ h => h, fun _ _ => rfl⟩
  trans _ _ _ h h' := ⟨fun g => (h'.flag g).trans (h.flag g), fun g x hx => h.inode g x (h'.inode g x hx),
    fun page ioq hq => h.ring page ioq (h'.ring page ioq hq), fun q hq => (h'.fds q hq).trans (h.fds q hq)⟩

theorem fades_fdLocal2Global (cur fd : Nat) : Keeps (Fades p) (fdLocal2Global cur fd : Prog Fs Buf Nat) :=
  .ite (.bind keeps_get fun _ => .bind (keeps_assert _) fun _ => keeps_pure _) (keeps_halt _)

theorem fades_isPipe (cur fd : Nat) : Keeps (Fades p) (isPipe cur fd) :=
  .bind (fades_fdLocal2Global cur fd) fun _ => .bind keeps_get fun _ => keeps_pure _

theorem fades_fileInode (g : Nat) : Keeps (Fades p) (fileInode g) := by
  refine .bind keeps_get fun s => ?_
  split
  · exact keeps_pure _
  · exact keeps_halt _

theorem fades_getInode (x : Nat) : Keeps (Fades p) (getInode x) := by
  refine .bind keeps_get fun s => ?_
  split
  · exact keeps_pure _
  · exact keeps_halt _

theorem fades_setInode (x : Nat) (i : Inode) : Keeps (Fades p) (setInode x i) :=
  keeps_modify fun _ => ⟨fun _ => rfl, fun _ _ h => h, fun _ _ h => h, fun _ _ => rfl⟩

theorem fades_inodeClose (x : Nat) : Keeps (Fades p) (inodeClose x) :=
  .bind (fades_getInode x) fun _ => .ite
    (keeps_modify fun _ => ⟨fun _ => rfl, fun _ _ h => h, fun _ _ h => h, fun _ _ => rfl⟩) (fades_setInode _ _)

theorem fades_update {s : Fs} {g : Nat} {f : File} (hf : f.fdFlag = (s.mem.fileTable g).fdFlag)
    (hi : ∀ x, f.fdInode = some x → (s.mem.fileTable g).fdInode = some x) :
    Fades p s { s with mem.fileTable := update s.mem.fileTable g f } := by
  refine ⟨fun k => ?_, fun k x hx => ?_, fun _ _ h => h, fun _ _ => rfl⟩
  · by_cases h : k = g
    · subst h
      simpa only [update_self] using hf
    · simp only [update_of_ne h]
  · by_cases h : k = g
    · subst h
      simp only [update_self] at hx
      exact hi x hx
    · simpa only [update_of_ne h] using hx

theorem fades_fileClose (g : Nat) : Keeps (Fades p) (fileClose g) := by
  refine .bind (fades_fileInode g) fun x => .bind (fades_getInode x) fun i => ?_
  refine .bind (fades_setInode x _) fun _ => .bind (fades_inodeClose x) fun _ => ?_
  exact fun s => fades_update rfl fun x hx => by cases hx

theorem fades_closePipe (g : Nat) : Keeps (Fades p) (closePipe g) := by
  intro s
  rw [closePipe, sat_bind, sat_get]
  dsimp only
  split
  · simp only [fileInode, bind_on, get_on, Res.sat_bind, Res.sat_done]
    cases hx : (s.mem.fileTable g).fdInode with
    | none => trivial
    | some x =>
      have hfade : Fades p s { s with mem.pipes := update s.mem.pipes x none } := by
        refine ⟨fun _ => rfl, fun _ _ h => h, fun page ioq h => ?_, fun _ _ => rfl⟩
        by_cases hp : page = x
        · subst hp
          simp only [update_self] at h
          cases h
        · simpa only [update_of_ne hp] using h
      exact IsTrans.trans _ _ _ hfade (fades_update rfl fun x hx => by cases hx)
  · exact fades_update rfl fun x hx => hx

theorem fades_setFd (fd : Nat) (v : Int) : Keeps (Fades p) (setFd p fd v) :=
  keeps_modify fun _ => ⟨fun _ => rfl, fun _ _ h => h, fun _ _ h => h, fun _ hq => update_of_ne hq _ _⟩

theorem fades_sysClose (fd : Int) : Keeps (Fades p) (sysClose p fd) := by
  refine .ite ?_ (keeps_pure _)
  refine .bind (fades_fdLocal2Global p _) fun g => .bind (fades_isPipe p _) fun b => .ite ?_ ?_
  · exact .bind (fades_closePipe g) fun _ => .bind (fades_setFd _ _) fun _ => keeps_pure _
  · exact .bind (fades_fileClose g) fun _ => .bind (fades_setFd _ _) fun _ => keeps_pure _

theorem fades_exitFiles : Keeps (Fades p) (exitFiles p) := by
  rw [exitFiles]
  induction localFds with
  | nil => exact keeps_pure _
  | cons l ls ih =>
    refine .bind keeps_get fun s => .ite ?_ ih
    refine .bind (fades_isPipe p l) fun b => .ite ?_ ?_
    · exact .bind (fades_fdLocal2Global p l) fun g => .bind (fades_closePipe g) fun _ => ih
    · exact .bind (fades_sysClose _) fun _ => ih

theorem fades_updateInodeOpenCnts (cur child : Nat) (ls : List Nat) :
    Keeps (Fades p) (updateInodeOpenCnts cur child ls) := by
  induction ls with
  | nil => exact keeps_pure _
  | cons l ls ih =>
    refine .bind keeps_get fun s => .bind (keeps_assert _) fun _ => .ite ?_ ih
    refine .bind (fades_isPipe cur l) fun b => .ite ?_ ?_
    · refine fun t => ?_
      rw [sat_bind, sat_get, sat_bind]
      refine (ih _).mono fun _ v hv => IsTrans.trans t _ v ?_ hv
      exact fades_update rfl fun x hx => hx
    · exact .bind (fades_fileInode _) fun x => .bind (fades_getInode x) fun i => .bind (fades_setInode _ _) fun _ => ih

theorem sat_forkFiles (cur child : Nat) (s : Fs) : ((forkFiles cur child).on s).Sat True
    (fun _ t => Fades child s t ∧ t.mem.fdTable child = s.mem.fdTable cur) := by
  rw [forkFiles, sat_bind, sat_modify]
  refine ((fades_updateInodeOpenCnts (p := child) cur child localFds _).and
    (fades_updateInodeOpenCnts (p := child + 1) cur child localFds _)).mono fun _ t ht => ⟨?_, ?_⟩
  · refine IsTrans.trans s _ t ?_ ht.1
    exact ⟨fun _ => rfl, fun _ _ h => h, fun _ _ h => h, fun q hq => update_of_ne hq _ _⟩
  · exact (ht.2.fds child (by omega)).trans (update_self ..)

end Fork

section Job

variable {p g page i o : Nat} {q : List UInt8} {s t : Fs}

theorem Ringed.fades (h : Ringed g page q s) (hf : Fades p s t) : Ringed g page q t where
  flag := (hf.flag g).trans h.flag
  inode x hx := h.inode x (hf.inode g x hx)
  ring ioq hq := h.ring ioq (hf.ring page ioq hq)

structure Waits (sh : Nat) (s t : Fs) : Prop where
  flag : ∀ g, (t.mem.fileTable g).fdFlag = (s.mem.fileTable g).fdFlag
  fds : t.mem.fdTable sh = s.mem.fdTable sh

theorem Waits.trans {u : Fs} (h : Waits sh s t) (h' : Waits sh t u) : Waits sh s u :=
  ⟨fun g => (h'.flag g).trans (h.flag g), h'.fds.trans h.fds⟩

theorem Std.waits (h : Std sh g i o s) (hw : Waits sh s t) : Std sh g i o t :=
  ⟨by rw [hw.fds, h.stdin], by rw [hw.fds, h.stdout], by rw [hw.flag]; exact h.source, by rw [hw.flag]; exact h.sink⟩

theorem Still.waits (h : Still s t) : Waits sh s t := ⟨fun g => by rw [h.slots], by rw [h.fds]⟩

theorem Fades.waits (h : Fades p s t) (hne : p ≠ sh) : Waits sh s t := ⟨h.flag, h.fds sh hne.symm⟩

theorem Fades.child_std (h : Fades p s t) (hfds : t.mem.fdTable p = s.mem.fdTable sh) (hs : Std sh g i o s) :
    Std p g i o t :=
  ⟨by rw [hfds, hs.stdin], by rw [hfds, hs.stdout], by rw [h.flag]; exact hs.source, by rw [h.flag]; exact hs.sink⟩

theorem cmdExecute_flow (kbd : Nat → UInt8) (job : Job sh) (h : Ringed g page q s) (hs : Std sh g i o s) :
    ((cmdExecute kbd job s).traces = [] ∧ (cmdExecute kbd job s).fs = none) ∨
      ∃ r w q', (cmdExecute kbd job s).traces = [⟨r, w⟩] ∧
        (q ++ if o = g then w else []) = (if i = g then r else []) ++ q' ∧
        ∀ t, (cmdExecute kbd job s).fs = some t → Waits sh s t ∧ Ringed g page q' t := by
  cases job with
  | builtin c =>
    obtain ⟨r, w, q', htr, hflow, hend⟩ := exec_flow kbd c ⟨[], []⟩ h hs
    exact Or.inr ⟨r, w, q', htr, hflow, fun t ht => ⟨(hend t ht).1.waits, (hend t ht).2⟩⟩
  | external child hne c =>
    rw [cmdExecute]
    rcases call_cases (forkFiles sh child) (fun _ s =>
      (c.exec child kbd ⟨[], []⟩ s).andThen (call (exitFiles child) fun _ s => ⟨[], some s⟩)) s with hcall | ⟨a, hfork, hcall⟩
    · rw [hcall]
      exact Or.inl ⟨rfl, rfl⟩
    rw [hcall]
    obtain ⟨hf, hfds⟩ := (sat_forkFiles sh child s).of_run (a := a.1) (s := a.2) hfork
    obtain ⟨r, w, q', htr, hflow, hend⟩ := exec_flow kbd c ⟨[], []⟩ (h.fades hf) (hf.child_std hfds hs)
    refine Or.inr ⟨r, w, q', ?_⟩
    cases hfs : (c.exec child kbd ⟨[], []⟩ a.2).fs with
    | none =>
      rw [andThen_none hfs]
      exact ⟨htr, hflow, fun t ht => by rw [hfs] at ht; cases ht⟩
    | some u =>
      obtain ⟨hstill, hring⟩ := hend u hfs
      rw [andThen_some hfs, htr]
      rcases call_cases (exitFiles child) (fun _ s => ⟨[], some s⟩) u with hcall | ⟨b, hexit, hcall⟩
      · rw [hcall]
        exact ⟨rfl, hflow, fun t ht => by cases ht⟩
      · rw [hcall]
        refine ⟨rfl, hflow, fun t ht => ?_⟩
        obtain rfl := Option.some.inj ht
        have hb := fades_exitFiles.of_run (a := b.1) (t := b.2) hexit
        exact ⟨(hf.waits hne).trans (hstill.waits.trans (hb.waits hne)), hring.fades hb⟩

end Job

section Flow

def Flow : (n : Nat) → List UInt8 → List Trace → Prop
  | _, _, [] => True
  | 0, q, tr :: rest => rest = [] ∧ tr.reads <+: q
  | n + 1, q, tr :: rest => ∃ q', q ++ tr.wrote = tr.reads ++ q' ∧ Flow n q' rest

theorem flow_nil (n : Nat) (q : List UInt8) : Flow n q [] := by
  cases n <;> trivial

theorem connected_of_flow {n : Nat} {a : Trace} {rest : List Trace} (h : Flow n a.wrote rest)
    (hd : Drained n (a :: rest)) : Connected (a :: rest) := by
  induction n generalizing a rest with
  | zero =>
    cases rest with
    | nil => exact .singleton a
    | cons b rest =>
      obtain ⟨rfl, hpre⟩ := h
      exact .cons_cons hpre (.singleton b)
  | succ n ih =>
    cases rest with
    | nil => exact .singleton a
    | cons b rest =>
      obtain ⟨q', hq, hflow⟩ := h
      obtain ⟨hle, heq, hd'⟩ := hd
      have hpre : b.reads <+: a.wrote :=
        List.prefix_of_prefix_length_le ⟨q', hq.symm⟩ (List.prefix_append _ _) hle
      refine .cons_cons hpre ?_
      by_cases hrest : rest = []
      · subst hrest
        exact .singleton b
      · obtain ⟨-, rfl⟩ := List.append_inj hq.symm (heq hrest)
        exact ih hflow hd'

variable {g page : Nat} {q : List UInt8} {s : Fs}

theorem flow_middle (kbd : Nat → UInt8) (jobs : List (Job sh)) {fin : Fs → Outcome}
    (hfin : ∀ q t, (t.mem.fileTable 1).fdFlag ≠ pipeFlag → Ringed g page q t → Std sh g g g t → Flow 0 q (fin t).traces)
    (hc : (s.mem.fileTable 1).fdFlag ≠ pipeFlag) (h : Ringed g page q s) (hs : Std sh g g g s) : Flow jobs.length q ((runMiddle kbd jobs s).andThen fin).traces := by
  induction jobs generalizing q s with
  | nil =>
    rw [runMiddle, andThen_some rfl]
    exact hfin q s hc h hs
  | cons job jobs ih =>
    rw [runMiddle, andThen_assoc]
    rcases cmdExecute_flow kbd job h hs with ⟨htr, hfs⟩ | ⟨r, w, q', htr, hflow, hend⟩
    · rw [andThen_none hfs, htr]
      exact trivial
    · rw [if_pos rfl, if_pos rfl] at hflow
      cases hfs : (cmdExecute kbd job s).fs with
      | none =>
        rw [andThen_none hfs, htr]
        exact ⟨q', hflow, flow_nil _ _⟩
      | some t =>
        obtain ⟨hw, hring⟩ := hend t hfs
        rw [andThen_some hfs, htr]
        exact ⟨q', hflow, ih (by rw [hw.flag]; exact hc) hring (hs.waits hw)⟩

end Flow

section Line

variable {g page : Nat} {q : List UInt8} {s t : Fs}

theorem sat_sysFdRedirect (old new : Nat) (s : Fs) : ((sysFdRedirect sh old new).on s).Sat True
    (fun _ t => t.mem.fileTable = s.mem.fileTable ∧ t.mem.pipes = s.mem.pipes ∧ new < maxFilesOpenPerProc ∧
      t.mem.fdTable sh = update (s.mem.fdTable sh) old (if new < 3 then (new : Int) else s.mem.fdTable sh new)) := by
  by_cases hold : old < maxFilesOpenPerProc
  · by_cases hnew : new < 3
    · simp only [sysFdRedirect, if_pos hold, if_pos hnew, setFd, sat_modify]
      exact ⟨trivial, trivial, Nat.lt_of_lt_of_le hnew (by decide), update_self ..⟩
    · by_cases hlt : new < maxFilesOpenPerProc
      · simp only [sysFdRedirect, if_pos hold, if_neg hnew, if_pos hlt, bind_on, get_on, Res.sat_bind, Res.sat_done, setFd,
          modify_on]
        exact ⟨trivial, trivial, hlt, update_self ..⟩
      · simp only [sysFdRedirect, if_pos hold, if_neg hnew, if_neg hlt, halt_on, Res.sat_stop]
  · rw [sysFdRedirect, if_neg hold]
    trivial

theorem Ringed.same (h : Ringed g page q s) (hf : t.mem.fileTable = s.mem.fileTable) (hp : t.mem.pipes = s.mem.pipes) :
    Ringed g page q t :=
  ⟨by rw [hf]; exact h.flag, by rw [hf]; exact h.inode, by rw [hp]; exact h.ring⟩

def Installed (sh g : Nat) (s : Fs) (fd : Int) : Prop := fd = -1 ∨ ∃ l : Nat, l ∈ localFds ∧ fd = l ∧ s.mem.fdTable sh l = g

theorem sat_pcbFdInstall (g : Nat) (s : Fs) : ((pcbFdInstall sh g).on s).Sat True (fun fd t =>
    t.mem.fileTable = s.mem.fileTable ∧ t.mem.pipes = s.mem.pipes ∧ Installed sh g t fd ∧
      ∀ l, s.mem.fdTable sh l ≠ -1 ∨ l < 3 → t.mem.fdTable sh l = s.mem.fdTable sh l) := by
  rw [pcbFdInstall, sat_bind, sat_get]
  cases hf : (List.range' 3 (maxFilesOpenPerProc - 3)).find? (fun l => s.mem.fdTable sh l == -1) with
  | none =>
    dsimp only
    rw [hf]
    exact ⟨rfl, rfl, Or.inl rfl, fun _ _ => rfl⟩
  | some l =>
    dsimp only
    rw [hf]
    have hfree : s.mem.fdTable sh l = -1 := by simpa using List.find?_some hf
    have hl := List.mem_of_find?_eq_some hf
    simp only [sat_bind, sat_modify, sat_pure]
    refine ⟨trivial, trivial, Or.inr ⟨l, hl, rfl, ?_⟩, fun k hk => ?_⟩
    · simp only [update_self]
    · have hne : k ≠ l := by
        rintro rfl
        rcases hk with hk | hk
        · exact hk hfree
        · exact absurd (mem_localFds.mp hl).1 (by omega)
      simp only [update_self, update_of_ne hne]

theorem sat_sysPipe (s : Fs) : ((sysPipe sh).on s).Sat True (fun fd t => ∃ g page, 3 ≤ g ∧
    Ringed g page [] t ∧ (∀ k < 3, t.mem.fileTable k = s.mem.fileTable k) ∧
    t.mem.fdTable sh 0 = s.mem.fdTable sh 0 ∧ Installed sh g t fd.1 ∧ Installed sh g t fd.2) := by
  simp only [sysPipe, getFreeSlotInGlobal, sat_bind, sat_get, sat_pure]
  split
  · trivial
  · next g hg =>
    have h3 : 3 ≤ g := (List.mem_range'_1.mp (List.mem_of_find?_eq_some hg)).1
    simp only [sat_bind, sat_get, sat_modify, setFile]
    refine (sat_pcbFdInstall g _).mono fun rd t ht => ?_
    obtain ⟨hslots, hpipes, hrd, hold⟩ := ht
    refine (sat_pcbFdInstall g t).mono fun wr u hu => ?_
    obtain ⟨hslots', hpipes', hwr, hold'⟩ := hu
    have hring : Ringed g s.mem.fresh [] u := by
      refine ⟨?_, fun x hx => ?_, fun ioq hq => ?_⟩
      · rw [hslots', hslots]
        simp only [update_self]
      · rw [hslots', hslots] at hx
        simp only [update_self, Option.some.injEq] at hx
        exact hx.symm
      · rw [hpipes', hpipes] at hq
        simp only [update_self, Option.some.injEq] at hq
        subst hq
        exact ⟨by decide, by decide, rfl⟩
    refine ⟨g, _, h3, hring, fun k hk => ?_, ?_, ?_, hwr⟩
    · rw [hslots', hslots]
      have hne : k ≠ g := by omega
      simp only [update_of_ne hne]
    · rw [hold' 0 (Or.inr (by decide)), hold 0 (Or.inr (by decide))]
    · refine hrd.imp_right fun h => ?_
      obtain ⟨l, hl, hfd, hlg⟩ := h
      refine ⟨l, hl, hfd, ?_⟩
      rw [hold' l (Or.inl (by rw [hlg]; omega)), hlg]

theorem redirect_installed {old : Nat} {fd : Int} (hfd : Installed sh g s fd)
    (hr : ((sysFdRedirect sh old (uint32 fd)).on s).run = .ok ((), t)) : t.mem.fileTable = s.mem.fileTable ∧
      t.mem.pipes = s.mem.pipes ∧ t.mem.fdTable sh = update (s.mem.fdTable sh) old g := by
  obtain ⟨hslots, hpipes, hlt, hfds⟩ := (sat_sysFdRedirect old _ s).of_run hr
  rcases hfd with rfl | ⟨l, hl, rfl, hlg⟩
  · exact absurd hlt (by decide)
  · obtain ⟨h3, h8⟩ := mem_localFds.mp hl
    have hcast : uint32 l = l := by
      rw [uint32, Int.emod_eq_of_lt (by omega) (by omega), Int.toNat_natCast]
    rw [hcast, if_neg (by omega), hlg] at hfds
    exact ⟨hslots, hpipes, hfds⟩

theorem call_quiet {α : Type} {c : Prog Fs Buf α} {f : α → Fs → Outcome} (hf : ∀ a t, (f a t).traces = []) (s : Fs) :
    (call c f s).traces = [] := by
  rcases call_cases c f s with hcall | ⟨r, -, hcall⟩
  · rw [hcall]
  · rw [hcall, hf]

theorem flow_last (kbd : Nat → UInt8) (last : Job sh) {fin : Fs → Outcome} (hfin : ∀ t, (fin t).traces = [])
    (h3 : 3 ≤ g) (hconsole : (s.mem.fileTable 1).fdFlag ≠ pipeFlag) (h : Ringed g page q s) (hs : Std sh g g g s) :
    Flow 0 q (call (sysFdRedirect sh 1 1) (fun _ s => (cmdExecute kbd last s).andThen fin) s).traces := by
  rcases call_cases (sysFdRedirect sh 1 1) (fun _ s => (cmdExecute kbd last s).andThen fin) s with hcall | ⟨a, hr, hcall⟩
  · rw [hcall]
    trivial
  rw [hcall]
  obtain ⟨hslots, hpipes, -, hfds⟩ := (sat_sysFdRedirect 1 1 s).of_run (a := a.1) (s := a.2) hr
  have hstd : Std sh g g 1 a.2 := by
    refine ⟨?_, ?_, fun hne => absurd rfl hne, fun _ => by rw [hslots]; exact hconsole⟩
    · rw [hfds, update_of_ne (by decide), hs.stdin]
    · rw [hfds, update_self]
      rfl
  rcases cmdExecute_flow kbd last (h.same hslots hpipes) hstd with ⟨htr, hfs⟩ | ⟨r, w, q', htr, hflow, -⟩
  · rw [andThen_none hfs, htr]
    trivial
  · rw [if_neg (by omega), if_pos rfl, List.append_nil] at hflow
    have hpre : r <+: q := ⟨q', hflow.symm⟩
    cases hfs : (cmdExecute kbd last a.2).fs with
    | none =>
      rw [andThen_none hfs, htr]
      exact ⟨rfl, hpre⟩
    | some t =>
      rw [andThen_some hfs, htr, hfin]
      exact ⟨rfl, hpre⟩

theorem myShell_flow (kbd : Nat → UInt8) (first : Job sh) (middle : List (Job sh)) (last : Job sh) (h : Idle sh s) :
    (myShell kbd first middle last s).traces = [] ∨
      ∃ a rest, (myShell kbd first middle last s).traces = a :: rest ∧ Flow middle.length a.wrote rest := by
  rw [myShell]
  rcases call_cases (sysPipe sh) _ s with hcall | ⟨fd, hr, hcall⟩ <;> rw [hcall]
  · exact Or.inl rfl
  obtain ⟨g, page, h3, hring, hslots, hin, hrd, hwr⟩ := (sat_sysPipe s).of_run (a := fd.1) (s := fd.2) hr
  have hconsole : ∀ k < 3, (fd.2.mem.fileTable k).fdFlag ≠ pipeFlag := by
    intro k hk
    rw [hslots k hk]
    exact h.console k hk
  rcases call_cases (sysFdRedirect sh 1 (uint32 fd.1.2)) _ fd.2 with hcall | ⟨a, hr, hcall⟩ <;> rw [hcall]
  · exact Or.inl rfl
  obtain ⟨hslots₁, hpipes₁, hfds₁⟩ := redirect_installed (t := a.2) hwr hr
  have hstd : Std sh g 0 g a.2 := by
    refine ⟨?_, by rw [hfds₁, update_self], fun _ => by rw [hslots₁]; exact hconsole 0 (by decide),
      fun hne => absurd rfl hne⟩
    rw [hfds₁, update_of_ne (by decide), hin, h.stdin]
    rfl
  rcases cmdExecute_flow kbd first (hring.same hslots₁ hpipes₁) hstd with ⟨htr, hfs⟩ | ⟨r, w, q', htr, hflow, hend⟩
  · rw [andThen_none hfs, htr]
    exact Or.inl rfl
  rw [if_pos rfl, if_neg (by omega), List.nil_append, List.nil_append] at hflow
  subst hflow
  cases hfs : (cmdExecute kbd first a.2).fs with
  | none =>
    rw [andThen_none hfs, htr]
    exact Or.inr ⟨⟨r, w⟩, [], rfl, flow_nil _ _⟩
  | some b =>
    obtain ⟨hw, hring₂⟩ := hend b hfs
    rw [andThen_some hfs, htr]
    refine Or.inr ⟨⟨r, w⟩, _, rfl, ?_⟩
    have hrd₂ : Installed sh g b fd.1.1 := by
      refine hrd.imp_right fun h => ?_
      obtain ⟨l, hl, hfd, hlg⟩ := h
      refine ⟨l, hl, hfd, ?_⟩
      rw [hw.fds, hfds₁, update_of_ne (by have := (mem_localFds.mp hl).1; omega), hlg]
    rcases call_cases (sysFdRedirect sh 0 (uint32 fd.1.1)) _ b with hcall | ⟨c, hr, hcall⟩ <;> rw [hcall]
    · exact flow_nil _ _
    obtain ⟨hslots₃, hpipes₃, hfds₃⟩ := redirect_installed (t := c.2) hrd₂ hr
    have hstd₃ : Std sh g g g c.2 := by
      refine ⟨by rw [hfds₃, update_self], ?_, fun hne => absurd rfl hne, fun hne => absurd rfl hne⟩
      rw [hfds₃, update_of_ne (by decide), hw.fds, hstd.stdout]
    refine flow_middle kbd middle (fun q t ht hring hs => flow_last kbd last (fun u => ?_) h3 ht hring hs) ?_
      (hring₂.same hslots₃ hpipes₃) hstd₃
    · exact call_quiet (fun _ => call_quiet fun _ => call_quiet fun _ _ => rfl) u
    · rw [hslots₃, hw.flag, hslots₁]
      exact hconsole 1 (by decide)

end Line

section Example

def prompt : Fs := bootState 63 1000 fun _ => 0

theorem prompt_idle : Idle 1 prompt where
  stdin := rfl
  console _ _ := by
    change (0 : Nat) ≠ pipeFlag
    decide

def say (bytes : List UInt8) : Job 1 := .builtin (.write bytes fun _ => .exit)

def hear (count : Nat) : Job 1 := .external 2 (by decide) (.read count fun _ => .exit)

def copy (count : Nat) : Job 1 := .external 2 (by decide) (.read count fun r => .write (r.getD []) fun _ => .exit)

end Example

end TrueOs.Fs.Shell
