import TrueOs.Shell.Pipeline

/-! Which descriptors a process may pass to the calls of `fs/fs.c`.

The number is looked up before anybody has looked at it: one that is not open stops the
system. -/

namespace TrueOs.Fs

open Prog

def openSlot (m : Mem) (cur : Nat) (fd : Int) : Option Nat :=
  if 0 ≤ fd ∧ fd < 8 ∧ 0 ≤ m.fdTable cur fd.toNat ∧ m.fdTable cur fd.toNat < 32 then
    some (m.fdTable cur fd.toNat).toNat
  else
    none

def Opened (m : Mem) (cur : Nat) (fd : Int) : Prop := 0 ≤ fd ∧ fd < 8 ∧ m.fdTable cur fd.toNat ≠ -1

def Returns {α : Type} (c : Prog Fs Buf α) (s : Fs) : Prop := ∃ r, (c.on s).run = .ok r

def Answers {α : Type} (c : Prog Fs Buf α) (s : Fs) (isOpen : Prop) (refused : α) : Prop :=
  ∃ r, (c.on s).run = .ok r ∧ (¬isOpen → r = (refused, s))

def LiveFile (m : Mem) (g : Nat) : Prop := ∃ p i, (m.fileTable g).fdInode = some p ∧ m.inodes p = some i

def LivePipe (m : Mem) (g : Nat) (ioq : Ioqueue) : Prop :=
  ∃ page, (m.fileTable g).fdInode = some page ∧ m.pipes page = some ioq

def CanClose (m : Mem) (cur : Nat) (fd : Int) : Prop := fd ≤ 2 ∨ ∃ g, openSlot m cur fd = some g ∧
  if (m.fileTable g).fdFlag = pipeFlag then sub32 (m.fileTable g).fdPos 1 = 0 → (m.fileTable g).fdInode ≠ none
  else LiveFile m g

def CanSeek (m : Mem) (cur : Nat) (fd : Int) : Prop := fd < 0 ∨ ∃ g, openSlot m cur fd = some g ∧
  if (m.fileTable g).fdFlag = pipeFlag then (m.fileTable g).fdInode ≠ none else LiveFile m g

/-- What `new` stands for, if it is a standard descriptor or open. -/
def CanCopy (m : Mem) (cur new : Nat) : Prop := new < 3 ∨ Opened m cur new

def CanRead (s : Fs) (cur : Nat) (fd : Int) (count : Nat) : Prop :=
  fd < 0 ∨ fd = 1 ∨ fd = 2 ∨ ∃ g, openSlot s.mem cur fd = some g ∧
    if (s.mem.fileTable g).fdFlag = pipeFlag then ∃ ioq, LivePipe s.mem g ioq else fd = 0 ∨ Returns (fileRead g count) s

/-- A pipe has to have room for all bytes and one more, and the console for 1024. -/
def CanWrite (s : Fs) (cur : Nat) (fd : Int) (buf : Buf) (count : Nat) : Prop :=
  fd < 0 ∨ ∃ g, openSlot s.mem cur fd = some g ∧
    if (s.mem.fileTable g).fdFlag = pipeFlag then ∃ ioq, LivePipe s.mem g ioq ∧ ioqLength ioq + count < bufsize
    else if fd = 1 then count ≤ 1024
    else (s.mem.fileTable g).fdFlag &&& oWronly ≠ 0 ∨ (s.mem.fileTable g).fdFlag &&& oRdwr ≠ 0 →
      Returns (fileWrite g buf count) s

def Rings (m : Mem) : Prop := ∀ page ioq, m.pipes page = some ioq → ioq.head < bufsize ∧ ioq.tail < bufsize

section Returns

variable {α γ : Type} {s : Fs}

theorem returns_bind (c : Prog Fs Buf α) (f : α → Prog Fs Buf γ) (s : Fs) :
    Returns (c >>= f) s ↔ ∃ r, (c.on s).run = .ok r ∧ Returns (f r.1) r.2 := by
  rw [Returns, bind_on, Res.run_bind]
  cases (c.on s).run with
  | error e => simp [Except.bind]
  | ok r => simp [Except.bind, Returns]

theorem returns_of_run {c : Prog Fs Buf α} {f : α → Prog Fs Buf γ} {a : α} {t : Fs}
    (h : (c.on s).run = .ok (a, t)) : Returns (c >>= f) s ↔ Returns (f a) t := by
  rw [returns_bind, h]
  simp

@[simp] theorem returns_pure (a : α) : Returns (pure a : Prog Fs Buf α) s := ⟨_, rfl⟩

theorem not_returns_halt (r : Stop) : ¬Returns (halt r : Prog Fs Buf α) s := by
  rintro ⟨_, h⟩
  cases h

theorem not_returns_halt_bind (r : Stop) (f : α → Prog Fs Buf γ) : ¬Returns (halt r >>= f) s := not_returns_halt r

theorem returns_get (f : Fs → Prog Fs Buf γ) : Returns (get >>= f) s ↔ Returns (f s) s := returns_of_run rfl

theorem returns_modify (g : Fs → Fs) (f : Unit → Prog Fs Buf γ) :
    Returns (modify g >>= f) s ↔ Returns (f ()) (g s) := returns_of_run rfl

theorem returns_modify_pure (g : Fs → Fs) (a : α) : Returns (do modify g; pure a) s := ⟨_, rfl⟩

theorem returns_assert {c : Bool} (f : Unit → Prog Fs Buf γ) : Returns (assert c >>= f) s ↔ c = true ∧ Returns (f ()) s := by
  rw [returns_bind]
  cases c with
  | false => simp [Prog.assert, Res.run]
  | true => simp [Prog.assert, Res.run]

theorem Answers.returns {c : Prog Fs Buf α} {P : Prop} {a : α} (h : Answers c s P a) : Returns c s :=
  h.imp fun _ hr => hr.1

theorem Returns.answers {c : Prog Fs Buf α} {P : Prop} {a : α} (h : Returns c s) (hp : P) : Answers c s P a :=
  h.imp fun _ hr => ⟨hr, fun hn => absurd hp hn⟩

end Returns

section Slot

variable {s : Fs} {cur : Nat} {fd : Int} {γ : Type}

theorem opened_of_slot {g : Nat} (h : openSlot s.mem cur fd = some g) : Opened s.mem cur fd := by
  rw [openSlot] at h
  split at h
  · next hc => exact ⟨hc.1, hc.2.1, by omega⟩
  · cases h

theorem returns_slot (h0 : 0 ≤ fd) (f : Nat → Prog Fs Buf γ) :
    Returns (fdLocal2Global cur fd.toNat >>= f) s ↔ ∃ g, openSlot s.mem cur fd = some g ∧ Returns (f g) s := by
  rw [fdLocal2Global, openSlot]
  by_cases h8 : fd < 8
  · rw [if_pos (show fd.toNat < maxFilesOpenPerProc by simp only [maxFilesOpenPerProc]; omega)]
    simp only [bind_assoc, returns_get, returns_assert, decide_eq_true_eq, maxFileOpen]
    by_cases hg : 0 ≤ s.mem.fdTable cur fd.toNat ∧ s.mem.fdTable cur fd.toNat < 32
    · rw [if_pos ⟨h0, h8, hg⟩]
      simp only [pure_bind, Option.some.injEq, exists_eq_left']
      exact ⟨fun h => h.2, fun h => ⟨hg, h⟩⟩
    · rw [if_neg (fun h => hg h.2.2)]
      exact iff_of_false (fun h => hg h.1) (by simp)
  · rw [if_neg (show ¬fd.toNat < maxFilesOpenPerProc by simp only [maxFilesOpenPerProc]; omega), if_neg (fun h => h8 h.2.1)]
    exact iff_of_false (not_returns_halt_bind _ _) (by simp)

theorem returns_isPipe (h0 : 0 ≤ fd) (f : Bool → Prog Fs Buf γ) :
    Returns (isPipe cur fd.toNat >>= f) s ↔
      ∃ g, openSlot s.mem cur fd = some g ∧ Returns (f ((s.mem.fileTable g).fdFlag == pipeFlag)) s := by
  rw [isPipe, bind_assoc, returns_slot h0]
  simp only [bind_assoc, returns_get, pure_bind]

theorem returns_fileInode (g : Nat) (f : Nat → Prog Fs Buf γ) :
    Returns (fileInode g >>= f) s ↔ ∃ p, (s.mem.fileTable g).fdInode = some p ∧ Returns (f p) s := by
  rw [fileInode, bind_assoc, returns_get]
  cases (s.mem.fileTable g).fdInode with
  | none => exact iff_of_false (not_returns_halt_bind _ _) (by simp)
  | some p => simp only [pure_bind, Option.some.injEq, exists_eq_left']

theorem returns_getInode (p : Nat) (f : Inode → Prog Fs Buf γ) :
    Returns (getInode p >>= f) s ↔ ∃ i, s.mem.inodes p = some i ∧ Returns (f i) s := by
  rw [getInode, bind_assoc, returns_get]
  cases s.mem.inodes p with
  | none => exact iff_of_false (not_returns_halt_bind _ _) (by simp)
  | some i => simp only [pure_bind, Option.some.injEq, exists_eq_left']

end Slot

section Close

variable {s : Fs} {cur g : Nat} {fd : Int} {γ : Type}

theorem returns_inodeClose {p : Nat} {i : Inode} (hi : s.mem.inodes p = some i) {f : Unit → Prog Fs Buf γ}
    (hf : ∀ t, Returns (f ()) t) : Returns (inodeClose p >>= f) s := by
  rw [inodeClose, bind_assoc, returns_getInode]
  refine ⟨i, hi, ?_⟩
  split
  · exact (returns_modify _ _).mpr (hf _)
  · exact (returns_modify _ _).mpr (hf _)

theorem returns_fileClose {f : Int → Prog Fs Buf γ} (hf : ∀ r t, Returns (f r) t) :
    Returns (fileClose g >>= f) s ↔ LiveFile s.mem g := by
  simp only [fileClose, bind_assoc, returns_fileInode, returns_getInode, setInode, returns_modify, LiveFile]
  constructor
  · rintro ⟨p, hp, i, hi, -⟩
    exact ⟨p, i, hp, hi⟩
  · rintro ⟨p, i, hp, hi⟩
    refine ⟨p, hp, i, hi, returns_inodeClose (Function.update_self ..) fun t => ?_⟩
    rw [returns_get, setFile, returns_modify, pure_bind]
    exact hf _ _

theorem returns_closePipe {f : Unit → Prog Fs Buf γ} (hf : ∀ t, Returns (f ()) t) :
    Returns (closePipe g >>= f) s ↔ (sub32 (s.mem.fileTable g).fdPos 1 = 0 → (s.mem.fileTable g).fdInode ≠ none) := by
  rw [closePipe, bind_assoc, returns_get]
  dsimp only
  by_cases h0 : sub32 (s.mem.fileTable g).fdPos 1 = 0
  · rw [if_pos h0, imp_iff_right h0, Option.ne_none_iff_exists']
    simp only [bind_assoc, returns_fileInode, returns_modify, setFile]
    exact exists_congr fun p => and_iff_left (hf _)
  · rw [if_neg h0]
    exact iff_of_true ((returns_modify _ _).mpr (hf _)) fun h => absurd h h0

theorem answers_sysClose : Answers (sysClose cur fd) s (Opened s.mem cur fd) (-1) ↔ CanClose s.mem cur fd := by
  by_cases h2 : 2 < fd
  · have h0 : 0 ≤ fd := by omega
    have hret : Returns (sysClose cur fd) s ↔ CanClose s.mem cur fd := by
      rw [sysClose, if_pos h2, returns_slot h0, CanClose, or_iff_right (by omega)]
      refine exists_congr fun g => and_congr_right fun hg => ?_
      rw [returns_isPipe h0]
      simp only [hg, Option.some.injEq, exists_eq_left']
      by_cases hflag : (s.mem.fileTable g).fdFlag = pipeFlag
      · rw [if_pos hflag, if_pos (by simpa using hflag)]
        exact returns_closePipe fun t => returns_modify_pure _ _
      · rw [if_neg hflag, if_neg (by simpa using hflag)]
        exact returns_fileClose fun r t => returns_modify_pure _ _
    refine ⟨fun h => hret.mp h.returns, fun h => (hret.mpr h).answers ?_⟩
    obtain ⟨g, hg, -⟩ := h.resolve_left (by omega)
    exact opened_of_slot hg
  · rw [sysClose, if_neg h2]
    exact iff_of_true ⟨_, rfl, fun _ => rfl⟩ (Or.inl (by omega))

end Close

section Seek

variable {s : Fs} {cur : Nat} {fd offset : Int} {whence : Nat}

theorem returns_fileSize {γ : Type} {g : Nat} {f : Int → Prog Fs Buf γ} (hf : ∀ r, Returns (f r) s) :
    Returns (fileSize (s.mem.fileTable g) >>= f) s ↔
      if (s.mem.fileTable g).fdFlag = pipeFlag then (s.mem.fileTable g).fdInode ≠ none else LiveFile s.mem g := by
  rw [fileSize, LiveFile]
  cases hi : (s.mem.fileTable g).fdInode with
  | none => exact iff_of_false (not_returns_halt_bind _ _) (by simp)
  | some p =>
    dsimp only
    by_cases hflag : (s.mem.fileTable g).fdFlag = pipeFlag
    · rw [if_pos hflag, if_pos hflag, pure_bind]
      exact iff_of_true (hf _) (by simp)
    · rw [if_neg hflag, if_neg hflag, bind_assoc, returns_getInode]
      simp only [Option.some.injEq, exists_and_left, exists_eq_left']
      exact exists_congr fun i => and_iff_left (hf _)

theorem answers_sysLseek (hw : 0 < whence ∧ whence < 4) :
    Answers (sysLseek cur fd offset whence) s (Opened s.mem cur fd) (-1) ↔ CanSeek s.mem cur fd := by
  by_cases hneg : fd < 0
  · rw [sysLseek, if_pos hneg]
    exact iff_of_true ⟨_, rfl, fun _ => rfl⟩ (Or.inl hneg)
  · have h0 : 0 ≤ fd := by omega
    have hret : Returns (sysLseek cur fd offset whence) s ↔ CanSeek s.mem cur fd := by
      rw [sysLseek, if_neg hneg, returns_assert, decide_eq_true_eq, and_iff_right hw, returns_slot h0, CanSeek,
        or_iff_right hneg]
      refine exists_congr fun g => and_congr_right fun hg => ?_
      rw [returns_get]
      refine returns_fileSize fun r => ?_
      dsimp only
      generalize (if whence = 1 then offset
        else if whence = 2 then int32 (s.mem.fileTable g).fdPos + offset else r + offset) = newPos
      split
      · exact returns_pure _
      · exact returns_modify_pure _ _
    refine ⟨fun h => hret.mp h.returns, fun h => (hret.mpr h).answers ?_⟩
    obtain ⟨g, hg, -⟩ := h.resolve_left hneg
    exact opened_of_slot hg

end Seek

section Redirect

variable {s : Fs} {cur old new : Nat}

def copied (m : Mem) (cur new : Nat) : Int := if new < 3 then new else m.fdTable cur new

theorem run_sysFdRedirect (hold : old < 8) (hnew : new < 8) : ((sysFdRedirect cur old new).on s).run =
    .ok ((), { s with
      mem.fdTable := Function.update s.mem.fdTable cur
        (Function.update (s.mem.fdTable cur) old (copied s.mem cur new)) }) := by
  rw [sysFdRedirect, if_pos hold, copied]
  by_cases h3 : new < 3
  · rw [if_pos h3, if_pos h3]
    rfl
  · rw [if_neg h3, if_pos hnew, if_neg h3]
    rfl

theorem answers_sysFdRedirect : Answers (sysFdRedirect cur old new) s (CanCopy s.mem cur new) () ↔
    old < 8 ∧ (CanCopy s.mem cur new ∨ new < 8 ∧ s.mem.fdTable cur old = -1) := by
  by_cases hold : old < 8
  · by_cases hnew : new < 8
    · rw [Answers, run_sysFdRedirect hold hnew]
      simp only [Except.ok.injEq, exists_eq_left', hold, hnew, true_and]
      rw [or_iff_not_imp_left]
      refine forall_congr' fun hclosed => ?_
      have h3 : ¬new < 3 := fun h => hclosed (Or.inl h)
      have hnone : s.mem.fdTable cur new = -1 := by
        by_contra hne
        exact hclosed (Or.inr ⟨by omega, by omega, hne⟩)
      rw [copied, if_neg h3, hnone]
      constructor
      · intro h
        have hfds := congrArg (fun r : Unit × Fs => r.2.mem.fdTable cur old) h
        simpa only [Function.update_self] using hfds.symm
      · intro h
        rw [← h, Function.update_eq_self, Function.update_eq_self]
    · have hcopy : ¬CanCopy s.mem cur new := by
        rintro (h | h)
        · omega
        · exact hnew (by have := h.2.1; omega)
      refine iff_of_false (fun h => ?_) (fun h => h.2.elim hcopy fun h => hnew h.1)
      have hret := h.returns
      rw [sysFdRedirect, if_pos hold, if_neg (by omega), if_neg hnew] at hret
      exact not_returns_halt _ hret
  · refine iff_of_false (fun h => ?_) (fun h => hold h.1)
    have hret := h.returns
    rw [sysFdRedirect, if_neg hold] at hret
    exact not_returns_halt _ hret

end Redirect

section Ring

open Fs.Shell

variable {ioq : Ioqueue} {q : List UInt8} {s : Fs} {γ : Type}

theorem Shell.Holds.length (h : Holds ioq q) : ioqLength ioq = q.length := by
  rw [← h.contents, Ring.length_contents]
  rfl

theorem Shell.Holds.lt (h : Holds ioq q) : q.length < bufsize := by
  rw [← h.contents, Ring.length_contents]
  exact Ring.len_lt h.head _

theorem Shell.Holds.full (h : Holds ioq q) : ioqFull ioq = true ↔ q.length + 1 = bufsize := by
  rw [← h.contents, Ring.length_contents, ← Ring.full_iff h.head h.tail]
  exact beq_iff_eq

theorem Shell.Holds.ne (h : Holds ioq q) (hq : 0 < q.length) : (ioq.head == ioq.tail) = false := by
  rw [← h.contents, Ring.length_contents] at hq
  have hne : ioq.head ≠ ioq.tail := fun he => by
    rw [(Ring.len_eq_zero h.tail).mpr he] at hq
    exact Nat.lt_irrefl 0 hq
  simpa using hne

theorem returns_putChars (h : Holds ioq q) {buf : Buf} {size k : Nat} {f : Ioqueue → Prog Fs Buf γ}
    (hf : ∀ r, Returns (f r) s) : Returns (putChars buf size k ioq >>= f) s ↔ q.length + size < bufsize := by
  induction size generalizing k ioq q with
  | zero =>
    rw [putChars, pure_bind]
    exact iff_of_true (hf _) h.lt
  | succ size ih =>
    rw [putChars, bind_assoc, ioqPutchar]
    by_cases hfull : ioqFull ioq = true
    · rw [if_pos hfull]
      have := h.full.mp hfull
      exact iff_of_false (not_returns_halt_bind _ _) (by omega)
    · rw [if_neg hfull, pure_bind, ih (h.put (by simpa using hfull) _), List.length_append, List.length_singleton]
      omega

theorem returns_getChars (h : Holds ioq q) {size : Nat} (hsize : size ≤ q.length) {f : List UInt8 × Ioqueue → Prog Fs Buf γ}
    (hf : ∀ r, Returns (f r) s) : Returns (getChars size ioq >>= f) s := by
  induction size generalizing ioq q f with
  | zero =>
    rw [getChars, pure_bind]
    exact hf _
  | succ size ih =>
    have hne := h.ne (by omega)
    obtain ⟨q', rfl, hq'⟩ := h.get (by simpa using hne)
    rw [List.length_cons] at hsize
    rw [getChars, bind_assoc, ioqGetchar, if_neg (by rw [hne]; exact Bool.false_ne_true), pure_bind, bind_assoc]
    refine ih hq' (by omega) fun r => ?_
    rw [pure_bind]
    exact hf _

end Ring

section Transfer

open Fs.Shell

variable {s : Fs} {cur g : Nat} {fd : Int} {γ : Type}

theorem Rings.holds (h : Rings s.mem) {page : Nat} {ioq : Ioqueue} (hq : s.mem.pipes page = some ioq) :
    ∃ q, Holds ioq q := ⟨_, (h page ioq hq).1, (h page ioq hq).2, rfl⟩

theorem returns_pipeRead (hr : Rings s.mem) (h0 : 0 ≤ fd) (hg : openSlot s.mem cur fd = some g) (count : Nat)
    {f : List UInt8 → Prog Fs Buf γ} (hf : ∀ r t, Returns (f r) t) :
    Returns (pipeRead cur fd.toNat count >>= f) s ↔ ∃ ioq, LivePipe s.mem g ioq := by
  rw [pipeRead, bind_assoc, returns_slot h0]
  simp only [hg, Option.some.injEq, exists_eq_left', bind_assoc, returns_fileInode, returns_get, LivePipe]
  rw [exists_comm]
  refine exists_congr fun page => ?_
  rw [exists_and_left]
  refine and_congr_right fun _ => ?_
  cases hq : s.mem.pipes page with
  | none => exact iff_of_false (not_returns_halt_bind _ _) (by simp)
  | some ioq =>
    obtain ⟨q, hold⟩ := hr.holds hq
    dsimp only
    rw [bind_assoc]
    refine iff_of_true (returns_getChars hold ?_ fun r => ?_) (by simp)
    · rw [hold.length]
      split <;> omega
    · rw [bind_assoc, returns_modify, pure_bind]
      exact hf _ _

theorem returns_pipeWrite (hr : Rings s.mem) (h0 : 0 ≤ fd) (hg : openSlot s.mem cur fd = some g) (buf : Buf) (count : Nat) :
    Returns (pipeWrite cur fd.toNat buf count) s ↔ ∃ ioq, LivePipe s.mem g ioq ∧ ioqLength ioq + count < bufsize := by
  rw [pipeWrite, returns_slot h0]
  simp only [hg, Option.some.injEq, exists_eq_left', returns_fileInode, returns_get, LivePipe]
  constructor
  · rintro ⟨page, hpage, hret⟩
    cases hq : s.mem.pipes page with
    | none =>
      rw [hq] at hret
      exact absurd hret (not_returns_halt _)
    | some ioq =>
      rw [hq] at hret
      obtain ⟨q, hold⟩ := hr.holds hq
      dsimp only at hret
      replace hret := (returns_putChars hold fun _ => returns_modify_pure _ _).mp hret
      rw [hold.length] at hret
      have hlt := hold.lt
      refine ⟨ioq, ⟨page, hpage, hq⟩, ?_⟩
      rw [hold.length]
      split at hret <;> omega
  · rintro ⟨ioq, ⟨page, hpage, hq⟩, hroom⟩
    refine ⟨page, hpage, ?_⟩
    rw [hq]
    obtain ⟨q, hold⟩ := hr.holds hq
    rw [hold.length] at hroom
    dsimp only
    refine (returns_putChars hold fun _ => returns_modify_pure _ _).mpr ?_
    rw [hold.length, if_pos (by omega)]
    exact hroom

theorem answers_sysRead (hr : Rings s.mem) (kbd : Nat → UInt8) (count : Nat) :
    Answers (sysRead cur kbd fd count) s (Opened s.mem cur fd) none ↔ CanRead s cur fd count := by
  by_cases hbad : fd < 0 ∨ fd = 1 ∨ fd = 2
  · rw [sysRead, if_pos hbad, CanRead, ← or_assoc, ← or_assoc, or_assoc (a := fd < 0)]
    exact iff_of_true ⟨_, rfl, fun _ => rfl⟩ (Or.inl hbad)
  · have h0 : 0 ≤ fd := by omega
    have hret : Returns (sysRead cur kbd fd count) s ↔ CanRead s cur fd count := by
      rw [sysRead, if_neg hbad, returns_isPipe h0, CanRead, ← or_assoc, ← or_assoc, or_assoc (a := fd < 0),
        or_iff_right hbad]
      refine exists_congr fun g => and_congr_right fun hg => ?_
      by_cases hflag : (s.mem.fileTable g).fdFlag = pipeFlag
      · rw [if_pos hflag, if_pos (by simpa using hflag)]
        exact returns_pipeRead hr h0 hg count fun _ _ => returns_pure _
      · rw [if_neg hflag, if_neg (by simpa using hflag)]
        by_cases hkbd : fd = 0
        · rw [if_pos hkbd]
          exact iff_of_true (returns_pure _) (Or.inl hkbd)
        · rw [if_neg hkbd, or_iff_right hkbd, readFile, returns_slot h0]
          simp only [hg, Option.some.injEq, exists_eq_left']
    refine ⟨fun h => hret.mp h.returns, fun h => (hret.mpr h).answers ?_⟩
    rw [CanRead, ← or_assoc, ← or_assoc, or_assoc (a := fd < 0), or_iff_right hbad] at h
    obtain ⟨g, hg, -⟩ := h
    exact opened_of_slot hg

theorem answers_sysWrite (hr : Rings s.mem) (buf : Buf) (count : Nat) :
    Answers (sysWrite cur fd buf count) s (Opened s.mem cur fd) (-1) ↔ CanWrite s cur fd buf count := by
  by_cases hneg : fd < 0
  · rw [sysWrite, if_pos hneg]
    exact iff_of_true ⟨_, rfl, fun _ => rfl⟩ (Or.inl hneg)
  · have h0 : 0 ≤ fd := by omega
    have hret : Returns (sysWrite cur fd buf count) s ↔ CanWrite s cur fd buf count := by
      rw [sysWrite, if_neg hneg, returns_isPipe h0, CanWrite, or_iff_right hneg]
      refine exists_congr fun g => and_congr_right fun hg => ?_
      by_cases hflag : (s.mem.fileTable g).fdFlag = pipeFlag
      · rw [if_pos hflag, if_pos (by simpa using hflag)]
        exact returns_pipeWrite hr h0 hg buf count
      · rw [if_neg hflag, if_neg (by simpa using hflag)]
        by_cases hout : fd = 1
        · rw [if_pos hout, if_pos hout, consoleWrite]
          by_cases hcount : count ≤ 1024
          · rw [if_pos hcount]
            exact iff_of_true (returns_pure _) hcount
          · rw [if_neg hcount]
            exact iff_of_false (not_returns_halt _) hcount
        · rw [if_neg hout, if_neg hout, returns_slot h0]
          simp only [hg, Option.some.injEq, exists_eq_left', returns_get]
          by_cases hflags : (s.mem.fileTable g).fdFlag &&& oWronly ≠ 0 ∨ (s.mem.fileTable g).fdFlag &&& oRdwr ≠ 0
          · rw [if_pos hflags, imp_iff_right hflags]
          · rw [if_neg hflags]
            exact iff_of_true (returns_pure _) fun h => absurd h hflags
    refine ⟨fun h => hret.mp h.returns, fun h => (hret.mpr h).answers ?_⟩
    obtain ⟨g, hg, -⟩ := h.resolve_left hneg
    exact opened_of_slot hg

end Transfer

section Example

theorem started_rings : Rings (bootState 63 1000 fun _ => 0).mem := by
  intro page ioq h
  cases h

end Example

end TrueOs.Fs
