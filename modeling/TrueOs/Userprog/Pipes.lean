import Mathlib.Algebra.BigOperators.Group.Finset.Basic
import Mathlib.Algebra.Order.BigOperators.Group.Finset
import Mathlib.Order.Interval.Finset.Nat
import Mathlib.Tactic.IntervalCases
import TrueOs.Spec.Open
import TrueOs.Userprog.ForkClose

/-! Pipes are counted in `fd_pos`: descriptors 3 to 7 of every process are, the
standard ones are not. -/

namespace TrueOs.Fs.Pipe

open Function (update update_self update_of_ne update_apply)
open Prog

structure World where
  fs : Fs
  live : Finset Nat

inductive Call
  | pipe (p : Nat)
  | fork (p c : Nat)
  | close (p : Nat) (fd : Int)
  | exit (p : Nat)
  | redirect (p old new : Nat)
  | lseek (p : Nat) (fd offset : Int) (whence : Nat)

/-- A call of a live process that returns.  There are 1024 pids. -/
inductive Step : World → Call → World → Prop
  | pipe {s t : Fs} {live : Finset Nat} {p : Nat} {r : Int × Int} (hp : p ∈ live)
      (hr : ((sysPipe p).on s).run = .ok (r, t)) : Step ⟨s, live⟩ (.pipe p) ⟨t, live⟩
  | fork {s t : Fs} {live : Finset Nat} {p c : Nat} (hp : p ∈ live) (hc : c ∉ live)
      (hpid : c ∈ Finset.Icc 1 1024) (hr : ((forkFiles p c).on s).run = .ok ((), t)) :
      Step ⟨s, live⟩ (.fork p c) ⟨t, insert c live⟩
  | close {s t : Fs} {live : Finset Nat} {p : Nat} {fd r : Int} (hp : p ∈ live)
      (hr : ((sysClose p fd).on s).run = .ok (r, t)) : Step ⟨s, live⟩ (.close p fd) ⟨t, live⟩
  | exit {s t : Fs} {live : Finset Nat} {p : Nat} (hp : p ∈ live)
      (hr : ((exitFiles p).on s).run = .ok ((), t)) : Step ⟨s, live⟩ (.exit p) ⟨t, live.erase p⟩
  | redirect {s t : Fs} {live : Finset Nat} {p old new : Nat} (hp : p ∈ live)
      (hr : ((sysFdRedirect p old new).on s).run = .ok ((), t)) :
      Step ⟨s, live⟩ (.redirect p old new) ⟨t, live⟩
  | lseek {s t : Fs} {live : Finset Nat} {p whence : Nat} {fd offset r : Int} (hp : p ∈ live)
      (hr : ((sysLseek p fd offset whence).on s).run = .ok (r, t)) :
      Step ⟨s, live⟩ (.lseek p fd offset whence) ⟨t, live⟩

/-- A system that has just started, with any processes. -/
structure Boot (x : World) : Prop where
  mem : x.fs.mem = bootMem
  pids : x.live ⊆ Finset.Icc 1 1024

/-- Slots below 3 are the console. -/
def PipeFd (m : Mem) (p l : Nat) : Prop := 3 ≤ m.fdTable p l

/-- What `sys_fd_redirect` copies. -/
def redirected (m : Mem) (p new : Nat) : Int := if new < 3 then new else m.fdTable p new

/-- Where `sys_lseek` goes in a pipe, whose size reads as 1. -/
def seekTo (m : Mem) (p : Nat) (fd offset : Int) (whence : Nat) : Int :=
  if whence = 1 then offset
  else if whence = 2 then int32 (m.fileTable (m.fdTable p fd.toNat).toNat).fdPos + offset
  else 1 + offset

def mine (fds : Nat → Int) (ls : List Nat) (v : Int) : Nat := ls.countP (fun l => fds l == v)

/-- The calls after which `fd_pos` still counts descriptors: `sys_pipe` finds room for
both ends, redirecting a descriptor 3 to 7 neither drops nor copies a pipe, and nobody
seeks to the start of one. -/
def Counted (m : Mem) : Call → Prop
  | .pipe p => 2 ≤ mine (m.fdTable p) localFds (-1)
  | .redirect p old new => 3 ≤ old → ∀ g : Nat, 3 ≤ g → (m.fdTable p old = g ↔ redirected m p new = g)
  | .lseek p fd offset whence => 0 ≤ fd → PipeFd m p fd.toNat → seekTo m p fd offset whence ≠ 0
  | _ => True

/-- Reached by calls that `C` allows. -/
inductive Reach (C : Mem → Call → Prop) : World → Prop
  | boot {x : World} (h : Boot x) : Reach C x
  | step {x y : World} {call : Call} (h : Reach C x) (hc : C x.fs.mem call) (hs : Step x call y) :
      Reach C y

/-- Every live reference finds the buffer, a slot nobody refers to is free, and a page
is in use exactly as the buffer of one slot. -/
structure NoDangling (x : World) : Prop where
  live : ∀ p ∈ x.live, ∀ l < 8, ∀ g : Nat, 3 ≤ g → x.fs.mem.fdTable p l = g →
    (x.fs.mem.fileTable g).fdFlag = pipeFlag ∧
      ∃ page, (x.fs.mem.fileTable g).fdInode = some page ∧ x.fs.mem.pipes page ≠ none
  gone : ∀ g : Nat, 3 ≤ g → (∀ p ∈ x.live, ∀ l < 8, x.fs.mem.fdTable p l ≠ g) →
    (x.fs.mem.fileTable g).fdInode = none
  pages : ∀ page, x.fs.mem.pipes page ≠ none →
    ∃ g, (x.fs.mem.fileTable g).fdInode = some page ∧
      ∀ g', (x.fs.mem.fileTable g').fdInode = some page → g' = g

/-- A pipe on a standard descriptor is also on one that is counted. -/
def Covered (x : World) : Prop := ∀ p ∈ x.live, ∀ l < 3, PipeFd x.fs.mem p l →
  ∃ q ∈ x.live, ∃ l' ∈ localFds, x.fs.mem.fdTable q l' = x.fs.mem.fdTable p l

def refs (live : Finset Nat) (tab : Nat → Nat → Int) (g : Nat) : Nat :=
  ∑ p ∈ live, mine (tab p) localFds g

/-- `fd_pos` is the number of references `n`, and a slot is in use while there are any. -/
structure Pipes (m : Mem) (n : Nat → Nat) : Prop where
  slot : ∀ g page, (m.fileTable g).fdInode = some page → 3 ≤ g ∧ g < 32 ∧
    (m.fileTable g).fdFlag = pipeFlag ∧ m.pipes page ≠ none ∧ (m.fileTable g).fdPos = n g ∧ 0 < n g
  used : ∀ g, 3 ≤ g → 0 < n g → (m.fileTable g).fdInode ≠ none
  std : ∀ g < 3, (m.fileTable g).fdFlag ≠ pipeFlag
  pages : ∀ page, m.pipes page ≠ none → ∃ g, (m.fileTable g).fdInode = some page
  inj : ∀ g g' page, (m.fileTable g).fdInode = some page → (m.fileTable g').fdInode = some page →
    g = g'

section Counting

variable {fds : Nat → Int} {tab : Nat → Nat → Int} {live : Finset Nat} {p l g : Nat} {v x : Int}

theorem mine_cons (l : Nat) (ls : List Nat) : mine fds (l :: ls) x =
    mine fds ls x + if fds l = x then 1 else 0 := by
  simp [mine, List.countP_cons]

theorem mine_update (fds : Nat → Int) (hl : l ∈ localFds) : mine (update fds l v) localFds x +
    (if fds l = x then 1 else 0) = mine fds localFds x + if v = x then 1 else 0 := by
  rw [mem_localFds] at hl
  obtain ⟨h3, h8⟩ := hl
  have hls : localFds = [3, 4, 5, 6, 7] := rfl
  rw [hls]
  interval_cases l <;> simp [mine, List.countP_cons, update_apply] <;> omega

theorem mine_update_of_not_mem (hl : l ∉ localFds) :
    mine (update fds l v) localFds x = mine fds localFds x := by
  apply List.countP_congr
  intro k hk
  have : k ≠ l := fun he => hl (he ▸ hk)
  simp [update_of_ne this]

theorem refs_split (tab : Nat → Nat → Int) (hp : p ∈ live) :
    refs live tab g = mine (tab p) localFds g + refs (live.erase p) tab g :=
  (Finset.add_sum_erase live (fun p => mine (tab p) localFds g) hp).symm

theorem refs_update_of_not_mem (hp : p ∉ live) (f : Nat → Int) :
    refs live (update tab p f) g = refs live tab g := by
  apply Finset.sum_congr rfl
  intro q hq
  have hne : q ≠ p := fun he => hp (he ▸ hq)
  rw [update_of_ne hne]

theorem refs_update (hp : p ∈ live) (f : Nat → Int) : refs live (update tab p f) g =
    mine f localFds g + refs (live.erase p) tab g := by
  rw [refs_split _ hp, update_self, refs_update_of_not_mem (Finset.notMem_erase p live)]

theorem refs_insert (hp : p ∉ live) :
    refs (insert p live) tab g = mine (tab p) localFds g + refs live tab g :=
  Finset.sum_insert hp

theorem refs_le (tab : Nat → Nat → Int) (hlive : live ⊆ Finset.Icc 1 1024) : refs live tab g ≤ 5120 := by
  have hcard : live.card ≤ 1024 := by
    simpa using Finset.card_le_card hlive
  have hsum : refs live tab g ≤ live.card * 5 := by
    refine Finset.sum_le_card_nsmul live _ 5 fun q _ => ?_
    exact List.countP_le_length.trans (by decide)
  omega

theorem exists_of_refs_pos (h : 0 < refs live tab g) : ∃ q ∈ live, ∃ l ∈ localFds, tab q l = g := by
  by_contra hn
  push Not at hn
  have : refs live tab g = 0 := by
    apply Finset.sum_eq_zero
    intro q hq
    rw [mine, List.countP_eq_zero]
    intro l hl
    simpa using hn q hq l hl
  omega

theorem refs_pos (hp : p ∈ live) (hl : l ∈ localFds) (h : tab p l = g) : 0 < refs live tab g := by
  rw [refs_split _ hp]
  have : 0 < mine (tab p) localFds g := List.countP_pos_iff.mpr ⟨l, hl, by simpa using h⟩
  omega

end Counting

section Slots

variable {m : Mem} {n n' : Nat → Nat} {g page : Nat}

theorem Pipes.congr (h : Pipes m n) (hn : ∀ g, 3 ≤ g → n' g = n g) : Pipes m n' where
  slot g page hg := by
    obtain ⟨h3, h32, hf, hp, hc, hpos⟩ := h.slot g page hg
    rw [hn g h3]
    exact ⟨h3, h32, hf, hp, hc, hpos⟩
  used g h3 hpos := h.used g h3 (hn g h3 ▸ hpos)
  std := h.std
  pages := h.pages
  inj := h.inj

theorem Pipes.withFds (h : Pipes m n) (tab : Nat → Nat → Int) (cwd : Nat → Nat) :
    Pipes { m with fdTable := tab, cwdInodeNr := cwd } n :=
  ⟨h.slot, h.used, h.std, h.pages, h.inj⟩

theorem Pipes.flag (h : Pipes m n) (h3 : 3 ≤ g) (hn : 0 < n g) :
    (m.fileTable g).fdFlag = pipeFlag := by
  obtain ⟨page, hpage⟩ := Option.ne_none_iff_exists'.mp (h.used g h3 hn)
  exact (h.slot g page hpage).2.2.1

theorem Pipes.recount (h : Pipes m n) (hg : (m.fileTable g).fdInode = some page) {c : Nat} (hc : 0 < c) :
    Pipes (m.setFile g { m.fileTable g with fdPos := c }) (update n g c) := by
  have hinode : ∀ k, ((m.setFile g { m.fileTable g with fdPos := c }).fileTable k).fdInode =
      (m.fileTable k).fdInode := by
    intro k
    by_cases hk : k = g
    · subst hk
      simp only [Mem.setFile, update_self]
    · simp only [Mem.setFile, update_of_ne hk]
  have hflag : ∀ k, ((m.setFile g { m.fileTable g with fdPos := c }).fileTable k).fdFlag =
      (m.fileTable k).fdFlag := by
    intro k
    by_cases hk : k = g
    · subst hk
      simp only [Mem.setFile, update_self]
    · simp only [Mem.setFile, update_of_ne hk]
  refine ⟨fun k q hk => ?_, fun k h3 hpos => ?_, fun k hk => ?_, fun q hq => ?_, fun k k' q hk hk' => ?_⟩
  · rw [hinode] at hk
    obtain ⟨h3, h32, hf, hp, hcnt, hpos⟩ := h.slot k q hk
    refine ⟨h3, h32, (hflag k).trans hf, hp, ?_⟩
    by_cases hkg : k = g
    · subst hkg
      simp only [Mem.setFile, update_self]
      exact ⟨trivial, hc⟩
    · simp only [Mem.setFile, update_of_ne hkg]
      exact ⟨hcnt, hpos⟩
  · rw [hinode]
    by_cases hkg : k = g
    · rw [hkg, hg]
      simp
    · rw [update_of_ne hkg] at hpos
      exact h.used k h3 hpos
  · rw [hflag]
    exact h.std k hk
  · obtain ⟨k, hk⟩ := h.pages q hq
    exact ⟨k, (hinode k).trans hk⟩
  · rw [hinode] at hk hk'
    exact h.inj k k' q hk hk'

theorem Pipes.free (h : Pipes m n) (hg : (m.fileTable g).fdInode = some page) {f : File}
    (hf : f.fdInode = none) :
    Pipes ({ m with pipes := update m.pipes page none }.setFile g f) (update n g 0) := by
  obtain ⟨h3, -⟩ := h.slot g page hg
  have hother : ∀ k q, (update m.fileTable g f k).fdInode = some q →
      k ≠ g ∧ q ≠ page ∧ (m.fileTable k).fdInode = some q := by
    intro k q hk
    have hkg : k ≠ g := by
      rintro rfl
      rw [update_self, hf] at hk
      cases hk
    rw [update_of_ne hkg] at hk
    exact ⟨hkg, fun hq => hkg (h.inj k g page (hq ▸ hk) hg), hk⟩
  refine ⟨fun k q hk => ?_, fun k h3k hpos => ?_, fun k hk => ?_, fun q hq => ?_, fun k k' q hk hk' => ?_⟩
  · obtain ⟨hkg, hq, hk⟩ := hother k q hk
    simp only [Mem.setFile, update_of_ne hkg, update_of_ne hq]
    exact h.slot k q hk
  · by_cases hkg : k = g
    · subst hkg
      simp at hpos
    · simp only [Mem.setFile, update_of_ne hkg] at hpos ⊢
      exact h.used k h3k hpos
  · simp only [Mem.setFile, update_of_ne (show k ≠ g by omega)]
    exact h.std k hk
  · have hqp : q ≠ page := by
      rintro rfl
      simp [Mem.setFile] at hq
    simp only [Mem.setFile, update_of_ne hqp] at hq
    obtain ⟨k, hk⟩ := h.pages q hq
    have hkg : k ≠ g := by
      rintro rfl
      exact hqp (Option.some.inj (hk.symm.trans hg))
    refine ⟨k, ?_⟩
    simpa only [Mem.setFile, update_of_ne hkg] using hk
  · exact h.inj k k' q (hother k q hk).2.2 (hother k' q hk').2.2

theorem Pipes.add (h : Pipes m n) (page : Nat) (h3 : 3 ≤ g) (h32 : g < 32) (hg : (m.fileTable g).fdInode = none)
    (hp : ∀ k < 32, (m.fileTable k).fdInode ≠ some page) (ioq : Ioqueue) :
    Pipes ({ m with pipes := update m.pipes page (some ioq) }.setFile g ⟨2, pipeFlag, some page⟩)
      (update n g 2) := by
  have hother : ∀ k q, k ≠ g → (m.fileTable k).fdInode = some q → q ≠ page := by
    rintro k q - hk rfl
    exact hp k (h.slot k q hk).2.1 hk
  refine ⟨fun k q hk => ?_, fun k h3k hpos => ?_, fun k hk => ?_, fun q hq => ?_, fun k k' q hk hk' => ?_⟩
  · by_cases hkg : k = g
    · subst hkg
      simp only [Mem.setFile, update_self, Option.some.injEq] at hk ⊢
      subst hk
      simp [h3, h32]
    · simp only [Mem.setFile, update_of_ne hkg] at hk ⊢
      rw [update_of_ne (hother k q hkg hk)]
      exact h.slot k q hk
  · by_cases hkg : k = g
    · subst hkg
      simp [Mem.setFile]
    · simp only [Mem.setFile, update_of_ne hkg] at hpos ⊢
      exact h.used k h3k hpos
  · simp only [Mem.setFile, update_of_ne (show k ≠ g by omega)]
    exact h.std k hk
  · by_cases hqp : q = page
    · exact ⟨g, by simp [Mem.setFile, hqp]⟩
    · simp only [Mem.setFile, update_of_ne hqp] at hq
      obtain ⟨k, hk⟩ := h.pages q hq
      have hkg : k ≠ g := by
        rintro rfl
        rw [hg] at hk
        cases hk
      refine ⟨k, ?_⟩
      simpa only [Mem.setFile, update_of_ne hkg] using hk
  · by_cases hkg : k = g
    · by_cases hkg' : k' = g
      · rw [hkg, hkg']
      · subst hkg
        simp only [Mem.setFile, update_self, update_of_ne hkg', Option.some.injEq] at hk hk'
        exact absurd hk.symm (hother k' q hkg' hk')
    · by_cases hkg' : k' = g
      · subst hkg'
        simp only [Mem.setFile, update_self, update_of_ne hkg, Option.some.injEq] at hk hk'
        exact absurd hk'.symm (hother k q hkg hk)
      · simp only [Mem.setFile, update_of_ne hkg, update_of_ne hkg'] at hk hk'
        exact h.inj k k' q hk hk'

end Slots

section Steps

variable {s : Fs} {n : Nat → Nat} {g p c l : Nat} {live : Finset Nat}

theorem refs_setFd (tab : Nat → Nat → Int) (hp : p ∈ live) (hl : l ∈ localFds) (v : Int) :
    refs live (update tab p (update (tab p) l v)) g + (if tab p l = g then 1 else 0) =
      refs live tab g + if v = g then 1 else 0 := by
  have hm := mine_update (tab p) (v := v) (x := g) hl
  rw [refs_update hp, refs_split tab hp]
  omega

theorem Pipes.std_free (h : Pipes s.mem n) (hg : g < 3) : (s.mem.fileTable g).fdInode = none := by
  cases hi : (s.mem.fileTable g).fdInode with
  | none => rfl
  | some page => exact absurd (h.slot g page hi).1 (by omega)

theorem sat_closePipe (h : Pipes s.mem n) (h3 : 3 ≤ g) (hn : 0 < n g) :
    ((closePipe g).on s).Sat True (fun _ t =>
      Pipes t.mem (update n g (n g - 1)) ∧ t.mem.fdTable = s.mem.fdTable) := by
  obtain ⟨page, hpage⟩ := Option.ne_none_iff_exists'.mp (h.used g h3 hn)
  obtain ⟨-, -, -, -, hpos, -⟩ := h.slot g page hpage
  have hsub : sub32 (s.mem.fileTable g).fdPos 1 = n g - 1 := by
    rw [hpos, sub32_of_le hn]
  rw [closePipe, sat_bind, sat_get]
  dsimp only
  rw [hsub]
  split
  · next hz =>
    rw [sat_bind, fileInode, sat_bind, sat_get, hpage]
    refine ⟨?_, rfl⟩
    rw [hz]
    exact h.free hpage rfl
  · next hz =>
    refine ⟨h.recount hpage ?_, rfl⟩
    omega

theorem sat_sysClose (h : Pipes s.mem (refs live s.mem.fdTable)) (hp : p ∈ live) (fd : Int) :
    ((sysClose p fd).on s).Sat True
      (fun _ t => Pipes t.mem (refs live t.mem.fdTable)) := by
  rw [sysClose]
  split
  · next hfd =>
    obtain ⟨l, rfl⟩ := Int.eq_ofNat_of_zero_le (show 0 ≤ fd by omega)
    have h3l : 3 ≤ l := by omega
    rw [Int.toNat_natCast, sat_bind]
    refine (sat_fdLocal2Global p l s).mono fun g t ht => ?_
    obtain ⟨rfl, h8, hg, -⟩ := ht
    have hl : l ∈ localFds := mem_localFds.mpr ⟨h3l, h8⟩
    rw [sat_bind]
    apply sat_isPipe_eq hg h8 (Or.inl trivial)
    by_cases h3 : 3 ≤ g
    · have hn : 0 < refs live t.mem.fdTable g := refs_pos hp hl hg
      rw [if_pos (by simp [h.flag h3 hn]), bind_on, Res.sat_bind]
      refine (sat_closePipe h h3 hn).mono fun _ u hu => ?_
      rw [sat_bind, setFd, sat_modify, sat_pure]
      refine (hu.1.withFds _ _).congr fun k h3k => ?_
      have hk := refs_setFd (g := k) u.mem.fdTable hp hl (-1)
      rw [hu.2, hg] at hk
      rw [if_neg (show ¬(-1 : Int) = k by omega)] at hk
      change refs live (update u.mem.fdTable p (update (u.mem.fdTable p) l (-1))) k = _
      rw [hu.2]
      by_cases hkg : k = g
      · subst hkg
        rw [if_pos rfl] at hk
        rw [update_self]
        omega
      · rw [if_neg (by omega)] at hk
        rw [update_of_ne hkg]
        omega
    · rw [if_neg (by simpa using h.std g (by omega)), sat_bind, fileClose, sat_bind, fileInode, sat_bind, sat_get, h.std_free (by omega)]
      trivial
  · exact h

theorem sat_countFds (ls : List Nat) (hls : ∀ l ∈ ls, l < 8) (h : Pipes s.mem n)
    (hsmall : ∀ g, n g + ls.length < 2 ^ 32) (hsame : s.mem.fdTable c = s.mem.fdTable p)
    (hused : ∀ l ∈ ls, ∀ g : Nat, 3 ≤ g → s.mem.fdTable p l = g → 0 < n g) :
    ((updateInodeOpenCnts p c ls).on s).Sat True (fun _ t =>
      Pipes t.mem (fun g => n g + mine (s.mem.fdTable p) ls g) ∧ t.mem.fdTable = s.mem.fdTable) := by
  induction ls generalizing s n with
  | nil => exact ⟨h, rfl⟩
  | cons l ls ih =>
    have hrest : ∀ l ∈ ls, l < 8 := fun x hx => hls x (List.mem_cons_of_mem l hx)
    rw [updateInodeOpenCnts, sat_bind, sat_get]
    simp only [sat_bind, sat_assert]
    refine ⟨fun _ => ?_, fun _ => trivial⟩
    rw [hsame]
    split
    · rw [sat_bind, isPipe, sat_bind]
      refine (sat_fdLocal2Global p l s).mono fun g t ht => ?_
      obtain ⟨rfl, h8, hg, -⟩ := ht
      rw [sat_bind, sat_get, sat_pure, hg, Int.toNat_natCast]
      by_cases h3 : 3 ≤ g
      · have hn : 0 < n g := hused l List.mem_cons_self g h3 hg
        obtain ⟨page, hpage⟩ := Option.ne_none_iff_exists'.mp (h.used g h3 hn)
        obtain ⟨-, -, -, -, hpos, -⟩ := h.slot g page hpage
        have hlen := hsmall g
        rw [List.length_cons] at hlen
        rw [if_pos (by simp [h.flag h3 hn]), bind_on, Res.sat_bind, get_on, Res.sat_done, bind_on,
          Res.sat_bind, setFile, modify_on, Res.sat_done, hpos, add32_of_lt (by omega)]
        -- the slot has one reference more
        have hle : ∀ k, n k ≤ update n g (n g + 1) k := by
          intro k
          by_cases hk : k = g
          · subst hk
            rw [update_self]
            omega
          · rw [update_of_ne hk]
        have hsmall' : ∀ k, update n g (n g + 1) k + ls.length < 2 ^ 32 := by
          intro k
          by_cases hk : k = g
          · subst hk
            rw [update_self]
            omega
          · rw [update_of_ne hk]
            have := hsmall k
            rw [List.length_cons] at this
            omega
        refine (ih (s := { t with mem := t.mem.setFile g { t.mem.fileTable g with fdPos := n g + 1 } })
          hrest (h.recount hpage (Nat.succ_pos (n g))) hsmall' hsame
          fun x hx k hk hxk => ?_).mono fun _ u hu => ?_
        · exact (hused x (List.mem_cons_of_mem l hx) k hk hxk).trans_le (hle k)
        · refine ⟨hu.1.congr fun k _ => ?_, hu.2⟩
          rw [mine_cons, hg]
          by_cases hk : k = g
          · subst hk
            rw [if_pos rfl, update_self]
            change _ = n k + 1 + mine (t.mem.fdTable p) ls k
            omega
          · rw [if_neg (by omega), update_of_ne hk]
            rfl
      · rw [if_neg (by simpa using h.std g (by omega)), sat_bind, fileInode, sat_bind, sat_get, h.std_free (by omega)]
        trivial
    · next hv =>
      have hfree : s.mem.fdTable p l = -1 := not_not.mp hv
      have hsmall' : ∀ k, n k + ls.length < 2 ^ 32 := by
        intro k
        have := hsmall k
        rw [List.length_cons] at this
        omega
      refine (ih hrest h hsmall' hsame fun x hx => hused x (List.mem_cons_of_mem l hx)).mono
        fun _ u hu => ⟨hu.1.congr fun k _ => ?_, hu.2⟩
      rw [mine_cons, hfree, if_neg (by omega)]
      rfl

theorem sat_forkFiles (h : Pipes s.mem (refs live s.mem.fdTable)) (hp : p ∈ live) (hc : c ∉ live)
    (hlive : live ⊆ Finset.Icc 1 1024) : ((forkFiles p c).on s).Sat True
      (fun _ t => Pipes t.mem (refs (insert c live) t.mem.fdTable)) := by
  have hne : p ≠ c := fun he => hc (he ▸ hp)
  have hsame : ∀ g, refs live (update s.mem.fdTable c (s.mem.fdTable p)) g =
      refs live s.mem.fdTable g := fun g => refs_update_of_not_mem hc _
  rw [forkFiles, sat_bind, sat_modify]
  refine (sat_countFds (n := refs live s.mem.fdTable)
    (s := { s with mem := { s.mem with
      fdTable := update s.mem.fdTable c (s.mem.fdTable p)
      cwdInodeNr := update s.mem.cwdInodeNr c (s.mem.cwdInodeNr p) } }) localFds (fun l hl => (mem_localFds.mp hl).2)
    (h.withFds _ _) (fun g => ?_) ?_ fun l hl g _ hg => ?_).mono fun _ t ht => ?_
  · have := refs_le (g := g) s.mem.fdTable hlive
    have hlen : localFds.length = 5 := rfl
    omega
  · simp only [update_self, update_of_ne hne]
  · simp only [update_of_ne hne] at hg
    exact refs_pos hp hl hg
  · refine ht.1.congr fun k _ => ?_
    rw [ht.2, refs_insert hc, hsame]
    simp only [update_self, update_of_ne hne]
    omega

theorem sat_closeFds (ls : List Nat) (hls : ∀ l ∈ ls, 3 ≤ l ∧ l < 8)
    (h : Pipes s.mem (fun g => n g + mine (s.mem.fdTable p) ls g)) :
    ((closeFiles p ls).on s).Sat True (fun _ t => Pipes t.mem n) := by
  induction ls generalizing s with
  | nil => exact h
  | cons l ls ih =>
    obtain ⟨h3l, h8⟩ := hls l List.mem_cons_self
    have hrest : ∀ l ∈ ls, 3 ≤ l ∧ l < 8 := fun x hx => hls x (List.mem_cons_of_mem l hx)
    rw [closeFiles, sat_bind, sat_get]
    split
    · rw [sat_bind, isPipe, sat_bind]
      refine (sat_fdLocal2Global p l s).mono fun g t ht => ?_
      obtain ⟨rfl, -, hg, -⟩ := ht
      rw [sat_bind, sat_get, sat_pure]
      by_cases h3 : 3 ≤ g
      · have hn : 0 < n g + mine (t.mem.fdTable p) (l :: ls) g := by
          rw [mine_cons, if_pos hg]
          omega
        rw [if_pos (by simp [h.flag h3 hn]), bind_on, Res.sat_bind]
        apply sat_fdLocal2Global_eq hg h8 (Or.inl trivial)
        rw [sat_bind]
        refine (sat_closePipe h h3 hn).mono fun _ u hu => ih hrest (hu.1.congr fun k _ => ?_)
        rw [hu.2]
        by_cases hk : k = g
        · subst hk
          rw [update_self, mine_cons, if_pos hg]
          omega
        · rw [update_of_ne hk, mine_cons, if_neg (by omega)]
          rfl
      · have hflag := h.std g (by omega)
        rw [if_neg (by simpa using hflag), sat_bind]
        exact (sat_sysClose_faults hg h3l h8 hflag (h.std_free (by omega))).mono fun _ _ hf => hf.elim
    · next hv =>
      have hfree : s.mem.fdTable p l = -1 := not_not.mp hv
      refine ih hrest (h.congr fun k _ => ?_)
      rw [mine_cons, hfree, if_neg (by omega)]
      rfl

theorem sat_exitFiles (h : Pipes s.mem (refs live s.mem.fdTable)) (hp : p ∈ live) :
    ((exitFiles p).on s).Sat True
      (fun _ t => Pipes t.mem (refs (live.erase p) t.mem.fdTable)) := by
  have hall : Pipes s.mem (fun g => refs (live.erase p) s.mem.fdTable g +
      mine (s.mem.fdTable p) localFds g) := by
    refine h.congr fun k _ => ?_
    rw [refs_split _ hp]
    omega
  refine ((sat_closeFds localFds (fun _ => mem_localFds.mp) hall).and
    (keeps_closeFiles p localFds s)).mono fun _ t ht => ht.1.congr fun k _ => ?_
  apply Finset.sum_congr rfl
  intro q hq
  rw [ht.2.fds q (Finset.ne_of_mem_erase hq)]

theorem sat_sysFdRedirect {old new : Nat} (h : Pipes s.mem (refs live s.mem.fdTable)) (hp : p ∈ live)
    (hc : Counted s.mem (.redirect p old new)) : ((sysFdRedirect p old new).on s).Sat True
      (fun _ t => Pipes t.mem (refs live t.mem.fdTable)) := by
  have hset : ∀ v : Int, (3 ≤ old → ∀ g : Nat, 3 ≤ g → (s.mem.fdTable p old = g ↔ v = g)) → old < 8 →
      Pipes (s.mem.setFd p old v) (refs live (s.mem.setFd p old v).fdTable) := by
    intro v hv h8
    refine (h.withFds _ _).congr fun k h3 => ?_
    change refs live (update s.mem.fdTable p (update (s.mem.fdTable p) old v)) k = _
    by_cases hold : 3 ≤ old
    · have hk := refs_setFd (g := k) s.mem.fdTable hp (mem_localFds.mpr ⟨hold, h8⟩) v
      rw [if_congr (hv hold k h3) rfl rfl] at hk
      omega
    · have hl : old ∉ localFds := fun hm => hold (mem_localFds.mp hm).1
      rw [refs_update hp, mine_update_of_not_mem hl, ← refs_split _ hp]
  rw [sysFdRedirect]
  split
  · next h8 =>
    split
    · next hnew => exact hset new (by simpa only [Counted, redirected, if_pos hnew] using hc) h8
    · next hnew =>
      split
      · exact hset _ (by simpa only [Counted, redirected, if_neg hnew] using hc) h8
      · trivial
  · trivial

theorem exists_freeFd {m : Mem} {cur : Nat} (h : 0 < mine (m.fdTable cur) localFds (-1)) : ∃ fd, m.freeFd cur = some fd := by
  obtain ⟨l, hl, hv⟩ := List.countP_pos_iff.mp h
  cases hfd : m.freeFd cur with
  | none => exact absurd hv (List.find?_eq_none.mp hfd l hl)
  | some fd => exact ⟨fd, rfl⟩

theorem sat_pcbFdInstall_free {k : Nat} (hfree : k + 1 ≤ mine (s.mem.fdTable p) localFds (-1)) :
    ((pcbFdInstall p g).on s).Sat True (fun _ t =>
      ∃ fd ∈ localFds, s.mem.fdTable p fd = -1 ∧ t = { s with mem := s.mem.setFd p fd g } ∧
        k ≤ mine (t.mem.fdTable p) localFds (-1)) := by
  simp only [pcbFdInstall, sat_bind, sat_get]
  cases hf : s.mem.freeFd p with
  | none =>
    obtain ⟨fd, hfd⟩ := exists_freeFd (show 0 < mine (s.mem.fdTable p) localFds (-1) by omega)
    exact absurd (hf.symm.trans hfd) (by simp)
  | some fd =>
    obtain ⟨h3, h8, hfd⟩ := freeFd_some hf
    have hl : fd ∈ localFds := mem_localFds.mpr ⟨h3, h8⟩
    rw [Mem.freeFd] at hf
    simp only [hf, sat_bind, sat_modify, sat_pure]
    refine ⟨fd, hl, hfd, rfl, ?_⟩
    have hm := mine_update (s.mem.fdTable p) (v := g) (x := -1) hl
    rw [if_pos hfd, if_neg (by omega)] at hm
    simp only [update_self]
    omega

theorem sat_sysPipe (h : Pipes s.mem (refs live s.mem.fdTable)) (hp : p ∈ live)
    (hc : Counted s.mem (.pipe p)) : ((sysPipe p).on s).Sat True
      (fun _ t => Pipes t.mem (refs live t.mem.fdTable)) := by
  simp only [sysPipe, getFreeSlotInGlobal, sat_bind, sat_get, sat_pure]
  cases hs : s.mem.freeSlot with
  | none =>
    rw [Mem.freeSlot] at hs
    rw [hs]
    trivial
  | some g =>
    obtain ⟨h3, h32, hg⟩ := freeSlot_some hs
    have hzero : refs live s.mem.fdTable g = 0 :=
      Nat.eq_zero_of_not_pos fun hpos => h.used g h3 hpos hg
    have hadd := h.add s.mem.fresh h3 h32 hg
      (fun k hk hf => Nat.lt_irrefl _ (Mem.lt_fresh_of_file hk hf)) ⟨fun _ => 0, 0, 0⟩
    rw [Mem.freeSlot] at hs
    simp only [hs, sat_bind, sat_get, sat_modify, setFile]
    have hfree : 1 + 1 ≤ mine (s.mem.fdTable p) localFds (-1) := hc
    refine (sat_pcbFdInstall_free (p := p) (g := g) (s := ⟨s.vol, { s.mem with
      pipes := update s.mem.pipes s.mem.fresh (some ⟨fun _ => 0, 0, 0⟩) }.setFile g
        ⟨2, pipeFlag, some s.mem.fresh⟩⟩) hfree).mono fun _ t ht => ?_
    obtain ⟨fd, hfd, hold, rfl, hleft⟩ := ht
    refine (sat_pcbFdInstall_free (k := 0) hleft).mono fun _ u hu => ?_
    obtain ⟨fd', hfd', hold', rfl, -⟩ := hu
    refine (hadd.withFds _ _).congr fun k _ => ?_
    have hk := refs_setFd (g := k) s.mem.fdTable hp hfd g
    have hk' := refs_setFd (g := k) (s.mem.setFd p fd g).fdTable hp hfd' g
    have hnew : s.mem.fdTable p fd = -1 := hold
    have hnew' : (s.mem.setFd p fd g).fdTable p fd' = -1 := hold'
    rw [hnew, if_neg (show ¬(-1 : Int) = k by omega)] at hk
    rw [hnew', if_neg (show ¬(-1 : Int) = k by omega)] at hk'
    change refs live (update (s.mem.setFd p fd g).fdTable p
      (update ((s.mem.setFd p fd g).fdTable p) fd' g)) k = _
    have hmid : refs live (s.mem.setFd p fd g).fdTable k = refs live s.mem.fdTable k +
        if (g : Int) = k then 1 else 0 := hk
    by_cases hkg : k = g
    · subst hkg
      rw [if_pos rfl] at hk' hmid
      rw [update_self]
      omega
    · rw [if_neg (by omega)] at hk' hmid
      rw [update_of_ne hkg]
      omega

theorem sat_sysLseek {fd offset : Int} {whence : Nat} (h : Pipes s.mem n)
    (hc : Counted s.mem (.lseek p fd offset whence)) :
    ((sysLseek p fd offset whence).on s).Sat True (fun _ t => t = s) := by
  rw [sysLseek]
  split
  · rfl
  · next hfd =>
    simp only [sat_bind, sat_assert]
    refine ⟨fun _ => ?_, fun _ => trivial⟩
    refine (sat_fdLocal2Global p fd.toNat s).mono fun g t ht => ?_
    obtain ⟨rfl, -, hg, -⟩ := ht
    simp only [sat_get]
    cases hi : (t.mem.fileTable g).fdInode with
    | none =>
      simp only [fileSize, hi]
      trivial
    | some page =>
      obtain ⟨h3, -, hflag, -⟩ := h.slot g page hi
      have hto := hc (by omega) (show (3 : Int) ≤ _ by rw [hg]; omega)
      rw [seekTo, hg, Int.toNat_natCast] at hto
      simp only [fileSize, hi, if_pos hflag, sat_pure]
      rw [if_pos (by omega)]
      rfl

end Steps

theorem Step.pipes {x y : World} {call : Call} (hs : Step x call y) (hc : Counted x.fs.mem call)
    (hlive : x.live ⊆ Finset.Icc 1 1024) (h : Pipes x.fs.mem (refs x.live x.fs.mem.fdTable)) :
    Pipes y.fs.mem (refs y.live y.fs.mem.fdTable) := by
  cases hs with
  | pipe hp hr => exact (sat_sysPipe h hp hc).of_run hr
  | fork hp hcl _ hr => exact (sat_forkFiles h hp hcl hlive).of_run hr
  | close hp hr => exact (sat_sysClose h hp _).of_run hr
  | exit hp hr => exact (sat_exitFiles h hp).of_run hr
  | redirect hp hr => exact (sat_sysFdRedirect h hp hc).of_run hr
  | lseek hp hr =>
    have heq := (sat_sysLseek h hc).of_run hr
    subst heq
    exact h

theorem Step.pids {x y : World} {call : Call} (hs : Step x call y) (h : x.live ⊆ Finset.Icc 1 1024) :
    y.live ⊆ Finset.Icc 1 1024 := by
  cases hs with
  | fork _ _ hpid _ => exact Finset.insert_subset hpid h
  | exit _ _ => exact (Finset.erase_subset _ _).trans h
  | _ => exact h

theorem Boot.pipes {x : World} (h : Boot x) : Pipes x.fs.mem (refs x.live x.fs.mem.fdTable) := by
  have hzero : ∀ g, 3 ≤ g → refs x.live x.fs.mem.fdTable g = 0 := by
    intro g h3
    rw [h.mem]
    apply Finset.sum_eq_zero
    intro p _
    rw [mine, List.countP_eq_zero]
    intro l hl
    have h3l := (mem_localFds.mp hl).1
    simp only [bootMem, if_neg (show ¬l < 3 by omega), beq_iff_eq]
    omega
  have hnone : ∀ g, (x.fs.mem.fileTable g).fdInode = none := fun g => by rw [h.mem]; rfl
  refine ⟨fun g page hg => ?_, fun g h3 hpos => ?_, fun g _ => ?_, fun page hp => ?_, fun g _ page hg => ?_⟩
  · rw [hnone] at hg
    cases hg
  · rw [hzero g h3] at hpos
    cases hpos
  · rw [h.mem]
    exact (by decide : 0 ≠ pipeFlag)
  · rw [h.mem] at hp
    exact absurd rfl hp
  · rw [hnone] at hg
    cases hg

theorem Reach.pipes {x : World} (h : Reach Counted x) :
    x.live ⊆ Finset.Icc 1 1024 ∧ Pipes x.fs.mem (refs x.live x.fs.mem.fdTable) := by
  induction h with
  | boot h => exact ⟨h.pids, h.pipes⟩
  | step _ hc hs ih => exact ⟨hs.pids ih.1, hs.pipes hc ih.1 ih.2⟩

/-- With the references counted, no pipe dangles exactly when every pipe on a standard
descriptor is on a counted one as well. -/
theorem pipe_alive_iff {x : World} (h : Reach Counted x) : NoDangling x ↔ Covered x := by
  obtain ⟨-, hpipes⟩ := h.pipes
  constructor
  · intro hd p hp l hl hpipe
    obtain ⟨g, hg⟩ := Int.eq_ofNat_of_zero_le (show 0 ≤ x.fs.mem.fdTable p l by
      have : (3 : Int) ≤ x.fs.mem.fdTable p l := hpipe
      omega)
    have h3 : 3 ≤ g := by
      have : (3 : Int) ≤ x.fs.mem.fdTable p l := hpipe
      omega
    obtain ⟨-, page, hpage, -⟩ := hd.live p hp l (by omega) g h3 hg
    have hpos := (hpipes.slot g page hpage).2.2.2.2.2
    rw [hg]
    exact exists_of_refs_pos hpos
  · intro hcov
    refine ⟨fun p hp l hl g h3 hg => ?_, fun g h3 hnone => ?_, fun page hpage => ?_⟩
    · have hpos : 0 < refs x.live x.fs.mem.fdTable g := by
        by_cases h3l : 3 ≤ l
        · exact refs_pos hp (mem_localFds.mpr ⟨h3l, hl⟩) hg
        · have hpipe : PipeFd x.fs.mem p l := by
            rw [PipeFd, hg]
            omega
          obtain ⟨q, hq, l', hl', heq⟩ := hcov p hp l (by omega) hpipe
          exact refs_pos hq hl' (heq.trans hg)
      obtain ⟨page, hpage⟩ := Option.ne_none_iff_exists'.mp (hpipes.used g h3 hpos)
      obtain ⟨-, -, hflag, hbuf, -⟩ := hpipes.slot g page hpage
      exact ⟨hflag, page, hpage, hbuf⟩
    · by_contra hne
      obtain ⟨page, hpage⟩ := Option.ne_none_iff_exists'.mp hne
      obtain ⟨q, hq, l, hl, heq⟩ := exists_of_refs_pos (hpipes.slot g page hpage).2.2.2.2.2
      exact hnone q hq l (mem_localFds.mp hl).2 heq
    · obtain ⟨g, hg⟩ := hpipes.pages page hpage
      exact ⟨g, hg, fun g' hg' => hpipes.inj g' g page hg' hg⟩

section Example

def started : Fs := bootState 63 1000 (fun _ => 0)
def piped : Fs := (sysPipe 1).after started
def onOutput : Fs := (sysFdRedirect 1 1 4).after piped
def oneEnd : Fs := (sysClose 1 3).after onOutput
def noEnd : Fs := (sysClose 1 4).after oneEnd

theorem reach_onOutput {C : Mem → Call → Prop} (hp : C started.mem (.pipe 1))
    (hr : C piped.mem (.redirect 1 1 4)) : Reach C ⟨onOutput, {1}⟩ := by
  have hboot : Boot ⟨started, {1}⟩ := ⟨rfl, by decide⟩
  obtain ⟨r, hpipe⟩ := exists_run_after (c := sysPipe 1) (s := started) (by decide)
  have hone : Reach C ⟨piped, {1}⟩ := (Reach.boot hboot).step hp (.pipe (by decide) hpipe)
  exact hone.step hr (.redirect (by decide) (run_after (by decide)))

/-- While the ends 3 and 4 are open, the copy on descriptor 1 is covered. -/
theorem piped_output_alive : Reach Counted ⟨onOutput, {1}⟩ ∧ NoDangling ⟨onOutput, {1}⟩ := by
  have hreach : Reach Counted ⟨onOutput, {1}⟩ := by
    refine reach_onOutput ?_ ?_
    · exact (by decide : 2 ≤ mine (started.mem.fdTable 1) localFds (-1))
    · exact fun h => absurd h (by decide)
  refine ⟨hreach, (pipe_alive_iff hreach).mpr fun p hp l hl hpipe => ?_⟩
  obtain rfl := Finset.mem_singleton.mp hp
  have hfd : ∀ l < 3, (3 : Int) ≤ onOutput.mem.fdTable 1 l →
      onOutput.mem.fdTable 1 4 = onOutput.mem.fdTable 1 l := by decide
  exact ⟨1, hp, 4, by decide, hfd l hl hpipe⟩

/-- Closing both ends frees the buffer of a pipe that descriptor 1 still has. -/
theorem redirected_pipe_dangles : ∃ x, Reach (fun _ _ => True) x ∧ ¬NoDangling x := by
  obtain ⟨r, hfirst⟩ := exists_run_after (c := sysClose 1 3) (s := onOutput) (by decide)
  obtain ⟨r', hsecond⟩ := exists_run_after (c := sysClose 1 4) (s := oneEnd) (by decide)
  have hone : Reach (fun _ _ => True) ⟨oneEnd, {1}⟩ :=
    (reach_onOutput trivial trivial).step trivial (.close (by decide) hfirst)
  refine ⟨⟨noEnd, {1}⟩, hone.step trivial (.close (by decide) hsecond), fun hd => ?_⟩
  have hfd : noEnd.mem.fdTable 1 1 = (3 : Nat) := by decide
  have hnone : (noEnd.mem.fileTable 3).fdInode = none := by decide
  obtain ⟨-, page, hpage, -⟩ := hd.live 1 (by decide) 1 (by decide) 3 (by decide) hfd
  exact absurd (hpage.symm.trans hnone) (by simp)

end Example

end TrueOs.Fs.Pipe
