import TrueOs.Spec.Leaks

/-! The pool of every inode and directory, over runs of calls by processes and kernel threads. -/

namespace TrueOs.Fs.Tracked

open Prog Mm

inductive Call
  | open (stack : Stack) (cur : Nat) (path : List UInt8) (flags : Nat)
  | close (cur : Nat) (fd : Int)
  | unlink (stack : Stack) (path : List UInt8)
  | mkdir (stack : Stack) (path : List UInt8)
  | opendir (stack : Stack) (path : List UInt8)
  | closedir (dir : Dir)

/-- The state, and the directories that tasks have open with the pool of the task that opened them. -/
structure Shared where
  world : Fs × Blocks
  handles : List (Dir × PoolFlags)

inductive Step (pf : PoolFlags) : Call → Shared → Shared → Prop
  | open {w w' hs stack cur path flags r} (h : ((sysOpen pf stack cur path flags).on w).run = .ok (r, w')) :
    Step pf (.open stack cur path flags) ⟨w, hs⟩ ⟨w', hs⟩
  | close {w w' hs cur fd r} (h : ((sysClose cur fd).on w).run = .ok (r, w')) : Step pf (.close cur fd) ⟨w, hs⟩ ⟨w', hs⟩
  | unlink {w w' hs stack path r} (h : ((sysUnlink pf stack path).on w).run = .ok (r, w')) :
    Step pf (.unlink stack path) ⟨w, hs⟩ ⟨w', hs⟩
  | mkdir {w w' hs stack path r} (h : ((sysMkdir pf stack path).on w).run = .ok (r, w')) :
    Step pf (.mkdir stack path) ⟨w, hs⟩ ⟨w', hs⟩
  | opendir {w w' hs stack path r} (h : ((sysOpendir pf stack path).on w).run = .ok (r, w')) :
    Step pf (.opendir stack path) ⟨w, hs⟩ ⟨w', r.toList.map (·, pf) ++ hs⟩
  | closedir {w w' hs dir r} (h : ((sysClosedir pf dir).on w).run = .ok (r, w')) :
    Step pf (.closedir dir) ⟨w, hs⟩ ⟨w', hs.filter (·.1 ≠ dir)⟩

/-- Calls of any tasks one after the other, each of which satisfies `A` when it is made. -/
inductive Runs (A : PoolFlags → List (Dir × PoolFlags) → Call → Prop) : Shared → List (PoolFlags × Call) → Shared → Prop
  | nil {σ} : Runs A σ [] σ
  | cons {σ τ υ pf c cs} (hA : A pf σ.handles c) (hstep : Step pf c σ τ) (hrest : Runs A τ cs υ) :
    Runs A σ ((pf, c) :: cs) υ

/-- No process creates a file, and a directory is closed once, by a task of the kind that opened it. -/
def Apt (pf : PoolFlags) (hs : List (Dir × PoolFlags)) : Call → Prop
  | .open _ _ _ flags => pf = .kernel ∨ flags &&& oCreat = 0
  | .closedir dir => (dir, pf) ∈ hs
  | _ => True

variable {w w' : Fs × Blocks} {hs : List (Dir × PoolFlags)} {pf : PoolFlags}

/-- Cached inodes are in the kernel's heap, and no block has gone to a pool it does not come from. -/
structure InKernel (σ : Shared) : Prop where
  inodes : ∀ p ∈ σ.world.1.mem.openInodes, σ.world.2.pool (.inode p) = some .kernel
  frees : σ.world.2.mixed = false

structure Kept (σ : Shared) : Prop where
  plain : Plain True (others σ.world.2) σ.world
  live : ∀ k p x, (Dir.heap k p, x) ∈ σ.handles → others σ.world.2 k = some x
  apart : ∀ k p p' x x', (Dir.heap k p, x) ∈ σ.handles → (Dir.heap k p', x') ∈ σ.handles → p = p'

theorem Kept.inKernel {σ : Shared} (h : Kept σ) : InKernel σ := by
  refine ⟨fun p hp => ?_, (h.plain.apart trivial).mixed⟩
  rw [h.plain.sound.listed, ← h.plain.sound.block, Option.isSome_iff_exists] at hp
  obtain ⟨x, hx⟩ := hp
  rw [hx, (h.plain.apart trivial).kernel p x hx]

theorem Holds.keeps {q : Prop} {o : Nat → Option PoolFlags} {d : Dir} (h : Holds q pf o d w') {k : Nat} {x : PoolFlags}
    (hk : o k = some x) : others w'.2 k = some x := by
  rw [h.plain.others]
  cases d with
  | root => exact hk
  | heap k' p =>
    have hfree : o k' = none := h.free
    have hne : k ≠ k' := by
      rintro rfl
      rw [hk] at hfree
      cases hfree
    exact (Function.update_of_ne hne _ _).trans hk

theorem Kept.holds (h : Kept ⟨w, hs⟩) {d : Dir} (hd : Holds True pf (others w.2) d w') : Kept ⟨w', hs⟩ :=
  ⟨⟨hd.plain.sound, rfl, hd.plain.apart⟩, fun k p x hx => hd.keeps (h.live k p x hx), h.apart⟩

theorem Kept.same (h : Kept ⟨w, hs⟩) (hp : Plain True (others w.2) w') : Kept ⟨w', hs⟩ :=
  have hroot : Holds True .kernel (others w.2) .root w' := ⟨trivial, hp⟩
  h.holds hroot

theorem Kept.opendir (h : Kept ⟨w, hs⟩) {r : Option Dir} (hd : Holds True pf (others w.2) (r.getD .root) w') :
    Kept ⟨w', r.toList.map (·, pf) ++ hs⟩ := by
  have hkept := h.holds hd
  cases r with
  | none => exact hkept
  | some d =>
    cases d with
    | root =>
      refine ⟨hkept.plain, fun k p x hx => hkept.live k p x ?_, fun k p p' x x' hx hx' => hkept.apart k p p' x x' ?_ ?_⟩
      · simpa using hx
      · simpa using hx
      · simpa using hx'
    | heap k₀ p₀ =>
      have hfree : others w.2 k₀ = none := hd.free
      have hnew : others w'.2 k₀ = some pf := by
        rw [hd.plain.others]
        exact Function.update_self _ _ _
      have hold : ∀ p x, (Dir.heap k₀ p, x) ∉ hs := by
        intro p x hx
        have := h.live k₀ p x hx
        rw [hfree] at this
        cases this
      refine ⟨hkept.plain, fun k p x hx => ?_, fun k p p' x x' hx hx' => ?_⟩
      · rcases List.mem_cons.mp hx with heq | hx
        · cases heq
          exact hnew
        · exact hkept.live k p x hx
      · rcases List.mem_cons.mp hx with heq | hx
        · rcases List.mem_cons.mp hx' with heq' | hx'
          · cases heq
            cases heq'
            rfl
          · cases heq
            exact absurd hx' (hold _ _)
        · rcases List.mem_cons.mp hx' with heq' | hx'
          · cases heq'
            exact absurd hx (hold _ _)
          · exact h.apart k p p' x x' hx hx'

theorem Kept.closedir (h : Kept ⟨w, hs⟩) {d : Dir} (hd : (d, pf) ∈ hs) {r : Int}
    (hrun : ((sysClosedir pf d).on w).run = .ok (r, w')) : Kept ⟨w', hs.filter (·.1 ≠ d)⟩ := by
  have hsub : ∀ {x : Dir × PoolFlags}, x ∈ hs.filter (·.1 ≠ d) → x ∈ hs ∧ x.1 ≠ d := fun hx => by
    simpa using List.mem_filter.mp hx
  cases d with
  | root =>
    have hw : w' = w := by
      cases hrun
      rfl
    subst hw
    exact ⟨h.plain, fun k p x hx => h.live k p x (hsub hx).1,
      fun k p p' x x' hx hx' => h.apart k p p' x x' (hsub hx).1 (hsub hx').1⟩
  | heap k₀ p₀ =>
    have hlive : others w.2 k₀ = some pf := h.live k₀ p₀ pf hd
    have hholds : Holds True pf (Function.update (others w.2) k₀ none) (.heap k₀ p₀) w := by
      refine ⟨Function.update_self _ _ _, ?_⟩
      have hself : Dir.hold pf (Function.update (others w.2) k₀ none) (.heap k₀ p₀) = others w.2 := by
        rw [Dir.hold, Function.update_idem, ← hlive, Function.update_eq_self]
      rw [hself]
      exact h.plain
    have hplain := (sat_closing hholds (0 : Int)).of_run hrun
    refine ⟨⟨hplain.sound, rfl, hplain.apart⟩, fun k p x hx => ?_,
      fun k p p' x x' hx hx' => h.apart k p p' x x' (hsub hx).1 (hsub hx').1⟩
    have hne : k ≠ k₀ := by
      rintro rfl
      exact (hsub hx).2 (by rw [h.apart k p p₀ x pf (hsub hx).1 hd])
    show others w'.2 k = some x
    rw [hplain.others, Function.update_of_ne hne]
    exact h.live k p x (hsub hx).1

theorem Step.kept {c : Call} {σ τ : Shared} (hstep : Step pf c σ τ) (hapt : Apt pf σ.handles c) (h : Kept σ) : Kept τ := by
  cases hstep with
  | «open» hrun =>
    rcases (sat_sysOpen h.plain _ _ _ fun _ => hapt).of_run hrun with ⟨-, hp⟩ | ⟨-, d, -, hd⟩
    · exact h.same hp
    · exact h.holds hd
  | close hrun => exact h.same ((h.plain.sat (keeps_sysClose _ _)).of_run hrun)
  | unlink hrun => exact h.same ((h.plain.sat (keeps_sysUnlink _ _)).of_run hrun)
  | mkdir hrun => exact h.same ((h.plain.sat (keeps_sysMkdir _ _)).of_run hrun)
  | opendir hrun => exact h.opendir ((sat_sysOpendir h.plain _ _).of_run hrun)
  | closedir hrun => exact h.closedir hapt hrun

theorem Runs.kept {σ τ : Shared} {cs : List (PoolFlags × Call)} (hrun : Runs Apt σ cs τ) (h : Kept σ) : Kept τ := by
  induction hrun with
  | nil => exact h
  | cons hapt hstep _ ih => exact ih (hstep.kept hapt h)

/-- From a state in which nothing is wrong, no such run does anything wrong. -/
theorem inodes_stay_in_kernel_heap {σ : Shared} {cs : List (PoolFlags × Call)} (hs : Sound w) (ha : Apart w.2)
    (hrun : Runs Apt ⟨w, []⟩ cs σ) : InKernel σ :=
  (hrun.kept ⟨⟨hs, rfl, fun _ => ha⟩, fun _ _ _ h => absurd h List.not_mem_nil,
    fun _ _ _ _ _ h => absurd h List.not_mem_nil⟩).inKernel

section Example

def withDir : Fs × Blocks := (sysMkdir .user blank [slash, 97]).after started

def withFile : Fs × Blocks := (sysOpen .kernel blank 0 [slash, 102] 6).after withDir

set_option maxRecDepth 100000 in
/-- A process makes `/a`, and then a kernel thread creates `/f`. -/
theorem kernel_thread_creates : ∃ σ, Runs Apt ⟨started, []⟩
    [(.user, .mkdir blank [slash, 97]), (.kernel, .open blank 0 [slash, 102] 6)] σ ∧ InKernel σ := by
  obtain ⟨r, hdir⟩ := exists_run_after (c := sysMkdir .user blank [slash, 97]) (s := started) (by decide +kernel)
  obtain ⟨r', hfile⟩ := exists_run_after (c := sysOpen .kernel blank 0 [slash, 102] 6) (s := withDir) (by decide +kernel)
  have hrun : Runs Apt ⟨started, []⟩ [(.user, .mkdir blank [slash, 97]), (.kernel, .open blank 0 [slash, 102] 6)]
      ⟨withFile, []⟩ := .cons trivial (.mkdir hdir) (.cons (.inl rfl) (.open hfile) .nil)
  exact ⟨_, hrun, inodes_stay_in_kernel_heap plain_started.sound (plain_started.apart trivial) hrun⟩

def created : Fs × Blocks := (sysOpen .user blank 1 [slash, 102] 6).after started

def discarded : Fs × Blocks := (sysClose 1 3).after created

set_option maxRecDepth 100000 in
/-- A process creates `/f` and closes it. -/
theorem process_creates : ∃ σ τ, Runs (fun _ _ _ => True) ⟨started, []⟩ [(.user, .open blank 1 [slash, 102] 6)] σ ∧
    (2 ∈ σ.world.1.mem.openInodes ∧ σ.world.2.pool (.inode 2) = some .user) ∧
    Runs (fun _ _ _ => True) σ [(.user, .close 1 3)] τ ∧ τ.world.2.mixed = true := by
  obtain ⟨r, hopen⟩ := exists_run_after (c := sysOpen .user blank 1 [slash, 102] 6) (s := started) (by decide +kernel)
  obtain ⟨r', hclose⟩ := exists_run_after (c := sysClose 1 3) (s := created) (by decide +kernel)
  exact ⟨⟨created, []⟩, ⟨discarded, []⟩, .cons trivial (.open hopen) .nil, by decide +kernel,
    .cons trivial (.close hclose) .nil, by decide +kernel⟩

end Example

end TrueOs.Fs.Tracked
