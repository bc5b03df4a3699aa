import Mathlib.Logic.Relation
import TrueOs.Userprog.Frames

/-! The memory of a process is its own, whatever the other processes do in their turns. -/

namespace TrueOs.Mm

open Prog

/-- Process `p` stores to one of its pages, or makes a call that succeeds. -/
inductive Turn (p : Nat) (s t : Mm) : Prop
  | store {v : Nat} {b : Buf} (hv : v < kernelBase)
      (hr : ((do pageDirActivate p; writePage v b).on s).run = .ok ((), t))
  | mallocPage {cnt v : Nat} (hr : ((do pageDirActivate p; mallocPage p .user cnt).on s).run = .ok (some v, t))
  | getAPage {v w : Nat} (hlo : userVaddrStart ≤ v) (hhi : v < kernelBase)
      (hr : ((do pageDirActivate p; getAPage p v).on s).run = .ok (some w, t))
  | mfreePage {v cnt : Nat} (hlo : userVaddrStart ≤ v) (hhi : v + cnt ≤ kernelBase)
      (hv : ∀ w, v ≤ w → w < v + cnt → ∃ f, s.mapped p w = some f)
      (hr : ((do pageDirActivate p; mfreePage p .user v cnt).on s).run = .ok ((), t))
  | fork {c : Nat × Nat} (hr : ((do pageDirActivate p; sysFork p).on s).run = .ok (some c, t))
  | exit (hr : ((do pageDirActivate p; sysExit p).on s).run = .ok ((), t))

section Turn

variable {s t : Mm} {p q : Nat}

theorem sat_store {v : Nat} (b : Buf) (hv : v < kernelBase) (ha : s.active = p) : ((writePage v b).on s).Sat True
    (fun _ t => ∃ f, s.mapped p v = some f ∧ t = { s with phys := Function.update s.phys f b }) := by
  rw [writePage, sat_bind]
  refine (sat_getPte_user hv ha).mono fun e t ht => ?_
  obtain ⟨rfl, table, hd, rfl⟩ := ht
  split
  · next hpres => exact ⟨_, by rw [mapped, hd, Option.bind_some, Pte.mapped, if_pos hpres], rfl⟩
  · trivial

theorem Inv.store_aside (h : Inv s) (hp : p ∈ s.live) {v f : Nat} (hf : s.mapped p v = some f) (b : Buf) :
    Aside p s { s with phys := Function.update s.phys f b } := by
  refine fun q hq hqp => ⟨hq, fun w => ?_⟩
  change (s.mapped q w).map (Function.update s.phys f b) = (s.mapped q w).map s.phys
  cases hw : s.mapped q w with
  | none => rfl
  | some g =>
    -- a frame has one owner
    have hne : g ≠ f := by
      rintro rfl
      have heq : (q, w) = (p, v) := h.ok.user.inj ⟨hq, hw⟩ ⟨hp, hf⟩
      exact hqp (congrArg Prod.fst heq)
    rw [Option.map_some, Option.map_some, Function.update_of_ne hne]

theorem Beside.aside (h : Beside p s t) (hm : ∀ q ∈ s.live, q ≠ p → ∀ w, t.mapped q w = s.mapped q w) : Aside p s t := by
  refine fun q hq hqp => ⟨h.live.symm ▸ hq, fun w => ?_⟩
  rw [content, content, hm q hq hqp, h.phys]

theorem Turn.keeps (ht : Turn p s t) (h : Inv s) (hp : p ∈ s.live) : Inv t ∧ Aside p s t := by
  have ha := h.activate p
  cases ht with
  | @store v b hv hr =>
    obtain ⟨f, hf, rfl⟩ := (sat_store (s := { s with active := p }) b hv rfl).of_run hr
    exact ⟨⟨h.ok.withActive _ p, h.agree⟩, h.store_aside hp hf b⟩
  | @mallocPage cnt v hr =>
    obtain ⟨hb, -, -, -, hm⟩ := ((sat_mallocUser ha hp rfl cnt).of_run hr).2 v rfl
    exact ⟨hb.inv, hb.aside fun q hq hqp w => hm.outside q hq w fun hc => hqp hc.1⟩
  | @getAPage v w hlo hhi hr =>
    obtain ⟨-, hb, hm⟩ := (sat_getAPage ha hp rfl hlo hhi).of_run hr
    exact ⟨hb.inv, hb.aside fun q hq hqp w => hm.outside q hq w fun hc => hqp hc.1⟩
  | @mfreePage v cnt hlo hhi hv hr =>
    obtain ⟨hb, hm⟩ := (sat_mfreeUser ha hp rfl hlo hhi hv).of_run hr
    exact ⟨hb.inv, hb.aside fun q hq hqp w => (hm q hq w).trans (if_neg fun hc => hqp hc.1)⟩
  | @fork c hr =>
    obtain ⟨x, hx, -⟩ := ha.ok.task p hp
    have hf := (sat_sysFork ha.ok hp rfl hx).of_run hr c rfl
    refine ⟨(sat_fork ha hp rfl).of_run hr rfl, fun q hq _ => ⟨?_, fun w => (hf.same q hq w).2⟩⟩
    have hqc : q ≠ c.1 := fun hc => hf.fresh (hc ▸ hq)
    exact (live_congr (map_essence_of_info (hf.others q hqc))).mpr hq
  | exit hr => exact (sat_sysExit ha hp rfl).of_run hr

/-- As long as `q` itself takes no turn, it stays alive and finds its memory as it left it. -/
theorem memory_isolated (h : Reach s) (hq : q ∈ s.live)
    (hr : Relation.ReflTransGen (fun s t => ∃ p ∈ s.live, p ≠ q ∧ Turn p s t) s t) :
    q ∈ t.live ∧ ∀ v, t.content q v = s.content q v := by
  have hrun : Inv t ∧ q ∈ t.live ∧ ∀ v, t.content q v = s.content q v := by
    induction hr with
    | refl => exact ⟨h.inv, hq, fun _ => rfl⟩
    | tail _ hstep ih =>
      obtain ⟨hinv, hlive, hsame⟩ := ih
      obtain ⟨p, hp, hpq, hturn⟩ := hstep
      obtain ⟨hinv', haside⟩ := hturn.keeps hinv hp
      obtain ⟨hlive', hsame'⟩ := haside q hlive hpq.symm
      exact ⟨hinv', hlive', fun v => (hsame' v).trans (hsame v)⟩
  exact hrun.2

end Turn

/-- A second process, which stores to its stack. -/
def withShell : Mm := (do let p ← processExecute [115, 104]; startProcess p).after withInit

theorem shell_leaves_init : ∃ t, ((do pageDirActivate (kHeapStart + 25); writePage userStack3Vaddr fun _ => 1).on
    withShell).run = .ok ((), t) ∧ kHeapStart ∈ t.live ∧ ∀ v, t.content kHeapStart v = withShell.content kHeapStart v := by
  have hreach : Reach withShell := reach_withInit.step (.execute (run_after (by decide)))
  have hinit : kHeapStart ∈ withShell.live :=
    Option.map_eq_some_iff.mp (show (withShell.tasks kHeapStart).map Task.alive = some true by decide)
  have hshell : kHeapStart + 25 ∈ withShell.live :=
    Option.map_eq_some_iff.mp (show (withShell.tasks (kHeapStart + 25)).map Task.alive = some true by decide)
  have hrun := run_after (c := do pageDirActivate (kHeapStart + 25); writePage userStack3Vaddr fun _ => 1)
    (s := withShell) (by decide)
  exact ⟨_, hrun, memory_isolated hreach hinit (.single ⟨_, hshell, by decide, .store (by decide) hrun⟩)⟩

end TrueOs.Mm
