import TrueOs.Userprog.WaitExit

/-! Parents and children: numbers are never shared, nobody's parent has gone, and a child that
exits is handed to its parent once. -/

namespace TrueOs.Sched

open Prog Mm

variable {s t : Sys}

structure Family (s : Sys) : Prop where
  distinct : Distinct s
  marked : ∀ u ∈ s.allList, ∃ i, s.pid u = i + 1 ∧ i < 8 * s.pidBitmap.btmpBytesLen ∧ s.pidBitmap.bits.bit i = true
  parent : ∀ u ∈ s.allList, s.parentPid u = -1 ∨
    ∃ p ∈ s.allList, (s.pid p : Int) = s.parentPid u ∧ s.status p ≠ .hanging
  own : ∀ u ∈ s.allList, s.parentPid u ≠ s.pid u
  hang : ∀ u ∈ s.allList, s.status u = .hanging → s.parentPid u ≠ -1
  init : ∃ u ∈ s.allList, s.pid u = 1 ∧ s.parentPid u = -1
  main : s.mainThread ∈ s.allList →
    s.pid s.mainThread ≠ 1 ∧ ∀ u ∈ s.allList, s.parentPid u ≠ s.pid s.mainThread

theorem Family.same (h : Family s) (e : SameFamily s t) : Family t := by
  refine ⟨?_, ?_, ?_, ?_, ?_, ?_, ?_⟩
  · rw [Distinct, e.allList, e.pid]
    exact h.distinct
  · rw [e.allList, e.pid, e.pidBitmap]
    exact h.marked
  · rw [e.allList, e.pid, e.parentPid]
    simp only [Ne, e.hanging]
    exact h.parent
  · rw [e.allList, e.pid, e.parentPid]
    exact h.own
  · rw [e.allList, e.parentPid]
    simp only [e.hanging]
    exact h.hang
  · rw [e.allList, e.pid, e.parentPid]
    exact h.init
  · rw [e.allList, e.pid, e.parentPid, e.mainThread]
    exact h.main

theorem Sys.bit_setPid (s : Sys) (i j : Nat) (v : Bool) :
    (s.setPid i v).pidBitmap.bits.bit j = if j = i then v else s.pidBitmap.bits.bit j :=
  Buf.bit_setBit s.pidBitmap.bits i j v

theorem Family.take (h : Family s) (i : Nat) : Family (s.setPid i true) := by
  refine { h with marked := fun u hu => ?_ }
  obtain ⟨j, hj, hlt, hbit⟩ := h.marked u hu
  refine ⟨j, hj, hlt, ?_⟩
  rw [Sys.bit_setPid]
  split
  · rfl
  · exact hbit

theorem Family.fresh (h : Family s) {i : Nat} (hi : s.pidBitmap.FirstFree i) {u : Nat} (hu : u ∈ s.allList) :
    s.pid u ≠ i + 1 := by
  intro e
  obtain ⟨j, hj, -, hbit⟩ := h.marked u hu
  obtain rfl : j = i := by omega
  rw [hi.free] at hbit
  cases hbit

structure Joined (s t : Sys) (u p : Nat) (parent : Int) : Prop where
  mem : ∀ v, v ∈ t.allList ↔ v ∈ s.allList ∨ v = u
  pid : t.pid u = p
  parentPid : t.parentPid u = parent
  status : t.status u = .ready
  old : ∀ v ∈ s.allList, t.pid v = s.pid v ∧ t.parentPid v = s.parentPid v ∧ t.status v = s.status v ∧
    t.exitStatus v = s.exitStatus v
  mainThread : t.mainThread = s.mainThread

theorem Sys.joined {u i : Nat} (hu : u ∉ s.allList) (p : Nat) (parent ex : Int) :
    Joined s ((s.setPid i true).add u p parent ex) u p parent where
  mem v := by
    rw [add, List.mem_append, List.mem_singleton]
    rfl
  pid := by
    simp [add]
  parentPid := by
    simp [add]
  status := Sys.status_self u _
  old v hv := by
    have hne : v ≠ u := by
      rintro rfl
      exact hu hv
    simp [add, setPid, setStatus, hne]
  mainThread := rfl

theorem Family.add (h : Family s) (hi : Inv s) (hm : s.cur ≠ s.mainThread) {u i : Nat} (hu : u ∉ s.allList)
    (hum : u ≠ s.mainThread) (hfree : s.pidBitmap.FirstFree i) (ex : Int) :
    Family ((s.setPid i true).add u (i + 1) (s.pid s.cur) ex) := by
  have hj := Sys.joined (i := i) hu (i + 1) (s.pid s.cur) ex
  have hbits : ((s.setPid i true).add u (i + 1) (s.pid s.cur) ex).pidBitmap = (s.setPid i true).pidBitmap := rfl
  generalize (s.setPid i true).add u (i + 1) (s.pid s.cur) ex = t at hj hbits ⊢
  have hcur := hj.old s.cur hi.curMem
  refine ⟨?_, ?_, ?_, ?_, ?_, ?_, ?_⟩
  · intro v hv w hw e
    rcases (hj.mem v).1 hv with hv | hv <;> rcases (hj.mem w).1 hw with hw | hw
    · rw [(hj.old v hv).1, (hj.old w hw).1] at e
      exact h.distinct v hv w hw e
    · rw [(hj.old v hv).1, hw, hj.pid] at e
      exact absurd e (h.fresh hfree hv)
    · rw [(hj.old w hw).1, hv, hj.pid] at e
      exact absurd e.symm (h.fresh hfree hw)
    · rw [hv, hw]
  · intro v hv
    rw [hbits]
    rcases (hj.mem v).1 hv with hv | hv
    · rw [(hj.old v hv).1]
      exact (h.take i).marked v hv
    · refine ⟨i, hv ▸ hj.pid, hfree.lt, ?_⟩
      rw [Sys.bit_setPid, if_pos rfl]
  · intro v hv
    rcases (hj.mem v).1 hv with hv | hv
    · rw [(hj.old v hv).2.1]
      refine (h.parent v hv).imp_right fun hq => ?_
      obtain ⟨q, hq, hqp, hqs⟩ := hq
      refine ⟨q, (hj.mem q).2 (.inl hq), ?_, ?_⟩
      · rw [(hj.old q hq).1, hqp]
      · rw [(hj.old q hq).2.2.1]
        exact hqs
    · refine .inr ⟨s.cur, (hj.mem _).2 (.inl hi.curMem), ?_, ?_⟩
      · rw [hcur.1, hv, hj.parentPid]
      · rw [hcur.2.2.1, hi.running]
        decide
  · intro v hv
    rcases (hj.mem v).1 hv with hv | hv
    · rw [(hj.old v hv).1, (hj.old v hv).2.1]
      exact h.own v hv
    · rw [hv, hj.pid, hj.parentPid]
      exact_mod_cast h.fresh hfree hi.curMem
  · intro v hv hs
    rcases (hj.mem v).1 hv with hv | hv
    · rw [(hj.old v hv).2.1]
      exact h.hang v hv ((hj.old v hv).2.2.1 ▸ hs)
    · rw [hv, hj.status] at hs
      cases hs
  · obtain ⟨v, hv, h1, h2⟩ := h.init
    exact ⟨v, (hj.mem v).2 (.inl hv), (hj.old v hv).1.trans h1, (hj.old v hv).2.1.trans h2⟩
  · rw [hj.mainThread]
    intro hmem
    have hmem : s.mainThread ∈ s.allList := ((hj.mem _).1 hmem).resolve_right (Ne.symm hum)
    rw [(hj.old _ hmem).1]
    refine ⟨(h.main hmem).1, fun v hv => ?_⟩
    rcases (hj.mem v).1 hv with hv | hv
    · rw [(hj.old v hv).2.1]
      exact (h.main hmem).2 v hv
    · rw [hv, hj.parentPid]
      intro e
      exact hm (h.distinct _ hi.curMem _ hmem (by exact_mod_cast e))

theorem Family.drop (h : Family s) (hn : s.allList.Nodup) {u : Nat} (hu : u ∈ s.allList)
    (hp : ∀ v ∈ s.allList, s.parentPid v ≠ s.pid u) (h1 : s.pid u ≠ 1) :
    Family ((s.drop u).setPid (s.pid u - 1) false) := by
  have hmem : ∀ v, v ∈ ((s.drop u).setPid (s.pid u - 1) false).allList ↔ v ≠ u ∧ v ∈ s.allList :=
    fun v => hn.mem_erase_iff
  have hst : ∀ v, v ≠ u → ((s.drop u).setPid (s.pid u - 1) false).status v = s.status v :=
    fun v hv => Sys.status_of_ne hv _
  refine ⟨?_, ?_, ?_, ?_, ?_, ?_, ?_⟩
  · intro v hv w hw e
    exact h.distinct v ((hmem v).1 hv).2 w ((hmem w).1 hw).2 e
  · intro v hv
    obtain ⟨hvu, hv⟩ := (hmem v).1 hv
    obtain ⟨j, hj, hlt, hbit⟩ := h.marked v hv
    obtain ⟨k, hk, -, -⟩ := h.marked u hu
    refine ⟨j, hj, hlt, ?_⟩
    rw [Sys.bit_setPid, if_neg]
    · exact hbit
    · intro e
      exact hvu (h.distinct v hv u hu (by omega))
  · intro v hv
    have hv := ((hmem v).1 hv).2
    refine (h.parent v hv).imp_right fun hq => ?_
    obtain ⟨q, hq, hqp, hqs⟩ := hq
    have hqu : q ≠ u := fun e => hp v hv (e ▸ hqp.symm)
    exact ⟨q, (hmem q).2 ⟨hqu, hq⟩, hqp, (hst q hqu).symm ▸ hqs⟩
  · exact fun v hv => h.own v ((hmem v).1 hv).2
  · intro v hv hs
    obtain ⟨hvu, hv⟩ := (hmem v).1 hv
    exact h.hang v hv (hst v hvu ▸ hs)
  · obtain ⟨v, hv, e, e'⟩ := h.init
    refine ⟨v, (hmem v).2 ⟨?_, hv⟩, e, e'⟩
    rintro rfl
    exact h1 e
  · intro hmain
    obtain ⟨-, hmain⟩ := (hmem _).1 hmain
    exact ⟨(h.main hmain).1, fun v hv => (h.main hmain).2 v ((hmem v).1 hv).2⟩

theorem Family.childless (h : Family s) {u : Nat} (hu : u ∈ s.allList) (hs : s.status u = .hanging) :
    (∀ v ∈ s.allList, s.parentPid v ≠ s.pid u) ∧ s.pid u ≠ 1 := by
  constructor
  · intro v hv e
    rcases h.parent v hv with hp | ⟨q, hq, hqp, hqs⟩
    · omega
    · have hqu : q = u := h.distinct q hq u hu (by exact_mod_cast hqp.trans e)
      exact hqs (hqu ▸ hs)
  · intro e
    obtain ⟨v, hv, h1, h2⟩ := h.init
    have hvu : v = u := h.distinct v hv u hu (h1.trans e.symm)
    exact h.hang u hu hs (hvu ▸ h2)

theorem Family.exited (h : Family s) {status : Int} (hc : s.parentPid s.cur ≠ -1)
    (he : Exited status s t) : Family t := by
  have hpar : ∀ u ∈ s.allList, t.parentPid u = if s.parentPid u = s.pid s.cur then 1 else s.parentPid u := by
    intro u hu
    rw [he.parentPid, foldl_adopt]
    simp [hu]
  obtain ⟨a, ha, ha1, hap⟩ := h.init
  have hac : a ≠ s.cur := by
    rintro rfl
    exact hc hap
  have has : t.status a ≠ .hanging := by
    rw [Ne, he.hanging]
    rintro (e | e)
    · exact hac e
    · exact h.hang a ha e hap
  refine ⟨?_, ?_, ?_, ?_, ?_, ?_, ?_⟩
  · rw [Distinct, he.allList, he.pid]
    exact h.distinct
  · rw [he.allList, he.pid, he.pidBitmap]
    exact h.marked
  · intro u hu
    rw [he.allList] at hu ⊢
    rw [hpar u hu, he.pid]
    by_cases hq : s.parentPid u = s.pid s.cur
    · rw [if_pos hq]
      exact .inr ⟨a, ha, by rw [ha1]; rfl, has⟩
    · rw [if_neg hq]
      refine (h.parent u hu).imp_right fun hq => ?_
      obtain ⟨q, hqm, hqp, hqs⟩ := hq
      refine ⟨q, hqm, hqp, ?_⟩
      rw [Ne, he.hanging]
      rintro (e | e)
      · exact hq (e ▸ hqp.symm)
      · exact hqs e
  · intro u hu
    rw [he.allList] at hu
    rw [hpar u hu, he.pid]
    split
    · next hq =>
      intro e
      have hua : u = a := h.distinct u hu a ha (by omega)
      rw [hua, hap] at hq
      omega
    · exact h.own u hu
  · intro u hu hs
    rw [he.allList] at hu
    rw [hpar u hu]
    split
    · decide
    · next hq =>
      rcases (he.hanging u).1 hs with e | e
      · exact e ▸ hc
      · exact h.hang u hu e
  · refine ⟨a, he.allList ▸ ha, by rw [he.pid, ha1], ?_⟩
    rw [hpar a ha, if_neg, hap]
    rw [hap]
    omega
  · rw [he.mainThread, he.allList, he.pid]
    intro hm
    refine ⟨(h.main hm).1, fun u hu => ?_⟩
    rw [hpar u hu]
    split
    · have := (h.main hm).1
      omega
    · exact (h.main hm).2 u hu

/-- What `sys_wait` has returned: which process, with what status, which parent it had then,
and who has waited. -/
structure Reaped where
  child : Nat
  status : Int
  parentPid : Int
  waiter : Nat

/-- Pages and numbers are used again, so every process gets a name of its own at its fork;
`exits` and `reaps` have the latest first. -/
structure Hist where
  name : Nat → Nat
  next : Nat
  exits : List (Nat × Int)
  reaps : List Reaped

namespace Hist

variable (h : Hist)

def forked : Option Nat → Hist
  | none => h
  | some u => { h with name := Function.update h.name u h.next, next := h.next + 1 }

def exited (u : Nat) (status : Int) : Hist := { h with exits := (h.name u, status) :: h.exits }

def waited (s : Sys) : Waited → Hist
  | .child p st =>
    match pid2thread s p with
    | some u => { h with reaps := ⟨h.name u, st, s.parentPid u, s.pid s.cur⟩ :: h.reaps }
    | none => h
  | _ => h

end Hist

/-- The kernel threads make no system calls. -/
def UserRuns (s : Sys) : Prop := s.cur ≠ s.mainThread ∧ s.cur ≠ s.idleThread

inductive Step : Sys × Hist → Sys × Hist → Prop
  | other {s t : Sys} {h : Hist} {o : Op} (ho : Allowed s o) (hn : Neutral s o)
      (hr : (o.run.on s).run = .ok ((), t)) : Step (s, h) (t, h)
  | exitMain {s t : Sys} {h : Hist} (hm : s.cur = s.mainThread)
      (hr : ((threadExit s.cur true).on s).run = .ok ((), t)) : Step (s, h) (t, h)
  | fork {s t : Sys} {h : Hist} {page : Option Nat} {room : Bool} {r : Option Nat} (hu : UserRuns s)
      (hp : ∀ u, page = some u → u ∉ s.allList ∧ u ≠ s.mainThread)
      (hr : ((sysFork page room).on s).run = .ok (r, t)) : Step (s, h) (t, h.forked r)
  | exit {s t : Sys} {h : Hist} {status : Int} (hu : UserRuns s)
      (hr : ((sysExit status).on s).run = .ok ((), t)) : Step (s, h) (t, h.exited s.cur status)
  | wait {s t : Sys} {h : Hist} {r : Waited} (hu : UserRuns s)
      (hr : (sysWait.on s).run = .ok (r, t)) : Step (s, h) (t, h.waited s r)

/-- The boot thread, the first process and the idle thread are the first three. -/
def Hist.boot (init main : Nat) : Hist where
  name := fun u => if u = init then 0 else if u = main then 1 else 2
  next := 3
  exits := []
  reaps := []

inductive Run : Sys × Hist → Prop
  | boot {init main idle : Nat} (hn : [init, main, idle].Nodup) (value : Nat → Nat) :
      Run (boot init main idle value, Hist.boot init main)
  | step {c d : Sys × Hist} (hc : Run c) (hs : Step c d) : Run d

structure Record (s : Sys) (h : Hist) : Prop where
  fresh : ∀ u ∈ s.allList, h.name u < h.next
  inj : ∀ u ∈ s.allList, ∀ v ∈ s.allList, h.name u = h.name v → u = v
  known : ∀ e ∈ h.exits, e.1 < h.next
  once : (h.exits.map Prod.fst).Nodup
  alive : ∀ u ∈ s.allList, s.status u ≠ .hanging → h.name u ∉ h.exits.map Prod.fst
  dead : ∀ u ∈ s.allList, s.status u = .hanging → ∃ st, (h.name u, st) ∈ h.exits ∧ s.exitStatus u = int8 st
  reaped : ∀ r ∈ h.reaps, r.parentPid = r.waiter ∧ ∃ st, (r.child, st) ∈ h.exits ∧ r.status = int8 st
  reapedOnce : (h.reaps.map Reaped.child).Nodup
  gone : ∀ u ∈ s.allList, h.name u ∉ h.reaps.map Reaped.child

variable {h : Hist}

theorem Record.same (hr : Record s h) (e : SameFamily s t) : Record t h := by
  refine { hr with fresh := ?_, inj := ?_, alive := ?_, dead := ?_, gone := ?_ }
  · rw [e.allList]
    exact hr.fresh
  · rw [e.allList]
    exact hr.inj
  · rw [e.allList]
    simp only [Ne, e.hanging]
    exact hr.alive
  · rw [e.allList, e.exitStatus]
    simp only [e.hanging]
    exact hr.dead
  · rw [e.allList]
    exact hr.gone

theorem Record.reaped_lt (hr : Record s h) {r : Reaped} (hm : r ∈ h.reaps) : r.child < h.next := by
  obtain ⟨-, st, he, -⟩ := hr.reaped r hm
  exact hr.known _ he

theorem Record.forked (hr : Record s h) {u p : Nat} {parent : Int} (hu : u ∉ s.allList)
    (hj : Joined s t u p parent) : Record t (h.forked (some u)) := by
  have hold : ∀ v ∈ s.allList, (h.forked (some u)).name v = h.name v := by
    intro v hv
    have hne : v ≠ u := by
      rintro rfl
      exact hu hv
    simp [Hist.forked, hne]
  have hnew : (h.forked (some u)).name u = h.next := by simp [Hist.forked]
  refine ⟨?_, ?_, ?_, hr.once, ?_, ?_, hr.reaped, hr.reapedOnce, ?_⟩
  · intro v hv
    rcases (hj.mem v).1 hv with hv | rfl
    · rw [hold v hv]
      exact Nat.lt_succ_of_lt (hr.fresh v hv)
    · rw [hnew]
      exact Nat.lt_succ_self _
  · intro v hv w hw e
    rcases (hj.mem v).1 hv with hv | rfl <;> rcases (hj.mem w).1 hw with hw | rfl
    · rw [hold v hv, hold w hw] at e
      exact hr.inj v hv w hw e
    · rw [hold v hv, hnew] at e
      exact absurd (hr.fresh v hv) (by omega)
    · rw [hold w hw, hnew] at e
      exact absurd (hr.fresh w hw) (by omega)
    · rfl
  · exact fun e he => Nat.lt_succ_of_lt (hr.known e he)
  · intro v hv hs
    rcases (hj.mem v).1 hv with hv | rfl
    · rw [hold v hv]
      exact hr.alive v hv ((hj.old v hv).2.2.1 ▸ hs)
    · rw [hnew]
      intro hm
      obtain ⟨e, he, hn⟩ := List.mem_map.1 hm
      exact absurd (hr.known e he) (by omega)
  · intro v hv hs
    rcases (hj.mem v).1 hv with hv | rfl
    · rw [hold v hv, (hj.old v hv).2.2.2]
      exact hr.dead v hv ((hj.old v hv).2.2.1 ▸ hs)
    · rw [hj.status] at hs
      cases hs
  · intro v hv
    rcases (hj.mem v).1 hv with hv | rfl
    · rw [hold v hv]
      exact hr.gone v hv
    · rw [hnew]
      intro hm
      obtain ⟨r, hrm, hn⟩ := List.mem_map.1 hm
      exact absurd (hr.reaped_lt hrm) (by omega)

theorem Record.exited (hr : Record s h) (hi : Inv s) {status : Int} (he : Exited status s t) :
    Record t (h.exited s.cur status) := by
  have hcur : h.name s.cur ∉ h.exits.map Prod.fst := hr.alive _ hi.curMem (by rw [hi.running]; decide)
  refine ⟨?_, ?_, ?_, List.nodup_cons.2 ⟨hcur, hr.once⟩, ?_, ?_, ?_, hr.reapedOnce, ?_⟩
  · rw [he.allList]
    exact hr.fresh
  · rw [he.allList]
    exact hr.inj
  · intro e hm
    rcases List.mem_cons.1 hm with rfl | hm
    · exact hr.fresh _ hi.curMem
    · exact hr.known e hm
  · intro u hu hs
    rw [he.allList] at hu
    rw [Ne, he.hanging, not_or] at hs
    rw [Hist.exited, List.map_cons, List.mem_cons, not_or]
    exact ⟨fun e => hs.1 (hr.inj u hu _ hi.curMem e), hr.alive u hu hs.2⟩
  · intro u hu hs
    rw [he.allList] at hu
    rw [he.exitStatus]
    by_cases hc : u = s.cur
    · subst hc
      exact ⟨status, List.mem_cons_self, by simp⟩
    · obtain ⟨st, hm, e⟩ := hr.dead u hu (((he.hanging u).1 hs).resolve_left hc)
      exact ⟨st, List.mem_cons_of_mem _ hm, by simp [hc, e]⟩
  · intro r hm
    obtain ⟨e, st, hst, hs⟩ := hr.reaped r hm
    exact ⟨e, st, List.mem_cons_of_mem _ hst, hs⟩
  · rw [he.allList]
    exact hr.gone

theorem Record.drop (hr : Record s h) (hn : s.allList.Nodup) (u p : Nat) :
    Record ((s.drop u).setPid p false) h := by
  have hmem : ∀ v, v ∈ ((s.drop u).setPid p false).allList ↔ v ≠ u ∧ v ∈ s.allList :=
    fun v => hn.mem_erase_iff
  have hst : ∀ v, v ≠ u → ((s.drop u).setPid p false).status v = s.status v :=
    fun v hv => Sys.status_of_ne hv _
  refine { hr with fresh := ?_, inj := ?_, alive := ?_, dead := ?_, gone := ?_ }
  · exact fun v hv => hr.fresh v ((hmem v).1 hv).2
  · exact fun v hv w hw => hr.inj v ((hmem v).1 hv).2 w ((hmem w).1 hw).2
  · intro v hv hs
    obtain ⟨hvu, hv⟩ := (hmem v).1 hv
    exact hr.alive v hv (hst v hvu ▸ hs)
  · intro v hv hs
    obtain ⟨hvu, hv⟩ := (hmem v).1 hv
    exact hr.dead v hv (hst v hvu ▸ hs)
  · exact fun v hv => hr.gone v ((hmem v).1 hv).2

theorem Record.reap (hr : Record s h) (hd : Distinct s) (hn : s.allList.Nodup) {u : Nat} (hu : u ∈ s.allList)
    (hp : s.parentPid u = s.pid s.cur) (hs : s.status u = .hanging) :
    Record ((s.drop u).setPid (s.pid u - 1) false) (h.waited s (.child (s.pid u) (s.exitStatus u))) := by
  have hdrop := hr.drop hn u (s.pid u - 1)
  rw [Hist.waited, pid2thread_eq hd hu]
  obtain ⟨st, hst, he⟩ := hr.dead u hu hs
  refine { hdrop with reaped := ?_, reapedOnce := ?_, gone := ?_ }
  · intro r hm
    rcases List.mem_cons.1 hm with rfl | hm
    · exact ⟨hp, st, hst, he⟩
    · exact hr.reaped r hm
  · exact List.nodup_cons.2 ⟨hr.gone u hu, hr.reapedOnce⟩
  · intro v hv
    obtain ⟨hvu, hv⟩ := hn.mem_erase_iff.1 hv
    rw [List.map_cons, List.mem_cons, not_or]
    exact ⟨fun e => hvu (hr.inj v hv u hu e), hr.gone v hv⟩

structure Whole (s : Sys) (h : Hist) : Prop where
  inv : Inv s
  family : Family s
  record : Record s h

theorem Family.safe_exit (h : Family s) (hi : Inv s) (hu : UserRuns s) (status : Int) :
    ((sysExit status).on s).Safe (fun _ t => Inv t ∧ s.parentPid s.cur ≠ -1 ∧ Exited status s t) := by
  refine safe_sysExit hi h.distinct hu.2 (fun hc => ?_) (h.own _ hi.curMem) status
  obtain ⟨p, hp, he, -⟩ := (h.parent _ hi.curMem).resolve_left hc
  exact ⟨p, hp, he⟩

theorem Step.whole {c d : Sys × Hist} (hs : Step c d) (hw : Whole c.1 c.2) : Whole d.1 d.2 := by
  obtain ⟨hi, hf, hr⟩ := hw
  cases hs with
  | other ho hn hrun =>
    obtain ⟨ht, hc⟩ := (safe_neutral hi ho hn).of_run hrun
    exact ⟨ht, hf.same hc.toSameFamily, hr.same hc.toSameFamily⟩
  | @exitMain s t h hm hrun =>
    obtain ⟨ht, hc⟩ := (safe_exitMain hi hm).of_run hrun
    have hmain := hf.main (hm ▸ hi.curMem)
    rw [← hm] at hmain
    have hdrop := hf.drop hi.all hi.curMem hmain.2 hmain.1
    exact ⟨ht, hdrop.same hc.calm.toSameFamily, (hr.drop hi.all _ _).same hc.calm.toSameFamily⟩
  | @fork s t h page room r hu hp hrun =>
    obtain ⟨ht, hc⟩ := (safe_sysFork hi (fun u e => (hp u e).1) room).of_run hrun
    rcases hc with ⟨rfl, rfl | ⟨i, -, rfl⟩⟩ | ⟨u, i, hpage, rfl, hfree, rfl⟩
    · exact ⟨ht, hf, hr⟩
    · exact ⟨ht, hf.take i, { hr with }⟩
    · obtain ⟨hnew, hum⟩ := hp u hpage
      exact ⟨ht, hf.add hi hu.1 hnew hum hfree _, hr.forked hnew (Sys.joined hnew _ _ _)⟩
  | exit hu hrun =>
    obtain ⟨ht, hc, he⟩ := (hf.safe_exit hi hu _).of_run hrun
    exact ⟨ht, hf.exited hc he, hr.exited hi he⟩
  | @wait s t h r hu hrun =>
    obtain ⟨ht, hc⟩ := (safe_sysWait hi hu.2).of_run hrun
    cases r with
    | child p st =>
      obtain ⟨u, hm, hpar, hs, rfl, rfl, rfl⟩ := hc
      obtain ⟨hno, h1⟩ := hf.childless hm hs
      exact ⟨ht, hf.drop hi.all hm hno h1, hr.reap hf.distinct hi.all hm hpar hs⟩
    | noChild =>
      have e : t = s := hc
      subst e
      exact ⟨ht, hf, hr⟩
    | blocked => exact ⟨ht, hf.same hc.1, hr.same hc.1⟩

theorem whole_boot {init main idle : Nat} (hn : [init, main, idle].Nodup) (value : Nat → Nat) :
    Whole (boot init main idle value) (Hist.boot init main) := by
  have hi := inv_boot hn value
  have hd : init ≠ main ∧ init ≠ idle ∧ main ≠ idle := by
    simpa [and_assoc] using hn
  obtain ⟨h₁, h₂, h₃⟩ := hd
  have hall : ∀ u, u ∈ (boot init main idle value).allList ↔ u = init ∨ u = main ∨ u = idle := by
    intro u
    simp [boot]
  have hst : ∀ u ∈ (boot init main idle value).allList, (boot init main idle value).status u ≠ .hanging := by
    intro u hu
    rcases (hall u).1 hu with rfl | rfl | rfl <;> simp [boot, h₁, h₃.symm]
  have hbit : ∀ i < 3, Buf.bit (fun i => if i = 0 then 7 else 0) i = true := by decide
  refine ⟨hi, ⟨?_, ?_, ?_, ?_, ?_, ?_, ?_⟩, ⟨?_, ?_, ?_, ?_, ?_, ?_, ?_, ?_, ?_⟩⟩
  · intro u hu v hv
    rcases (hall u).1 hu with rfl | rfl | rfl <;> rcases (hall v).1 hv with rfl | rfl | rfl <;>
      simp [boot, h₁, h₂, h₃, h₁.symm, h₂.symm, h₃.symm]
  · intro u hu
    rcases (hall u).1 hu with rfl | rfl | rfl
    · exact ⟨0, by simp [boot], by simp [boot], hbit 0 (by decide)⟩
    · exact ⟨1, by simp [boot, h₁.symm], by simp [boot], hbit 1 (by decide)⟩
    · exact ⟨2, by simp [boot, h₂.symm, h₃.symm], by simp [boot], hbit 2 (by decide)⟩
  · exact fun u _ => .inl rfl
  · intro u _ e
    have e : (-1 : Int) = ((boot init main idle value).pid u : Int) := e
    omega
  · exact fun u hu hs => absurd hs (hst u hu)
  · exact ⟨init, (hall init).2 (.inl rfl), by simp [boot], rfl⟩
  · intro _
    refine ⟨by simp [boot, h₁.symm], fun u _ e => ?_⟩
    have e : (-1 : Int) = ((boot init main idle value).pid main : Int) := e
    omega
  · intro u hu
    rcases (hall u).1 hu with rfl | rfl | rfl <;> simp [Hist.boot] <;> split_ifs <;> omega
  · intro u hu v hv
    rcases (hall u).1 hu with rfl | rfl | rfl <;> rcases (hall v).1 hv with rfl | rfl | rfl <;>
      simp [Hist.boot, h₁, h₂, h₃, h₁.symm, h₂.symm, h₃.symm]
  · intro e he
    cases he
  · exact List.nodup_nil
  · intro u _ _ hm
    cases hm
  · exact fun u hu hs => absurd hs (hst u hu)
  · intro r hr
    cases hr
  · exact List.nodup_nil
  · intro u _ hm
    cases hm

theorem Run.whole {c : Sys × Hist} (hr : Run c) : Whole c.1 c.2 := by
  induction hr with
  | boot hn value => exact whole_boot hn value
  | step _ hs ih => exact hs.whole ih

structure ProcessTree (s : Sys) (h : Hist) : Prop where
  distinct : ∀ u ∈ s.allList, ∀ v ∈ s.allList, s.pid u = s.pid v → u = v
  marked : ∀ u ∈ s.allList, ∃ i, s.pid u = i + 1 ∧ i < 8 * s.pidBitmap.btmpBytesLen ∧ s.pidBitmap.bits.bit i = true
  parent : ∀ u ∈ s.allList, s.parentPid u = -1 ∨
    ∃ p, p ∈ s.allList ∧ pid2thread s (s.parentPid u) = some p ∧ (s.pid p : Int) = s.parentPid u ∧ s.status p ≠ .hanging
  found : UserRuns s → ∀ status, ((sysExit status).on s).Safe (fun _ _ => True)
  once : (h.exits.map Prod.fst).Nodup ∧ (h.reaps.map Reaped.child).Nodup
  reaped : ∀ r ∈ h.reaps, r.parentPid = r.waiter ∧ ∃ st, (r.child, st) ∈ h.exits ∧ r.status = int8 st

/-- In every run of processes that fork, exit and wait. -/
theorem process_tree (hr : Run (s, h)) : ProcessTree s h := by
  obtain ⟨hi, hf, hrec⟩ := hr.whole
  refine ⟨hf.distinct, hf.marked, fun u hu => ?_, fun hu st => ?_, ⟨hrec.once, hrec.reapedOnce⟩, hrec.reaped⟩
  · refine (hf.parent u hu).imp_right fun hp => ?_
    obtain ⟨p, hp, he, hs⟩ := hp
    refine ⟨p, hp, ?_, he, hs⟩
    rw [← he]
    exact pid2thread_eq hf.distinct hp
  · exact (hf.safe_exit hi hu st).mono fun _ _ _ => trivial

/-- The first process forks a child, which exits with 300; 300 - 256 comes back. -/
theorem init_waits_for_child : ∃ s h, Run (s, h) ∧ h.exits = [(3, 300)] ∧ h.reaps = [⟨3, 44, 1, 1⟩] ∧ ProcessTree s h := by
  have h₀ : Run (boot 1 2 3 fun _ => 1, Hist.boot 1 2) := .boot (by decide) _
  have h₁ := h₀.step (.exitMain rfl rfl)
  have h₂ := h₁.step (@Step.fork _ _ _ (some 4) true _ ⟨by decide, by decide⟩ (by simp; decide) rfl)
  have h₃ := h₂.step (.wait ⟨by decide, by decide⟩ rfl)
  have h₄ := h₃.step (.other (o := .tick) trivial trivial rfl)
  have h₅ := h₄.step (@Step.exit _ _ _ 300 ⟨by decide, by decide⟩ rfl)
  have h₆ := h₅.step (.wait ⟨by decide, by decide⟩ rfl)
  exact ⟨_, _, h₆, rfl, rfl, process_tree h₆⟩

end TrueOs.Sched
