import TrueOs.Thread.Sched

/-! A task is in the ready list exactly while it is ready, and its node is never in two lists. -/

namespace TrueOs.Sched

open Function (update update_self update_of_ne)
open Prog Mm

variable {s t : Sys}

structure Lists (s : Sys) : Prop where
  all : s.allList.Nodup
  ready : ∀ u, u ∈ s.readyList ↔ u ∈ s.allList ∧ s.status u = .ready
  nodup : s.readyList.Nodup
  waits : ∀ k u, u ∈ s.waiters k → u ∈ s.allList ∧ s.status u = .blocked
  waitsNodup : ∀ k, (s.waiters k).Nodup
  one : ∀ k l u, u ∈ s.waiters k → u ∈ s.waiters l → k = l
  idleMem : s.idleThread ∈ s.allList
  idle : s.status s.idleThread = .running ∨ s.status s.idleThread = .ready ∨ s.status s.idleThread = .blocked
  idleFree : ∀ k, s.idleThread ∉ s.waiters k
  cur : ∀ u ∈ s.allList, s.status u = .running → u = s.cur
  main : s.mainThread ≠ s.idleThread
  found : ∀ st ∈ s.found, st = .blocked

structure Inv (s : Sys) : Prop extends Lists s where
  curMem : s.cur ∈ s.allList
  running : s.status s.cur = .running

structure Moved (s t : Sys) : Prop where
  pid : t.pid = s.pid
  parentPid : t.parentPid = s.parentPid
  exitStatus : t.exitStatus = s.exitStatus
  allList : t.allList = s.allList
  pidBitmap : t.pidBitmap = s.pidBitmap
  mainThread : t.mainThread = s.mainThread
  idleThread : t.idleThread = s.idleThread
  status : ∀ u, t.status u = s.status u ∨
    (s.status u = .running ∨ s.status u = .ready ∨ s.status u = .blocked) ∧
      (t.status u = .running ∨ t.status u = .ready)

@[simp] theorem Sys.setStatus_status (u : Nat) (st : TaskStatus) :
    (s.setStatus u st).status = update s.status u st := rfl

theorem Sys.status_self (u : Nat) (st : TaskStatus) : (s.setStatus u st).status u = st := by
  rw [setStatus_status, update_self]

theorem Sys.status_of_ne {u v : Nat} (h : v ≠ u) (st : TaskStatus) :
    (s.setStatus u st).status v = s.status v := by
  rw [setStatus_status, update_of_ne h]

theorem Moved.refl (s : Sys) : Moved s s :=
  ⟨rfl, rfl, rfl, rfl, rfl, rfl, rfl, fun _ => .inl rfl⟩

theorem Moved.trans {r : Sys} (h : Moved s t) (h' : Moved t r) : Moved s r where
  pid := h'.pid.trans h.pid
  parentPid := h'.parentPid.trans h.parentPid
  exitStatus := h'.exitStatus.trans h.exitStatus
  allList := h'.allList.trans h.allList
  pidBitmap := h'.pidBitmap.trans h.pidBitmap
  mainThread := h'.mainThread.trans h.mainThread
  idleThread := h'.idleThread.trans h.idleThread
  status := by
    intro u
    rcases h.status u with e | ⟨a, b⟩ <;> rcases h'.status u with e' | ⟨a', b'⟩
    · exact .inl (e'.trans e)
    · exact .inr ⟨e ▸ a', b'⟩
    · exact .inr ⟨a, e' ▸ b⟩
    · exact .inr ⟨a, b'⟩

theorem Moved.set {l : List Nat} {c u : Nat} {f : List TaskStatus} {st : TaskStatus}
    (hu : s.status u = .running ∨ s.status u = .ready ∨ s.status u = .blocked)
    (hst : st = .running ∨ st = .ready) :
    Moved s (({ s with readyList := l, cur := c, found := f } : Sys).setStatus u st) where
  pid := rfl
  parentPid := rfl
  exitStatus := rfl
  allList := rfl
  pidBitmap := rfl
  mainThread := rfl
  idleThread := rfl
  status := by
    intro v
    by_cases hv : v = u
    · subst hv
      exact .inr ⟨hu, by rwa [Sys.status_self]⟩
    · exact .inl (Sys.status_of_ne hv st)

theorem Lists.free (h : Lists s) {u : Nat} (hu : s.status u ≠ .blocked) (k : Nat) : u ∉ s.waiters k :=
  fun hk => hu (h.waits k u hk).2

theorem Lists.not_ready (h : Lists s) {u : Nat} (hu : s.status u ≠ .ready) : u ∉ s.readyList :=
  fun hr => hu ((h.ready u).1 hr).2

theorem Lists.not_new (h : Lists s) {u : Nat} (hu : u ∉ s.allList) : u ∉ s.readyList :=
  fun hr => hu ((h.ready u).1 hr).1

theorem Lists.wake (h : Lists s) {u : Nat} {l : List Nat} (hu : u ∈ s.allList) (hr : s.status u ≠ .ready)
    (hw : ∀ k, u ∉ s.waiters k) (hl : l.Perm (u :: s.readyList)) :
    Lists (({ s with readyList := l } : Sys).setStatus u .ready) where
  all := h.all
  ready := by
    intro v
    have hm : v ∈ l ↔ v = u ∨ v ∈ s.readyList := by rw [hl.mem_iff, List.mem_cons]
    by_cases hv : v = u
    · subst hv
      exact ⟨fun _ => ⟨hu, Sys.status_self v _⟩, fun _ => hm.2 (.inl rfl)⟩
    · rw [Sys.status_of_ne hv]
      exact hm.trans ((or_iff_right hv).trans (h.ready v))
  nodup := hl.nodup_iff.2 (List.nodup_cons.2 ⟨h.not_ready hr, h.nodup⟩)
  waits := by
    intro k v hv
    have hne : v ≠ u := by
      rintro rfl
      exact hw k hv
    rw [Sys.status_of_ne hne]
    exact h.waits k v hv
  waitsNodup := h.waitsNodup
  one := h.one
  idleMem := h.idleMem
  idle := by
    by_cases hv : s.idleThread = u
    · subst hv
      exact .inr (.inl (Sys.status_self _ _))
    · have e := Sys.status_of_ne (s := { s with readyList := l }) hv .ready
      exact e ▸ h.idle
  idleFree := h.idleFree
  cur := by
    intro v hv hs
    by_cases hne : v = u
    · subst hne
      rw [Sys.status_self] at hs
      cases hs
    · rw [Sys.status_of_ne hne] at hs
      exact h.cur v hv hs
  main := h.main
  found := h.found

def Quiet (s : Sys) : Prop := ∀ u ∈ s.allList, s.status u ≠ .running

theorem Quiet.wake (h : Quiet s) (u : Nat) (l : List Nat) :
    Quiet (({ s with readyList := l } : Sys).setStatus u .ready) := by
  intro v hv hs
  by_cases hne : v = u
  · subst hne
    rw [Sys.status_self] at hs
    cases hs
  · rw [Sys.status_of_ne hne] at hs
    exact h v hv hs

theorem Lists.pick (h : Lists s) (hq : Quiet s) {next : Nat} {rest : List Nat} (hr : s.readyList = next :: rest) :
    Inv (({ s with readyList := rest, cur := next } : Sys).setStatus next .running) := by
  have hn : next ∈ s.allList ∧ s.status next = .ready := (h.ready next).1 (by rw [hr]; exact List.mem_cons_self)
  have hnd := h.nodup
  rw [hr, List.nodup_cons] at hnd
  refine ⟨⟨h.all, ?_, hnd.2, ?_, h.waitsNodup, h.one, h.idleMem, ?_, h.idleFree, ?_, h.main, h.found⟩,
    hn.1, Sys.status_self _ _⟩
  · intro v
    by_cases hv : v = next
    · subst hv
      rw [Sys.status_self]
      exact ⟨fun hm => absurd hm hnd.1, fun hm => by cases hm.2⟩
    · rw [Sys.status_of_ne hv]
      have := h.ready v
      rw [hr, List.mem_cons, or_iff_right hv] at this
      exact this
  · intro k v hv
    have hne : v ≠ next := by
      rintro rfl
      exact h.free (by rw [hn.2]; decide) k hv
    rw [Sys.status_of_ne hne]
    exact h.waits k v hv
  · by_cases hv : s.idleThread = next
    · subst hv
      exact .inl (Sys.status_self _ _)
    · have e := Sys.status_of_ne (s := { s with readyList := rest, cur := next }) hv .running
      exact e ▸ h.idle
  · intro v hv hs
    by_cases hne : v = next
    · exact hne
    · rw [Sys.status_of_ne hne] at hs
      exact absurd hs (hq v hv)

theorem safe_requeue (h : Lists s) (hc : s.status s.cur = .running → s.cur ∈ s.allList) :
    (requeue.on s).Safe (fun _ t => Lists t ∧ Quiet t ∧ Moved s t) := by
  simp only [requeue, bind_on, get_on, Res.safe_bind, Res.safe_done, ite_on]
  split
  · next hrun =>
    have hr : s.status s.cur ≠ .ready := by
      rw [hrun]
      decide
    simp only [Res.safe_bind, Res.safe_done, safe_assert, modify_on, decide_eq_true_eq]
    refine ⟨h.not_ready hr, ?_, ?_, ?_⟩
    · exact h.wake (hc hrun) hr (h.free (by rw [hrun]; decide)) (List.perm_append_singleton _ _)
    · intro v hv hs
      by_cases hne : v = s.cur
      · rw [hne, Sys.status_self] at hs
        cases hs
      · rw [Sys.status_of_ne hne] at hs
        exact hne (h.cur v hv hs)
    · exact Moved.set (.inl hrun) (.inr rfl)
  · next hrun =>
    simp only [pure_on, Res.safe_done]
    exact ⟨h, fun v hv hs => hrun (h.cur v hv hs ▸ hs), Moved.refl s⟩

theorem safe_threadUnblock (h : Lists s) {u : Nat} (hu : u ∈ s.allList) (ha : asleep (s.status u) = true)
    (hw : ∀ k, u ∉ s.waiters k) : ((threadUnblock u).on s).Safe
      (fun _ t => t = ({ s with readyList := u :: s.readyList } : Sys).setStatus u .ready ∧ Lists t) := by
  have hr : s.status u ≠ .ready := by
    intro e
    rw [e] at ha
    cases ha
  simp only [threadUnblock, bind_on, get_on, Res.safe_bind, Res.safe_done, safe_assert, modify_on, decide_eq_true_eq]
  exact ⟨ha, h.not_ready hr, trivial, h.wake hu hr hw (List.Perm.refl _)⟩

theorem safe_wakeIdle (h : Lists s) (hq : Quiet s) :
    (wakeIdle.on s).Safe (fun _ t => Lists t ∧ Quiet t ∧ Moved s t ∧ t.readyList ≠ []) := by
  simp only [wakeIdle, bind_on, get_on, Res.safe_bind, Res.safe_done, ite_on]
  split
  · next he =>
    -- the idle thread is not running, and not ready either
    have hb : s.status s.idleThread = .blocked := by
      rcases h.idle with e | e | e
      · exact absurd e (hq _ h.idleMem)
      · have := (h.ready s.idleThread).2 ⟨h.idleMem, e⟩
        rw [he] at this
        cases this
      · exact e
    have hm : ∀ st ∈ s.status s.idleThread :: s.found, st = .blocked := by
      intro st hst
      rcases List.mem_cons.1 hst with e | e
      · exact e.trans hb
      · exact h.found st e
    have hf : Lists { s with found := s.status s.idleThread :: s.found } := { h with found := hm }
    simp only [Res.safe_bind, Res.safe_done, modify_on]
    refine (safe_threadUnblock hf h.idleMem (by rw [hb]; rfl) h.idleFree).mono fun _ t ht => ?_
    obtain ⟨e, ht⟩ := ht
    have hqf : Quiet { s with found := s.status s.idleThread :: s.found } := hq
    subst e
    exact ⟨ht, hqf.wake s.idleThread (s.idleThread :: s.readyList), Moved.set (.inr (.inr hb)) (.inr rfl),
      List.cons_ne_nil _ _⟩
  · next he =>
    simp only [pure_on, Res.safe_done]
    exact ⟨h, hq, Moved.refl s, he⟩

theorem safe_switch (h : Lists s) (hq : Quiet s) (hne : s.readyList ≠ []) :
    (switch.on s).Safe (fun _ t => Inv t ∧ Moved s t) := by
  simp only [switch, bind_on, get_on, Res.safe_bind, Res.safe_done, safe_assert, decide_eq_true_eq]
  refine ⟨hne, ?_⟩
  cases hr : s.readyList with
  | nil => exact absurd hr hne
  | cons next rest =>
    simp only [bind_on, Res.safe_bind, modify_on, Res.safe_done]
    have hn := (h.ready next).1 (by rw [hr]; exact List.mem_cons_self)
    exact ⟨h.pick hq hr, Moved.set (.inr (.inl hn.2)) (.inl rfl)⟩

theorem safe_schedule (h : Lists s) (hc : s.status s.cur = .running → s.cur ∈ s.allList) :
    (schedule.on s).Safe (fun _ t => Inv t ∧ Moved s t) := by
  rw [schedule, bind_on, Res.safe_bind]
  refine (safe_requeue h hc).mono fun _ a ha => ?_
  obtain ⟨ha, hqa, hsa⟩ := ha
  rw [bind_on, Res.safe_bind]
  refine (safe_wakeIdle ha hqa).mono fun _ b hb => ?_
  obtain ⟨hb, hqb, hab, hne⟩ := hb
  refine (safe_switch hb hqb hne).mono fun _ t ht => ?_
  obtain ⟨ht, hbt⟩ := ht
  exact ⟨ht, (hsa.trans hab).trans hbt⟩

theorem Inv.sleep (h : Inv s) {st : TaskStatus} (ha : asleep st = true)
    (hi : s.cur = s.idleThread → st = .blocked) : Lists (s.setStatus s.cur st) where
  all := h.all
  ready := by
    intro v
    by_cases hv : v = s.cur
    · subst hv
      have hr : s.cur ∉ s.readyList := h.not_ready (by rw [h.running]; decide)
      refine ⟨fun hm => absurd hm hr, fun hm => ?_⟩
      rw [Sys.status_self] at hm
      rw [hm.2] at ha
      cases ha
    · rw [Sys.status_of_ne hv]
      exact h.ready v
  nodup := h.nodup
  waits := by
    intro k v hv
    have hne : v ≠ s.cur := by
      rintro rfl
      exact h.free (by rw [h.running]; decide) k hv
    rw [Sys.status_of_ne hne]
    exact h.waits k v hv
  waitsNodup := h.waitsNodup
  one := h.one
  idleMem := h.idleMem
  idle := by
    by_cases hv : s.idleThread = s.cur
    · have e : (s.setStatus s.cur st).status s.idleThread = st := by rw [hv, Sys.status_self]
      exact .inr (.inr (e.trans (hi hv.symm)))
    · have e := Sys.status_of_ne (s := s) hv st
      exact e ▸ h.idle
  idleFree := h.idleFree
  cur := by
    intro v hv hs
    by_cases hne : v = s.cur
    · exact hne
    · rw [Sys.status_of_ne hne] at hs
      exact h.cur v hv hs
  main := h.main
  found := h.found

theorem Lists.leave (h : Lists s) {u : Nat} (hu : u ≠ s.idleThread) (hb : s.status u ≠ .blocked) (b : Bitmap) :
    Lists { s.setStatus u .died with
      readyList := s.readyList.erase u
      allList := s.allList.erase u
      pidBitmap := b } where
  all := h.all.erase u
  ready := by
    intro v
    simp only [Sys.setStatus_status]
    rw [h.nodup.mem_erase_iff, h.all.mem_erase_iff]
    by_cases hv : v = u
    · simp [hv]
    · rw [update_of_ne hv, h.ready v, and_assoc]
  nodup := h.nodup.erase u
  waits := by
    intro k v hv
    have hne : v ≠ u := by
      rintro rfl
      exact h.free hb k hv
    simp only [Sys.setStatus_status]
    rw [update_of_ne hne, h.all.mem_erase_iff]
    exact ⟨⟨hne, (h.waits k v hv).1⟩, (h.waits k v hv).2⟩
  waitsNodup := h.waitsNodup
  one := h.one
  idleMem := h.all.mem_erase_iff.2 ⟨hu.symm, h.idleMem⟩
  idle := by
    have e := Sys.status_of_ne (s := s) hu.symm .died
    exact e ▸ h.idle
  idleFree := h.idleFree
  cur := by
    intro v hv hs
    obtain ⟨hne, hm⟩ := h.all.mem_erase_iff.1 hv
    simp only [Sys.setStatus_status] at hs
    rw [update_of_ne hne] at hs
    exact h.cur v hm hs
  main := h.main
  found := h.found

theorem Lists.join (h : Lists s) {u : Nat} (hu : u ∉ s.allList) (pid : Nat → Nat) (parent ex : Nat → Int) (b : Bitmap) :
    Lists { s.setStatus u .ready with
      readyList := s.readyList ++ [u]
      allList := s.allList ++ [u]
      pid := pid, parentPid := parent, exitStatus := ex, pidBitmap := b } where
  all := h.all.append (List.nodup_singleton u) (by simpa using hu)
  ready := by
    intro v
    simp only [Sys.setStatus_status, List.mem_append, List.mem_singleton]
    by_cases hv : v = u
    · simp [hv]
    · rw [update_of_ne hv, or_iff_left hv, or_iff_left hv]
      exact h.ready v
  nodup := h.nodup.append (List.nodup_singleton u) (by simpa using h.not_new hu)
  waits := by
    intro k v hv
    have hne : v ≠ u := by
      rintro rfl
      exact hu (h.waits k v hv).1
    simp only [Sys.setStatus_status, List.mem_append]
    rw [update_of_ne hne]
    exact ⟨.inl (h.waits k v hv).1, (h.waits k v hv).2⟩
  waitsNodup := h.waitsNodup
  one := h.one
  idleMem := List.mem_append_left _ h.idleMem
  idle := by
    have hne : s.idleThread ≠ u := by
      rintro rfl
      exact hu h.idleMem
    have e := Sys.status_of_ne (s := s) hne .ready
    exact e ▸ h.idle
  idleFree := h.idleFree
  cur := by
    intro v hv hs
    simp only [Sys.setStatus_status] at hs
    by_cases hne : v = u
    · rw [hne, update_self] at hs
      cases hs
    · rw [update_of_ne hne] at hs
      rcases List.mem_append.1 hv with hm | hm
      · exact h.cur v hm hs
      · exact absurd (List.mem_singleton.1 hm) hne
  main := h.main
  found := h.found

theorem safe_threadBlock (h : Inv s) {st : TaskStatus} (ha : asleep st = true)
    (hi : s.cur = s.idleThread → st = .blocked) :
    ((threadBlock st).on s).Safe (fun _ t => Inv t ∧ Moved (s.setStatus s.cur st) t) := by
  simp only [threadBlock, bind_on, Res.safe_bind, safe_assert, modify_on, Res.safe_done]
  refine ⟨ha, safe_schedule (h.sleep ha hi) fun e => ?_⟩
  exact h.curMem

theorem safe_threadYield (h : Inv s) : (threadYield.on s).Safe (fun _ t => Inv t ∧ Moved s t) := by
  have hr : s.status s.cur ≠ .ready := by
    rw [h.running]
    decide
  simp only [threadYield, bind_on, get_on, Res.safe_bind, safe_assert, modify_on, Res.safe_done, decide_eq_true_eq]
  have hw := h.wake h.curMem hr (h.free (by rw [h.running]; decide)) (List.perm_append_singleton s.cur s.readyList)
  refine ⟨h.not_ready hr, (safe_schedule hw fun _ => h.curMem).mono fun _ t ht => ?_⟩
  exact ⟨ht.1, (Moved.set (.inl h.running) (.inr rfl)).trans ht.2⟩

def Sys.setPid (s : Sys) (i : Nat) (v : Bool) : Sys :=
  { s with pidBitmap := { s.pidBitmap with bits := s.pidBitmap.bits.setBit i v } }

theorem safe_bitmapSet (i : Nat) (v : Bool) : ((quiet (s.pidBitmap.bitmapSet i v) : Prog Sys Unit Bitmap).on s).Safe
    (fun b t => t = s ∧ b = { s.pidBitmap with bits := s.pidBitmap.bits.setBit i v }) := by
  refine safe_quiet ?_
  rw [Bitmap.bitmapSet]
  split
  · exact ⟨rfl, rfl⟩
  · trivial

theorem safe_allocatePid (s : Sys) :
    (allocatePid.on s).Safe (fun p t => ∃ i, s.pidBitmap.FirstFree i ∧ p = i + 1 ∧ t = s.setPid i true) := by
  simp only [allocatePid, bind_on, get_on, Res.safe_bind, Res.safe_done]
  have hscan : ((quiet (Bitmap.bitmapScan s.pidBitmap 1) : Prog Sys Unit (Option Nat)).on s).Safe
      (fun r t => t = s ∧ ∃ i, r = some i ∧ s.pidBitmap.FirstFree i) :=
    safe_quiet (Bitmap.sat_bitmapScan_one (.inl trivial) fun i hi => ⟨rfl, i, rfl, hi⟩)
  refine hscan.mono fun r t ht => ?_
  obtain ⟨ht, i, hr, hi⟩ := ht
  subst ht hr
  simp only [bind_on, get_on, Res.safe_bind, Res.safe_done]
  refine (safe_bitmapSet i true).mono fun b t ht => ?_
  obtain ⟨ht, hb⟩ := ht
  subst ht hb
  exact ⟨i, hi, rfl, rfl⟩

theorem safe_releasePid (p : Nat) : ((releasePid p).on s).Safe (fun _ t => t = s.setPid (p - 1) false) := by
  simp only [releasePid, bind_on, get_on, Res.safe_bind, Res.safe_done]
  refine (safe_bitmapSet (p - 1) false).mono fun b t ht => ?_
  obtain ⟨ht, hb⟩ := ht
  subst ht hb
  rfl

def Sys.add (s : Sys) (u p : Nat) (parent ex : Int) : Sys :=
  { s.setStatus u .ready with
    readyList := s.readyList ++ [u]
    allList := s.allList ++ [u]
    pid := update s.pid u p
    parentPid := update s.parentPid u parent
    exitStatus := update s.exitStatus u ex }

def Sys.drop (s : Sys) (u : Nat) : Sys :=
  { s.setStatus u .died with
    readyList := s.readyList.erase u
    allList := s.allList.erase u }

theorem safe_enlist {u : Nat} (hr : u ∉ s.readyList) (hu : u ∉ s.allList) : ((enlist u).on s).Safe
    (fun _ t => t = { s with readyList := s.readyList ++ [u], allList := s.allList ++ [u] }) := by
  simp only [enlist, bind_on, get_on, Res.safe_bind, safe_assert, modify_on, Res.safe_done, decide_eq_true_eq]
  exact ⟨hr, hu, trivial⟩

theorem Inv.add (h : Inv s) {u : Nat} (hu : u ∉ s.allList) (i p : Nat) (parent ex : Int) :
    Inv ((s.setPid i true).add u p parent ex) where
  toLists := h.toLists.join hu _ _ _ _
  curMem := List.mem_append_left _ h.curMem
  running := by
    have hne : s.cur ≠ u := by
      rintro rfl
      exact hu h.curMem
    exact (Sys.status_of_ne hne _).trans h.running

theorem safe_threadStart (h : Inv s) {u : Nat} (hu : u ∉ s.allList) (hm : u ≠ s.mainThread) :
    ((threadStart u).on s).Safe (fun _ t => Inv t ∧
      ∃ i, s.pidBitmap.FirstFree i ∧ t = (s.setPid i true).add u (i + 1) (-1) 0) := by
  simp only [threadStart, initThread, bind_on, Res.safe_bind]
  refine (safe_allocatePid s).mono fun p t ht => ?_
  obtain ⟨i, hi, hp, ht⟩ := ht
  subst hp ht
  simp only [modify_on, Res.safe_done]
  refine Res.Safe.mono (safe_enlist (h.not_new hu) hu) fun _ t ht => ?_
  have hm : u ≠ (s.setPid i true).mainThread := hm
  have e : t = (s.setPid i true).add u (i + 1) (-1) 0 := by
    rw [ht, if_neg hm]
    rfl
  exact ⟨e ▸ h.add hu i (i + 1) (-1) 0, i, hi, e⟩

theorem safe_sysFork (h : Inv s) {page : Option Nat} (hu : ∀ u, page = some u → u ∉ s.allList) (room : Bool) :
    ((sysFork page room).on s).Safe (fun r t => Inv t ∧
      (r = none ∧ (t = s ∨ ∃ i, s.pidBitmap.FirstFree i ∧ t = s.setPid i true) ∨
        ∃ u i, page = some u ∧ r = some u ∧ s.pidBitmap.FirstFree i ∧
          t = (s.setPid i true).add u (i + 1) (s.pid s.cur) (s.exitStatus s.cur))) := by
  cases page with
  | none => exact ⟨h, .inl ⟨rfl, .inl rfl⟩⟩
  | some u =>
    have hu := hu u rfl
    simp only [sysFork, bind_on, Res.safe_bind]
    refine (safe_allocatePid s).mono fun p t ht => ?_
    obtain ⟨i, hi, hp, ht⟩ := ht
    subst hp ht
    cases room with
    | false => exact ⟨{ h with }, .inl ⟨rfl, .inr ⟨i, hi, rfl⟩⟩⟩
    | true =>
      simp only [if_true, bind_on, modify_on, Res.safe_bind, Res.safe_done]
      refine Res.Safe.mono (safe_enlist (h.not_new hu) hu) fun _ t ht => ?_
      have e : t = (s.setPid i true).add u (i + 1) (s.pid s.cur) (s.exitStatus s.cur) := ht
      exact ⟨e ▸ h.add hu i (i + 1) _ _, .inr ⟨u, i, rfl, rfl, hi, e⟩⟩

theorem safe_reap (h : Inv s) {u : Nat} (hu : s.status u = .hanging) : ((threadExit u false).on s).Safe
    (fun _ t => Inv t ∧ t = (s.drop u).setPid (s.pid u - 1) false) := by
  have hi : u ≠ s.idleThread := by
    rintro rfl
    have := h.idle
    simp [hu] at this
  have hc : s.cur ≠ u := by
    rintro rfl
    rw [h.running] at hu
    cases hu
  simp only [threadExit, bind_on, get_on, modify_on, Res.safe_bind, Res.safe_done]
  refine (safe_releasePid _).mono fun _ t ht => ?_
  have e : t = (s.drop u).setPid (s.pid u - 1) false := ht
  refine ⟨⟨?_, ?_, ?_⟩, e⟩
  · rw [e]
    exact h.toLists.leave hi (by rw [hu]; decide) _
  · rw [e]
    exact h.all.mem_erase_iff.2 ⟨hc, h.curMem⟩
  · rw [e]
    exact (Sys.status_of_ne hc _).trans h.running

theorem safe_exitMain (h : Inv s) (hm : s.cur = s.mainThread) :
    ((threadExit s.cur true).on s).Safe
      (fun _ t => Inv t ∧ Moved ((s.drop s.cur).setPid (s.pid s.cur - 1) false) t) := by
  simp only [threadExit, bind_on, get_on, modify_on, Res.safe_bind, Res.safe_done]
  refine (safe_releasePid _).mono fun _ t ht => ?_
  have e : t = (s.drop s.cur).setPid (s.pid s.cur - 1) false := ht
  have hl : Lists t := by
    rw [e]
    exact h.toLists.leave (hm ▸ h.main) (by rw [h.running]; decide) _
  have hd : t.status t.cur = .died := by
    rw [e]
    exact Sys.status_self _ _
  simp only [if_true]
  refine (safe_schedule hl fun hr => ?_).mono fun _ r hr => ⟨hr.1, e ▸ hr.2⟩
  rw [hd] at hr
  cases hr

theorem Inv.unblock (h : Inv s) {u : Nat} (hu : u ∈ s.allList) (ha : asleep (s.status u) = true)
    (hw : ∀ k, u ∉ s.waiters k) : ((threadUnblock u).on s).Safe
      (fun _ t => Inv t ∧ t = ({ s with readyList := u :: s.readyList } : Sys).setStatus u .ready) := by
  refine (safe_threadUnblock h.toLists hu ha hw).mono fun _ t ht => ?_
  obtain ⟨e, ht⟩ := ht
  refine ⟨⟨ht, ?_, ?_⟩, e⟩
  · rw [e]
    exact h.curMem
  · have hne : s.cur ≠ u := by
      rintro rfl
      rw [h.running] at ha
      cases ha
    rw [e]
    exact (Sys.status_of_ne hne _).trans h.running

theorem Sys.mem_setWaiters {k j u : Nat} {l : List Nat} :
    u ∈ (s.setWaiters k l).waiters j ↔ j = k ∧ u ∈ l ∨ j ≠ k ∧ u ∈ s.waiters j := by
  by_cases h : j = k
  · subst h
    simp [setWaiters]
  · simp [setWaiters, h]

theorem Lists.enqueue (h : Lists s) {u : Nat} (hu : u ∈ s.allList) (hb : s.status u = .blocked)
    (hw : ∀ k, u ∉ s.waiters k) (hi : u ≠ s.idleThread) (k : Nat) :
    Lists (s.setWaiters k (s.waiters k ++ [u])) := by
  have hmem : ∀ j v, v ∈ (s.setWaiters k (s.waiters k ++ [u])).waiters j ↔
      v ∈ s.waiters j ∨ j = k ∧ v = u := by
    intro j v
    rw [Sys.mem_setWaiters, List.mem_append, List.mem_singleton]
    by_cases hj : j = k <;> simp [hj]
  refine { h with waits := ?_, waitsNodup := ?_, one := ?_, idleFree := ?_ }
  · intro j v hv
    rcases (hmem j v).1 hv with hv | ⟨-, rfl⟩
    · exact h.waits j v hv
    · exact ⟨hu, hb⟩
  · intro j
    by_cases hj : j = k
    · subst hj
      have hn : (s.waiters j ++ [u]).Nodup :=
        (h.waitsNodup j).append (List.nodup_singleton u) (by simpa using hw j)
      simpa [Sys.setWaiters] using hn
    · simpa [Sys.setWaiters, hj] using h.waitsNodup j
  · intro j l v hj hl
    rcases (hmem j v).1 hj with hj | ⟨ej, ev⟩ <;> rcases (hmem l v).1 hl with hl | ⟨el, ev'⟩
    · exact h.one j l v hj hl
    · exact absurd (ev' ▸ hj) (hw j)
    · exact absurd (ev ▸ hl) (hw l)
    · exact ej.trans el.symm
  · intro j hj
    rcases (hmem j _).1 hj with hj | ⟨-, e⟩
    · exact h.idleFree j hj
    · exact hi e.symm

theorem Lists.dequeue (h : Lists s) {u k : Nat} {rest : List Nat} (hk : s.waiters k = u :: rest) :
    Lists (s.setWaiters k rest) ∧ ∀ j, u ∉ (s.setWaiters k rest).waiters j := by
  have hnd := h.waitsNodup k
  rw [hk, List.nodup_cons] at hnd
  have hold : ∀ j v, v ∈ (s.setWaiters k rest).waiters j → v ∈ s.waiters j := by
    intro j v hv
    rcases Sys.mem_setWaiters.1 hv with ⟨e, hv⟩ | ⟨-, hv⟩
    · rw [e, hk]
      exact List.mem_cons_of_mem _ hv
    · exact hv
  refine ⟨{ h with waits := ?_, waitsNodup := ?_, one := ?_, idleFree := ?_ }, ?_⟩
  · exact fun j v hv => h.waits j v (hold j v hv)
  · intro j
    by_cases hj : j = k
    · subst hj
      simpa [Sys.setWaiters] using hnd.2
    · simpa [Sys.setWaiters, hj] using h.waitsNodup j
  · exact fun j l v hj hl => h.one j l v (hold j v hj) (hold l v hl)
  · exact fun j hj => h.idleFree j (hold j _ hj)
  · intro j hj
    rcases Sys.mem_setWaiters.1 hj with ⟨-, hj⟩ | ⟨hne, hj⟩
    · exact hnd.1 hj
    · exact hne (h.one j k u hj (by rw [hk]; exact List.mem_cons_self))

theorem Inv.setValue (h : Inv s) (k v : Nat) : Inv (s.setValue k v) := { h with }

theorem safe_semaDown (h : Inv s) (hi : s.cur ≠ s.idleThread) (k : Nat) :
    ((semaDown k).on s).Safe (fun _ t => Inv t ∧
      (Moved (s.setValue k 0) t ∨ Moved ((s.setStatus s.cur .blocked).setWaiters k (s.waiters k ++ [s.cur])) t)) := by
  simp only [semaDown, bind_on, get_on, Res.safe_bind, Res.safe_done, ite_on]
  split
  · have hw : ∀ j, s.cur ∉ s.waiters j := h.free (by rw [h.running]; decide)
    simp only [threadBlock, Res.safe_bind, Res.safe_done, safe_assert, modify_on, decide_eq_true_eq, bind_on]
    refine ⟨hw k, rfl, ?_⟩
    have hl := (h.sleep rfl (fun e => absurd e hi)).enqueue h.curMem (Sys.status_self s.cur .blocked) hw hi k
    exact (safe_schedule hl fun _ => h.curMem).mono fun _ t ht => ⟨ht.1, .inr ht.2⟩
  · simp only [Res.safe_bind, Res.safe_done]
    split
    · exact ⟨h.setValue k 0, .inl (Moved.refl _)⟩
    · trivial

theorem safe_semaUp (h : Inv s) (k : Nat) : ((semaUp k).on s).Safe (fun _ t => Inv t ∧
    (t = s.setValue k 1 ∨ ∃ u rest, s.waiters k = u :: rest ∧ s.status u = .blocked ∧
      t = (({ s.setWaiters k rest with readyList := u :: s.readyList } : Sys).setStatus u .ready).setValue k 1)) := by
  simp only [semaUp, bind_on, get_on, Res.safe_bind, Res.safe_done, ite_on]
  split
  · simp only [Res.safe_bind, Res.safe_done]
    cases hk : s.waiters k with
    | nil => exact ⟨h.setValue k 1, .inl rfl⟩
    | cons u rest =>
      simp only [bind_on, modify_on, Res.safe_bind, Res.safe_done]
      obtain ⟨hd, hw⟩ := h.dequeue hk
      obtain ⟨hu, hb⟩ := h.waits k u (by rw [hk]; exact List.mem_cons_self)
      have hs : Inv (s.setWaiters k rest) := ⟨hd, h.curMem, h.running⟩
      refine (hs.unblock hu (by rw [show (s.setWaiters k rest).status u = .blocked from hb]; rfl) hw).mono
        fun _ t ht => ?_
      obtain ⟨ht, e⟩ := ht
      refine ⟨ht.setValue k 1, .inr ⟨u, rest, rfl, hb, ?_⟩⟩
      rw [e]
      rfl
  · trivial

inductive Op
  | tick | yield | block (stat : TaskStatus) | unblock (u : Nat) | start (u : Nat)
  | fork (page : Option Nat) (room : Bool) | reap (u : Nat) | exitMain | down (k : Nat) | up (k : Nat)

def Op.run : Op → Prog Sys Unit Unit
  | .tick => schedule
  | .yield => threadYield
  | .block stat => threadBlock stat
  | .unblock u => threadUnblock u
  | .start u => threadStart u
  | .fork page room => do
    let _ ← sysFork page room
    pure ()
  | .reap u => threadExit u false
  | .exitMain => do
    threadExit (← get).cur true
  | .down k => semaDown k
  | .up k => semaUp k

/-- When the running task may make a call.  A new PCB has a page that no task has, and `idle`
calls nothing but `thread_block(TASK_BLOCKED)`. -/
def Allowed (s : Sys) : Op → Prop
  | .tick | .yield | .up _ => True
  | .block stat => asleep stat = true ∧ (s.cur = s.idleThread → stat = .blocked)
  | .unblock u => u ∈ s.allList ∧ asleep (s.status u) = true ∧ ∀ k, u ∉ s.waiters k
  | .start u => u ∉ s.allList ∧ u ≠ s.mainThread
  | .fork page _ => ∀ u, page = some u → u ∉ s.allList
  | .reap u => u ∈ s.allList ∧ s.status u = .hanging
  | .exitMain => s.cur = s.mainThread
  | .down _ => s.cur ≠ s.idleThread

inductive Reach : Sys → Prop
  | boot {init main idle : Nat} (hn : [init, main, idle].Nodup) (value : Nat → Nat) :
      Reach (boot init main idle value)
  | step {s t : Sys} {o : Op} (hs : Reach s) (ho : Allowed s o) (hr : (o.run.on s).run = .ok ((), t)) : Reach t

theorem inv_boot {init main idle : Nat} (hn : [init, main, idle].Nodup) (value : Nat → Nat) :
    Inv (boot init main idle value) := by
  have hd : init ≠ main ∧ init ≠ idle ∧ main ≠ idle := by
    simpa [and_assoc] using hn
  obtain ⟨h₁, h₂, h₃⟩ := hd
  have hs : ∀ u, (boot init main idle value).status u =
      if u = main then .running else if u = init ∨ u = idle then .ready else .died := fun _ => rfl
  refine ⟨⟨hn, ?_, ?_, ?_, ?_, ?_, ?_, ?_, ?_, ?_, h₃, ?_⟩, ?_, ?_⟩
  · intro u
    rw [hs]
    by_cases hu : u = main
    · subst hu
      simp [boot, h₁.symm, h₃]
    · by_cases hu' : u = init ∨ u = idle <;> simp [boot, hu, hu']
  · simpa [boot] using h₂
  · intro k u hu
    cases hu
  · exact fun k => List.nodup_nil
  · intro k l u hu
    cases hu
  · simp [boot]
  · right; left
    simp [boot, h₃.symm]
  · intro k hk
    cases hk
  · intro u _ hu
    rw [hs] at hu
    by_contra hne
    have hne : u ≠ main := hne
    rw [if_neg hne] at hu
    split at hu <;> cases hu
  · intro st hst
    cases hst
  · simp [boot]
  · simp [boot]

theorem safe_op (h : Inv s) {o : Op} (ho : Allowed s o) : (o.run.on s).Safe (fun _ t => Inv t) := by
  cases o with
  | tick => exact (safe_schedule h.toLists fun _ => h.curMem).mono fun _ t ht => ht.1
  | yield => exact (safe_threadYield h).mono fun _ t ht => ht.1
  | block st => exact (safe_threadBlock h ho.1 ho.2).mono fun _ t ht => ht.1
  | unblock u => exact (h.unblock ho.1 ho.2.1 ho.2.2).mono fun _ t ht => ht.1
  | start u => exact (safe_threadStart h ho.1 ho.2).mono fun _ t ht => ht.1
  | fork page room =>
    rw [Op.run, bind_on, Res.safe_bind]
    exact (safe_sysFork h ho room).mono fun _ t ht => ht.1
  | reap u => exact (safe_reap h ho.2).mono fun _ t ht => ht.1
  | exitMain =>
    rw [Op.run, bind_on, get_on, Res.safe_bind, Res.safe_done]
    exact (safe_exitMain h ho).mono fun _ t ht => ht.1
  | down k => exact (safe_semaDown h ho k).mono fun _ t ht => ht.1
  | up k => exact (safe_semaUp h k).mono fun _ t ht => ht.1

theorem Reach.inv (h : Reach s) : Inv s := by
  induction h with
  | boot hn value => exact inv_boot hn value
  | step _ ho hr ih => exact (safe_op ih ho).of_run hr

/-- One task runs, the ready list holds the ready tasks, no node is in two lists, and the idle
thread has been blocked each time nothing was ready. -/
structure Queues (s : Sys) : Prop where
  one : ∃! u, u ∈ s.allList ∧ s.status u = .running
  ready : ∀ u, u ∈ s.readyList ↔ u ∈ s.allList ∧ s.status u = .ready
  once : s.readyList.Nodup ∧ ∀ k, (s.waiters k).Nodup
  apart : ∀ u k, u ∈ s.waiters k → u ∉ s.readyList ∧ ∀ l, u ∈ s.waiters l → l = k
  idle : ∀ st ∈ s.found, st = .blocked

theorem Inv.queues (h : Inv s) : Queues s where
  one := ⟨s.cur, ⟨h.curMem, h.running⟩, fun u hu => h.cur u hu.1 hu.2⟩
  ready := h.ready
  once := ⟨h.nodup, h.waitsNodup⟩
  apart := by
    intro u k hu
    refine ⟨h.not_ready ?_, fun l hl => h.one l k u hl hu⟩
    rw [(h.waits k u hu).2]
    decide
  idle := h.found

/-- At every context switch and after every operation, and no `ASSERT` ever fails. -/
theorem scheduler_queues (h : Reach s) :
    Queues s ∧ ∀ o, Allowed s o → (o.run.on s).Safe (fun _ t => Queues t) :=
  ⟨h.inv.queues, fun _ ho => (safe_op h.inv ho).mono fun _ _ ht => ht.queues⟩

/-- The boot thread exits, and the first process runs. -/
theorem main_exits_to_init : ∃ t, (Op.exitMain.run.on (boot 1 2 3 fun _ => 1)).run = .ok ((), t) ∧ t.cur = 1 ∧
    Queues t ∧ ∀ o, Allowed t o → (o.run.on t).Safe (fun _ r => Queues r) := by
  have hex : ∃ t, (Op.exitMain.run.on (boot 1 2 3 fun _ => 1)).run = .ok ((), t) ∧ t.cur = 1 := ⟨_, rfl, rfl⟩
  obtain ⟨t, hr, hc⟩ := hex
  have hb : Reach (boot 1 2 3 fun _ => 1) := .boot (by decide) _
  exact ⟨t, hr, hc, scheduler_queues (.step (o := .exitMain) hb rfl hr)⟩

end TrueOs.Sched
