import TrueOs.Kernel.Pages
import TrueOs.Lib.Holders

/-! Address spaces: what is mapped where, and who holds which frame. -/

namespace TrueOs.Mm

open Function (update update_self update_of_ne)
open Prog

def dir (m : Mm) (p i : Nat) : Option Nat := (m.tasks p).bind (fun t => t.pde i)

def Pte.mapped (e : Pte) : Option Nat := if e.present then some e.frame else none

def mapped (m : Mm) (p v : Nat) : Option Nat :=
  (m.dir p (v / 1024)).bind (fun table => (m.tables table (v % 1024)).mapped)

def heapFrame (m : Mm) (v : Nat) : Option Nat :=
  if kHeapStart ≤ v ∧ v < kHeapStart + 3840 then (m.kpte v).mapped else none

def KernelUsed (m : Mm) (f : Nat) : Prop := 0x200 ≤ f ∧ f < 0x1100 ∧ m.kernelPool.bits.bit (f - 0x200) = true

def UserUsed (m : Mm) (f : Nat) : Prop := 0x1100 ≤ f ∧ f < 0x2000 ∧ m.userPool.bits.bit (f - 0x1100) = true

inductive KernelHolder
  | heap (v : Nat)
  | table (p i : Nat)

inductive KernelHolds (L : Set Nat) (m : Mm) : KernelHolder → Nat → Prop
  | heap {v f : Nat} (h : m.heapFrame v = some f) : KernelHolds L m (.heap v) f
  | table {p i f : Nat} (hp : p ∈ L) (h : m.dir p i = some f) : KernelHolds L m (.table p i) f

theorem KernelHolds.same {L : Set Nat} {m m' : Mm} {o : KernelHolder} {f : Nat} (hheap : m'.heapFrame = m.heapFrame)
    (hdir : m'.dir = m.dir) (h : KernelHolds L m' o f) : KernelHolds L m o f := by
  cases h with
  | heap hv => exact .heap (hheap ▸ hv)
  | table hp hd => exact .table hp (hdir ▸ hd)

theorem KernelHolds.mono {L L' : Set Nat} {m : Mm} {o : KernelHolder} {f : Nat} (hL : ∀ q ∈ L', q ∈ L)
    (ho : KernelHolds L' m o f) : KernelHolds L m o f := by
  cases ho with
  | heap hv => exact .heap hv
  | table hq hd => exact .table (hL _ hq) hd

def UserHolds (L : Set Nat) (m : Mm) (o : Nat × Nat) (f : Nat) : Prop :=
  o.1 ∈ L ∧ m.mapped o.1 o.2 = some f

def Owns (t : Task) (p v : Nat) : Prop := v = p ∨ (t.bits ≤ v ∧ v < t.bits + 23)

/-- The pools agree with the page tables of the tasks in `L`. -/
structure Ok (L : Set Nat) (m : Mm) : Prop where
  kernelLen : m.kernelPool.btmpBytesLen = 480
  userLen : m.userPool.btmpBytesLen = 480
  vaddrLen : m.kernelVaddr.btmpBytesLen = 480
  task : ∀ p ∈ L, ∃ t, m.tasks p = some t ∧ t.vaddrBitmap.btmpBytesLen = userBitmapLen
  kernel : Sound m.KernelUsed (KernelHolds L m)
  user : Sound m.UserUsed (UserHolds L m)
  vaddr : ∀ v f, m.heapFrame v = some f → m.kernelVaddr.bits.bit (v - kHeapStart) = true
  owned : ∀ p ∈ L, ∀ t, m.tasks p = some t → ∀ v, Owns t p v → ∃ f, m.heapFrame v = some f
  apart : ∀ p ∈ L, ∀ q ∈ L, ∀ t u v, m.tasks p = some t → m.tasks q = some u → Owns t p v →
    Owns u q v → p = q
  pcb : ∀ p ∈ L, ∀ t, m.tasks p = some t → ¬(t.bits ≤ p ∧ p < t.bits + 23)

def Task.info (t : Task) : Task := { t with pde := fun _ => none }

structure Kept (s t : Mm) : Prop where
  kernelVaddr : t.kernelVaddr = s.kernelVaddr
  kpte : t.kpte = s.kpte
  phys : t.phys = s.phys
  threadAllList : t.threadAllList = s.threadAllList
  active : t.active = s.active
  info : ∀ p, (t.tasks p).map Task.info = (s.tasks p).map Task.info

theorem Kept.rfl {s : Mm} : Kept s s := ⟨.refl _, .refl _, .refl _, .refl _, .refl _, fun _ => .refl _⟩

theorem Kept.trans {s t u : Mm} (h : Kept s t) (h' : Kept t u) : Kept s u :=
  ⟨h'.kernelVaddr.trans h.kernelVaddr, h'.kpte.trans h.kpte,
    h'.phys.trans h.phys, h'.threadAllList.trans h.threadAllList, h'.active.trans h.active,
    fun p => (h'.info p).trans (h.info p)⟩

section Kept

variable {s t : Mm} {L : Set Nat}

theorem Kept.heapFrame (h : Kept s t) (v : Nat) : t.heapFrame v = s.heapFrame v := by
  rw [Mm.heapFrame, Mm.heapFrame, h.kpte]

theorem Kept.task (h : Kept s t) {p : Nat} {x : Task} (hx : t.tasks p = some x) :
    ∃ y, s.tasks p = some y ∧ x.info = y.info := by
  have hinfo := h.info p
  rw [hx, Option.map_some] at hinfo
  obtain ⟨y, hy, he⟩ := Option.map_eq_some_iff.mp hinfo.symm
  exact ⟨y, hy, he.symm⟩

theorem Kept.task' (h : Kept s t) {p : Nat} {x : Task} (hx : s.tasks p = some x) :
    ∃ y, t.tasks p = some y ∧ y.info = x.info := by
  have hinfo := h.info p
  rw [hx, Option.map_some] at hinfo
  exact Option.map_eq_some_iff.mp hinfo

theorem Task.info_bits {x y : Task} (h : x.info = y.info) : x.bits = y.bits :=
  congrArg (fun t => t.bits) h

theorem Task.info_vaddrBitmap {x y : Task} (h : x.info = y.info) : x.vaddrBitmap = y.vaddrBitmap :=
  congrArg (fun t => t.vaddrBitmap) h

theorem Task.info_owns {x y : Task} (h : x.info = y.info) {p v : Nat} (hx : Owns x p v) : Owns y p v := by
  rw [Owns, ← Task.info_bits h]
  exact hx

theorem Ok.kept (h : Ok L s) (hk : Kept s t) (hkl : t.kernelPool.btmpBytesLen = 480)
    (hul : t.userPool.btmpBytesLen = 480) (hkernel : Sound t.KernelUsed (KernelHolds L t))
    (huser : Sound t.UserUsed (UserHolds L t)) : Ok L t where
  kernelLen := hkl
  userLen := hul
  vaddrLen := by rw [hk.kernelVaddr, h.vaddrLen]
  task p hp := by
    obtain ⟨x, hx, hlen⟩ := h.task p hp
    obtain ⟨y, hy, hi⟩ := hk.task' hx
    exact ⟨y, hy, by rw [Task.info_vaddrBitmap hi, hlen]⟩
  kernel := hkernel
  user := huser
  vaddr v f hv := by
    rw [hk.kernelVaddr]
    exact h.vaddr v f (hk.heapFrame v ▸ hv)
  owned p hp x hx v hv := by
    obtain ⟨y, hy, hi⟩ := hk.task hx
    rw [hk.heapFrame]
    exact h.owned p hp y hy v (Task.info_owns hi hv)
  apart p hp q hq x x' v hx hx' hv hv' := by
    obtain ⟨y, hy, hi⟩ := hk.task hx
    obtain ⟨y', hy', hi'⟩ := hk.task hx'
    exact h.apart p hp q hq y y' v hy hy' (Task.info_owns hi hv) (Task.info_owns hi' hv')
  pcb p hp x hx := by
    obtain ⟨y, hy, hi⟩ := hk.task hx
    rw [Task.info_bits hi]
    exact h.pcb p hp y hy

end Kept

structure KeptUser (s t : Mm) : Prop where
  userPool : t.userPool = s.userPool
  tables : t.tables = s.tables
  tasks : t.tasks = s.tasks
  threadAllList : t.threadAllList = s.threadAllList
  active : t.active = s.active

theorem KeptUser.rfl {s : Mm} : KeptUser s s := ⟨.refl _, .refl _, .refl _, .refl _, .refl _⟩

theorem KeptUser.trans {s t u : Mm} (h : KeptUser s t) (h' : KeptUser t u) : KeptUser s u :=
  ⟨h'.userPool.trans h.userPool, h'.tables.trans h.tables,
    h'.tasks.trans h.tasks, h'.threadAllList.trans h.threadAllList, h'.active.trans h.active⟩

theorem KeptUser.dir {s t : Mm} (h : KeptUser s t) : t.dir = s.dir := by
  funext p i
  rw [Mm.dir, Mm.dir, h.tasks]

theorem KeptUser.mapped {s t : Mm} (h : KeptUser s t) (p w : Nat) : t.mapped p w = s.mapped p w := by
  rw [Mm.mapped, Mm.mapped, h.dir, h.tables]

section Palloc

variable {L : Set Nat} {s : Mm}

theorem sat_palloc_user (h : Ok L s) : ((palloc .user).on s).Sat True (fun r t =>
    ∃ f, r = some f ∧ Kept s t ∧ Ok L t ∧ t.UserUsed f ∧ (∀ o, ¬UserHolds L t o f) ∧
      t.dir = s.dir ∧ t.tables = s.tables) := by
  simp only [palloc, sat_bind, sat_get]
  refine Bitmap.sat_bitmapScan_one (Or.inl trivial) fun i hi => ?_
  have hlt : i < 3840 := by
    have := hi.lt
    have hlen : (s.pool .user).btmpBytesLen = 480 := h.userLen
    omega
  simp only [sat_bind, sat_get]
  refine Bitmap.sat_bitmapSet hi.lt ?_
  rw [sat_modify, sat_pure]
  have hbit : ∀ j, (s.userPool.bits.setBit i true).bit j = if j = i then true else s.userPool.bits.bit j :=
    fun j => Buf.bit_setBit _ _ _ _
  have hfree : ∀ o, ¬UserHolds L s o (0x1100 + i) := by
    intro o ho
    have hused := (h.user.used ho).2.2
    rw [show 0x1100 + i - 0x1100 = i by omega] at hused
    exact Bool.false_ne_true ((hi.free : s.userPool.bits.bit i = false).symm.trans hused)
  have hmono : ∀ f, s.UserUsed f → (s.setPool .user ⟨s.userPool.btmpBytesLen, s.userPool.bits.setBit i true⟩).UserUsed f := by
    rintro f ⟨h1, h2, h3⟩
    refine ⟨h1, h2, ?_⟩
    change (s.userPool.bits.setBit i true).bit _ = true
    rw [hbit]
    split
    · rfl
    · exact h3
  refine ⟨_, rfl, ⟨rfl, rfl, rfl, rfl, rfl, fun _ => rfl⟩, ?_, ?_, hfree, rfl, rfl⟩
  · exact h.kept ⟨rfl, rfl, rfl, rfl, rfl, fun _ => rfl⟩ h.kernelLen h.userLen
      (h.kernel.mono (fun _ _ => .same rfl rfl) fun _ hf => hf)
      (h.user.mono (fun _ _ ho => ho) hmono)
  · refine ⟨Nat.le_add_right _ _, by simp only [PoolFlags.start]; omega, ?_⟩
    change (s.userPool.bits.setBit i true).bit (0x1100 + i - 0x1100) = true
    rw [hbit, if_pos (by omega)]

theorem sat_palloc_kernel (h : Ok L s) : ((palloc .kernel).on s).Sat True (fun r t =>
    ∃ f, r = some f ∧ Kept s t ∧ Ok L t ∧ t.KernelUsed f ∧ (∀ o, ¬KernelHolds L t o f) ∧
      KeptUser s t) := by
  simp only [palloc, sat_bind, sat_get]
  refine Bitmap.sat_bitmapScan_one (Or.inl trivial) fun i hi => ?_
  have hlt : i < 3840 := by
    have := hi.lt
    have hlen : (s.pool .kernel).btmpBytesLen = 480 := h.kernelLen
    omega
  simp only [sat_bind, sat_get]
  refine Bitmap.sat_bitmapSet hi.lt ?_
  rw [sat_modify, sat_pure]
  have hbit : ∀ j, (s.kernelPool.bits.setBit i true).bit j = if j = i then true else s.kernelPool.bits.bit j :=
    fun j => Buf.bit_setBit _ _ _ _
  have hsame : ∀ o f, KernelHolds L (s.setPool .kernel ⟨s.kernelPool.btmpBytesLen,
      s.kernelPool.bits.setBit i true⟩) o f → KernelHolds L s o f := by
    exact fun _ _ => .same rfl rfl
  have hfree : ∀ o, ¬KernelHolds L s o (0x200 + i) := by
    intro o ho
    have hused := (h.kernel.used ho).2.2
    rw [show 0x200 + i - 0x200 = i by omega] at hused
    exact Bool.false_ne_true ((hi.free : s.kernelPool.bits.bit i = false).symm.trans hused)
  have hmono : ∀ f, s.KernelUsed f →
      (s.setPool .kernel ⟨s.kernelPool.btmpBytesLen, s.kernelPool.bits.setBit i true⟩).KernelUsed f := by
    rintro f ⟨h1, h2, h3⟩
    refine ⟨h1, h2, ?_⟩
    change (s.kernelPool.bits.setBit i true).bit _ = true
    rw [hbit]
    split
    · rfl
    · exact h3
  refine ⟨_, rfl, ⟨rfl, rfl, rfl, rfl, rfl, fun _ => rfl⟩, ?_, ?_, fun o ho => hfree o (hsame o _ ho),
    ⟨rfl, rfl, rfl, rfl, rfl⟩⟩
  · exact h.kept ⟨rfl, rfl, rfl, rfl, rfl, fun _ => rfl⟩ h.kernelLen h.userLen
      (h.kernel.mono hsame hmono) (h.user.mono (fun _ _ ho => ho) fun _ hf => hf)
  · refine ⟨Nat.le_add_right _ _, by simp only [PoolFlags.start]; omega, ?_⟩
    change (s.kernelPool.bits.setBit i true).bit (0x200 + i - 0x200) = true
    rw [hbit, if_pos (by omega)]

end Palloc

section Tables

variable {L : Set Nat} {s : Mm} {a v f : Nat}

def putPte (m : Mm) (table idx : Nat) (e : Pte) : Mm :=
  { m with tables := update m.tables table (update (m.tables table) idx e) }

theorem mapped_setTable (h : Ok L s) (hL : a ∈ L) {table : Nat} (hd : s.dir a (v / 1024) = some table)
    (e : Pte) {p w : Nat} (hp : p ∈ L) :
    (s.putPte table (v % 1024) e).mapped p w = if p = a ∧ w = v then e.mapped else s.mapped p w := by
  rw [mapped, mapped]
  change ((s.dir p (w / 1024)).bind fun g =>
    (update s.tables table (update (s.tables table) (v % 1024) e) g (w % 1024)).mapped) = _
  by_cases hpw : p = a ∧ w / 1024 = v / 1024
  · obtain ⟨rfl, hw⟩ := hpw
    rw [hw, hd, Option.bind_some, Option.bind_some, update_self]
    by_cases hm : w % 1024 = v % 1024
    · rw [hm, update_self, if_pos ⟨rfl, by omega⟩]
    · rw [update_of_ne hm, if_neg (by omega)]
  · rw [if_neg (fun hpv => hpw ⟨hpv.1, by rw [hpv.2]⟩)]
    cases hd' : s.dir p (w / 1024) with
    | none => rfl
    | some g =>
      -- two directory entries never share a table
      have hg : g ≠ table := by
        rintro rfl
        have := h.kernel.inj (KernelHolds.table hp hd') (KernelHolds.table hL hd)
        simp only [KernelHolder.table.injEq] at this
        exact hpw this
      rw [Option.bind_some, Option.bind_some, update_of_ne hg]

theorem activeTable_eq (m : Mm) (v : Nat) : m.activeTable v = m.dir m.active (v / 1024) := rfl

theorem sat_getPte_user (hv : v < kernelBase) (ha : s.active = a) : ((getPte v).on s).Sat True
    (fun e t => t = s ∧ ∃ table, s.dir a (v / 1024) = some table ∧ e = s.tables table (v % 1024)) := by
  rw [getPte, if_pos hv]
  simp only [sat_bind, sat_get, activeTable_eq, ha]
  cases hd : s.dir a (v / 1024) with
  | none => trivial
  | some table => exact ⟨rfl, table, rfl, rfl⟩

theorem sat_setPte_user (hv : v < kernelBase) (ha : s.active = a) {table : Nat}
    (hd : s.dir a (v / 1024) = some table) (e : Pte) {Q : Unit → Mm → Prop}
    (hQ : Q () (s.putPte table (v % 1024) e)) : ((setPte v e).on s).Sat True Q := by
  rw [setPte, if_pos hv]
  simp only [sat_bind, sat_get, activeTable_eq, ha, hd]
  exact hQ

theorem sat_getTask (p : Nat) (s : Mm) : ((getTask p).on s).Sat True
    (fun t u => u = s ∧ s.tasks p = some t) := by
  simp only [getTask, sat_bind, sat_get]
  cases h : s.tasks p with
  | none => trivial
  | some t => exact ⟨rfl, rfl⟩

theorem sat_newTable (h : Ok L s) (ha : s.active = a) (hL : a ∈ L) (hnone : s.dir a (v / 1024) = none) :
    ((newTable v).on s).Sat True (fun _ t => Kept s t ∧ Ok L t ∧
      t.userPool = s.userPool ∧ (∀ p ∈ L, ∀ w, t.mapped p w = s.mapped p w) ∧
      (∃ f, t.dir a (v / 1024) = some f)) := by
  rw [newTable, sat_bind]
  refine (sat_palloc_kernel h).mono fun r t ht => ?_
  obtain ⟨table, rfl, hk, hok, hused, hfree, hku⟩ := ht
  simp only [sat_bind, sat_get]
  rw [hk.active, ha]
  refine (sat_getTask a t).mono fun x u hu => ?_
  obtain ⟨rfl, hx⟩ := hu
  simp only [setTask, sat_modify]
  generalize hm : ({ u with
    tables := update u.tables table (fun _ => ⟨0, false⟩)
    tasks := update u.tasks a (some { x with pde := update x.pde (v / 1024) (some table) }) } : Mm) = w
  suffices hw : Kept s w ∧ Ok L w ∧ w.userPool = s.userPool ∧ (∀ p ∈ L, ∀ x, w.mapped p x = s.mapped p x) ∧
      ∃ f, w.dir a (v / 1024) = some f by
    subst hm
    exact hw
  have hkw : Kept u w := by
    subst hm
    refine ⟨rfl, rfl, rfl, rfl, rfl, fun p => ?_⟩
    by_cases hp : p = a
    · subst hp
      simp only [update_self, hx, Option.map_some, Task.info]
    · simp only [update_of_ne hp]
  have hdirw : ∀ p i, w.dir p i = if p = a ∧ i = v / 1024 then some table else u.dir p i := by
    intro p i
    subst hm
    by_cases hp : p = a
    · subst hp
      by_cases hi : i = v / 1024
      · subst hi
        simp only [dir, update_self, Option.bind_some, if_pos, and_self]
      · simp only [dir, update_self, Option.bind_some, update_of_ne hi, hi, and_false,
          if_false, hx]
    · simp only [dir, update_of_ne hp, hp, false_and, if_false]
  have htab : ∀ g, g ≠ table → w.tables g = u.tables g := by
    intro g hg
    subst hm
    simp only [update_of_ne hg]
  have hzero : ∀ i, w.tables table i = ⟨0, false⟩ := by
    intro i
    subst hm
    simp only [update_self]
  have hmapped : ∀ p ∈ L, ∀ x, w.mapped p x = u.mapped p x := by
    intro p hp x
    rw [mapped, mapped, hdirw]
    by_cases hpa : p = a ∧ x / 1024 = v / 1024
    · rw [if_pos hpa, hpa.1, hpa.2, hku.dir, hnone]
      simp [hzero, Pte.mapped]
    · rw [if_neg hpa]
      cases hd : u.dir p (x / 1024) with
      | none => rfl
      | some g =>
        have hg : g ≠ table := by
          rintro rfl
          exact hfree _ (.table hp hd)
        rw [Option.bind_some, Option.bind_some, htab g hg]
  have hpools : w.kernelPool = u.kernelPool ∧ w.userPool = u.userPool := by
    subst hm
    exact ⟨rfl, rfl⟩
  refine ⟨hk.trans hkw, ?_, hpools.2.trans hku.userPool, fun p hp x => ?_, table, ?_⟩
  · refine hok.kept hkw (by rw [hpools.1, hok.kernelLen]) (by rw [hpools.2, hok.userLen]) ?_ ?_
    · refine hok.kernel.take (o := .table a (v / 1024)) hfree ?_ (fun g hg => ?_) fun o g ho => ?_
      · rw [KernelUsed, hpools.1]
        exact hused
      · rw [KernelUsed, hpools.1]
        exact hg
      · cases ho with
        | heap hv => exact Or.inl (.heap (hkw.heapFrame _ ▸ hv))
        | @table p i g hp hd =>
          rw [hdirw] at hd
          by_cases hpa : p = a ∧ i = v / 1024
          · rw [if_pos hpa] at hd
            exact Or.inr ⟨by rw [hpa.1, hpa.2], (Option.some.inj hd).symm⟩
          · rw [if_neg hpa] at hd
            exact Or.inl (.table hp hd)
    · refine hok.user.mono (fun o g ho => ⟨ho.1, (hmapped _ ho.1 _) ▸ ho.2⟩) fun g hg => ?_
      rw [UserUsed, hpools.2]
      exact hg
  · rw [hmapped p hp x, hku.mapped]
  · rw [hdirw, if_pos ⟨rfl, rfl⟩]

theorem sat_pageTableAdd (h : Ok L s) (ha : s.active = a) (hL : a ∈ L) (hv : v < kernelBase)
    (hused : s.UserUsed f) (hfree : ∀ o, ¬UserHolds L s o f) :
    ((pageTableAdd v f).on s).Sat True (fun _ t => Kept s t ∧ Ok L t ∧
      t.userPool = s.userPool ∧ s.mapped a v = none ∧
      ∀ p ∈ L, ∀ w, t.mapped p w = if p = a ∧ w = v then some f else s.mapped p w) := by
  have hset : ∀ u : Mm, Kept s u → Ok L u → u.userPool = s.userPool →
      (∀ p ∈ L, ∀ w, u.mapped p w = s.mapped p w) →
      ((do
        let pte ← getPte v
        assert (!pte.present)
        setPte v ⟨f, true⟩).on u).Sat True (fun _ t => Kept s t ∧ Ok L t ∧
          t.userPool = s.userPool ∧ s.mapped a v = none ∧
          ∀ p ∈ L, ∀ w, t.mapped p w = if p = a ∧ w = v then some f else s.mapped p w) := by
    intro u hk hok hpool hmap
    have hau : u.active = a := hk.active.trans ha
    rw [sat_bind]
    refine (sat_getPte_user hv hau).mono fun e t ht => ?_
    obtain ⟨rfl, table, hd, rfl⟩ := ht
    simp only [sat_bind, sat_assert]
    refine ⟨fun hp => ?_, fun _ => trivial⟩
    have hnone : s.mapped a v = none := by
      rw [← hmap a hL, mapped, hd, Option.bind_some, Pte.mapped, if_neg (by simpa using hp)]
    refine sat_setPte_user hv hau hd _ ?_
    have hm : ∀ p ∈ L, ∀ w, (t.putPte table (v % 1024) ⟨f, true⟩).mapped p w =
        if p = a ∧ w = v then some f else s.mapped p w := by
      intro p hp w
      rw [mapped_setTable hok hL hd _ hp, hmap p hp]
      rfl
    have hkt : Kept t (t.putPte table (v % 1024) ⟨f, true⟩) :=
      ⟨rfl, rfl, rfl, rfl, rfl, fun _ => rfl⟩
    refine ⟨hk.trans hkt, hok.kept hkt hok.kernelLen hok.userLen ?_ ?_, hpool, hnone, hm⟩
    · refine hok.kernel.mono (fun o g ho => ?_) fun _ hg => hg
      cases ho with
      | heap hx => exact .heap hx
      | table hp hx => exact .table hp hx
    · refine hok.user.take (o := (a, v)) (f := f) (fun o ho => ?_) ?_ (fun g hg => hg) fun o g ho => ?_
      · exact hfree o ⟨ho.1, hmap _ ho.1 _ ▸ ho.2⟩
      · change 0x1100 ≤ f ∧ f < 0x2000 ∧ t.userPool.bits.bit (f - 0x1100) = true
        rw [hpool]
        exact hused
      · have hog := ho.2
        rw [hm _ ho.1] at hog
        by_cases hoa : o.1 = a ∧ o.2 = v
        · rw [if_pos hoa] at hog
          exact Or.inr ⟨Prod.ext hoa.1 hoa.2, (Option.some.inj hog).symm⟩
        · rw [if_neg hoa] at hog
          exact Or.inl ⟨ho.1, (hmap _ ho.1 _).trans hog⟩
  rw [pageTableAdd]
  simp only [sat_bind, sat_get]
  split
  · next hcond =>
    rw [sat_bind]
    refine (sat_newTable h ha hL (ha ▸ hcond.2)).mono fun _ u hu => ?_
    exact hset u hu.1 hu.2.1 hu.2.2.1 hu.2.2.2.1
  · exact hset s .rfl h rfl fun _ _ _ => rfl

end Tables

section User

variable {L : Set Nat} {s : Mm} {a v : Nat}

structure Mapped (L : Set Nat) (a v cnt : Nat) (s t : Mm) : Prop where
  inside : ∀ w, v ≤ w → w < v + cnt → (t.mapped a w).isSome = true
  outside : ∀ p ∈ L, ∀ w, ¬(p = a ∧ v ≤ w ∧ w < v + cnt) → t.mapped p w = s.mapped p w

theorem sat_mapOne (h : Ok L s) (ha : s.active = a) (hL : a ∈ L) (hv : v < kernelBase) {β : Type}
    {k : Prog Mm Buf β} {Q : β → Mm → Prop} {z : Prog Mm Buf β}
    (hk : ∀ t f, Kept s t → Ok L t → t.mapped a v = some f →
      (∀ p ∈ L, ∀ w, ¬(p = a ∧ w = v) → t.mapped p w = s.mapped p w) → (∀ o, ¬UserHolds L s o f) →
      (k.on t).Sat True Q) :
    ((do
      match ← palloc .user with
      | none => z
      | some frame =>
        pageTableAdd v frame
        k).on s).Sat True Q := by
  rw [sat_bind]
  refine (sat_palloc_user h).mono fun r t ht => ?_
  obtain ⟨f, rfl, hkt, hok, hused, hfree, hdir, htab⟩ := ht
  have hsame : ∀ p w, t.mapped p w = s.mapped p w := fun p w => by rw [mapped, mapped, hdir, htab]
  dsimp only
  rw [sat_bind]
  refine (sat_pageTableAdd hok (hkt.active.trans ha) hL hv hused hfree).mono fun _ u hu => ?_
  obtain ⟨hku, hoku, -, -, hm⟩ := hu
  refine hk u f (hkt.trans hku) hoku ?_ (fun p hp w hw => ?_) fun o ho => hfree o ⟨ho.1, (hsame _ _).trans ho.2⟩
  · rw [hm a hL, if_pos ⟨rfl, rfl⟩]
  · rw [hm p hp, if_neg hw, hsame]

theorem sat_mapPages (h : Ok L s) (ha : s.active = a) (hL : a ∈ L) {cnt : Nat} (hv : v + cnt ≤ kernelBase) :
    ((mapPages .user cnt v).on s).Sat True (fun r t => r = true ∧
      Kept s t ∧ Ok L t ∧ Mapped L a v cnt s t) := by
  induction cnt generalizing s v with
  | zero => exact ⟨rfl, .rfl, h, fun w hw hw' => by omega, fun _ _ _ _ => rfl⟩
  | succ cnt ih =>
    rw [mapPages]
    refine sat_mapOne h ha hL (by omega) fun t f hk hok hf hother _ => ?_
    refine (ih hok (hk.active.trans ha) (by omega)).mono fun r u hu => ?_
    obtain ⟨hr, hku, hoku, hm⟩ := hu
    refine ⟨hr, hk.trans hku, hoku, fun w hw hw' => ?_, fun p hp w hw => ?_⟩
    · by_cases hwv : w = v
      · rw [hm.outside a hL w (by omega), hwv, hf]
        rfl
      · exact hm.inside w (by omega) (by omega)
    · rw [hm.outside p hp w (by omega), hother p hp w (by omega)]

end User

section Kernel

variable {L : Set Nat} {s : Mm} {v f : Nat}

def putKpte (m : Mm) (v : Nat) (e : Pte) : Mm := { m with kpte := update m.kpte v e }

theorem heapFrame_putKpte (m : Mm) (v : Nat) (e : Pte) (w : Nat) : (m.putKpte v e).heapFrame w =
    if w = v ∧ kHeapStart ≤ v ∧ v < kHeapStart + 3840 then e.mapped else m.heapFrame w := by
  rw [heapFrame, heapFrame]
  change (if kHeapStart ≤ w ∧ w < kHeapStart + 3840 then (update m.kpte v e w).mapped else none) = _
  by_cases hw : w = v
  · subst hw
    rw [update_self]
    by_cases hr : kHeapStart ≤ w ∧ w < kHeapStart + 3840
    · rw [if_pos hr, if_pos ⟨rfl, hr⟩]
    · rw [if_neg hr, if_neg fun h => hr h.2, if_neg hr]
  · rw [update_of_ne hw, if_neg (show ¬(w = v ∧ _) from fun h => hw h.1)]

theorem Ok.keptUser {t : Mm} (h : Ok L s) (hk : KeptUser s t) (hkl : t.kernelPool.btmpBytesLen = 480)
    (hvl : t.kernelVaddr.btmpBytesLen = 480) (hkernel : Sound t.KernelUsed (KernelHolds L t))
    (hvaddr : ∀ v f, t.heapFrame v = some f → t.kernelVaddr.bits.bit (v - kHeapStart) = true)
    (howned : ∀ p ∈ L, ∀ x, s.tasks p = some x → ∀ v, Owns x p v → t.heapFrame v = s.heapFrame v) :
    Ok L t where
  kernelLen := hkl
  userLen := by rw [hk.userPool, h.userLen]
  vaddrLen := hvl
  task p hp := by
    rw [hk.tasks]
    exact h.task p hp
  kernel := hkernel
  user := h.user.mono (fun o f ho => ⟨ho.1, hk.mapped _ _ ▸ ho.2⟩) fun f hf => by
    rw [UserUsed, hk.userPool]
    exact hf
  vaddr := hvaddr
  owned p hp x hx v hv := by
    rw [hk.tasks] at hx
    rw [howned p hp x hx v hv]
    exact h.owned p hp x hx v hv
  apart p hp q hq x y v hx hy := by
    rw [hk.tasks] at hx hy
    exact h.apart p hp q hq x y v hx hy
  pcb p hp x hx := by
    rw [hk.tasks] at hx
    exact h.pcb p hp x hx

structure KernelMapped (v cnt : Nat) (s t : Mm) : Prop where
  inside : ∀ w, v ≤ w → w < v + cnt → ∃ f, t.heapFrame w = some f
  outside : ∀ w, ¬(v ≤ w ∧ w < v + cnt) → t.heapFrame w = s.heapFrame w

theorem sat_kernelMapPages (h : Ok L s) {cnt : Nat} (hlo : kHeapStart ≤ v) (hhi : v + cnt ≤ kHeapStart + 3840)
    (hbits : ∀ w, v ≤ w → w < v + cnt → s.kernelVaddr.bits.bit (w - kHeapStart) = true) :
    ((mapPages .kernel cnt v).on s).Sat True (fun r t => r = true →
      KeptUser s t ∧ Ok L t ∧ t.kernelVaddr = s.kernelVaddr ∧ t.phys = s.phys ∧ KernelMapped v cnt s t) := by
  induction cnt generalizing s v with
  | zero => exact fun _ => ⟨.rfl, h, rfl, rfl, fun w hw hw' => by omega, fun _ _ => rfl⟩
  | succ cnt ih =>
    rw [mapPages, sat_bind]
    refine (sat_palloc_kernel h).mono fun r t ht => ?_
    obtain ⟨f, rfl, hk, hok, hused, hfree, hku⟩ := ht
    have hbase : ¬v < kernelBase := by
      simp only [kHeapStart, kernelBase] at hlo ⊢
      omega
    dsimp only
    rw [sat_bind, pageTableAdd]
    simp only [sat_bind, sat_get, hbase, false_and, if_false, getPte, sat_assert,
      sat_pure, setPte]
    refine ⟨fun hp => ?_, fun _ => trivial⟩
    rw [sat_modify]
    change ((mapPages .kernel cnt (v + 1)).on (t.putKpte v ⟨f, true⟩)).Sat _ _
    have hnone : t.heapFrame v = none := by
      have hpres : (t.kpte v).present = false := by simpa using hp
      simp [heapFrame, Pte.mapped, hpres]
    have hf : (t.putKpte v ⟨f, true⟩).heapFrame v = some f := by
      rw [heapFrame_putKpte, if_pos ⟨rfl, hlo, by omega⟩]
      rfl
    have hother : ∀ w, w ≠ v → (t.putKpte v ⟨f, true⟩).heapFrame w = s.heapFrame w := by
      intro w hw
      rw [heapFrame_putKpte, if_neg fun h => hw h.1, hk.heapFrame]
    have hkv : (t.putKpte v ⟨f, true⟩).kernelVaddr = s.kernelVaddr := hk.kernelVaddr
    have hput : KeptUser t (t.putKpte v ⟨f, true⟩) := ⟨rfl, rfl, rfl, rfl, rfl⟩
    have hok' : Ok L (t.putKpte v ⟨f, true⟩) := by
      refine hok.keptUser hput hok.kernelLen hok.vaddrLen ?_ (fun w g hw => ?_) fun p hpL x hx w hw => ?_
      · refine hok.kernel.take (o := .heap v) hfree hused (fun _ hg => hg) fun o g ho => ?_
        cases ho with
        | @heap w g hw =>
          by_cases hwv : w = v
          · subst hwv
            rw [hf] at hw
            exact Or.inr ⟨rfl, (Option.some.inj hw).symm⟩
          · rw [hother w hwv, ← hk.heapFrame] at hw
            exact Or.inl (.heap hw)
        | table hp hd => exact Or.inl (.table hp hd)
      · rw [hkv]
        by_cases hwv : w = v
        · rw [hwv]
          exact hbits v le_rfl (by omega)
        · rw [hother w hwv] at hw
          exact h.vaddr w g hw
      · -- the page was not mapped, so no process owned it
        have hwv : w ≠ v := by
          rintro rfl
          obtain ⟨g, hg⟩ := hok.owned p hpL x hx w hw
          rw [hnone] at hg
          cases hg
        rw [hother w hwv, hk.heapFrame]
    refine (ih hok' (by omega) (by omega) fun w hw hw' => ?_).mono fun r u hu hr => ?_
    · rw [hkv]
      exact hbits w (by omega) (by omega)
    · obtain ⟨hku', hoku, hkv', hphys, hm⟩ := hu hr
      refine ⟨(hku.trans hput).trans hku', hoku, hkv'.trans hkv, hphys.trans hk.phys, fun w hw hw' => ?_,
        fun w hw => ?_⟩
      · by_cases hwv : w = v
        · rw [hwv, hm.outside v (by omega), hf]
          exact ⟨f, rfl⟩
        · exact hm.inside w (by omega) (by omega)
      · rw [hm.outside w (by omega), hother w (by omega)]

def SameUser (s t : Mm) : Prop := ∀ f, 0x1100 ≤ f → t.phys f = s.phys f

theorem heapFrame_some (h : s.heapFrame v = some f) :
    kHeapStart ≤ v ∧ v < kHeapStart + 3840 ∧ (s.kpte v).present = true ∧ (s.kpte v).frame = f := by
  rw [heapFrame] at h
  split at h
  · next hr =>
    rw [Pte.mapped] at h
    split at h
    · next hp => exact ⟨hr.1, hr.2, hp, Option.some.inj h⟩
    · cases h
  · cases h

theorem sat_getPte_heap (hf : s.heapFrame v = some f) {Q : Pte → Mm → Prop} (hQ : Q ⟨f, true⟩ s) :
    ((getPte v).on s).Sat True Q := by
  obtain ⟨hlo, -, hp, hfr⟩ := heapFrame_some hf
  have he : s.kpte v = ⟨f, true⟩ := by rw [← hfr, ← hp]
  have hbase : ¬v < kernelBase := by
    simp only [kHeapStart, kernelBase] at hlo ⊢
    omega
  rw [getPte, if_neg hbase, sat_bind, sat_get, he]
  exact hQ

theorem sat_writePage_heap (hf : s.heapFrame v = some f) (b : Buf) {Q : Unit → Mm → Prop}
    (hQ : Q () { s with phys := update s.phys f b }) :
    ((writePage v b).on s).Sat True Q := by
  rw [writePage, sat_bind]
  exact sat_getPte_heap hf hQ

theorem Ok.withRest (h : Ok L s) (phys : Nat → Buf) (a : Nat) (l : List Nat) :
    Ok L { s with phys := phys, active := a, threadAllList := l } where
  kernelLen := h.kernelLen
  userLen := h.userLen
  vaddrLen := h.vaddrLen
  task := h.task
  kernel := h.kernel.mono (fun _ _ => .same rfl rfl) fun _ hf => hf
  user := h.user.mono (fun _ _ ho => ho) fun _ hf => hf
  vaddr := h.vaddr
  owned := h.owned
  apart := h.apart
  pcb := h.pcb

theorem Ok.withPhys (h : Ok L s) (phys : Nat → Buf) : Ok L { s with phys := phys } :=
  h.withRest phys s.active s.threadAllList

theorem sat_clearPages {cnt : Nat} (h : Ok L s) (hin : ∀ w, v ≤ w → w < v + cnt → ∃ f, s.heapFrame w = some f) :
    ((clearPages cnt v).on s).Sat True (fun _ t => ∃ phys, t = { s with phys := phys } ∧
      SameUser s t) := by
  induction cnt generalizing s v with
  | zero => exact ⟨s.phys, rfl, fun _ _ => rfl⟩
  | succ cnt ih =>
    obtain ⟨f, hf⟩ := hin v le_rfl (by omega)
    rw [clearPages, sat_bind]
    refine sat_writePage_heap hf _ ?_
    have hok := h.withPhys (update s.phys f fun _ => 0)
    refine (ih (v := v + 1) hok fun w hw hw' => hin w (by omega) (by omega)).mono fun _ t ht => ?_
    obtain ⟨phys, rfl, hsame⟩ := ht
    refine ⟨phys, rfl, fun g hg => ?_⟩
    rw [hsame g hg]
    have hlt := (h.kernel.used (.heap hf)).2.1
    exact update_of_ne (by omega) _ _

structure NewPages (v cnt : Nat) (s t : Mm) : Prop extends KeptUser s t, KernelMapped v cnt s t where
  fresh : ∀ w, v ≤ w → w < v + cnt → s.heapFrame w = none
  same : SameUser s t

theorem sat_getKernelPages (h : Ok L s) (cnt : Nat) : ((getKernelPages cnt).on s).Sat True
    (fun r t => ∀ v, r = some v → Ok L t ∧ NewPages v cnt s t) := by
  rw [getKernelPages, sat_bind, mallocPage]
  simp only [sat_bind, sat_assert, decide_eq_true_eq]
  refine ⟨fun hcnt => ?_, fun _ => trivial⟩
  rw [vaddrGet]
  simp only [sat_bind, sat_get]
  refine (Bitmap.sat_bitmapScan_run _ _ s).mono fun r t ht => ?_
  obtain ⟨rfl, hrun⟩ := ht
  cases r with
  | none => exact fun v hv => by cases hv
  | some i =>
    simp only [sat_bind, sat_get]
    refine (sat_bitmapSetRun true cnt i _ t).mono fun b u hu => ?_
    obtain ⟨rfl, hlen, hin, hbits⟩ := hu
    simp only [sat_modify, sat_pure, sat_bind]
    have hin := hin hcnt.1
    rw [h.vaddrLen] at hin
    have hnew : ∀ w f, u.heapFrame w = some f → ¬(kHeapStart + i ≤ w ∧ w < kHeapStart + i + cnt) := by
      intro w f hw hr
      have hset := h.vaddr w f hw
      rw [hrun i rfl (w - kHeapStart) (by omega) (by omega)] at hset
      cases hset
    have hok : Ok L { u with kernelVaddr := b } := by
      refine h.keptUser ⟨rfl, rfl, rfl, rfl, rfl⟩ h.kernelLen (hlen.trans h.vaddrLen) ?_ (fun w f hw => ?_)
        fun _ _ _ _ _ _ => rfl
      · exact h.kernel.mono (fun _ _ => .same rfl rfl) fun _ hf => hf
      · change b.bits.bit (w - kHeapStart) = true
        rw [hbits]
        split
        · rfl
        · exact h.vaddr w f hw
    have hset : ∀ w, kHeapStart + i ≤ w → w < kHeapStart + i + cnt →
        ({ u with kernelVaddr := b } : Mm).kernelVaddr.bits.bit (w - kHeapStart) = true := by
      intro w hw hw'
      change b.bits.bit (w - kHeapStart) = true
      rw [hbits, if_pos (by omega)]
    refine (sat_kernelMapPages hok (Nat.le_add_right _ _) (by omega) hset).mono fun r x hx => ?_
    cases r with
    | false => exact fun v hv => by cases hv
    | true =>
      obtain ⟨hku, hokx, -, hphys, hm⟩ := hx rfl
      simp only [if_pos, sat_pure, sat_bind]
      refine (sat_clearPages hokx fun w hw hw' => hm.inside w hw hw').mono fun _ y hy v hv => ?_
      obtain rfl := Option.some.inj hv
      obtain ⟨phys, rfl, hsame⟩ := hy
      refine ⟨hokx.withPhys phys, ?_⟩
      exact { toKeptUser := ⟨hku.userPool, hku.tables, hku.tasks, hku.threadAllList, hku.active⟩
              toKernelMapped := ⟨hm.inside, hm.outside⟩
              fresh := fun w hw hw' => by
                cases hf : u.heapFrame w with
                | none => rfl
                | some f => exact absurd ⟨hw, hw'⟩ (hnew w f hf)
              same := fun f hf => by rw [hsame f hf, hphys] }

theorem bitOf_eq {start : Nat} (hs : start ≤ f) (hf : f < 0x100000) : bitOf f start = f - start := by
  rw [bitOf]
  omega

def freed (m : Mm) (f : Nat) : Mm :=
  if 0x1100 ≤ f then
    { m with userPool := ⟨m.userPool.btmpBytesLen, m.userPool.bits.setBit (f - 0x1100) false⟩ }
  else
    { m with kernelPool := ⟨m.kernelPool.btmpBytesLen, m.kernelPool.bits.setBit (f - 0x200) false⟩ }

theorem sat_pfree (hge : 0x200 ≤ f) (hlt : f < 0x2000) : ((pfree f).on s).Sat True
    (fun _ t => t = s.freed f) := by
  rw [pfree, sat_bind, sat_get, sat_bind, freed]
  by_cases hf : 0x1100 ≤ f
  · have hf' : PoolFlags.user.start ≤ f := hf
    rw [if_pos hf', if_pos hf, bitOf_eq hf' (by omega), Bitmap.bitmapSet]
    split
    · rfl
    · trivial
  · have hf' : ¬PoolFlags.user.start ≤ f := hf
    rw [if_neg hf', if_neg hf, bitOf_eq (show PoolFlags.kernel.start ≤ f from hge) (by omega), Bitmap.bitmapSet]
    split
    · rfl
    · trivial

section Freed

variable (m : Mm) (f : Nat)

theorem freed_kept : Kept m (m.freed f) := by
  rw [freed]
  split
  · exact ⟨rfl, rfl, rfl, rfl, rfl, fun _ => rfl⟩
  · exact ⟨rfl, rfl, rfl, rfl, rfl, fun _ => rfl⟩

theorem freed_tasks : (m.freed f).tasks = m.tasks := by
  rw [freed]
  split <;> rfl

theorem freed_tables : (m.freed f).tables = m.tables := by
  rw [freed]
  split <;> rfl

theorem freed_kernelLen : (m.freed f).kernelPool.btmpBytesLen = m.kernelPool.btmpBytesLen := by
  rw [freed]
  split <;> rfl

theorem freed_userLen : (m.freed f).userPool.btmpBytesLen = m.userPool.btmpBytesLen := by
  rw [freed]
  split <;> rfl

theorem freed_mapped (p v : Nat) : (m.freed f).mapped p v = m.mapped p v := by
  rw [mapped, mapped, dir, dir, freed_tasks, freed_tables]

variable {m f}

theorem KernelUsed.freed {g : Nat} (h : m.KernelUsed g) (hne : g ≠ f) (hf : 0x200 ≤ f) :
    (m.freed f).KernelUsed g := by
  obtain ⟨h1, h2, h3⟩ := h
  rw [Mm.freed]
  split
  · exact ⟨h1, h2, h3⟩
  · refine ⟨h1, h2, ?_⟩
    change (m.kernelPool.bits.setBit (f - 0x200) false).bit (g - 0x200) = true
    rw [Buf.bit_setBit_of_ne (by omega)]
    exact h3

theorem UserUsed.freed {g : Nat} (h : m.UserUsed g) (hne : g ≠ f) : (m.freed f).UserUsed g := by
  obtain ⟨h1, h2, h3⟩ := h
  rw [Mm.freed]
  split
  · refine ⟨h1, h2, ?_⟩
    change (m.userPool.bits.setBit (f - 0x1100) false).bit (g - 0x1100) = true
    rw [Buf.bit_setBit_of_ne (by omega)]
    exact h3
  · exact ⟨h1, h2, h3⟩

end Freed

theorem Ok.freed (h : Ok L s) (hge : 0x200 ≤ f) (hk : ∀ o, ¬KernelHolds L s o f)
    (hu : ∀ o, ¬UserHolds L s o f) : Ok L (s.freed f) := by
  refine h.kept (freed_kept s f) ((freed_kernelLen s f).trans h.kernelLen)
    ((freed_userLen s f).trans h.userLen) ?_ ?_
  · refine h.kernel.drop (f := f) (fun o g ho => ?_) fun g hg hne => hg.freed hne hge
    have ho' : KernelHolds L s o g := by
      cases ho with
      | heap hv => exact .heap ((freed_kept s f).heapFrame _ ▸ hv)
      | table hp hd =>
        rw [dir, freed_tasks] at hd
        exact .table hp hd
    refine ⟨ho', ?_⟩
    rintro rfl
    exact hk o ho'
  · refine h.user.drop (f := f) (fun o g ho => ?_) fun g hg hne => hg.freed hne
    have ho' : UserHolds L s o g := ⟨ho.1, freed_mapped s f _ _ ▸ ho.2⟩
    refine ⟨ho', ?_⟩
    rintro rfl
    exact hu o ho'

theorem heapFrame_unmap (hf : s.heapFrame v = some f) (w : Nat) :
    ((s.freed f).putKpte v ⟨f, false⟩).heapFrame w = if w = v then none else s.heapFrame w := by
  obtain ⟨hlo, hhi, -, -⟩ := heapFrame_some hf
  rw [heapFrame_putKpte, (freed_kept s f).heapFrame]
  by_cases hw : w = v
  · rw [if_pos ⟨hw, hlo, hhi⟩, if_pos hw]
    rfl
  · rw [if_neg fun h => hw h.1, if_neg hw]

theorem keptUser_unmap (hlt : f < 0x1100) : KeptUser s ((s.freed f).putKpte v ⟨f, false⟩) :=
  ⟨by rw [putKpte, Mm.freed, if_neg (by omega)], freed_tables s f, freed_tasks s f, (freed_kept s f).threadAllList,
    (freed_kept s f).active⟩

theorem Ok.unmapHeap (h : Ok L s) (hf : s.heapFrame v = some f)
    (howns : ∀ p ∈ L, ∀ x, s.tasks p = some x → ¬Owns x p v) :
    Ok L ((s.freed f).putKpte v ⟨f, false⟩) := by
  obtain ⟨hge, hlt, -⟩ := h.kernel.used (.heap hf)
  have hheap := heapFrame_unmap hf
  refine h.keptUser (keptUser_unmap (by omega)) ((freed_kernelLen s f).trans h.kernelLen) ?_ ?_ (fun w g hw => ?_) fun p hp x hx w hw => ?_
  · change (s.freed f).kernelVaddr.btmpBytesLen = 480
    rw [(freed_kept s f).kernelVaddr, h.vaddrLen]
  · refine h.kernel.drop (f := f) (fun o g ho => ?_) fun g hg hne => hg.freed hne hge
    cases ho with
    | @heap w g hw =>
      rw [hheap] at hw
      by_cases hwv : w = v
      · rw [if_pos hwv] at hw
        cases hw
      · rw [if_neg hwv] at hw
        refine ⟨.heap hw, ?_⟩
        rintro rfl
        have := h.kernel.inj (KernelHolds.heap (L := L) hw) (.heap hf)
        exact hwv (by simpa using this)
    | @table p i g hp hd =>
      have hd' : s.dir p i = some g := by
        change ((s.freed f).tasks p).bind _ = some g at hd
        rwa [freed_tasks] at hd
      refine ⟨.table hp hd', ?_⟩
      rintro rfl
      have := h.kernel.inj (KernelHolds.table hp hd') (.heap hf)
      cases this
  · change (s.freed f).kernelVaddr.bits.bit (w - kHeapStart) = true
    rw [(freed_kept s f).kernelVaddr]
    rw [hheap] at hw
    split at hw
    · cases hw
    · exact h.vaddr w g hw
  · rw [hheap, if_neg]
    rintro rfl
    exact howns p hp x hx hw

theorem sat_unmapHeap {cnt : Nat} {inPool : Nat → Bool} (h : Ok L s)
    (hin : ∀ w, v ≤ w → w < v + cnt → ∃ f, s.heapFrame w = some f)
    (howns : ∀ w, v ≤ w → w < v + cnt → ∀ p ∈ L, ∀ x, s.tasks p = some x → ¬Owns x p w) :
    ((unmapPages inPool cnt v).on s).Sat True (fun _ t => KeptUser s t ∧ Ok L t ∧
      t.kernelVaddr = s.kernelVaddr ∧ t.phys = s.phys ∧
      ∀ w, t.heapFrame w = if v ≤ w ∧ w < v + cnt then none else s.heapFrame w) := by
  induction cnt generalizing s v with
  | zero => exact ⟨.rfl, h, rfl, rfl, fun w => (if_neg (by omega)).symm⟩
  | succ cnt ih =>
    obtain ⟨f, hf⟩ := hin v le_rfl (by omega)
    obtain ⟨hge, hlt, -⟩ := h.kernel.used (.heap hf)
    obtain ⟨hlo, hhi, -, -⟩ := heapFrame_some hf
    have hbase : ¬v < kernelBase := by
      simp only [kHeapStart, kernelBase] at hlo ⊢
      omega
    rw [unmapPages, sat_bind]
    refine sat_getPte_heap hf ?_
    simp only [sat_bind, sat_assert]
    refine ⟨fun _ => ?_, fun _ => trivial⟩
    refine (sat_pfree hge (by omega)).mono fun _ t ht => ?_
    subst ht
    have hf' : (s.freed f).heapFrame v = some f := (freed_kept s f).heapFrame v ▸ hf
    rw [pageTablePteRemove, sat_bind]
    refine sat_getPte_heap hf' ?_
    rw [setPte, if_neg hbase, sat_modify]
    change ((unmapPages inPool cnt (v + 1)).on ((s.freed f).putKpte v ⟨f, false⟩)).Sat _ _
    have hok := h.unmapHeap hf (howns v le_rfl (by omega))
    have hheap := heapFrame_unmap hf
    have hku : KeptUser s ((s.freed f).putKpte v ⟨f, false⟩) := keptUser_unmap (by omega)
    refine (ih hok (fun w hw hw' => ?_) fun w hw hw' p hp x hx => ?_).mono fun _ u hu => ?_
    · rw [hheap, if_neg (by omega)]
      exact hin w (by omega) (by omega)
    · rw [hku.tasks] at hx
      exact howns w (by omega) (by omega) p hp x hx
    · obtain ⟨hku', hoku, hkv, hphys, hm⟩ := hu
      refine ⟨hku.trans hku', hoku, hkv.trans (freed_kept s f).kernelVaddr, hphys.trans (freed_kept s f).phys,
        fun w => ?_⟩
      rw [hm, hheap]
      by_cases hw : v + 1 ≤ w ∧ w < v + 1 + cnt
      · rw [if_pos hw, if_pos (by omega)]
      · rw [if_neg hw]
        exact if_congr (by omega) rfl rfl

theorem sat_mfreeKernel {cnt : Nat} (h : Ok L s) (cur : Nat)
    (hin : ∀ w, v ≤ w → w < v + cnt → ∃ f, s.heapFrame w = some f)
    (howns : ∀ w, v ≤ w → w < v + cnt → ∀ p ∈ L, ∀ x, s.tasks p = some x → ¬Owns x p w) :
    ((mfreePage cur .kernel v cnt).on s).Sat True (fun _ t => KeptUser s t ∧ Ok L t ∧ t.phys = s.phys) := by
  have hremove : ∀ t : Mm, KeptUser s t ∧ Ok L t ∧ t.kernelVaddr = s.kernelVaddr ∧ t.phys = s.phys ∧
      (∀ w, t.heapFrame w = if v ≤ w ∧ w < v + cnt then none else s.heapFrame w) → 0 < cnt → ((vaddrRemove cur .kernel v cnt).on t).Sat True
        (fun _ t => KeptUser s t ∧ Ok L t ∧ t.phys = s.phys) := by
    rintro t ⟨hku, hok, hkv, hphys, hm⟩ hcnt
    obtain ⟨f, hf⟩ := hin v le_rfl (by omega)
    obtain ⟨hlo, hhi, -, -⟩ := heapFrame_some hf
    rw [vaddrRemove, bitOf_eq hlo (by simp only [kHeapStart] at hhi; omega)]
    simp only [sat_bind, sat_get]
    refine (sat_bitmapSetRun false cnt _ _ t).mono fun b u hu => ?_
    obtain ⟨rfl, hlen, -, hbits⟩ := hu
    rw [sat_modify]
    refine ⟨⟨hku.userPool, hku.tables, hku.tasks, hku.threadAllList, hku.active⟩, ?_, hphys⟩
    refine hok.keptUser ⟨rfl, rfl, rfl, rfl, rfl⟩ hok.kernelLen (hlen.trans hok.vaddrLen) ?_
      (fun w g hw => ?_) fun _ _ _ _ _ _ => rfl
    · exact hok.kernel.mono (fun _ _ => .same rfl rfl) fun _ hg => hg
    · change b.bits.bit (w - kHeapStart) = true
      have hw' : u.heapFrame w = some g := hw
      have hlo' := (heapFrame_some hw').1
      rw [hbits, if_neg]
      · exact hok.vaddr w g hw'
      · rintro ⟨h1, h2⟩
        rw [hm, if_pos (by omega)] at hw'
        cases hw'
  rw [mfreePage]
  simp only [sat_bind, sat_assert, decide_eq_true_eq]
  refine ⟨fun hcnt => ?_, fun _ => trivial⟩
  obtain ⟨f, hf⟩ := hin v le_rfl (by omega)
  refine sat_getPte_heap hf ⟨fun _ => ?_, fun _ => trivial⟩
  split
  · rw [sat_bind]
    exact (sat_unmapHeap h hin howns).mono fun _ t ht => hremove t ht (by omega)
  · rw [sat_bind]
    exact (sat_unmapHeap h hin howns).mono fun _ t ht => hremove t ht (by omega)

end Kernel

end TrueOs.Mm
