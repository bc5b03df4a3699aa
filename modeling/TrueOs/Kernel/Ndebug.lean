import TrueOs.Kernel.Arenas
import TrueOs.Kernel.FirstFit
import TrueOs.Kernel.Space

/-! `malloc_page` with `ASSERT` compiled out.

An exhausted map is then reported to the caller; a `PANIC` still stops the system.  The
virtual pages are marked before the frames are there, and nothing takes this back. -/

namespace TrueOs.Mm

open Function (update update_self update_of_ne)
open Prog

namespace Ndebug

def vaddrGet (cur : Nat) (pf : PoolFlags) (pgCnt : Nat) : Prog Mm Buf (Option Nat) :=
  (Mm.vaddrGet cur pf pgCnt).unchecked

def palloc (pf : PoolFlags) : Prog Mm Buf (Option Nat) := (Mm.palloc pf).unchecked

/-- The result of `palloc` is not looked at: NULL is the frame 0. -/
def newTable (page : Nat) : Prog Mm Buf Unit := do
  let table := (← palloc .kernel).getD 0
  let cur := (← get).active
  let t ← getTask cur
  setTask cur { t with pde := update t.pde (page / 1024) (some table) }
  modify (fun m => { m with tables := update m.tables table (fun _ => ⟨0, false⟩) })

/-- An entry that is there already is a `PANIC`. -/
def pageTableAdd (page frame : Nat) : Prog Mm Buf Unit := do
  if page < kernelBase ∧ (← get).activeTable page = none then
    newTable page
  let pte ← getPte page
  if pte.present then
    halt .assert
  else
    setPte page ⟨frame, true⟩

def mapPages (pf : PoolFlags) : (cnt page : Nat) → Prog Mm Buf Bool
  | 0, _ => return true
  | cnt + 1, page => do
    match ← palloc pf with
    | none => return false
    | some frame =>
      pageTableAdd page frame
      mapPages pf cnt (page + 1)

def mallocPage (cur : Nat) (pf : PoolFlags) (pgCnt : Nat) : Prog Mm Buf (Option Nat) := do
  match ← vaddrGet cur pf pgCnt with
  | none => return none
  | some page =>
    if ← mapPages pf pgCnt page then return some page else return none

end Ndebug

def frameOf (m : Mm) (page : Nat) : Option Nat :=
  if page < kernelBase then m.mapped m.active page else (m.kpte page).mapped

def vaddrMap (m : Mm) (cur : Nat) : PoolFlags → Option Bitmap
  | .kernel => some m.kernelVaddr
  | .user => m.maps cur

structure Backed (pf : PoolFlags) (page cnt : Nat) (s t : Mm) : Prop where
  frames : ∃ f : Nat → Nat,
    (∀ w, page ≤ w → w < page + cnt → f w < 8 * (s.pool pf).btmpBytesLen ∧ (s.pool pf).bits.bit (f w) = false ∧
      t.frameOf w = some (pf.start + f w)) ∧
    (∀ w w', page ≤ w → w < page + cnt → page ≤ w' → w' < page + cnt → f w = f w' → w = w') ∧
    ∀ j, (t.pool pf).bits.bit j = true ↔ (s.pool pf).bits.bit j = true ∨ ∃ w, page ≤ w ∧ w < page + cnt ∧ f w = j
  others : ∀ w, ¬(page ≤ w ∧ w < page + cnt) → t.frameOf w = s.frameOf w

structure Marked (pf : PoolFlags) (page cnt : Nat) (b b' : Bitmap) : Prop where
  len : b'.btmpBytesLen = b.btmpBytesLen
  run : ∃ i, page = pf.vaddrStart + i ∧ b.Fits (8 * b.btmpBytesLen) cnt i ∧
    ∀ j, b'.bits.bit j = if i ≤ j ∧ j < i + cnt then true else b.bits.bit j

structure Granted (cur : Nat) (pf : PoolFlags) (page cnt : Nat) (s t : Mm) : Prop where
  marked : ∃ b b', s.vaddrMap cur pf = some b ∧ t.vaddrMap cur pf = some b' ∧ Marked pf page cnt b b'
  backed : Backed pf page cnt s t

structure Unchanged (s t : Mm) : Prop where
  same : SameKv s t
  pools : ∀ pf, t.pool pf = s.pool pf
  frames : ∀ w, t.frameOf w = s.frameOf w

def AllOrNothing (cur : Nat) (pf : PoolFlags) (cnt : Nat) (s : Mm) (r : Option Nat) (t : Mm) : Prop :=
  (∃ page, r = some page ∧ Granted cur pf page cnt s t) ∨ r = none ∧ Unchanged s t

def take (s : Mm) (pf : PoolFlags) (i : Nat) : Mm :=
  s.setPool pf ⟨(s.pool pf).btmpBytesLen, (s.pool pf).bits.setBit i true⟩

structure Added (pf : PoolFlags) (page frame : Nat) (s t : Mm) : Prop where
  same : SameKv s t
  pool : t.pool pf = s.pool pf
  frames : ∀ w, t.frameOf w = if w = page then some frame else s.frameOf w

section Backed

variable {s t u : Mm} {pf : PoolFlags} {i page cnt : Nat}

@[simp] theorem pool_take : (s.take pf i).pool pf = ⟨(s.pool pf).btmpBytesLen, (s.pool pf).bits.setBit i true⟩ := by
  cases pf <;> rfl

@[simp] theorem frameOf_take (w : Nat) : (s.take pf i).frameOf w = s.frameOf w := by
  cases pf <;> rfl

theorem sameKv_take : SameKv s (s.take pf i) := by
  cases pf <;> exact ⟨rfl, rfl⟩

theorem frameOf_putKpte (hpage : kernelBase ≤ page) (e : Pte) (w : Nat) :
    (s.putKpte page e).frameOf w = if w = page then e.mapped else s.frameOf w := by
  by_cases hw : w < kernelBase
  · have hne : w ≠ page := by omega
    rw [if_neg hne, frameOf, frameOf, if_pos hw, if_pos hw]
    rfl
  · rw [frameOf, frameOf, if_neg hw, if_neg hw, putKpte]
    dsimp only
    by_cases hwp : w = page
    · rw [hwp, update_self, if_pos rfl]
    · rw [update_of_ne hwp, if_neg hwp]

theorem added_putKpte (hpage : kernelBase ≤ page) (frame : Nat) : Added pf page frame s (s.putKpte page ⟨frame, true⟩) where
  same := ⟨rfl, rfl⟩
  pool := by cases pf <;> rfl
  frames := frameOf_putKpte hpage _

theorem Added.fresh {frame : Nat} (h : Added pf page frame s t)
    (hs : ∀ w, page ≤ w → w < page + (cnt + 1) → s.frameOf w = none) :
    ∀ w, page + 1 ≤ w → w < page + 1 + cnt → t.frameOf w = none := by
  intro w h₁ h₂
  rw [h.frames, if_neg (by omega)]
  exact hs w (by omega) (by omega)

theorem Backed.nil : Backed pf page 0 s s where
  frames := by
    refine ⟨id, fun w h h' => by omega, fun w w' h h' => by omega, fun j => ⟨Or.inl, ?_⟩⟩
    rintro (h | ⟨w, h₁, h₂, -⟩)
    · exact h
    · omega
  others _ _ := rfl

theorem Backed.cons (hfree : (s.pool pf).FirstFree i) (hadd : Added pf page (pf.start + i) (s.take pf i) u)
    (h : Backed pf (page + 1) cnt u t) : Backed pf page (cnt + 1) s t := by
  obtain ⟨f, hf, hinj, hmarked⟩ := h.frames
  have hbit : ∀ j, (u.pool pf).bits.bit j = if j = i then true else (s.pool pf).bits.bit j := by
    intro j
    rw [hadd.pool, pool_take]
    exact Buf.bit_setBit _ _ _ _
  have hlen : (u.pool pf).btmpBytesLen = (s.pool pf).btmpBytesLen := by rw [hadd.pool, pool_take]
  -- the frames of the rest were free after `i` was taken
  have hrest : ∀ w, page + 1 ≤ w → w < page + 1 + cnt → f w ≠ i ∧ (s.pool pf).bits.bit (f w) = false := by
    intro w h₁ h₂
    have hw := (hf w h₁ h₂).2.1
    rw [hbit] at hw
    by_cases hwi : f w = i
    · rw [if_pos hwi] at hw
      cases hw
    · rw [if_neg hwi] at hw
      exact ⟨hwi, hw⟩
  refine ⟨⟨fun w => if w = page then i else f w, fun w h₁ h₂ => ?_, fun w w' h₁ h₂ h₁' h₂' he => ?_, fun j => ?_⟩,
    fun w hw => ?_⟩
  · dsimp only
    by_cases hwp : w = page
    · rw [if_pos hwp, h.others w (by omega), hadd.frames, if_pos hwp]
      exact ⟨hfree.lt, hfree.free, rfl⟩
    · rw [if_neg hwp]
      have hw := hf w (by omega) (by omega)
      rw [hlen] at hw
      exact ⟨hw.1, (hrest w (by omega) (by omega)).2, hw.2.2⟩
  · dsimp only at he
    by_cases hwp : w = page
    · by_cases hwp' : w' = page
      · rw [hwp, hwp']
      · rw [if_pos hwp, if_neg hwp'] at he
        exact absurd he.symm (hrest w' (by omega) (by omega)).1
    · rw [if_neg hwp] at he
      by_cases hwp' : w' = page
      · rw [if_pos hwp'] at he
        exact absurd he (hrest w (by omega) (by omega)).1
      · rw [if_neg hwp'] at he
        exact hinj w w' (by omega) (by omega) (by omega) (by omega) he
  · rw [hmarked, hbit]
    dsimp only
    constructor
    · rintro (hj | ⟨w, h₁, h₂, hw⟩)
      · by_cases hji : j = i
        · exact Or.inr ⟨page, by omega, by omega, by rw [if_pos rfl, hji]⟩
        · rw [if_neg hji] at hj
          exact Or.inl hj
      · exact Or.inr ⟨w, by omega, by omega, by rw [if_neg (by omega), hw]⟩
    · rintro (hj | ⟨w, h₁, h₂, hw⟩)
      · rw [hj]
        exact Or.inl (ite_self _)
      · by_cases hwp : w = page
        · rw [if_pos hwp] at hw
          exact Or.inl (if_pos hw.symm)
        · rw [if_neg hwp] at hw
          exact Or.inr ⟨w, by omega, by omega, hw⟩
  · rw [h.others w (by omega), hadd.frames, if_neg (by omega), frameOf_take]

end Backed

namespace Ndebug

section Palloc

variable {s : Mm} {pf : PoolFlags}

theorem exists_free {b : Bitmap} (h : b.used < 8 * b.btmpBytesLen) :
    ∃ i < 8 * b.btmpBytesLen, b.bits.bit i = false := by
  by_contra hc
  have hall : ∀ i ∈ Finset.range (8 * b.btmpBytesLen), b.bits.bit i = true := by
    intro i hi
    by_contra hb
    exact hc ⟨i, Finset.mem_range.mp hi, by simpa using hb⟩
  rw [Bitmap.used, Finset.filter_true_of_mem hall, Finset.card_range] at h
  exact lt_irrefl _ h

theorem used_le (b : Bitmap) : b.used ≤ 8 * b.btmpBytesLen := by
  rw [← Finset.card_range (8 * b.btmpBytesLen)]
  exact Finset.card_filter_le _ _

theorem used_lt {b : Bitmap} {i : Nat} (hi : i < 8 * b.btmpBytesLen) (hf : b.bits.bit i = false) :
    b.used < 8 * b.btmpBytesLen := by
  rw [← Finset.card_range (8 * b.btmpBytesLen)]
  refine Finset.card_lt_card (Finset.filter_ssubset.mpr ⟨i, Finset.mem_range.mpr hi, ?_⟩)
  rw [hf]
  exact Bool.false_ne_true

theorem sat_scan {b : Bitmap} {cnt : Nat} (hcnt : 1 ≤ cnt) (hin : ¬b.Overrun cnt) {E : Prop}
    {Q : Option Nat → Mm → Prop} (hQ : ∀ r, b.FirstFit (8 * b.btmpBytesLen) cnt r → Q r s) :
    ((unchecked (b.bitmapScan cnt : Prog Mm Buf (Option Nat))).on s).Sat E Q := by
  simp only [Bitmap.bitmapScan, unchecked_bind, unchecked_assert, unchecked_ite, unchecked_pure, pure_bind]
  by_cases hfull : Bitmap.fullBytes b.bits b.btmpBytesLen 0 = b.btmpBytesLen
  · rw [if_pos hfull]
    refine hQ none fun i hi => ?_
    have hlt : i < 8 * b.btmpBytesLen := by have := hi.within; omega
    have := Bitmap.fullBytes_lt hlt (hi.free i le_rfl (by omega))
    omega
  · rw [if_neg hfull]
    have hle := (Bitmap.fullBytes_spec b.bits b.btmpBytesLen 0).2.1
    have hfirst := Bitmap.firstFree_scan (show Bitmap.fullBytes b.bits b.btmpBytesLen 0 < b.btmpBytesLen by omega)
    have hfit := (Bitmap.scan_firstFit_iff hfirst hcnt).mpr hin
    split at hfit
    · next h => rw [if_pos h]; exact hQ _ hfit
    · next h => rw [if_neg h]; exact hQ _ hfit

theorem sat_palloc (hfree : (s.pool pf).used < 8 * (s.pool pf).btmpBytesLen) {Q : Option Nat → Mm → Prop}
    (hQ : ∀ i, (s.pool pf).FirstFree i →
      Q (some (pf.start + i)) (s.setPool pf ⟨(s.pool pf).btmpBytesLen, (s.pool pf).bits.setBit i true⟩)) :
    ((Ndebug.palloc pf).on s).Sat False Q := by
  obtain ⟨i, hi, hbit⟩ := exists_free hfree
  have hlt := Bitmap.fullBytes_lt hi hbit
  simp only [Ndebug.palloc, Mm.palloc, unchecked_bind, unchecked_get, bind_on, get_on, Res.sat_bind, Res.sat_done,
    Bitmap.bitmapScan, unchecked_assert, unchecked_ite, unchecked_pure, pure_bind, if_neg (Nat.ne_of_lt hlt), if_pos]
  have hfirst := Bitmap.firstFree_scan hlt
  rw [sat_pure]
  simp only [unchecked_bind, unchecked_get, bind_on, get_on, Res.sat_bind, Res.sat_done, Bitmap.bitmapSet, unchecked_ite,
    unchecked_pure, unchecked_modify, modify_on]
  rw [if_pos (by have := hfirst.lt; omega)]
  exact hQ _ hfirst

theorem sat_palloc_full (hfull : (s.pool pf).used = 8 * (s.pool pf).btmpBytesLen) {Q : Option Nat → Mm → Prop}
    (hQ : Q none s) : ((Ndebug.palloc pf).on s).Sat False Q := by
  have hle := (Bitmap.fullBytes_spec (s.pool pf).bits (s.pool pf).btmpBytesLen 0).2.1
  have hall : Bitmap.fullBytes (s.pool pf).bits (s.pool pf).btmpBytesLen 0 = (s.pool pf).btmpBytesLen := by
    by_contra hne
    have hfirst := Bitmap.firstFree_scan (lt_of_le_of_ne (by omega) hne)
    have := used_lt hfirst.lt hfirst.free
    omega
  simp only [Ndebug.palloc, Mm.palloc, unchecked_bind, unchecked_get, bind_on, get_on, Res.sat_bind, Res.sat_done,
    Bitmap.bitmapScan, unchecked_assert, unchecked_ite, unchecked_pure, pure_bind, if_pos hall]
  exact hQ

end Palloc

section Loop

variable {s : Mm} {pf : PoolFlags} {page cnt : Nat}

theorem sat_mapPages {I : Nat → Nat → Mm → Prop}
    (step : ∀ cnt page s i, I (cnt + 1) page s → (s.pool pf).FirstFree i →
      ((Ndebug.pageTableAdd page (pf.start + i)).on (s.take pf i)).Sat False
        (fun _ t => Added pf page (pf.start + i) (s.take pf i) t ∧ I cnt (page + 1) t))
    (h : I cnt page s) : ((Ndebug.mapPages pf cnt page).on s).Sat False (fun ok t => SameKv s t ∧
      ((s.pool pf).used + cnt ≤ 8 * (s.pool pf).btmpBytesLen → ok = true ∧ Backed pf page cnt s t) ∧
      (8 * (s.pool pf).btmpBytesLen < (s.pool pf).used + cnt → ok = false)) := by
  induction cnt generalizing page s with
  | zero =>
    refine ⟨⟨rfl, rfl⟩, fun _ => ⟨rfl, Backed.nil⟩, fun hlt => ?_⟩
    have := used_le (s.pool pf)
    omega
  | succ cnt ih =>
    rw [Ndebug.mapPages, sat_bind]
    by_cases hfree : (s.pool pf).used < 8 * (s.pool pf).btmpBytesLen
    · refine sat_palloc hfree fun i hi => ?_
      dsimp only
      rw [sat_bind]
      refine (step cnt page s i h hi).mono fun _ u hu => ?_
      obtain ⟨hadd, hI⟩ := hu
      have hused : (u.pool pf).used = (s.pool pf).used + 1 := by
        rw [hadd.pool, pool_take]
        exact Bitmap.used_set_true hi.lt hi.free
      have hlen : (u.pool pf).btmpBytesLen = (s.pool pf).btmpBytesLen := by rw [hadd.pool, pool_take]
      refine (ih hI).mono fun ok t ht => ?_
      obtain ⟨hkv, hok, hno⟩ := ht
      rw [hused, hlen] at hok hno
      refine ⟨sameKv_take.trans (hadd.same.trans hkv), fun hle => ?_, fun hlt => hno (by omega)⟩
      obtain ⟨rfl, hb⟩ := hok (by omega)
      exact ⟨rfl, hb.cons hi hadd⟩
    · have hle := used_le (s.pool pf)
      refine sat_palloc_full (by omega) ?_
      exact ⟨⟨rfl, rfl⟩, fun hle' => by omega, fun _ => rfl⟩

end Loop

section Kernel

variable {s : Mm} {page cnt frame : Nat}

theorem present_of_mapped {e : Pte} (h : e.mapped = none) : e.present = false := by
  by_contra hp
  rw [Pte.mapped, if_pos (by simpa using hp)] at h
  cases h

structure KernelReady (cnt page : Nat) (s : Mm) : Prop where
  above : kernelBase ≤ page
  fresh : ∀ w, page ≤ w → w < page + cnt → s.frameOf w = none

theorem sat_pageTableAdd_kernel (hpage : kernelBase ≤ page) (hnone : s.frameOf page = none) {Q : Unit → Mm → Prop}
    (hQ : Q () (s.putKpte page ⟨frame, true⟩)) : ((pageTableAdd page frame).on s).Sat False Q := by
  rw [frameOf, if_neg (by omega)] at hnone
  have hp := present_of_mapped hnone
  simp only [pageTableAdd, sat_bind, sat_get, show ¬page < kernelBase by omega, false_and,
    if_false, getPte, setPte, sat_pure, hp, Bool.false_eq_true]
  exact hQ

theorem KernelReady.take (h : KernelReady cnt page s) (pf : PoolFlags) (i : Nat) : KernelReady cnt page (s.take pf i) :=
  ⟨h.above, fun w h₁ h₂ => (frameOf_take w).trans (h.fresh w h₁ h₂)⟩

theorem KernelReady.next {t : Mm} {pf : PoolFlags} (h : KernelReady (cnt + 1) page s) (hadd : Added pf page frame s t) :
    KernelReady cnt (page + 1) t :=
  ⟨Nat.le_succ_of_le h.above, hadd.fresh h.fresh⟩

theorem kernel_step (cnt page : Nat) (s : Mm) (i : Nat) (h : KernelReady (cnt + 1) page s) :
    ((pageTableAdd page (PoolFlags.kernel.start + i)).on (s.take .kernel i)).Sat False
      (fun _ t => Added .kernel page (PoolFlags.kernel.start + i) (s.take .kernel i) t ∧ KernelReady cnt (page + 1) t) := by
  have hready := h.take .kernel i
  have hadd : Added .kernel page (PoolFlags.kernel.start + i) (s.take .kernel i) _ := added_putKpte h.above _
  exact sat_pageTableAdd_kernel h.above (hready.fresh page le_rfl (by omega)) ⟨hadd, hready.next hadd⟩

end Kernel

section User

variable {s : Mm} {page cnt frame : Nat}

def missing (s : Mm) (page cnt : Nat) : Finset Nat :=
  ((Finset.range cnt).image (fun k => (page + k) / 1024)).filter (fun d => s.dir s.active d = none)

theorem mem_missing {d : Nat} : d ∈ missing s page cnt ↔
    (∃ w, page ≤ w ∧ w < page + cnt ∧ w / 1024 = d) ∧ s.dir s.active d = none := by
  rw [missing, Finset.mem_filter, Finset.mem_image]
  refine and_congr_left fun _ => ⟨?_, ?_⟩
  · rintro ⟨k, hk, rfl⟩
    exact ⟨page + k, by omega, by have := Finset.mem_range.mp hk; omega, rfl⟩
  · rintro ⟨w, h₁, h₂, rfl⟩
    exact ⟨w - page, Finset.mem_range.mpr (by omega), by rw [Nat.add_sub_cancel' h₁]⟩

structure Tables (cnt page : Nat) (s : Mm) : Prop where
  task : ∃ x, s.tasks s.active = some x
  apart : ∀ d d' f, s.dir s.active d = some f → s.dir s.active d' = some f → d = d'
  taken : ∀ d k, s.dir s.active d = some (PoolFlags.kernel.start + k) → s.kernelPool.bits.bit k = true
  room : s.kernelPool.used + (missing s page cnt).card ≤ 8 * s.kernelPool.btmpBytesLen

structure Listed (s : Mm) : Prop where
  task : ∃ x, s.tasks s.active = some x
  apart : ∀ d d' f, s.dir s.active d = some f → s.dir s.active d' = some f → d = d'
  taken : ∀ d k, s.dir s.active d = some (PoolFlags.kernel.start + k) → s.kernelPool.bits.bit k = true

theorem Tables.listed (h : Tables cnt page s) : Listed s := ⟨h.task, h.apart, h.taken⟩

structure UserReady (cnt page : Nat) (s : Mm) : Prop where
  below : page + cnt ≤ kernelBase
  fresh : ∀ w, page ≤ w → w < page + cnt → s.frameOf w = none
  tables : Tables cnt page s

theorem frameOf_putPte (h : Listed s) (hpage : page < kernelBase) {table : Nat}
    (hd : s.dir s.active (page / 1024) = some table) (e : Pte) (w : Nat) :
    (s.putPte table (page % 1024) e).frameOf w = if w = page then e.mapped else s.frameOf w := by
  by_cases hw : w < kernelBase
  · rw [frameOf, frameOf, if_pos hw, if_pos hw, mapped, mapped]
    change ((s.dir s.active (w / 1024)).bind fun g =>
      (update s.tables table (update (s.tables table) (page % 1024) e) g (w % 1024)).mapped) = _
    by_cases hdir : w / 1024 = page / 1024
    · rw [hdir, hd, Option.bind_some, Option.bind_some, update_self]
      by_cases hm : w % 1024 = page % 1024
      · rw [hm, update_self, if_pos (by omega)]
      · rw [update_of_ne hm, if_neg (by rintro rfl; exact hm rfl)]
    · rw [if_neg (by rintro rfl; exact hdir rfl)]
      cases hg : s.dir s.active (w / 1024) with
      | none => rfl
      | some g =>
        have hne : g ≠ table := by
          rintro rfl
          exact hdir (h.apart _ _ _ hg hd)
        rw [Option.bind_some, Option.bind_some, update_of_ne hne]
  · have hne : w ≠ page := by omega
    rw [if_neg hne, frameOf, frameOf, if_neg hw, if_neg hw]
    rfl

theorem added_putPte (h : Listed s) (hpage : page < kernelBase) {table : Nat} (hd : s.dir s.active (page / 1024) = some table)
    (frame : Nat) : Added .user page frame s (s.putPte table (page % 1024) ⟨frame, true⟩) :=
  ⟨⟨rfl, rfl⟩, rfl, frameOf_putPte h hpage hd _⟩

def withTable (s : Mm) (page i : Nat) (x : Task) : Mm :=
  { s.take .kernel i with
    tables := update s.tables (PoolFlags.kernel.start + i) (fun _ => ⟨0, false⟩)
    tasks := update s.tasks s.active
      (some { x with pde := update x.pde (page / 1024) (some (PoolFlags.kernel.start + i)) }) }

section WithTable

variable {i : Nat} {x : Task}

theorem dir_withTable (hx : s.tasks s.active = some x) (d : Nat) : (withTable s page i x).dir s.active d =
    if d = page / 1024 then some (PoolFlags.kernel.start + i) else s.dir s.active d := by
  simp only [dir, withTable, update_self, Option.bind_some, hx]
  by_cases hd : d = page / 1024
  · rw [hd, update_self, if_pos rfl]
  · rw [update_of_ne hd, if_neg hd]

theorem frameOf_withTable (h : Listed s) (hi : s.kernelPool.bits.bit i = false) (hx : s.tasks s.active = some x)
    (hnone : s.dir s.active (page / 1024) = none) (w : Nat) : (withTable s page i x).frameOf w = s.frameOf w := by
  by_cases hw : w < kernelBase
  · rw [frameOf, frameOf, if_pos hw, if_pos hw, mapped, mapped,
      show (withTable s page i x).active = s.active from rfl, dir_withTable hx]
    by_cases hd : w / 1024 = page / 1024
    · rw [if_pos hd, hd, hnone, Option.bind_some, Option.bind_none, withTable]
      dsimp only
      rw [update_self]
      rfl
    · rw [if_neg hd]
      cases hg : s.dir s.active (w / 1024) with
      | none => rfl
      | some g =>
        have hne : g ≠ PoolFlags.kernel.start + i := by
          rintro rfl
          rw [h.taken _ _ hg] at hi
          cases hi
        rw [Option.bind_some, Option.bind_some, withTable]
        dsimp only
        rw [update_of_ne hne]
  · rw [frameOf, frameOf, if_neg hw, if_neg hw]
    rfl

theorem Listed.withTable (h : Listed s) (hi : s.kernelPool.bits.bit i = false) (hx : s.tasks s.active = some x) :
    Listed (withTable s page i x) where
  task := ⟨_, update_self ..⟩
  apart d d' f hd hd' := by
    have hnew : ∀ d, s.dir s.active d ≠ some (PoolFlags.kernel.start + i) := by
      intro d hd
      have hbit := h.taken d i hd
      rw [hi] at hbit
      cases hbit
    change (Ndebug.withTable s page i x).dir s.active d = _ at hd
    change (Ndebug.withTable s page i x).dir s.active d' = _ at hd'
    rw [dir_withTable hx] at hd hd'
    by_cases h₁ : d = page / 1024
    · by_cases h₂ : d' = page / 1024
      · rw [h₁, h₂]
      · rw [if_pos h₁] at hd
        rw [if_neg h₂, ← hd] at hd'
        exact absurd hd' (hnew d')
    · rw [if_neg h₁] at hd
      by_cases h₂ : d' = page / 1024
      · rw [if_pos h₂] at hd'
        rw [← hd'] at hd
        exact absurd hd (hnew d)
      · rw [if_neg h₂] at hd'
        exact h.apart d d' f hd hd'
  taken d k hd := by
    change (Ndebug.withTable s page i x).dir s.active d = _ at hd
    rw [dir_withTable hx] at hd
    change (s.kernelPool.bits.setBit i true).bit k = true
    rw [Buf.bit_setBit]
    by_cases hd' : d = page / 1024
    · rw [if_pos hd', Option.some.injEq] at hd
      rw [if_pos (by omega)]
    · rw [if_neg hd'] at hd
      rw [h.taken d k hd]
      exact ite_self _

theorem used_withTable (hcnt : 0 < cnt) (hi : s.kernelPool.FirstFree i) (hx : s.tasks s.active = some x)
    (hnone : s.dir s.active (page / 1024) = none) :
    (withTable s page i x).kernelPool.used + (missing (withTable s page i x) page cnt).card =
      s.kernelPool.used + (missing s page cnt).card := by
  have hmem : page / 1024 ∈ missing s page cnt := mem_missing.mpr ⟨⟨page, le_rfl, by omega, rfl⟩, hnone⟩
  have hcard := Finset.card_erase_add_one hmem
  have herase : missing (withTable s page i x) page cnt = (missing s page cnt).erase (page / 1024) := by
    ext d
    rw [Finset.mem_erase, mem_missing, mem_missing, show (withTable s page i x).active = s.active from rfl, dir_withTable hx]
    by_cases hd : d = page / 1024
    · rw [if_pos hd]
      exact iff_of_false (fun h => Option.some_ne_none _ h.2) fun h => h.1 hd
    · rw [if_neg hd]
      exact ⟨fun h => ⟨hd, h⟩, fun h => h.2⟩
  have hused : (withTable s page i x).kernelPool.used = s.kernelPool.used + 1 := Bitmap.used_set_true hi.lt hi.free
  rw [herase]
  omega

theorem Tables.withTable (h : Tables cnt page s) (hcnt : 0 < cnt) (hi : s.kernelPool.FirstFree i)
    (hx : s.tasks s.active = some x) (hnone : s.dir s.active (page / 1024) = none) :
    Tables cnt page (withTable s page i x) := by
  have hl : Listed (Ndebug.withTable s page i x) := h.listed.withTable hi.free hx
  refine ⟨hl.task, hl.apart, hl.taken, ?_⟩
  rw [used_withTable hcnt hi hx hnone]
  exact h.room

end WithTable

theorem sat_newTable (h : Tables cnt page s) (hcnt : 0 < cnt) (hnone : s.dir s.active (page / 1024) = none)
    {Q : Unit → Mm → Prop}
    (hQ : ∀ i x, s.kernelPool.FirstFree i → s.tasks s.active = some x → Q () (withTable s page i x)) :
    ((newTable page).on s).Sat False Q := by
  have hmem : page / 1024 ∈ missing s page cnt := mem_missing.mpr ⟨⟨page, le_rfl, by omega, rfl⟩, hnone⟩
  have hcard := Finset.card_pos.mpr ⟨_, hmem⟩
  have hroom := h.room
  obtain ⟨x, hx⟩ := h.task
  rw [newTable, sat_bind]
  have hfree : (s.pool .kernel).used < 8 * (s.pool .kernel).btmpBytesLen := by dsimp only [pool]; omega
  refine sat_palloc hfree fun i hi => ?_
  have hx' : (s.take .kernel i).tasks (s.take .kernel i).active = some x := hx
  change ((do
    let cur := (← get).active
    let t ← getTask cur
    setTask cur { t with pde := update t.pde (page / 1024) (some (PoolFlags.kernel.start + i)) }
    modify (fun m => { m with tables := update m.tables (PoolFlags.kernel.start + i) (fun _ => ⟨0, false⟩) }) :
      Prog Mm Buf Unit).on (s.take .kernel i)).Sat _ _
  simp only [sat_bind, sat_get, getTask, hx', sat_pure, setTask, sat_modify]
  exact hQ i x hi hx

theorem missing_next {table : Nat} (hd : s.dir s.active (page / 1024) = some table) (e : Pte) :
    missing (s.putPte table (page % 1024) e) (page + 1) cnt = missing s page (cnt + 1) := by
  ext d
  rw [mem_missing, mem_missing]
  refine and_congr_left fun hnone => ⟨?_, ?_⟩
  · rintro ⟨w, h₁, h₂, hw⟩
    exact ⟨w, by omega, by omega, hw⟩
  · rintro ⟨w, h₁, h₂, rfl⟩
    have hne : w ≠ page := by
      rintro rfl
      cases hd.symm.trans hnone
    exact ⟨w, by omega, by omega, rfl⟩

theorem Tables.next (h : Tables (cnt + 1) page s) {table : Nat} (hd : s.dir s.active (page / 1024) = some table) {e : Pte} :
    Tables cnt (page + 1) (s.putPte table (page % 1024) e) := by
  refine ⟨h.task, h.apart, h.taken, ?_⟩
  rw [missing_next hd]
  exact h.room

theorem sat_setEntry (hpage : page < kernelBase) {table : Nat}
    (hd : s.dir s.active (page / 1024) = some table) (hnone : s.frameOf page = none) {Q : Unit → Mm → Prop}
    (hQ : Q () (s.putPte table (page % 1024) ⟨frame, true⟩)) :
    ((do
      let pte ← getPte page
      if pte.present then halt .assert else setPte page ⟨frame, true⟩).on s).Sat False Q := by
  have hp : (s.tables table (page % 1024)).present = false := by
    rw [frameOf, if_pos hpage, mapped, hd, Option.bind_some] at hnone
    exact present_of_mapped hnone
  simp only [sat_bind, sat_get, getPte, if_pos hpage, activeTable_eq, hd, sat_pure, hp,
    Bool.false_eq_true, if_false, setPte]
  exact hQ

theorem user_step (cnt page : Nat) (s : Mm) (i : Nat) (h : UserReady (cnt + 1) page s) :
    ((pageTableAdd page (PoolFlags.user.start + i)).on (s.take .user i)).Sat False
      (fun _ t => Added .user page (PoolFlags.user.start + i) (s.take .user i) t ∧ UserReady cnt (page + 1) t) := by
  have hpage : page < kernelBase := by have := h.below; omega
  have htables : Tables (cnt + 1) page (s.take .user i) := ⟨h.tables.task, h.tables.apart, h.tables.taken, h.tables.room⟩
  -- what the entry leaves, whether the table is new or not
  have hset : ∀ u, SameKv (s.take .user i) u → u.userPool = (s.take .user i).userPool →
      (∀ w, u.frameOf w = s.frameOf w) → Tables (cnt + 1) page u → ∀ table, u.dir u.active (page / 1024) = some table →
      ((do
        let pte ← getPte page
        if pte.present then halt .assert else setPte page ⟨PoolFlags.user.start + i, true⟩).on u).Sat False
        (fun _ t => Added .user page (PoolFlags.user.start + i) (s.take .user i) t ∧ UserReady cnt (page + 1) t) := by
    intro u hkv hpool hframes ht table hd
    have hadd := added_putPte ht.listed hpage hd (PoolFlags.user.start + i)
    refine sat_setEntry hpage hd (by rw [hframes, h.fresh page le_rfl (by omega)]) ⟨⟨hkv.trans hadd.same, hpool, fun w => ?_⟩,
      ⟨by have := h.below; omega, hadd.fresh fun w h₁ h₂ => (hframes w).trans (h.fresh w h₁ h₂), ht.next hd⟩⟩
    rw [hadd.frames, hframes, frameOf_take]
  rw [pageTableAdd, sat_bind, sat_get]
  cases hd : (s.take .user i).dir (s.take .user i).active (page / 1024) with
  | some table =>
    rw [if_neg (by rw [activeTable_eq, hd]; simp)]
    exact hset _ ⟨rfl, rfl⟩ rfl frameOf_take htables table hd
  | none =>
    rw [if_pos ⟨hpage, by rw [activeTable_eq, hd]⟩, bind_on, Res.sat_bind]
    refine sat_newTable htables (by omega) hd fun k x hk hx => ?_
    refine hset _ ⟨rfl, maps_update_self (m := s.take .user i) hx rfl⟩ rfl (fun w => ?_) (htables.withTable (by omega) hk hx hd)
      _ ((dir_withTable hx _).trans (if_pos rfl))
    rw [frameOf_withTable htables.listed hk.free hx hd, frameOf_take]

end User

section Malloc

variable {s t : Mm} {cur cnt i : Nat} {pf : PoolFlags} {b b' : Bitmap}

/-- Nothing but the pool is in the way of `cnt` pages: the scan stays in its map, a page
whose bit is clear has no frame, and there are frames for the page tables. -/
structure Tidy (cur : Nat) (pf : PoolFlags) (cnt : Nat) (s : Mm) (b : Bitmap) : Prop where
  map : s.vaddrMap cur pf = some b
  inside : ¬b.Overrun cnt
  fresh : ∀ j < 8 * b.btmpBytesLen, b.bits.bit j = false → s.frameOf (pf.vaddrStart + j) = none
  user : pf = .user → s.active = cur ∧ b.btmpBytesLen = userBitmapLen ∧
    ∀ i, b.FirstFit (8 * b.btmpBytesLen) cnt (some i) → Tables cnt (userVaddrStart + i) s

theorem vaddrMap_setMap (h : s.vaddrMap cur pf = some b) : (setMap s cur pf b').vaddrMap cur pf = some b' := by
  cases pf with
  | kernel => rfl
  | user =>
    obtain ⟨x, hx, -⟩ := exists_task h
    simp only [vaddrMap, setMap, hx, Option.elim_some, maps, update_self, Option.map_some]

@[simp] theorem pool_setMap (pf' : PoolFlags) : (setMap s cur pf b').pool pf' = s.pool pf' := by
  cases pf with
  | kernel => cases pf' <;> rfl
  | user => cases h : s.tasks cur <;> cases pf' <;> simp only [setMap, h] <;> rfl

@[simp] theorem active_setMap : (setMap s cur pf b').active = s.active := by
  cases pf with
  | kernel => rfl
  | user => cases h : s.tasks cur <;> simp only [setMap, h] <;> rfl

@[simp] theorem dir_setMap (p d : Nat) : (setMap s cur pf b').dir p d = s.dir p d := by
  cases pf with
  | kernel => rfl
  | user =>
    cases h : s.tasks cur with
    | none => simp only [setMap, h, Option.elim_none]
    | some x =>
      by_cases hp : p = cur
      · simp only [setMap, h, Option.elim_some, dir, hp, update_self, Option.bind_some]
      · simp only [setMap, h, Option.elim_some, dir, update_of_ne hp]

@[simp] theorem frameOf_setMap (w : Nat) : (setMap s cur pf b').frameOf w = s.frameOf w := by
  have htables : (setMap s cur pf b').tables = s.tables ∧ (setMap s cur pf b').kpte = s.kpte := by
    cases pf with
    | kernel => exact ⟨rfl, rfl⟩
    | user => cases h : s.tasks cur <;> simp only [setMap, h] <;> exact ⟨rfl, rfl⟩
  simp only [frameOf, mapped, active_setMap, dir_setMap, htables]

theorem missing_setMap (page : Nat) : missing (setMap s cur pf b') page cnt = missing s page cnt := by
  simp only [missing, dir_setMap, active_setMap]

theorem Listed.setMap (h : Listed s) : Listed (setMap s cur pf b') := by
  have hpool : (Mm.setMap s cur pf b').kernelPool = s.kernelPool := pool_setMap .kernel
  refine ⟨?_, ?_, ?_⟩
  · obtain ⟨x, hx⟩ := h.task
    cases pf with
    | kernel => exact ⟨x, hx⟩
    | user =>
      cases hc : s.tasks cur with
      | none => simp only [Mm.setMap, hc, Option.elim_none, hx, Option.some.injEq, exists_eq']
      | some y =>
        simp only [Mm.setMap, hc, Option.elim_some]
        by_cases ha : s.active = cur
        · exact ⟨_, by rw [ha, update_self]⟩
        · exact ⟨x, by rw [update_of_ne ha, hx]⟩
  · simpa only [dir_setMap, active_setMap] using h.apart
  · simpa only [dir_setMap, active_setMap, hpool] using h.taken

theorem Tables.setMap {page : Nat} (h : Tables cnt page s) : Tables cnt page (setMap s cur pf b') := by
  have hpool : (Mm.setMap s cur pf b').kernelPool = s.kernelPool := pool_setMap .kernel
  have hl : Listed (Mm.setMap s cur pf b') := h.listed.setMap
  refine ⟨hl.task, hl.apart, hl.taken, ?_⟩
  rw [hpool, missing_setMap]
  exact h.room

theorem unchecked_bitmapSetRun (value : Bool) (n i : Nat) (b : Bitmap) :
    unchecked (bitmapSetRun value n i b) = bitmapSetRun value n i b := by
  induction n generalizing i b with
  | zero => rfl
  | succ n ih => simp only [bitmapSetRun, Bitmap.bitmapSet, unchecked_bind, unchecked_ite, unchecked_pure, unchecked_halt, ih]

theorem sat_vaddrGet (h : Tidy cur pf cnt s b) (hcnt : 1 ≤ cnt) {Q : Option Nat → Mm → Prop}
    (hnone : (∀ i, ¬b.Fits (8 * b.btmpBytesLen) cnt i) → Q none s)
    (hsome : ∀ i b', b.FirstFit (8 * b.btmpBytesLen) cnt (some i) → b'.btmpBytesLen = b.btmpBytesLen →
      (∀ j, b'.bits.bit j = if i ≤ j ∧ j < i + cnt then true else b.bits.bit j) →
      Q (some (pf.vaddrStart + i)) (setMap s cur pf b')) :
    ((vaddrGet cur pf cnt).on s).Sat False Q := by
  cases pf with
  | kernel =>
    obtain rfl : s.kernelVaddr = b := Option.some.inj h.map
    simp only [vaddrGet, Mm.vaddrGet, unchecked_bind, unchecked_get, bind_on, get_on, Res.sat_bind, Res.sat_done]
    refine sat_scan hcnt h.inside fun r hr => ?_
    cases r with
    | none => exact hnone hr
    | some i =>
      simp only [unchecked_bind, unchecked_get, bind_on, get_on, Res.sat_bind, Res.sat_done, unchecked_bitmapSetRun]
      refine (sat_bitmapSetRun_of true cnt i _ s (.inr hr.1.within)).mono fun b' u hu => ?_
      obtain ⟨rfl, hlen, -, hbits⟩ := hu
      exact hsome i b' hr hlen hbits
  | user =>
    obtain ⟨x, hx, rfl⟩ := exists_task h.map
    simp only [vaddrGet, Mm.vaddrGet, unchecked_bind, getTask, unchecked_get, bind_on, get_on, Res.sat_bind, Res.sat_done,
      hx, unchecked_pure, pure_on]
    refine sat_scan hcnt h.inside fun r hr => ?_
    cases r with
    | none => exact hnone hr
    | some i =>
      simp only [unchecked_bind, sat_bind, Res.sat_done, unchecked_bitmapSetRun, setTask, unchecked_modify,
        unchecked_assert, modify_on, pure_on, unchecked_pure]
      refine (sat_bitmapSetRun_of true cnt i _ s (.inr hr.1.within)).mono fun b' u hu => ?_
      obtain ⟨rfl, hlen, -, hbits⟩ := hu
      have hput := hsome i b' hr hlen hbits
      rw [setMap, hx] at hput
      exact hput

theorem sat_mapPages_marked (h : Tidy cur pf cnt s b) (hfit : b.FirstFit (8 * b.btmpBytesLen) cnt (some i)) :
    ((mapPages pf cnt (pf.vaddrStart + i)).on (setMap s cur pf b')).Sat False (fun ok t =>
      SameKv (setMap s cur pf b') t ∧
      ((s.pool pf).used + cnt ≤ 8 * (s.pool pf).btmpBytesLen →
        ok = true ∧ Backed pf (pf.vaddrStart + i) cnt (setMap s cur pf b') t) ∧
      (8 * (s.pool pf).btmpBytesLen < (s.pool pf).used + cnt → ok = false)) := by
  have hfresh : ∀ w, pf.vaddrStart + i ≤ w → w < pf.vaddrStart + i + cnt → (setMap s cur pf b').frameOf w = none := by
    intro w h₁ h₂
    have hin := hfit.1.within
    have hnone := h.fresh (w - pf.vaddrStart) (by omega) (hfit.1.free _ (by omega) (by omega))
    rw [frameOf_setMap, ← hnone, Nat.add_sub_cancel' (by omega)]
  cases pf with
  | kernel =>
    have hready : KernelReady cnt (kHeapStart + i) (setMap s cur .kernel b') :=
      ⟨by simp only [kHeapStart, kernelBase]; omega, hfresh⟩
    have hsat := sat_mapPages (fun cnt page s i hs _ => kernel_step cnt page s i hs) hready
    rw [pool_setMap] at hsat
    exact hsat
  | user =>
    obtain ⟨rfl, hlen, htables⟩ := h.user rfl
    have hready : UserReady cnt (userVaddrStart + i) (setMap s s.active .user b') := by
      refine ⟨?_, hfresh, (htables i hfit).setMap⟩
      have hin := hfit.1.within
      rw [hlen] at hin
      simp only [userBitmapLen, userVaddrStart, kernelBase] at hin ⊢
      omega
    have hsat := sat_mapPages (fun cnt page s i hs _ => user_step cnt page s i hs) hready
    rw [pool_setMap] at hsat
    exact hsat

theorem vaddrMap_sameKv (h : SameKv s t) : t.vaddrMap cur pf = s.vaddrMap cur pf := by
  cases pf with
  | kernel => exact congrArg some h.kv
  | user => exact congrFun h.maps cur

theorem not_unchanged (hcnt : 1 ≤ cnt) (hmap : s.vaddrMap cur pf = some b) (hfit : b.Fits (8 * b.btmpBytesLen) cnt i)
    (hbits : ∀ j, b'.bits.bit j = if i ≤ j ∧ j < i + cnt then true else b.bits.bit j)
    (hkv : SameKv (setMap s cur pf b') t) : ¬Unchanged s t := by
  intro hun
  have hst : t.vaddrMap cur pf = s.vaddrMap cur pf := vaddrMap_sameKv hun.same
  have hsame := hst.symm.trans (vaddrMap_sameKv hkv)
  rw [vaddrMap_setMap hmap, hmap, Option.some.injEq] at hsame
  have hbit := hbits i
  rw [if_pos ⟨le_rfl, by omega⟩, ← hsame, hfit.free i le_rfl (by omega)] at hbit
  cases hbit

theorem Granted.of_backed {page : Nat} (hmap : s.vaddrMap cur pf = some b) (hmark : Marked pf page cnt b b')
    (hkv : SameKv (setMap s cur pf b') t) (hback : Backed pf page cnt (setMap s cur pf b') t) :
    Granted cur pf page cnt s t where
  marked := ⟨b, b', hmap, (vaddrMap_sameKv hkv).trans (vaddrMap_setMap hmap), hmark⟩
  backed := by
    obtain ⟨hframes, hothers⟩ := hback
    simp only [pool_setMap, frameOf_setMap] at hframes hothers
    exact ⟨hframes, hothers⟩

/-- It always returns, and is all or nothing unless the pool runs dry on the way. -/
theorem malloc_page_all_or_nothing_iff (hcnt : 1 ≤ cnt) (h : Tidy cur pf cnt s b) :
    ∃ r t, ((mallocPage cur pf cnt).on s).run = .ok (r, t) ∧ (AllOrNothing cur pf cnt s r t ↔
      (∀ i, ¬b.Fits (8 * b.btmpBytesLen) cnt i) ∨ (s.pool pf).used + cnt ≤ 8 * (s.pool pf).btmpBytesLen) := by
  apply Res.Sat.exists_run
  rw [mallocPage, sat_bind]
  refine sat_vaddrGet h hcnt (fun hno => ?_) fun i b' hfit hlen hbits => ?_
  · exact iff_of_true (Or.inr ⟨rfl, ⟨⟨rfl, rfl⟩, fun _ => rfl, fun _ => rfl⟩⟩) (Or.inl hno)
  · dsimp only
    rw [sat_bind]
    refine (sat_mapPages_marked h hfit).mono fun ok t ht => ?_
    obtain ⟨hkv, hok, hno⟩ := ht
    by_cases hroom : (s.pool pf).used + cnt ≤ 8 * (s.pool pf).btmpBytesLen
    · obtain ⟨rfl, hback⟩ := hok hroom
      refine iff_of_true (Or.inl ⟨_, rfl, ?_⟩) (Or.inr hroom)
      exact Granted.of_backed h.map ⟨hlen, i, rfl, hfit.1, hbits⟩ hkv hback
    · obtain rfl := hno (by omega)
      refine iff_of_false ?_ ?_
      · rintro (⟨page, hpage, -⟩ | ⟨-, hun⟩)
        · cases hpage
        · exact not_unchanged hcnt h.map hfit.1 hbits hkv hun
      · rintro (hno | hle)
        · exact hno i hfit.1
        · exact hroom hle

end Malloc

section Example

def bare (bits : Buf) : Mm where
  kernelPool := ⟨480, bits⟩
  userPool := ⟨480, fun _ => 0⟩
  kernelVaddr := ⟨480, fun _ => 0⟩
  pidBitmap := ⟨128, fun _ => 0⟩
  kpte := fun _ => ⟨0, false⟩
  tables := fun _ _ => ⟨0, false⟩
  phys := fun _ _ => 0
  tasks := fun _ => none
  threadAllList := []
  active := 0

theorem bare_tidy (bits : Buf) : Tidy 0 .kernel 2 (bare bits) ⟨480, fun _ => 0⟩ where
  map := rfl
  inside h := h.none 0 ⟨by decide, fun j _ _ => by simp [Buf.bit]⟩
  fresh j _ _ := by
    rw [frameOf]
    split <;> rfl
  user h := by cases h

theorem bare_used : ((bare fun _ => 0).pool .kernel).used = 0 := by
  rw [Bitmap.used, Finset.card_eq_zero, Finset.filter_eq_empty_iff]
  intro i _
  simp [bare, pool, Buf.bit]

theorem bare_grants_two : ∃ r t, ((mallocPage 0 .kernel 2).on (bare fun _ => 0)).run = .ok (r, t) ∧
    AllOrNothing 0 .kernel 2 (bare fun _ => 0) r t := by
  obtain ⟨r, t, hrun, hiff⟩ := malloc_page_all_or_nothing_iff (by decide) (bare_tidy fun _ => 0)
  exact ⟨r, t, hrun, hiff.mpr (Or.inr (by rw [bare_used]; decide))⟩

def lastFrame : Mm := bare fun i => if i = 479 then 0x7F else 0xFF

/-- Two pages with one frame: NULL, but the pages and the frame are gone. -/
theorem short_pool_keeps_pages : ∃ t, ((mallocPage 0 .kernel 2).on lastFrame).run = .ok (none, t) ∧
    ¬AllOrNothing 0 .kernel 2 lastFrame none t := by
  refine ⟨_, run_of_gives (by decide +kernel), ?_⟩
  rintro (⟨page, hpage, -⟩ | ⟨-, hun⟩)
  · cases hpage
  · have hbit := congrArg (fun b => b.bits.bit 0) hun.same.kv
    revert hbit
    decide +kernel

end Example

end Ndebug

end TrueOs.Mm
