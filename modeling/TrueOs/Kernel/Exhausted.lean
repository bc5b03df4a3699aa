import TrueOs.Kernel.Ndebug
import TrueOs.Lib.Ends

/-! `malloc_page` as it is built.  A map or a pool that is exhausted is not reported to the
caller: the scan of it fails its `ASSERT`. -/

namespace TrueOs.Mm

open Prog
open Ndebug (missing mem_missing Listed withTable KernelReady)

structure Ample (pf : PoolFlags) (n : Nat) (s : Mm) (b : Bitmap) : Prop where
  few : n < 3840
  room : ∃ i < 8 * b.btmpBytesLen, b.bits.bit i = false
  frames : ∀ i, b.FirstFit (8 * b.btmpBytesLen) n (some i) → (s.pool pf).used + n ≤ 8 * (s.pool pf).btmpBytesLen
  tables : ∀ i, b.FirstFit (8 * b.btmpBytesLen) n (some i) → pf = .user →
    s.kernelPool.used + (missing s (userVaddrStart + i) n).card ≤ 8 * s.kernelPool.btmpBytesLen

structure Neat (ctx : Ctx) (s : Mm) (b : Bitmap) : Prop where
  map : ctx.Map s b
  fresh : ∀ j < 8 * ctx.len, b.bits.bit j = false → s.frameOf (ctx.start + j) = none
  user : ∀ p, ctx = .user p → s.active = p ∧ Listed s ∧ b.bits.bit (8 * ctx.len - 1) = true

section Palloc

variable {s : Mm} {pf : PoolFlags} {b : Bitmap} {cnt : Nat} {F : Stop → Prop}

theorem ends_bitmapScan (hcnt : 1 ≤ cnt) {Q : Option Nat → Mm → Prop}
    (hfull : (∀ i < 8 * b.btmpBytesLen, b.bits.bit i = true) → F .assert)
    (hQ : ∀ r, (∃ i < 8 * b.btmpBytesLen, b.bits.bit i = false) → (b.Overrun cnt ∨ b.FirstFit (8 * b.btmpBytesLen) cnt r) →
      (∀ i, r = some i → b.FreeRun i cnt) → Q r s) :
    ((b.bitmapScan cnt : Prog Mm Buf (Option Nat)).on s).Ends F Q := by
  have hfit : ((b.bitmapScan cnt : Prog Mm Buf (Option Nat)).on s).Ends F (fun r _ =>
      (∃ i < 8 * b.btmpBytesLen, b.bits.bit i = false) ∧ (b.Overrun cnt ∨ b.FirstFit (8 * b.btmpBytesLen) cnt r)) := by
    simp only [Bitmap.bitmapScan, bind_on, Res.ends_bind, ends_assert, decide_eq_true_eq, decide_eq_false_iff_not]
    refine ⟨fun hlt => ?_, fun hge => hfull fun i hi => ?_⟩
    · have hfirst := Bitmap.firstFree_scan hlt
      rw [if_neg (by omega)]
      have hor := (Classical.em (b.Overrun cnt)).imp_right (Bitmap.scan_firstFit_iff hfirst hcnt).mpr
      split at hor
      · next h => rw [if_pos h]; exact ⟨⟨_, hfirst.lt, hfirst.free⟩, hor⟩
      · next h => rw [if_neg h]; exact ⟨⟨_, hfirst.lt, hfirst.free⟩, hor⟩
    · by_contra hbit
      exact hge (Bitmap.fullBytes_lt hi (by simpa using hbit))
  refine (hfit.and_sat (Bitmap.sat_bitmapScan_run b cnt s)).mono fun r t ht => ?_
  obtain ⟨⟨hfree, hor⟩, rfl, hrun⟩ := ht
  exact hQ r hfree hor hrun

theorem ends_palloc {Q : Option Nat → Mm → Prop} (hfull : (s.pool pf).used = 8 * (s.pool pf).btmpBytesLen → F .assert)
    (hQ : ∀ i, (s.pool pf).FirstFree i → Q (some (pf.start + i)) (s.take pf i)) : ((palloc pf).on s).Ends F Q := by
  simp only [palloc, bind_on, Res.ends_bind, get_on, Res.ends_done, Bitmap.bitmapScan, ends_assert, decide_eq_true_eq,
    decide_eq_false_iff_not]
  refine ⟨fun hlt => ?_, fun hge => hfull ?_⟩
  · have hfirst := Bitmap.firstFree_scan hlt
    rw [if_neg (by omega), if_pos trivial, pure_on, Res.ends_done]
    simp only [bind_on, Res.ends_bind, get_on, Res.ends_done, Bitmap.bitmapSet]
    rw [if_pos (by have := hfirst.lt; omega)]
    exact hQ _ hfirst
  · refine le_antisymm (Ndebug.used_le _) (not_lt.mp fun hlt => ?_)
    obtain ⟨i, hi, hbit⟩ := Ndebug.exists_free hlt
    exact hge (Bitmap.fullBytes_lt hi hbit)

end Palloc

section PageTableAdd

variable {s : Mm} {page frame : Nat} {F : Stop → Prop} {Q : Unit → Mm → Prop}

theorem ends_pageTableAdd_kernel (hpage : kernelBase ≤ page) (hnone : s.frameOf page = none)
    (hQ : Q () (s.putKpte page ⟨frame, true⟩)) : ((pageTableAdd page frame).on s).Ends F Q := by
  rw [frameOf, if_neg (by omega)] at hnone
  have hp := Ndebug.present_of_mapped hnone
  simp only [pageTableAdd, bind_on, Res.ends_bind, get_on, Res.ends_done, show ¬page < kernelBase by omega, false_and,
    if_false, getPte, setPte, pure_on, ends_assert, hp, Bool.not_false, reduceCtorEq, false_implies, and_true, true_implies]
  exact hQ

theorem ends_newTable (h : Listed s) (hfull : s.kernelPool.used = 8 * s.kernelPool.btmpBytesLen → F .assert)
    (hQ : ∀ i x, s.kernelPool.FirstFree i → s.tasks s.active = some x → Q () (withTable s page i x)) :
    ((newTable page).on s).Ends F Q := by
  obtain ⟨x, hx⟩ := h.task
  rw [newTable, bind_on, Res.ends_bind]
  refine ends_palloc hfull fun i hi => ?_
  have hx' : (s.take .kernel i).tasks (s.take .kernel i).active = some x := hx
  simp only [bind_on, Res.ends_bind, get_on, Res.ends_done, getTask, hx', pure_on, setTask, modify_on]
  exact hQ i x hi hx

structure UserAdded (page frame : Nat) (s t : Mm) : Prop extends Added .user page frame s t where
  listed : Listed t
  active : t.active = s.active
  len : t.kernelPool.btmpBytesLen = s.kernelPool.btmpBytesLen
  cost : ∀ cnt, t.kernelPool.used + (missing t (page + 1) cnt).card = s.kernelPool.used + (missing s page (cnt + 1)).card

theorem ends_setEntry (h : Listed s) (hpage : page < kernelBase) {table : Nat}
    (hd : s.dir s.active (page / 1024) = some table) (hnone : s.frameOf page = none)
    (hQ : ∀ t, UserAdded page frame s t → Q () t) :
    ((do
      let pte ← getPte page
      assert (!pte.present)
      setPte page ⟨frame, true⟩).on s).Ends F Q := by
  have hp : (s.tables table (page % 1024)).present = false := by
    rw [frameOf, if_pos hpage, mapped, hd, Option.bind_some] at hnone
    exact Ndebug.present_of_mapped hnone
  have hadd : UserAdded page frame s (s.putPte table (page % 1024) ⟨frame, true⟩) := by
    refine ⟨Ndebug.added_putPte h hpage hd frame, ⟨h.task, h.apart, h.taken⟩, rfl, rfl, fun cnt => ?_⟩
    rw [Ndebug.missing_next hd]
    rfl
  simp only [bind_on, Res.ends_bind, get_on, Res.ends_done, getPte, if_pos hpage, activeTable_eq, hd, pure_on, ends_assert, hp,
    Bool.not_false, reduceCtorEq, false_implies, and_true, true_implies, setPte]
  exact hQ _ hadd

theorem ends_pageTableAdd_user (h : Listed s) (hpage : page < kernelBase) (hnone : s.frameOf page = none)
    (hfull : s.dir s.active (page / 1024) = none → s.kernelPool.used = 8 * s.kernelPool.btmpBytesLen → F .assert)
    (hQ : ∀ t, UserAdded page frame s t → Q () t) : ((pageTableAdd page frame).on s).Ends F Q := by
  rw [pageTableAdd, bind_on, Res.ends_bind, get_on, Res.ends_done]
  cases hd : s.dir s.active (page / 1024) with
  | some table =>
    rw [if_neg (by rw [activeTable_eq, hd]; simp)]
    exact ends_setEntry h hpage hd hnone hQ
  | none =>
    rw [if_pos ⟨hpage, by rw [activeTable_eq, hd]⟩, bind_on, Res.ends_bind]
    refine ends_newTable h (hfull hd) fun k x hk hx => ?_
    have hframes := Ndebug.frameOf_withTable h hk.free hx hd
    have hkv : SameKv s (withTable s page k x) := ⟨rfl, maps_update_self (m := s) hx rfl⟩
    refine ends_setEntry (h.withTable hk.free hx) hpage ((Ndebug.dir_withTable hx _).trans (if_pos rfl))
      ((hframes page).trans hnone) fun t ht => hQ t ?_
    refine ⟨⟨hkv.trans ht.same, ht.pool, fun w => ?_⟩, ht.listed, ht.active, ht.len, fun cnt => ?_⟩
    · rw [ht.frames, hframes]
    · rw [ht.cost, Ndebug.used_withTable (by omega) hk hx hd]

end PageTableAdd

section MapPages

variable {s : Mm} {pf : PoolFlags} {page cnt : Nat} {F : Stop → Prop}

theorem ends_mapPages {I K : Nat → Nat → Mm → Prop} (hK : ∀ page s, ¬K 0 page s)
    (step : ∀ cnt page s i, I (cnt + 1) page s → (K (cnt + 1) page s → F .assert) →
      ((pageTableAdd page (pf.start + i)).on (s.take pf i)).Ends F (fun _ t =>
        Added pf page (pf.start + i) (s.take pf i) t ∧ I cnt (page + 1) t ∧ (K cnt (page + 1) t ↔ K (cnt + 1) page s)))
    (h : I cnt page s)
    (hshort : 8 * (s.pool pf).btmpBytesLen < (s.pool pf).used + cnt ∨ K cnt page s → F .assert) :
    ((mapPages pf cnt page).on s).Ends F (fun ok t => ok = true ∧ I 0 (page + cnt) t ∧ SameKv s t ∧ Backed pf page cnt s t ∧
      (s.pool pf).used + cnt ≤ 8 * (s.pool pf).btmpBytesLen ∧ ¬K cnt page s) := by
  induction cnt generalizing page s with
  | zero => exact ⟨rfl, h, ⟨rfl, rfl⟩, Backed.nil, Ndebug.used_le _, hK page s⟩
  | succ cnt ih =>
    rw [mapPages, bind_on, Res.ends_bind]
    refine ends_palloc (fun hfull => hshort (.inl (by omega))) fun i hi => ?_
    dsimp only
    rw [bind_on, Res.ends_bind]
    refine (step cnt page s i h fun hk => hshort (.inr hk)).mono fun _ u hu => ?_
    obtain ⟨hadd, hI, hiff⟩ := hu
    have hused : (u.pool pf).used = (s.pool pf).used + 1 := by
      rw [hadd.pool, pool_take]
      exact Bitmap.used_set_true hi.lt hi.free
    have hlen : (u.pool pf).btmpBytesLen = (s.pool pf).btmpBytesLen := by rw [hadd.pool, pool_take]
    have hrest := ih hI
    rw [hused, hlen, hiff] at hrest
    refine (hrest fun hs => hshort (hs.imp_left fun hlt => by omega)).mono fun ok t ht => ?_
    obtain ⟨hok, hI', hkv, hback, hle, hno⟩ := ht
    refine ⟨hok, ?_, sameKv_take.trans (hadd.same.trans hkv), hback.cons hi hadd, by omega, hno⟩
    rwa [show page + (cnt + 1) = page + 1 + cnt by omega]

theorem ends_mapPages_kernel (h : KernelReady cnt page s)
    (hshort : 8 * (s.pool .kernel).btmpBytesLen < (s.pool .kernel).used + cnt → F .assert) :
    ((mapPages .kernel cnt page).on s).Ends F (fun ok t => ok = true ∧ SameKv s t ∧ Backed .kernel page cnt s t ∧
      (s.pool .kernel).used + cnt ≤ 8 * (s.pool .kernel).btmpBytesLen) := by
  refine (ends_mapPages (I := KernelReady) (K := fun _ _ _ => False) (fun _ _ hf => hf) (fun cnt page s i hs _ => ?_) h
    fun hs => hshort (hs.resolve_right id)).mono fun ok t ht => ⟨ht.1, ht.2.2.1, ht.2.2.2.1, ht.2.2.2.2.1⟩
  have hready := hs.take .kernel i
  have hadd : Added .kernel page (PoolFlags.kernel.start + i) (s.take .kernel i) _ := added_putKpte hs.above _
  exact ends_pageTableAdd_kernel hs.above (hready.fresh page le_rfl (by omega)) ⟨hadd, hready.next hadd, Iff.rfl⟩

structure UserFresh (a cnt page : Nat) (s : Mm) : Prop where
  below : page + cnt ≤ kernelBase
  fresh : ∀ w, page ≤ w → w < page + cnt → s.frameOf w = none
  listed : Listed s
  active : s.active = a

def TablesShort (cnt page : Nat) (s : Mm) : Prop :=
  8 * s.kernelPool.btmpBytesLen < s.kernelPool.used + (missing s page cnt).card

theorem ends_mapPages_user {a : Nat} (h : UserFresh a cnt page s)
    (hshort : 8 * (s.pool .user).btmpBytesLen < (s.pool .user).used + cnt ∨ TablesShort cnt page s → F .assert) :
    ((mapPages .user cnt page).on s).Ends F (fun ok t => ok = true ∧ UserFresh a 0 (page + cnt) t ∧ SameKv s t ∧
      Backed .user page cnt s t ∧ (s.pool .user).used + cnt ≤ 8 * (s.pool .user).btmpBytesLen ∧ ¬TablesShort cnt page s) := by
  refine ends_mapPages (I := UserFresh a) (K := TablesShort) (fun page s hs => ?_) (fun cnt page s i hs hk => ?_) h hshort
  · rw [TablesShort, missing, Finset.range_zero, Finset.image_empty, Finset.filter_empty, Finset.card_empty] at hs
    have := Ndebug.used_le s.kernelPool
    omega
  · have hlisted : Listed (s.take .user i) := ⟨hs.listed.task, hs.listed.apart, hs.listed.taken⟩
    have hfresh : ∀ w, page ≤ w → w < page + (cnt + 1) → (s.take .user i).frameOf w = none := fun w h₁ h₂ =>
      (frameOf_take w).trans (hs.fresh w h₁ h₂)
    have hbelow := hs.below
    refine ends_pageTableAdd_user hlisted (by omega) (hfresh page le_rfl (by omega)) (fun hnone hfull => hk ?_) fun t ht => ?_
    · -- the table of this page is one of those that are missing
      have hmem : page / 1024 ∈ missing s page (cnt + 1) := mem_missing.mpr ⟨⟨page, le_rfl, by omega, rfl⟩, hnone⟩
      have hcard := Finset.card_pos.mpr ⟨_, hmem⟩
      have hfull' : s.kernelPool.used = 8 * s.kernelPool.btmpBytesLen := hfull
      rw [TablesShort]
      omega
    · refine ⟨ht.toAdded, ⟨by omega, ht.fresh hfresh, ht.listed, ht.active.trans hs.active⟩, ?_⟩
      rw [TablesShort, ht.cost, ht.len]
      exact Iff.rfl

end MapPages

section Malloc

variable {ctx : Ctx} {s t : Mm} {b b' : Bitmap} {cur n i : Nat} {F : Stop → Prop}

theorem Ctx.user_len (p : Nat) : (Ctx.user p).len = 94199 := rfl

theorem Neat.not_overrun {p : Nat} (h : Neat (.user p) s b) : ¬b.Overrun n := by
  intro ho
  have hlen : b.btmpBytesLen = (Ctx.user p).len := h.map.2
  have hmany := ho.many
  have hle := ho.le
  obtain ⟨-, -, hlast⟩ := h.user p rfl
  rw [ho.free _ (by omega) (by omega)] at hlast
  cases hlast

theorem Neat.below_stack {p : Nat} (h : Neat (.user p) s b) (hfit : b.Fits (8 * b.btmpBytesLen) n i) :
    i + n ≤ 8 * (Ctx.user p).len - 1 ∨ n = 0 := by
  have hlen : b.btmpBytesLen = (Ctx.user p).len := h.map.2
  have hin := hfit.within
  obtain ⟨-, -, hlast⟩ := h.user p rfl
  by_contra hc
  rw [hfit.free _ (by omega) (by omega)] at hlast
  cases hlast

theorem Neat.bitPage_lt {p : Nat} (h : Neat (.user p) s b) (hn : 1 ≤ n) (hfit : b.Fits (8 * b.btmpBytesLen) n i) :
    bitPage i < kernelBase - 1 := by
  have hbelow := h.below_stack hfit
  rw [Ctx.user_len] at hbelow
  rw [bitPage, userVaddrStart, kernelBase]
  omega

theorem ends_vaddrGet (hof : ctx.Of cur) (h : Neat ctx s b) (hn : 1 ≤ n) {Q : Option Nat → Mm → Prop}
    (hover : b.Overrun n → ∀ e, F e) (hfull : (∀ i < 8 * b.btmpBytesLen, b.bits.bit i = true) → F .assert)
    (hnone : (∃ i < 8 * b.btmpBytesLen, b.bits.bit i = false) → (∀ i, ¬b.Fits (8 * b.btmpBytesLen) n i) → Q none s)
    (hsome : ∀ i b', b.FirstFit (8 * b.btmpBytesLen) n (some i) → b'.btmpBytesLen = b.btmpBytesLen →
      (∀ j, b'.bits.bit j = if i ≤ j ∧ j < i + n then true else b.bits.bit j) →
      Q (some (ctx.start + i)) (setMap s cur ctx.pf b')) :
    ((vaddrGet cur ctx.pf n).on s).Ends F Q := by
  -- a run that the map does not hold is not marked
  have hset : ∀ i, b.Overrun n ∨ b.FirstFit (8 * b.btmpBytesLen) n (some i) → b.FreeRun i n →
      ((bitmapSetRun true n i b).on s).Ends F (fun b' t => t = s ∧ b.FirstFit (8 * b.btmpBytesLen) n (some i) ∧
        b'.btmpBytesLen = b.btmpBytesLen ∧ ∀ j, b'.bits.bit j = if i ≤ j ∧ j < i + n then true else b.bits.bit j) := by
    intro i hor hrun
    refine ((sat_bitmapSetRun_of true n i b s (hor.imp_right fun hf => hf.1.within)).ends hover).mono fun b' t ht => ?_
    obtain ⟨rfl, hlen, hin, hbits⟩ := ht
    exact ⟨rfl, hor.resolve_left fun ho => ho.none i ⟨hin hn, hrun⟩, hlen, hbits⟩
  have hno : b.Overrun n ∨ b.FirstFit (8 * b.btmpBytesLen) n none → ∀ i, ¬b.Fits (8 * b.btmpBytesLen) n i := by
    rintro (ho | hf)
    · exact ho.none
    · exact hf
  rcases hof with rfl | rfl
  · obtain rfl : s.kernelVaddr = b := Option.some.inj h.map.1
    simp only [Ctx.pf, vaddrGet, bind_on, get_on, Res.ends_bind, Res.ends_done]
    refine ends_bitmapScan hn hfull fun r hfree hor hrun => ?_
    cases r with
    | none => exact hnone hfree (hno hor)
    | some i =>
      simp only [bind_on, get_on, Res.ends_bind, Res.ends_done]
      refine (hset i hor (hrun i rfl)).mono fun b' u hu => ?_
      obtain ⟨rfl, hfit, hlen, hbits⟩ := hu
      exact hsome i b' hfit hlen hbits
  · obtain ⟨x, hx, rfl⟩ := exists_task h.map.1
    simp only [Ctx.pf, vaddrGet, getTask, bind_on, get_on, Res.ends_bind, Res.ends_done, hx, pure_on]
    refine ends_bitmapScan hn hfull fun r hfree hor hrun => ?_
    cases r with
    | none => exact hnone hfree (hno hor)
    | some i =>
      simp only [bind_on, Res.ends_bind, setTask, modify_on, Res.ends_done, ends_assert, pure_on, decide_eq_true_eq,
        decide_eq_false_iff_not]
      refine (hset i hor (hrun i rfl)).mono fun b' u hu => ?_
      obtain ⟨rfl, hfit, hlen, hbits⟩ := hu
      have hput := hsome i b' hfit hlen hbits
      rw [Ctx.pf, setMap, hx] at hput
      exact ⟨fun _ => hput, fun hc => absurd (h.bitPage_lt hn hfit.1) hc⟩

theorem Neat.of_backed (hof : ctx.Of cur) (h : Neat ctx s b) (hlen : b'.btmpBytesLen = b.btmpBytesLen)
    (hbits : ∀ j, b'.bits.bit j = if i ≤ j ∧ j < i + n then true else b.bits.bit j)
    (hkv : SameKv (setMap s cur ctx.pf b') t) (hback : Backed ctx.pf (ctx.start + i) n s t)
    (huser : ∀ p, ctx = .user p → t.active = p ∧ Listed t) : Neat ctx t b' where
  map := ⟨(Ctx.bitmap_same hkv).trans (h.map.setMap hof hlen).1, hlen.trans h.map.2⟩
  fresh j hj hfree := by
    rw [hbits] at hfree
    split at hfree
    · cases hfree
    · next hout =>
      rw [hback.others _ (by omega)]
      exact h.fresh j hj hfree
  user p hp := by
    obtain ⟨hactive, hlisted⟩ := huser p hp
    refine ⟨hactive, hlisted, ?_⟩
    rw [hbits, (h.user p hp).2.2]
    exact ite_self _

theorem Backed.of_setMap {pf : PoolFlags} {page : Nat} (h : Backed pf page n (setMap s cur pf b') t) : Backed pf page n s t := by
  obtain ⟨hframes, hothers⟩ := h
  simp only [Ndebug.pool_setMap, Ndebug.frameOf_setMap] at hframes hothers
  exact ⟨hframes, hothers⟩

theorem ends_mapPages_marked (hof : ctx.Of cur) (h : Neat ctx s b) (hfit : b.Fits (8 * b.btmpBytesLen) n i)
    (hlen : b'.btmpBytesLen = b.btmpBytesLen)
    (hbits : ∀ j, b'.bits.bit j = if i ≤ j ∧ j < i + n then true else b.bits.bit j)
    (hshort : 8 * (s.pool ctx.pf).btmpBytesLen < (s.pool ctx.pf).used + n ∨
      ctx.pf = .user ∧ TablesShort n (userVaddrStart + i) s → F .assert) :
    ((mapPages ctx.pf n (ctx.start + i)).on (setMap s cur ctx.pf b')).Ends F (fun ok t => ok = true ∧ Neat ctx t b' ∧
      Backed ctx.pf (ctx.start + i) n s t ∧ (s.pool ctx.pf).used + n ≤ 8 * (s.pool ctx.pf).btmpBytesLen ∧
        ¬(ctx.pf = .user ∧ TablesShort n (userVaddrStart + i) s)) := by
  have hfresh : ∀ w, ctx.start + i ≤ w → w < ctx.start + i + n → (setMap s cur ctx.pf b').frameOf w = none := by
    intro w h₁ h₂
    have hin := hfit.within
    rw [h.map.2] at hin
    have hnone := h.fresh (w - ctx.start) (by omega) (hfit.free _ (by omega) (by omega))
    rw [Ndebug.frameOf_setMap, ← hnone, Nat.add_sub_cancel' (by omega)]
  cases ctx with
  | kernel =>
    have hready : KernelReady n (kHeapStart + i) (setMap s cur .kernel b') :=
      ⟨by simp only [kHeapStart, kernelBase]; omega, hfresh⟩
    refine (ends_mapPages_kernel hready fun hs => hshort (.inl ?_)).mono fun ok t ht => ?_
    · rwa [Ndebug.pool_setMap] at hs
    · obtain ⟨hok, hkv, hback, hle⟩ := ht
      rw [Ndebug.pool_setMap] at hle
      refine ⟨hok, h.of_backed hof hlen hbits hkv hback.of_setMap fun p hp => (by cases hp), hback.of_setMap, hle, fun hs => ?_⟩
      cases hs.1
  | user p =>
    obtain ⟨hactive, hlisted, -⟩ := h.user p rfl
    have hready : UserFresh p n (userVaddrStart + i) (setMap s cur .user b') := by
      refine ⟨?_, hfresh, hlisted.setMap, Ndebug.active_setMap.trans hactive⟩
      have hin := hfit.within
      rw [h.map.2, Ctx.user_len] at hin
      rw [userVaddrStart, kernelBase]
      omega
    have htables : TablesShort n (userVaddrStart + i) (setMap s cur .user b') ↔ TablesShort n (userVaddrStart + i) s := by
      have hpool : (setMap s cur .user b').kernelPool = s.kernelPool := Ndebug.pool_setMap .kernel
      rw [TablesShort, TablesShort, hpool, Ndebug.missing_setMap]
    have hends := ends_mapPages_user (F := F) hready
    rw [Ndebug.pool_setMap, htables] at hends
    refine (hends fun hs => hshort (hs.imp_right fun ht => ⟨rfl, ht⟩)).mono fun ok t ht => ?_
    obtain ⟨hok, hend, hkv, hback, hle, hno⟩ := ht
    refine ⟨hok, h.of_backed hof hlen hbits hkv hback.of_setMap fun q hq => ?_, hback.of_setMap, hle, fun hs => hno hs.2⟩
    obtain rfl := Ctx.user.inj hq
    exact ⟨hend.active, hend.listed⟩

theorem firstFit_unique {top j : Nat} (hi : b.FirstFit top n (some i)) (hj : b.FirstFit top n (some j)) : i = j := by
  rcases Nat.lt_trichotomy i j with h | h | h
  · exact absurd hi.1 (hj.2 i h)
  · exact h
  · exact absurd hj.1 (hi.2 j h)

theorem ends_mallocPage (hof : ctx.Of cur) (h : Neat ctx s b) (hn : 1 ≤ n) :
    ((mallocPage cur ctx.pf n).on s).Ends (fun e => e = .assert ∧ ¬Ample ctx.pf n s b ∨ b.Overrun n) (fun r t =>
      Ample ctx.pf n s b ∧ (r = none ∧ t = s ∨ ∃ i b', r = some (ctx.start + i) ∧ b.Fits (8 * b.btmpBytesLen) n i ∧
        Neat ctx t b' ∧ Backed ctx.pf (ctx.start + i) n s t)) := by
  rw [mallocPage, bind_on, Res.ends_bind, ends_assert, decide_eq_true_eq, decide_eq_false_iff_not]
  refine ⟨fun hlim => ?_, fun hlim => .inl ⟨rfl, fun ha => hlim ⟨hn, ha.few⟩⟩⟩
  rw [bind_on, Res.ends_bind]
  refine ends_vaddrGet hof h hn (fun ho _ => .inr ho) (fun hfull => .inl ⟨rfl, fun ha => ?_⟩) (fun hroom hno => ?_)
    fun i b' hfit hlen hbits => ?_
  · obtain ⟨i, hi, hbit⟩ := ha.room
    rw [hfull i hi] at hbit
    cases hbit
  · exact ⟨⟨hlim.2, hroom, fun i hf => absurd hf.1 (hno i), fun i hf => absurd hf.1 (hno i)⟩, .inl ⟨rfl, rfl⟩⟩
  · dsimp only
    rw [bind_on, Res.ends_bind]
    refine Res.Ends.mono (ends_mapPages_marked hof h hfit.1 hlen hbits ?_) fun ok t ht => ?_
    · refine fun hs => .inl ⟨rfl, fun ha => ?_⟩
      rcases hs with hs | ⟨hpf, hs⟩
      · have := ha.frames i hfit
        omega
      · have := ha.tables i hfit hpf
        rw [TablesShort] at hs
        omega
    · obtain ⟨rfl, hneat, hback, hle, hno⟩ := ht
      refine ⟨⟨hlim.2, ⟨i, ?_, hfit.1.free i le_rfl (by omega)⟩, fun _ _ => hle, fun j hj hpf => ?_⟩,
        .inr ⟨i, b', rfl, hfit.1, hneat, hback⟩⟩
      · have := hfit.1.within
        omega
      · obtain rfl := firstFit_unique hfit hj
        exact not_lt.mp fun hs => hno ⟨hpf, hs⟩

end Malloc

structure Cleared (page cnt : Nat) (s t : Mm) : Prop where
  frames : ∀ w, t.frameOf w = if page ≤ w ∧ w < page + cnt then none else s.frameOf w
  same : SameKv s t
  tasks : t.tasks = s.tasks
  active : t.active = s.active

theorem Listed.of_tasks {s t : Mm} (h : Listed s) (htasks : t.tasks = s.tasks) (hactive : t.active = s.active)
    (hpool : t.kernelPool = s.kernelPool) : Listed t := by
  have hdir : t.dir t.active = s.dir s.active := by
    funext d
    rw [dir, dir, htasks, hactive]
  refine ⟨?_, ?_, ?_⟩
  · rw [htasks, hactive]
    exact h.task
  · rw [hdir]
    exact h.apart
  · rw [hdir, hpool]
    exact h.taken

section Free

variable {ctx : Ctx} {s : Mm} {b : Bitmap} {cur page n : Nat}

theorem sat_getPte (page : Nat) (s : Mm) : ((getPte page).on s).Sat True (fun e t => t = s ∧
    ∀ f, s.frameOf page = some f → e.frame = f) := by
  have hframe : ∀ {e : Pte} {f : Nat}, e.mapped = some f → e.frame = f := by
    intro e f he
    rw [Pte.mapped] at he
    split at he
    · exact Option.some.inj he
    · cases he
  by_cases hp : page < kernelBase
  · refine (sat_getPte_user hp rfl).mono fun e t ht => ?_
    obtain ⟨rfl, table, hd, rfl⟩ := ht
    refine ⟨rfl, fun f hf => hframe ?_⟩
    rwa [frameOf, if_pos hp, mapped, hd, Option.bind_some] at hf
  · rw [getPte, if_neg hp, sat_bind, sat_get, sat_pure]
    refine ⟨rfl, fun f hf => hframe ?_⟩
    rwa [frameOf, if_neg hp] at hf

theorem sat_pageTablePteRemove (hl : page < kernelBase → Listed s) :
    ((pageTablePteRemove page).on s).Sat True (fun _ t => Cleared page 1 s t ∧ t.kernelPool = s.kernelPool) := by
  have hone : ∀ t : Mm, (∀ w, t.frameOf w = if w = page then none else s.frameOf w) →
      ∀ w, t.frameOf w = if page ≤ w ∧ w < page + 1 then none else s.frameOf w := by
    intro t ht w
    rw [ht]
    exact if_congr (by omega) rfl rfl
  rw [pageTablePteRemove, sat_bind]
  by_cases hp : page < kernelBase
  · refine (sat_getPte_user hp rfl).mono fun e t ht => ?_
    obtain ⟨rfl, table, hd, rfl⟩ := ht
    refine sat_setPte_user hp rfl hd _ ⟨⟨hone _ (Ndebug.frameOf_putPte (hl hp) hp hd _), ⟨rfl, rfl⟩, rfl, rfl⟩, rfl⟩
  · rw [getPte, if_neg hp, sat_bind, sat_get, sat_pure, setPte, if_neg hp, sat_modify]
    exact ⟨⟨hone _ (frameOf_putKpte (by omega) _), ⟨rfl, rfl⟩, rfl, rfl⟩, rfl⟩

theorem sat_pfree_frames (f : Nat) : ((pfree f).on s).Sat True (fun _ t => (∀ w, t.frameOf w = s.frameOf w) ∧
    SameKv s t ∧ t.tasks = s.tasks ∧ t.active = s.active ∧ (PoolFlags.user.start ≤ f → t.kernelPool = s.kernelPool)) := by
  rw [pfree, sat_bind, sat_get, sat_bind, Bitmap.bitmapSet]
  by_cases hf : PoolFlags.user.start ≤ f
  · rw [if_pos hf]
    split
    · exact ⟨fun _ => rfl, ⟨rfl, rfl⟩, rfl, rfl, fun _ => rfl⟩
    · trivial
  · rw [if_neg hf]
    split
    · exact ⟨fun _ => rfl, ⟨rfl, rfl⟩, rfl, rfl, fun h => absurd h hf⟩
    · trivial

theorem sat_unmapPages {P : Prop} {inPool : Nat → Bool} (hP : P → ∀ f, inPool f = true → PoolFlags.user.start ≤ f)
    (hl : P → Listed s) (hrun : ∀ w, page ≤ w → w < page + n → w < kernelBase → P) :
    ((unmapPages inPool n page).on s).Sat True (fun _ t => Cleared page n s t ∧
      (P → t.kernelPool = s.kernelPool)) := by
  induction n generalizing page s with
  | zero => exact ⟨⟨fun w => (if_neg (by omega)).symm, ⟨rfl, rfl⟩, rfl, rfl⟩, fun _ => rfl⟩
  | succ n ih =>
    rw [unmapPages, sat_bind]
    refine (sat_getPte page s).mono fun pte t ht => ?_
    obtain ⟨rfl, -⟩ := ht
    rw [sat_bind, sat_assert]
    refine ⟨fun hin => ?_, fun _ => trivial⟩
    rw [sat_bind]
    refine (sat_pfree_frames pte.frame).mono fun _ u hu => ?_
    obtain ⟨hf, hkv, htasks, hactive, hpool⟩ := hu
    have hlu : P → Listed u := fun hp => Listed.of_tasks (hl hp) htasks hactive (hpool (hP hp _ hin))
    rw [sat_bind]
    refine (sat_pageTablePteRemove fun hb => hlu (hrun page le_rfl (by omega) hb)).mono fun _ v hv => ?_
    obtain ⟨hclear, hpool'⟩ := hv
    refine (ih (fun hp => Listed.of_tasks (hlu hp) hclear.tasks hclear.active hpool') fun w h₁ h₂ => hrun w (by omega) (by omega)).mono
      fun _ w hw => ?_
    obtain ⟨hrest, hpool''⟩ := hw
    refine ⟨⟨fun x => ?_, hkv.trans (hclear.same.trans hrest.same), ?_, ?_⟩, fun hp => ?_⟩
    · rw [hrest.frames, hclear.frames, hf]
      by_cases hx : page + 1 ≤ x ∧ x < page + 1 + n
      · rw [if_pos hx, if_pos (by omega)]
      · rw [if_neg hx]
        exact if_congr (by omega) rfl rfl
    · rw [hrest.tasks, hclear.tasks, htasks]
    · rw [hrest.active, hclear.active, hactive]
    · rw [hpool'' hp, hpool', hpool (hP hp _ hin)]

theorem sat_mfreePage (hof : ctx.Of cur) (h : Neat ctx s b) (hn : 1 ≤ n) (hlo : ctx.start ≤ page)
    (hhi : page + n ≤ ctx.start + 8 * ctx.len)
    (huser : ∀ p, ctx = .user p → page + n < ctx.start + 8 * ctx.len ∧
      ∃ f, s.frameOf page = some f ∧ PoolFlags.user.start ≤ f) :
    ((mfreePage cur ctx.pf page n).on s).Sat True (fun _ t => ∃ b', Neat ctx t b' ∧
      ∀ w, t.frameOf w = if page ≤ w ∧ w < page + n then none else s.frameOf w) := by
  -- what is left after the loop, whichever of the two it was
  have hremove : ∀ u, Cleared page n s u → (∀ p, ctx = .user p → u.kernelPool = s.kernelPool) →
      ((vaddrRemove cur ctx.pf page n).on u).Sat True (fun _ t => ∃ b', Neat ctx t b' ∧
        ∀ w, t.frameOf w = if page ≤ w ∧ w < page + n then none else s.frameOf w) := by
    intro u hu hpool
    have hmap : ctx.Map u b := ⟨(Ctx.bitmap_same hu.same).trans h.map.1, h.map.2⟩
    refine sat_vaddrRemove hof hmap hlo (by omega) fun b' hlen hbits => ⟨b', ⟨?_, fun j hj hfree => ?_, fun p hp => ?_⟩, fun w => ?_⟩
    · exact hmap.setMap hof hlen
    · rw [Ndebug.frameOf_setMap, hu.frames]
      split
      · rfl
      · rw [hbits, if_neg (by omega)] at hfree
        exact h.fresh j hj hfree
    · obtain ⟨hactive, hlisted, hlast⟩ := h.user p hp
      refine ⟨?_, (Listed.of_tasks hlisted hu.tasks hu.active (hpool p hp)).setMap, ?_⟩
      · rw [Ndebug.active_setMap, hu.active, hactive]
      · have hout := (huser p hp).1
        rw [hbits, if_neg (by omega), hlast]
    · rw [Ndebug.frameOf_setMap, hu.frames]
  have hrun : ∀ w, page ≤ w → w < page + n → w < kernelBase → ∃ p, ctx = .user p := by
    intro w h₁ h₂ hw
    cases ctx with
    | kernel =>
      simp only [Ctx.start, Ctx.pf, PoolFlags.vaddrStart, kHeapStart] at hlo
      rw [kernelBase] at hw
      omega
    | user p => exact ⟨p, rfl⟩
  have hlisted : (∃ p, ctx = .user p) → Listed s := by
    rintro ⟨p, hp⟩
    exact (h.user p hp).2.1
  rw [mfreePage]
  simp only [sat_bind, sat_assert]
  refine ⟨fun _ => (sat_getPte page s).mono fun pte t ht => ⟨fun _ => ?_, fun _ => trivial⟩, fun _ => trivial⟩
  obtain ⟨rfl, hpte⟩ := ht
  split
  · rw [sat_bind]
    refine (sat_unmapPages (P := ∃ p, ctx = .user p) (fun _ f hf => of_decide_eq_true hf) hlisted hrun).mono fun _ u hu => ?_
    exact hremove u hu.1 fun p hp => hu.2 ⟨p, hp⟩
  · next hlow =>
    rw [sat_bind]
    have hno : ¬∃ p, ctx = .user p := by
      rintro ⟨p, hp⟩
      obtain ⟨f, hf, hge⟩ := (huser p hp).2
      rw [hpte f hf] at hlow
      exact hlow hge
    refine (sat_unmapPages (P := ∃ p, ctx = .user p) (fun hp => absurd hp hno) hlisted hrun).mono fun _ u hu => ?_
    exact hremove u hu.1 fun p hp => hu.2 ⟨p, hp⟩

end Free

end TrueOs.Mm
