import Mathlib.Data.List.Perm.Subperm
import TrueOs.Kernel.Heap
import TrueOs.Kernel.Pages

/-! Arenas, their blocks and the free lists of one heap. -/

namespace TrueOs

namespace Mm

open Prog

def PoolFlags.vaddrStart : PoolFlags → Nat
  | .kernel => kHeapStart
  | .user => userVaddrStart

def PoolFlags.vaddrLen : PoolFlags → Nat
  | .kernel => 480
  | .user => userBitmapLen

def Ctx.start (ctx : Ctx) : Nat := ctx.pf.vaddrStart

def Ctx.len (ctx : Ctx) : Nat := ctx.pf.vaddrLen

def Ctx.bitmap (m : Mm) : Ctx → Option Bitmap
  | .kernel => some m.kernelVaddr
  | .user p => m.maps p

def Ctx.Map (ctx : Ctx) (m : Mm) (b : Bitmap) : Prop := ctx.bitmap m = some b ∧ b.btmpBytesLen = ctx.len

def Ctx.Taken (ctx : Ctx) (b : Bitmap) (q : Nat) : Prop :=
  ctx.start ≤ q ∧ q < ctx.start + 8 * ctx.len ∧ b.bits.bit (q - ctx.start) = true

def Ctx.Of (ctx : Ctx) (cur : Nat) : Prop := ctx = .kernel ∨ ctx = .user cur

def setMap (m : Mm) (cur : Nat) : PoolFlags → Bitmap → Mm
  | .kernel, b => { m with kernelVaddr := b }
  | .user, b => (m.tasks cur).elim m fun x =>
    { m with tasks := Function.update m.tasks cur (some { x with vaddrBitmap := b }) }

section Pages

variable {ctx : Ctx} {m : Mm} {b b' : Bitmap} {cur : Nat}

theorem Ctx.bitmap_same {t : Mm} (h : SameKv m t) : ctx.bitmap t = ctx.bitmap m := by
  cases ctx with
  | kernel => exact congrArg some h.kv
  | user p => exact congrFun h.maps p

theorem exists_task (h : m.maps cur = some b) : ∃ x, m.tasks cur = some x ∧ x.vaddrBitmap = b :=
  Option.map_eq_some_iff.mp h

theorem Ctx.Map.setMap (hmap : ctx.Map m b) (hof : ctx.Of cur) (hlen : b'.btmpBytesLen = b.btmpBytesLen) :
    ctx.Map (m.setMap cur ctx.pf b') b' := by
  refine ⟨?_, hlen.trans hmap.2⟩
  rcases hof with rfl | rfl
  · rfl
  · obtain ⟨x, hx, -⟩ := exists_task hmap.1
    rw [Ctx.pf, Mm.setMap, hx, Option.elim_some, Ctx.bitmap, maps_update, Function.update_self]

theorem PoolFlags.vaddrEnd_le (pf : PoolFlags) : pf.vaddrStart + 8 * pf.vaddrLen ≤ 0x100000 := by
  cases pf with
  | kernel =>
    simp only [vaddrStart, vaddrLen, kHeapStart]
    omega
  | user =>
    simp only [vaddrStart, vaddrLen, userBitmapLen, userVaddrStart, kernelBase]
    omega

theorem Ctx.end_le (ctx : Ctx) : ctx.start + 8 * ctx.len ≤ 0x100000 := ctx.pf.vaddrEnd_le

theorem Ctx.start_pos (ctx : Ctx) : 0 < ctx.start := by
  cases ctx <;> simp only [start, pf, PoolFlags.vaddrStart, kHeapStart, userVaddrStart] <;> omega

theorem sat_vaddrGet_ctx (hof : ctx.Of cur) (hmap : ctx.Map m b) (n : Nat) :
    ((vaddrGet cur ctx.pf n).on m).Sat True (fun r t => ∃ b', ctx.Map t b' ∧
      (∀ j, b.bits.bit j = true → b'.bits.bit j = true) ∧ ∀ v ∈ r, 0 < n → ctx.start ≤ v ∧
        v + n ≤ ctx.start + 8 * ctx.len ∧ ∀ j < n, b.bits.bit (v - ctx.start + j) = false ∧
          b'.bits.bit (v - ctx.start + j) = true) := by
  have hset : ∀ (i : Nat) (u : Mm), b.FreeRun i n → ((bitmapSetRun true n i b).on u).Sat True
      (fun b' t => t = u ∧ b'.btmpBytesLen = ctx.len ∧ (∀ j, b.bits.bit j = true → b'.bits.bit j = true) ∧
        (0 < n → i + n ≤ 8 * ctx.len) ∧ ∀ j < n, b.bits.bit (i + j) = false ∧ b'.bits.bit (i + j) = true) := by
    intro i u hfree
    refine (sat_bitmapSetRun true n i b u).mono fun b' t ht => ?_
    obtain ⟨rfl, hlen, hin, hbits⟩ := ht
    rw [hmap.2] at hlen hin
    refine ⟨rfl, hlen, fun j hj => ?_, hin, fun j hj => ⟨hfree _ (by omega) (by omega), ?_⟩⟩
    · rw [hbits]
      split
      · rfl
      · exact hj
    · rw [hbits, if_pos (by omega)]
  have hgive : ∀ {i v : Nat} {b' : Bitmap}, v = ctx.start + i → (0 < n → i + n ≤ 8 * ctx.len) →
      (∀ j < n, b.bits.bit (i + j) = false ∧ b'.bits.bit (i + j) = true) → 0 < n → ctx.start ≤ v ∧
        v + n ≤ ctx.start + 8 * ctx.len ∧ ∀ j < n, b.bits.bit (v - ctx.start + j) = false ∧
          b'.bits.bit (v - ctx.start + j) = true := by
    rintro i v b' rfl hin hnew hn
    have := hin hn
    refine ⟨by omega, by omega, fun j hj => ?_⟩
    rw [Nat.add_sub_cancel_left]
    exact hnew j hj
  rcases hof with rfl | rfl
  · rw [Ctx.pf, vaddrGet]
    obtain rfl : m.kernelVaddr = b := Option.some.inj hmap.1
    simp only [sat_bind, sat_get]
    refine (Bitmap.sat_bitmapScan_run _ _ m).mono fun r t ht => ?_
    obtain ⟨rfl, hrun⟩ := ht
    cases r with
    | none => exact ⟨_, hmap, fun _ hj => hj, fun v hv => by cases hv⟩
    | some i =>
      simp only [sat_bind, sat_get]
      refine (hset i t (hrun i rfl)).mono fun b' u hu => ?_
      obtain ⟨rfl, hlen, hmono, hin, hnew⟩ := hu
      exact ⟨b', ⟨rfl, hlen⟩, hmono, fun v hv => hgive (Option.some.inj hv).symm hin hnew⟩
  · obtain ⟨x, hx, rfl⟩ := exists_task hmap.1
    rw [Ctx.pf, vaddrGet, sat_bind]
    simp only [getTask, sat_bind, sat_get, hx, sat_pure]
    refine (Bitmap.sat_bitmapScan_run _ _ m).mono fun r u hu => ?_
    obtain ⟨rfl, hrun⟩ := hu
    cases r with
    | none => exact ⟨_, hmap, fun _ hj => hj, fun v hv => by cases hv⟩
    | some i =>
      dsimp only
      rw [sat_bind]
      refine (hset i u (hrun i rfl)).mono fun b' v hv => ?_
      obtain ⟨rfl, hlen, hmono, hin, hnew⟩ := hv
      rw [setTask, sat_bind, sat_modify, sat_bind, sat_assert]
      refine ⟨fun _ => ⟨b', ⟨?_, hlen⟩, hmono, fun v' hv => hgive (Option.some.inj hv).symm hin hnew⟩,
        fun _ => trivial⟩
      rw [Ctx.bitmap, maps_update, Function.update_self]

theorem sat_mallocPage_ctx (hof : ctx.Of cur) (hmap : ctx.Map m b) (n : Nat) :
    ((mallocPage cur ctx.pf n).on m).Sat True (fun r t => ∃ b', ctx.Map t b' ∧
      (∀ j, b.bits.bit j = true → b'.bits.bit j = true) ∧ ∀ v ∈ r, ctx.start ≤ v ∧
        v + n ≤ ctx.start + 8 * ctx.len ∧ ∀ j < n, b.bits.bit (v - ctx.start + j) = false ∧
          b'.bits.bit (v - ctx.start + j) = true) := by
  rw [mallocPage, sat_bind, sat_assert]
  refine ⟨fun hn => ?_, fun _ => trivial⟩
  have hpos : 0 < n := (of_decide_eq_true hn).1
  rw [sat_bind]
  refine (sat_vaddrGet_ctx hof hmap n).mono fun r t ht => ?_
  obtain ⟨b', hmap', hmono, hnew⟩ := ht
  cases r with
  | none => exact ⟨b', hmap', hmono, fun v hv => by cases hv⟩
  | some page =>
    dsimp only
    rw [sat_bind]
    refine (keeps_mapPages ctx.pf n page t).mono fun ok u hu => ?_
    have hmap'' : ctx.Map u b' := ⟨(Ctx.bitmap_same hu).trans hmap'.1, hmap'.2⟩
    cases ok with
    | false => exact ⟨b', hmap'', hmono, fun v hv => by cases hv⟩
    | true => exact ⟨b', hmap'', hmono, fun v hv => hnew v hv hpos⟩

theorem sat_vaddrRemove {page n : Nat} (hof : ctx.Of cur) (hmap : ctx.Map m b) (hlo : ctx.start ≤ page)
    (hhi : page < ctx.start + 8 * ctx.len) {Q : Unit → Mm → Prop}
    (hQ : ∀ b', b'.btmpBytesLen = b.btmpBytesLen → (∀ j, b'.bits.bit j =
      if page - ctx.start ≤ j ∧ j < page - ctx.start + n then false else b.bits.bit j) → Q () (m.setMap cur ctx.pf b')) :
    ((vaddrRemove cur ctx.pf page n).on m).Sat True Q := by
  have hend := ctx.end_le
  have hbit : bitOf page ctx.start = page - ctx.start := by
    rw [bitOf]
    omega
  rcases hof with rfl | rfl
  · obtain rfl : m.kernelVaddr = b := Option.some.inj hmap.1
    rw [Ctx.pf, vaddrRemove]
    simp only [sat_bind, sat_get]
    rw [show bitOf page kHeapStart = _ from hbit]
    refine (sat_bitmapSetRun false n _ _ m).mono fun b' t ht => ?_
    obtain ⟨rfl, hlen, -, hbits⟩ := ht
    exact hQ b' hlen hbits
  · obtain ⟨x, hx, rfl⟩ := exists_task hmap.1
    rw [Ctx.pf, vaddrRemove]
    simp only [sat_bind, sat_get, getTask, hx, sat_pure, setTask]
    rw [show bitOf page userVaddrStart = _ from hbit]
    refine (sat_bitmapSetRun false n _ _ m).mono fun b' t ht => ?_
    obtain ⟨rfl, hlen, -, hbits⟩ := ht
    have hput := hQ b' hlen hbits
    rw [Ctx.pf, setMap, hx] at hput
    exact hput

theorem sat_mfreePage_ctx (hof : ctx.Of cur) (hmap : ctx.Map m b) {page : Nat} (hlo : ctx.start ≤ page)
    (hhi : page < ctx.start + 8 * ctx.len) (n : Nat) :
    ((mfreePage cur ctx.pf page n).on m).Sat True (fun _ t => ∃ b', ctx.Map t b' ∧
      ∀ j, ¬(page - ctx.start ≤ j ∧ j < page - ctx.start + n) → b'.bits.bit j = b.bits.bit j) := by
  have hremove : ∀ u : Mm, SameKv m u → ((vaddrRemove cur ctx.pf page n).on u).Sat True
      (fun _ t => ∃ b', ctx.Map t b' ∧
        ∀ j, ¬(page - ctx.start ≤ j ∧ j < page - ctx.start + n) → b'.bits.bit j = b.bits.bit j) := by
    intro u hu
    have hmap' : ctx.Map u b := ⟨(Ctx.bitmap_same hu).trans hmap.1, hmap.2⟩
    refine sat_vaddrRemove hof hmap' hlo hhi fun b' hlen hbits => ⟨b', hmap'.setMap hof hlen, fun j hj => ?_⟩
    rw [hbits, if_neg hj]
  rw [mfreePage]
  simp only [sat_bind, sat_assert]
  refine ⟨fun _ => ?_, fun _ => trivial⟩
  refine (keeps_getPte page m).mono fun pte t ht => ⟨fun _ => ?_, fun _ => trivial⟩
  split
  · rw [sat_bind]
    exact (keeps_unmapPages _ _ _ t).mono fun _ u hu => hremove u (IsTrans.trans m t u ht hu)
  · rw [sat_bind]
    exact (keeps_unmapPages _ _ _ t).mono fun _ u hu => hremove u (IsTrans.trans m t u ht hu)

end Pages

end Mm

end TrueOs
