import Mathlib.Data.Finset.Card
import Mathlib.Data.Finset.Range
import TrueOs.Kernel.Memory
import TrueOs.Lib.Keeps

/-! Runs of pages in a bitmap, how many bits of it are set, and what leaves the bitmaps
of virtual addresses alone. -/

namespace TrueOs

namespace Bitmap

variable {σ β : Type} {btmp : Bitmap} {cnt i : Nat}

def FreeRun (btmp : Bitmap) (i cnt : Nat) : Prop := ∀ j, i ≤ j → j < i + cnt → btmp.bits.bit j = false

theorem scanRun_free {bitLeft nextBit count : Nat} (hle : count ≤ nextBit)
    (hrun : btmp.FreeRun (nextBit - count) count) (h : scanRun btmp cnt bitLeft nextBit count = some i) :
    btmp.FreeRun i cnt := by
  induction bitLeft generalizing nextBit count with
  | zero => cases h
  | succ bitLeft ih =>
    rw [scanRun] at h
    have hnext : (if btmp.bitmapScanTest nextBit = true then 0 else count + 1) ≤ nextBit + 1 ∧
        btmp.FreeRun (nextBit + 1 - if btmp.bitmapScanTest nextBit = true then 0 else count + 1)
          (if btmp.bitmapScanTest nextBit = true then 0 else count + 1) := by
      split
      · exact ⟨by omega, fun j hj hj' => by omega⟩
      · next hfree =>
        refine ⟨by omega, fun j hj hj' => ?_⟩
        by_cases hjn : j = nextBit
        · rw [hjn]
          simpa [bitmapScanTest] using hfree
        · exact hrun j (by omega) (by omega)
    generalize (if btmp.bitmapScanTest nextBit = true then 0 else count + 1) = c at h hnext
    split at h
    · next hc =>
      obtain rfl := Option.some.inj h
      rw [← hc]
      exact hnext.2
    · exact ih hnext.1 hnext.2 h

theorem sat_bitmapScan_run (btmp : Bitmap) (cnt : Nat) (s : σ) :
    ((bitmapScan btmp cnt : Prog σ β (Option Nat)).on s).Sat True
      (fun r t => t = s ∧ ∀ i, r = some i → btmp.FreeRun i cnt) := by
  simp only [bitmapScan, Prog.sat_bind, Prog.sat_assert, decide_eq_true_eq]
  refine ⟨fun hlt => ?_, fun _ => trivial⟩
  have hfirst := firstFree_scan hlt
  rw [if_neg (by omega)]
  split
  · next hcnt =>
    refine ⟨rfl, fun i hi j hj hj' => ?_⟩
    obtain rfl := Option.some.inj hi
    obtain rfl : j = _ := Nat.le_antisymm (by omega) hj
    exact hfirst.free
  · refine ⟨rfl, fun i hi => ?_⟩
    refine scanRun_free (by omega) (fun j hj hj' => ?_) hi
    obtain rfl : j = _ := Nat.le_antisymm (by omega) hj
    exact hfirst.free

theorem sat_bitmapScan_some (btmp : Bitmap) (cnt : Nat) (s : σ) :
    ((bitmapScan btmp cnt : Prog σ β (Option Nat)).on s).Sat True
      (fun r _ => cnt = 1 → r.isSome = true) := by
  by_cases hcnt : cnt = 1
  · subst hcnt
    exact sat_bitmapScan_one (.inl trivial) fun _ _ _ => rfl
  · exact (Res.sat_top trivial _).mono fun _ _ _ h => absurd h hcnt

def used (btmp : Bitmap) : Nat :=
  ((Finset.range (8 * btmp.btmpBytesLen)).filter (fun i => btmp.bits.bit i = true)).card

theorem used_set_true (hi : i < 8 * btmp.btmpBytesLen) (hfree : btmp.bits.bit i = false) :
    used { btmp with bits := btmp.bits.setBit i true } = used btmp + 1 := by
  rw [used, used, ← Finset.card_insert_of_notMem (a := i) (by simp [hfree])]
  congr 1
  ext j
  simp only [Finset.mem_filter, Finset.mem_range, Finset.mem_insert, Buf.bit_setBit]
  by_cases hj : j = i
  · simp [hj, hi]
  · simp [hj]

theorem used_le_set (btmp : Bitmap) (i : Nat) (v : Bool) :
    used btmp ≤ used { btmp with bits := btmp.bits.setBit i v } + 1 := by
  refine (Finset.card_le_card ?_).trans (Finset.card_insert_le i _)
  intro j hj
  simp only [Finset.mem_filter, Finset.mem_range, Finset.mem_insert, Buf.bit_setBit] at hj ⊢
  by_cases hji : j = i
  · exact Or.inl hji
  · exact Or.inr ⟨hj.1, by rw [if_neg hji]; exact hj.2⟩

end Bitmap

namespace Mm

open Prog

section Runs

variable {m : Mm} {btmp : Bitmap} {n i : Nat}

theorem sat_bitmapSetRun_of {E : Prop} (value : Bool) (n i : Nat) (btmp : Bitmap) (m : Mm)
    (hE : E ∨ i + n ≤ 8 * btmp.btmpBytesLen) :
    ((bitmapSetRun value n i btmp).on m).Sat E (fun b t => t = m ∧
      b.btmpBytesLen = btmp.btmpBytesLen ∧ (0 < n → i + n ≤ 8 * btmp.btmpBytesLen) ∧
        ∀ j, b.bits.bit j = if i ≤ j ∧ j < i + n then value else btmp.bits.bit j) := by
  induction n generalizing i btmp with
  | zero => exact ⟨rfl, rfl, fun h => absurd h (by omega), fun j => by rw [if_neg (by omega)]⟩
  | succ n ih =>
    rw [bitmapSetRun, sat_bind, Bitmap.bitmapSet]
    split
    · next hi =>
      rw [sat_pure]
      refine (ih (i + 1) _ (hE.imp_right fun h => by dsimp only; omega)).mono fun b t ht => ?_
      obtain ⟨rfl, hlen, hin, hbits⟩ := ht
      dsimp only at hlen hin hbits
      refine ⟨rfl, hlen, fun _ => ?_, fun j => ?_⟩
      · by_cases hn : 0 < n
        · have := hin hn
          omega
        · omega
      · rw [hbits, Buf.bit_setBit]
        by_cases hji : j = i
        · rw [if_neg (by omega), if_pos hji, if_pos (by omega)]
        · rw [if_neg hji]
          congr 1
          exact propext ⟨fun h => by omega, fun h => by omega⟩
    · exact hE.resolve_right (by omega)

theorem sat_bitmapSetRun (value : Bool) (n i : Nat) (btmp : Bitmap) (m : Mm) :
    ((bitmapSetRun value n i btmp).on m).Sat True (fun b t => t = m ∧
      b.btmpBytesLen = btmp.btmpBytesLen ∧ (0 < n → i + n ≤ 8 * btmp.btmpBytesLen) ∧
        ∀ j, b.bits.bit j = if i ≤ j ∧ j < i + n then value else btmp.bits.bit j) :=
  sat_bitmapSetRun_of value n i btmp m (.inl trivial)

theorem used_setRun_true (hfree : btmp.FreeRun i n) (m : Mm) :
    ((bitmapSetRun true n i btmp).on m).Sat True
      (fun b t => t = m ∧ b.used = btmp.used + n) := by
  induction n generalizing i btmp with
  | zero => exact ⟨rfl, rfl⟩
  | succ n ih =>
    rw [bitmapSetRun, sat_bind, Bitmap.bitmapSet]
    split
    · rw [sat_pure]
      have hrest : Bitmap.FreeRun { btmp with bits := btmp.bits.setBit i true } (i + 1) n := by
        intro j hj hj'
        dsimp only
        rw [Buf.bit_setBit_of_ne (by omega)]
        exact hfree j (by omega) (by omega)
      refine (ih hrest).mono fun b t ht => ⟨ht.1, ?_⟩
      rw [ht.2, Bitmap.used_set_true (by omega) (hfree i (by omega) (by omega))]
      omega
    · trivial

theorem used_setRun_le (value : Bool) (n i : Nat) (btmp : Bitmap) (m : Mm) :
    ((bitmapSetRun value n i btmp).on m).Sat True
      (fun b t => t = m ∧ btmp.used ≤ b.used + n) := by
  induction n generalizing i btmp with
  | zero => exact ⟨rfl, le_rfl⟩
  | succ n ih =>
    rw [bitmapSetRun, sat_bind, Bitmap.bitmapSet]
    split
    · rw [sat_pure]
      refine (ih (i + 1) _).mono fun b t ht => ⟨ht.1, ?_⟩
      have := Bitmap.used_le_set btmp i value
      omega
    · trivial

end Runs

def maps (m : Mm) (p : Nat) : Option Bitmap := (m.tasks p).map (fun t => t.vaddrBitmap)

structure SameKv (s t : Mm) : Prop where
  kv : t.kernelVaddr = s.kernelVaddr
  maps : t.maps = s.maps

instance : IsPreorder Mm SameKv where
  refl _ := ⟨rfl, rfl⟩
  trans _ _ _ h h' := ⟨h'.kv.trans h.kv, h'.maps.trans h.maps⟩

theorem SameKv.trans {s t u : Mm} (h : SameKv s t) (h' : SameKv t u) : SameKv s u := IsTrans.trans s t u h h'

theorem maps_update (m : Mm) (p : Nat) (t : Task) :
    ({ m with tasks := Function.update m.tasks p (some t) } : Mm).maps =
      Function.update m.maps p (some t.vaddrBitmap) := by
  funext q
  by_cases h : q = p
  · subst h
    simp only [maps, Function.update_self, Option.map_some]
  · simp only [maps, Function.update_of_ne h]

theorem maps_update_self {m : Mm} {p : Nat} {t t' : Task} (h : m.tasks p = some t)
    (ht : t'.vaddrBitmap = t.vaddrBitmap) :
    ({ m with tasks := Function.update m.tasks p (some t') } : Mm).maps = m.maps := by
  rw [maps_update, Function.update_eq_self_iff, maps, h, Option.map_some, ht]

section Frame

theorem keeps_getTask (p : Nat) : Keeps SameKv (getTask p) := by
  refine .bind keeps_get fun m => ?_
  split
  · exact keeps_pure _
  · exact keeps_halt _

theorem sat_getTask_eq (p : Nat) (s : Mm) : ((getTask p).on s).Sat True
    (fun t u => u = s ∧ s.tasks p = some t) := by
  simp only [getTask, sat_bind, sat_get]
  cases h : s.tasks p with
  | none => trivial
  | some t => exact ⟨rfl, rfl⟩

theorem keeps_bitmapSet (btmp : Bitmap) (i : Nat) (v : Bool) :
    Keeps SameKv (btmp.bitmapSet i v : Prog Mm Buf Bitmap) :=
  .ite (keeps_pure _) (keeps_halt _)

theorem keeps_bitmapScan (btmp : Bitmap) (n : Nat) :
    Keeps SameKv (btmp.bitmapScan n : Prog Mm Buf (Option Nat)) :=
  .bind (keeps_assert _) fun _ => .ite (keeps_pure _) (.ite (keeps_pure _) (keeps_pure _))

theorem keeps_setPool (pf : PoolFlags) (b : Bitmap) :
    Keeps SameKv (modify (fun m => m.setPool pf b) : Prog Mm Buf Unit) := by
  refine keeps_modify fun m => ?_
  cases pf with
  | kernel => exact ⟨rfl, rfl⟩
  | user => exact ⟨rfl, rfl⟩

theorem keeps_palloc (pf : PoolFlags) : Keeps SameKv (palloc pf) := by
  refine .bind keeps_get fun m => .bind (keeps_bitmapScan _ _) fun r => ?_
  split
  · exact keeps_pure _
  · refine .bind keeps_get fun m => .bind (keeps_bitmapSet _ _ _) fun b => ?_
    exact .bind (keeps_setPool pf b) fun _ => keeps_pure _

theorem keeps_getPte (page : Nat) : Keeps SameKv (getPte page) := by
  refine .ite (.bind keeps_get fun m => ?_) (.bind keeps_get fun _ => keeps_pure _)
  split
  · exact .bind keeps_get fun _ => keeps_pure _
  · exact keeps_halt _

theorem keeps_setPte (page : Nat) (pte : Pte) : Keeps SameKv (setPte page pte) := by
  refine .ite (.bind keeps_get fun m => ?_) (keeps_modify fun _ => ⟨rfl, rfl⟩)
  split
  · exact keeps_modify fun _ => ⟨rfl, rfl⟩
  · exact keeps_halt _

theorem keeps_newTable (page : Nat) : Keeps SameKv (newTable page) := by
  refine .bind (keeps_palloc _) fun r => ?_
  split
  · exact keeps_halt _
  · refine .bind keeps_get fun m => fun s => ?_
    rw [sat_bind]
    refine (sat_getTask_eq _ s).mono fun t u hu => ?_
    obtain ⟨rfl, ht⟩ := hu
    exact ⟨rfl, maps_update_self (m := u) ht rfl⟩

theorem keeps_pageTableAdd (page frame : Nat) : Keeps SameKv (pageTableAdd page frame) := by
  have hset : Keeps SameKv (do
      let pte ← getPte page
      assert (!pte.present)
      setPte page ⟨frame, true⟩) :=
    .bind (keeps_getPte page) fun _ => .bind (keeps_assert _) fun _ => keeps_setPte _ _
  exact .bind keeps_get fun m => .ite (.bind (keeps_newTable page) fun _ => hset) hset

theorem keeps_mapPages (pf : PoolFlags) (cnt page : Nat) : Keeps SameKv (mapPages pf cnt page) := by
  induction cnt generalizing page with
  | zero => exact keeps_pure _
  | succ cnt ih =>
    refine .bind (keeps_palloc pf) fun r => ?_
    split
    · exact keeps_pure _
    · exact .bind (keeps_pageTableAdd _ _) fun _ => ih _

theorem keeps_readPage (page : Nat) : Keeps SameKv (readPage page) :=
  .bind (keeps_getPte page) fun _ => .ite (.bind keeps_get fun _ => keeps_pure _) (keeps_halt _)

theorem keeps_writePage (page : Nat) (b : Buf) : Keeps SameKv (writePage page b) :=
  .bind (keeps_getPte page) fun _ => .ite (keeps_modify fun _ => ⟨rfl, rfl⟩) (keeps_halt _)

theorem keeps_clearPages (cnt page : Nat) : Keeps SameKv (clearPages cnt page) := by
  induction cnt generalizing page with
  | zero => exact keeps_pure _
  | succ cnt ih => exact .bind (keeps_writePage _ _) fun _ => ih _

theorem keeps_pfree (frame : Nat) : Keeps SameKv (pfree frame) :=
  .bind keeps_get fun _ => .bind (keeps_bitmapSet _ _ _) fun b => keeps_setPool _ b

theorem keeps_unmapPages (inPool : Nat → Bool) (cnt page : Nat) :
    Keeps SameKv (unmapPages inPool cnt page) := by
  induction cnt generalizing page with
  | zero => exact keeps_pure _
  | succ cnt ih =>
    refine .bind (keeps_getPte page) fun pte => .bind (keeps_assert _) fun _ => ?_
    refine .bind (keeps_pfree _) fun _ => .bind ?_ fun _ => ih _
    exact .bind (keeps_getPte page) fun _ => keeps_setPte _ _

end Frame

end Mm

end TrueOs
