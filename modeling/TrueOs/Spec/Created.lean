import TrueOs.Lib.CString
import TrueOs.Spec.Deleting
import Mathlib.Data.List.ProdSigma

/-! A name that `create_dir_entry` and `sync_dir_entry` have stored, and what `search_dir_entry` makes of it.
The slots are taken as bytes here: a name may fill its field, and a type may be anything. -/

namespace TrueOs.Fs

open Prog

def View.block (w : View) (sec : Nat → Nat) (k : Nat) : Buf :=
  if w.addr sec k = 0 then fun _ => 0 else w.blk (w.addr sec k)

def hitIn (b : Buf) (name : List UInt8) (j : Nat) : Option DirEntry :=
  if b.strEq (24 * j) name then some (DirEntry.ofBytes b (24 * j)) else none

def slots (ks : List Nat) : List (Nat × Nat) := ks ×ˢ List.range 21

def View.search (w : View) (sec : Nat → Nat) (name : List UInt8) : Option DirEntry :=
  (slots (List.range 140)).findSome? fun x => hitIn (w.block sec x.1) name x.2

structure Legible (g : Geom) (w : View) (sec : Nat → Nat) : Prop where
  tbl : sec 12 ≠ 0 → g.base ≤ sec 12 ∧ sec 12 ≤ maxLba
  addr : ∀ k < 140, w.addr sec k ≠ 0 → g.base ≤ w.addr sec k ∧ w.addr sec k ≤ maxLba

section Search

variable {g : Geom} {w : View} {m : Mem} {s : Fs} {E : Prop} {sec : Nat → Nat} {name : List UInt8}
  {b : Buf} {j : Nat} {d : DirRef} {i : Inode}

theorem hitIn_of_nul (h : b (24 * j) = 0) (hne : name ≠ []) (hnul : 0 ∉ name) : hitIn b name j = none := by
  cases name with
  | nil => exact absurd rfl hne
  | cons c cs =>
    have hc : c ≠ 0 := fun h0 => hnul (h0 ▸ List.mem_cons_self)
    simp [hitIn, Buf.strEq, h, Ne.symm hc]

theorem find_hitIn (b : Buf) (name : List UInt8) (l : List Nat) :
    l.findSome? (hitIn b name) = (l.find? fun j => b.strEq (24 * j) name).map fun j => DirEntry.ofBytes b (24 * j) := by
  induction l with
  | nil => rfl
  | cons j l ih =>
    rw [List.findSome?_cons, List.find?_cons, hitIn]
    cases b.strEq (24 * j) name with
    | true => rfl
    | false => exact ih

theorem sat_searchBlocks_raw (h : At g w m s) (hd : Legible g w sec) (hne : name ≠ [])
    (hnul : 0 ∉ name) (ks : List Nat) (hks : ∀ k ∈ ks, k < 140) {Q : Option DirEntry → Fs → Prop}
    (hQ : Q ((slots ks).findSome? fun x => hitIn (w.block sec x.1) name x.2) s) :
    ((searchBlocks name (w.addr sec) ks).on s).Sat E Q := by
  induction ks with
  | nil => exact hQ
  | cons k ks ih =>
    have hks' : ∀ k ∈ ks, k < 140 := fun k hk => hks k (List.mem_cons_of_mem _ hk)
    have hcons : (slots (k :: ks)).findSome? (fun x => hitIn (w.block sec x.1) name x.2) =
        ((List.range 21).findSome? (hitIn (w.block sec k) name)).or
          ((slots ks).findSome? fun x => hitIn (w.block sec x.1) name x.2) := by
      rw [slots, List.product_cons, List.findSome?_append, List.findSome?_map]
      rfl
    rw [hcons] at hQ
    simp only [searchBlocks, ite_on]
    by_cases ha : w.addr sec k = 0
    · have hnone : (List.range 21).findSome? (hitIn (w.block sec k) name) = none := by
        rw [List.findSome?_eq_none_iff]
        intro j _
        rw [View.block, if_pos ha]
        exact hitIn_of_nul rfl hne hnul
      rw [hnone, Option.none_or] at hQ
      rw [if_pos ha]
      exact ih hks' hQ
    · obtain ⟨h₁, h₂⟩ := hd.addr k (hks k List.mem_cons_self) ha
      rw [find_hitIn, View.block, if_neg ha] at hQ
      rw [if_neg ha, sat_bind]
      apply sat_readBlk h (Or.inr h₂) h₁
      simp only [bind_on, get_on, Res.bind, h.sb, g.entrySize]
      cases hf : (List.range 21).find? fun j => (w.blk (w.addr sec k)).strEq (24 * j) name with
      | none =>
        rw [hf] at hQ
        exact ih hks' hQ
      | some j =>
        rw [hf] at hQ
        exact hQ

theorem run_searchDirEntry_raw (h : At g w m s) (hp : m.inodes (d.ptr m) = some i) (hd : Legible g w i.iSectors)
    (hne : name ≠ []) (hnul : 0 ∉ name) :
    ((searchDirEntry d name).on s).run = .ok (w.search i.iSectors name, s) := by
  have hsat : ((searchDirEntry d name).on s).Sat False (fun r t => r = w.search i.iSectors name ∧ t = s) := by
    rw [searchDirEntry, sat_bind]
    apply sat_dirInode h
    rw [sat_bind]
    apply sat_getInode h hp
    rw [searchIn, sat_bind]
    apply sat_dirBlocks h hd.tbl
    exact sat_searchBlocks_raw h hd hne hnul _ (fun k hk => List.mem_range.mp hk) ⟨rfl, rfl⟩
  obtain ⟨r, t, hr, rfl, rfl⟩ := hsat.exists_run
  exact hr

end Search

/-- A slot in which `create_dir_entry` can have left something: the type is a `uint8_t`, and a slot that is free
has no name. -/
structure SlotOk (b : Buf) (j : Nat) : Prop where
  ty : (DirEntry.ofBytes b (24 * j)).fType < 256
  free : (DirEntry.ofBytes b (24 * j)).fType = ftUnknown → b (24 * j) = 0

def stored (b : Buf) (j : Nat) (e : Ent) : Buf := (b.splice (24 * j) 24 e.entry.bytes).slice 0 512

section Stored

variable {b : Buf} {j j' : Nat} {e : Ent} {name : List UInt8}

theorem SlotOk.nul (h : SlotOk b j) : b (24 * j + 21) = 0 := by
  have hty := h.ty
  simp only [DirEntry.ofBytes, Buf.word] at hty
  have h21 : (b (24 * j + 20 + 1)).toNat = 0 := by omega
  exact UInt8.toNat_inj.mp h21

theorem bytes_nul (h : e.ty < 256) : e.entry.bytes (24 * 0 + 21) = 0 := by
  show UInt8.ofNat (e.ty / 256) = 0
  rw [Nat.div_eq_of_lt h]
  rfl

theorem hitIn_stored_self (hj : j < 21) (hty : e.ty < 256) (hn : 0 ∉ name) :
    hitIn (stored b j e) name j = hitIn e.entry.bytes name 0 := by
  have hbytes : ∀ x < 24, stored b j e (24 * j + x) = e.entry.bytes (24 * 0 + x) := by
    intro x hx
    rw [stored, Buf.slice_of_lt (by omega), Buf.splice_of_mem (by omega) (by omega)]
    congr 1
    omega
  rw [hitIn, hitIn, entryBytes_congr hbytes,
    Buf.strEq_of_nul (bytes_nul hty) (fun i hi => hbytes i (by omega)) hn]

theorem hitIn_stored_of_ne (hj : j' < 21) (hne : j' ≠ j) (h : SlotOk b j') (hn : 0 ∉ name) :
    hitIn (stored b j e) name j' = hitIn b name j' := by
  have hbytes : ∀ x < 24, stored b j e (24 * j' + x) = b (24 * j' + x) := by
    intro x hx
    rw [stored, Buf.slice_of_lt (by omega), Buf.splice_of_not_mem (by omega), Nat.zero_add]
  rw [hitIn, hitIn, entryBytes_congr hbytes, Buf.strEq_of_nul h.nul (fun i hi => hbytes i (by omega)) hn]

theorem bytes_sixteen (e : Ent) : e.entry.bytes 16 = 0 ↔ e.ino % 256 = 0 := by
  have hbyte : e.entry.bytes 16 = UInt8.ofNat e.ino := rfl
  rw [hbyte, ← UInt8.toNat_inj, UInt8.toNat_ofNat']
  rfl

theorem str_bytes (hn : 0 ∉ e.name) (hlen : e.name.length ≤ 15 ∨ e.name.length = 16 ∧ e.ino % 256 = 0) :
    Buf.Str e.entry.bytes 0 e.name := by
  apply (Buf.str_ofList hn).congr
  intro i hi
  rw [Nat.zero_add]
  by_cases h16 : i < 16
  · exact if_pos h16
  · have hi16 : i = 16 := by omega
    obtain ⟨hlen, hino⟩ : e.name.length = 16 ∧ e.ino % 256 = 0 := by omega
    rw [hi16, (bytes_sixteen e).mpr hino, Buf.ofList, List.getD_eq_default _ _ (by omega)]

theorem hitIn_bytes (hn : 0 ∉ e.name) (hlen : e.name.length ≤ 15 ∨ e.name.length = 16 ∧ e.ino % 256 = 0) (hn' : 0 ∉ name) :
    hitIn e.entry.bytes name 0 = if name = e.name then some (DirEntry.ofBytes e.entry.bytes 0) else none := by
  have hstr := str_bytes hn hlen
  by_cases he : name = e.name
  · rw [hitIn, if_pos he, he, if_pos hstr.eq]
  · rw [hitIn, if_neg he, if_neg]
    intro hc
    exact he (Buf.Str.unique ⟨hc, hn'⟩ hstr)

theorem hitIn_full (hlen : e.name.length = 16) (hino : e.ino % 256 ≠ 0) : hitIn e.entry.bytes e.name 0 = none := by
  rw [hitIn, if_neg]
  intro hc
  have h0 := (Buf.strEq_iff.mp hc).2
  rw [hlen] at h0
  exact hino ((bytes_sixteen e).mp h0)

end Stored

structure Adds (g : Geom) (w : View) (sec : Nat → Nat) (e : Ent) (k j : Nat) (w' : View) (sec' : Nat → Nat) :
    Prop where
  lt : k < 140 ∧ j < 21
  free : (DirEntry.ofBytes (w.block sec k) (24 * j)).fType = ftUnknown
  block : ∀ k', w'.block sec' k' = if k' = k then stored (w.block sec k) j e else w.block sec k'
  legible : Legible g w' sec'

section Adds

variable {g : Geom} {w w' : View} {sec sec' : Nat → Nat} {k j lba : Nat} {e : Ent} {b : Buf}

theorem block_of_addr (h : w.addr sec k ≠ 0) : w.block sec k = w.blk (w.addr sec k) := if_neg h

theorem block_eq_zero (h : w.addr sec k = 0) : w.block sec k = fun _ => 0 := if_pos h

theorem block_congr (ha : w'.addr sec' k = w.addr sec k)
    (hb : w.addr sec k ≠ 0 → w'.blk (w.addr sec k) = w.blk (w.addr sec k)) : w'.block sec' k = w.block sec k := by
  rw [View.block, View.block, ha]
  by_cases h0 : w.addr sec k = 0
  · rw [if_pos h0, if_pos h0]
  · rw [if_neg h0, if_neg h0, hb h0]

theorem zero_fType (j : Nat) : (DirEntry.ofBytes (fun _ => 0) (24 * j)).fType = ftUnknown := Buf.word_zero (24 * j + 20)

theorem adds_slot (hd : Legible g w sec) (ho : OwnSec w sec) (hk : k < 12) (h0 : sec k ≠ 0)
    (hfree : firstDead (w.blk (sec k)) = some j) :
    Adds g w sec e k j (w.setBlk (sec k) (stored (w.blk (sec k)) j e)) sec := by
  obtain ⟨hj, hslot⟩ := firstDead_some hfree
  have hak : w.addr sec k = sec k := if_pos hk
  have hak0 : w.addr sec k ≠ 0 := hak ▸ h0
  have haddr : ∀ k', (w.setBlk (sec k) (stored (w.blk (sec k)) j e)).addr sec k' = w.addr sec k' := by
    intro k'
    apply addr_congr
    intro _
    exact View.blk_setBlk_of_ne (hak ▸ ho.addr_ne_table hak0).symm _ _
  refine ⟨⟨by omega, hj⟩, ?_, fun k' => ?_, hd.tbl, fun k' hk' ha' => ?_⟩
  · rw [block_of_addr hak0, hak]
    exact slot_eq_none hslot
  · by_cases hkk : k' = k
    · rw [if_pos hkk, hkk, block_of_addr ((haddr k).trans_ne hak0), haddr, block_of_addr hak0, hak, View.blk_setBlk_self]
    · rw [if_neg hkk]
      exact block_congr (haddr k') fun ha' =>
        View.blk_setBlk_of_ne (fun he => hkk (ho.addr_inj ha' (he.trans hak.symm))) _ _
  · rw [haddr] at ha' ⊢
    exact hd.addr k' hk' ha'

theorem adds_new (hd : Legible g w sec) (hk : k < 140) (h0 : w.addr sec k = 0) (hl : g.base ≤ lba ∧ lba ≤ maxLba) (hself : w'.blk lba = entryBlock e)
    (hblk : ∀ k', w.addr sec k' ≠ 0 → w'.blk (w.addr sec k') = w.blk (w.addr sec k'))
    (haddr : ∀ k', w'.addr sec' k' = if k' = k then lba else w.addr sec k')
    (htbl : sec' 12 ≠ 0 → g.base ≤ sec' 12 ∧ sec' 12 ≤ maxLba) : Adds g w sec e k 0 w' sec' := by
  have hl0 : lba ≠ 0 := by
    have := g.base_pos
    omega
  refine ⟨⟨hk, by decide⟩, ?_, fun k' => ?_, htbl, fun k' hk' ha' => ?_⟩
  · rw [block_eq_zero h0]
    exact zero_fType 0
  · by_cases hkk : k' = k
    · have hnew : w'.addr sec' k = lba := by rw [haddr, if_pos rfl]
      rw [if_pos hkk, hkk, block_of_addr (hnew.trans_ne hl0), hnew, hself, block_eq_zero h0]
      rfl
    · rw [if_neg hkk]
      exact block_congr (by rw [haddr, if_neg hkk]) (hblk k')
  · rw [haddr] at ha' ⊢
    split at ha'
    · rwa [if_pos ‹_›]
    · rw [if_neg ‹_›]
      exact hd.addr k' hk' ha'

theorem Inserted.adds (hd : Legible g w sec) (ho : OwnSec w sec) (hov : ¬ Overflows w sec)
    (hins : Inserted g w sec e (w.place sec) w' sec') : ∃ k j, Adds g w sec e k j w' sec' := by
  generalize hpl : w.place sec = pl at hins
  cases hins with
  | slot k j =>
    obtain ⟨hk, h0, hfree⟩ := place_slot hpl
    exact ⟨k, j, adds_slot hd ho hk h0 hfree⟩
  | direct k lba hf hm =>
    obtain ⟨hk, h0⟩ := place_direct hpl
    have hak : w.addr sec k = 0 := (if_pos hk).trans h0
    refine ⟨k, 0, adds_new hd (by omega) hak ⟨hf.base_le, hm⟩ (View.blk_setBlk_self _ _ _) ?_ ?_ ?_⟩
    · intro k' ha'
      exact View.blk_setBlk_of_ne (ho.addr_ne_free hf.free ha') _ _
    · intro k'
      rw [addr_update_of_lt hk, addr_congr]
      intro h12
      exact View.blk_setBlk_of_ne (ho.table_ne_free hf.free h12) _ _
    · rw [Function.update_of_ne (show 12 ≠ k by omega)]
      exact hd.tbl
  | table l₁ l₂ hf₁ hf₂ hm₁ hm₂ =>
    have h12 : sec 12 = 0 := by
      by_contra h12
      exact hov ⟨hpl, h12⟩
    have hbehind : ∀ k', 12 ≤ k' → w.addr sec k' = 0 := by
      intro k' hk'
      rw [View.addr, if_neg (by omega), if_neg fun h => h.2 h12]
    have hne : l₂ ≠ l₁ := by
      rintro rfl
      exact Bool.false_ne_true (hf₂.free.symm.trans (Function.update_self ..))
    have hu₂ : w.used l₂ = false := (Function.update_of_ne hne _ _).symm.trans hf₂.free
    have h₁ : l₁ ≠ 0 := by
      have := hf₁.base_le
      have := g.base_pos
      omega
    have hlt : l₂ < 2 ^ 32 := by
      simp only [maxLba] at hm₂
      omega
    have hb₁ : ((((((w.setUsed l₁ true).syncUsed g l₁).setUsed l₂ true).syncUsed g l₂).setBlk l₁
        (tableBlock l₂)).setBlk l₂ (entryBlock e)).blk l₁ = tableBlock l₂ := by
      rw [View.blk_setBlk_of_ne hne.symm, View.blk_setBlk_self]
    refine ⟨12, 0, adds_new hd (by omega) (hbehind 12 (Nat.le_refl 12)) ⟨hf₂.base_le, hm₂⟩
      (View.blk_setBlk_self _ _ _) ?_ ?_ ?_⟩
    · intro k' ha'
      rw [View.blk_setBlk_of_ne (ho.addr_ne_free hu₂ ha'), View.blk_setBlk_of_ne (ho.addr_ne_free hf₁.free ha')]
      rfl
    · intro k'
      rw [addr_table w sec h₁ hlt hb₁]
      by_cases hk' : k' < 12
      · rw [if_pos hk', if_neg (by omega)]
      · rw [if_neg hk', hbehind k' (by omega)]
    · rw [Function.update_self]
      exact fun _ => ⟨hf₁.base_le, hm₁⟩

end Adds

/-- A directory as `create_dir_entry` and `sync_dir_entry` build it. -/
structure Filed (g : Geom) (w : View) (sec : Nat → Nat) : Prop where
  legible : Legible g w sec
  own : OwnSec w sec
  ok : ∀ k < 140, ∀ j < 21, SlotOk (w.block sec k) j

/-- The name is found, with what was stored for it, and every other search gives what it gave before. -/
def Refinds (d : DirRef) (s t : Fs) (name : List UInt8) (ino ty : Nat) : Prop :=
  (∃ e, ((searchDirEntry d name).on t).run = .ok (some e, t) ∧ e.iNo = ino ∧ e.fType = ty) ∧
    ∀ name', name' ≠ [] → 0 ∉ name' → name' ≠ name → ∃ r,
      ((searchDirEntry d name').on s).run = .ok (r, s) ∧ ((searchDirEntry d name').on t).run = .ok (r, t)

section Created

variable {g : Geom} {w w' : View} {sec sec' : Nat → Nat} {k j : Nat} {e : Ent} {name : List UInt8}

theorem findSome?_congr {α β : Type} {l : List α} {f f' : α → Option β} (h : ∀ x ∈ l, f x = f' x) :
    l.findSome? f = l.findSome? f' := by
  induction l with
  | nil => rfl
  | cons x l ih =>
    rw [List.findSome?_cons, List.findSome?_cons, h x List.mem_cons_self,
      ih fun y hy => h y (List.mem_cons_of_mem x hy)]

theorem findSome?_eq_of_only {α β : Type} {l : List α} {f : α → Option β} {x : α} (hx : x ∈ l)
    (h : ∀ y ∈ l, y ≠ x → f y = none) : l.findSome? f = f x := by
  cases hf : l.findSome? f with
  | none => exact (List.findSome?_eq_none_iff.mp hf x hx).symm
  | some v =>
    obtain ⟨y, hy, hv⟩ := List.exists_of_findSome?_eq_some hf
    have hyx : y = x := by
      by_contra hne
      rw [h y hy hne] at hv
      cases hv
    rw [← hyx, hv]

theorem mem_slots {x : Nat × Nat} : x ∈ slots (List.range 140) ↔ x.1 < 140 ∧ x.2 < 21 := by
  rw [slots, List.mem_product, List.mem_range, List.mem_range]

section

variable (h : Adds g w sec e k j w' sec')
include h

theorem Adds.hitIn_eq (hp : Filed g w sec) (hty : e.ty < 256) (hnul : 0 ∉ name)
    {x : Nat × Nat} (hx : x ∈ slots (List.range 140)) : hitIn (w'.block sec' x.1) name x.2 =
      if x = (k, j) then hitIn e.entry.bytes name 0 else hitIn (w.block sec x.1) name x.2 := by
  obtain ⟨k', j'⟩ := x
  obtain ⟨hk', hj'⟩ := mem_slots.mp hx
  rw [h.block]
  by_cases hk : k' = k
  · subst hk
    rw [if_pos rfl]
    by_cases hj : j' = j
    · subst hj
      rw [if_pos rfl, hitIn_stored_self hj' hty hnul]
    · rw [if_neg fun he => hj (Prod.mk.inj he).2, hitIn_stored_of_ne hj' hj (hp.ok k' hk' j' hj') hnul]
  · rw [if_neg hk, if_neg fun he => hk (Prod.mk.inj he).1]

theorem Adds.hitIn_free (hp : Filed g w sec) (hne : name ≠ []) (hnul : 0 ∉ name) :
    hitIn (w.block sec k) name j = none :=
  hitIn_of_nul ((hp.ok k h.lt.1 j h.lt.2).free h.free) hne hnul

theorem Adds.search_other (hp : Filed g w sec) (hty : e.ty < 256) (hne : name ≠ [])
    (hnul : 0 ∉ name) (hother : hitIn e.entry.bytes name 0 = none) : w'.search sec' name = w.search sec name := by
  apply findSome?_congr
  intro x hx
  rw [h.hitIn_eq hp hty hnul hx]
  split
  · next heq =>
    rw [hother, heq, h.hitIn_free hp hne hnul]
  · rfl

theorem Adds.search_new (hp : Filed g w sec) (hty : e.ty < 256) (hnul : 0 ∉ name)
    (hnew : w.search sec name = none) : w'.search sec' name = hitIn e.entry.bytes name 0 := by
  have hx : (k, j) ∈ slots (List.range 140) := mem_slots.mpr h.lt
  have honly : ∀ y ∈ slots (List.range 140), y ≠ (k, j) → hitIn (w'.block sec' y.1) name y.2 = none := by
    intro y hy hyx
    rw [h.hitIn_eq hp hty hnul hy, if_neg hyx]
    exact List.findSome?_eq_none_iff.mp hnew y hy
  rw [View.search, findSome?_eq_of_only hx honly, h.hitIn_eq hp hty hnul hx, if_pos rfl]

end

theorem run_create_sync {m : Mem} {s : Fs} {d : DirRef} {i : Inode} (h : At g w m s) (hp : m.inodes (d.ptr m) = some i)
    (hdir : Filed g w i.iSectors) (hsize : i.iSize % 24 = 0) (hroom : Room g w (w.place i.iSectors).need)
    (hov : ¬ Overflows w i.iSectors) (hne : e.name ≠ []) (hlen : e.name.length ≤ 16) (hnul : 0 ∉ e.name)
    (hty : e.ty < 256) (hnew : ((searchDirEntry d e.name).on s).run = .ok (none, s)) :
    ∃ t, ((createDirEntry e.name e.ino e.ty >>= syncDirEntry d).on s).run = .ok (true, t) ∧
      ((searchDirEntry d e.name).on t).run = .ok (hitIn e.entry.bytes e.name 0, t) ∧
      ∀ name, name ≠ [] → 0 ∉ name → hitIn e.entry.bytes name 0 = none → ∃ r,
        ((searchDirEntry d name).on s).run = .ok (r, s) ∧ ((searchDirEntry d name).on t).run = .ok (r, t) := by
  have hdirect : DirectOk g i.iSectors := by
    intro k hk h0
    have hak : w.addr i.iSectors k = i.iSectors k := if_pos hk
    rw [← hak] at h0 ⊢
    exact hdir.legible.addr k (by omega) h0
  have hsat : ((createDirEntry e.name e.ino e.ty >>= syncDirEntry d).on s).Sat False (fun r t => r = true ∧
      ∃ w' sec', Inserted g w i.iSectors e (w.place i.iSectors) w' sec' ∧
        At g w' (m.set (d.ptr m) (i.body (add32 i.iSize 24) sec')) t) := by
    rw [sat_bind]
    apply sat_createDirEntry (Or.inr hlen)
    exact sat_syncDirEntry_need h hp hdirect (Or.inr hsize) (Or.inr hroom)
      fun w' sec' t hins ht => ⟨rfl, w', sec', hins, ht⟩
  obtain ⟨_, t, hrun, rfl, w', sec', hins, ht⟩ := hsat.exists_run
  obtain ⟨k, j, hadd⟩ := hins.adds hdir.legible hdir.own hov
  have hinode : t.mem.inodes (d.ptr t.mem) = some (i.body (add32 i.iSize 24) sec') := by
    rw [ht.mem, ptr_set, Mem.set_inodes_self]
  have ht' : At g w' t.mem t := ht.mem ▸ ht
  refine ⟨t, hrun, ?_, fun name hne' hnul' hother => ?_⟩
  · rw [run_searchDirEntry_raw h hp hdir.legible hne hnul] at hnew
    have hnone : w.search i.iSectors e.name = none := (Prod.mk.inj (Except.ok.inj hnew)).1
    rw [run_searchDirEntry_raw ht' hinode hadd.legible hne hnul, ← hadd.search_new hdir hty hnul hnone]
    rfl
  · refine ⟨_, run_searchDirEntry_raw h hp hdir.legible hne' hnul', ?_⟩
    rw [run_searchDirEntry_raw ht' hinode hadd.legible hne' hnul', ← hadd.search_other hdir hty hne' hnul' hother]
    rfl

theorem create_dir_entry_found_iff {g : Geom} {w : View} {m : Mem} {s : Fs} {d : DirRef} {i : Inode}
    (h : At g w m s) (hp : m.inodes (d.ptr m) = some i) (hdir : Filed g w i.iSectors) (hsize : i.iSize % 24 = 0)
    (hroom : Room g w (w.place i.iSectors).need) (hov : ¬ Overflows w i.iSectors) {name : List UInt8} {ino ty : Nat}
    (hne : name ≠ []) (hlen : name.length ≤ maxFileNameLen) (hnul : 0 ∉ name) (hino : ino < 2 ^ 32) (hty : ty < 256)
    (hnew : ((searchDirEntry d name).on s).run = .ok (none, s)) :
    ∃ t, ((createDirEntry name ino ty >>= syncDirEntry d).on s).run = .ok (true, t) ∧
      (Refinds d s t name ino ty ↔ name.length ≤ 15 ∨ ino % 256 = 0) := by
  have hlen16 : name.length ≤ 16 := hlen
  obtain ⟨t, hrun, hfound, hothers⟩ :=
    run_create_sync (e := ⟨name, ino, ty⟩) h hp hdir hsize hroom hov hne hlen16 hnul hty hnew
  refine ⟨t, hrun, ?_, fun hfits => ?_⟩
  · rintro ⟨⟨e, he, -⟩, -⟩
    by_contra hfull
    rw [not_or] at hfull
    rw [hfound, hitIn_full (e := ⟨name, ino, ty⟩) (by simp only; omega) hfull.2] at he
    cases he
  · have hhit : ∀ {name' : List UInt8}, 0 ∉ name' → hitIn (Ent.entry ⟨name, ino, ty⟩).bytes name' 0 =
        if name' = name then some (DirEntry.ofBytes (Ent.entry ⟨name, ino, ty⟩).bytes 0) else none :=
      hitIn_bytes (e := ⟨name, ino, ty⟩) hnul (by simp only; omega)
    constructor
    · rw [hhit hnul, if_pos rfl] at hfound
      refine ⟨_, hfound, ?_, ?_⟩
      · exact (word_bytes_ino ..).trans (Nat.mod_eq_of_lt hino)
      · exact (word_bytes_ty ..).trans (Nat.mod_eq_of_lt (Nat.lt_trans hty (by decide)))
    · intro name' hne' hnul' hother
      exact hothers name' hne' hnul' ((hhit hnul').trans (if_neg hother))

theorem GoodBlock.slotOk {b : Buf} (h : GoodBlock b) (hj : j < 21) : SlotOk b j := by
  have hcode := h.code j hj
  cases hs : slot b j with
  | none =>
    rw [hs] at hcode
    refine ⟨by rw [hcode]; decide, fun _ => ?_⟩
    have hname : b.slice (24 * j) 16 0 = 0 := congrFun (congrArg DirEntry.filename hcode) 0
    rwa [Buf.slice_of_lt (by decide)] at hname
  | some e =>
    have hty : e.ty < 256 := by
      rcases (h.ok j hj e hs).ty with ht | ht <;> rw [ht] <;> decide
    rw [hs] at hcode
    exact ⟨by rw [hcode]; exact hty, fun h0 => absurd h0 (slot_eq_some hs).2.2⟩

theorem DirOk.filed (h : DirOk g w sec) (ho : OwnSec w sec) : Filed g w sec := by
  refine ⟨⟨h.tbl, h.addr⟩, ho, fun k hk j hj => ?_⟩
  by_cases ha : w.addr sec k = 0
  · rw [block_eq_zero ha]
    exact goodBlock_zero.slotOk hj
  · rw [block_of_addr ha]
    exact (h.good k hk ha).slotOk hj

theorem filed_deep : Filed (formatGeom sized_small) deepView deepInode.iSectors := dirOk_deep.filed ownSec_deep

theorem place_deep : deepView.place deepInode.iSectors = .slot 0 3 := by decide

theorem block_deep (k : Nat) : deepView.block deepInode.iSectors k =
    if k = 0 then nearBlock else if k = 12 then farBlock else fun _ => 0 := by
  rw [View.block, addr_deep]
  split
  · exact near_eq
  · split
    · exact far_eq
    · rfl

theorem absent_deep {name : List UInt8} (hne : name ≠ []) (hnul : 0 ∉ name)
    (h : ∀ j < 21, nearBlock.strEq (24 * j) name = false ∧ farBlock.strEq (24 * j) name = false) :
    ((searchDirEntry (.heap 7) name).on deep).run = .ok (none, deep) := by
  have hnone : deepView.search deepInode.iSectors name = none := by
    rw [View.search, List.findSome?_eq_none_iff]
    intro x hx
    obtain ⟨hnear, hfar⟩ := h x.2 (mem_slots.mp hx).2
    rw [block_deep]
    split
    · rw [hitIn, hnear]
      rfl
    · split
      · rw [hitIn, hfar]
        rfl
      · exact hitIn_of_nul rfl hne hnul
  rw [run_searchDirEntry_raw at_deep rfl filed_deep.legible hne hnul]
  exact congrArg (fun r => Except.ok (r, deep)) hnone

theorem not_overflows_deep : ¬ Overflows deepView deepInode.iSectors := by
  rintro ⟨hpl, -⟩
  rw [place_deep] at hpl
  cases hpl

theorem create_dir_entry_found_c :
    ∃ t, ((createDirEntry [99] 11 ftRegular >>= syncDirEntry (.heap 7)).on deep).run = .ok (true, t) ∧
      (Refinds (.heap 7) deep t [99] 11 ftRegular ↔ [(99 : UInt8)].length ≤ 15 ∨ 11 % 256 = 0) :=
  create_dir_entry_found_iff at_deep rfl filed_deep rfl (place_deep ▸ Nat.zero_le _) not_overflows_deep (by decide)
    (by decide) (by decide) (by decide) (by decide) (absent_deep (by decide) (by decide) (by decide))

def sixteenAs : List UInt8 := List.replicate 16 97

/-- Behind the sixteenAs characters the comparison meets the inode number. -/
theorem sixteen_not_found : Filed (formatGeom sized_small) deepView deepInode.iSectors ∧
    sixteenAs.length = maxFileNameLen ∧ ((searchDirEntry (.heap 7) sixteenAs).on deep).run = .ok (none, deep) ∧
    ∃ t, ((createDirEntry sixteenAs 11 ftRegular >>= syncDirEntry (.heap 7)).on deep).run = .ok (true, t) ∧
      ((searchDirEntry (.heap 7) sixteenAs).on t).run = .ok (none, t) := by
  have habsent : ((searchDirEntry (.heap 7) sixteenAs).on deep).run = .ok (none, deep) :=
    absent_deep (by decide) (by decide) (by decide)
  obtain ⟨t, hrun, hsearch, -⟩ := run_create_sync (e := ⟨sixteenAs, 11, ftRegular⟩) at_deep rfl filed_deep rfl
    (place_deep ▸ Nat.zero_le _) not_overflows_deep (by decide) (by decide) (by decide) (by decide) habsent
  have hfull := hitIn_full (e := ⟨sixteenAs, 11, ftRegular⟩) rfl (by decide)
  exact ⟨filed_deep, rfl, habsent, t, hrun, hsearch.trans (congrArg (fun r => Except.ok (r, t)) hfull)⟩

end Created

end TrueOs.Fs
