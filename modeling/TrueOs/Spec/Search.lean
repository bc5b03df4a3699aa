import TrueOs.Spec.Entry
import Mathlib.Data.List.Find

/-! The contents of a directory, and what `search_dir_entry` finds in it. -/

namespace TrueOs.Fs

open Prog

def View.addr (w : View) (sec : Nat → Nat) (k : Nat) : Nat :=
  if k < 12 then sec k
  else if k < 140 ∧ sec 12 ≠ 0 then (w.blk (sec 12)).word (4 * (k - 12)) else 0

def View.ent (w : View) (sec : Nat → Nat) (k j : Nat) : Option Ent :=
  if k < 140 ∧ j < 21 ∧ w.addr sec k ≠ 0 then slot (w.blk (w.addr sec k)) j else none

def slotNamed (b : Buf) (name : List UInt8) (j : Nat) : Bool :=
  (slot b j).any (fun e => decide (e.name = name))

def lookBlock (b : Buf) (name : List UInt8) : Option Ent :=
  ((List.range 21).find? (slotNamed b name)).bind (slot b)

def View.look (w : View) (sec : Nat → Nat) (name : List UInt8) (k : Nat) : Option Ent :=
  if w.addr sec k = 0 then none else lookBlock (w.blk (w.addr sec k)) name

/-- The first entry of that name, in the order of the code's two loops. -/
def View.lookup (w : View) (sec : Nat → Nat) (name : List UInt8) : Option Ent :=
  (List.range 140).findSome? (w.look sec name)

structure DirOk (g : Geom) (w : View) (sec : Nat → Nat) : Prop where
  tbl : sec 12 ≠ 0 → g.base ≤ sec 12 ∧ sec 12 ≤ maxLba
  addr : ∀ k < 140, w.addr sec k ≠ 0 → g.base ≤ w.addr sec k ∧ w.addr sec k ≤ maxLba
  good : ∀ k < 140, w.addr sec k ≠ 0 → GoodBlock (w.blk (w.addr sec k))

section Lookup

variable {w : View} {sec : Nat → Nat} {name : List UInt8} {b : Buf} {e : Ent} {k j : Nat}

theorem ent_eq_some (h : w.ent sec k j = some e) :
    k < 140 ∧ j < 21 ∧ w.addr sec k ≠ 0 ∧ slot (w.blk (w.addr sec k)) j = some e := by
  rw [View.ent] at h
  split at h
  · rename_i hc
    exact ⟨hc.1, hc.2.1, hc.2.2, h⟩
  · cases h

theorem ent_of (hk : k < 140) (hj : j < 21) (ha : w.addr sec k ≠ 0) :
    w.ent sec k j = slot (w.blk (w.addr sec k)) j := if_pos ⟨hk, hj, ha⟩

theorem lookBlock_some (h : lookBlock b name = some e) :
    ∃ j < 21, slot b j = some e ∧ e.name = name := by
  obtain ⟨j, hj, he⟩ := Option.bind_eq_some_iff.mp h
  refine ⟨j, List.mem_range.mp (List.mem_of_find?_eq_some hj), he, ?_⟩
  have := List.find?_some hj
  simpa [slotNamed, he] using this

theorem lookBlock_none (h : lookBlock b name = none) (hj : j < 21) (he : slot b j = some e) :
    e.name ≠ name := by
  cases hf : (List.range 21).find? (slotNamed b name) with
  | none =>
    have := List.find?_eq_none.mp hf j (List.mem_range.mpr hj)
    simpa [slotNamed, he] using this
  | some i =>
    have hn := List.find?_some hf
    rw [lookBlock, hf, Option.bind_some] at h
    simp [slotNamed, h] at hn

theorem lookup_some (h : w.lookup sec name = some e) : ∃ k j, w.ent sec k j = some e ∧ e.name = name := by
  obtain ⟨k, hk, hl⟩ := List.exists_of_findSome?_eq_some h
  rw [View.look] at hl
  split at hl
  · cases hl
  · rename_i ha
    obtain ⟨j, hj, hs, hn⟩ := lookBlock_some hl
    exact ⟨k, j, by rw [ent_of (List.mem_range.mp hk) hj ha, hs], hn⟩

theorem lookup_none (h : w.lookup sec name = none) (he : w.ent sec k j = some e) : e.name ≠ name := by
  obtain ⟨hk, hj, ha, hs⟩ := ent_eq_some he
  have hl := List.findSome?_eq_none_iff.mp h k (List.mem_range.mpr hk)
  rw [View.look, if_neg ha] at hl
  exact lookBlock_none hl hj hs

theorem lookup_eq_some (hu : ∀ k j k' j' e e', w.ent sec k j = some e → w.ent sec k' j' = some e' →
    e.name = e'.name → e = e') (he : w.ent sec k j = some e) : w.lookup sec e.name = some e := by
  cases hl : w.lookup sec e.name with
  | none => exact absurd rfl (lookup_none hl he)
  | some e' =>
    obtain ⟨k', j', he', hn⟩ := lookup_some hl
    rw [hu _ _ _ _ _ _ he' he hn]

end Lookup

variable {g : Geom} {w : View} {m : Mem} {s : Fs} {E : Prop} {i : Inode}
  {sec : Nat → Nat} {name : List UInt8}

theorem withTable_eq (h : i.iSectors 12 ≠ 0) :
    withTable i.direct (w.blk (i.iSectors 12)) = w.addr i.iSectors := by
  funext k
  simp only [withTable, Inode.direct, View.addr]
  by_cases hk : k < 12
  · simp [hk]
  · simp [hk, h]

theorem direct_eq (h : i.iSectors 12 = 0) : i.direct = w.addr i.iSectors := by
  funext k
  simp only [Inode.direct, View.addr]
  by_cases hk : k < 12
  · simp [hk]
  · simp [hk, h]

theorem sat_dirBlocks (h : At g w m s)
    (htbl : i.iSectors 12 ≠ 0 → g.base ≤ i.iSectors 12 ∧ i.iSectors 12 ≤ maxLba)
    {Q : (Nat → Nat) → Fs → Prop} (hQ : Q (w.addr i.iSectors) s) : ((dirBlocks i).on s).Sat E Q := by
  simp only [dirBlocks, ite_on]
  by_cases h12 : i.iSectors 12 = 0
  · rw [if_neg (by simpa using h12), sat_pure, direct_eq h12]
    exact hQ
  · rw [if_pos h12, sat_bind]
    obtain ⟨h₁, h₂⟩ := htbl h12
    apply sat_readBlk h (Or.inr h₂) h₁
    rw [sat_pure, withTable_eq h12]
    exact hQ

theorem sat_searchBlocks (h : At g w m s) (hd : DirOk g w sec) (hn : ValidName name)
    (ks : List Nat) (hks : ∀ k ∈ ks, k < 140) {Q : Option DirEntry → Fs → Prop}
    (hQ : Q ((ks.findSome? (w.look sec name)).map Ent.entry) s) :
    ((searchBlocks name (w.addr sec) ks).on s).Sat E Q := by
  induction ks with
  | nil => exact hQ
  | cons k ks ih =>
    simp only [searchBlocks, ite_on, List.findSome?_cons] at hQ ⊢
    have hks' : ∀ k ∈ ks, k < 140 := fun k hk => hks k (List.mem_cons_of_mem _ hk)
    by_cases ha : w.addr sec k = 0
    · rw [View.look, if_pos ha] at hQ
      rw [if_pos ha]
      exact ih hks' hQ
    · have hk := hks k List.mem_cons_self
      obtain ⟨h₁, h₂⟩ := hd.addr k hk ha
      have hg := hd.good k hk ha
      rw [if_neg ha, sat_bind]
      apply sat_readBlk h (Or.inr h₂) h₁
      simp only [bind_on, get_on, Res.bind, h.sb, g.entrySize]
      have hfind : (List.range (512 / 24)).find? (fun j => (w.blk (w.addr sec k)).strEq (24 * j) name) =
          (List.range 21).find? (slotNamed (w.blk (w.addr sec k)) name) :=
        List.find?_congr fun j hj => hg.strEq (List.mem_range.mp hj) hn
      rw [hfind]
      rw [View.look, if_neg ha, lookBlock] at hQ
      cases hf : (List.range 21).find? (slotNamed (w.blk (w.addr sec k)) name) with
      | none =>
        rw [hf] at hQ
        exact ih hks' hQ
      | some j =>
        have hj := List.mem_range.mp (List.mem_of_find?_eq_some hf)
        have hnm := List.find?_some hf
        rw [hf, Option.bind_some] at hQ
        cases hs : slot (w.blk (w.addr sec k)) j with
        | none => simp [slotNamed, hs] at hnm
        | some e =>
          simp only [hs, Option.map_some] at hQ
          simp only [sat_pure, hg.code j hj, hs]
          exact hQ

theorem sat_searchIn (h : At g w m s) (hd : DirOk g w i.iSectors)
    (hn : ValidName name) {Q : Option DirEntry → Fs → Prop}
    (hQ : Q ((w.lookup i.iSectors name).map Ent.entry) s) : ((searchIn i name).on s).Sat E Q := by
  rw [searchIn, sat_bind]
  apply sat_dirBlocks h hd.tbl
  exact sat_searchBlocks h hd hn _ (fun k hk => List.mem_range.mp hk) hQ

end TrueOs.Fs
