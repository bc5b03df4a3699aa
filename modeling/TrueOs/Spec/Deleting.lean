import TrueOs.Spec.Directory

/-! When `delete_dir_entry` comes back, in a directory of any number of blocks. -/

namespace TrueOs.Fs

open Prog

/-- A directory: `.` and `..` stand in its first block, and no two entries have the same name or, the
two aside, the same inode. -/
structure Regular (g : Geom) (w : View) (sec : Nat → Nat) : Prop where
  ok : DirOk g w sec
  own : OwnSec w sec
  top : ∀ k < 12, sec k < g.top
  dot : ∃ j e, w.ent sec 0 j = some e ∧ e.name = Fs.dot
  normal : ∀ k j e, w.ent sec k j = some e → e.normal = false → k = 0
  names : ∀ k j e k' j' e', w.ent sec k j = some e → w.ent sec k' j' = some e' →
    e.name = e'.name → k = k' ∧ j = j'
  inodes : ∀ k j e k' j' e', w.ent sec k j = some e → w.ent sec k' j' = some e' → e.normal = true →
    e.ino = e'.ino → k = k' ∧ j = j'

def Alone (w : View) (sec : Nat → Nat) (k j : Nat) : Prop := ∀ j' e', w.ent sec k j' = some e' → j' = j

/-- The entry in slot `j` of block `k` is gone and nothing else is; its block is given back if it was
the only one there, and the block not the first. -/
structure Cut (w : View) (sec : Nat → Nat) (k j : Nat) (w' : View) (sec' : Nat → Nat) : Prop where
  ent : ∀ k' j', w'.ent sec' k' j' = if k' = k ∧ j' = j then none else w.ent sec k' j'
  freed : w'.used (w.addr sec k) = false ↔ k ≠ 0 ∧ Alone w sec k j
  used : ∀ l, l ≠ w.addr sec k → w'.used l = w.used l

section Regular

variable {g : Geom} {w w' : View} {sec sec' : Nat → Nat} {k j n : Nat} {e : Ent} {m : Mem} {s : Fs} {d : DirRef}
  {i : Inode}

theorem Regular.lastEntry_iff (h : Regular g w sec) (he : w.ent sec k j = some e) (hn : e.normal = true) :
    lastEntry (w.blk (w.addr sec k)) ↔ k ≠ 0 ∧ Alone w sec k j := by
  constructor
  · intro hl
    have hk0 : k ≠ 0 := by
      rintro rfl
      obtain ⟨j₀, e₀, he₀, hname⟩ := h.dot
      exact not_lastEntry_of_dot he₀ hname hl
    have hall : ∀ j' e', w.ent sec k j' = some e' → e'.normal = true := by
      intro j' e' he'
      by_contra hn'
      exact hk0 (h.normal k j' e' he' (Bool.eq_false_of_not_eq_true hn'))
    refine ⟨hk0, fun j' e' he' => ?_⟩
    by_contra hne
    rw [ent_of_lastEntry hl he hn hall hne] at he'
    cases he'
  · rintro ⟨-, halone⟩
    by_contra hl
    obtain ⟨j', e', hne, he'⟩ := other_entry he hn hl
    exact hne (halone j' e' he')

theorem Regular.onlyHit (h : Regular g w sec) (he : w.ent sec k j = some e) (hn : e.normal = true) :
    OnlyHit w sec e.ino k j := by
  obtain ⟨hk, hj, ha, -⟩ := ent_eq_some he
  refine ⟨⟨hk, hj, ha, (hits_iff hk hj ha).mpr ⟨e, he, hn, rfl⟩⟩, fun k' hk' j' hj' ha' hhit => ?_⟩
  obtain ⟨e', he', hn', hino⟩ := (hits_iff hk' hj' ha').mp hhit
  exact h.inodes k' j' e' k j e he' he hn' hino

theorem Regular.edit (h : Regular g w sec) (he : w.ent sec k j = some e) (hn : e.normal = true)
    (hr : Removed g w sec k j w' sec') : Edit g w sec k j none w' sec' ∧ Cut w sec k j w' sec' := by
  obtain ⟨hk, hj, ha, -⟩ := ent_eq_some he
  have hlast := h.lastEntry_iff he hn
  have hbefore := h.own.used_addr ha
  cases hr with
  | clear hl =>
    obtain ⟨hb, hslots⟩ := (h.ok.good k hk ha).clear j
    have hed : Edit g w sec k j none _ sec := edit_block h.ok h.own hk ha hb hslots hj
    refine ⟨hed, hed.ent, ?_, fun _ _ => rfl⟩
    rw [← hlast]
    exact iff_of_false (fun hf => Bool.false_ne_true (hf.symm.trans hbefore)) hl
  | free hl hlt =>
    have hax : w.addr sec k = sec k := if_pos hlt
    have hz : ∀ j', j' ≠ j → w.ent sec k j' = none := by
      intro j' hne
      cases he' : w.ent sec k j' with
      | none => rfl
      | some e' => exact absurd ((hlast.mp hl).2 j' e' he') hne
    have hed := edit_free (j := j) h.ok h.own hlt hz
    refine ⟨hed, hed.ent, ?_, fun l hl' => ?_⟩
    · rw [hax]
      exact iff_of_true (Function.update_self ..) (hlast.mp hl)
    · rw [hax] at hl'
      exact Function.update_of_ne hl' _ _

theorem run_searchDirEntry (h : At g w m s) (hp : m.inodes (d.ptr m) = some i) (hd : DirOk g w i.iSectors)
    {name : List UInt8} (hn : ValidName name) :
    ((searchDirEntry d name).on s).run = .ok ((w.lookup i.iSectors name).map Ent.entry, s) := by
  have hsat : ((searchDirEntry d name).on s).Sat False (fun r t =>
      r = (w.lookup i.iSectors name).map Ent.entry ∧ t = s) :=
    sat_searchDirEntry h hp hd hn ⟨rfl, rfl⟩
  obtain ⟨r, t, hr, rfl, rfl⟩ := hsat.exists_run
  exact hr

theorem DirOk.valid (h : DirOk g w sec) (he : w.ent sec k j = some e) : ValidName e.name := by
  obtain ⟨hk, hj, ha, hs⟩ := ent_eq_some he
  exact ((h.good k hk ha).ok j hj e hs).valid

theorem Regular.lookup (h : Regular g w sec) (he : w.ent sec k j = some e) (hc : Cut w sec k j w' sec') :
    w'.lookup sec' e.name = none ∧
      ∀ k' j' e', ¬ (k' = k ∧ j' = j) → w.ent sec k' j' = some e' → w'.lookup sec' e'.name = some e' := by
  have hback : ∀ {k' j' e'}, w'.ent sec' k' j' = some e' → ¬ (k' = k ∧ j' = j) ∧ w.ent sec k' j' = some e' := by
    intro k' j' e' he'
    rw [hc.ent] at he'
    split at he'
    · cases he'
    · exact ⟨‹_›, he'⟩
  constructor
  · cases hl : w'.lookup sec' e.name with
    | none => rfl
    | some e' =>
      obtain ⟨k', j', he', hn⟩ := lookup_some hl
      obtain ⟨hne, he'⟩ := hback he'
      exact absurd (h.names k' j' e' k j e he' he hn) hne
  · intro k' j' e' hne he'
    apply lookup_eq_some (k := k') (j := j')
    · intro k₁ j₁ k₂ j₂ e₁ e₂ h₁ h₂ hn
      obtain ⟨-, h₁⟩ := hback h₁
      obtain ⟨-, h₂⟩ := hback h₂
      obtain ⟨rfl, rfl⟩ := h.names k₁ j₁ e₁ k₂ j₂ e₂ h₁ h₂ hn
      exact Option.some.inj (h₁.symm.trans h₂)
    · rw [hc.ent, if_neg hne, he']

/-- `delete_dir_entry` returns true, has removed the entry, and every other one can still be found. -/
def Deletes (g : Geom) (d : DirRef) (s : Fs) (w : View) (i : Inode) (k j : Nat) (e : Ent) : Prop :=
  ∃ t w' i', ((deleteDirEntry d e.ino).on s).run = .ok (true, t) ∧ At g w' t.mem t ∧
    t.mem.inodes (d.ptr t.mem) = some i' ∧ Cut w i.iSectors k j w' i'.iSectors ∧
    ((searchDirEntry d e.name).on t).run = .ok (none, t) ∧
    ∀ k' j' e', ¬ (k' = k ∧ j' = j) → w.ent i.iSectors k' j' = some e' →
      ((searchDirEntry d e'.name).on t).run = .ok (some e'.entry, t)

theorem delete_dir_entry_iff {g : Geom} {w : View} {m : Mem} {s : Fs} {d : DirRef} {i : Inode} {k j : Nat} {e : Ent}
    (h : At g w m s) (hp : m.inodes (d.ptr m) = some i) (hreg : Regular g w i.iSectors) (hsz : 24 ≤ i.iSize)
    (hno : i.iNo < 4096) (he : w.ent i.iSectors k j = some e) :
    Deletes g d s w i k j e ↔ e.normal = true ∧ ¬ (12 ≤ k ∧ Alone w i.iSectors k j) := by
  constructor
  · rintro ⟨t, w', i', hrun, -⟩
    have hn : e.normal = true := by
      by_contra hn
      have hnone : ∀ k' < 140, ∀ j' < 21, w.addr i.iSectors k' ≠ 0 →
          hits (w.blk (w.addr i.iSectors k')) e.ino j' = false := by
        intro k' hk' j' hj' ha'
        by_contra hhit
        obtain ⟨e', he', hn', hino⟩ := (hits_iff hk' hj' ha').mp (Bool.eq_true_of_not_eq_false hhit)
        obtain ⟨rfl, rfl⟩ := hreg.inodes k' j' e' k j e he' he hn' hino
        exact hn (Option.some.inj (he'.symm.trans he) ▸ hn')
      have hsat : ((deleteDirEntry d e.ino).on s).Sat True (fun r _ => r = false) :=
        sat_deleteDirEntry_none h hp hreg.ok hnone rfl
      cases hsat.of_run hrun
    refine ⟨hn, fun ⟨hk, halone⟩ => ?_⟩
    -- neither of the two ways to remove the entry is there
    have hlast := (hreg.lastEntry_iff he hn).mpr ⟨by omega, halone⟩
    have hsat : ((deleteDirEntry d e.ino).on s).Sat True (fun _ _ => False) := by
      refine sat_deleteDirEntry h hp hreg.ok (hreg.onlyHit he hn) hreg.top (Or.inl trivial) fun w' sec' t hr _ => ?_
      cases hr with
      | clear hl => exact hl hlast
      | free _ hlt => omega
    exact hsat.of_run hrun
  · rintro ⟨hn, hloop⟩
    have hsat : ((deleteDirEntry d e.ino).on s).Sat False (fun r t => r = true ∧
        ∃ w' sec', Removed g w i.iSectors k j w' sec' ∧
          At g (w'.setIno i.iNo (i.body (i.iSize - 24) sec').clean)
            (m.set (d.ptr m) (i.body (i.iSize - 24) sec')) t) := by
      refine sat_deleteDirEntry h hp hreg.ok (hreg.onlyHit he hn) hreg.top (Or.inr ⟨hsz, hno, fun hk hl => ?_⟩)
        fun w' sec' t hr ht => ⟨rfl, w', sec', hr, ht⟩
      exact hloop ⟨hk, ((hreg.lastEntry_iff he hn).mp hl).2⟩
    obtain ⟨_, t, hrun, rfl, w', sec', hr, ht⟩ := hsat.exists_run
    obtain ⟨hed, hcut⟩ := hreg.edit he hn hr
    obtain ⟨hgone, hfound⟩ := hreg.lookup he hcut
    have hinode : t.mem.inodes (d.ptr t.mem) = some (i.body (i.iSize - 24) sec') := by
      rw [ht.mem, ptr_set, Mem.set_inodes_self]
    have ht' : At g (w'.setIno i.iNo (i.body (i.iSize - 24) sec').clean) t.mem t := ht.mem ▸ ht
    have hok : DirOk g (w'.setIno i.iNo (i.body (i.iSize - 24) sec').clean) sec' :=
      ⟨hed.ok.tbl, hed.ok.addr, hed.ok.good⟩
    refine ⟨t, _, _, hrun, ht', hinode, ⟨hcut.ent, hcut.freed, hcut.used⟩, ?_, fun k' j' e' hne he' => ?_⟩
    · rw [run_searchDirEntry ht' hinode hok (hreg.ok.valid he)]
      exact congrArg (fun r => Except.ok (r.map Ent.entry, t)) hgone
    · rw [run_searchDirEntry ht' hinode hok (hreg.ok.valid he')]
      exact congrArg (fun r => Except.ok (r.map Ent.entry, t)) (hfound k' j' e' hne he')

end Regular

section Deep

def entDot : Ent := ⟨Fs.dot, 5, ftDirectory⟩
def entDotdot : Ent := ⟨Fs.dotdot, 0, ftDirectory⟩
def entA : Ent := ⟨[97], 9, ftRegular⟩
def entB : Ent := ⟨[98], 10, ftRegular⟩

def putEnt (b : Buf) (j : Nat) (e : Ent) : Buf := (b.splice (24 * j) 24 e.entry.bytes).slice 0 512

def nearBlock : Buf := putEnt (putEnt (putEnt (fun _ => 0) 0 entDot) 1 entDotdot) 2 entA
def farBlock : Buf := putEnt (fun _ => 0) 0 entB

def deepDisk : Buf := fun x =>
  if x / 512 = 900 then nearBlock (x % 512)
  else if x / 512 = 901 then Buf.ofWords (fun k => if k = 0 then 902 else 0) (x % 512)
  else if x / 512 = 902 then farBlock (x % 512)
  else 0

def deepInode : Inode := ⟨5, 96, 1, false, fun k => if k = 0 then 900 else if k = 12 then 901 else 0⟩

def deep : Fs where
  vol := { (bootState 63 1000 deepDisk).vol with
    blockBitmap := ⟨512, fun _ => 255⟩
    inodeBitmap := ⟨512, fun _ => 255⟩ }
  mem := { bootMem with inodes := fun p => if p = 7 then some deepInode else none }

theorem at_deep : At (formatGeom sized_small) ((formatGeom sized_small).view deep.vol) deep.mem deep where
  startLba := rfl
  secCnt := rfl
  sb := rfl
  blen := rfl
  ilen := rfl
  view := rfl
  mem := rfl

def deepView : View := (formatGeom sized_small).view deep.vol

theorem blk_deepView {lba : Nat} (h : 675 ≤ lba) (b : Buf) (hb : ∀ x < 512, deepDisk (512 * lba + x) = b x)
    (h0 : ∀ x, 512 ≤ x → b x = 0) : deepView.blk lba = b := by
  funext x
  have hview : deepView.blk lba = deepDisk.slice (512 * lba) 512 := if_pos h
  rw [hview]
  by_cases hx : x < 512
  · rw [Buf.slice_of_lt hx, hb x hx]
  · rw [Buf.slice_of_le (by omega), h0 x (by omega)]

theorem putEnt_of_le (b : Buf) (j : Nat) (e : Ent) {x : Nat} (h : 512 ≤ x) : putEnt b j e x = 0 :=
  Buf.slice_of_le h

theorem near_eq : deepView.blk 900 = nearBlock := by
  refine blk_deepView (by decide) _ (fun x hx => ?_) fun x hx => putEnt_of_le _ _ _ hx
  rw [deepDisk, if_pos (by omega), show (512 * 900 + x) % 512 = x by omega]

theorem far_eq : deepView.blk 902 = farBlock := by
  refine blk_deepView (by decide) _ (fun x hx => ?_) fun x hx => putEnt_of_le _ _ _ hx
  rw [deepDisk, if_neg (by omega), if_neg (by omega), if_pos (by omega),
    show (512 * 902 + x) % 512 = x by omega]

theorem ok_entDot : entDot.Ok := ⟨⟨by decide, by decide, by decide⟩, by decide, by decide⟩
theorem ok_entDotdot : entDotdot.Ok := ⟨⟨by decide, by decide, by decide⟩, by decide, by decide⟩
theorem ok_entA : entA.Ok := ⟨⟨by decide, by decide, by decide⟩, by decide, by decide⟩
theorem ok_entB : entB.Ok := ⟨⟨by decide, by decide, by decide⟩, by decide, by decide⟩

theorem good_near : GoodBlock nearBlock ∧ ∀ j < 21, slot nearBlock j =
    if j = 2 then some entA else if j = 1 then some entDotdot else if j = 0 then some entDot else none := by
  obtain ⟨h₀, hs₀⟩ := goodBlock_zero.store 0 ok_entDot
  obtain ⟨h₁, hs₁⟩ := h₀.store 1 ok_entDotdot
  obtain ⟨h₂, hs₂⟩ := h₁.store 2 ok_entA
  refine ⟨h₂, fun j hj => (hs₂ j hj).trans ?_⟩
  rw [hs₁ j hj, hs₀ j hj, slot_zero]

theorem good_far : GoodBlock farBlock ∧ ∀ j < 21, slot farBlock j = if j = 0 then some entB else none := by
  obtain ⟨h₀, hs₀⟩ := goodBlock_zero.store 0 ok_entB
  refine ⟨h₀, fun j hj => (hs₀ j hj).trans ?_⟩
  rw [slot_zero]

theorem addr_deep (k : Nat) :
    deepView.addr deepInode.iSectors k = if k = 0 then 900 else if k = 12 then 902 else 0 := by
  by_cases hk : k < 140
  · have hall : ∀ k < 140, deepView.addr deepInode.iSectors k =
        if k = 0 then 900 else if k = 12 then 902 else 0 := by decide +kernel
    exact hall k hk
  · rw [View.addr, if_neg (by omega), if_neg (by omega), if_neg (by omega), if_neg (by omega)]

def deepEntries : List (Nat × Nat × Ent) := [(0, 0, entDot), (0, 1, entDotdot), (0, 2, entA), (12, 0, entB)]

theorem ent_near {j : Nat} (hj : j < 21) : deepView.ent deepInode.iSectors 0 j = slot nearBlock j := by
  rw [ent_of (by decide) hj (by decide), addr_deep, if_pos rfl, near_eq]

theorem ent_far {j : Nat} (hj : j < 21) : deepView.ent deepInode.iSectors 12 j = slot farBlock j := by
  rw [ent_of (by decide) hj (by decide), addr_deep, if_neg (by decide), if_pos rfl, far_eq]

theorem mem_deepEntries {k j : Nat} {e : Ent} (h : deepView.ent deepInode.iSectors k j = some e) :
    (k, j, e) ∈ deepEntries := by
  obtain ⟨hk, hj, ha, -⟩ := ent_eq_some h
  rw [addr_deep] at ha
  have hcases : k = 0 ∨ k = 12 := by grind
  obtain rfl | rfl := hcases
  · rw [ent_near hj, good_near.2 j hj] at h
    grind [deepEntries]
  · rw [ent_far hj, good_far.2 j hj] at h
    grind [deepEntries]

theorem hold_deep (q : Nat) : deepView.hold deepInode.iSectors q =
    if q = 0 then 900 else if q = 12 then 901 else if q = 13 then 902 else 0 := by
  obtain hq | rfl | ⟨k, hk, rfl⟩ := hold_cases q
  · rw [hold_of_lt hq, addr_deep]
    grind
  · rw [hold_table]
    rfl
  · rw [hold_succ hk, addr_deep]
    grind

theorem dirOk_deep : DirOk (formatGeom sized_small) deepView deepInode.iSectors where
  tbl _ := by decide
  addr k _ ha := by
    have hall : ∀ a ∈ [900, 902], (formatGeom sized_small).base ≤ a ∧ a ≤ maxLba := by decide
    rw [addr_deep] at ha ⊢
    exact hall _ (by grind)
  good k _ ha := by
    rw [addr_deep] at ha ⊢
    have hcases : k = 0 ∨ k = 12 := by grind
    obtain rfl | rfl := hcases
    · rw [if_pos rfl, near_eq]
      exact good_near.1
    · rw [if_neg (by decide), if_pos rfl, far_eq]
      exact good_far.1

theorem ownSec_deep : OwnSec deepView deepInode.iSectors where
  used q hq := by
    have hall : ∀ a ∈ [900, 901, 902], deepView.used a = true := by decide
    rw [hold_deep] at hq ⊢
    exact hall _ (by grind)
  once q q' hq hqq := by
    rw [hold_deep] at hq
    rw [hold_deep, hold_deep] at hqq
    grind

theorem regular_deep : Regular (formatGeom sized_small) deepView deepInode.iSectors where
  ok := dirOk_deep
  own := ownSec_deep
  top := by
    decide
  dot := ⟨0, entDot, by rw [ent_near (by decide), good_near.2 0 (by decide)]; rfl, rfl⟩
  normal k j e he := by
    have hall : ∀ x ∈ deepEntries, x.2.2.normal = false → x.1 = 0 := by decide
    exact hall _ (mem_deepEntries he)
  names k j e k' j' e' he he' := by
    have hall : ∀ x ∈ deepEntries, ∀ y ∈ deepEntries, x.2.2.name = y.2.2.name → x.1 = y.1 ∧ x.2.1 = y.2.1 := by decide
    exact hall _ (mem_deepEntries he) _ (mem_deepEntries he')
  inodes k j e k' j' e' he he' := by
    have hall : ∀ x ∈ deepEntries, ∀ y ∈ deepEntries, x.2.2.normal = true → x.2.2.ino = y.2.2.ino →
        x.1 = y.1 ∧ x.2.1 = y.2.1 := by decide
    exact hall _ (mem_deepEntries he) _ (mem_deepEntries he')

theorem ent_a : deepView.ent deepInode.iSectors 0 2 = some entA := by
  rw [ent_near (by decide), good_near.2 2 (by decide)]
  rfl

theorem ent_b : deepView.ent deepInode.iSectors 12 0 = some entB := by
  rw [ent_far (by decide), good_far.2 0 (by decide)]
  rfl

theorem delete_dir_entry_a : Deletes (formatGeom sized_small) (.heap 7) deep deepView deepInode 0 2 entA :=
  (delete_dir_entry_iff at_deep rfl regular_deep (by decide) (by decide) ent_a).mpr
    ⟨by decide, fun h => absurd h.1 (by decide)⟩

/-- The loop that counts the indirect blocks never moves on. -/
theorem indirect_delete_loops : Regular (formatGeom sized_small) deepView deepInode.iSectors ∧
    deepView.ent deepInode.iSectors 12 0 = some entB ∧ entB.normal = true ∧
    ((deleteDirEntry (.heap 7) entB.ino).on deep).run = .error .loop :=
  ⟨regular_deep, ent_b, by decide, run_of_stops (by decide)⟩

end Deep

end TrueOs.Fs
