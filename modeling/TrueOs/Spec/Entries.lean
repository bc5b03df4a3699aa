import TrueOs.Spec.Mount
import TrueOs.Spec.Open

/-! From what `file_create`, `sys_mkdir`, `sys_unlink` and `sys_rmdir` write to the tree they leave. -/

namespace TrueOs.Fs

open Function (update update_of_ne update_apply)
open Prog

structure Stands (w : View) (d : Nat) (i : Inode) : Prop where
  no : i.iNo = d
  size : i.iSize = (w.ino d).iSize
  sec : i.iSectors = w.sec d

structure NewName (w : View) (sec : Nat → Nat) (name : List UInt8) : Prop where
  valid : ValidName name
  normal : name ≠ dot ∧ name ≠ dotdot
  none : w.lookup sec name = none

section Sectors

variable {g : Geom} {w : View} {γ : Ghost} {d : Nat}

theorem Tree.size_lt (h : Tree g w γ) (hd : IsDir w γ d) : (w.ino d).iSize + 24 < 2 ^ 32 ∧
    (w.ino d).iSize % 24 = 0 ∧ 48 ≤ (w.ino d).iSize := by
  have hcard : (children w γ d).card ≤ 4096 := by
    have := Finset.card_filter_le (Finset.range 4096) (fun n => w.ibit n = true ∧ n ≠ 0 ∧ γ.par n = d)
    rwa [Finset.card_range] at this
  rw [h.size d hd.1 hd.2]
  omega

theorem DirRep.sec_le {sec : Nat → Nat} {p : Nat} (h : DirRep g w sec d p) {k : Nat} (hk : k < 13) :
    sec k < 2 ^ 32 := by
  have hmax : maxLba < 2 ^ 32 := by decide
  by_cases h12 : k = 12
  · subst h12
    by_cases h0 : sec 12 = 0
    · omega
    · have := (h.ok.tbl h0).2
      omega
  · have hadd : w.addr sec k = sec k := if_pos (by omega)
    by_cases h0 : sec k = 0
    · omega
    · have := (h.ok.addr k (by omega) (hadd.symm ▸ h0)).2
      rw [hadd] at this
      omega

theorem Tree.sec_beyond (h : Tree g w γ) {n k : Nat} (hn : w.ibit n = true) (hk : 13 ≤ k) : w.sec n k = 0 := by
  have := congrFun (congrArg Inode.iSectors (h.clean n hn)) k
  rw [Inode.clean] at this
  rw [View.sec]
  simpa only [if_neg (show ¬k < 13 by omega)] using this.symm

theorem clean_eq {i : Inode} (hno : i.iNo < 2 ^ 32) (hsize : i.iSize < 2 ^ 32)
    (hsec : ∀ k < 13, i.iSectors k < 2 ^ 32) (hbeyond : ∀ k, 13 ≤ k → i.iSectors k = 0) :
    i.clean = ⟨i.iNo, i.iSize, 0, false, i.iSectors⟩ := by
  rw [Inode.clean, Nat.mod_eq_of_lt hno, Nat.mod_eq_of_lt hsize]
  congr 1
  funext k
  by_cases hk : k < 13
  · rw [if_pos hk, Nat.mod_eq_of_lt (hsec k hk)]
  · rw [if_neg hk, hbeyond k (by omega)]

theorem clean_clean (i : Inode) : i.clean.clean = i.clean := by
  simp only [Inode.clean, Inode.mk.injEq, true_and, Nat.mod_mod]
  funext k
  by_cases hk : k < 13
  · rw [if_pos hk, if_pos hk, Nat.mod_mod]
  · rw [if_neg hk, if_neg hk]

theorem clean_edited {w₁ : View} {sec' : Nat → Nat} {i : Inode} {o : Option Ent} {k j p size : Nat}
    (hT : Tree g w γ) (hd : IsDir w γ d) (hs : Stands w d i) (he : Edit g w (w.sec d) k j o w₁ sec')
    (hr : DirRep g w₁ sec' d p) (hsize : size < 2 ^ 32) : (i.body size sec').clean = ⟨d, size, 0, false, sec'⟩ := by
  have hno := (hT.no d hd.1).1
  have := clean_eq (i := i.body size sec') (by rw [Inode.body_iNo, hs.no]; omega) hsize
    (fun x hx => hr.sec_le hx) (fun x hx => by
      rw [Inode.body_iSectors, he.beyond x hx, hT.sec_beyond hd.1 hx])
  rw [this, Inode.body_iNo, hs.no]
  rfl

end Sectors

section Reserve

variable {g : Geom} {w w' : View} {γ : Ghost} {lba : Nat} {b : Buf}

theorem Tree.same (hT : Tree g w γ) (hib : w'.ibit = w.ibit) (hino : w'.ino = w.ino)
    (hblk : ∀ n, w.ibit n = true → SameBlocks w w' (w.sec n)) : Tree g w' γ := by
  have hsec : w'.sec = w.sec := by
    funext n
    rw [View.sec, View.sec, hino]
  have hchild : ∀ d, children w' γ d = children w γ d := by
    intro d
    simp only [children, hib]
  constructor
  · rw [hib]
    exact hT.root
  · rw [hib, hino]
    exact hT.no
  · rw [hib, hino]
    exact hT.clean
  · rw [hib, hsec]
    exact fun d hd hdir => (hblk d hd).dirRep (hT.dir d hd hdir)
  · rw [hib, hsec, hino]
    exact fun n hn hf => (hblk n hn).fileRep (hT.file n hn hf)
  · rw [hib, hsec]
    intro d k j e hd hdir he
    rw [(hblk d hd).ent] at he
    exact hT.ent d k j e hd hdir he
  · rw [hib, hsec]
    intro d k j e k' j' e' hd hdir he he'
    rw [(hblk d hd).ent] at he he'
    exact hT.once d k j e k' j' e' hd hdir he he'
  · rw [hib]
    exact hT.par
  · rw [hib, hino]
    intro d hd hdir
    rw [hchild]
    exact hT.size d hd hdir

theorem reserve_blk_of_ne {l : Nat} (hl : l ≠ lba) : (w.reserve g lba b).blk l = w.blk l :=
  View.blk_setBlk_of_ne hl _ _

theorem reserve_used (l : Nat) : (w.reserve g lba b).used l = if l = lba then true else w.used l :=
  update_apply w.used lba true l

theorem FirstFree.ne_zero (hf : FirstFree g w lba) : lba ≠ 0 := by
  have h₁ := hf.base_le
  have h₂ := g.base_pos
  omega

theorem Own.reserve_same (hO : Own w) (hf : FirstFree g w lba) {n : Nat} (hn : w.ibit n = true) :
    SameBlocks w (w.reserve g lba b) (w.sec n) := by
  intro q _
  exact reserve_blk_of_ne (hO.free hf.free hf.ne_zero n q hn)

theorem Own.reserve (hO : Own w) (hf : FirstFree g w lba) : Own (w.reserve g lba b) := by
  have hhold : ∀ n q, w.ibit n = true → (w.reserve g lba b).hold ((w.reserve g lba b).sec n) q =
      w.hold (w.sec n) q := fun n q hn => (hO.reserve_same hf hn).hold
  constructor
  · intro n q hn hq
    have hn : w.ibit n = true := hn
    rw [hhold n q hn] at hq ⊢
    rw [reserve_used]
    split
    · rfl
    · exact hO.used n q hn hq
  · intro n q n' q' hn hn' hq he
    have hn : w.ibit n = true := hn
    have hn' : w.ibit n' = true := hn'
    rw [hhold n q hn] at hq he
    rw [hhold n' q' hn'] at he
    exact hO.once n q n' q' hn hn' hq he

theorem Tree.reserve (hT : Tree g w γ) (hO : Own w) (hf : FirstFree g w lba) :
    Tree g (w.reserve g lba b) γ := hT.same rfl rfl fun _ hn => hO.reserve_same hf hn

theorem Own.reserve_free (hO : Own w) (hf : FirstFree g w lba) : Free (w.reserve g lba b) lba := by
  intro n q hn
  have hn : w.ibit n = true := hn
  have : (w.reserve g lba b).hold ((w.reserve g lba b).sec n) q = w.hold (w.sec n) q :=
    (hO.reserve_same hf hn).hold
  rw [this]
  exact hO.free hf.free hf.ne_zero n q hn

end Reserve

structure Grown (g : Geom) (w : View) (γ : Ghost) (d n size : Nat) (sec : Nat → Nat) (i' : Inode)
    (isDir : Bool) (W : View) : Prop where
  dir : IsDir w γ d
  free : w.ibit n = false
  own : Own W
  tree : Tree g W (γ.add n d isDir)
  ibit : W.ibit = update w.ibit n true
  ino : W.ino = update (update w.ino d ⟨d, size, 0, false, sec⟩) n i'
  base : W.sec 0 0 = w.sec 0 0

structure Shrunk (g : Geom) (w : View) (γ : Ghost) (d n size : Nat) (sec : Nat → Nat) (W : View) : Prop where
  dir : IsDir w γ d
  used : w.ibit n = true
  ne : d ≠ n
  own : Own W
  tree : Tree g W γ
  ibit : W.ibit = update w.ibit n false
  ino : W.ino = update (update w.ino d ⟨d, size, 0, false, sec⟩) n noInode
  base : W.sec 0 0 = w.sec 0 0

section Put

variable {g : Geom} {w w₁ : View} {γ : Ghost} {d n lba : Nat} {sec sec' : Nat → Nat} {i : Inode}
  {e : Ent} {name : List UInt8}

theorem Inserted.setIbit {b : Bool} {pl : Place} (h : Inserted g (w.setIbit n b) sec e pl w₁ sec') :
    ∃ w₂, Inserted g w sec e pl w₂ sec' ∧ w₁ = w₂.setIbit n b := by
  cases h with
  | slot k j => exact ⟨_, .slot k j, rfl⟩
  | direct k lba hf hm => exact ⟨_, .direct k lba ⟨hf.base_le, hf.lt_top, hf.free, hf.below⟩ hm, rfl⟩
  | table l₁ l₂ hf₁ hf₂ hm₁ hm₂ =>
    exact ⟨_, .table l₁ l₂ ⟨hf₁.base_le, hf₁.lt_top, hf₁.free, hf₁.below⟩
      ⟨hf₂.base_le, hf₂.lt_top, hf₂.free, hf₂.below⟩ hm₁ hm₂, rfl⟩

theorem Inserted.first {p : Nat} (h : Inserted g w sec e (w.place sec) w₁ sec') (hr : DirRep g w sec d p) :
    sec' 0 = sec 0 := by
  obtain ⟨-, -, ha, -⟩ := ent_eq_some hr.dot
  generalize hp : w.place sec = pl at h
  cases h with
  | slot k j => rfl
  | direct k lba hf hm =>
    have hk : 0 ≠ k := by
      rintro rfl
      exact ha (place_direct hp).2
    exact update_of_ne hk _ _
  | table l₁ l₂ hf₁ hf₂ hm₁ hm₂ => exact update_of_ne (show 0 ≠ 12 by omega) _ _

theorem NewName.ok (h : NewName w sec name) (hn : n < 4096) {ty : Nat} (ht : ty = ftRegular ∨ ty = ftDirectory) :
    Ent.Ok ⟨name, n, ty⟩ := ⟨h.valid, hn, ht⟩

theorem NewName.ent_normal (h : NewName w sec name) {ty : Nat} : Ent.normal ⟨name, n, ty⟩ = true := by
  simpa [Ent.normal] using h.normal

theorem NewName.ne (h : NewName w sec name) {k j : Nat} {e : Ent} (he : w.ent sec k j = some e) :
    e.name ≠ name := lookup_none h.none he

theorem fileRep_new (W : View) : FileRep W (fun _ => 0) 0 where
  lt := by omega
  fresh _ := rfl
  addr b _ := by
    have : W.addr (fun _ => 0) b = 0 := by
      rw [View.addr]
      split
      · rfl
      · rw [if_neg (by simp)]
    simp [this]
  tbl := by simp

theorem hold_zero (W : View) (q : Nat) : W.hold (fun _ => 0) q = 0 := by
  have h := hold_single W 0 q
  rwa [Function.update_eq_self_iff.mpr rfl, ite_self] at h

theorem Grafted.grown {W : View} {k j size : Nat} {i' : Inode}
    (h : Grafted g w γ d n k j e w₁ sec' ⟨d, size, 0, false, sec'⟩ i' W) (hO : Own w) (hT : Tree g w γ)
    (hfirst : sec' 0 = w.sec d 0) : Grown g w γ d n size sec' i' (decide (e.ty = ftDirectory)) W where
  dir := h.dir
  free := h.free
  own := h.own hO
  tree := h.tree hO hT
  ibit := by
    rw [h.graft.ibit, ← h.edit.ibit]
    rfl
  ino := by
    rw [h.graft.ino, ← h.edit.ino]
    rfl
  base := by
    by_cases hd : 0 = d
    · subst hd
      rw [h.sec_d, hfirst]
    · rw [h.sec_of_ne hd (h.ne_zero hT).symm]

theorem grown_file (hO : Own w) (hT : Tree g w γ) (hd : IsDir w γ d) (hs : Stands w d i)
    (hn : FreeIno w n) (hname : NewName w (w.sec d) name)
    (hins : Inserted g (w.setIbit n true) i.iSectors ⟨name, n, ftRegular⟩ (w.place i.iSectors) w₁ sec') :
    Grown g w γ d n (add32 i.iSize 24) sec' (inodeInit n) false
      ((w₁.setIno i.iNo (i.body (add32 i.iSize 24) sec').clean).setIno n (inodeInit n)).syncIbits := by
  rw [hs.sec] at hins
  obtain ⟨w₂, hins₂, rfl⟩ := hins.setIbit
  have hsz := (hT.size_lt hd).1
  have hadd : add32 i.iSize 24 = (w.ino d).iSize + 24 := by rw [hs.size, add32_of_lt hsz]
  obtain ⟨k, j, hed, -, hr⟩ := hins₂.edit (hT.rep hd) (hO.sec hd.1) (hname.ok hn.lt (Or.inl rfl))
    hname.ent_normal (fun k j e' he' => hname.ne he')
  have hclean := clean_edited hT hd hs hed hr hsz
  rw [hadd, hs.no, hclean]
  have hgraft : Grafted g w γ d n k j ⟨name, n, ftRegular⟩ w₂ sec' ⟨d, (w.ino d).iSize + 24, 0, false, sec'⟩
      (inodeInit n) (((w₂.setIbit n true).setIno d ⟨d, (w.ino d).iSize + 24, 0, false, sec'⟩).setIno n
        (inodeInit n)).syncIbits := by
    refine ⟨hd, hn.free, hn.lt, hed, hr, ⟨rfl, rfl, rfl, rfl⟩, hname.ent_normal, rfl, rfl, rfl, rfl, ?_, rfl,
      clean_inodeInit hn.lt, ?_, ?_, ?_⟩
    · rw [← hclean]
      exact clean_clean _
    · intro q hq
      exact absurd (hold_zero _ q) hq
    · exact fun _ => fileRep_new _
    · intro ht
      cases ht
  exact hgraft.grown hO hT (hins₂.first (hT.rep hd))

theorem clean_newDir (hn : n < 4096) (hl : lba ≤ maxLba) : (newDir n lba).clean = newDir n lba := by
  have hmax : maxLba < 2 ^ 32 := by decide
  apply clean_eq
  · exact show n < 2 ^ 32 by omega
  · exact show 48 < 2 ^ 32 by omega
  · intro k _
    simp only [newDir, update_apply]
    split <;> omega
  · intro k hk
    have h0 : k ≠ 0 := by omega
    simp only [newDir, update_of_ne h0]

theorem reserve_place {b : Buf} (hO : Own w) (hf : FirstFree g w lba) (hd : w.ibit d = true) :
    (w.reserve g lba b).place (w.sec d) = w.place (w.sec d) := by
  apply placeIn_congr
  intro k hk h0
  have hk := List.mem_range.mp hk
  have hh : w.hold (w.sec d) k = w.sec d k := by rw [hold_of_lt hk, View.addr, if_pos hk]
  have := hO.reserve_same (g := g) (b := b) hf hd k
  rw [hh] at this
  exact this h0

theorem NewName.same {w' : View} (h : NewName w sec name) (hs : SameBlocks w w' sec) : NewName w' sec name := by
  refine ⟨h.valid, h.normal, ?_⟩
  cases hl : w'.lookup sec name with
  | none => rfl
  | some e =>
    obtain ⟨k, j, he, hne⟩ := lookup_some hl
    rw [hs.ent] at he
    exact absurd hne (h.ne he)

theorem grown_dir (hO : Own w) (hT : Tree g w γ) (hd : IsDir w γ d) (hs : Stands w d i)
    (hn : FreeIno w n) (hf : FirstFree g w lba) (hl : lba ≤ maxLba) (hname : NewName w (w.sec d) name)
    (hins : Inserted g ((w.setIbit n true).reserve g lba ((dotBlock n i.iNo).slice 0 512)) i.iSectors
      ⟨name, n, ftDirectory⟩ (w.place i.iSectors) w₁ sec') :
    Grown g w γ d n (add32 i.iSize 24) sec' (newDir n lba) true
      ((w₁.setIno i.iNo (i.body (add32 i.iSize 24) sec').clean).setIno n (newDir n lba).clean).syncIbits := by
  rw [hs.no] at hins
  generalize hb : (dotBlock n d).slice 0 512 = b at hins
  rw [hs.sec, ← reserve_place (b := b) hO hf hd.1] at hins
  have hins : Inserted g ((w.reserve g lba b).setIbit n true) (w.sec d) ⟨name, n, ftDirectory⟩
    ((w.reserve g lba b).place (w.sec d)) w₁ sec' := hins
  obtain ⟨w₂, hins₂, rfl⟩ := hins.setIbit
  have hO' : Own (w.reserve g lba b) := hO.reserve hf
  have hT' : Tree g (w.reserve g lba b) γ := hT.reserve hO hf
  have hname' := hname.same (hO.reserve_same (g := g) (b := b) hf hd.1)
  have hsz := (hT.size_lt hd).1
  have hlt := (hT.no d hd.1).1
  have hadd : add32 i.iSize 24 = (w.ino d).iSize + 24 := by rw [hs.size, add32_of_lt hsz]
  obtain ⟨k, j, hed, -, hr⟩ := hins₂.edit (hT'.rep hd) (hO'.sec hd.1) (hname'.ok hn.lt (Or.inr rfl))
    hname'.ent_normal (fun k j e' he' => hname'.ne he')
  have hs' : Stands (w.reserve g lba b) d i := ⟨hs.no, hs.size, hs.sec⟩
  have hclean := clean_edited hT' hd hs' hed hr hsz
  -- the new block is not the directory's, so the edit leaves it alone
  have hused : (w.reserve g lba b).used lba = true := by rw [reserve_used, if_pos rfl]
  obtain ⟨hblk, hused₂⟩ := hed.keep lba hused fun q => hO.reserve_free hf d q hd.1
  have hblk : w₂.blk lba = (dotBlock n d).slice 0 512 := by
    rw [hblk, hb]
    exact View.blk_setBlk_self _ _ _
  rw [hadd, hs.no, hclean, clean_newDir hn.lt hl]
  have hgraft : Grafted g (w.reserve g lba b) γ d n k j ⟨name, n, ftDirectory⟩ w₂ sec'
      ⟨d, (w.ino d).iSize + 24, 0, false, sec'⟩ (newDir n lba) (((w₂.setIbit n true).setIno d
        ⟨d, (w.ino d).iSize + 24, 0, false, sec'⟩).setIno n (newDir n lba)).syncIbits := by
    refine ⟨hd, hn.free, hn.lt, hed, hr, ⟨rfl, rfl, rfl, rfl⟩, hname'.ent_normal, rfl, rfl, rfl, rfl, ?_, rfl,
      clean_newDir hn.lt hl, ?_, ?_, ?_⟩
    · rw [← hclean]
      exact clean_clean _
    · intro q hq
      rw [newDir, hold_single] at hq ⊢
      split at hq
      · rename_i h0
        rw [if_pos h0]
        exact ⟨h0, hO.reserve_free hf, hused, hused₂⟩
      · exact absurd rfl hq
    · exact fun hne => absurd rfl hne
    · intro _
      refine ⟨dirRep_new hn.lt hlt hblk hf.base_le hl, rfl, fun k j e' he' => ?_⟩
      exact new_not_normal hn.lt hlt hblk hf.ne_zero he'
  have hgrown := hgraft.grown hO' hT' (hins₂.first (hT'.rep hd))
  exact ⟨hgrown.dir, hgrown.free, hgrown.own, hgrown.tree, hgrown.ibit, hgrown.ino, hgrown.base⟩

end Put

section Cut

variable {g : Geom} {w w₁ W : View} {γ : Ghost} {d n k j : Nat} {sec sec' : Nat → Nat} {i : Inode} {e : Ent}

theorem Removed.first {p : Nat} (h : Removed g w sec k j w₁ sec') (hr : DirRep g w sec d p) :
    sec' 0 = sec 0 := by
  cases h with
  | clear hl => rfl
  | free hl hk =>
    have hk : 0 ≠ k := by
      rintro rfl
      exact not_lastEntry_of_dot hr.dot rfl hl
    exact update_of_ne hk _ _

theorem releaseAll_blk (w : View) (ls : List Nat) : (w.releaseAll g ls).blk = w.blk ∧
    (w.releaseAll g ls).ino = w.ino ∧ (w.releaseAll g ls).ibit = w.ibit := by
  induction ls generalizing w with
  | nil => exact ⟨rfl, rfl, rfl⟩
  | cons l ls ih => exact ih (w.release g l)

theorem releaseAll_used {l : Nat} {ls : List Nat} (hl : l ∉ ls) (h : w.used l = true) :
    (w.releaseAll g ls).used l = true := by
  induction ls generalizing w with
  | nil => exact h
  | cons x ls ih =>
    rw [List.mem_cons, not_or] at hl
    apply ih hl.2
    exact (update_of_ne hl.1 _ _).trans h

theorem hold_of_mem_blocks {l : Nat} (hl : l ∈ w.blocks sec) : l ≠ 0 ∧ ∃ q, w.hold sec q = l := by
  rcases List.mem_append.mp hl with hl | hl
  · split at hl
    · cases hl
    · rename_i h0
      obtain rfl := List.mem_singleton.mp hl
      exact ⟨h0, 12, hold_table⟩
  · obtain ⟨hl, h0⟩ := List.mem_filter.mp hl
    obtain ⟨k, -, rfl⟩ := List.mem_map.mp hl
    exact ⟨by simpa using h0, exists_hold w sec k⟩

theorem shrunk (hO : Own w) (hT : Tree g w γ) (hd : IsDir w γ d) (hs : Stands w d i)
    (he : w.ent (w.sec d) k j = some e) (hn : e.normal = true) (hino : e.ino = n)
    (hleaf : ∀ x, w.ibit x = true → x ≠ 0 → γ.par x ≠ n) (hrem : Removed g w i.iSectors k j w₁ sec') :
    Shrunk g w γ d n (i.iSize - 24) sec'
      ((w₁.setIno i.iNo (i.body (i.iSize - 24) sec').clean).freed g n (w.sec n)) := by
  rw [hs.sec] at hrem
  obtain ⟨hed, hr, -⟩ := hrem.edit (hT.rep hd) (hO.sec hd.1) he hn
  have hsz := (hT.size_lt hd).1
  have hclean : (i.body (i.iSize - 24) sec').clean = ⟨d, i.iSize - 24, 0, false, sec'⟩ :=
    clean_edited hT hd hs hed hr (by rw [hs.size]; omega)
  obtain ⟨hib, h0, hpar, -⟩ := hT.ent d k j e hd.1 hd.2 he hn
  rw [hino] at hib h0 hpar
  have hne : d ≠ n := by
    rintro rfl
    exact hleaf d hd.1 h0 hpar
  rw [hs.no, hclean]
  generalize hw₂ : w₁.setIno d ⟨d, i.iSize - 24, 0, false, sec'⟩ = w₂
  have hblk₂ : w₂.blk = w₁.blk := by rw [← hw₂]; rfl
  -- what `n` holds is read from disk after the entry has gone
  have hsame : SameBlocks w w₂ (w.sec n) := by
    rw [SameBlocks, hblk₂]
    exact (hed.same hO hd.1 hib hne.symm).1
  obtain ⟨hrblk, hrino, hribit⟩ := releaseAll_blk (g := g) w₂ (w₂.blocks (w.sec n))
  have hpruned : Pruned g w γ d n k j e w₁ sec' ⟨d, i.iSize - 24, 0, false, sec'⟩
      (w₂.freed g n (w.sec n)) := by
    refine ⟨hd, he, hn, hino, hleaf, hed, hr, rfl, by rw [hs.size], rfl, ?_, ?_, ?_, ?_, ?_⟩
    · rw [← hclean]
      exact clean_clean _
    · exact hrblk.trans hblk₂
    · intro l hu hq
      apply releaseAll_used
      · intro hl
        obtain ⟨-, q, hql⟩ := hold_of_mem_blocks hl
        rw [hsame.hold] at hql
        exact hq q hql
      · rw [← hw₂]
        exact hu
    · show update (w₂.releaseAll g (w₂.blocks (w.sec n))).ibit n false = _
      rw [hribit, ← hed.ibit, ← hw₂]
      rfl
    · show update (w₂.releaseAll g (w₂.blocks (w.sec n))).ino n noInode = _
      rw [hrino, ← hed.ino, ← hw₂]
      rfl
  refine ⟨hd, hib, hne, hpruned.own hO hT, hpruned.tree hO hT, hpruned.ibit, hpruned.inodes, ?_⟩
  by_cases h0d : 0 = d
  · subst h0d
    rw [hpruned.sec_d hT, hrem.first (hT.rep hd)]
  · rw [hpruned.sec_of_ne h0.symm h0d]

end Cut

end TrueOs.Fs
