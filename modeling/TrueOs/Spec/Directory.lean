import TrueOs.Spec.Returns

/-! A directory under any sequence of insertions and deletions. -/

namespace TrueOs.Fs

open Function (update update_self update_of_ne)
open Prog

structure Direct (w : View) (sec : Nat → Nat) : Prop where
  flat : sec 12 = 0
  used : ∀ k < 12, sec k ≠ 0 → w.used (sec k) = true ∧ sec k ≤ maxLba
  once : ∀ k < 12, ∀ k' < 12, sec k ≠ 0 → sec k = sec k' → k = k'

def View.live (w : View) (sec : Nat → Nat) : Finset (Nat × Nat) :=
  (Finset.range 12 ×ˢ Finset.range 21).filter (fun x => (w.ent sec x.1 x.2).isSome)

structure Formed (w : View) (sec : Nat → Nat) (size : Nat) : Prop extends Direct w sec where
  size : size = 24 * (w.live sec).card
  dot : (w.ent sec 0 0).map Ent.name = some dot
  dotdot : (w.ent sec 0 1).map Ent.name = some dotdot
  normal : ∀ k j e, w.ent sec k j = some e → e.normal = false → k = 0 ∧ j ≤ 1
  block : ∀ k, 1 ≤ k → k < 12 → sec k ≠ 0 → ∃ j e, w.ent sec k j = some e

structure Slotted (w : View) (sec : Nat → Nat) (k j : Nat) (o : Option Ent) (w' : View) (sec' : Nat → Nat) : Prop where
  direct : Direct w' sec'
  ent : ∀ k' j', w'.ent sec' k' j' = if k' = k ∧ j' = j then o else w.ent sec k' j'
  sec : ∀ x, x ≠ k → sec' x = sec x

section Slots

variable {g : Geom} {w w' : View} {sec sec' : Nat → Nat} {k j lba : Nat} {o : Option Ent} {e : Ent} {i : Inode}

theorem mem_live : (k, j) ∈ w.live sec ↔ k < 12 ∧ j < 21 ∧ (w.ent sec k j).isSome := by
  rw [View.live, Finset.mem_filter, Finset.mem_product, Finset.mem_range, Finset.mem_range, and_assoc]

theorem card_live_le (w : View) (sec : Nat → Nat) : (w.live sec).card ≤ 252 :=
  (Finset.card_filter_le _ _).trans (by rw [Finset.card_product, Finset.card_range, Finset.card_range])

theorem ent_of_lt (hk : k < 12) (hj : j < 21) : w.ent sec k j = if sec k = 0 then none else slot (w.blk (sec k)) j := by
  have ha : w.addr sec k = sec k := if_pos hk
  rw [View.ent, ha]
  by_cases h0 : sec k = 0
  · rw [if_pos h0, if_neg fun hc => hc.2.2 h0]
  · rw [if_neg h0, if_pos ⟨by omega, hj, h0⟩]

theorem Direct.lt_of_ent (h : Direct w sec) (he : w.ent sec k j = some e) : k < 12 ∧ j < 21 ∧ sec k ≠ 0 := by
  obtain ⟨-, hj, ha, -⟩ := ent_eq_some he
  by_cases hk : k < 12
  · rw [View.addr, if_pos hk] at ha
    exact ⟨hk, hj, ha⟩
  · rw [View.addr, if_neg hk, if_neg fun hc => hc.2 h.flat] at ha
    exact absurd rfl ha

theorem Direct.ent_none (h : Direct w sec) (hkj : 12 ≤ k ∨ 21 ≤ j) : w.ent sec k j = none := by
  cases he : w.ent sec k j with
  | none => rfl
  | some e =>
    obtain ⟨hk, hj, -⟩ := h.lt_of_ent he
    omega

theorem Direct.mem_live (h : Direct w sec) (he : w.ent sec k j = some e) : (k, j) ∈ w.live sec := by
  obtain ⟨hk, hj, -⟩ := h.lt_of_ent he
  exact Fs.mem_live.mpr ⟨hk, hj, he ▸ rfl⟩

theorem slotted_of_block (h : Direct w sec) (h' : Direct w' sec') (hk : k < 12) (hj : j < 21)
    (hself : ∀ j' < 21, w'.ent sec' k j' = if j' = j then o else w.ent sec k j')
    (hsec : ∀ x, x ≠ k → sec' x = sec x)
    (hblk : ∀ x < 12, x ≠ k → sec x ≠ 0 → w'.blk (sec x) = w.blk (sec x)) : Slotted w sec k j o w' sec' where
  direct := h'
  sec := hsec
  ent k' j' := by
    by_cases hin : k' < 12 ∧ j' < 21
    · obtain ⟨hk', hj'⟩ := hin
      by_cases hkk : k' = k
      · subst hkk
        simpa using hself j' hj'
      · rw [if_neg fun hc => hkk hc.1, ent_of_lt hk' hj', ent_of_lt hk' hj', hsec k' hkk]
        split
        · rfl
        · next h0 => rw [hblk k' hk' hkk h0]
    · rw [h'.ent_none (by omega), if_neg (by omega), h.ent_none (by omega)]

theorem slot_put (b d : Buf) (j : Nat) {x : Nat} (hx : x < 21) :
    slot ((b.splice (24 * j) 24 d).slice 0 512) x = if x = j then slot d 0 else slot b x := by
  rw [slot, ofBytes_sector _ hx]
  by_cases hxj : x = j
  · have hbytes : DirEntry.ofBytes (b.splice (24 * j) 24 d) (24 * x) = DirEntry.ofBytes d (24 * 0) := by
      refine entryBytes_congr fun y hy => ?_
      rw [hxj, Buf.splice_of_mem (by omega) (by omega), Nat.add_sub_cancel_left, Nat.mul_zero, Nat.zero_add]
    rw [hbytes, if_pos hxj]
    rfl
  · rw [ofBytes_splice_of_ne b d hxj, if_neg hxj]
    rfl

theorem slotted_overwrite (h : Direct w sec) (hk : k < 12) (h0 : sec k ≠ 0) (hj : j < 21) (d : Buf) :
    Slotted w sec k j (slot d 0) (w.setBlk (sec k) (((w.blk (sec k)).splice (24 * j) 24 d).slice 0 512)) sec := by
  refine slotted_of_block h ⟨h.flat, h.used, h.once⟩ hk hj (fun j' hj' => ?_) (fun _ _ => rfl) fun x hx hne hx0 => ?_
  · rw [ent_of_lt hk hj', ent_of_lt hk hj', if_neg h0, if_neg h0, View.blk_setBlk_self, slot_put _ _ _ hj']
  · exact View.blk_setBlk_of_ne (fun he => hne (h.once x hx k hk hx0 he)) _ _

theorem Direct.ne_of_free (h : Direct w sec) (hf : w.used lba = false) {x : Nat} (hx : x < 12) (hx0 : sec x ≠ 0) :
    sec x ≠ lba := by
  rintro rfl
  exact Bool.false_ne_true (hf.symm.trans (h.used x hx hx0).1)

theorem slotted_new (h : Direct w sec) (hk : k < 12) (hz : sec k = 0) (hf : FirstFree g w lba) (hm : lba ≤ maxLba) :
    Slotted w sec k 0 (slot e.entry.bytes 0) (((w.setUsed lba true).syncUsed g lba).setBlk lba (entryBlock e))
      (update sec k lba) := by
  have hl0 : lba ≠ 0 := Nat.ne_of_gt (Nat.lt_of_lt_of_le g.base_pos hf.base_le)
  have hsec : ∀ x, x ≠ k → update sec k lba x = sec x := fun x hx => update_of_ne hx _ _
  refine slotted_of_block h ⟨?_, fun x hx hx0 => ?_, fun x hx y hy hx0 hxy => ?_⟩ hk (Nat.zero_lt_succ _)
    (fun j' hj' => ?_) hsec fun x hx hne hx0 => ?_
  · rw [hsec 12 (by omega), h.flat]
  · by_cases hxk : x = k
    · subst hxk
      rw [update_self]
      exact ⟨update_self _ _ _, hm⟩
    · rw [hsec x hxk] at hx0 ⊢
      exact ⟨(update_of_ne (h.ne_of_free hf.free hx hx0) _ _).trans (h.used x hx hx0).1, (h.used x hx hx0).2⟩
  · by_cases hxk : x = k
    · by_contra hne
      have hy0 : sec y = lba := by
        rw [← hsec y fun hc => hne (hxk.trans hc.symm), ← hxy, hxk, update_self]
      exact h.ne_of_free hf.free hy (hy0 ▸ hl0) hy0
    · rw [hsec x hxk] at hx0 hxy
      by_cases hyk : y = k
      · rw [hyk, update_self] at hxy
        exact absurd hxy (h.ne_of_free hf.free hx hx0)
      · rw [hsec y hyk] at hxy
        exact h.once x hx y hy hx0 hxy
  · rw [ent_of_lt hk hj', ent_of_lt hk hj', if_pos hz, update_self, if_neg hl0, View.blk_setBlk_self, entryBlock,
      slot_put _ _ _ hj', slot_zero]
  · exact View.blk_setBlk_of_ne (h.ne_of_free hf.free hx hx0) _ _

theorem slotted_free (h : Direct w sec) (hk : k < 12) (hj : j < 21) (hz : ∀ j', j' ≠ j → w.ent sec k j' = none) :
    Slotted w sec k j none ((w.setUsed (sec k) false).syncUsed g (sec k)) (update sec k 0) := by
  have hsec : ∀ x, x ≠ k → update sec k 0 x = sec x := fun x hx => update_of_ne hx _ _
  have hne : ∀ x, update sec k 0 x ≠ 0 → x ≠ k := by
    rintro x hx rfl
    exact hx (update_self _ _ _)
  refine slotted_of_block h ⟨?_, fun x hx hx0 => ?_, fun x hx y hy hx0 hxy => ?_⟩ hk hj (fun j' hj' => ?_) hsec
    fun x hx hxk hx0 => rfl
  · rw [hsec 12 (by omega), h.flat]
  · have hxk := hne x hx0
    rw [hsec x hxk] at hx0 ⊢
    refine ⟨(update_of_ne (fun hc => hxk ?_) _ _).trans (h.used x hx hx0).1, (h.used x hx hx0).2⟩
    exact h.once x hx k hk hx0 hc
  · have hyk : y ≠ k := hne y (hxy ▸ hx0)
    have hxk := hne x hx0
    rw [hsec x hxk] at hx0 hxy
    rw [hsec y hyk] at hxy
    exact h.once x hx y hy hx0 hxy
  · rw [ent_of_lt hk hj', update_self, if_pos rfl]
    split
    · rfl
    · next hjj => exact (hz j' hjj).symm

theorem Slotted.live_insert (h : Slotted w sec k j (some e) w' sec') (hk : k < 12) (hj : j < 21) :
    w'.live sec' = insert (k, j) (w.live sec) := by
  ext ⟨x, y⟩
  rw [Finset.mem_insert, mem_live, mem_live, h.ent, Prod.mk.injEq]
  by_cases hxy : x = k ∧ y = j
  · simp [hxy, hk, hj]
  · simp [hxy]

theorem Slotted.live_erase (h : Slotted w sec k j none w' sec') : w'.live sec' = (w.live sec).erase (k, j) := by
  ext ⟨x, y⟩
  rw [Finset.mem_erase, mem_live, mem_live, h.ent, ne_eq, Prod.mk.injEq]
  by_cases hxy : x = k ∧ y = j
  · simp [hxy]
  · simp [hxy]

end Slots

section Steps

variable {g : Geom} {w w' : View} {sec sec' : Nat → Nat} {k j n size : Nat} {e : Ent} {i : Inode} {m : Mem} {s t : Fs} {d : DirRef}

theorem Formed.put (h : Formed w sec size) (hs : Slotted w sec k j (some e) w' sec') (hk : k < 12) (hj : j < 21)
    (hfree : w.ent sec k j = none) (hn : e.normal = true) : Formed w' sec' (add32 size 24) := by
  have hkeep : ∀ {x y : Nat} {name : List UInt8}, (w.ent sec x y).map Ent.name = some name →
      (w'.ent sec' x y).map Ent.name = some name := by
    intro x y name hname
    rw [hs.ent, if_neg, hname]
    rintro ⟨rfl, rfl⟩
    rw [hfree] at hname
    cases hname
  have hnew : (k, j) ∉ w.live sec := fun hmem => by simp [mem_live, hfree] at hmem
  refine ⟨hs.direct, ?_, hkeep h.dot, hkeep h.dotdot, fun x y e' he' hne => ?_, fun x h₁ h₁₂ h0 => ?_⟩
  · have hcard := card_live_le w sec
    have hsize := h.size
    simp only [hs.live_insert hk hj, Finset.card_insert_of_notMem hnew, add32]
    omega
  · rw [hs.ent] at he'
    split at he'
    · cases he'
      rw [hn] at hne
      cases hne
    · exact h.normal x y e' he' hne
  · by_cases hxk : x = k
    · exact ⟨j, e, by rw [hs.ent, if_pos ⟨hxk, rfl⟩]⟩
    · rw [hs.sec x hxk] at h0
      obtain ⟨y, e', he'⟩ := h.block x h₁ h₁₂ h0
      exact ⟨y, e', by rw [hs.ent, if_neg fun hc => hxk hc.1, he']⟩

theorem Formed.cut (h : Formed w sec size) (hs : Slotted w sec k j none w' sec') (he : w.ent sec k j = some e)
    (hn : e.normal = true) (hother : sec' k ≠ 0 → ∃ j' e', j' ≠ j ∧ w.ent sec k j' = some e') :
    Formed w' sec' (size - 24) := by
  have hkeep : ∀ {x y : Nat} {name : List UInt8}, name = Fs.dot ∨ name = Fs.dotdot →
      (w.ent sec x y).map Ent.name = some name → (w'.ent sec' x y).map Ent.name = some name := by
    intro x y name hdots hname
    rw [hs.ent, if_neg, hname]
    rintro ⟨rfl, rfl⟩
    rw [he] at hname
    cases hname
    obtain ⟨hd, hdd⟩ := of_decide_eq_true hn
    exact hdots.elim hd hdd
  refine ⟨hs.direct, ?_, hkeep (Or.inl rfl) h.dot, hkeep (Or.inr rfl) h.dotdot, fun x y e' he' hne => ?_,
    fun x h₁ h₁₂ h0 => ?_⟩
  · have hsize := h.size
    simp only [hs.live_erase, Finset.card_erase_of_mem (h.mem_live he)]
    omega
  · rw [hs.ent] at he'
    split at he'
    · cases he'
    · exact h.normal x y e' he' hne
  · by_cases hxk : x = k
    · obtain ⟨y, e', hy, he'⟩ := hother (hxk ▸ h0)
      exact ⟨y, e', by rw [hs.ent, if_neg fun hc => hy hc.2, hxk, he']⟩
    · rw [hs.sec x hxk] at h0
      obtain ⟨y, e', he'⟩ := h.block x h₁ h₁₂ h0
      exact ⟨y, e', by rw [hs.ent, if_neg fun hc => hxk hc.1, he']⟩

/-- As it is stored, the entry is in use and is neither `.` nor `..`. -/
def Ent.Proper (e : Ent) : Prop := (slot e.entry.bytes 0).any Ent.normal = true

instance (e : Ent) : Decidable e.Proper := inferInstanceAs (Decidable (_ = true))

theorem Inserted.formed (h : Formed w sec size) (he : e.Proper) (hins : Inserted g w sec e (w.place sec) w' sec')
    (hflat : sec' 12 = 0) : Formed w' sec' (add32 size 24) := by
  rw [Ent.Proper, Option.any_eq_true] at he
  obtain ⟨e', he', hn⟩ := he
  generalize hp : w.place sec = pl at hins
  cases hins with
  | slot k j =>
    obtain ⟨hk, hk0, hdead⟩ := place_slot hp
    obtain ⟨hj, hslot⟩ := firstDead_some hdead
    have hs := slotted_overwrite h.toDirect hk hk0 hj e.entry.bytes
    rw [he'] at hs
    exact h.put hs hk hj (by rw [ent_of_lt hk hj, if_neg hk0, hslot]) hn
  | direct k lba hf hm =>
    obtain ⟨hk, hz⟩ := place_direct hp
    have hs := slotted_new (e := e) h.toDirect hk hz hf hm
    rw [he'] at hs
    exact h.put hs hk (Nat.zero_lt_succ _) (by rw [ent_of_lt hk (Nat.zero_lt_succ _), if_pos hz]) hn
  | table l₁ l₂ hf₁ hf₂ hm₁ hm₂ =>
    rw [update_self] at hflat
    have := g.base_pos
    have := hf₁.base_le
    omega

theorem Removed.formed (h : Formed w sec size) (hh : HitAt w sec n k j) (hr : Removed g w sec k j w' sec') :
    Formed w' sec' (size - 24) := by
  obtain ⟨e, he, hn, -⟩ := (hits_iff hh.lt hh.slot_lt hh.addr).mp hh.hit
  obtain ⟨hk, hj, hk0⟩ := h.lt_of_ent he
  have ha : w.addr sec k = sec k := if_pos hk
  cases hr with
  | clear hl =>
    have hs := slotted_overwrite h.toDirect hk hk0 hj (fun _ => 0)
    rw [slot_zero] at hs
    rw [ha] at hl ⊢
    exact h.cut hs he hn fun _ => other_entry he hn (ha.symm ▸ hl)
  | free hl _ =>
    have hall : ∀ j' e', w.ent sec k j' = some e' → e'.normal = true := by
      intro j' e' he'
      cases hn' : e'.normal with
      | true => rfl
      | false =>
        -- then this is the first block
        obtain ⟨rfl, -⟩ := h.normal k j' e' he' hn'
        obtain ⟨e₀, he₀, hname⟩ := Option.map_eq_some_iff.mp h.dot
        exact absurd hl (not_lastEntry_of_dot he₀ hname)
    exact h.cut (slotted_free h.toDirect hk hj fun _ => ent_of_lastEntry hl he hn hall) he hn fun hc => absurd (update_self _ _ _) hc

theorem Formed.setIno (h : Formed w sec size) (n : Nat) (i : Inode) : Formed (w.setIno n i) sec size :=
  ⟨⟨h.flat, h.used, h.once⟩, h.size, h.dot, h.dotdot, h.normal, h.block⟩

end Steps

/-- A call on a directory; an entry has any contents. -/
inductive DirCall
  | sync (pDe : Ent)
  | delete (inodeNo : Nat)

def DirCall.run (d : DirRef) : DirCall → Prog Fs Buf Bool
  | .sync pDe => syncDirEntry d pDe.entry
  | .delete inodeNo => deleteDirEntry d inodeNo

def WithinDirect (d : DirRef) (s : Fs) : Prop :=
  ∀ i, s.mem.inodes (d.ptr s.mem) = some i → i.iSectors 12 = 0

/-- The calls come back one after the other, and the directory stays within its direct blocks. -/
inductive DirRun (d : DirRef) : Fs → List DirCall → Fs → Prop
  | nil (s : Fs) : DirRun d s [] s
  | cons {s t u : Fs} {c : DirCall} {l : List DirCall} {r : Bool} :
      ((c.run d).on s).run = .ok (r, t) → WithinDirect d t → DirRun d t l u → DirRun d s (c :: l) u

structure DirFormed (g : Geom) (d : DirRef) (s : Fs) (w : View) (i : Inode) : Prop where
  view : At g w s.mem s
  inode : s.mem.inodes (d.ptr s.mem) = some i
  formed : Formed w i.iSectors i.iSize

section Runs

variable {g : Geom} {w : View} {m : Mem} {i : Inode} {d : DirRef} {s t : Fs} {size : Nat} {sec : Nat → Nat}

theorem ptr_set (d : DirRef) (m : Mem) (p : Nat) (i : Inode) : d.ptr (m.set p i) = d.ptr m := by cases d <;> rfl

theorem dirFormed_set (h : At g w (m.set (d.ptr m) (i.body size sec)) t) (hf : Formed w sec size) :
    DirFormed g d t w (i.body size sec) where
  view := h.mem.symm ▸ h
  inode := by rw [h.mem, ptr_set, Mem.set_inodes_self]
  formed := hf

theorem DirFormed.readable (h : DirFormed g d s w i) {k : Nat} (hk : k < 12) (h0 : i.iSectors k ≠ 0) :
    g.base ≤ i.iSectors k ∧ i.iSectors k ≤ maxLba ∧ i.iSectors k < g.top := by
  obtain ⟨hused, hmax⟩ := h.formed.used k hk h0
  obtain ⟨hbase, htop⟩ := h.view.used_lt hused
  exact ⟨hbase, hmax, htop⟩

theorem DirFormed.sync (h : DirFormed g d s w i) {e : Ent} {r : Bool} (he : e.Proper)
    (hrun : ((syncDirEntry d e.entry).on s).run = .ok (r, t)) (hflat : WithinDirect d t) :
    ∃ w' i', DirFormed g d t w' i' := by
  have hdirect : DirectOk g i.iSectors := fun k hk h0 => ⟨(h.readable hk h0).1, (h.readable hk h0).2.1⟩
  have hsat : ((syncDirEntry d e.entry).on s).Sat True (fun _ u => WithinDirect d u → ∃ w' i', DirFormed g d u w' i') := by
    apply sat_syncDirEntry h.view h.inode hdirect (Or.inl trivial) (Or.inl trivial)
    intro w' sec' u hins hu hw
    have h12 : sec' 12 = 0 := hw _ (by rw [hu.mem, ptr_set, Mem.set_inodes_self])
    exact ⟨_, _, dirFormed_set hu (hins.formed h.formed he h12)⟩
  exact hsat.of_run hrun hflat

theorem DirFormed.delete (h : DirFormed g d s w i) {n : Nat} {r : Bool}
    (hrun : ((deleteDirEntry d n).on s).run = .ok (r, t)) : ∃ w' i', DirFormed g d t w' i' := by
  have hdel : Deletable g w i n True := by
    refine ⟨fun k _ ha => ?_, .inl trivial, fun k j hh hk => ?_, fun _ _ _ => .inl trivial⟩
    rotate_left
    · have ha := hh.addr
      rw [View.addr, if_pos hk] at ha
      exact (h.readable hk ha).2.2
    by_cases hk : k < 12
    · rw [View.addr, if_pos hk] at ha ⊢
      exact ⟨(h.readable hk ha).1, (h.readable hk ha).2.1⟩
    · rw [View.addr, if_neg hk, if_neg fun hc => hc.2 h.formed.flat] at ha
      exact absurd rfl ha
  have hsat : ((deleteDirEntry d n).on s).Sat True (fun _ u => ∃ w' i', DirFormed g d u w' i') := by
    apply sat_deleteDirEntry_cases h.view h.inode (fun hc => absurd h.formed.flat hc) hdel
    · exact fun _ => ⟨w, i, h⟩
    · intro k j w' sec' u hh hrem hu
      exact ⟨_, _, dirFormed_set hu ((hrem.formed h.formed hh).setIno _ _)⟩
  exact hsat.of_run hrun

theorem DirFormed.call (h : DirFormed g d s w i) {c : DirCall} {r : Bool} (hproper : ∀ e, c = .sync e → e.Proper)
    (hrun : ((c.run d).on s).run = .ok (r, t)) (hflat : WithinDirect d t) : ∃ w' i', DirFormed g d t w' i' := by
  cases c with
  | sync e => exact h.sync (hproper e rfl) hrun hflat
  | delete n => exact h.delete hrun

theorem DirFormed.run {l : List DirCall} (h : DirFormed g d s w i) (hrun : DirRun d s l t)
    (hproper : ∀ e, .sync e ∈ l → e.Proper) : ∃ w' i', DirFormed g d t w' i' := by
  induction hrun generalizing w i with
  | nil s => exact ⟨w, i, h⟩
  | cons hcall hflat _ ih =>
    obtain ⟨w₁, i₁, h₁⟩ := h.call (fun e he => hproper e (he ▸ List.mem_cons_self)) hcall hflat
    exact ih h₁ fun e he => hproper e (List.mem_cons_of_mem _ he)

theorem Formed.dots_subset (h : Formed w sec size) : {(0, 0), (0, 1)} ⊆ w.live sec := by
  obtain ⟨e, he, -⟩ := Option.map_eq_some_iff.mp h.dot
  obtain ⟨e', he', -⟩ := Option.map_eq_some_iff.mp h.dotdot
  intro x hx
  rw [Finset.mem_insert, Finset.mem_singleton] at hx
  rcases hx with rfl | rfl
  · exact h.mem_live he
  · exact h.mem_live he'

theorem Formed.size_eq_iff (h : Formed w sec size) : size = 48 ↔ w.live sec = {(0, 0), (0, 1)} := by
  have hsize := h.size
  have hcard : ({(0, 0), (0, 1)} : Finset (Nat × Nat)).card = 2 := rfl
  constructor
  · intro h48
    exact (Finset.eq_of_subset_of_card_le h.dots_subset (by omega)).symm
  · intro hlive
    rw [hlive, hcard] at hsize
    exact hsize

theorem Formed.sectors_zero (h : Formed w sec size) (hlive : w.live sec = {(0, 0), (0, 1)}) {k : Nat} (h₁ : 1 ≤ k)
    (h₁₂ : k ≤ 12) : sec k = 0 := by
  by_cases hk : k = 12
  · rw [hk, h.flat]
  · by_contra h0
    obtain ⟨j, e, he⟩ := h.block k h₁ (by omega) h0
    have hmem := h.mem_live he
    rw [hlive, Finset.mem_insert, Finset.mem_singleton, Prod.mk.injEq, Prod.mk.injEq] at hmem
    omega

theorem DirFormed.dirIsEmpty_run (h : DirFormed g d s w i) :
    ((dirIsEmpty d).on s).run = .ok (decide (w.live i.iSectors = {(0, 0), (0, 1)}), s) := by
  have hsat : ((dirIsEmpty d).on s).Sat False (fun r t =>
      r = decide (w.live i.iSectors = {(0, 0), (0, 1)}) ∧ t = s) := by
    refine sat_dirIsEmpty h.view h.inode ⟨?_, rfl⟩
    rw [← decide_eq_decide.mpr h.formed.size_eq_iff]
    rfl
  obtain ⟨r, t, hrun, rfl, rfl⟩ := hsat.exists_run
  exact hrun

def removeChild (parentDir : DirRef) (inodeNo : Nat) : Prog Fs Buf Int := do
  let _ ← deleteDirEntry parentDir inodeNo
  inodeRelease inodeNo
  return 0

theorem DirFormed.dirRemove_run (h : DirFormed g d s w i) (parent : DirRef)
    (hz : ∀ k, 1 ≤ k → k ≤ 12 → i.iSectors k = 0) :
    ((dirRemove parent d).on s).run = ((removeChild parent i.iNo).on s).run := by
  have hall : (List.range 12).all (fun k => i.iSectors (k + 1) == 0) = true := by
    rw [List.all_eq_true]
    intro k hk
    rw [List.mem_range] at hk
    exact beq_iff_eq.mpr (hz (k + 1) (by omega) (by omega))
  have hinode : d.inode.on s = .done (d.ptr s.mem) s := by cases d <;> rfl
  have hget : (getInode (d.ptr s.mem)).on s = .done i s := by
    simp only [getInode, bind_on, get_on, Res.bind, h.inode]
    rfl
  rw [dirRemove, bind_on, hinode, Res.bind, bind_on, hget, Res.bind, hall]
  rfl

end Runs

structure NewDirectory (g : Geom) (d : DirRef) (s : Fs) (w : View) (i : Inode) : Prop where
  view : At g w s.mem s
  inode : s.mem.inodes (d.ptr s.mem) = some i
  size : i.iSize = 48
  used : w.used (i.iSectors 0) = true ∧ i.iSectors 0 ≤ maxLba
  single : ∀ k, 1 ≤ k → k ≤ 12 → i.iSectors k = 0
  dot : (w.ent i.iSectors 0 0).map Ent.name = some dot
  dotdot : (w.ent i.iSectors 0 1).map Ent.name = some dotdot
  rest : ∀ j, 2 ≤ j → w.ent i.iSectors 0 j = none

/-- `sys_mkdir` took an inode in a consistent file system, and `dir_open` opened it. -/
inductive Created (g : Geom) (d : DirRef) (t : Fs) : Prop
  | intro {w W : View} {m M : Mem} {γ : Ghost} {s u : Fs} {stack : Stack} {path : List UInt8} {n : Nat} :
      At g w m s → Sane g w m γ → Calm m → 0 ∉ path → ((sysMkdir stack path).on s).run = .ok (0, u) →
      At g W M u → w.ibit n = false → W.ibit n = true → ((dirOpen n).on u).run = .ok (d, t) → Created g d t

section Made

variable {g : Geom} {w W : View} {γ : Ghost} {i : Inode} {d : DirRef} {s t : Fs} {p n size lba : Nat} {sec : Nat → Nat}

theorem NewDirectory.formed (h : NewDirectory g d s w i) : DirFormed g d s w i := by
  have hdirect : Direct w i.iSectors := by
    have hzero : ∀ k < 12, i.iSectors k ≠ 0 → k = 0 := by
      intro k hk h0
      by_contra hne
      exact h0 (h.single k (by omega) (by omega))
    refine ⟨h.single 12 (by omega) (by omega), fun k hk h0 => ?_, fun k hk k' hk' h0 heq => ?_⟩
    · rw [hzero k hk h0]
      exact h.used
    · rw [hzero k hk h0, hzero k' hk' (heq ▸ h0)]
  have hent : ∀ k j e, w.ent i.iSectors k j = some e → k = 0 ∧ j ≤ 1 := by
    intro k j e he
    obtain ⟨hk, -, h0⟩ := hdirect.lt_of_ent he
    have hk0 : k = 0 := by
      by_contra hne
      exact h0 (h.single k (by omega) (by omega))
    refine ⟨hk0, ?_⟩
    by_contra hj
    rw [hk0, h.rest j (by omega)] at he
    cases he
  have hlive : w.live i.iSectors = {(0, 0), (0, 1)} := by
    obtain ⟨e, he, -⟩ := Option.map_eq_some_iff.mp h.dot
    obtain ⟨e', he', -⟩ := Option.map_eq_some_iff.mp h.dotdot
    ext ⟨k, j⟩
    rw [Finset.mem_insert, Finset.mem_singleton, Prod.mk.injEq, Prod.mk.injEq]
    constructor
    · intro hmem
      obtain ⟨-, -, hsome⟩ := mem_live.mp hmem
      obtain ⟨e'', he''⟩ := Option.isSome_iff_exists.mp hsome
      have := hent k j e'' he''
      omega
    · rintro (⟨rfl, rfl⟩ | ⟨rfl, rfl⟩)
      · exact hdirect.mem_live he
      · exact hdirect.mem_live he'
  refine ⟨h.view, h.inode, hdirect, ?_, h.dot, h.dotdot, fun k j e he _ => hent k j e he, fun k h₁ h₁₂ h0 => ?_⟩
  · rw [h.size, hlive]
    rfl
  · exact absurd (h.single k h₁ (by omega)) h0

theorem Tree.rest {k j : Nat} (h : Tree g W γ) (hn : IsDir W γ n) (hsize : (W.ino n).iSize = 48) (hj : 2 ≤ j) :
    W.ent (W.sec n) k j = none := by
  cases he : W.ent (W.sec n) k j with
  | none => rfl
  | some e =>
    have hcard := h.size n hn.1 hn.2
    have hnorm : e.normal = true := by
      by_contra hc
      have := (h.dir n hn.1 hn.2).normal k j e he (Bool.eq_false_iff.mpr hc)
      omega
    obtain ⟨hib, h0, hpar, -⟩ := h.ent n k j e hn.1 hn.2 he hnorm
    have hmem : e.ino ∈ children W γ n := mem_children.mpr ⟨(h.no e.ino hib).1, hib, h0, hpar⟩
    have := Finset.card_pos.mpr ⟨e.ino, hmem⟩
    omega

theorem Grown.newDirectory {M : Mem} (h : Grown g w γ p n size sec (newDir n lba) true W) (hC : Cached W M)
    (ht : At g W (M.opened W n) t) : ∃ i, NewDirectory g (.heap (M.ptr n)) t W i := by
  have hino : W.ino n = newDir n lba := by rw [h.ino, update_self]
  have hdir : IsDir W (γ.add n p true) n :=
    ⟨by rw [h.ibit, update_self], update_self _ _ _⟩
  have hrep := h.tree.rep hdir
  obtain ⟨i, hi, hsize, hsec⟩ : ∃ i, (M.opened W n).inodes (M.ptr n) = some i ∧ i.iSize = 48 ∧ i.iSectors = W.sec n := by
    obtain ⟨-, hsize, hsec⟩ := hC.deliver (n := n) (by rw [hino]; rfl)
    rw [hino] at hsize
    exact ⟨_, Mem.opened_inodes n, hsize, hsec⟩
  have hsec0 : W.addr (W.sec n) 0 = W.sec n 0 := if_pos (by omega)
  have hold : W.hold (W.sec n) 0 = W.sec n 0 := (hold_of_lt (by omega)).trans hsec0
  obtain ⟨-, -, ha, -⟩ := ent_eq_some hrep.dot
  have hlow := (hrep.ok.addr 0 (by omega) ha).2
  rw [hsec0] at ha hlow
  have hused := h.own.used n 0 hdir.1 (hold.symm ▸ ha)
  rw [hold] at hused
  refine ⟨i, ht.mem.symm ▸ ht, by rw [ht.mem]; exact hi, hsize, hsec ▸ ⟨hused, hlow⟩, fun k h₁ _ => ?_, ?_, ?_, fun j hj => ?_⟩
  · have hk : k ≠ 0 := by omega
    rw [hsec, View.sec, hino]
    exact update_of_ne hk lba fun _ => 0
  · rw [hsec, hrep.dot]
    rfl
  · rw [hsec, hrep.dotdot]
    rfl
  · rw [hsec]
    exact h.tree.rest hdir (by rw [hino]; rfl) hj

theorem Created.newDirectory (h : Created g d t) : ∃ w i, NewDirectory g d t w i := by
  cases h with
  | @intro w W m M γ s u stack path n hs hS hc hnul hmk hu hfree htaken hopen =>
    have hsat : ((sysMkdir stack path).on s).Sat True (fun r u => r = 0 → ∃ x n' size sec lba W',
        Grown g w γ x n' size sec (newDir n' lba) true W' ∧ At g W' (m.upd x size sec) u) :=
      sat_sysMkdir hs hS hc hnul (Or.inl trivial) (fun _ _ h => absurd h (by decide)) fun _ _ _ _ _ _ _ hg hu _ =>
        ⟨_, _, _, _, _, _, hg, hu⟩
    obtain ⟨x, n', size, sec, lba, W', hg, hu'⟩ := hsat.of_run hmk rfl
    cases hu.view.symm.trans hu'.view
    have hn : n = n' := by
      by_contra hne
      rw [hg.ibit, update_of_ne hne, hfree] at htaken
      cases htaken
    subst hn
    have hopened : ((dirOpen n).on u).Sat True (fun d t => ∃ w i, NewDirectory g d t w i) := by
      rw [dirOpen, sat_bind]
      apply sat_inodeOpen hu' (Or.inl trivial)
      exact fun t ht => ⟨W, hg.newDirectory (hg.cached hS.cached) ht⟩
    exact hopened.of_run hopen

def OnlyDots (w : View) (i : Inode) : Prop := w.live i.iSectors = {(0, 0), (0, 1)}

instance (w : View) (i : Inode) : Decidable (OnlyDots w i) := inferInstanceAs (Decidable (_ = _))

theorem directory_kept (g : Geom) (d : DirRef) (s : Fs) : (Created g d s → ∃ w i, NewDirectory g d s w i) ∧
    ∀ w i l t, NewDirectory g d s w i → DirRun d s l t → (∀ e, .sync e ∈ l → e.Proper) →
      ∃ w' i', DirFormed g d t w' i' ∧ ((dirIsEmpty d).on t).run = .ok (decide (OnlyDots w' i'), t) ∧
        (OnlyDots w' i' → (∀ k, 1 ≤ k → k ≤ 12 → i'.iSectors k = 0) ∧
          ∀ parent, ((dirRemove parent d).on t).run = ((removeChild parent i'.iNo).on t).run) := by
  refine ⟨Created.newDirectory, fun w i l t hnew hrun hproper => ?_⟩
  obtain ⟨w', i', h⟩ := hnew.formed.run hrun hproper
  refine ⟨w', i', h, h.dirIsEmpty_run, fun hdots => ?_⟩
  have hz : ∀ k, 1 ≤ k → k ≤ 12 → i'.iSectors k = 0 := fun k h₁ h₁₂ => h.formed.sectors_zero hdots h₁ h₁₂
  exact ⟨hz, fun parent => h.dirRemove_run parent hz⟩

end Made

section Small

def openA : Fs := (dirOpen 1).after ((sysMkdir noStack [slash, 97]).after mounted)

theorem created_openA : Created (formatGeom sized_small) (.heap 2) openA := by
  obtain ⟨w, hf, h⟩ := at_mounted
  have hmk : ((sysMkdir noStack [slash, 97]).on mounted).run = .ok (0, _) := run_of_gives (by decide +kernel)
  have hopen : ((dirOpen 1).on ((sysMkdir noStack [slash, 97]).after mounted)).run = .ok (.heap 2, openA) :=
    run_of_gives (by decide +kernel)
  have hsat : ((sysMkdir noStack [slash, 97]).on mounted).Sat True (fun _ u =>
      ∃ W M, At (formatGeom sized_small) W M u) :=
    sat_sysMkdir h hf.sane Formatted.calm (by decide) (Or.inl trivial) (fun _ hu => ⟨_, _, hu⟩)
      fun _ _ _ _ _ _ _ _ hu => ⟨_, _, hu⟩
  obtain ⟨W, M, hu⟩ := hsat.of_run hmk
  refine .intro (n := 1) h hf.sane Formatted.calm (by decide) hmk hu ?_ ?_ hopen
  · rw [← h.view]
    decide +kernel
  · rw [← hu.view]
    decide +kernel

def dirSteps (d : DirRef) : List DirCall → Fs → Option Fs
  | [], s => some s
  | c :: l, s =>
    match ((c.run d).on s).run with
    | .ok (_, t) => if (t.mem.inodes (d.ptr t.mem)).all (fun i => i.iSectors 12 == 0) then dirSteps d l t else none
    | .error _ => none

theorem exists_dirRun {d : DirRef} {l : List DirCall} {s : Fs} {P : Fs → Bool} (h : (dirSteps d l s).any P = true) :
    ∃ t, DirRun d s l t ∧ P t = true := by
  induction l generalizing s with
  | nil => exact ⟨s, .nil s, h⟩
  | cons c l ih =>
    rw [dirSteps] at h
    cases hr : ((c.run d).on s).run with
    | error e =>
      rw [hr] at h
      cases h
    | ok x =>
      rw [hr] at h
      dsimp only at h
      split at h
      · next hflat =>
        obtain ⟨t, hrun, hP⟩ := ih h
        refine ⟨t, .cons hr (fun i hi => ?_) hrun, hP⟩
        rw [hi] at hflat
        exact beq_iff_eq.mp hflat
      · cases h

theorem directory_kept_one_entry : ∃ t w i, DirRun (.heap 2) openA [.sync ⟨[98], 7, ftRegular⟩, .delete 7] t ∧
    DirFormed (formatGeom sized_small) (.heap 2) t w i := by
  obtain ⟨hmade, hkept⟩ := directory_kept (formatGeom sized_small) (.heap 2) openA
  obtain ⟨w, i, hnew⟩ := hmade created_openA
  obtain ⟨t, hrun, -⟩ : ∃ t, DirRun (.heap 2) openA [.sync ⟨[98], 7, ftRegular⟩, .delete 7] t ∧ true = true :=
    exists_dirRun (P := fun _ => true) (by decide +kernel)
  obtain ⟨w', i', hformed, -⟩ := hkept w i _ t hnew hrun (by simpa using (by decide))
  exact ⟨t, w', i', hrun, hformed⟩

def secondDotdot : List DirCall :=
  (List.range 19).map (fun n => .sync ⟨[98], n, ftRegular⟩) ++
    [.sync ⟨dotdot, 40, ftDirectory⟩, .sync ⟨[99], 41, ftRegular⟩, .delete 41]

/-- The file is the only entry that `delete_dir_entry` counts: its block goes, and the second `..` with it. -/
theorem second_dotdot_lost : Created (formatGeom sized_small) (.heap 2) openA ∧
    ∃ t i, DirRun (.heap 2) openA secondDotdot t ∧ t.mem.inodes 2 = some i ∧ i.iSize = 24 * 22 ∧
      (((formatGeom sized_small).view t.vol).live i.iSectors).card = 21 := by
  refine ⟨created_openA, ?_⟩
  obtain ⟨t, hrun, hlost⟩ : ∃ t, DirRun (.heap 2) openA secondDotdot t ∧ ((t.mem.inodes 2).any fun i =>
      i.iSize == 24 * 22 && (((formatGeom sized_small).view t.vol).live i.iSectors).card == 21) = true :=
    exists_dirRun (by decide +kernel)
  rw [Option.any_eq_true] at hlost
  obtain ⟨i, hi, hboth⟩ := hlost
  rw [Bool.and_eq_true, beq_iff_eq, beq_iff_eq] at hboth
  exact ⟨t, i, hrun, hi, hboth.1, hboth.2⟩

end Small

end TrueOs.Fs
