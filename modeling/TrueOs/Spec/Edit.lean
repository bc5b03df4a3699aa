import TrueOs.Spec.Frame

/-! Changing one entry of a directory: what `sync_dir_entry` and `delete_dir_entry`
have in common. -/

namespace TrueOs.Fs

open Function (update update_self update_of_ne update_apply)

structure OwnSec (w : View) (sec : Nat → Nat) : Prop where
  used : ∀ q, w.hold sec q ≠ 0 → w.used (w.hold sec q) = true
  once : ∀ q q', w.hold sec q ≠ 0 → w.hold sec q = w.hold sec q' → q = q'

theorem Own.sec {w : View} (h : Own w) {n : Nat} (hn : w.ibit n = true) : OwnSec w (w.sec n) :=
  ⟨fun q => h.used n q hn, fun q q' hq he => (h.once n q n q' hn hn hq he).2⟩

structure Edit (g : Geom) (w : View) (sec : Nat → Nat) (k j : Nat) (o : Option Ent)
    (w' : View) (sec' : Nat → Nat) : Prop where
  ent : ∀ k' j', w'.ent sec' k' j' = if k' = k ∧ j' = j then o else w.ent sec k' j'
  ok : DirOk g w' sec'
  hold : ∀ q, w'.hold sec' q ≠ 0 →
    (w.hold sec q = w'.hold sec' q ∨ w.used (w'.hold sec' q) = false) ∧
      w'.used (w'.hold sec' q) = true
  once : ∀ q q', w'.hold sec' q ≠ 0 → w.used (w'.hold sec' q) = false →
    w'.hold sec' q = w'.hold sec' q' → q = q'
  keep : ∀ lba, w.used lba = true → (∀ q, w.hold sec q ≠ lba) →
    w'.blk lba = w.blk lba ∧ w'.used lba = true
  ino : w'.ino = w.ino
  ibit : w'.ibit = w.ibit
  beyond : ∀ k, 13 ≤ k → sec' k = sec k

section Place

variable {w : View} {sec : Nat → Nat} {k j : Nat}

theorem placeIn_slot {ks : List Nat} (h : w.placeIn sec ks = .slot k j) :
    k ∈ ks ∧ sec k ≠ 0 ∧ firstDead (w.blk (sec k)) = some j := by
  induction ks with
  | nil => cases h
  | cons x ks ih =>
    rw [View.placeIn] at h
    split at h
    · cases h
    · rename_i hx
      split at h
      · rename_i j' hj
        cases h
        exact ⟨List.mem_cons_self, hx, hj⟩
      · obtain ⟨h₁, h₂⟩ := ih h
        exact ⟨List.mem_cons_of_mem _ h₁, h₂⟩

theorem placeIn_direct {ks : List Nat} (h : w.placeIn sec ks = .direct k) : k ∈ ks ∧ sec k = 0 := by
  induction ks with
  | nil => cases h
  | cons x ks ih =>
    rw [View.placeIn] at h
    split at h
    · rename_i hx
      cases h
      exact ⟨List.mem_cons_self, hx⟩
    · split at h
      · cases h
      · obtain ⟨h₁, h₂⟩ := ih h
        exact ⟨List.mem_cons_of_mem _ h₁, h₂⟩

theorem place_slot (h : w.place sec = .slot k j) :
    k < 12 ∧ sec k ≠ 0 ∧ firstDead (w.blk (sec k)) = some j := by
  obtain ⟨h₁, h₂⟩ := placeIn_slot h
  exact ⟨List.mem_range.mp h₁, h₂⟩

theorem place_direct (h : w.place sec = .direct k) : k < 12 ∧ sec k = 0 := by
  obtain ⟨h₁, h₂⟩ := placeIn_direct h
  exact ⟨List.mem_range.mp h₁, h₂⟩

theorem firstDead_some {b : Buf} (h : firstDead b = some j) : j < 21 ∧ slot b j = none := by
  refine ⟨List.mem_range.mp (List.mem_of_find?_eq_some h), ?_⟩
  simpa using List.find?_some h

end Place

section Block

variable {g : Geom} {w : View} {sec : Nat → Nat} {k j lba : Nat} {o : Option Ent} {b : Buf}

section

variable (h : OwnSec w sec)
include h

theorem OwnSec.addr_inj {k' : Nat} (ha : w.addr sec k ≠ 0)
    (he : w.addr sec k = w.addr sec k') : k = k' := by
  have key : ∀ x, w.hold sec (if x < 12 then x else x + 1) = w.addr sec x := by
    intro x
    split
    · exact hold_of_lt ‹_›
    · exact hold_succ (by omega)
  have := h.once _ _ (by rwa [key k]) ((key k).trans (he.trans (key k').symm))
  split at this <;> split at this <;> omega

theorem OwnSec.addr_ne_table (ha : w.addr sec k ≠ 0) : w.addr sec k ≠ sec 12 := by
  intro he
  by_cases hk : k < 12
  · have := h.once k 12 (by rwa [hold_of_lt hk]) (by rw [hold_of_lt hk, hold_table, he])
    omega
  · have := h.once (k + 1) 12 (by rwa [hold_succ (by omega)])
      (by rw [hold_succ (by omega), hold_table, he])
    omega

theorem OwnSec.ne_hold (hu : w.used lba = false) {q : Nat}
    (hq : w.hold sec q ≠ 0) : w.hold sec q ≠ lba := by
  intro he
  have := h.used q hq
  rw [he, hu] at this
  cases this

theorem OwnSec.used_addr (ha : w.addr sec k ≠ 0) : w.used (w.addr sec k) = true := by
  obtain ⟨q, hq⟩ := exists_hold w sec k
  rw [← hq] at ha ⊢
  exact h.used q ha

theorem OwnSec.addr_ne_free (hu : w.used lba = false) (ha : w.addr sec k ≠ 0) :
    w.addr sec k ≠ lba := by
  obtain ⟨q, hq⟩ := exists_hold w sec k
  rw [← hq] at ha ⊢
  exact h.ne_hold hu ha

theorem OwnSec.table_ne_free (hu : w.used lba = false) (h12 : sec 12 ≠ 0) : sec 12 ≠ lba := by
  have hq : w.hold sec 12 = sec 12 := hold_table
  rw [← hq] at h12 ⊢
  exact h.ne_hold hu h12

end

theorem edit_block (hd : DirOk g w sec) (ho : OwnSec w sec) (hk : k < 140)
    (ha : w.addr sec k ≠ 0) (hb : GoodBlock b)
    (hs : ∀ i < 21, slot b i = if i = j then o else slot (w.blk (w.addr sec k)) i) (hj : j < 21) :
    Edit g w sec k j o (w.setBlk (w.addr sec k) b) sec := by
  have htab : sec 12 ≠ 0 → (w.setBlk (w.addr sec k) b).blk (sec 12) = w.blk (sec 12) := by
    intro _
    exact View.blk_setBlk_of_ne (ho.addr_ne_table ha).symm _ _
  have haddr : ∀ k', (w.setBlk (w.addr sec k) b).addr sec k' = w.addr sec k' := fun _ => addr_congr htab
  have hhold : ∀ q, (w.setBlk (w.addr sec k) b).hold sec q = w.hold sec q := fun _ => hold_congr htab
  have hblk : ∀ k', k' ≠ k → w.addr sec k' ≠ 0 →
      (w.setBlk (w.addr sec k) b).blk (w.addr sec k') = w.blk (w.addr sec k') := by
    intro k' hne ha'
    exact View.blk_setBlk_of_ne (fun he => hne (ho.addr_inj ha' he)) _ _
  refine ⟨?_, ⟨hd.tbl, ?_, ?_⟩, ?_, ?_, ?_, rfl, rfl, fun _ _ => rfl⟩
  · intro k' j'
    by_cases hkk : k' = k
    · subst hkk
      rw [View.ent, View.ent, haddr, View.blk_setBlk_self]
      by_cases hj' : j' < 21
      · simp [hk, hj', ha, hs j' hj']
      · have : j' ≠ j := by omega
        simp [hj', this]
    · rw [if_neg (fun h => hkk h.1)]
      exact ent_congr (haddr k') (hblk k' hkk)
  · intro k' hk' ha'
    rw [haddr] at ha' ⊢
    exact hd.addr k' hk' ha'
  · intro k' hk' ha'
    rw [haddr] at ha' ⊢
    by_cases hkk : k' = k
    · subst hkk
      rw [View.blk_setBlk_self]
      exact hb
    · rw [hblk k' hkk ha']
      exact hd.good k' hk' ha'
  · intro q hq
    rw [hhold] at hq ⊢
    exact ⟨Or.inl rfl, ho.used q hq⟩
  · intro q q' hq hu
    rw [hhold] at hq hu
    exact absurd hu (by rw [ho.used q hq]; decide)
  · intro lba hu hne
    refine ⟨?_, hu⟩
    obtain ⟨q, hq⟩ := exists_hold w sec k
    exact View.blk_setBlk_of_ne (fun he => hne q (hq.trans he.symm)) _ _

theorem entryBlock_slot {e : Ent} (he : e.Ok) :
    GoodBlock (entryBlock e) ∧ ∀ i < 21, slot (entryBlock e) i = if i = 0 then some e else none := by
  obtain ⟨h₁, h₂⟩ := goodBlock_zero.store 0 he
  refine ⟨h₁, fun i hi => ?_⟩
  rw [← slot_zero i]
  exact h₂ i hi

theorem addr_update_of_lt (hk : k < 12) (k' : Nat) :
    w.addr (update sec k lba) k' = if k' = k then lba else w.addr sec k' := by
  have h12 : update sec k lba 12 = sec 12 := update_of_ne (by omega) _ _
  rw [View.addr, View.addr, h12]
  by_cases hkk : k' = k
  · rw [hkk, if_pos hk, if_pos rfl, update_self]
  · rw [if_neg hkk, update_of_ne hkk]

theorem hold_update_of_lt (hk : k < 12) (q : Nat) :
    w.hold (update sec k lba) q = if q = k then lba else w.hold sec q := by
  obtain hq | rfl | ⟨r, hr, rfl⟩ := hold_cases q
  · rw [hold_of_lt hq, hold_of_lt hq, addr_update_of_lt hk]
  · rw [hold_table, hold_table, if_neg (by omega), update_of_ne (by omega)]
  · rw [hold_succ hr, hold_succ hr, addr_update_of_lt hk, if_neg (by omega), if_neg (by omega)]

theorem edit_direct (hd : DirOk g w sec) (ho : OwnSec w sec) (hk : k < 12) (hz : sec k = 0)
    (hf : FirstFree g w lba) (hm : lba ≤ maxLba) {e : Ent} (he : e.Ok) :
    Edit g w sec k 0 (some e) (((w.setUsed lba true).syncUsed g lba).setBlk lba (entryBlock e))
      (update sec k lba) := by
  obtain ⟨hb, hs⟩ := entryBlock_slot he
  have hl0 : lba ≠ 0 := by
    have := hf.base_le
    have := g.base_pos
    omega
  have haz : w.addr sec k = 0 := by rw [View.addr, if_pos hk, hz]
  generalize hw' : ((w.setUsed lba true).syncUsed g lba).setBlk lba (entryBlock e) = w'
  have hblk : ∀ l, l ≠ lba → w'.blk l = w.blk l := fun l hl =>
    hw' ▸ View.blk_setBlk_of_ne hl _ _
  have hself : w'.blk lba = entryBlock e := hw' ▸ View.blk_setBlk_self _ _ _
  have hused : ∀ l, w'.used l = if l = lba then true else w.used l := fun l =>
    hw' ▸ update_apply w.used lba true l
  have htab : sec 12 ≠ 0 → w'.blk (sec 12) = w.blk (sec 12) := by
    intro h12
    exact hblk _ (ho.table_ne_free hf.free h12)
  have haddr : ∀ k', w'.addr (update sec k lba) k' =
      if k' = k then lba else w.addr sec k' := by
    intro k'
    rw [addr_update_of_lt hk, addr_congr htab]
  have hhold : ∀ q, w'.hold (update sec k lba) q = if q = k then lba else w.hold sec q := by
    intro q
    rw [hold_update_of_lt hk, hold_congr htab]
  have hne : ∀ k', w.addr sec k' ≠ 0 → w.addr sec k' ≠ lba := fun _ => ho.addr_ne_free hf.free
  refine ⟨?_, ⟨?_, ?_, ?_⟩, ?_, ?_, ?_, ?_, ?_, ?_⟩
  · intro k' j'
    by_cases hkk : k' = k
    · subst hkk
      rw [View.ent, haddr, if_pos rfl, hself, View.ent, haz]
      by_cases hj' : j' < 21
      · simp [hj', hl0, hs j' hj', show k' < 140 by omega]
      · simp [hj', show j' ≠ 0 by omega]
    · rw [if_neg (fun h => hkk h.1)]
      exact ent_congr (by rw [haddr, if_neg hkk]) fun ha => hblk _ (hne k' ha)
  · rw [update_of_ne (show 12 ≠ k by omega)]
    exact hd.tbl
  · intro k' hk' ha
    rw [haddr] at ha ⊢
    split at ha
    · rw [if_pos ‹_›]
      exact ⟨hf.base_le, hm⟩
    · rw [if_neg ‹_›]
      exact hd.addr k' hk' ha
  · intro k' hk' ha
    rw [haddr] at ha ⊢
    split at ha
    · rw [if_pos ‹_›, hself]
      exact hb
    · rw [if_neg ‹_›, hblk _ (hne k' ha)]
      exact hd.good k' hk' ha
  · intro q hq
    rw [hhold] at hq ⊢
    rw [hused]
    split at hq
    · rw [if_pos ‹_›, if_pos rfl]
      exact ⟨Or.inr hf.free, rfl⟩
    · rw [if_neg ‹_›, if_neg (ho.ne_hold hf.free hq)]
      exact ⟨Or.inl rfl, ho.used q hq⟩
  · intro q q' hq hu heq
    rw [hhold] at hq hu
    split at hu
    · rw [hhold, hhold, if_pos ‹_›] at heq
      split at heq
      · omega
      · exact absurd heq.symm (ho.ne_hold hf.free (heq ▸ hl0))
    · rw [if_neg ‹_›] at hq
      rw [ho.used q hq] at hu
      cases hu
  · intro l hu _
    have hl : l ≠ lba := by
      rintro rfl
      rw [hf.free] at hu
      cases hu
    exact ⟨hblk l hl, by rw [hused, if_neg hl, hu]⟩
  · rw [← hw']; rfl
  · rw [← hw']; rfl
  · intro k' hk'
    exact update_of_ne (by omega) _ _

theorem tableBlock_word {l : Nat} (hl : l < 2 ^ 32) {x : Nat} (hx : x < 128) :
    (tableBlock l).word (4 * x) = if x = 0 then l else 0 := by
  rw [tableBlock, Buf.word_slice (by omega), Nat.zero_add, Buf.word_ofWords]
  split
  · exact Nat.mod_eq_of_lt hl
  · rfl

theorem addr_table (w : View) (sec : Nat → Nat) {w' : View} {l₁ l₂ : Nat} (h0 : l₁ ≠ 0) (hl : l₂ < 2 ^ 32)
    (hb : w'.blk l₁ = tableBlock l₂) (k' : Nat) :
    w'.addr (update sec 12 l₁) k' =
      if k' < 12 then w.addr sec k' else if k' = 12 then l₂ else 0 := by
  rw [View.addr, View.addr, update_self]
  by_cases hk : k' < 12
  · rw [if_pos hk, if_pos hk, if_pos hk, update_of_ne (by omega)]
  · rw [if_neg hk, if_neg hk, hb]
    by_cases hk' : k' < 140
    · rw [if_pos ⟨hk', h0⟩, tableBlock_word hl (by omega)]
      by_cases h12 : k' = 12
      · rw [if_pos (by omega), if_pos h12]
      · rw [if_neg (by omega), if_neg h12]
    · rw [if_neg (fun h => hk' h.1), if_neg (by omega)]

theorem hold_table_new (w : View) (sec : Nat → Nat) {w' : View} {l₁ l₂ : Nat} (h0 : l₁ ≠ 0) (hl : l₂ < 2 ^ 32)
    (hb : w'.blk l₁ = tableBlock l₂) (q : Nat) :
    w'.hold (update sec 12 l₁) q =
      if q < 12 then w.hold sec q else if q = 12 then l₁ else if q = 13 then l₂ else 0 := by
  obtain hq | rfl | ⟨r, hr, rfl⟩ := hold_cases q
  · rw [hold_of_lt hq, hold_of_lt hq, addr_table w sec h0 hl hb, if_pos hq, if_pos hq]
  · rw [hold_table, update_self, if_neg (by omega), if_pos rfl]
  · rw [hold_succ hr, addr_table w sec h0 hl hb, if_neg (show ¬r < 12 by omega),
      if_neg (show ¬r + 1 < 12 by omega), if_neg (show ¬r + 1 = 12 by omega)]
    simp only [Nat.reduceEqDiff]

theorem edit_table (hd : DirOk g w sec) (ho : OwnSec w sec)
    (htbl : ∀ k j e, 12 ≤ k → w.ent sec k j = some e → k = 12 ∧ j = 0) {l₁ l₂ : Nat}
    (hf₁ : FirstFree g w l₁) (hf₂ : FirstFree g (w.setUsed l₁ true) l₂) (hm₁ : l₁ ≤ maxLba)
    (hm₂ : l₂ ≤ maxLba) {e : Ent} (he : e.Ok) :
    Edit g w sec 12 0 (some e)
      ((((((w.setUsed l₁ true).syncUsed g l₁).setUsed l₂ true).syncUsed g l₂).setBlk l₁
        (tableBlock l₂)).setBlk l₂ (entryBlock e)) (update sec 12 l₁) := by
  obtain ⟨hb, hs⟩ := entryBlock_slot he
  have hpos := g.base_pos
  have h₁ : l₁ ≠ 0 := by
    have := hf₁.base_le
    omega
  have h₂ : l₂ ≠ 0 := by
    have := hf₂.base_le
    omega
  have hne : l₂ ≠ l₁ := by
    rintro rfl
    have := hf₂.free
    rw [View.setUsed_used, update_self] at this
    cases this
  have hu₂ : w.used l₂ = false := by
    have := hf₂.free
    rwa [View.setUsed_used, update_of_ne hne] at this
  have hlt : l₂ < 2 ^ 32 := by
    simp only [maxLba] at hm₂
    omega
  generalize hw' : (((((w.setUsed l₁ true).syncUsed g l₁).setUsed l₂ true).syncUsed g l₂).setBlk l₁
    (tableBlock l₂)).setBlk l₂ (entryBlock e) = w'
  have hblk : ∀ l, l ≠ l₁ → l ≠ l₂ → w'.blk l = w.blk l := by
    intro l hl hl'
    rw [← hw', View.blk_setBlk_of_ne hl', View.blk_setBlk_of_ne hl]
    rfl
  have hb₂ : w'.blk l₂ = entryBlock e := hw' ▸ View.blk_setBlk_self _ _ _
  have hb₁ : w'.blk l₁ = tableBlock l₂ := by
    rw [← hw', View.blk_setBlk_of_ne hne.symm, View.blk_setBlk_self]
  have hused : ∀ l, w'.used l = if l = l₂ then true else if l = l₁ then true else w.used l := by
    intro l
    rw [← hw']
    simp only [View.setBlk_used, View.syncUsed_used, View.setUsed_used, update_apply]
  have haddr := addr_table w sec h₁ hlt hb₁
  have hhold := hold_table_new w sec h₁ hlt hb₁
  have hfree : ∀ k', w.addr sec k' ≠ 0 → w'.blk (w.addr sec k') = w.blk (w.addr sec k') := by
    intro k' ha
    exact hblk _ (ho.addr_ne_free hf₁.free ha) (ho.addr_ne_free hu₂ ha)
  have hnew : ∀ q, w'.hold (update sec 12 l₁) q ≠ 0 →
      w.used (w'.hold (update sec 12 l₁) q) = false →
      (q = 12 ∧ w'.hold (update sec 12 l₁) q = l₁) ∨
        (q = 13 ∧ w'.hold (update sec 12 l₁) q = l₂) := by
    intro q hq hu
    rw [hhold] at hq hu ⊢
    by_cases hlt : q < 12
    · rw [if_pos hlt] at hq hu
      rw [ho.used q hq] at hu
      cases hu
    · rw [if_neg hlt] at hq ⊢
      by_cases h12 : q = 12
      · exact Or.inl ⟨h12, if_pos h12⟩
      · rw [if_neg h12] at hq ⊢
        by_cases h13 : q = 13
        · exact Or.inr ⟨h13, if_pos h13⟩
        · exact absurd (if_neg h13) hq
  refine ⟨?_, ⟨?_, ?_, ?_⟩, ?_, ?_, ?_, ?_, ?_, ?_⟩
  · intro k' j'
    by_cases hk : k' < 12
    · rw [if_neg (by omega)]
      exact ent_congr (by rw [haddr, if_pos hk]) (hfree k')
    · by_cases hkj : k' = 12 ∧ j' = 0
      · obtain ⟨rfl, rfl⟩ := hkj
        rw [if_pos ⟨rfl, rfl⟩, View.ent, haddr, if_neg hk, if_pos rfl, hb₂, hs 0 (by omega)]
        simp [h₂]
      · rw [if_neg hkj]
        have hold : w.ent sec k' j' = none := by
          cases hc : w.ent sec k' j' with
          | none => rfl
          | some e' => exact absurd (htbl k' j' e' (by omega) hc) hkj
        rw [hold, View.ent, haddr, if_neg hk]
        by_cases h12 : k' = 12
        · rw [if_pos h12, hb₂]
          split
          · rw [hs j' (by omega), if_neg (by omega)]
          · rfl
        · rw [if_neg h12]
          simp
  · intro _
    rw [update_self]
    exact ⟨hf₁.base_le, hm₁⟩
  · intro k' hk' ha
    rw [haddr] at ha ⊢
    split at ha
    · rw [if_pos ‹_›]
      exact hd.addr k' hk' ha
    · rw [if_neg ‹_›]
      split at ha
      · rw [if_pos ‹_›]
        exact ⟨hf₂.base_le, hm₂⟩
      · exact absurd rfl ha
  · intro k' hk' ha
    rw [haddr] at ha ⊢
    split at ha
    · rw [if_pos ‹_›, hfree k' ha]
      exact hd.good k' hk' ha
    · rw [if_neg ‹_›]
      split at ha
      · rw [if_pos ‹_›, hb₂]
        exact hb
      · exact absurd rfl ha
  · intro q hq
    rw [hhold] at hq ⊢
    split at hq
    · rw [if_pos ‹_›, hused, if_neg (ho.ne_hold hu₂ hq), if_neg (ho.ne_hold hf₁.free hq)]
      exact ⟨Or.inl rfl, ho.used q hq⟩
    · rw [if_neg ‹_›]
      split at hq
      · rw [if_pos ‹_›, hused, if_pos rfl]
        exact ⟨Or.inr hf₁.free, by simp⟩
      · rw [if_neg ‹_›]
        split at hq
        · rw [if_pos ‹_›, hused, if_pos rfl]
          exact ⟨Or.inr hu₂, rfl⟩
        · exact absurd rfl hq
  · intro q q' hq hu heq
    rcases hnew q hq hu with ⟨rfl, hl⟩ | ⟨rfl, hl⟩ <;>
      rcases hnew q' (heq ▸ hq) (heq ▸ hu) with ⟨rfl, hl'⟩ | ⟨rfl, hl'⟩
    · rfl
    · exact absurd (hl'.symm.trans (heq.symm.trans hl)) hne
    · exact absurd (hl.symm.trans (heq.trans hl')) hne
    · rfl
  · intro l hu _
    have hl₁ : l ≠ l₁ := by
      rintro rfl
      rw [hf₁.free] at hu
      cases hu
    have hl₂ : l ≠ l₂ := by
      rintro rfl
      rw [hu₂] at hu
      cases hu
    exact ⟨hblk l hl₁ hl₂, by rw [hused, if_neg hl₂, if_neg hl₁, hu]⟩
  · rw [← hw']; rfl
  · rw [← hw']; rfl
  · intro k' hk'
    exact update_of_ne (by omega) _ _

theorem slot_of_lastEntry (hl : lastEntry b) (hj : j < 21) {e : Ent} (he : slot b j = some e)
    (hn : e.normal = true) {i : Nat} (hi : i < 21) {e' : Ent} (he' : slot b i = some e')
    (hn' : e'.normal = true) : i = j := by
  obtain ⟨hc, -⟩ := hl
  rw [countNormal, List.countP_eq_length_filter] at hc
  obtain ⟨x, hx⟩ := List.length_eq_one_iff.mp hc
  have key : ∀ i < 21, ∀ e, slot b i = some e → e.normal = true → i = x := by
    intro i hi e he hn
    have : i ∈ (List.range 21).filter (fun j => (slot b j).any Ent.normal) :=
      List.mem_filter.mpr ⟨List.mem_range.mpr hi, by simpa [he] using hn⟩
    rw [hx] at this
    exact List.mem_singleton.mp this
  rw [key i hi e' he' hn', key j hj e he hn]

theorem not_lastEntry_of_dot {e : Ent} (he : w.ent sec k j = some e) (hname : e.name = dot) :
    ¬lastEntry (w.blk (w.addr sec k)) := by
  intro hl
  obtain ⟨-, hj, -, hs⟩ := ent_eq_some he
  have hdot : hasDot (w.blk (w.addr sec k)) = true :=
    List.any_eq_true.mpr ⟨j, List.mem_range.mpr hj, by simp [slotNamed, hs, hname]⟩
  rw [hl.2] at hdot
  cases hdot

theorem ent_of_lastEntry {e : Ent} (hl : lastEntry (w.blk (w.addr sec k))) (he : w.ent sec k j = some e)
    (hn : e.normal = true) (hall : ∀ j' e', w.ent sec k j' = some e' → e'.normal = true) {j' : Nat} (hne : j' ≠ j) :
    w.ent sec k j' = none := by
  cases he' : w.ent sec k j' with
  | none => rfl
  | some e' =>
    obtain ⟨-, hj, -, hs⟩ := ent_eq_some he
    obtain ⟨-, hj', -, hs'⟩ := ent_eq_some he'
    exact absurd (slot_of_lastEntry hl hj hs hn hj' hs' (hall j' e' he')) hne

theorem edit_free (hd : DirOk g w sec) (ho : OwnSec w sec) (hk : k < 12)
    (hz : ∀ j', j' ≠ j → w.ent sec k j' = none) :
    Edit g w sec k j none ((w.setUsed (sec k) false).syncUsed g (sec k)) (update sec k 0) := by
  generalize hw' : (w.setUsed (sec k) false).syncUsed g (sec k) = w'
  have hblk : w'.blk = w.blk := by rw [← hw']; rfl
  have hused : ∀ l, w'.used l = if l = sec k then false else w.used l := fun l =>
    hw' ▸ update_apply w.used (sec k) false l
  have htab : sec 12 ≠ 0 → w'.blk (sec 12) = w.blk (sec 12) := fun _ => by rw [hblk]
  have haddr : ∀ k', w'.addr (update sec k 0) k' = if k' = k then 0 else w.addr sec k' := by
    intro k'
    rw [addr_update_of_lt hk, addr_congr htab]
  have hhold : ∀ q, w'.hold (update sec k 0) q = if q = k then 0 else w.hold sec q := by
    intro q
    rw [hold_update_of_lt hk, hold_congr htab]
  have hold_k : w.hold sec k = sec k := by rw [hold_of_lt hk, View.addr, if_pos hk]
  have hne : ∀ q, q ≠ k → w.hold sec q ≠ 0 → w.hold sec q ≠ sec k := by
    intro q hq h0 he
    exact hq (ho.once q k h0 (he.trans hold_k.symm))
  refine ⟨?_, ⟨?_, ?_, ?_⟩, ?_, ?_, ?_, ?_, ?_, ?_⟩
  · intro k' j'
    by_cases hkk : k' = k
    · subst hkk
      rw [View.ent, haddr, if_pos rfl, if_neg (by simp)]
      by_cases hj : j' = j
      · rw [if_pos ⟨rfl, hj⟩]
      · rw [if_neg (fun h => hj h.2), hz j' hj]
    · rw [if_neg (fun h => hkk h.1)]
      exact ent_congr (by rw [haddr, if_neg hkk]) fun _ => by rw [hblk]
  · rw [update_of_ne (show 12 ≠ k by omega)]
    exact hd.tbl
  · intro k' hk' ha
    rw [haddr] at ha ⊢
    split at ha
    · exact absurd rfl ha
    · rw [if_neg ‹_›]
      exact hd.addr k' hk' ha
  · intro k' hk' ha
    rw [haddr] at ha ⊢
    split at ha
    · exact absurd rfl ha
    · rw [if_neg ‹_›, hblk]
      exact hd.good k' hk' ha
  · intro q hq
    rw [hhold] at hq ⊢
    split at hq
    · exact absurd rfl hq
    · rw [if_neg ‹_›, hused, if_neg (hne q ‹_› hq)]
      exact ⟨Or.inl rfl, ho.used q hq⟩
  · intro q q' hq hu
    rw [hhold] at hq hu
    split at hq
    · exact absurd rfl hq
    · rw [if_neg ‹_›, ho.used q hq] at hu
      cases hu
  · intro l hu hl
    have : l ≠ sec k := fun he => hl k (hold_k.trans he.symm)
    exact ⟨by rw [hblk], by rw [hused, if_neg this, hu]⟩
  · rw [← hw']; rfl
  · rw [← hw']; rfl
  · intro k' hk'
    exact update_of_ne (by omega) _ _

end Block

section Directory

variable {g : Geom} {w w' : View} {sec sec' : Nat → Nat} {k j d p : Nat} {e : Ent}

theorem tbl_of_rep (hr : DirRep g w sec d p) {k j : Nat} {e : Ent} (hk : 12 ≤ k)
    (he : w.ent sec k j = some e) : k = 12 ∧ j = 0 := by
  by_cases h0 : sec 12 = 0
  · obtain ⟨-, -, ha, -⟩ := ent_eq_some he
    rw [View.addr, if_neg (by omega), if_neg (fun hc => hc.2 h0)] at ha
    exact absurd rfl ha
  · exact (hr.tbl h0).2 k j e hk he

theorem Edit.put_rep (h : Edit g w sec k j (some e) w' sec') (hr : DirRep g w sec d p)
    (hkj : k = 0 → 2 ≤ j) (hn : e.normal = true)
    (hname : ∀ k j e', w.ent sec k j = some e' → e'.name ≠ e.name)
    (hlive : ∀ k', 1 ≤ k' → k' < 12 → sec' k' ≠ 0 → k' = k ∨ sec k' ≠ 0)
    (htbl : sec' 12 ≠ 0 → k = 12 ∧ j = 0 ∨ sec 12 ≠ 0) (hk : 12 ≤ k → k = 12 ∧ j = 0) :
    DirRep g w' sec' d p where
  ok := h.ok
  dot := by
    rw [h.ent, if_neg (fun hc => by omega)]
    exact hr.dot
  dotdot := by
    rw [h.ent, if_neg (fun hc => by omega)]
    exact hr.dotdot
  normal k' j' e' he hne := by
    rw [h.ent] at he
    split at he
    · cases he
      rw [hn] at hne
      cases hne
    · exact hr.normal k' j' e' he hne
  names k₁ j₁ e₁ k₂ j₂ e₂ h₁ h₂ heq := by
    rw [h.ent] at h₁ h₂
    split at h₁ <;> split at h₂
    · omega
    · cases h₁
      exact absurd heq.symm (hname _ _ _ h₂)
    · cases h₂
      exact absurd heq (hname _ _ _ h₁)
    · exact hr.names k₁ j₁ e₁ k₂ j₂ e₂ h₁ h₂ heq
  live k' h₁ h₂ h₃ := by
    by_cases hkk : k' = k
    · exact ⟨j, e, by rw [h.ent, if_pos ⟨hkk, rfl⟩]⟩
    · obtain ⟨j', e', he⟩ := hr.live k' h₁ h₂ ((hlive k' h₁ h₂ h₃).resolve_left hkk)
      exact ⟨j', e', by rw [h.ent, if_neg (fun hc => hkk hc.1), he]⟩
  tbl h12 := by
    rcases htbl h12 with ⟨rfl, rfl⟩ | h0
    · refine ⟨⟨e, by rw [h.ent, if_pos ⟨rfl, rfl⟩]⟩, fun k' j' e' hk' he => ?_⟩
      rw [h.ent] at he
      split at he
      · assumption
      · exact tbl_of_rep hr hk' he
    · obtain ⟨⟨e₀, he₀⟩, hu⟩ := hr.tbl h0
      refine ⟨?_, fun k' j' e' hk' he => ?_⟩
      · by_cases hc : 12 = k ∧ 0 = j
        · exact ⟨e, by rw [h.ent, if_pos hc]⟩
        · exact ⟨e₀, by rw [h.ent, if_neg hc, he₀]⟩
      · rw [h.ent] at he
        split at he
        · rename_i hc
          have := hk (by omega)
          omega
        · exact hu k' j' e' hk' he

def Overflows (w : View) (sec : Nat → Nat) : Prop := w.place sec = .table ∧ sec 12 ≠ 0

theorem Inserted.edit (hr : DirRep g w sec d p) (ho : OwnSec w sec) (he : e.Ok) (hn : e.normal = true)
    (hname : ∀ k j e', w.ent sec k j = some e' → e'.name ≠ e.name)
    (h : Inserted g w sec e (w.place sec) w' sec') :
    ∃ k j, Edit g w sec k j (some e) w' sec' ∧ (w.ent sec k j = none ∨ Overflows w sec) ∧
      DirRep g w' sec' d p := by
  generalize hp : w.place sec = pl at h
  cases h with
  | slot k j =>
    obtain ⟨hk, hk0, hdead⟩ := place_slot hp
    obtain ⟨hj, hs⟩ := firstDead_some hdead
    have ha : w.addr sec k = sec k := by rw [View.addr, if_pos hk]
    have hg := hr.ok.good k (by omega) (by rwa [ha])
    rw [ha] at hg
    obtain ⟨hb, hslots⟩ := hg.store j he
    have hnone : w.ent sec k j = none := by
      rw [ent_of (by omega) hj (by rwa [ha]), ha, hs]
    have hed : Edit g w sec k j (some e) _ sec := edit_block hr.ok ho (show k < 140 by omega)
      (by rwa [ha]) hb (by rwa [ha]) hj
    rw [ha] at hed
    refine ⟨k, j, hed, Or.inl hnone, hed.put_rep hr ?_ hn hname ?_ ?_ (by omega)⟩
    · rintro rfl
      by_contra hc
      obtain rfl | rfl : j = 0 ∨ j = 1 := by omega
      · rw [hr.dot] at hnone
        cases hnone
      · rw [hr.dotdot] at hnone
        cases hnone
    · exact fun _ _ _ h => Or.inr h
    · exact Or.inr
  | direct k lba hf hm =>
    obtain ⟨hk, hz⟩ := place_direct hp
    have hed := edit_direct hr.ok ho hk hz hf hm he
    have haz : w.addr sec k = 0 := by rw [View.addr, if_pos hk, hz]
    have hk0 : k ≠ 0 := by
      rintro rfl
      obtain ⟨-, -, ha, -⟩ := ent_eq_some hr.dot
      exact ha haz
    have hnone : w.ent sec k 0 = none := if_neg (fun hc => hc.2.2 haz)
    refine ⟨k, 0, hed, Or.inl hnone, hed.put_rep hr (by omega) hn hname ?_ ?_ (by omega)⟩
    · intro k' _ _ hs
      by_cases hkk : k' = k
      · exact Or.inl hkk
      · rw [update_of_ne hkk] at hs
        exact Or.inr hs
    · rw [update_of_ne (by omega)]
      exact Or.inr
  | table l₁ l₂ hf₁ hf₂ hm₁ hm₂ =>
    have hed := edit_table hr.ok ho (fun _ _ _ => tbl_of_rep hr) hf₁ hf₂ hm₁ hm₂ he
    refine ⟨12, 0, hed, ?_, hed.put_rep hr (by omega) hn hname ?_ ?_ (by omega)⟩
    · by_cases h12 : sec 12 = 0
      · left
        rw [View.ent, if_neg]
        rintro ⟨-, -, ha⟩
        rw [View.addr, if_neg (by omega), if_neg (fun hc => hc.2 h12)] at ha
        exact ha rfl
      · exact Or.inr ⟨hp, h12⟩
    · intro k' _ hk' hs
      rw [update_of_ne (by omega)] at hs
      exact Or.inr hs
    · exact fun _ => Or.inl ⟨rfl, rfl⟩

theorem Edit.cut_rep (h : Edit g w sec k j none w' sec') (hr : DirRep g w sec d p)
    (hkj : k = 0 → 2 ≤ j) (hk : k < 12)
    (hlive : ∀ k', 1 ≤ k' → k' < 12 → sec' k' ≠ 0 →
      sec k' ≠ 0 ∧ (k' = k → ∃ j' e', j' ≠ j ∧ w.ent sec k j' = some e'))
    (h12 : sec' 12 = sec 12) : DirRep g w' sec' d p where
  ok := h.ok
  dot := by
    rw [h.ent, if_neg (fun hc => by omega)]
    exact hr.dot
  dotdot := by
    rw [h.ent, if_neg (fun hc => by omega)]
    exact hr.dotdot
  normal k' j' e' he hne := by
    rw [h.ent] at he
    split at he
    · cases he
    · exact hr.normal k' j' e' he hne
  names k₁ j₁ e₁ k₂ j₂ e₂ h₁ h₂ heq := by
    rw [h.ent] at h₁ h₂
    split at h₁
    · cases h₁
    · split at h₂
      · cases h₂
      · exact hr.names k₁ j₁ e₁ k₂ j₂ e₂ h₁ h₂ heq
  live k' h₁ h₂ h₃ := by
    obtain ⟨h₀, hother⟩ := hlive k' h₁ h₂ h₃
    by_cases hkk : k' = k
    · obtain ⟨j', e', hj, he⟩ := hother hkk
      exact ⟨j', e', by rw [h.ent, if_neg (fun hc => hj hc.2), hkk, he]⟩
    · obtain ⟨j', e', he⟩ := hr.live k' h₁ h₂ h₀
      exact ⟨j', e', by rw [h.ent, if_neg (fun hc => hkk hc.1), he]⟩
  tbl h₀ := by
    rw [h12] at h₀
    obtain ⟨⟨e₀, he₀⟩, hu⟩ := hr.tbl h₀
    refine ⟨⟨e₀, by rw [h.ent, if_neg (fun hc => by omega), he₀]⟩, fun k' j' e' hk' he => ?_⟩
    rw [h.ent] at he
    split at he
    · cases he
    · exact hu k' j' e' hk' he

theorem other_entry (he : w.ent sec k j = some e) (hn : e.normal = true)
    (hl : ¬lastEntry (w.blk (w.addr sec k))) : ∃ j' e', j' ≠ j ∧ w.ent sec k j' = some e' := by
  obtain ⟨hk', hj, ha, hs⟩ := ent_eq_some he
  by_contra hc
  push Not at hc
  have hnone : ∀ i < 21, i ≠ j → slot (w.blk (w.addr sec k)) i = none := by
    intro i hi hij
    cases hsi : slot (w.blk (w.addr sec k)) i with
    | none => rfl
    | some e' => exact absurd ((ent_of hk' hi ha).trans hsi) (hc i e' hij)
  apply hl
  constructor
  · have hf : ∀ i ∈ List.range 21, (slot (w.blk (w.addr sec k)) i).any Ent.normal = (i == j) := by
      intro i hi
      by_cases hij : i = j
      · subst hij
        simp [hs, hn]
      · simp [hnone i (List.mem_range.mp hi) hij, hij]
    rw [countNormal, List.countP_congr (fun i hi => by rw [hf i hi])]
    exact List.count_eq_one_of_mem List.nodup_range (List.mem_range.mpr hj)
  · rw [hasDot, List.any_eq_false]
    intro i hi
    by_cases hij : i = j
    · subst hij
      have : e.name ≠ dot := by
        intro hd
        simp [Ent.normal, hd] at hn
      simp [slotNamed, hs, this]
    · simp [slotNamed, hnone i (List.mem_range.mp hi) hij]

theorem Removed.edit (hr : DirRep g w sec d p) (ho : OwnSec w sec) (he : w.ent sec k j = some e)
    (hn : e.normal = true) (h : Removed g w sec k j w' sec') :
    Edit g w sec k j none w' sec' ∧ DirRep g w' sec' d p ∧ k < 12 := by
  obtain ⟨hk, hj, ha, -⟩ := ent_eq_some he
  have hkj : k = 0 → 2 ≤ j := by
    rintro rfl
    by_contra hc
    obtain rfl | rfl : j = 0 ∨ j = 1 := by omega
    · rw [hr.dot, Option.some.injEq] at he
      subst he
      exact absurd hn (by simp [Ent.normal])
    · rw [hr.dotdot, Option.some.injEq] at he
      subst he
      exact absurd hn (by simp [Ent.normal])
  cases h with
  | clear hl =>
    have hlt : k < 12 := by
      by_contra hc
      obtain ⟨j', e', hj', he'⟩ := other_entry he hn hl
      have h₁ := tbl_of_rep hr (by omega) he
      have h₂ := tbl_of_rep hr (by omega) he'
      omega
    obtain ⟨hb, hslots⟩ := (hr.ok.good k hk ha).clear j
    have hed : Edit g w sec k j none _ sec := edit_block hr.ok ho hk ha hb hslots hj
    refine ⟨hed, hed.cut_rep hr hkj hlt (fun k' _ _ h₃ => ⟨h₃, ?_⟩) rfl, hlt⟩
    rintro rfl
    exact other_entry he hn hl
  | free hl hlt =>
    have hall : ∀ j' e', w.ent sec k j' = some e' → e'.normal = true := by
      intro j' e' he'
      cases hn' : e'.normal with
      | true => rfl
      | false =>
        -- then this is the first block
        obtain ⟨rfl, -⟩ := hr.normal k j' e' he' hn'
        exact absurd hl (not_lastEntry_of_dot hr.dot rfl)
    have hed := edit_free hr.ok ho hlt fun _ => ent_of_lastEntry hl he hn hall
    refine ⟨hed, hed.cut_rep hr hkj hlt (fun k' _ _ h₃ => ?_) ?_, hlt⟩
    · by_cases hkk : k' = k
      · rw [hkk, update_self] at h₃
        exact absurd rfl h₃
      · rw [update_of_ne hkk] at h₃
        exact ⟨h₃, fun h => absurd h hkk⟩
    · exact update_of_ne (by omega) _ _

end Directory

end TrueOs.Fs
