import TrueOs.Spec.Open

/-! The blocks that `file_write` takes. -/

namespace TrueOs.Fs

open Function (update update_self update_of_ne update_apply)
open Prog

inductive Allocs (g : Geom) : View → List Nat → View → Prop
  | nil (w : View) : Allocs g w [] w
  | cons {w w' : View} {lba : Nat} {ls : List Nat} (hf : FirstFree g w lba)
      (h : Allocs g ((w.setUsed lba true).syncUsed g lba) ls w') : Allocs g w (lba :: ls) w'

def fill (f : Nat → Nat) (idx : Nat) (ls : List Nat) (k : Nat) : Nat :=
  if idx ≤ k ∧ k < idx + ls.length then ls.getD (k - idx) 0 else f k

def fillDirect (sec : Nat → Nat) (idx : Nat) (ls : List Nat) (k : Nat) : Nat :=
  if k < 12 then fill sec idx ls k else sec k

section Fill

variable {f sec : Nat → Nat} {idx lba k : Nat} {ls : List Nat}

@[simp] theorem fill_nil (f : Nat → Nat) (idx : Nat) : fill f idx [] = f := by
  funext k
  rw [fill, if_neg]
  simp

theorem fill_cons (f : Nat → Nat) (idx lba : Nat) (ls : List Nat) :
    fill f idx (lba :: ls) = fill (update f idx lba) (idx + 1) ls := by
  funext k
  simp only [fill, List.length_cons]
  by_cases hk : k = idx
  · subst hk
    rw [if_pos (by omega), if_neg (by omega), Nat.sub_self, List.getD_cons_zero, update_self]
  · rw [update_of_ne hk]
    by_cases hc : idx + 1 ≤ k ∧ k < idx + 1 + ls.length
    · obtain ⟨x, rfl⟩ : ∃ x, k = idx + 1 + x := ⟨k - (idx + 1), by omega⟩
      rw [if_pos (by omega), if_pos hc, show idx + 1 + x - idx = x + 1 by omega,
        List.getD_cons_succ, show idx + 1 + x - (idx + 1) = x by omega]
    · rw [if_neg (by omega), if_neg hc]

@[simp] theorem fillDirect_nil (sec : Nat → Nat) (idx : Nat) : fillDirect sec idx [] = sec := by
  funext k
  rw [fillDirect, fill_nil, ite_self]

theorem fillDirect_cons_of_lt (h : idx < 12) : fillDirect sec idx (lba :: ls) =
    fillDirect (update sec idx lba) (idx + 1) ls := by
  funext k
  rw [fillDirect, fillDirect, fill_cons]
  split
  · rfl
  · rw [update_of_ne (by omega)]

theorem fillDirect_of_le (h : 12 ≤ idx) : fillDirect sec idx ls = sec := by
  funext k
  rw [fillDirect, fill]
  split
  · rw [if_neg (by omega)]
  · rfl

theorem fill_of_mem (h₁ : idx ≤ k) (h₂ : k < idx + ls.length) : fill f idx ls k = ls.getD (k - idx) 0 :=
  if_pos ⟨h₁, h₂⟩

theorem fill_of_not_mem (h : k < idx ∨ idx + ls.length ≤ k) : fill f idx ls k = f k :=
  if_neg (by omega)

theorem getD_mem (h : k < ls.length) : ls.getD k 0 ∈ ls := by
  rw [List.getD_eq_getElem _ _ h]
  exact List.getElem_mem h

end Fill

section Allocs

variable {g : Geom} {w w' : View} {ls : List Nat}

theorem Allocs.blk (h : Allocs g w ls w') : w'.blk = w.blk := by
  induction h with
  | nil w => rfl
  | cons hf h ih => exact ih

theorem Allocs.used (h : Allocs g w ls w') (l : Nat) :
    w'.used l = (w.used l || decide (l ∈ ls)) := by
  induction h with
  | nil w => simp
  | @cons w w' lba ls hf h ih =>
    rw [ih, View.syncUsed_used, View.setUsed_used, update_apply]
    by_cases hl : l = lba
    · simp [hl]
    · simp [hl]

theorem Allocs.free (h : Allocs g w ls w') : ∀ l ∈ ls, w.used l = false ∧ g.base ≤ l ∧ l < g.top := by
  induction h with
  | nil w => simp
  | @cons w w' lba ls hf h ih =>
    intro l hl
    rcases List.mem_cons.mp hl with rfl | hl
    · exact ⟨hf.free, hf.base_le, hf.lt_top⟩
    · obtain ⟨h₁, h₂⟩ := ih l hl
      rw [View.syncUsed_used, View.setUsed_used, update_apply] at h₁
      split at h₁
      · cases h₁
      · exact ⟨h₁, h₂⟩

theorem Allocs.append {w₁ : View} {ls₁ ls₂ : List Nat} (h₁ : Allocs g w ls₁ w₁) (h₂ : Allocs g w₁ ls₂ w') :
    Allocs g w (ls₁ ++ ls₂) w' := by
  induction h₁ with
  | nil w => exact h₂
  | cons hf h ih => exact .cons hf (ih h₂)

end Allocs

section Collect

variable {g : Geom} {w : View} {m : Mem} {s : Fs} {p : Nat} {i : Inode}

theorem sat_allocBlock (h : At g w m s) (hr : Room g w 1) {Q : Option Nat → Fs → Prop}
    (hQ : ∀ lba t, FirstFree g w lba → At g (w.setUsed lba true) m t → Q (some lba) t) :
    (blockBitmapAlloc.on s).Sat False Q := by
  obtain ⟨l, h₁, h₂, h₃, -⟩ := hr.exists_free Nat.one_pos
  exact sat_blockBitmapAlloc h (.inr ⟨l, h₁, h₂, h₃⟩) hQ

theorem sat_allocBlocks (h : At g w m s) (hp : m.inodes p = some i)
    {n idx : Nat} {all : Nat → Nat} (hr : Room g w n)
    (hz : ∀ k, idx ≤ k → k < 12 → i.iSectors k = 0) {Q : Option (Nat → Nat) → Fs → Prop}
    (hQ : ∀ ls w' t, ls.length = n → Allocs g w ls w' →
      At g w' (m.set p (i.body i.iSize (fillDirect i.iSectors idx ls))) t →
      Q (some (fill all idx ls)) t) : ((allocBlocks p n idx all).on s).Sat False Q := by
  induction n generalizing w m s i idx all with
  | zero =>
    have := hQ [] w s rfl (.nil w)
    rw [fillDirect_nil, fill_nil, show i.body i.iSize i.iSectors = i from rfl, Mem.set_self hp] at this
    exact this h
  | succ n ih =>
    rw [allocBlocks, sat_bind]
    apply sat_allocBlock h (hr.mono (by omega))
    intro lba t₁ hf h₁
    dsimp only
    -- the two continuations of the test `idx < 12` go on alike
    have rest : ∀ (i' : Inode) (m' : Mem) (t : Fs), m'.inodes p = some i' →
        (∀ k, idx + 1 ≤ k → k < 12 → i'.iSectors k = 0) → At g (w.setUsed lba true) m' t →
        (∀ ls w' t, ls.length = n → Allocs g ((w.setUsed lba true).syncUsed g lba) ls w' →
          At g w' (m'.set p (i'.body i'.iSize (fillDirect i'.iSectors (idx + 1) ls))) t →
          Q (some (fill (update all idx lba) (idx + 1) ls)) t) →
        ((do
          bitmapSync ((← get).vol.bitIdx lba) .block
          allocBlocks p n (idx + 1) (update all idx lba) :
            Prog Fs Buf (Option (Nat → Nat))).on t).Sat False Q := by
      intro i' m' t hp' hz' ht hQ'
      simp only [bind_on, get_on, Res.sat_bind, Res.sat_done, ht.bitIdx hf.base_le]
      apply sat_syncBlock ht rfl hf.base_le hf.lt_top
      intro t' ht'
      apply ih ht' hp'
      · exact hr.alloc
      · exact hz'
      · exact hQ'
    by_cases hidx : idx < 12
    · rw [if_pos hidx, sat_bind]
      apply sat_getInode h₁ hp
      simp only [sat_bind, sat_assert, decide_eq_true_eq, decide_eq_false_iff_not]
      refine ⟨fun _ => ?_, fun hc => hc (hz idx (Nat.le_refl _) hidx)⟩
      apply sat_setSector h₁ hp
      intro t₂ h₂
      have := rest (i.body i.iSize (update i.iSectors idx lba)) _ t₂
        (Mem.set_inodes_self _ _ _) ?_ h₂ ?_
      · simpa only [bind_on, get_on, Res.sat_bind, Res.sat_done] using this
      · intro k hk hk'
        rw [Inode.body_iSectors, update_of_ne (by omega)]
        exact hz k (by omega) hk'
      · intro ls w' t hlen hall ht
        have := hQ (lba :: ls) w' t (by simp [hlen]) (.cons hf hall)
        rw [fillDirect_cons_of_lt hidx, fill_cons] at this
        apply this
        rwa [Mem.set_set] at ht
    · rw [if_neg hidx]
      apply rest i m t₁ hp ?_ h₁ ?_
      · exact fun k hk hk' => by omega
      · intro ls w' t hlen hall ht
        have := hQ (lba :: ls) w' t (by simp [hlen]) (.cons hf hall)
        rw [fillDirect_of_le (by omega), fill_cons] at this
        apply this
        rwa [fillDirect_of_le (by omega)] at ht

def Taken (g : Geom) (w : View) (ls : List Nat) (tb : Option Nat) (w' : View) : Prop :=
  ∃ ls₁ ls₂ w₁, ls = ls₁ ++ ls₂ ∧ Allocs g w ls₁ w₁ ∧
    match tb with
    | none => Allocs g w₁ ls₂ w'
    | some l => FirstFree g w₁ l ∧ Allocs g (w₁.setUsed l true) ls₂ w'

structure Grow (g : Geom) (w : View) (sec : Nat → Nat) (nb : Nat) (ls : List Nat) (tb : Option Nat)
    (w' : View) (sec' : Nat → Nat) : Prop where
  addr : ∀ k < 140, w'.addr sec' k = fill (w.addr sec) nb ls k
  table : sec' 12 = tb.getD (sec 12)
  new : tb.isSome = true ↔ nb ≤ 12 ∧ 12 < nb + ls.length
  bits : ∃ w₂, Taken g w ls tb w₂ ∧ w'.used = w₂.used

structure Span (w : View) (sec : Nat → Nat) (nb : Nat) : Prop where
  addr : ∀ b < 140, w.addr sec b ≠ 0 ↔ b < nb
  tbl : sec 12 ≠ 0 ↔ 12 < nb

theorem taken_of_allocs {w' : View} {ls : List Nat} (h : Allocs g w ls w') : Taken g w ls none w' :=
  ⟨[], ls, w, rfl, .nil w, h⟩

theorem tableBytes_word {all : Nat → Nat} {k : Nat} (h₁ : 12 ≤ k) (h₂ : k < 140) (h : all k < 2 ^ 32) :
    ((tableBytes all).slice 0 512).word (4 * (k - 12)) = all k := by
  rw [Buf.word_slice (by omega), Nat.zero_add, tableBytes, Buf.word_ofWords,
    show 12 + (k - 12) = k by omega, Nat.mod_eq_of_lt h]

theorem addr_of_table {w' : View} {sec : Nat → Nat} {all : Nat → Nat} {k : Nat} (h12 : sec 12 ≠ 0)
    (hb : w'.blk (sec 12) = (tableBytes all).slice 0 512) (h₁ : 12 ≤ k) (h₂ : k < 140)
    (h : all k < 2 ^ 32) : w'.addr sec k = all k := by
  rw [View.addr, if_neg (by omega), if_pos ⟨h₂, h12⟩, hb, tableBytes_word h₁ h₂ h]

theorem Allocs.lt {w' : View} {ls : List Nat} (h : Allocs g w ls w') {k : Nat} :
    ls.getD k 0 < 2 ^ 32 := by
  by_cases hk : k < ls.length
  · have h₁ := (h.free _ (getD_mem hk)).2.2
    have h₂ := g.top_lt
    omega
  · rw [List.getD_eq_default _ _ (by omega)]
    omega

theorem fillDirect_apply {sec : Nat → Nat} {nb k : Nat} {ls : List Nat} (hk : k < 12) :
    fillDirect sec nb ls k = fill (w.addr sec) nb ls k := by
  rw [fillDirect, if_pos hk, fill, fill, View.addr, if_pos hk]

theorem oneBlock_of_ne {a b c : Nat} (h : a ≠ b) : oneBlock b c a = 0 := update_of_ne h _ _

variable {w' w₂ : View} {sec : Nat → Nat} {nb : Nat} {ls : List Nat} {l : Nat}

theorem grow_nil (g : Geom) (w : View) (sec : Nat → Nat) (nb : Nat) :
    Grow g w sec nb [] none w sec where
  addr k _ := by rw [fill_nil]
  table := rfl
  new := by simp
  bits := ⟨w, taken_of_allocs (.nil w), rfl⟩

theorem grow_direct (hlen : nb + ls.length ≤ 12) (hall : Allocs g w ls w') :
    Grow g w sec nb ls none w' (fillDirect sec nb ls) := by
  have h12 : fillDirect sec nb ls 12 = sec 12 := by rw [fillDirect, if_neg (by omega)]
  refine ⟨?_, h12, ?_, ⟨w', taken_of_allocs hall, rfl⟩⟩
  · intro k hk
    by_cases hlt : k < 12
    · rw [← fillDirect_apply hlt, View.addr, if_pos hlt]
    · rw [fill_of_not_mem (by omega), View.addr, View.addr, if_neg hlt, if_neg hlt, h12, hall.blk]
  · simp
    omega

theorem grow_cross (all : Nat → Nat) (hnb : nb ≤ 12) (hlen : 12 < nb + ls.length) (h12 : sec 12 = 0)
    (hf : FirstFree g w l) (hall : Allocs g (w.setUsed l true) ls w₂)
    (hk : ∀ k, 12 ≤ k → all k = fill (fun _ => 0) nb ls k) :
    Grow g w sec nb ls (some l) (w₂.setBlk l ((tableBytes all).slice 0 512))
      (fillDirect (update sec 12 l) nb ls) := by
  have hl0 : l ≠ 0 := by
    have := hf.base_le
    have := g.base_pos
    omega
  have hs12 : fillDirect (update sec 12 l) nb ls 12 = l := by
    rw [fillDirect, if_neg (by omega), update_self]
  refine ⟨?_, hs12, by simp; omega, ⟨w₂, ⟨[], ls, w, rfl, .nil w, hf, hall⟩, rfl⟩⟩
  intro k hk140
  by_cases hlt : k < 12
  · rw [View.addr, if_pos hlt, fillDirect, if_pos hlt, fill, fill, View.addr, if_pos hlt,
      update_of_ne (by omega)]
  · have hz : w.addr sec k = 0 := by rw [View.addr, if_neg hlt, if_neg (fun hc => hc.2 h12)]
    have hval : all k = fill (w.addr sec) nb ls k := by rw [hk k (by omega), fill, fill, hz]
    rw [addr_of_table (by rwa [hs12]) (by rw [hs12, View.blk_setBlk_self]) (by omega) hk140, hval]
    rw [hk k (by omega), fill]
    split
    · exact hall.lt
    · omega

theorem grow_indirect (all : Nat → Nat) (hnb : 12 < nb) (h12 : sec 12 ≠ 0) (hall : Allocs g w ls w₂)
    (hk : ∀ k, 12 ≤ k → k < 140 → all k = fill (w.addr sec) nb ls k) :
    Grow g w sec nb ls none (w₂.setBlk (sec 12) ((tableBytes all).slice 0 512)) sec := by
  refine ⟨?_, rfl, by simp; omega, ⟨w₂, taken_of_allocs hall, rfl⟩⟩
  intro k hk140
  by_cases hlt : k < 12
  · rw [fill_of_not_mem (by omega), View.addr, if_pos hlt, View.addr, if_pos hlt]
  · rw [addr_of_table h12 (View.blk_setBlk_self _ _ _) (by omega) hk140, hk k (by omega) hk140]
    rw [hk k (by omega) hk140, fill]
    split
    · exact hall.lt
    · rw [View.addr, if_neg hlt, if_pos ⟨hk140, h12⟩]
      exact Buf.word_lt _ _

/-- How many blocks a file with `nb` of them takes until it has block `last`, with the table. -/
def newBlocks (nb last : Nat) : Nat := last + 1 - nb + if nb ≤ 12 ∧ 12 ≤ last then 1 else 0

theorem newBlocks_zero (last : Nat) : newBlocks 0 last = newBlocks 1 last + 1 := by
  simp only [newBlocks]
  split <;> split <;> omega

structure Collectable (g : Geom) (w : View) (i : Inode) (count : Nat) : Prop where
  span : Span w i.iSectors (i.iSize / 512 + 1)
  lt : i.iSize + count < 512 * 140
  low : i.iSectors 12 ≠ 0 → g.base ≤ i.iSectors 12
  high : i.iSectors 12 ≤ maxLba
  room : Room g w (newBlocks (i.iSize / 512 + 1) ((i.iSize + count) / 512))

theorem sat_collectBlocks (h : At g w m s) (hp : m.inodes p = some i)
    {count : Nat} (hc : Collectable g w i count) {Q : Option (Nat → Nat) → Fs → Prop}
    (hQ : ∀ ls tb w' sec' all t, ls.length = (i.iSize + count) / 512 - i.iSize / 512 →
      Grow g w i.iSectors (i.iSize / 512 + 1) ls tb w' sec' →
      (∀ k, i.iSize / 512 ≤ k → k ≤ (i.iSize + count) / 512 → all k = w'.addr sec' k) →
      At g w' (m.set p (i.body i.iSize sec')) t → Q (some all) t) :
    ((collectBlocks p count).on s).Sat False Q := by
  have hlt := hc.lt
  have hspan := hc.span
  have henough := hc.room
  have hadd : add32 i.iSize count = i.iSize + count := add32_of_lt (by omega)
  have hself : m.set p (i.body i.iSize i.iSectors) = m := Mem.set_self hp
  have hsub : sub32 ((i.iSize + count) / 512 + 1) (i.iSize / 512 + 1) =
      (i.iSize + count) / 512 - i.iSize / 512 := by
    rw [sub32_of_le (by omega)]
    omega
  have hdiff : (i.iSize + count) / 512 + 1 - (i.iSize / 512 + 1) =
      (i.iSize + count) / 512 - i.iSize / 512 := by omega
  generalize hb : i.iSize / 512 = b at *
  generalize hb' : (i.iSize + count) / 512 = b' at *
  have hlast : w.addr i.iSectors b ≠ 0 := (hspan.addr b (by omega)).mpr (by omega)
  rw [collectBlocks, sat_bind]
  apply sat_getInode h hp
  simp only [sat_bind, sat_assert, decide_eq_true_eq, decide_eq_false_iff_not, hadd, hb,
    hb', hsub, Nat.add_sub_cancel, hdiff]
  refine ⟨fun _ => ?_, fun hne => absurd (show b' + 1 ≤ 140 by omega) hne⟩
  by_cases hzero : b' - b = 0
  · -- the write stays in the last block
    rw [if_pos hzero]
    obtain rfl : b' = b := by omega
    have hg := grow_nil g w i.iSectors (b' + 1)
    by_cases hdir : b' + 1 ≤ 12
    · rw [if_pos hdir]
      refine hQ [] none w i.iSectors _ s (by simp) hg ?_ (by rwa [hself])
      intro k h₁ h₂
      obtain rfl : k = b' := by omega
      rw [oneBlock, update_self, View.addr, if_pos (by omega)]
    · rw [if_neg hdir]
      have h12 : i.iSectors 12 ≠ 0 := hspan.tbl.mpr (by omega)
      simp only [sat_bind, sat_assert, decide_eq_true_eq, decide_eq_false_iff_not]
      refine ⟨fun _ => ?_, fun hne => absurd h12 hne⟩
      apply sat_readBlk h (.inr hc.high) (hc.low h12)
      refine hQ [] none w i.iSectors _ s (by simp) hg ?_ (by rwa [hself])
      intro k h₁ h₂
      rw [withTable, if_neg (by omega), if_pos (by omega), View.addr, if_neg (by omega),
        if_pos ⟨by omega, h12⟩]
  · rw [if_neg hzero]
    have hroom : Room g w (b' - b) := henough.mono (by rw [newBlocks]; omega)
    have hz : ∀ k, b + 1 ≤ k → k < 12 → i.iSectors k = 0 := by
      intro k h₁ h₂
      by_contra hne
      have := (hspan.addr k (by omega)).mp (by rwa [View.addr, if_pos h₂])
      omega
    by_cases hdir : b' + 1 ≤ 12
    · -- situation 1: direct blocks only
      rw [if_pos hdir]
      simp only [sat_bind, sat_assert, decide_eq_true_eq, decide_eq_false_iff_not]
      have hb12 : b < 12 := by omega
      refine ⟨fun _ => ?_, fun hne => absurd ?_ hne⟩
      · apply sat_allocBlocks h hp hroom hz
        intro ls w' t hlen hall ht
        have hg : Grow g w i.iSectors (b + 1) ls none w' _ := grow_direct (by omega) hall
        refine hQ ls none w' _ _ t hlen hg ?_ ht
        intro k h₁ h₂
        rw [hg.addr k (by omega)]
        by_cases hk : k = b
        · rw [fill_of_not_mem (by omega), fill_of_not_mem (by omega), hk, oneBlock,
            update_self, View.addr, if_pos hb12]
        · rw [fill_of_mem (by omega) (by omega), fill_of_mem (by omega) (by omega)]
      · rwa [View.addr, if_pos hb12] at hlast
    · rw [if_neg hdir]
      by_cases hcross : b + 1 ≤ 12
      · -- situation 2: the table is new
        rw [if_pos hcross]
        have h12 : i.iSectors 12 = 0 := by
          by_contra hne
          have := hspan.tbl.mp hne
          omega
        rw [sat_bind]
        have hroom' : Room g w (b' - b + 1) := by
          rwa [newBlocks, if_pos ⟨hcross, by omega⟩, Nat.add_sub_add_right] at henough
        apply sat_allocBlock h (hroom'.mono (by omega))
        intro l t₁ hf h₁
        simp only [sat_bind]
        apply sat_getInode h₁ hp
        rw [sat_assert, decide_eq_true_eq, decide_eq_false_iff_not]
        refine ⟨fun _ => ?_, fun hne => absurd h12 hne⟩
        apply sat_setSector h₁ hp
        intro t₂ h₂
        apply sat_allocBlocks h₂ (Mem.set_inodes_self _ _ _)
        · exact hroom'.alloc
        · intro k hk hk'
          rw [Inode.body_iSectors, update_of_ne (by omega)]
          exact hz k hk hk'
        intro ls w₂ t₃ hlen hall h₃
        rw [Mem.set_set] at h₃
        dsimp only [Inode.body_body, Inode.body_iSectors, Inode.body_iSize] at h₃
        simp only [sat_bind]
        apply sat_writeBlk h₃ (.inr (hf.le_maxLba hroom' (by omega))) hf.base_le
        intro t₄ hm h₄
        have hg : Grow g w i.iSectors (b + 1) ls (some l) _ _ :=
          grow_cross (fill (oneBlock b (i.iSectors b)) (b + 1) ls) hcross (by omega) h12 hf hall
            fun k hk => by rw [fill, fill, oneBlock_of_ne (by omega)]
        refine hQ ls (some l) _ _ _ t₄ hlen hg ?_ h₄
        intro k h₁ h₂
        rw [hg.addr k (by omega)]
        by_cases hk : k = b
        · rw [fill_of_not_mem (by omega), fill_of_not_mem (by omega), hk, oneBlock,
            update_self, View.addr, if_pos (by omega)]
        · rw [fill_of_mem (by omega) (by omega), fill_of_mem (by omega) (by omega)]
      · -- situation 3: the table is extended
        rw [if_neg hcross]
        have h12 : i.iSectors 12 ≠ 0 := hspan.tbl.mpr (by omega)
        simp only [sat_bind, sat_assert, decide_eq_true_eq, decide_eq_false_iff_not]
        refine ⟨fun _ => ?_, fun hne => absurd h12 hne⟩
        apply sat_readBlk h (.inr hc.high) (hc.low h12)
        apply sat_allocBlocks h hp hroom hz
        intro ls w₂ t₁ hlen hall h₁
        simp only [sat_bind]
        rw [fillDirect_of_le (by omega)] at h₁
        apply sat_writeBlk h₁ (.inr hc.high) (hc.low h12)
        intro t₂ hm h₂
        have htab : ∀ k, 12 ≤ k → k < 140 → withTable (fun _ => 0) (w.blk (i.iSectors 12)) k =
            w.addr i.iSectors k := by
          intro k h₁ h₂
          rw [withTable, if_neg (by omega), if_pos h₂, View.addr, if_neg (by omega), if_pos ⟨h₂, h12⟩]
        have hg : Grow g w i.iSectors (b + 1) ls none _ _ :=
          grow_indirect (fill (withTable (fun _ => 0) (w.blk (i.iSectors 12))) (b + 1) ls)
            (by omega) h12 hall fun k h₁ h₂ => by rw [fill, fill, htab k h₁ h₂]
        refine hQ ls none _ _ _ t₂ hlen hg ?_ h₂
        intro k h₁ h₂
        rw [hg.addr k (by omega), fill, fill, htab k (by omega) (by omega)]

end Collect

section Grow

variable {g : Geom} {w w' : View} {sec sec' : Nat → Nat} {nb : Nat} {ls : List Nat} {tb : Option Nat}

structure Fresh (g : Geom) (w : View) (ls : List Nat) (tb : Option Nat) (w' : View) : Prop where
  free : ∀ l, l ∈ ls ∨ tb = some l → w.used l = false ∧ g.base ≤ l ∧ l < g.top
  used : ∀ l, w'.used l = true ↔ w.used l = true ∨ l ∈ ls ∨ tb = some l

theorem Taken.fresh (h : Taken g w ls tb w') : Fresh g w ls tb w' := by
  obtain ⟨ls₁, ls₂, w₁, rfl, h₁, h₂⟩ := h
  have hu : ∀ l, w₁.used l = (w.used l || decide (l ∈ ls₁)) := h₁.used
  have hfree : ∀ l, w₁.used l = false → w.used l = false := by
    intro l hl
    rw [hu] at hl
    exact (Bool.or_eq_false_iff.mp hl).1
  cases tb with
  | none =>
    have hall : Allocs g w (ls₁ ++ ls₂) w' := h₁.append h₂
    refine ⟨?_, ?_⟩
    · intro l hl
      exact hall.free l (hl.resolve_right (by simp))
    · intro l
      rw [hall.used]
      simp
  | some t =>
    obtain ⟨hf, h₂⟩ := h₂
    refine ⟨?_, ?_⟩
    · intro l hl
      rcases hl with hl | hl
      · rcases List.mem_append.mp hl with hl | hl
        · exact h₁.free l hl
        · obtain ⟨h₃, h₄⟩ := h₂.free l hl
          rw [View.setUsed_used, update_apply] at h₃
          split at h₃
          · cases h₃
          · exact ⟨hfree l h₃, h₄⟩
      · obtain rfl := Option.some.inj hl
        exact ⟨hfree _ hf.free, hf.base_le, hf.lt_top⟩
    · intro l
      rw [h₂.used, View.setUsed_used, update_apply]
      by_cases hl : l = t
      · simp [hl]
      · rw [if_neg hl, hu]
        simp [Ne.symm hl, or_assoc]

theorem Grow.fresh (h : Grow g w sec nb ls tb w' sec') : Fresh g w ls tb w' := by
  obtain ⟨w₂, ht, hu⟩ := h.bits
  exact ⟨ht.fresh.free, hu ▸ ht.fresh.used⟩

theorem Fresh.ne_zero (h : Fresh g w ls tb w') {l : Nat} (hl : l ∈ ls ∨ tb = some l) : l ≠ 0 := by
  have := (h.free l hl).2.1
  have := g.base_pos
  omega

theorem Grow.span (h : Grow g w sec nb ls tb w' sec') (hs : Span w sec nb) :
    Span w' sec' (nb + ls.length) where
  addr b hb := by
    rw [h.addr b hb]
    by_cases hc : nb ≤ b ∧ b < nb + ls.length
    · rw [fill_of_mem hc.1 hc.2]
      exact iff_of_true (h.fresh.ne_zero (Or.inl (getD_mem (by omega)))) hc.2
    · rw [fill_of_not_mem (by omega), hs.addr b hb]
      omega
  tbl := by
    rw [h.table]
    cases ht : tb with
    | none =>
      have hnew := h.new
      rw [ht] at hnew
      rw [Option.getD_none, hs.tbl]
      simp at hnew
      omega
    | some l =>
      have hnew := h.new
      rw [ht] at hnew
      rw [Option.getD_some]
      exact iff_of_true (h.fresh.ne_zero (Or.inr ht)) (hnew.mp rfl).2

theorem Grow.held (h : Grow g w sec nb ls tb w' sec') {q : Nat} (hq : w'.hold sec' q ≠ 0) :
    w.hold sec q = w'.hold sec' q ∨ w'.hold sec' q ∈ ls ∨ tb = some (w'.hold sec' q) := by
  have key : ∀ k < 140, w'.hold sec' q = w'.addr sec' k → w.hold sec q = w.addr sec k →
      w.hold sec q = w'.hold sec' q ∨ w'.hold sec' q ∈ ls ∨ tb = some (w'.hold sec' q) := by
    intro k hk h₁ h₂
    by_cases hc : nb ≤ k ∧ k < nb + ls.length
    · rw [h₁, h.addr k hk, fill_of_mem hc.1 hc.2]
      exact .inr (.inl (getD_mem (by omega)))
    · left
      rw [h₁, h₂, h.addr k hk, fill_of_not_mem (by omega)]
  obtain hlt | rfl | ⟨k, hk, rfl⟩ := hold_cases q
  · exact key q (by omega) (hold_of_lt hlt) (hold_of_lt hlt)
  · rw [hold_table, hold_table, h.table]
    cases tb with
    | none => exact .inl rfl
    | some l => exact .inr (.inr rfl)
  · by_cases h140 : k < 140
    · exact key k h140 (hold_succ hk) (hold_succ hk)
    · rw [hold_succ hk, View.addr, if_neg (by omega), if_neg (fun hc => h140 hc.1)] at hq
      exact absurd rfl hq

theorem Grow.used (h : Grow g w sec nb ls tb w' sec') (hu : ∀ q, w.hold sec q ≠ 0 → w.used (w.hold sec q) = true)
    (q : Nat) (hq : w'.hold sec' q ≠ 0) : w'.used (w'.hold sec' q) = true := by
  rw [h.fresh.used]
  rcases h.held hq with he | hn
  · rw [← he] at hq ⊢
    exact .inl (hu q hq)
  · exact .inr hn

theorem Allocs.room (h : Allocs g w ls w') {n : Nat} (hr : Room g w (ls.length + n)) : Room g w' n := by
  induction h with
  | nil w => simpa using hr
  | @cons w w' lba ls hf h ih =>
    apply ih
    have : Room g w (ls.length + n + 1) := by
      rw [List.length_cons] at hr
      exact hr.mono (by omega)
    exact this.alloc

theorem Allocs.le_maxLba (h : Allocs g w ls w') (hr : Room g w ls.length) : ∀ l ∈ ls, l ≤ maxLba := by
  induction h with
  | nil w => simp
  | @cons w w' lba ls hf h ih =>
    intro l hl
    rcases List.mem_cons.mp hl with rfl | hl
    · exact hf.le_maxLba hr (by simp)
    · exact ih hr.alloc l hl

theorem Taken.le_maxLba (h : Taken g w ls tb w') (hr : Room g w (ls.length + tb.toList.length)) :
    ∀ l, l ∈ ls ∨ tb = some l → l ≤ maxLba := by
  obtain ⟨ls₁, ls₂, w₁, rfl, h₁, h₂⟩ := h
  rw [List.length_append] at hr
  have hr₁ : Room g w₁ (ls₂.length + tb.toList.length) := h₁.room (hr.mono (by omega))
  have hle₁ := h₁.le_maxLba (hr.mono (by omega))
  intro l hl
  cases tb with
  | none =>
    rcases List.mem_append.mp (hl.resolve_right (by simp)) with hl | hl
    · exact hle₁ l hl
    · exact Allocs.le_maxLba h₂ (hr₁.mono (by omega)) l hl
  | some t =>
    obtain ⟨hf, h₂⟩ := h₂
    rcases hl with hl | hl
    · rcases List.mem_append.mp hl with hl | hl
      · exact hle₁ l hl
      · exact h₂.le_maxLba hr₁.alloc l hl
    · obtain rfl := Option.some.inj hl
      exact hf.le_maxLba hr₁ (by rw [Option.toList_some, List.length_singleton]; omega)

theorem Grow.newBlocks_eq (h : Grow g w sec nb ls tb w' sec') {last : Nat} (hlast : nb + ls.length = last + 1) :
    newBlocks nb last = ls.length + tb.toList.length := by
  have hnew := h.new
  rw [newBlocks, ← hlast, Nat.add_sub_cancel_left]
  cases tb with
  | none =>
    rw [if_neg fun hc => Bool.false_ne_true (hnew.mpr ⟨hc.1, by omega⟩)]
    rfl
  | some t =>
    have := hnew.mp rfl
    rw [if_pos ⟨this.1, by omega⟩]
    rfl

theorem grow_first {l : Nat} (hf : FirstFree g w l) :
    Grow g w sec 0 [l] none ((w.setUsed l true).syncUsed g l) (update sec 0 l) := by
  have h : Grow g w sec 0 [l] none _ (fillDirect sec 0 [l]) := grow_direct (by simp) (.cons hf (.nil _))
  rwa [fillDirect_cons_of_lt (by omega), fillDirect_nil] at h

end Grow

section First

variable {g : Geom} {w : View} {m : Mem} {s : Fs} {p : Nat} {i : Inode}

def blockCount (sec : Nat → Nat) (size : Nat) : Nat := if sec 0 = 0 then 0 else size / 512 + 1

theorem FileRep.span {sec : Nat → Nat} {size : Nat} (h : FileRep w sec size) :
    Span w sec (blockCount sec size) := by
  rw [blockCount]
  by_cases h0 : sec 0 = 0
  · rw [if_pos h0]
    refine ⟨fun b hb => ?_, ?_⟩
    · rw [h.addr b hb]
      simp [h0]
    · rw [h.tbl, h.fresh h0]
      simp
  · rw [if_neg h0]
    refine ⟨fun b hb => ?_, ?_⟩
    · rw [h.addr b hb]
      simp only [ne_eq, h0, not_false_eq_true, true_and]
      omega
    · rw [h.tbl]
      omega

theorem sat_firstBlock (h : At g w m s) (hp : m.inodes p = some i)
    (hr : i.iSectors 0 = 0 → Room g w 1 ∧ w.used g.base = true) {Q : Bool → Fs → Prop}
    (hold : i.iSectors 0 ≠ 0 → Q true s)
    (hnew : ∀ l t, i.iSectors 0 = 0 → FirstFree g w l →
      At g ((w.setUsed l true).syncUsed g l) (m.set p (i.body i.iSize (update i.iSectors 0 l))) t →
      Q true t) : ((firstBlock p).on s).Sat False Q := by
  rw [firstBlock, sat_bind]
  apply sat_getInode h hp
  by_cases h0 : i.iSectors 0 = 0
  · rw [if_pos h0, sat_bind]
    apply sat_allocBlock h (hr h0).1
    intro l t₁ hf h₁
    dsimp only
    rw [sat_bind]
    apply sat_setSector h₁ hp
    intro t₂ h₂
    simp only [bind_on, get_on, Res.sat_bind, Res.sat_done, sat_assert, decide_eq_true_eq,
      decide_eq_false_iff_not, h₂.bitIdx hf.base_le]
    refine ⟨fun _ => ?_, fun hc => ?_⟩
    · apply sat_syncBlock h₂ rfl hf.base_le hf.lt_top
      intro t₃ h₃
      exact hnew l t₃ h0 hf h₃
    · have hl : l = g.base := by
        have := hf.base_le
        omega
      have := hf.free
      rw [hl, (hr h0).2] at this
      cases this
  · rw [if_neg h0]
    exact hold h0

end First

end TrueOs.Fs
