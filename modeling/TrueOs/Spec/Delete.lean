import TrueOs.Spec.Sync

/-! `delete_dir_entry`, and giving an inode back. -/

namespace TrueOs.Fs

open Prog

def Ent.normal (e : Ent) : Bool := decide (e.name ≠ dot ∧ e.name ≠ dotdot)

def hits (b : Buf) (n j : Nat) : Bool := (slot b j).any (fun e => e.normal && e.ino == n)

def hasDot (b : Buf) : Bool := (List.range 21).any (slotNamed b dot)

def countNormal (b : Buf) : Nat := (List.range 21).countP (fun j => (slot b j).any Ent.normal)

def lastEntry (b : Buf) : Prop := countNormal b = 1 ∧ hasDot b = false

theorem valid_dot : ValidName dot := ⟨by decide, by decide, by decide⟩

theorem valid_dotdot : ValidName dotdot := ⟨by decide, by decide, by decide⟩

inductive Removed (g : Geom) (w : View) (sec : Nat → Nat) (k j : Nat) : View → (Nat → Nat) → Prop
  | clear (h : ¬lastEntry (w.blk (w.addr sec k))) : Removed g w sec k j
      (w.setBlk (w.addr sec k)
        (((w.blk (w.addr sec k)).splice (24 * j) 24 (fun _ => 0)).slice 0 512)) sec
  | free (h : lastEntry (w.blk (w.addr sec k))) (hk : k < 12) : Removed g w sec k j
      ((w.setUsed (sec k) false).syncUsed g (sec k)) (Function.update sec k 0)

variable {g : Geom} {w : View} {m : Mem} {s : Fs} {E : Prop} {p n : Nat} {i : Inode}
  {b : Buf} {sec : Nat → Nat}

theorem sat_scanEntries (js : List Nat) (acc : EntryScan)
    (hE : E ∨ (acc.dirEntryFound.isSome → ∀ j ∈ js, hits b n j = false) ∧
      js.Pairwise (fun j j' => hits b n j → hits b n j' = false)) {Q : EntryScan → Fs → Prop}
    (hQ : Q ⟨acc.isDirFirstBlock || js.any (slotNamed b dot),
      acc.dirEntryCnt + js.countP (fun j => (slot b j).any Ent.normal),
      acc.dirEntryFound.or (js.find? (hits b n))⟩ s) : ((scanEntries b n js acc).on s).Sat E Q := by
  induction js generalizing acc with
  | nil => simpa [scanEntries] using hQ
  | cons j js ih =>
    have hE' : E ∨ (acc.dirEntryFound.isSome → ∀ j ∈ js, hits b n j = false) ∧
        js.Pairwise (fun j j' => hits b n j → hits b n j' = false) :=
      hE.imp_right fun h => ⟨fun hs j hj => h.1 hs j (List.mem_cons_of_mem _ hj), h.2.of_cons⟩
    simp only [scanEntries]
    simp only [List.any_cons, List.countP_cons, List.find?_cons, slotNamed, hits] at hQ
    cases hs : slot b j with
    | none =>
      simp only [hs, Option.any_none, Bool.false_or, Bool.false_eq_true, if_false, Nat.add_zero] at hQ
      rw [if_neg (not_not_intro (slot_eq_none hs))]
      exact ih acc hE' hQ
    | some e =>
      obtain ⟨-, hino, hty⟩ := slot_eq_some hs
      simp only [hs, Option.any_some] at hQ
      rw [if_pos hty]
      simp only [strEq_of_slot hs valid_dot, strEq_of_slot hs valid_dotdot, decide_eq_true_eq]
      by_cases hd : e.name = dot
      · have hnorm : e.normal = false := by simp [Ent.normal, hd]
        rw [if_pos hd]
        apply ih ⟨true, acc.dirEntryCnt, acc.dirEntryFound⟩ hE'
        simpa [hd, hnorm, hits, slotNamed] using hQ
      · rw [if_neg hd]
        by_cases hdd : e.name = dotdot
        · have hnorm : e.normal = false := by simp [Ent.normal, hdd]
          rw [if_pos hdd]
          apply ih _ hE'
          simpa [hd, hnorm, hits, slotNamed] using hQ
        · have hnorm : e.normal = true := by simp [Ent.normal, hd, hdd]
          rw [if_neg hdd]
          by_cases hn : e.ino = n
          · have hhit : hits b n j = true := by simp [hits, hs, hnorm, hn]
            rw [if_pos (hino.trans hn), sat_bind, sat_assert]
            refine ⟨fun hc => ?_, fun hc => ?_⟩
            · apply ih
              · apply hE.imp_right
                intro h
                exact ⟨fun _ j' hj' => (List.pairwise_cons.mp h.2).1 j' hj' hhit, h.2.of_cons⟩
              · have hnone : acc.dirEntryFound = none := by simpa using hc
                simpa [hd, hnorm, hn, hnone, Nat.add_assoc, Nat.add_comm 1] using hQ
            · rcases hE with hE | hE
              · exact hE
              · have := hE.1 (by simpa using hc) j List.mem_cons_self
                simp [hhit] at this
          · rw [if_neg fun h => hn (hino.symm.trans h)]
            apply ih ⟨acc.isDirFirstBlock, acc.dirEntryCnt + 1, acc.dirEntryFound⟩ hE'
            have hne : (e.ino == n) = false := by simpa using hn
            simpa [hd, hnorm, hne, hits, slotNamed, Nat.add_assoc, Nat.add_comm 1] using hQ

def HitOnce (b : Buf) (n : Nat) : Prop := (List.range 21).Pairwise (fun j j' => hits b n j → hits b n j' = false)

theorem sat_scanBlock (b : Buf) (hE : E ∨ HitOnce b n) {Q : EntryScan → Fs → Prop}
    (hQ : Q ⟨hasDot b, countNormal b, (List.range 21).find? (hits b n)⟩ s) :
    ((scanEntries b n (List.range 21) ⟨false, 0, none⟩).on s).Sat E Q := by
  apply sat_scanEntries
  · exact hE.imp_right fun h => ⟨by simp, h⟩
  · simpa only [hasDot, countNormal, Option.none_or, Bool.false_or, Nat.zero_add] using hQ

structure HitAt (w : View) (sec : Nat → Nat) (n k j : Nat) : Prop where
  lt : k < 140
  slot_lt : j < 21
  addr : w.addr sec k ≠ 0
  hit : hits (w.blk (w.addr sec k)) n j = true

structure OnlyHit (w : View) (sec : Nat → Nat) (n k j : Nat) : Prop extends HitAt w sec n k j where
  only : ∀ k' < 140, ∀ j' < 21, w.addr sec k' ≠ 0 → hits (w.blk (w.addr sec k')) n j' = true →
    k' = k ∧ j' = j

variable {k j : Nat}

theorem OnlyHit.hitOnce (h : OnlyHit w sec n k j) {k' : Nat} (hk' : k' < 140) (ha : w.addr sec k' ≠ 0) :
    HitOnce (w.blk (w.addr sec k')) n := by
  apply List.Pairwise.imp_of_mem _ List.nodup_range
  intro x y hx hy hne hhx
  cases hhy : hits (w.blk (w.addr sec k')) n y with
  | false => rfl
  | true =>
    have h₁ := h.only k' hk' x (List.mem_range.mp hx) ha hhx
    have h₂ := h.only k' hk' y (List.mem_range.mp hy) ha hhy
    exact absurd (h₁.2.trans h₂.2.symm) hne

theorem hitOnce_of_none (h : ∀ j < 21, hits b n j = false) : HitOnce b n := by
  apply List.Pairwise.imp_of_mem _ (List.nodup_range (n := 21))
  intro _ y _ hy _ _
  exact h y (List.mem_range.mp hy)

theorem countNormal_pos (hj : j < 21) (hh : hits b n j = true) : 1 ≤ countNormal b := by
  rw [countNormal, Nat.one_le_iff_ne_zero, ← Nat.pos_iff_ne_zero, List.countP_pos_iff]
  refine ⟨j, List.mem_range.mpr hj, ?_⟩
  cases hs : slot b j with
  | none => simp [hits, hs] at hh
  | some e =>
    simp only [hits, hs, Option.any_some, Bool.and_eq_true] at hh
    simpa using hh.1

variable {Q : Bool → Fs → Prop}

theorem sat_entryGone (h : At g w m s) (hp : m.inodes p = some i) (hsz : E ∨ 24 ≤ i.iSize)
    (hno : E ∨ i.iNo < 4096)
    (hQ : ∀ t, At g (w.setIno i.iNo (i.body (i.iSize - 24) i.iSectors).clean)
      (m.set p (i.body (i.iSize - 24) i.iSectors)) t → Q true t) :
    ((entryGone p 24).on s).Sat E Q := by
  rw [entryGone, sat_bind]
  apply sat_getInode h hp
  rw [sat_bind, sat_assert, decide_eq_true_eq, decide_eq_false_iff_not]
  refine ⟨fun _ => ?_, fun hc => hsz.resolve_right hc⟩
  rw [sat_bind]
  apply sat_setInode h
  intro t ht
  rw [sat_bind]
  apply sat_getInode ht (Mem.set_inodes_self _ _ _)
  rw [sat_bind]
  apply sat_inodeSync ht
  · exact hno
  · intro t' ht'
    rw [Inode.body_iNo] at ht'
    exact hQ t' ht'

theorem sat_deleteBlock (h : At g w m s) (hp : m.inodes p = some i) (hl : g.base ≤ i.iSectors k)
    (ht : i.iSectors k < g.top) (hk : k < 12) {R : Unit → Fs → Prop}
    (hR : ∀ t, At g ((w.setUsed (i.iSectors k) false).syncUsed g (i.iSectors k))
      (m.set p (i.body i.iSize (Function.update i.iSectors k 0))) t → R () t) :
    ((deleteBlock p (i.iSectors k) k).on s).Sat E R := by
  rw [deleteBlock, bind_on, get_on, Res.sat_bind, Res.sat_done, h.bitIdx hl, sat_bind]
  apply sat_blockBitmapSet h rfl hl ht
  intro t₁ ht₁
  rw [sat_bind]
  apply sat_syncBlock ht₁ rfl hl ht
  intro t₂ ht₂
  rw [if_pos hk]
  exact sat_setSector ht₂ hp hR

theorem sat_deleteBlock_loop (hE : E) {lba : Nat} (hk : ¬k < 12) {R : Unit → Fs → Prop} :
    ((deleteBlock p lba k).on s).Sat E R := by
  rw [deleteBlock, bind_on, get_on, Res.sat_bind, Res.sat_done, sat_bind]
  apply (Res.sat_top hE _).mono
  intro _ _ _
  rw [sat_bind]
  apply (Res.sat_top hE _).mono
  intro _ _ _
  rw [if_neg hk]
  exact hE

structure Deletable (g : Geom) (w : View) (i : Inode) (n : Nat) (E : Prop) : Prop where
  addr : ∀ k < 140, w.addr i.iSectors k ≠ 0 → g.base ≤ w.addr i.iSectors k ∧ w.addr i.iSectors k ≤ maxLba
  once : E ∨ ∀ k < 140, w.addr i.iSectors k ≠ 0 → HitOnce (w.blk (w.addr i.iSectors k)) n
  top : ∀ k j, HitAt w i.iSectors n k j → k < 12 → i.iSectors k < g.top
  ends : ∀ k j, HitAt w i.iSectors n k j →
    E ∨ 24 ≤ i.iSize ∧ i.iNo < 4096 ∧ (12 ≤ k → ¬lastEntry (w.blk (w.addr i.iSectors k)))

theorem sat_deleteBlocks (h : At g w m s) (hp : m.inodes p = some i) (hd : Deletable g w i n E)
    (ks : List Nat) (hks : ∀ x ∈ ks, x < 140) (hno : (∀ k j, k ∈ ks → ¬HitAt w i.iSectors n k j) → Q false s)
    (hQ : ∀ k j w' sec' t, HitAt w i.iSectors n k j → Removed g w i.iSectors k j w' sec' →
      At g (w'.setIno i.iNo (i.body (i.iSize - 24) sec').clean)
        (m.set p (i.body (i.iSize - 24) sec')) t → Q true t) :
    ((deleteBlocks p n (w.addr i.iSectors) ks).on s).Sat E Q := by
  induction ks with
  | nil => exact hno fun _ _ hk => nomatch hk
  | cons x ks ih =>
    have hx := hks x List.mem_cons_self
    have hks' : ∀ x ∈ ks, x < 140 := fun x hx => hks x (List.mem_cons_of_mem _ hx)
    have hskip : (∀ j, ¬HitAt w i.iSectors n x j) → (∀ k j, k ∈ ks → ¬HitAt w i.iSectors n k j) → Q false s := by
      intro hnx hnks
      refine hno fun k j hk => ?_
      rcases List.mem_cons.mp hk with rfl | hk
      · exact hnx j
      · exact hnks k j hk
    simp only [deleteBlocks, ite_on]
    by_cases ha : w.addr i.iSectors x = 0
    · rw [if_pos ha]
      exact ih hks' (hskip fun _ hh => hh.addr ha)
    · rw [if_neg ha, sat_bind]
      obtain ⟨h₁, h₂⟩ := hd.addr x hx ha
      apply sat_readBlk h (Or.inr h₂) h₁
      simp only [bind_on, get_on, Res.sat_bind, Res.sat_done, h.sb, g.entrySize]
      apply sat_scanBlock _ (hd.once.imp_right fun hc => hc x hx ha)
      cases hf : (List.range 21).find? (hits (w.blk (w.addr i.iSectors x)) n) with
      | none =>
        refine ih hks' (hskip fun j hh => ?_)
        exact List.find?_eq_none.mp hf j (List.mem_range.mpr hh.slot_lt) hh.hit
      | some j =>
        have hh : HitAt w i.iSectors n x j :=
          ⟨hx, List.mem_range.mp (List.mem_of_find?_eq_some hf), ha, List.find?_some hf⟩
        simp only [sat_bind, sat_assert, decide_eq_true_eq, decide_eq_false_iff_not]
        refine ⟨fun _ => ?_, fun hc => absurd (countNormal_pos hh.slot_lt hh.hit) hc⟩
        have hsz : E ∨ 24 ≤ i.iSize := (hd.ends x j hh).imp_right (·.1)
        have hno : E ∨ i.iNo < 4096 := (hd.ends x j hh).imp_right (·.2.1)
        by_cases hlast : lastEntry (w.blk (w.addr i.iSectors x))
        · rw [if_pos (show countNormal _ = 1 ∧ hasDot _ = false from hlast), sat_bind]
          by_cases hx12 : x < 12
          · have hax : w.addr i.iSectors x = i.iSectors x := by simp [View.addr, hx12]
            rw [hax] at h₁ ⊢
            apply sat_deleteBlock h hp h₁ (hd.top x j hh hx12) hx12
            intro t ht
            apply sat_entryGone ht (Mem.set_inodes_self _ _ _) hsz hno
            intro t' ht'
            rw [Mem.set_set] at ht'
            exact hQ _ _ _ _ t' hh (.free hlast hx12) ht'
          · exact sat_deleteBlock_loop ((hd.ends x j hh).resolve_right fun hc => hc.2.2 (by omega) hlast) hx12
        · rw [if_neg (show ¬(countNormal _ = 1 ∧ hasDot _ = false) from hlast), sat_bind]
          apply sat_writeBlk h (Or.inr h₂) h₁
          intro t _ ht
          apply sat_entryGone ht hp hsz hno
          intro t' ht'
          exact hQ _ _ _ _ t' hh (.clear hlast) ht'

theorem sat_deleteDirEntry_cases (h : At g w m s) {d : DirRef} (hp : m.inodes (d.ptr m) = some i)
    (htbl : i.iSectors 12 ≠ 0 → g.base ≤ i.iSectors 12 ∧ i.iSectors 12 ≤ maxLba)
    (hd : Deletable g w i n E)
    (hno : (∀ k j, ¬HitAt w i.iSectors n k j) → Q false s)
    (hQ : ∀ k j w' sec' t, HitAt w i.iSectors n k j → Removed g w i.iSectors k j w' sec' →
      At g (w'.setIno i.iNo (i.body (i.iSize - 24) sec').clean)
        (m.set (d.ptr m) (i.body (i.iSize - 24) sec')) t → Q true t) :
    ((deleteDirEntry d n).on s).Sat E Q := by
  rw [deleteDirEntry, sat_bind]
  apply sat_dirInode h
  rw [sat_bind]
  apply sat_getInode h hp
  rw [sat_bind]
  apply sat_dirBlocks h htbl
  refine sat_deleteBlocks h hp hd _ (fun x hx => List.mem_range.mp hx) (fun hnone => ?_) hQ
  exact hno fun k j hh => hnone k j (List.mem_range.mpr hh.lt) hh

theorem sat_deleteDirEntry (h : At g w m s) {d : DirRef} (hp : m.inodes (d.ptr m) = some i)
    (hd : DirOk g w i.iSectors) (hh : OnlyHit w i.iSectors n k j)
    (htop : ∀ k < 12, i.iSectors k < g.top)
    (hE : E ∨ 24 ≤ i.iSize ∧ i.iNo < 4096 ∧ (12 ≤ k → ¬lastEntry (w.blk (w.addr i.iSectors k))))
    (hQ : ∀ w' sec' t, Removed g w i.iSectors k j w' sec' →
      At g (w'.setIno i.iNo (i.body (i.iSize - 24) sec').clean)
        (m.set (d.ptr m) (i.body (i.iSize - 24) sec')) t → Q true t) :
    ((deleteDirEntry d n).on s).Sat E Q := by
  have honly : ∀ k' j', HitAt w i.iSectors n k' j' → k' = k ∧ j' = j :=
    fun k' j' hh' => hh.only k' hh'.lt j' hh'.slot_lt hh'.addr hh'.hit
  have hends : ∀ k' j', HitAt w i.iSectors n k' j' →
      E ∨ 24 ≤ i.iSize ∧ i.iNo < 4096 ∧ (12 ≤ k' → ¬lastEntry (w.blk (w.addr i.iSectors k'))) := by
    intro k' j' hh'
    obtain ⟨rfl, -⟩ := honly k' j' hh'
    exact hE
  apply sat_deleteDirEntry_cases h hp hd.tbl ⟨hd.addr, .inr fun _ => hh.hitOnce, fun k' _ _ => htop k', hends⟩
  · intro hnone
    exact absurd hh.toHitAt (hnone k j)
  · intro k' j' w' sec' t hh' hrem ht
    obtain ⟨rfl, rfl⟩ := honly k' j' hh'
    exact hQ w' sec' t hrem ht

theorem sat_deleteDirEntry_none (h : At g w m s) {d : DirRef} (hp : m.inodes (d.ptr m) = some i)
    (hd : DirOk g w i.iSectors) (hno : ∀ k < 140, ∀ j < 21, w.addr i.iSectors k ≠ 0 →
      hits (w.blk (w.addr i.iSectors k)) n j = false)
    (hQ : Q false s) : ((deleteDirEntry d n).on s).Sat E Q := by
  have hnone : ∀ k j, ¬HitAt w i.iSectors n k j := by
    intro k j hh
    exact absurd hh.hit (by simp [hno k hh.lt j hh.slot_lt hh.addr])
  apply sat_deleteDirEntry_cases h hp hd.tbl ⟨hd.addr, .inr fun k hk ha => hitOnce_of_none fun j hj => hno k hk j hj ha,
    fun k j hh => absurd hh (hnone k j), fun k j hh => absurd hh (hnone k j)⟩
  · exact fun _ => hQ
  · exact fun k j _ _ _ hh => absurd hh (hnone k j)

def View.release (g : Geom) (w : View) (lba : Nat) : View := (w.setUsed lba false).syncUsed g lba

def View.releaseAll (g : Geom) (w : View) (ls : List Nat) : View := ls.foldl (View.release g) w

def View.blocks (w : View) (sec : Nat → Nat) : List Nat :=
  (if sec 12 = 0 then [] else [sec 12]) ++ ((List.range 140).map (w.addr sec)).filter (· ≠ 0)

def View.freed (g : Geom) (w : View) (n : Nat) (sec : Nat → Nat) : View :=
  (((w.releaseAll g (w.blocks sec)).setIbit n false).syncIbits).setIno n noInode

theorem sat_releaseBlock (h : At g w m s) {lba : Nat} (hl : g.base ≤ lba) (ht : lba < g.top)
    (hE : E ∨ g.base < lba) {R : Unit → Fs → Prop} (hR : ∀ t, At g (w.release g lba) m t → R () t) :
    ((releaseBlock lba).on s).Sat E R := by
  simp only [releaseBlock, bind_on, get_on, Res.sat_bind, Res.sat_done, h.bitIdx hl, sat_assert,
    decide_eq_true_eq, decide_eq_false_iff_not]
  refine ⟨fun _ => ?_, fun hc => hE.resolve_right (by omega)⟩
  apply sat_blockBitmapSet h rfl hl ht
  intro t₁ ht₁
  exact sat_syncBlock ht₁ rfl hl ht hR

theorem sat_releaseBlocks (h : At g w m s) {f : Nat → Nat} (ks : List Nat)
    (hks : ∀ k ∈ ks, f k ≠ 0 → g.base ≤ f k ∧ f k < g.top ∧ (E ∨ g.base < f k))
    {R : Unit → Fs → Prop}
    (hR : ∀ t, At g (w.releaseAll g ((ks.map f).filter (· ≠ 0))) m t → R () t) :
    ((releaseBlocks f ks).on s).Sat E R := by
  induction ks generalizing w s with
  | nil => exact hR s h
  | cons k ks ih =>
    have hks' : ∀ k ∈ ks, f k ≠ 0 → g.base ≤ f k ∧ f k < g.top ∧ (E ∨ g.base < f k) :=
      fun k hk => hks k (List.mem_cons_of_mem _ hk)
    rw [releaseBlocks]
    by_cases hf : f k = 0
    · simp only [hf, ne_eq, not_true, if_false]
      apply ih h hks'
      simpa [hf] using hR
    · obtain ⟨h₁, h₂, h₃⟩ := hks k List.mem_cons_self hf
      simp only [hf, ne_eq, not_false_eq_true, if_true, sat_bind]
      apply sat_releaseBlock h h₁ h₂ h₃
      intro t ht
      apply ih ht hks'
      simpa [hf, View.releaseAll] using hR

theorem blocks_of_no_table (h : i.iSectors 12 = 0) :
    ((List.range 12).map i.direct).filter (· ≠ 0) = w.blocks i.iSectors := by
  have hsplit : List.range (12 + 128) = List.range 12 ++ (List.range 128).map (12 + ·) :=
    List.range_add
  have htail : (((List.range 128).map (12 + ·)).map (w.addr i.iSectors)).filter (· ≠ 0) = [] := by
    simp [View.addr, h]
  rw [View.blocks, if_pos h, List.nil_append,
    show List.range 140 = _ from hsplit, List.map_append, List.filter_append, htail,
    List.append_nil, direct_eq h]

theorem mem_blocks_of_addr (hk : k < 140) (ha : w.addr sec k ≠ 0) : w.addr sec k ∈ w.blocks sec := by
  apply List.mem_append_right
  apply List.mem_filter.mpr
  exact ⟨List.mem_map_of_mem (List.mem_range.mpr hk), by simpa using ha⟩

theorem mem_blocks_of_table (h : sec 12 ≠ 0) : sec 12 ∈ w.blocks sec := by
  apply List.mem_append_left
  rw [if_neg h]
  exact List.mem_singleton_self _

theorem sat_releaseSectors (h : At g w m s)
    (hbl : ∀ lba ∈ w.blocks i.iSectors, g.base ≤ lba ∧ lba < g.top ∧ (E ∨ g.base < lba))
    (htl : i.iSectors 12 ≠ 0 → E ∨ i.iSectors 12 ≤ maxLba) {R : Unit → Fs → Prop}
    (hR : ∀ t, At g (w.releaseAll g (w.blocks i.iSectors)) m t → R () t) :
    ((releaseSectors i).on s).Sat E R := by
  rw [releaseSectors]
  by_cases h12 : i.iSectors 12 = 0
  · rw [if_neg (by simpa using h12)]
    apply sat_releaseBlocks h
    · intro k hk hne
      apply hbl
      rw [direct_eq h12] at hne ⊢
      have hk' := List.mem_range.mp hk
      exact mem_blocks_of_addr (by omega) hne
    · rwa [blocks_of_no_table h12]
  · obtain ⟨h₁, h₂, h₃⟩ := hbl _ (mem_blocks_of_table h12)
    rw [if_pos (by simpa using h12), sat_bind]
    apply sat_readBlk h (htl h12) h₁
    rw [sat_bind]
    apply sat_releaseBlock h h₁ h₂ h₃
    intro t ht
    rw [withTable_eq h12]
    apply sat_releaseBlocks ht
    · intro k hk hne
      exact hbl _ (mem_blocks_of_addr (List.mem_range.mp hk) hne)
    · rw [View.blocks, if_neg h12] at hR
      exact hR

theorem sat_inodeRelease (h : At g w m s) (hok : m.Ok) (hn : n < 4096)
    (hc : ∀ p i, m.find n = some p → m.inodes p = some i → 1 ≤ i.iOpenCnts ∧ i.iOpenCnts < 2 ^ 32)
    (hi : m.deliver w n = i) (hno : E ∨ i.iNo = n)
    (hbl : ∀ lba ∈ w.blocks i.iSectors, g.base ≤ lba ∧ lba < g.top ∧ (E ∨ g.base < lba))
    (htl : i.iSectors 12 ≠ 0 → E ∨ i.iSectors 12 ≤ maxLba) {R : Unit → Fs → Prop}
    (hR : ∀ t, At g (w.freed g n i.iSectors) m t → R () t) : ((inodeRelease n).on s).Sat E R := by
  have hobj := Mem.opened_inodes (m := m) (w := w) n
  rw [hi] at hobj
  simp only [inodeRelease, sat_bind]
  apply sat_inodeOpen h (Or.inr hn)
  intro t ht
  apply sat_getInode ht hobj
  rw [sat_assert, decide_eq_true_eq, decide_eq_false_iff_not]
  refine ⟨fun _ => ?_, fun hc => hno.resolve_right hc⟩
  apply sat_releaseSectors ht hbl htl
  intro t₀ ht₀
  apply sat_inodeBitmapSet ht₀ hn
  intro t₁ ht₁
  apply sat_syncInodes ht₁ hn
  intro t₂ ht₂
  apply sat_inodeDelete ht₂ (Or.inr hn)
  intro t₃ ht₃
  apply sat_inodeClose ht₃ hobj
  rw [Mem.closed_opened hok hc]
  exact hR

end TrueOs.Fs
