import TrueOs.Kernel.Malloc
import TrueOs.Userprog.Within

/-! Buffers that a call takes from empty lists of the caller's heap and gives back. -/

namespace TrueOs

open Function (update update_self update_of_ne)

namespace Mm

variable {p a vaddr n pos : Nat} {src : Buf} {s s' t t' : Mm}

theorem Written.around (h : Written p vaddr n pos src s' t') (hs : Within p s s') (ht : Within p t' t)
    (hnone : s.view p a = none) (hcome : ∃ y, s'.view p = update (s.view p) a (some y))
    (hgo : t.view p = update (t'.view p) a none) (hout : ¬Spans vaddr n a) :
    Written p vaddr n pos src s t := by
  obtain ⟨y, hcome⟩ := hcome
  have hs' : ∀ w, w ≠ a → s'.view p w = s.view p w := fun w hw => by rw [hcome, update_of_ne hw]
  have ht' : ∀ w, w ≠ a → t.view p w = t'.view p w := fun w hw => by rw [hgo, update_of_ne hw]
  have hta : t.view p a = s.view p a := by rw [hgo, update_self, hnone]
  refine ⟨hs.trans (h.toWithin.trans ht), fun w => ?_, fun w hw => ?_, fun x => ?_⟩
  · by_cases hwa : w = a
    · rw [hwa, hta]
    · rw [ht' w hwa, h.pages, hs' w hwa]
  · by_cases hwa : w = a
    · rw [hwa, hta]
    · rw [ht' w hwa, h.other w hw, hs' w hwa]
  · by_cases hxa : x / 4096 = a
    · simp only [Spans] at hout
      rw [if_neg (by omega), byteAt, byteAt, hxa, hta]
    · have hx := h.bytes x
      rw [byteAt, byteAt, hs' _ hxa] at hx
      rw [byteAt, byteAt, ht' _ hxa, hx]

theorem written_nothing (h : Within p s t) (hv : t.view p = s.view p) : Written p vaddr 0 pos src s t :=
  ⟨h, fun w => by rw [hv], fun w _ => by rw [hv], fun x => by rw [if_neg (by omega), byteAt, byteAt, hv]⟩

theorem Written.view_eq (h : Written p vaddr 0 pos src s t) : t.view p = s.view p :=
  funext fun w => h.other w fun hw => absurd hw.1 (by omega)

end Mm

namespace Heap

open Prog Mm

structure Within (p : Nat) (h t : Heap) : Prop where
  mm : Mm.Within p h.mm t.mm
  freeList : ∀ o, o ≠ .user p → t.freeList o = h.freeList o
  arena : ∀ o, o ≠ .user p → t.arena o = h.arena o

/-- Process `p` is running. -/
structure Ready (p : Nat) (h : Heap) : Prop where
  inv : Mm.Inv h.mm
  live : p ∈ h.mm.live
  active : h.mm.active = p

def Bare (p : Nat) (h : Heap) : Prop := ∀ i < 7, h.freeList (.user p) i = []

variable {p i a : Nat} {h t u : Heap}

theorem Bare.congr (hE : Bare p h) (hl : t.freeList (.user p) = h.freeList (.user p)) : Bare p t :=
  fun i hi => (congrFun hl i).trans (hE i hi)

theorem Within.refl (h : Mm.Inv u.mm) : Within p u u := ⟨.refl h, fun _ _ => rfl, fun _ _ => rfl⟩

theorem Within.trans (h1 : Within p h t) (h2 : Within p t u) : Within p h u :=
  ⟨h1.mm.trans h2.mm, fun o ho => (h2.freeList o ho).trans (h1.freeList o ho),
    fun o ho => (h2.arena o ho).trans (h1.arena o ho)⟩

theorem Within.ready (h1 : Within p h t) (hr : Ready p h) : Ready p t :=
  ⟨h1.mm.inv, h1.mm.live ▸ hr.live, h1.mm.active.trans hr.active⟩

theorem Within.of_mm {m : Mm} (hm : Mm.Within p h.mm m) : Within p h { h with mm := m } :=
  ⟨hm, fun _ _ => rfl, fun _ _ => rfl⟩

theorem Ready.runs (hr : Ready p h) : Runs (.user p) p h := by
  obtain ⟨x, hx, halive⟩ := hr.live
  refine ⟨x, hx, if_neg ?_⟩
  simp only [Task.alive, Bool.and_eq_true] at halive
  rw [Option.isNone_iff_eq_none]
  intro hnone
  rw [hnone] at halive
  exact absurd halive.2 (by decide)

theorem sat_ofMm {α : Type} {c : Prog Mm Buf α} {Q : α → Mm → Prop} (hc : (c.on h.mm).Sat True Q) :
    ((ofMm c).on h).Sat True (fun r t => ∃ m, t = { h with mm := m } ∧ Q r m) :=
  (safe_ofMm hc).sat

section Pages

theorem sat_takePage (hr : Ready p h) : ((takePages p (.user p) 1).on h).Sat True (fun r t =>
    ∃ a, r = some a ∧ Within p h t ∧ t.freeList = h.freeList ∧ t.arena = h.arena ∧ userVaddrStart ≤ a ∧ a < kernelBase ∧
      h.mm.view p a = none ∧ ∃ y, t.mm.view p = update (h.mm.view p) a (some y)) := by
  rw [takePages, sat_bind]
  refine (sat_ofMm (sat_mallocPage_view hr.inv hr.live hr.active)).mono fun r t ht => ?_
  obtain ⟨m, rfl, a, rfl, hlo, hhi, hnone, hw, hview⟩ := ht
  exact ⟨a, rfl, ⟨hw, fun _ _ => rfl, fun _ _ => rfl⟩, rfl, rfl, hlo, hhi, hnone, hview⟩

structure Dropped (p a : Nat) (h t : Heap) : Prop extends Within p h t where
  list : t.freeList = h.freeList
  view : t.mm.view p = update (h.mm.view p) a none
  arenas : ∀ b, b ≠ a → t.arena (.user p) b = h.arena (.user p) b

theorem sat_dropPage (hr : Ready p h) (hlo : userVaddrStart ≤ a) (hhi : a < kernelBase)
    (hv : (h.mm.view p a).isSome = true) :
    ((dropPages p (.user p) a 1).on h).Sat True (fun _ t => Dropped p a h t) := by
  rw [dropPages, sat_bind]
  refine (sat_ofMm (sat_mfreePage_view hr.inv hr.live hr.active hlo hhi hv)).mono fun _ t ht => ?_
  obtain ⟨m, rfl, hw, hview⟩ := ht
  refine ⟨⟨hw, fun _ _ => rfl, fun o ho => ?_⟩, rfl, hview, fun b hb => ?_⟩
  · exact update_of_ne ho _ _
  · exact (arena_setArena _ _ _ _ _).trans (if_neg hb)

end Pages

section Blocks

structure Lent (p i a : Nat) (h : Heap) : Prop where
  arena : h.arena (.user p) a = some ⟨some (.user p, i), blocksPerArena i - 1, false⟩
  list : h.freeList (.user p) i = blocks a i 1 (blocksPerArena i - 1)
  page : (h.mm.view p a).isSome = true
  lo : userVaddrStart ≤ a
  hi : a < kernelBase

structure Took (p i a : Nat) (h t : Heap) : Prop extends Within p h t where
  lent : Lent p i a t
  none : h.mm.view p a = none
  view : ∃ y, t.mm.view p = update (h.mm.view p) a (some y)
  lists : ∀ j, j ≠ i → t.freeList (.user p) j = h.freeList (.user p) j
  arenas : ∀ b, b ≠ a → t.arena (.user p) b = h.arena (.user p) b

structure Gave (p i a : Nat) (h t : Heap) : Prop extends Within p h t where
  view : t.mm.view p = update (h.mm.view p) a none
  list : t.freeList (.user p) i = []
  lists : ∀ j, j ≠ i → t.freeList (.user p) j = h.freeList (.user p) j
  arenas : ∀ b, b ≠ a → t.arena (.user p) b = h.arena (.user p) b

theorem blocks_succ (a i k n : Nat) : blocks a i k (n + 1) = arena2block a k i :: blocks a i (k + 1) n := by
  rw [blocks, List.range'_succ, List.map_cons, blocks]

theorem sat_sysMalloc_empty (hr : Ready p h) {size : Nat} (hpos : 0 < size) (hle : size ≤ 1024)
    (hi : findDesc size 7 0 = i) (hn : 0 < blocksPerArena i) (hF : h.freeList (.user p) i = []) :
    ((sysMalloc p size).on h).Sat True (fun r t => ∃ a, r = some (arena2block a 0 i) ∧ Took p i a h t) := by
  obtain ⟨n, hn'⟩ : ∃ n, blocksPerArena i = n + 1 := ⟨blocksPerArena i - 1, by omega⟩
  have hsize : 0 < size ∧ size ≤ poolSize := ⟨hpos, by simp only [poolSize]; omega⟩
  rw [sysMalloc, sat_bind]
  refine (safe_context hr.runs).sat.mono fun c w hw => ?_
  obtain ⟨rfl, rfl⟩ := hw
  rw [if_neg (not_not_intro hsize), if_neg (by omega)]
  simp only [sat_bind, sat_get, ite_on, hi, hF, if_pos]
  refine (sat_takePage hr).mono fun r t ht => ?_
  obtain ⟨a, rfl, hw, hlist, harena, hlo, hhi, hnone, hview⟩ := ht
  simp only [bind_on, modify_on, Res.sat_bind, Res.sat_done]
  generalize hg : t.setArena (.user p) a (some ⟨some (.user p, i), blocksPerArena i, false⟩) = g
  have hgl : g.freeList = w.freeList := by
    subst hg
    exact hlist
  refine (safe_splitArena (h := g) (o := .user p) (i := i) (a := a) (blocksPerArena i) 0 fun b _ => ?_).sat.mono
    fun _ v hv => ?_
  · rw [hgl, hF]
    exact List.not_mem_nil
  rw [hgl, hF, List.nil_append, hn', blocks_succ] at hv
  have hb : block2arena (arena2block a 0 i) = a := block2arena_arena2block hn
  have hvl : v.freeList (.user p) i = arena2block a 0 i :: blocks a i 1 n := by
    rw [hv, freeList_setFree, if_pos rfl]
  have hva : (v.setFree (.user p) i (blocks a i 1 n)).arena (.user p) (block2arena (arena2block a 0 i)) =
      some ⟨some (.user p, i), n + 1, false⟩ := by
    rw [hv, hb, ← hn']
    subst hg
    exact (arena_setArena _ _ _ _ _).trans (if_pos rfl)
  simp only [popBlock, sat_bind, sat_get, hvl, sat_modify, hva, sat_pure]
  rw [hb]
  have hmm : v.mm = t.mm := by
    subst hv hg
    rfl
  refine ⟨a, rfl, ⟨⟨?_, fun o ho => ?_, fun o ho => ?_⟩, ⟨?_, ?_, ?_, hlo, hhi⟩, hnone, ?_, fun j hj => ?_, fun b hb => ?_⟩⟩
  · change Mm.Within p w.mm v.mm
    rw [hmm]
    exact hw.mm
  · change update v.freeList _ _ o = _
    rw [update_of_ne ho, hv, freeList_setFree_of_ne _ _ ho, hgl]
  · change update v.arena _ _ o = _
    rw [update_of_ne ho]
    subst hv hg
    change update t.arena _ _ o = _
    rw [update_of_ne ho, harena]
  · rw [arena_setArena, if_pos rfl, hn']
  · change (v.setFree (.user p) i (blocks a i 1 n)).freeList (.user p) i = _
    rw [freeList_setFree, if_pos rfl, hn', Nat.add_sub_cancel]
  · change (v.mm.view p a).isSome = true
    obtain ⟨y, hy⟩ := hview
    rw [hmm, hy, update_self]
    rfl
  · change ∃ y, v.mm.view p = _
    rw [hmm]
    exact hview
  · change (v.setFree (.user p) i (blocks a i 1 n)).freeList (.user p) j = _
    rw [freeList_setFree, if_neg hj, hv, freeList_setFree, if_neg hj, hgl]
  · rw [arena_setArena, if_neg hb]
    subst hv hg
    change (t.setArena (.user p) a _).arena (.user p) b = _
    rw [arena_setArena, if_neg hb, harena]

theorem sat_sysFree_lent (hr : Ready p h) (hl : Lent p i a h) (hn : 0 < blocksPerArena i) :
    ((sysFree p (arena2block a 0 i)).on h).Sat True (fun _ t => Gave p i a h t) := by
  obtain ⟨n, hn'⟩ : ∃ n, blocksPerArena i = n + 1 := ⟨blocksPerArena i - 1, by omega⟩
  have hb : block2arena (arena2block a 0 i) = a := block2arena_arena2block hn
  have harena := hl.arena
  have hlist := hl.list
  rw [hn', Nat.add_sub_cancel] at harena hlist
  simp only [sysFree, sat_bind, sat_assert]
  refine ⟨fun _ => ?_, fun _ => trivial⟩
  refine (safe_context hr.runs).sat.mono fun c w hw => ?_
  obtain ⟨rfl, rfl⟩ := hw
  refine ⟨fun _ => ?_, fun _ => trivial⟩
  simp only [sat_get, hb, harena, bind_on, sat_modify, Res.sat_bind, ite_on]
  rw [if_pos hn'.symm, Res.sat_bind]
  generalize hg : (w.setFree (.user p) i (w.freeList (.user p) i ++ [arena2block a 0 i])).setArena (.user p) a
    (some ⟨some (.user p, i), n + 1, false⟩) = g
  have hgl : g.freeList (.user p) i = blocks a i 1 n ++ [arena2block a 0 i] := by
    subst hg
    exact (freeList_setFree _ _ _ _ _).trans (by rw [if_pos rfl, hlist])
  have hall : ∀ b, b ∈ g.freeList (.user p) i ↔ b ∈ blocks a i 0 (blocksPerArena i) := by
    intro b
    rw [hgl, hn', blocks_succ, List.mem_append, List.mem_singleton, List.mem_cons, or_comm]
  have hnd : (g.freeList (.user p) i).Nodup := by
    rw [hgl, List.nodup_append_comm]
    have := nodup_blocks a i 0 (n + 1)
    rwa [blocks_succ] at this
  refine (safe_unlinkBlocks (h := g) _ _ hnd fun b hb => (hall b).mpr hb).sat.mono fun _ v hv => ?_
  have hnil : (g.freeList (.user p) i).filter (fun b => b ∉ blocks a i 0 (blocksPerArena i)) = [] := by
    refine List.filter_eq_nil_iff.mpr fun b hb => ?_
    simpa using (hall b).mp hb
  rw [hnil] at hv
  have hmm : v.mm = w.mm := by
    subst hv hg
    rfl
  have hgw : Within p w v := by
    refine ⟨?_, fun o ho => ?_, fun o ho => ?_⟩
    · rw [hmm]
      exact .refl hr.inv
    · subst hv hg
      exact (freeList_setFree_of_ne _ _ ho _ _).trans (freeList_setFree_of_ne _ _ ho _ _)
    · subst hv hg
      exact update_of_ne ho _ _
  refine (sat_dropPage (hgw.ready hr) hl.lo hl.hi (hmm ▸ hl.page)).mono fun _ t ht => ?_
  refine ⟨hgw.trans ht.toWithin, by rw [ht.view, hmm], ?_, fun j hj => ?_, fun b hba => ?_⟩
  · rw [ht.list, hv, freeList_setFree, if_pos rfl]
  · rw [ht.list, hv, freeList_setFree, if_neg hj]
    subst hg
    exact (freeList_setFree _ _ _ _ _).trans (if_neg hj)
  · rw [ht.arenas b hba]
    subst hv hg
    exact (arena_setArena _ _ _ _ _).trans (if_neg hba)

end Blocks

section Calls

variable {vaddr n pos : Nat} {src : Buf}

structure Wrote (p vaddr n pos : Nat) (src : Buf) (h t : Heap) : Prop extends Within p h t where
  written : Written p vaddr n pos src h.mm t.mm
  lists : t.freeList (.user p) = h.freeList (.user p)
  arenas : ∀ b, (h.mm.view p b).isSome = true → t.arena (.user p) b = h.arena (.user p) b

theorem Wrote.refl (hr : Ready p h) : Wrote p vaddr 0 pos src h h :=
  ⟨.refl hr.inv, written_nothing (.refl hr.inv) rfl, rfl, fun _ _ => rfl⟩

abbrev Calm (p : Nat) (h t : Heap) : Prop := Wrote p 0 0 0 (fun _ => 0) h t

theorem Wrote.calm (hw : Wrote p vaddr 0 pos src h t) : Calm p h t :=
  ⟨hw.toWithin, written_nothing hw.mm hw.written.view_eq, hw.lists, hw.arenas⟩

theorem Calm.trans (h1 : Calm p h t) (h2 : Calm p t u) : Calm p h u := by
  refine ⟨h1.toWithin.trans h2.toWithin, written_nothing (h1.mm.trans h2.mm) ?_, h2.lists.trans h1.lists, fun b hb => ?_⟩
  · rw [h2.written.view_eq, h1.written.view_eq]
  · rw [h2.arenas b ((h1.written.pages b).trans hb), h1.arenas b hb]

theorem Lent.wrote (hl : Lent p i a h) (hw : Wrote p vaddr n pos src h t) : Lent p i a t :=
  ⟨(hw.arenas a hl.page).trans hl.arena, (congrFun hw.lists i).trans hl.list, (hw.written.pages a).trans hl.page, hl.lo, hl.hi⟩

theorem Took.gave {v : Heap} (ht : Took p i a h t) (hw : Wrote p vaddr n pos src t u) (hg : Gave p i a u v)
    (hF : h.freeList (.user p) i = []) (hout : ¬Spans vaddr n a) : Wrote p vaddr n pos src h v := by
  refine ⟨ht.toWithin.trans (hw.toWithin.trans hg.toWithin),
    hw.written.around ht.mm hg.mm ht.none ht.view hg.view hout, funext fun j => ?_, fun b hb => ?_⟩
  · by_cases hj : j = i
    · rw [hj, hg.list, hF]
    · rw [hg.lists j hj, hw.lists, ht.lists j hj]
  · have hba : b ≠ a := by
      rintro rfl
      rw [ht.none] at hb
      cases hb
    obtain ⟨y, hy⟩ := ht.view
    rw [hg.arenas b hba, hw.arenas b (by rw [hy, update_of_ne hba, hb]), ht.arenas b hba]

variable (hr : Ready p h) (hE : Bare p h)

include hr hE

theorem sat_searchDirEntry : ((searchDirEntry p).on h).Sat True (fun r t => r = true ∧ Calm p h t) := by
  rw [searchDirEntry, sat_bind]
  refine (sat_sysMalloc_empty (i := 6) hr (by decide) (by decide) (by decide) (by decide) (hE 6 (by decide))).mono fun _ t ht => ?_
  obtain ⟨a, rfl, ht⟩ := ht
  have hrt := ht.ready hr
  have hE5 : t.freeList (.user p) 5 = [] := (ht.lists 5 (by decide)).trans (hE 5 (by decide))
  simp only [sat_bind]
  refine (sat_sysMalloc_empty (i := 5) hrt (by decide) (by decide) (by decide) (by decide) hE5).mono fun _ u hu => ?_
  obtain ⟨b, rfl, hu⟩ := hu
  have hru := hu.ready hrt
  simp only [orNull, sat_pure]
  refine (sat_sysFree_lent hru hu.lent (by decide)).mono fun _ v hv => ?_
  have hin : Calm p t v := hu.gave (.refl hru) hv hE5 fun hs => absurd hs.1 (by decide)
  refine (sat_sysFree_lent (hin.ready hrt) (ht.lent.wrote hin) (by decide)).mono fun _ w hw => ?_
  exact ⟨trivial, ht.gave hin hw (hE 6 (by decide)) fun hs => absurd hs.1 (by decide)⟩

theorem sat_readInode {size : Nat} (hpos : 0 < size) (hle : size ≤ 1024) (hi : findDesc size 7 0 = i) (hi7 : i < 7)
    (hn : 0 < blocksPerArena i) : ((readInode p size).on h).Sat True (fun _ t => Calm p h t) := by
  rw [readInode, sat_bind]
  refine (sat_sysMalloc_empty hr hpos hle hi hn (hE i hi7)).mono fun _ t ht => ?_
  obtain ⟨a, rfl, ht⟩ := ht
  have hrt := ht.ready hr
  simp only [orNull, bind_on, pure_on, Res.sat_bind, Res.sat_done]
  refine (sat_sysFree_lent hrt ht.lent hn).mono fun _ u hu => ?_
  exact ht.gave (.refl hrt) hu (hE i hi7) fun hs => absurd hs.1 (by decide)

theorem sat_inodeOpen (inode : Place) : ((inodeOpen p inode).on h).Sat True (fun _ t => Calm p h t) := by
  cases inode with
  | cached => exact Wrote.refl hr
  | oneSector => exact sat_readInode hr hE (by decide) (by decide) (by decide : _ = 5) (by decide) (by decide)
  | twoSectors => exact sat_readInode hr hE (by decide) (by decide) (by decide : _ = 6) (by decide) (by decide)

theorem sat_fileRead (vaddr : Nat) (k : Nat → Nat) (src : Buf) {f : Image} {count : Nat} {copy : Nat → Prog Heap Buf Unit}
    (hm : ∀ n, f.readSize pos count = some n → ∀ w, Spans vaddr (k n) w → (h.mm.view p w).isSome = true)
    (hcopy : ∀ n, f.readSize pos count = some n → ∀ u, Ready p u →
      (∀ w, Spans vaddr (k n) w → (u.mm.view p w).isSome = true) →
        ((copy n).on u).Sat True (fun _ v => Wrote p vaddr (k n) pos src u v)) :
    ((fileRead p f pos count copy).on h).Sat True (fun r t => r = f.readSize pos count ∧
      Wrote p vaddr (r.elim 0 k) pos src h t) := by
  rw [fileRead]
  cases hsize : f.readSize pos count with
  | none => exact ⟨rfl, .refl hr⟩
  | some n =>
    have hm := hm n hsize
    simp only [sat_bind]
    refine (sat_sysMalloc_empty (i := 5) hr (by decide) (by decide) (by decide) (by decide) (hE 5 (by decide))).mono fun _ t ht => ?_
    obtain ⟨a, rfl, ht⟩ := ht
    have hrt := ht.ready hr
    have hE6 : t.freeList (.user p) 6 = [] := (ht.lists 6 (by decide)).trans (hE 6 (by decide))
    refine (sat_sysMalloc_empty (i := 6) hrt (by decide) (by decide) (by decide) (by decide) hE6).mono fun _ u hu => ?_
    obtain ⟨b, rfl, hu⟩ := hu
    have hru := hu.ready hrt
    -- neither buffer is in a page of the bytes
    have hkeep : ∀ {g g' : Heap} {i c : Nat}, Took p i c g g' → (∀ w, Spans vaddr (k n) w → (g.mm.view p w).isSome = true) →
        ¬Spans vaddr (k n) c ∧ ∀ w, Spans vaddr (k n) w → (g'.mm.view p w).isSome = true := by
      intro g g' i c hg hin
      have hc : ¬Spans vaddr (k n) c := fun hs => by
        have := hin c hs
        rw [hg.none] at this
        cases this
      refine ⟨hc, fun w hw => ?_⟩
      obtain ⟨y, hy⟩ := hg.view
      have hne : w ≠ c := by
        rintro rfl
        exact hc hw
      rw [hy, update_of_ne hne]
      exact hin w hw
    obtain ⟨ha, hmt⟩ := hkeep ht hm
    obtain ⟨hb, hmu⟩ := hkeep hu hmt
    simp only [sat_bind, sat_assert, orNull, sat_pure]
    refine ⟨fun _ => ?_, fun _ => trivial⟩
    refine (hcopy n hsize u hru hmu).mono fun _ v hv => ?_
    refine (sat_sysFree_lent (hv.ready hru) (hu.lent.wrote hv) (by decide)).mono fun _ w hw => ?_
    have hin := hu.gave hv hw hE6 hb
    refine (sat_sysFree_lent (hin.ready hrt) (ht.lent.wrote hin) (by decide)).mono fun _ x hx => ?_
    exact ⟨trivial, ht.gave hin hx (hE 5 (by decide)) ha⟩

theorem sat_sysReadLocal (f : Image) (pos count : Nat) : ((sysReadLocal p f pos count).on h).Sat True
    (fun r t => r = f.readSize pos count ∧ Calm p h t) := by
  refine (sat_fileRead hr hE 0 (fun _ => 0) (fun _ => 0) ?_ ?_).mono fun r t ht => ?_
  · exact fun _ _ w hw => absurd hw.1 (by decide)
  · exact fun _ _ u hu _ => Wrote.refl hu
  · obtain ⟨hr, ht⟩ := ht
    refine ⟨hr, ?_⟩
    cases r with
    | none => exact ht.calm
    | some n => exact ht.calm

theorem sat_sysRead {f : Image} {count : Nat} (hlo : userVaddrStart * 4096 ≤ vaddr)
    (hhi : ∀ n, f.readSize pos count = some n → vaddr + n ≤ kernelBase * 4096)
    (hm : ∀ n, f.readSize pos count = some n → ∀ w, Spans vaddr n w → (h.mm.view p w).isSome = true) :
    ((sysRead p f pos vaddr count).on h).Sat True (fun r t => r = f.readSize pos count ∧
      Wrote p vaddr (r.getD 0) pos f.bytes h t) := by
  rw [sysRead, sat_bind, sat_assert]
  refine ⟨fun _ => ?_, fun _ => trivial⟩
  refine (sat_fileRead hr hE vaddr id f.bytes hm fun n hn u hu hmu => ?_).mono fun r t ht => ?_
  · refine (sat_ofMm (sat_copyBytesTo f.bytes pos hu.inv hu.live hu.active hlo (hhi n hn) hmu)).mono fun _ v hv => ?_
    obtain ⟨m, rfl, hw⟩ := hv
    exact ⟨.of_mm hw.toWithin, hw, rfl, fun _ _ => rfl⟩
  · cases r with
    | none => exact ht
    | some n => exact ht

end Calls

end Heap

end TrueOs
