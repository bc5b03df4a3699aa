import TrueOs.Kernel.Allocator
import TrueOs.Userprog.Frames

/-! After a fork the child has the arenas of its parent, whose descriptors are still those in
the PCB of the parent. -/

namespace TrueOs

open Function (update update_of_ne)

namespace Heap

open Prog Mm

/-- The pages of the child are copies, and `block_desc_init` empties its lists. -/
def inherit (h : Heap) (parent child : Nat) : Heap :=
  { h with
    freeList := update h.freeList (.user child) (fun _ => [])
    arena := update h.arena (.user child) (h.arena (.user parent))
    held := update h.held (.user child) (h.held (.user parent)) }

def sysFork (cur : Nat) : Prog Heap Buf (Option (Nat × Nat)) := do
  match ← ofMm (Mm.sysFork cur) with
  | none => return none
  | some (child, pid) =>
    modify (fun h => h.inherit cur child)
    return some (child, pid)

variable {p c : Nat} {g h t : Heap} {live : Nat → Option Nat}

structure Twins (p c : Nat) (g h : Heap) (live : Nat → Option Nat) : Prop where
  ne : c ≠ p
  parent : Core (.user p) h live
  child : Core (.user c) h live
  freeList : h.freeList (.user p) = g.freeList (.user p)
  arena : h.arena (.user p) = g.arena (.user p)
  empty : ∀ i, h.freeList (.user c) i = []
  copy : h.arena (.user c) = h.arena (.user p)
  runs : Runs (.user c) c h

theorem user_ne (h : c ≠ p) : Ctx.user c ≠ Ctx.user p := fun e => h (Ctx.user.inj e)

theorem safe_sysFork {L : Set Nat} (hok : Ok L g.mm) (hp : p ∈ L) (ha : g.mm.active = p) (hi : Core (.user p) g live) :
    ((sysFork p).on g).Safe (fun r h => ∀ x ∈ r,
      (∀ a y i, g.arena (.user p) a = some y → y.desc ≠ some (.user x.1, i)) → Twins p x.1 g h live) := by
  obtain ⟨b, ⟨hmap, hlen⟩, htaken⟩ := hi.map
  obtain ⟨x, hx, rfl⟩ : ∃ x, g.mm.tasks p = some x ∧ x.vaddrBitmap = b := Option.map_eq_some_iff.1 hmap
  rw [sysFork, bind_on, Res.safe_bind]
  refine (safe_ofMm (sat_sysFork hok hp ha hx)).mono fun r u hu => ?_
  obtain ⟨m, hu, hf⟩ := hu
  subst hu
  cases r with
  | none => exact fun y hy => by cases hy
  | some y =>
    obtain ⟨child, pid⟩ := y
    simp only [bind_on, modify_on, Res.safe_bind, Res.safe_done, pure_on]
    intro z hz hnew
    obtain rfl := Option.some.inj hz
    have hf := hf (child, pid) rfl
    have hne : child ≠ p := by
      rintro rfl
      exact hf.fresh hp
    obtain ⟨y, hy, -, hdir, hbits⟩ := hf.task
    have hmapp : (Ctx.user p).Map m x.vaddrBitmap := by
      refine ⟨?_, hlen⟩
      have := hf.others p hne.symm
      rw [hx] at this
      obtain ⟨w, hw, e⟩ := Option.map_eq_some_iff.1 this
      rw [Ctx.bitmap, maps, hw, Option.map_some, Task.info_vaddrBitmap e]
    have hmapc : (Ctx.user child).Map m x.vaddrBitmap := by
      refine ⟨?_, hlen⟩
      rw [Ctx.bitmap, maps, hy, Option.map_some, hbits]
    have hcp : Ctx.user p ≠ Ctx.user child := (user_ne hne).symm
    have hheld : (inherit { g with mm := m } p child).held (.user p) = g.held (.user p) := update_of_ne hcp _ _
    have harena : (inherit { g with mm := m } p child).arena (.user p) = g.arena (.user p) :=
      update_of_ne hcp _ _
    have hlist : (inherit { g with mm := m } p child).freeList (.user p) = g.freeList (.user p) :=
      update_of_ne hcp _ _
    have hheld' : (inherit { g with mm := m } p child).held (.user child) = g.held (.user p) := by simp [inherit]
    have harena' : (inherit { g with mm := m } p child).arena (.user child) = g.arena (.user p) := by simp [inherit]
    have hempty : ∀ i, (inherit { g with mm := m } p child).freeList (.user child) i = [] := by simp [inherit]
    refine ⟨hne, ?_, ?_, hlist, harena, hempty, harena'.trans harena.symm, y, hy, ?_⟩
    · exact hi.congr hmapp (fun q hq => htaken q (hheld ▸ hq)) (fun q hq => hheld ▸ hq) hlist harena
    · refine ⟨⟨_, hmapc, fun q hq => htaken q (hheld' ▸ hq)⟩, fun hx hd => ?_, fun hx hd => ?_, fun hx hd => ?_,
        fun hb => ?_, fun i => ?_, fun hl => ?_⟩
      · rw [hheld']
        exact hi.small (harena' ▸ hx) hd
      · rw [hheld', harena']
        exact hi.large (harena' ▸ hx) hd
      · exact absurd hd (hnew _ _ _ (harena' ▸ hx))
      · rw [hempty] at hb
        cases hb
      · rw [hempty]
        exact List.nodup_nil
      · obtain ⟨z, hz, hb, -⟩ := hi.live hl
        refine ⟨z, harena' ▸ hz, hb, fun i hd => ?_⟩
        rw [hempty]
        exact List.not_mem_nil
    · rw [if_neg]
      rw [Option.isNone_iff_eq_none]
      intro e
      rw [e] at hdir
      cases hdir

theorem twins_of_fork {L : Set Nat} {pid : Nat} (hok : Ok L g.mm) (hp : p ∈ L) (ha : g.mm.active = p)
    (hi : Core (.user p) g live) (hrun : ((sysFork p).on g).run = .ok (some (c, pid), h))
    (hnew : ∀ a x i, g.arena (.user p) a = some x → x.desc ≠ some (.user c, i)) : Twins p c g h live :=
  (safe_sysFork hok hp ha hi).of_run hrun (c, pid) rfl hnew

/-- The calls of the child after the fork, which gives the heap `h₀`.  It frees nothing that is
in a small arena of somebody else. -/
inductive ChildRun (p c : Nat) : Heap → Heap → (Nat → Option Nat) → Prop
  | fork {g h : Heap} {L : Set Nat} {live : Nat → Option Nat} {pid : Nat} (hok : Ok L g.mm) (hp : p ∈ L)
      (ha : g.mm.active = p) (hi : Inv (.user p) g live) (hrun : ((sysFork p).on g).run = .ok (some (c, pid), h))
      (hnew : ∀ a x i, g.arena (.user p) a = some x → x.desc ≠ some (.user c, i)) : ChildRun p c h h live
  | malloc {h₀ h t : Heap} {live : Nat → Option Nat} {size q : Nat} (hs : ChildRun p c h₀ h live)
      (hr : Runs (.user c) c h) (hrun : ((sysMalloc c size).on h).run = .ok (some q, t)) :
      ChildRun p c h₀ t (update live q (some size))
  | noMemory {h₀ h t : Heap} {live : Nat → Option Nat} {size : Nat} (hs : ChildRun p c h₀ h live)
      (hr : Runs (.user c) c h) (hrun : ((sysMalloc c size).on h).run = .ok (none, t)) : ChildRun p c h₀ t live
  | free {h₀ h t : Heap} {live : Nat → Option Nat} {q n : Nat} (hs : ChildRun p c h₀ h live)
      (hr : Runs (.user c) c h) (hq : live q = some n) (ho : Own (.user c) h q)
      (hrun : ((sysFree c q).on h).run = .ok ((), t)) : ChildRun p c h₀ t (update live q none)
  | other {h₀ h t : Heap} {live : Nat → Option Nat} (hs : ChildRun p c h₀ h live) (he : Elsewhere (.user c) h t)
      (hf : t.freeList (.user p) = h.freeList (.user p)) (ha : t.arena (.user p) = h.arena (.user p)) :
      ChildRun p c h₀ t live

def Untouched (p : Nat) (h t : Heap) : Prop :=
  t.freeList (.user p) = h.freeList (.user p) ∧ t.arena (.user p) = h.arena (.user p)

theorem Untouched.of_frame (hne : c ≠ p) (hf : Frame (.user c) h t) : Untouched p h t :=
  ⟨hf.freeList _ (user_ne hne).symm, hf.arena _ (user_ne hne).symm⟩

theorem Untouched.trans {u : Heap} (h1 : Untouched p h t) (h2 : Untouched p t u) : Untouched p h u :=
  ⟨h2.1.trans h1.1, h2.2.trans h1.2⟩

structure Shared (p c : Nat) (h₀ h : Heap) (live : Nat → Option Nat) : Prop where
  ne : c ≠ p
  base : ∃ live₀, Core (.user p) h₀ live₀
  inv : Inv (.user c) h live
  same : Untouched p h₀ h
  arena : ∀ a x i, h.arena (.user c) a = some x → x.desc = some (.user p, i) → h₀.arena (.user p) a = some x
  live : ∀ q n x i, live q = some n → h.arena (.user c) (block2arena q) = some x → x.desc = some (.user p, i) →
    q ∉ h₀.freeList (.user p) i

theorem Shared.step {h₀ : Heap} {live' : Nat → Option Nat} (hs : Shared p c h₀ h live) (hf : Frame (.user c) h t)
    (hi : Inv (.user c) t live') (hl : ∀ q n, live' q = some n → live q = some n ∨ Own (.user c) t q) :
    Shared p c h₀ t live' where
  ne := hs.ne
  base := hs.base
  inv := hi
  same := hs.same.trans (.of_frame hs.ne hf)
  arena a x i hx hd := hs.arena a x i (hf.foreign a x _ hx hd (user_ne hs.ne).symm) hd
  live q n x i hq hx hd := by
    rcases hl q n hq with hq | ho
    · exact hs.live q n x i hq (hf.foreign _ x _ hx hd (user_ne hs.ne).symm) hd
    · exact absurd (ho x _ hx hd) (user_ne hs.ne).symm

theorem ChildRun.shared {h₀ : Heap} (hr : ChildRun p c h₀ h live) : Shared p c h₀ h live := by
  induction hr with
  | @fork g h L live pid hok hp ha hi hrun hnew =>
    have ht := twins_of_fork hok hp ha hi.toCore hrun hnew
    have hc : ∀ {a x i}, h.arena (.user c) a = some x → x.desc ≠ some (.user c, i) := by
      intro a x i hx
      rw [ht.copy, ht.arena] at hx
      exact hnew a x i hx
    refine ⟨ht.ne, ⟨live, ht.parent⟩, ⟨ht.child, fun hx hd => absurd hd (hc hx)⟩, ⟨rfl, rfl⟩, fun a x i hx hd => ?_,
      fun q n x i hq hx hd => ?_⟩
    · rw [← ht.copy]
      exact hx
    · obtain ⟨y, hy, -, hout⟩ := ht.parent.live hq
      rw [ht.copy] at hx
      obtain rfl := Option.some.inj (hx.symm.trans hy)
      exact hout i hd
  | @malloc h₀ h t live size q hs hr hrun ih =>
    obtain ⟨hf, -, -, hnew⟩ := (safe_sysMalloc hr ih.inv size).of_run hrun
    obtain ⟨-, hi, ho⟩ := hnew q rfl
    refine ih.step hf hi fun r n hr => ?_
    by_cases hrq : r = q
    · exact .inr (hrq ▸ ho)
    · rw [update_of_ne hrq] at hr
      exact .inl hr
  | noMemory hs hr hrun ih =>
    obtain ⟨hf, -, hi, -⟩ := (safe_sysMalloc hr ih.inv _).of_run hrun
    exact ih.step hf (hi rfl) fun r n hr => .inl hr
  | free hs hr hq ho hrun ih =>
    obtain ⟨hf, hi, -⟩ := (safe_sysFree hr ih.inv hq ho).of_run hrun
    exact ih.step hf hi fun r n hr => .inl (of_forget hr).2
  | other hs he hf ha ih =>
    obtain ⟨b, hmap, htaken⟩ := he.map
    have hcore := ih.inv.toCore.congr hmap (fun q hq => htaken q (he.held ▸ hq)) (fun q hq => he.held ▸ hq)
      he.freeList he.arena
    refine ⟨ih.ne, ih.base, ⟨hcore, fun hx hd => ih.inv.busy (he.arena ▸ hx) hd⟩, ih.same.trans ⟨hf, ha⟩,
      fun a x i hx hd => ?_, fun q n x i hq hx hd => ?_⟩
    · exact ih.arena a x i (he.arena ▸ hx) hd
    · exact ih.live q n x i hq (he.arena ▸ hx) hd

theorem Shared.spoils {h₀ : Heap} (hs : Shared p c h₀ h live) (hr : Runs (.user c) c h) {q n i : Nat} {x : Arena}
    (hq : live q = some n) (hx : h.arena (.user c) (block2arena q) = some x) (hd : x.desc = some (.user p, i))
    (hi : i < 7) : ((sysFree c q).on h).Safe (fun _ t => ¬Untouched p h₀ t) := by
  obtain ⟨live₀, hbase⟩ := hs.base
  have hx₀ := hs.arena _ x i hx hd
  have hnot := hs.live q n x i hq hx hd
  obtain ⟨y, hy, hb, -⟩ := hs.inv.live hq
  obtain rfl := Option.some.inj (hx.symm.trans hy)
  obtain ⟨desc, cnt, large⟩ := x
  obtain rfl : desc = some (.user p, i) := hd
  simp only [Block] at hb
  obtain ⟨⟨k, hk, hqk⟩, -⟩ := hb
  have hcount : cnt = _ := hbase.count hx₀ rfl
  have hlist : h.freeList (.user p) i = h₀.freeList (.user p) i := congrFun hs.same.1 i
  obtain ⟨b, hmap, htaken⟩ := hs.inv.map
  have hheld := hs.inv.held hx
  obtain ⟨hlo, -, -⟩ := htaken _ hheld
  have hpos : 0 < q := by
    have := (Ctx.user c).start_pos
    rw [block2arena] at hlo
    omega
  -- the list with the block that comes back
  have hmem : q ∈ blocks (block2arena q) i 0 (blocksPerArena i) := mem_blocks.2 ⟨k, Nat.zero_le _, by omega, hqk⟩
  have hnd : (h₀.freeList (.user p) i ++ [q]).Nodup :=
    (hbase.nodup i).append (List.nodup_singleton q) (by simpa using hnot)
  have hpage : ∀ b ∈ h₀.freeList (.user p) i ++ [q], block2arena b = block2arena q →
      b ∈ blocks (block2arena q) i 0 (blocksPerArena i) := by
    intro b hb e
    rcases List.mem_append.1 hb with hb | hb
    · exact hbase.page_blocks _ b hb e
    · rwa [List.mem_singleton.1 hb]
  have hlen : (inArena (block2arena q) (h₀.freeList (.user p) i ++ [q])).length = cnt + 1 := by
    rw [inArena_append_singleton, if_pos rfl, List.length_append, List.length_singleton, hcount]
  simp only [sysFree, bind_on, Res.safe_bind, safe_assert, decide_eq_true_eq]
  refine ⟨by omega, (safe_context hr).mono fun o u hu => ?_⟩
  obtain ⟨rfl, rfl⟩ := hu
  refine ⟨fun e => (by cases e), ?_⟩
  simp only [get_on, Res.safe_done, hx, bind_on, modify_on, Res.safe_bind, ite_on]
  have hback : ((u.setFree (.user p) i (u.freeList (.user p) i ++ [q])).setArena (.user c) (block2arena q)
      (some ⟨some (.user p, i), cnt + 1, large⟩)).freeList (.user p) i = h₀.freeList (.user p) i ++ [q] := by
    refine (freeList_setFree _ _ _ _ _).trans ?_
    rw [if_pos rfl, hlist]
  split
  · next hfull =>
    have hall := (length_inArena_eq_iff hnd hpage).1 (hlen.trans hfull)
    have htwo : ∀ j < 7, 2 ≤ blocksPerArena j := by decide
    have hlast := htwo i hi
    -- another block of the arena was free, and leaves the list with it
    obtain ⟨b', hb'⟩ := List.exists_mem_of_length_pos (l := inArena (block2arena q) (h₀.freeList (.user p) i)) (by omega)
    rw [mem_inArena] at hb'
    rw [Res.safe_bind]
    refine (safe_unlinkBlocks _ _ (by rwa [hback]) (by rwa [hback])).mono fun _ w hw => ?_
    subst hw
    refine Res.Safe.mono (safe_dropPages hr.of (b := b) ?_ ?_ ?_ 1) fun _ v hv => ?_
    · exact hmap
    · exact htaken
    · exact hheld
    · obtain ⟨m, b'', rfl, -, -⟩ := hv
      rintro ⟨hun, -⟩
      have hleft : (h₀.freeList (.user p) i ++ [q]).filter
          (fun b => b ∉ blocks (block2arena q) i 0 (blocksPerArena i)) = h₀.freeList (.user p) i := by
        rw [← hback]
        exact ((freeList_setFree _ _ _ _ _).trans (if_pos rfl)).symm.trans (congrFun hun i)
      have hb'' := hb'.1
      rw [← hleft] at hb''
      rw [List.mem_filter, decide_eq_true_eq] at hb''
      exact hb''.2 (hpage b' hb''.1 hb'.2)
  · rw [pure_on, Res.safe_done]
    intro hun
    have := congrFun hun.1 i
    rw [hback] at this
    exact absurd (congrArg List.length this) (by simp)

section Example

def initHeap : Heap where
  mm := withInit
  freeList := fun _ _ => []
  arena := fun _ _ => none
  held := fun _ _ => false

theorem fresh_initHeap : Fresh (.user kHeapStart) initHeap := by
  obtain ⟨x, hx, hlen⟩ := Option.map_eq_some_iff.1 withInit_task
  have hmap : (Ctx.user kHeapStart).Map withInit x.vaddrBitmap := by
    refine ⟨?_, hlen⟩
    rw [Ctx.bitmap, maps, hx, Option.map_some]
  refine ⟨⟨⟨_, hmap, fun q hq => ?_⟩, fun hx => ?_, fun hx => ?_, fun hx => ?_, fun hb => ?_,
    fun i => List.nodup_nil, fun hp => ?_⟩, fun i => rfl, fun a x i hx => ?_⟩
  · cases hq
  · cases hx
  · cases hx
  · cases hx
  · cases hb
  · cases hp
  · cases hx

theorem activate_run {α : Type} {m : Mm} (ha : m.active = p) (k : Prog Mm Buf α) :
    ((do pageDirActivate p; k).on m).run = (k.on m).run := by
  subst ha
  rfl

theorem sysFork_run {r : Nat × Nat} {m : Mm} (hm : ((Mm.sysFork p).on h.mm).run = .ok (some r, m)) :
    ((sysFork p).on h).run = .ok (some r, { h with mm := m }.inherit p r.1) := by
  simp only [sysFork, ofMm, bind_on, hm, Res.bind, modify_on, pure_on, Res.run]

def freesInherited : Prog Heap Buf (List Nat × List Nat) := do
  let first ← sysMalloc kHeapStart 1024
  let _ ← sysMalloc kHeapStart 1024
  match first, ← sysFork kHeapStart with
  | some b, some (child, _) =>
    let before := (← get).freeList (.user kHeapStart) 6
    sysFree child b
    return (before, (← get).freeList (.user kHeapStart) 6)
  | _, _ => halt .fault

end Example

end Heap

end TrueOs
