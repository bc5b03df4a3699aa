import TrueOs.Kernel.Malloc
import TrueOs.Lib.Keeps

/-! What the heap promises to those who allocate from it, over whole runs. -/

namespace TrueOs

namespace Heap

open Prog Mm

variable {ctx : Ctx} {h t : Heap} {live : Nat → Option Nat} {cur : Nat}

structure Fresh (ctx : Ctx) (h : Heap) : Prop where
  core : Core ctx h (fun _ => none)
  freeList : ∀ i, h.freeList ctx i = []
  arena : ∀ a x i, h.arena ctx a = some x → x.desc ≠ some (ctx, i)

structure Elsewhere (ctx : Ctx) (h t : Heap) : Prop where
  map : ∃ b, ctx.Map t.mm b ∧ ∀ q, h.held ctx q = true → ctx.Taken b q
  freeList : t.freeList ctx = h.freeList ctx
  arena : t.arena ctx = h.arena ctx
  held : t.held ctx = h.held ctx

inductive Step (ctx : Ctx) : Heap → (Nat → Option Nat) → Heap → (Nat → Option Nat) → Prop
  | malloc {h t : Heap} {live : Nat → Option Nat} {cur size p : Nat} (hr : Runs ctx cur h)
      (hrun : ((sysMalloc cur size).on h).run = .ok (some p, t)) :
      Step ctx h live t (Function.update live p (some size))
  | noMemory {h t : Heap} {live : Nat → Option Nat} {cur size : Nat} (hr : Runs ctx cur h)
      (hrun : ((sysMalloc cur size).on h).run = .ok (none, t)) : Step ctx h live t live
  | free {h t : Heap} {live : Nat → Option Nat} {cur p n : Nat} (hr : Runs ctx cur h) (hp : live p = some n)
      (hrun : ((sysFree cur p).on h).run = .ok ((), t)) : Step ctx h live t (Function.update live p none)
  | other {h t : Heap} {live : Nat → Option Nat} (he : Elsewhere ctx h t) : Step ctx h live t live

inductive Reach (ctx : Ctx) : Heap → (Nat → Option Nat) → Prop
  | fresh {h : Heap} (hf : Fresh ctx h) : Reach ctx h (fun _ => none)
  | step {h t : Heap} {live live' : Nat → Option Nat} (hs : Reach ctx h live) (hst : Step ctx h live t live') :
      Reach ctx t live'

def Mine (ctx : Ctx) (h : Heap) (live : Nat → Option Nat) : Prop := ∀ p n, live p = some n → Own ctx h p

theorem Own.kept {p : Nat} (ho : Own ctx h p) (hx : ∃ x, h.arena ctx (block2arena p) = some x) (hk : Kept ctx h t) :
    Own ctx t p := by
  intro y d hy hd
  obtain ⟨x, hx⟩ := hx
  obtain ⟨z, hz, e⟩ := hk.arena _ _ hx
  obtain rfl := Option.some.inj (hz.symm.trans hy)
  exact ho x d hx (e ▸ hd)

theorem Inv.some_arena (hi : Inv ctx h live) {p n : Nat} (hp : live p = some n) :
    ∃ x, h.arena ctx (block2arena p) = some x := by
  obtain ⟨x, hx, -⟩ := hi.live hp
  exact ⟨x, hx⟩

theorem Step.inv {live' : Nat → Option Nat} (hs : Step ctx h live t live') (hi : Inv ctx h live) (hm : Mine ctx h live) :
    Inv ctx t live' ∧ Mine ctx t live' := by
  cases hs with
  | @malloc _ _ cur size p hr hrun =>
    obtain ⟨-, hk, -, hnew⟩ := (safe_sysMalloc hr hi size).of_run hrun
    obtain ⟨-, hinv, hown⟩ := hnew p rfl
    refine ⟨hinv, fun q n hq => ?_⟩
    by_cases hqp : q = p
    · exact hqp ▸ hown
    · rw [Function.update_of_ne hqp] at hq
      exact (hm q n hq).kept (hi.some_arena hq) hk
  | noMemory hr hrun =>
    obtain ⟨-, hk, hnone, -⟩ := (safe_sysMalloc hr hi _).of_run hrun
    exact ⟨hnone rfl, fun q n hq => (hm q n hq).kept (hi.some_arena hq) hk⟩
  | @free _ _ cur p n hr hp hrun =>
    obtain ⟨-, hinv, hrel⟩ := (safe_sysFree hr hi hp (hm p n hp)).of_run hrun
    refine ⟨hinv, fun q k hq y d hy hd => ?_⟩
    obtain ⟨-, hq⟩ := of_forget hq
    obtain ⟨x, hx⟩ := hi.some_arena hq
    rcases hrel.arena _ x hx with ⟨hn, -⟩ | ⟨z, hz, e⟩
    · rw [hn] at hy
      cases hy
    · obtain rfl := Option.some.inj (hz.symm.trans hy)
      exact hm q k hq x d hx (e ▸ hd)
  | other he =>
    obtain ⟨b, hmap, htaken⟩ := he.map
    have hcore : Core ctx t live := hi.toCore.congr hmap (fun q hq => htaken q (he.held ▸ hq))
      (fun q hq => he.held ▸ hq) he.freeList he.arena
    refine ⟨⟨hcore, fun hx hd => hi.busy (he.arena ▸ hx) hd⟩, fun q n hq => ?_⟩
    rw [Own, he.arena]
    exact hm q n hq

theorem Fresh.inv (hf : Fresh ctx h) : Inv ctx h (fun _ => none) :=
  ⟨hf.core, fun hx hd => absurd hd (hf.arena _ _ _ hx)⟩

theorem Reach.inv (hr : Reach ctx h live) : Inv ctx h live ∧ Mine ctx h live := by
  induction hr with
  | fresh hf => exact ⟨hf.inv, fun p n hp => by cases hp⟩
  | step _ hst ih => exact hst.inv ih.1 ih.2

theorem Core.extent (hc : Core ctx h live) {p n : Nat} (hp : live p = some n) :
    ∃ x, h.arena ctx (block2arena p) = some x ∧ 4096 * block2arena p + 12 ≤ p ∧
      p + n ≤ 4096 * (block2arena p + pages x) := by
  obtain ⟨x, hx, hb, -⟩ := hc.live hp
  refine ⟨x, hx, ?_⟩
  cases hd : x.desc with
  | none =>
    simp only [Block, hd] at hb
    rw [pages, if_pos hd]
    omega
  | some d =>
    simp only [Block, hd] at hb
    obtain ⟨⟨k, hk, hpk⟩, hn⟩ := hb
    rw [pages, if_neg (by rw [hd]; exact Option.some_ne_none d)]
    have := arena2block_bounds (a := block2arena p) hk
    omega

theorem Core.pages_pos (hc : Core ctx h live) {a : Nat} {x : Arena} (hx : h.arena ctx a = some x) : 1 ≤ pages x := by
  rw [pages]
  split
  · next hd => exact (hc.large hx hd).2.1
  · exact le_rfl

theorem Core.disjoint (hc : Core ctx h live) {p n q m : Nat} (hp : live p = some n) (hq : live q = some m) (hpq : p ≠ q) :
    p + n ≤ q ∨ q + m ≤ p := by
  obtain ⟨x, hx, hlo, hhi⟩ := hc.extent hp
  obtain ⟨y, hy, hlo', hhi'⟩ := hc.extent hq
  by_cases ha : block2arena p = block2arena q
  · obtain ⟨x', hx', hb, -⟩ := hc.live hp
    obtain ⟨y', hy', hb', -⟩ := hc.live hq
    obtain rfl := Option.some.inj (hx.symm.trans hx')
    rw [← ha] at hy' hb'
    obtain rfl := Option.some.inj (hx.symm.trans hy')
    cases hd : x.desc with
    | none =>
      simp only [Block, hd] at hb hb'
      exact absurd (hb.1.trans hb'.1.symm) hpq
    | some d =>
      simp only [Block, hd] at hb hb'
      obtain ⟨⟨k, hk, hpk⟩, hn⟩ := hb
      obtain ⟨⟨j, hj, hqj⟩, hm⟩ := hb'
      rcases Nat.lt_trichotomy k j with hkj | rfl | hjk
      · have := arena2block_apart (a := block2arena p) (i := d.2) hkj
        omega
      · exact absurd (hpk.trans hqj.symm) hpq
      · have := arena2block_apart (a := block2arena p) (i := d.2) hjk
        omega
  · rcases hc.apart hx hy ha with hle | hle
    · left
      have := Nat.mul_le_mul_left 4096 hle
      omega
    · right
      have := Nat.mul_le_mul_left 4096 hle
      omega

theorem Core.off_header (hc : Core ctx h live) {p n a : Nat} {y : Arena} (hp : live p = some n)
    (hy : h.arena ctx a = some y) : p + n ≤ 4096 * a ∨ 4096 * a + 12 ≤ p := by
  obtain ⟨x, hx, hlo, hhi⟩ := hc.extent hp
  by_cases ha : block2arena p = a
  · exact .inr (ha ▸ hlo)
  · have hpos := hc.pages_pos hy
    rcases hc.apart hx hy ha with hle | hle
    · left
      have := Nat.mul_le_mul_left 4096 hle
      omega
    · right
      omega

theorem Core.inside (hc : Core ctx h live) {p n : Nat} (hp : live p = some n) :
    ∃ page cnt, 4096 * page ≤ p ∧ p + n ≤ 4096 * (page + cnt) ∧ ∀ q, page ≤ q → q < page + cnt → h.held ctx q = true := by
  obtain ⟨x, hx, hlo, hhi⟩ := hc.extent hp
  refine ⟨block2arena p, pages x, by omega, hhi, fun q hq hq' => ?_⟩
  rw [pages] at hq'
  split at hq'
  · next hd => exact ((hc.large hx hd).2.2 q hq hq').1
  · obtain rfl : q = block2arena p := by omega
    exact hc.held hx

structure Contract (ctx : Ctx) (h : Heap) (live : Nat → Option Nat) : Prop where
  disjoint : ∀ p n q m, live p = some n → live q = some m → p ≠ q → p + n ≤ q ∨ q + m ≤ p
  header : ∀ p n a x, live p = some n → h.arena ctx a = some x → p + n ≤ 4096 * a ∨ 4096 * a + 12 ≤ p
  inside : ∀ p n, live p = some n → ∃ page cnt, 4096 * page ≤ p ∧ p + n ≤ 4096 * (page + cnt) ∧
    ∀ q, page ≤ q → q < page + cnt → h.held ctx q = true
  count : ∀ a x i, h.arena ctx a = some x → x.desc = some (ctx, i) → x.cnt = (inArena a (h.freeList ctx i)).length
  once : ∀ i, (h.freeList ctx i).Nodup
  free : ∀ i, ∀ b ∈ h.freeList ctx i, live b = none
  busy : ∀ a x i, h.arena ctx a = some x → x.desc = some (ctx, i) →
    ∃ b ∈ blocks a i 0 (blocksPerArena i), b ∉ h.freeList ctx i

theorem Inv.contract (hi : Inv ctx h live) : Contract ctx h live where
  disjoint _ _ _ _ hp hq hpq := hi.toCore.disjoint hp hq hpq
  header _ _ _ _ hp hx := hi.toCore.off_header hp hx
  inside _ _ hp := hi.toCore.inside hp
  count _ _ _ hx hd := hi.count hx hd
  once := hi.nodup
  free i b hb := by
    cases hl : live b with
    | none => rfl
    | some n => exact absurd hb (hi.toCore.not_free hl i)
  busy a x i hx hd := by
    by_contra hno
    simp only [not_exists, not_and, not_not] at hno
    have hlen := (length_inArena_eq_iff (hi.nodup i) (hi.toCore.page_blocks a)).2 hno
    have hlt := hi.busy hx hd
    rw [hi.count hx hd, hlen] at hlt
    exact lt_irrefl _ hlt

section Example

def untouched : Heap where
  mm := {
    kernelPool := ⟨480, fun _ => 0⟩
    userPool := ⟨480, fun _ => 0⟩
    kernelVaddr := ⟨480, fun _ => 0⟩
    pidBitmap := ⟨128, fun _ => 0⟩
    kpte := fun _ => ⟨0, false⟩
    tables := fun _ _ => ⟨0, false⟩
    phys := fun _ _ => 0
    tasks := fun _ => some ⟨[], 1, -1, .running, none, fun _ => none, 0, ⟨0, fun _ => 0⟩⟩
    threadAllList := []
    active := 0 }
  freeList := fun _ _ => []
  arena := fun _ _ => none
  held := fun _ _ => false

theorem fresh_untouched : Fresh .kernel untouched := by
  refine ⟨⟨⟨_, ⟨rfl, rfl⟩, fun q hq => ?_⟩, fun hx => ?_, fun hx => ?_, fun hx => ?_, fun hb => ?_,
    fun i => List.nodup_nil, fun hp => ?_⟩, fun i => rfl, fun a x i hx => ?_⟩
  · cases hq
  · cases hx
  · cases hx
  · cases hx
  · cases hb
  · cases hp
  · cases hx

end Example

end Heap

end TrueOs
