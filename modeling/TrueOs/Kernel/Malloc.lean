import Mathlib.Data.List.NodupEquivFin
import TrueOs.Kernel.Arenas

/-! The heap of one context: which blocks are free, which are live, and that the counters of
the arenas agree with the free lists. -/

namespace TrueOs

open Function (update update_self update_of_ne update_apply update_eq_self)

namespace Heap

open Prog Mm

section Blocks

variable {a k i : Nat} {l : List Nat}

theorem blockSize_pos (i : Nat) : 0 < blockSize i := Nat.mul_pos (by decide) (Nat.two_pow_pos i)

theorem arena2block_bounds (hk : k < blocksPerArena i) : 4096 * a + 12 ≤ arena2block a k i ∧
    arena2block a k i + blockSize i ≤ 4096 * a + 4096 := by
  have hle : (k + 1) * blockSize i ≤ 4096 - 12 :=
    (Nat.mul_le_mul_right _ hk).trans (Nat.div_mul_le_self _ _)
  rw [Nat.succ_mul] at hle
  rw [arena2block]
  omega

theorem block2arena_arena2block (hk : k < blocksPerArena i) : block2arena (arena2block a k i) = a := by
  have hb := arena2block_bounds (a := a) hk
  have hpos := blockSize_pos i
  rw [block2arena]
  omega

theorem arena2block_inj {j : Nat} (h : arena2block a k i = arena2block a j i) : k = j := by
  simp only [arena2block] at h
  exact Nat.eq_of_mul_eq_mul_right (blockSize_pos i) (by omega)

theorem arena2block_apart {j : Nat} (h : k < j) : arena2block a k i + blockSize i ≤ arena2block a j i := by
  have hle : (k + 1) * blockSize i ≤ j * blockSize i := Nat.mul_le_mul_right _ h
  rw [Nat.succ_mul] at hle
  simp only [arena2block]
  omega

def blocks (a i k n : Nat) : List Nat := (List.range' k n).map (fun j => arena2block a j i)

theorem mem_blocks {n b : Nat} : b ∈ blocks a i k n ↔ ∃ j, k ≤ j ∧ j < k + n ∧ b = arena2block a j i := by
  simp only [blocks, List.mem_map, List.mem_range'_1]
  constructor
  · rintro ⟨j, ⟨h1, h2⟩, rfl⟩
    exact ⟨j, h1, h2, rfl⟩
  · rintro ⟨j, h1, h2, rfl⟩
    exact ⟨j, ⟨h1, h2⟩, rfl⟩

theorem nodup_blocks (a i k n : Nat) : (blocks a i k n).Nodup :=
  List.Nodup.map (fun _ _ h => arena2block_inj h) List.nodup_range'

theorem length_blocks (a i k n : Nat) : (blocks a i k n).length = n := by
  rw [blocks, List.length_map, List.length_range']

def inArena (a : Nat) (l : List Nat) : List Nat := l.filter (fun b => block2arena b = a)

theorem mem_inArena {b : Nat} : b ∈ inArena a l ↔ b ∈ l ∧ block2arena b = a := by
  rw [inArena, List.mem_filter, decide_eq_true_eq]

variable (hn : l.Nodup) (hb : ∀ b ∈ l, block2arena b = a → b ∈ blocks a i 0 (blocksPerArena i))

include hn hb

theorem inArena_subperm : (inArena a l).Subperm (blocks a i 0 (blocksPerArena i)) := by
  refine List.subperm_of_subset (hn.filter _) fun b hm => ?_
  rw [mem_inArena] at hm
  exact hb b hm.1 hm.2

theorem length_inArena_le : (inArena a l).length ≤ blocksPerArena i :=
  (inArena_subperm hn hb).length_le.trans_eq (length_blocks _ _ _ _)

theorem length_inArena_eq_iff : (inArena a l).length = blocksPerArena i ↔
    ∀ b ∈ blocks a i 0 (blocksPerArena i), b ∈ l := by
  have hsub := inArena_subperm hn hb
  constructor
  · intro hlen b hm
    have hperm := hsub.perm_of_length_le (by rw [length_blocks, hlen])
    exact (mem_inArena.mp (hperm.mem_iff.mpr hm)).1
  · intro hall
    refine le_antisymm (length_inArena_le hn hb) ?_
    have hle := (List.subperm_of_subset (nodup_blocks a i 0 (blocksPerArena i))
      fun b hm => mem_inArena.mpr ⟨hall b hm, ?_⟩ : (blocks a i 0 (blocksPerArena i)).Subperm (inArena a l)).length_le
    · rwa [length_blocks] at hle
    · obtain ⟨j, -, hj, rfl⟩ := mem_blocks.mp hm
      exact block2arena_arena2block (by omega)

end Blocks

section Fields

variable (h : Heap) (ctx : Ctx)

theorem freeList_setFree (i j : Nat) (l : List Nat) :
    (h.setFree ctx i l).freeList ctx j = if j = i then l else h.freeList ctx j := by
  simp only [setFree, update_self, update_apply]

theorem freeList_setFree_of_ne {o : Ctx} (ho : o ≠ ctx) (i : Nat) (l : List Nat) :
    (h.setFree ctx i l).freeList o = h.freeList o := by
  simp only [setFree, update_of_ne ho]

theorem setFree_setFree (i : Nat) (l l' : List Nat) : (h.setFree ctx i l).setFree ctx i l' = h.setFree ctx i l' := by
  simp only [setFree, update_self, Function.update_idem]

theorem setFree_self (i : Nat) : h.setFree ctx i (h.freeList ctx i) = h := by
  simp only [setFree, update_eq_self]

theorem arena_setArena (a b : Nat) (x : Option Arena) :
    (h.setArena ctx a x).arena ctx b = if b = a then x else h.arena ctx b := by
  simp only [setArena, update_self, update_apply]

theorem held_setHeld (page n q : Nat) (v : Bool) :
    (h.setHeld ctx page n v).held ctx q = if page ≤ q ∧ q < page + n then v else h.held ctx q := by
  simp only [setHeld, update_self]

end Fields

section Loops

variable {h : Heap} {o : Ctx} {i a : Nat}

theorem sat_splitArena (left blockIdx : Nat) (hl : ∀ b ∈ blocks a i blockIdx left, b ∉ h.freeList o i) :
    ((splitArena o i a left blockIdx).on h).Sat False
      (fun _ t => t = h.setFree o i (h.freeList o i ++ blocks a i blockIdx left)) := by
  induction left generalizing blockIdx h with
  | zero =>
    rw [splitArena, sat_pure, blocks, List.range'_zero, List.map_nil, List.append_nil, setFree_self]
  | succ left ih =>
    have hcons : blocks a i blockIdx (left + 1) = arena2block a blockIdx i :: blocks a i (blockIdx + 1) left := by
      rw [blocks, List.range'_succ, List.map_cons, blocks]
    rw [hcons] at hl ⊢
    simp only [splitArena, sat_bind, sat_get, sat_assert, decide_eq_true_eq, decide_eq_false_iff_not,
      sat_modify]
    refine ⟨fun _ => (ih (blockIdx + 1) fun b hb => ?_).mono fun _ t ht => ?_, fun hc => hc (hl _ List.mem_cons_self)⟩
    · rw [freeList_setFree, if_pos rfl, List.mem_append, List.mem_singleton]
      rintro (hm | rfl)
      · exact hl b (List.mem_cons_of_mem _ hb) hm
      · obtain ⟨j, hj, -, hj'⟩ := mem_blocks.mp hb
        have := arena2block_inj hj'
        omega
    · rw [ht, freeList_setFree, if_pos rfl, setFree_setFree, List.append_assoc, List.singleton_append]

theorem safe_splitArena (left blockIdx : Nat) (hl : ∀ b ∈ blocks a i blockIdx left, b ∉ h.freeList o i) :
    ((splitArena o i a left blockIdx).on h).Safe
      (fun _ t => t = h.setFree o i (h.freeList o i ++ blocks a i blockIdx left)) :=
  (sat_splitArena left blockIdx hl).safe

theorem safe_unlinkBlocks (left blockIdx : Nat) (hn : (h.freeList o i).Nodup)
    (hl : ∀ b ∈ blocks a i blockIdx left, b ∈ h.freeList o i) :
    ((unlinkBlocks o i a left blockIdx).on h).Safe (fun _ t => t = h.setFree o i
      ((h.freeList o i).filter (fun b => b ∉ blocks a i blockIdx left))) := by
  induction left generalizing blockIdx h with
  | zero =>
    rw [unlinkBlocks, pure_on, Res.safe_done]
    have hnil : blocks a i blockIdx 0 = [] := rfl
    simp only [hnil, List.not_mem_nil, not_false_eq_true, decide_true, List.filter_true, setFree_self]
  | succ left ih =>
    have hcons : blocks a i blockIdx (left + 1) = arena2block a blockIdx i :: blocks a i (blockIdx + 1) left := by
      rw [blocks, List.range'_succ, List.map_cons, blocks]
    rw [hcons] at hl ⊢
    simp only [unlinkBlocks, bind_on, Res.safe_bind, get_on, Res.safe_done, safe_assert, decide_eq_true_eq, modify_on]
    have herase : ∀ b, b ∈ (h.freeList o i).erase (arena2block a blockIdx i) ↔
        b ≠ arena2block a blockIdx i ∧ b ∈ h.freeList o i := fun b => hn.mem_erase_iff
    refine ⟨hl _ List.mem_cons_self, (ih (h := h.setFree o i _) (blockIdx + 1) ?_ fun b hb => ?_).mono fun _ t ht => ?_⟩
    · rw [freeList_setFree, if_pos rfl]
      exact hn.erase _
    · rw [freeList_setFree, if_pos rfl, herase]
      refine ⟨?_, hl b (List.mem_cons_of_mem _ hb)⟩
      rintro rfl
      obtain ⟨j, hj, -, hj'⟩ := mem_blocks.mp hb
      have := arena2block_inj hj'
      omega
    · rw [ht, freeList_setFree, if_pos rfl, setFree_setFree, hn.erase_eq_filter, List.filter_filter]
      congr 2
      funext b
      simp only [List.mem_cons, not_or, Bool.decide_and, Bool.and_comm]
      grind

end Loops

def Block (x : Arena) (a p n : Nat) : Prop :=
  match x.desc with
  | none => p = 4096 * a + 12 ∧ n + 12 ≤ 4096 * x.cnt
  | some (_, i) => (∃ k < blocksPerArena i, p = arena2block a k i) ∧ n ≤ blockSize i

/-- The heap of `ctx` with the blocks of `live` handed out.  Arenas whose descriptor is
another heap's only have their page. -/
structure Core (ctx : Ctx) (h : Heap) (live : Nat → Option Nat) : Prop where
  map : ∃ b, ctx.Map h.mm b ∧ ∀ q, h.held ctx q = true → ctx.Taken b q
  small : ∀ {a x d}, h.arena ctx a = some x → x.desc = some d → h.held ctx a = true
  large : ∀ {a x}, h.arena ctx a = some x → x.desc = none → x.large = true ∧ 1 ≤ x.cnt ∧
    ∀ q, a ≤ q → q < a + x.cnt → h.held ctx q = true ∧ (q ≠ a → h.arena ctx q = none)
  count : ∀ {a x i}, h.arena ctx a = some x → x.desc = some (ctx, i) →
    x.cnt = (inArena a (h.freeList ctx i)).length
  block : ∀ {i b}, b ∈ h.freeList ctx i → ∃ x, h.arena ctx (block2arena b) = some x ∧ x.desc = some (ctx, i) ∧
    ∃ k < blocksPerArena i, b = arena2block (block2arena b) k i
  nodup : ∀ i, (h.freeList ctx i).Nodup
  live : ∀ {p n}, live p = some n → ∃ x, h.arena ctx (block2arena p) = some x ∧ Block x (block2arena p) p n ∧
    ∀ i, x.desc = some (ctx, i) → p ∉ h.freeList ctx i

structure Inv (ctx : Ctx) (h : Heap) (live : Nat → Option Nat) : Prop extends Core ctx h live where
  busy : ∀ {a x i}, h.arena ctx a = some x → x.desc = some (ctx, i) → x.cnt < blocksPerArena i

section Core

variable {ctx : Ctx} {h : Heap} {live : Nat → Option Nat} {cur : Nat}

theorem Core.held (hc : Core ctx h live) {a : Nat} {x : Arena} (hx : h.arena ctx a = some x) :
    h.held ctx a = true := by
  cases hd : x.desc with
  | none =>
    obtain ⟨-, h1, hpages⟩ := hc.large hx hd
    exact (hpages a le_rfl (by omega)).1
  | some d => exact hc.small hx hd

theorem Core.page_blocks (hc : Core ctx h live) {i : Nat} (a : Nat) : ∀ b ∈ h.freeList ctx i, block2arena b = a →
    b ∈ blocks a i 0 (blocksPerArena i) := by
  rintro b hb rfl
  obtain ⟨-, -, -, k, hk, hbk⟩ := hc.block hb
  exact mem_blocks.mpr ⟨k, Nat.zero_le _, by omega, hbk⟩

theorem Core.congr (hc : Core ctx h live) {t : Heap} {b : Bitmap} (hmap : ctx.Map t.mm b)
    (htaken : ∀ q, t.held ctx q = true → ctx.Taken b q) (hheld : ∀ q, h.held ctx q = true → t.held ctx q = true)
    (hfree : t.freeList ctx = h.freeList ctx) (harena : t.arena ctx = h.arena ctx) : Core ctx t live where
  map := ⟨b, hmap, htaken⟩
  small := fun hx hd => hheld _ (hc.small (by rwa [← harena]) hd)
  large := fun {a x} hx hd => by
    rw [harena] at hx ⊢
    obtain ⟨h1, h2, h3⟩ := hc.large hx hd
    exact ⟨h1, h2, fun q hq hq' => ⟨hheld q (h3 q hq hq').1, (h3 q hq hq').2⟩⟩
  count := fun hx hd => by
    rw [harena] at hx
    rw [hfree]
    exact hc.count hx hd
  block := fun hb => by
    rw [hfree] at hb
    rw [harena]
    exact hc.block hb
  nodup := fun i => by
    rw [hfree]
    exact hc.nodup i
  live := fun hp => by
    rw [harena, hfree]
    exact hc.live hp

theorem safe_ofMm {α : Type} {c : Prog Mm Buf α} {Q : α → Mm → Prop}
    (hc : (c.on h.mm).Sat True Q) :
    ((ofMm c).on h).Safe (fun r t => ∃ m, t = { h with mm := m } ∧ Q r m) := by
  simp only [ofMm]
  split
  · next r hr => exact ⟨r.2, rfl, hc.of_run hr⟩
  · trivial

theorem safe_takePages (hof : ctx.Of cur) (hc : Core ctx h live) (n : Nat) :
    ((takePages cur ctx n).on h).Safe (fun r t => Core ctx t live ∧ t.freeList = h.freeList ∧
      t.arena = h.arena ∧ (∀ q, h.held ctx q = true → t.held ctx q = true) ∧ ∀ v ∈ r, ∀ q, v ≤ q → q < v + n → t.held ctx q = true ∧ h.held ctx q = false) := by
  obtain ⟨b, hmap, htaken⟩ := hc.map
  rw [takePages, bind_on, Res.safe_bind]
  refine (safe_ofMm (sat_mallocPage_ctx hof hmap n)).mono fun r t ht => ?_
  obtain ⟨m, rfl, b', hmap', hmono, hnew⟩ := ht
  have hkept : ∀ q, h.held ctx q = true → ctx.Taken b' q := fun q hq =>
    ⟨(htaken q hq).1, (htaken q hq).2.1, hmono _ (htaken q hq).2.2⟩
  cases r with
  | none => exact ⟨hc.congr hmap' hkept (fun _ hq => hq) rfl rfl, rfl, rfl, fun _ hq => hq, fun v hv => by cases hv⟩
  | some v =>
    obtain ⟨hlo, hhi, hbits⟩ := hnew v rfl
    have hbit : ∀ q, v ≤ q → q < v + n → b.bits.bit (q - ctx.start) = false ∧ b'.bits.bit (q - ctx.start) = true := by
      intro q hq hq'
      have := hbits (q - v) (by omega)
      rwa [show v - ctx.start + (q - v) = q - ctx.start by omega] at this
    have hmore : ∀ q, h.held ctx q = true → (h.setHeld ctx v n true).held ctx q = true := by
      intro q hq
      rw [held_setHeld]
      split
      · rfl
      · exact hq
    refine ⟨hc.congr (b := b') hmap' (fun q hq => ?_) hmore rfl rfl, rfl, rfl, hmore, fun v' hv q hq hq' => ?_⟩
    · rw [held_setHeld] at hq
      split at hq
      · next hr => exact ⟨by omega, by omega, (hbit q hr.1 hr.2).2⟩
      · exact hkept q hq
    · obtain rfl := Option.some.inj hv
      refine ⟨by rw [held_setHeld, if_pos ⟨hq, hq'⟩], ?_⟩
      by_contra hheld
      have := (htaken q (by simpa using hheld)).2.2
      rw [(hbit q hq hq').1] at this
      cases this

theorem safe_dropPages (hof : ctx.Of cur) {b : Bitmap} (hmap : ctx.Map h.mm b)
    (htaken : ∀ q, h.held ctx q = true → ctx.Taken b q) {a : Nat} (ha : h.held ctx a = true) (n : Nat) :
    ((dropPages cur ctx a n).on h).Safe (fun _ t => ∃ m b', t = ({ h with mm := m }.setHeld ctx a n false).setArena ctx a none ∧
      ctx.Map m b' ∧ ∀ q, h.held ctx q = true → ¬(a ≤ q ∧ q < a + n) → ctx.Taken b' q) := by
  obtain ⟨hlo, hhi, -⟩ := htaken a ha
  rw [dropPages, bind_on, Res.safe_bind]
  refine (safe_ofMm (sat_mfreePage_ctx hof hmap hlo hhi n)).mono fun _ t ht => ?_
  obtain ⟨m, rfl, b', hmap', hbits⟩ := ht
  refine ⟨m, b', rfl, hmap', fun q hq hr => ?_⟩
  obtain ⟨h1, h2, h3⟩ := htaken q hq
  exact ⟨h1, h2, (hbits (q - ctx.start) (by omega)).trans h3⟩

end Core

def pages (x : Arena) : Nat := if x.desc = none then x.cnt else 1

section Steps

variable {ctx : Ctx} {h : Heap} {live : Nat → Option Nat} {a : Nat} {x : Arena}

theorem Core.apart (hc : Core ctx h live) (hx : h.arena ctx a = some x) {b : Nat} {y : Arena}
    (hy : h.arena ctx b = some y) (hab : a ≠ b) : a + pages x ≤ b ∨ b + pages y ≤ a := by
  -- the page of one arena is never inside the run of the other
  have hout : ∀ {a b x y}, h.arena ctx a = some x → h.arena ctx b = some y → a ≠ b → ¬(a ≤ b ∧ b < a + pages x) := by
    intro a b x y hx hy hab hr
    rw [pages] at hr
    split at hr
    · next hd =>
      have := ((hc.large hx hd).2.2 b hr.1 hr.2).2 hab.symm
      rw [hy] at this
      cases this
    · omega
  have h1 := hout hx hy hab
  have h2 := hout hy hx hab.symm
  omega

theorem Core.putLarge (hc : Core ctx h live) {v n size : Nat} (hn : 1 ≤ n) (hsize : size + 12 ≤ 4096 * n)
    (hheld : ∀ q, v ≤ q → q < v + n → h.held ctx q = true) (hnone : ∀ q, v ≤ q → q < v + n → h.arena ctx q = none)
    (hout : ∀ a x, h.arena ctx a = some x → x.desc = none → ¬(a ≤ v ∧ v < a + x.cnt)) :
    Core ctx (h.setArena ctx v (some ⟨none, n, true⟩)) (update live (4096 * v + 12) (some size)) where
  map := hc.map
  small := fun {a x d} hx hd => by
    rw [arena_setArena] at hx
    split at hx
    · obtain rfl := Option.some.inj hx
      cases hd
    · exact hc.small hx hd
  large := fun {a x} hx hd => by
    rw [arena_setArena] at hx
    split at hx
    · next hav =>
      subst hav
      obtain rfl := Option.some.inj hx
      refine ⟨rfl, hn, fun q hq hq' => ⟨hheld q hq hq', fun hqa => ?_⟩⟩
      rw [arena_setArena, if_neg hqa]
      exact hnone q hq hq'
    · obtain ⟨h1, h2, h3⟩ := hc.large hx hd
      refine ⟨h1, h2, fun q hq hq' => ⟨(h3 q hq hq').1, fun hqa => ?_⟩⟩
      have hqv : q ≠ v := by
        rintro rfl
        exact hout a x hx hd ⟨hq, hq'⟩
      rw [arena_setArena, if_neg hqv]
      exact (h3 q hq hq').2 hqa
  count := fun {a x i} hx hd => by
    rw [arena_setArena] at hx
    split at hx
    · obtain rfl := Option.some.inj hx
      cases hd
    · exact hc.count hx hd
  block := fun {i b} hb => by
    obtain ⟨x, hx, hrest⟩ := hc.block hb
    refine ⟨x, ?_, hrest⟩
    rw [arena_setArena, if_neg fun he => ?_, hx]
    rw [he, hnone v le_rfl (by omega)] at hx
    cases hx
  nodup := hc.nodup
  live := fun {p m} hp => by
    by_cases hpv : p = 4096 * v + 12
    · subst hpv
      have hpage : block2arena (4096 * v + 12) = v := by
        rw [block2arena]
        omega
      rw [update_self] at hp
      obtain rfl := Option.some.inj hp
      rw [hpage]
      refine ⟨⟨none, n, true⟩, by rw [arena_setArena, if_pos rfl], ⟨rfl, hsize⟩, fun i hd => ?_⟩
      cases hd
    · rw [update_of_ne hpv] at hp
      obtain ⟨x, hx, hrest⟩ := hc.live hp
      refine ⟨x, ?_, hrest⟩
      rw [arena_setArena, if_neg fun he => ?_, hx]
      rw [he, hnone v le_rfl (by omega)] at hx
      cases hx

theorem Core.putSmall (hc : Core ctx h live) {v i : Nat} (hheld : h.held ctx v = true)
    (hnone : h.arena ctx v = none)
    (hout : ∀ a x, h.arena ctx a = some x → x.desc = none → ¬(a ≤ v ∧ v < a + x.cnt))
    (hempty : h.freeList ctx i = []) :
    Core ctx ((h.setArena ctx v (some ⟨some (ctx, i), blocksPerArena i, false⟩)).setFree ctx i
      (blocks v i 0 (blocksPerArena i))) live := by
  have hpage : ∀ b ∈ blocks v i 0 (blocksPerArena i), block2arena b = v := by
    intro b hb
    obtain ⟨j, -, hj, rfl⟩ := mem_blocks.mp hb
    exact block2arena_arena2block (by omega)
  have hfree : ∀ j, ((h.setArena ctx v (some ⟨some (ctx, i), blocksPerArena i, false⟩)).setFree ctx i
      (blocks v i 0 (blocksPerArena i))).freeList ctx j =
        if j = i then blocks v i 0 (blocksPerArena i) else h.freeList ctx j := fun j => freeList_setFree _ _ _ _ _
  have harena : ∀ b, ((h.setArena ctx v (some ⟨some (ctx, i), blocksPerArena i, false⟩)).setFree ctx i
      (blocks v i 0 (blocksPerArena i))).arena ctx b =
        if b = v then some ⟨some (ctx, i), blocksPerArena i, false⟩ else h.arena ctx b := fun b => arena_setArena _ _ _ _ _
  have hne : ∀ {a x}, h.arena ctx a = some x → a ≠ v := by
    rintro a x hx rfl
    rw [hnone] at hx
    cases hx
  refine ⟨hc.map, fun {a x d} hx hd => ?_, fun {a x} hx hd => ?_, fun {a x j} hx hd => ?_, fun {j b} hb => ?_,
    fun j => ?_, fun {p n} hp => ?_⟩
  · rw [harena] at hx
    split at hx
    · next hav =>
      subst hav
      exact hheld
    · exact hc.small hx hd
  · rw [harena] at hx
    split at hx
    · obtain rfl := Option.some.inj hx
      cases hd
    · obtain ⟨h1, h2, h3⟩ := hc.large hx hd
      refine ⟨h1, h2, fun q hq hq' => ⟨(h3 q hq hq').1, fun hqa => ?_⟩⟩
      have hqv : q ≠ v := by
        rintro rfl
        exact hout a x hx hd ⟨hq, hq'⟩
      rw [harena, if_neg hqv]
      exact (h3 q hq hq').2 hqa
  · rw [harena] at hx
    rw [hfree]
    split at hx
    · next hav =>
      subst hav
      obtain rfl := Option.some.inj hx
      obtain rfl : i = j := (Prod.mk.inj (Option.some.inj hd)).2
      rw [if_pos rfl]
      exact ((length_inArena_eq_iff (nodup_blocks _ _ _ _) fun b hb _ => hb).mpr fun b hb => hb).symm
    · next hav =>
      have hcount := hc.count hx hd
      split
      · next hji =>
        subst hji
        rw [hempty] at hcount
        rw [hcount, inArena, List.filter_nil, List.length_nil, eq_comm, List.length_eq_zero_iff,
          List.eq_nil_iff_forall_not_mem]
        intro b hb
        rw [mem_inArena] at hb
        exact hav (hb.2.symm.trans (hpage b hb.1))
      · exact hcount
  · rw [hfree] at hb
    split at hb
    · next hji =>
      subst hji
      refine ⟨_, by rw [harena, if_pos (hpage b hb)], rfl, ?_⟩
      obtain ⟨k, -, hk, hbk⟩ := mem_blocks.mp hb
      exact ⟨k, by omega, by rw [hpage b hb, hbk]⟩
    · obtain ⟨x, hx, hrest⟩ := hc.block hb
      exact ⟨x, by rw [harena, if_neg (hne hx), hx], hrest⟩
  · rw [hfree]
    split
    · exact nodup_blocks _ _ _ _
    · exact hc.nodup j
  · obtain ⟨x, hx, hblock, hout⟩ := hc.live hp
    refine ⟨x, by rw [harena, if_neg (hne hx), hx], hblock, fun j hd => ?_⟩
    rw [hfree]
    split
    · exact fun hm => hne hx (hpage p hm)
    · exact hout j hd

theorem inArena_cons (a b : Nat) (l : List Nat) :
    inArena a (b :: l) = if block2arena b = a then b :: inArena a l else inArena a l := by
  simp only [inArena, List.filter_cons, decide_eq_true_eq]

theorem Block.recount {p n : Nat} {d : Ctx × Nat} (hb : Block x a p n) (hd : x.desc = some d) (cnt : Nat) :
    Block { x with cnt := cnt } a p n := by
  simp only [Block, hd] at hb ⊢
  exact hb

theorem Core.recount (hc : Core ctx h live) (live' : Nat → Option Nat) (cnt : Nat) {i : Nat} (hx : h.arena ctx a = some x)
    (hd : x.desc = some (ctx, i)) {l : List Nat} (hn : l.Nodup) (hcnt : cnt = (inArena a l).length)
    (hin : ∀ b ∈ l, b ∈ h.freeList ctx i ∨ b ∈ blocks a i 0 (blocksPerArena i))
    (hother : ∀ b, b ≠ a → inArena b l = inArena b (h.freeList ctx i))
    (hlive : ∀ p n, live' p = some n → live p = some n ∧ p ∉ l ∨
      block2arena p = a ∧ p ∉ l ∧ Block x a p n) :
    Core ctx ((h.setFree ctx i l).setArena ctx a (some { x with cnt := cnt })) live' := by
  have hfree : ∀ j, ((h.setFree ctx i l).setArena ctx a (some { x with cnt := cnt })).freeList ctx j =
      if j = i then l else h.freeList ctx j := fun j => freeList_setFree _ _ _ _ _
  have harena : ∀ b, ((h.setFree ctx i l).setArena ctx a (some { x with cnt := cnt })).arena ctx b =
      if b = a then some { x with cnt := cnt } else h.arena ctx b := fun b => arena_setArena _ _ _ _ _
  have hkeep : ∀ {b y}, h.arena ctx b = some y → ∃ z, ((h.setFree ctx i l).setArena ctx a
      (some { x with cnt := cnt })).arena ctx b = some z ∧ z.desc = y.desc ∧ (b ≠ a → z = y) ∧
        ∀ p n, Block y b p n → Block z b p n := by
    intro b y hy
    by_cases hba : b = a
    · subst hba
      obtain rfl := Option.some.inj (hx.symm.trans hy)
      refine ⟨{ x with cnt := cnt }, ?_, rfl, fun hne => absurd rfl hne, fun p n hb => hb.recount hd cnt⟩
      rw [harena, if_pos rfl]
    · exact ⟨y, by rw [harena, if_neg hba, hy], rfl, fun _ => rfl, fun p n hb => hb⟩
  refine ⟨hc.map, fun {b y d} hy hdy => ?_, fun {b y} hy hdy => ?_, fun {b y j} hy hdy => ?_, fun {j b} hb => ?_,
    fun j => ?_, fun {p n} hp => ?_⟩
  · rw [harena] at hy
    split at hy
    · next hba =>
      subst hba
      exact hc.held hx
    · exact hc.small hy hdy
  · rw [harena] at hy
    split at hy
    · obtain rfl := Option.some.inj hy
      cases hd.symm.trans hdy
    · obtain ⟨h1, h2, h3⟩ := hc.large hy hdy
      refine ⟨h1, h2, fun q hq hq' => ⟨(h3 q hq hq').1, fun hqb => ?_⟩⟩
      have hqa : q ≠ a := by
        rintro rfl
        have := (h3 q hq hq').2 hqb
        rw [hx] at this
        cases this
      rw [harena, if_neg hqa]
      exact (h3 q hq hq').2 hqb
  · rw [harena] at hy
    rw [hfree]
    split at hy
    · next hba =>
      subst hba
      obtain rfl := Option.some.inj hy
      obtain rfl : i = j := (Prod.mk.inj (Option.some.inj (hd.symm.trans hdy))).2
      rw [if_pos rfl]
      exact hcnt
    · next hba =>
      have hcount := hc.count hy hdy
      split
      · next hji =>
        subst hji
        rw [hcount, hother b hba]
      · exact hcount
  · rw [hfree] at hb
    split at hb
    · next hji =>
      subst hji
      rcases hin b hb with hb | hb
      · obtain ⟨y, hy, hdy, hk⟩ := hc.block hb
        obtain ⟨z, hz, hdz, -⟩ := hkeep hy
        exact ⟨z, hz, hdz.trans hdy, hk⟩
      · obtain ⟨k, -, hk, rfl⟩ := mem_blocks.mp hb
        have hpage : block2arena (arena2block a k j) = a := block2arena_arena2block (by omega)
        refine ⟨{ x with cnt := cnt }, ?_, hd, k, by omega, by rw [hpage]⟩
        rw [harena, if_pos hpage]
    · obtain ⟨y, hy, hdy, hk⟩ := hc.block hb
      obtain ⟨z, hz, hdz, -⟩ := hkeep hy
      exact ⟨z, hz, hdz.trans hdy, hk⟩
  · rw [hfree]
    split
    · exact hn
    · exact hc.nodup j
  · rcases hlive p n hp with ⟨hp, hpl⟩ | ⟨rfl, hpl, hblock⟩
    · obtain ⟨y, hy, hblock, hout⟩ := hc.live hp
      obtain ⟨z, hz, hdz, -, hbz⟩ := hkeep hy
      refine ⟨z, hz, hbz p n hblock, fun j hdj => ?_⟩
      rw [hfree]
      split
      · exact hpl
      · exact hout j (hdz.symm.trans hdj)
    · refine ⟨{ x with cnt := cnt }, by rw [harena, if_pos rfl], hblock.recount hd cnt, fun j hdj => ?_⟩
      obtain rfl : i = j := (Prod.mk.inj (Option.some.inj (hd.symm.trans hdj))).2
      rw [hfree, if_pos rfl]
      exact hpl

theorem Core.drop (hc : Core ctx h live) (hx : h.arena ctx a = some x) {m : Mm} {b : Bitmap} (hmap : ctx.Map m b)
    (htaken : ∀ q, h.held ctx q = true → ¬(a ≤ q ∧ q < a + pages x) → ctx.Taken b q)
    (hfree : ∀ i, ∀ p ∈ h.freeList ctx i, block2arena p ≠ a) (hlive : ∀ p n, live p = some n → block2arena p ≠ a) :
    Core ctx (({ h with mm := m }.setHeld ctx a (pages x) false).setArena ctx a none) live := by
  have harena : ∀ b, (({ h with mm := m }.setHeld ctx a (pages x) false).setArena ctx a none).arena ctx b =
      if b = a then none else h.arena ctx b := fun b => arena_setArena _ _ _ _ _
  have hheld : ∀ q, (({ h with mm := m }.setHeld ctx a (pages x) false).setArena ctx a none).held ctx q =
      if a ≤ q ∧ q < a + pages x then false else h.held ctx q := fun q => held_setHeld _ _ _ _ _ _
  have hold : ∀ {c y}, (if c = a then none else h.arena ctx c) = some y → c ≠ a ∧ h.arena ctx c = some y := by
    intro c y hy
    split at hy
    · cases hy
    · next hca => exact ⟨hca, hy⟩
  have hapart : ∀ {c y}, c ≠ a → h.arena ctx c = some y → ∀ q, c ≤ q → q < c + pages y → ¬(a ≤ q ∧ q < a + pages x) := by
    intro c y hca hy q hq hq' hr
    rcases hc.apart hx hy hca.symm with hle | hle
    · omega
    · omega
  refine ⟨⟨b, hmap, fun q hq => ?_⟩, fun {c y d} hy hdy => ?_, fun {c y} hy hdy => ?_, fun {c y j} hy hdy => ?_,
    fun {j p} hp => ?_, hc.nodup, fun {p n} hp => ?_⟩
  · rw [hheld] at hq
    split at hq
    · cases hq
    · next hr => exact htaken q hq hr
  · rw [harena] at hy
    obtain ⟨hca, hy⟩ := hold hy
    have hpages : pages y = 1 := by
      rw [pages, if_neg (by rw [hdy]; exact Option.some_ne_none d)]
    rw [hheld, if_neg (hapart hca hy c le_rfl (by omega))]
    exact hc.small hy hdy
  · rw [harena] at hy
    obtain ⟨hca, hy⟩ := hold hy
    obtain ⟨h1, h2, h3⟩ := hc.large hy hdy
    have hpages : pages y = y.cnt := by
      rw [pages, if_pos hdy]
    refine ⟨h1, h2, fun q hq hq' => ⟨?_, fun hqc => ?_⟩⟩
    · rw [hheld, if_neg (hapart hca hy q hq (by omega))]
      exact (h3 q hq hq').1
    · rw [harena]
      split
      · rfl
      · exact (h3 q hq hq').2 hqc
  · rw [harena] at hy
    exact hc.count (hold hy).2 hdy
  · obtain ⟨y, hy, hrest⟩ := hc.block hp
    exact ⟨y, by rw [harena, if_neg (hfree j p hp), hy], hrest⟩
  · obtain ⟨y, hy, hrest⟩ := hc.live hp
    exact ⟨y, by rw [harena, if_neg (hlive p n hp), hy], hrest⟩

end Steps

structure Frame (ctx : Ctx) (h t : Heap) : Prop where
  freeList : ∀ o, o ≠ ctx → t.freeList o = h.freeList o
  arena : ∀ o, o ≠ ctx → t.arena o = h.arena o
  foreign : ∀ a x d, t.arena ctx a = some x → x.desc = some d → d.1 ≠ ctx → h.arena ctx a = some x

structure Kept (ctx : Ctx) (h t : Heap) : Prop where
  arena : ∀ a x, h.arena ctx a = some x → ∃ y, t.arena ctx a = some y ∧ y.desc = x.desc
  held : ∀ q, h.held ctx q = true → t.held ctx q = true

def Own (ctx : Ctx) (h : Heap) (p : Nat) : Prop :=
  ∀ x d, h.arena ctx (block2arena p) = some x → x.desc = some d → d.1 = ctx

def Runs (ctx : Ctx) (cur : Nat) (h : Heap) : Prop :=
  ∃ x, h.mm.tasks cur = some x ∧ (if x.pgdir.isNone then .kernel else .user cur) = ctx

section Calls

variable {ctx : Ctx} {h t : Heap} {live : Nat → Option Nat} {cur : Nat}

theorem Frame.trans {u : Heap} (h1 : Frame ctx h t) (h2 : Frame ctx t u) : Frame ctx h u :=
  ⟨fun o ho => (h2.freeList o ho).trans (h1.freeList o ho), fun o ho => (h2.arena o ho).trans (h1.arena o ho),
    fun a x d hx hd ho => h1.foreign a x d (h2.foreign a x d hx hd ho) hd ho⟩

theorem Frame.of_eq (hf : t.freeList = h.freeList) (ha : t.arena = h.arena) : Frame ctx h t :=
  ⟨fun _ _ => by rw [hf], fun _ _ => by rw [ha], fun _ _ _ hx _ _ => ha ▸ hx⟩

theorem Kept.trans {u : Heap} (h1 : Kept ctx h t) (h2 : Kept ctx t u) : Kept ctx h u where
  arena a x hx := by
    obtain ⟨y, hy, e⟩ := h1.arena a x hx
    obtain ⟨z, hz, e'⟩ := h2.arena a y hy
    exact ⟨z, hz, e'.trans e⟩
  held q hq := h2.held q (h1.held q hq)

theorem Kept.of_eq (ha : t.arena = h.arena) (hh : ∀ q, h.held ctx q = true → t.held ctx q = true) : Kept ctx h t :=
  ⟨fun a x hx => ⟨x, by rw [ha, hx], rfl⟩, hh⟩

theorem kept_setArena {a : Nat} {y : Arena} (hd : ∀ x, h.arena ctx a = some x → y.desc = x.desc) :
    Kept ctx h (h.setArena ctx a (some y)) := by
  refine ⟨fun b x hx => ?_, fun _ hq => hq⟩
  rw [arena_setArena]
  split
  · next hba =>
    subst hba
    exact ⟨y, rfl, hd x hx⟩
  · exact ⟨x, hx, rfl⟩

theorem kept_setFree (i : Nat) (l : List Nat) : Kept ctx h (h.setFree ctx i l) := .of_eq rfl fun _ hq => hq

theorem frame_setFree (i : Nat) (l : List Nat) : Frame ctx h (h.setFree ctx i l) :=
  ⟨fun _ ho => freeList_setFree_of_ne h ctx ho i l, fun _ _ => rfl, fun _ _ _ hx _ _ => hx⟩

theorem frame_setArena {a : Nat} {x : Option Arena} (hx : ∀ y ∈ x, ∀ d, y.desc = some d → d.1 = ctx) :
    Frame ctx h (h.setArena ctx a x) := by
  refine ⟨fun _ _ => rfl, fun _ ho => update_of_ne ho _ _, fun b y d hy hd ho => ?_⟩
  rw [arena_setArena] at hy
  split at hy
  · exact absurd (hx y hy d hd) ho
  · exact hy

theorem own_desc {i : Nat} {x : Arena} (hd : x.desc = some (ctx, i)) : ∀ y ∈ some x, ∀ d, y.desc = some d → d.1 = ctx := by
  intro y hy d hdy
  obtain rfl := Option.some.inj hy
  exact congrArg Prod.fst (Option.some.inj (hd.symm.trans hdy)).symm

theorem Runs.of (hr : Runs ctx cur h) : ctx.Of cur := by
  obtain ⟨x, -, rfl⟩ := hr
  split
  · exact Or.inl rfl
  · exact Or.inr rfl

theorem sat_context (hr : Runs ctx cur h) : ((context cur).on h).Sat False (fun r t => r = ctx ∧ t = h) := by
  obtain ⟨x, hx, hctx⟩ := hr
  have hrun : ((getTask cur).on h.mm).run = .ok (x, h.mm) := by
    simp only [getTask, bind_on, get_on, Res.bind, hx, pure_on, Res.run]
  simp only [context, bind_on, ofMm, hrun, Res.bind, pure_on, Res.sat_done]
  exact ⟨hctx, trivial⟩

theorem safe_context (hr : Runs ctx cur h) : ((context cur).on h).Safe (fun r t => r = ctx ∧ t = h) := (sat_context hr).safe

theorem Core.not_free (hc : Core ctx h live) {p n : Nat} (hp : live p = some n) (i : Nat) : p ∉ h.freeList ctx i := by
  intro hm
  obtain ⟨x, hx, -, hout⟩ := hc.live hp
  obtain ⟨y, hy, hd, -⟩ := hc.block hm
  obtain rfl := Option.some.inj (hx.symm.trans hy)
  exact hout i hd hm

theorem Core.not_live (hc : Core ctx h live) {p : Nat} (ha : h.arena ctx (block2arena p) = none) : live p = none := by
  cases hp : live p with
  | none => rfl
  | some n =>
    obtain ⟨x, hx, -⟩ := hc.live hp
    rw [ha] at hx
    cases hx

theorem safe_popBlock (hc : Core ctx h live) {i b size : Nat} {rest : List Nat} (hF : h.freeList ctx i = b :: rest)
    (hsize : size ≤ blockSize i) (hbusy : ∀ {a x j}, h.arena ctx a = some x → x.desc = some (ctx, j) →
      a ≠ block2arena b → x.cnt < blocksPerArena j) :
    ((popBlock ctx i).on h).Safe (fun r t => r = some b ∧ live b = none ∧
      Inv ctx t (update live b (some size)) ∧ Frame ctx h t ∧ Kept ctx h t ∧ Own ctx t b) := by
  have hmem : b ∈ h.freeList ctx i := by
    rw [hF]
    exact List.mem_cons_self
  obtain ⟨x, hx, hd, k, hk, hbk⟩ := hc.block hmem
  have hnd := hc.nodup i
  rw [hF, List.nodup_cons] at hnd
  have hcount := hc.count hx hd
  rw [hF, inArena_cons, if_pos rfl, List.length_cons] at hcount
  have hle := length_inArena_le (hc.nodup i) (hc.page_blocks (block2arena b))
  rw [hF, inArena_cons, if_pos rfl, List.length_cons] at hle
  have hlive : live b = none := by
    cases hp : live b with
    | none => rfl
    | some n => exact absurd hmem (hc.not_free hp i)
  have hcore := hc.recount (update live b (some size)) (x.cnt - 1) hx hd hnd.2
    (by omega) (fun b' hb' => Or.inl (by rw [hF]; exact List.mem_cons_of_mem b hb'))
    (fun a ha => by rw [hF, inArena_cons, if_neg fun he => ha he.symm]) fun p n hp => by
      by_cases hpb : p = b
      · subst hpb
        rw [update_self] at hp
        obtain rfl := Option.some.inj hp
        refine Or.inr ⟨rfl, hnd.1, ?_⟩
        simp only [Block, hd]
        exact ⟨⟨k, hk, hbk⟩, hsize⟩
      · rw [update_of_ne hpb] at hp
        refine Or.inl ⟨hp, fun hm => hc.not_free hp i ?_⟩
        rw [hF]
        exact List.mem_cons_of_mem b hm
  simp only [popBlock, bind_on, Res.safe_bind, get_on, Res.safe_done, hF, modify_on]
  have hx' : (h.setFree ctx i rest).arena ctx (block2arena b) = some x := hx
  simp only [hx', bind_on, Res.safe_bind, modify_on, Res.safe_done, pure_on]
  have hkept : Kept ctx h ((h.setFree ctx i rest).setArena ctx (block2arena b) (some { x with cnt := x.cnt - 1 })) := by
    refine (kept_setFree i rest).trans (kept_setArena fun y hy => ?_)
    rw [Option.some.inj (hx'.symm.trans hy)]
  refine ⟨trivial, hlive, ⟨hcore, fun {a y j} hy hdy => ?_⟩, (frame_setFree i rest).trans (frame_setArena (own_desc hd)), hkept, ?_⟩
  · rw [arena_setArena] at hy
    split at hy
    · obtain rfl := Option.some.inj hy
      obtain rfl : i = j := (Prod.mk.inj (Option.some.inj (hd.symm.trans hdy))).2
      dsimp only
      omega
    · next hab => exact hbusy hy hdy hab
  · intro y d hy hdy
    rw [arena_setArena, if_pos rfl] at hy
    obtain rfl := Option.some.inj hy
    exact congrArg Prod.fst (Option.some.inj (hd.symm.trans hdy)).symm

theorem findDesc_spec {size : Nat} (left descIdx : Nat) (hd : ∃ d, descIdx ≤ d ∧ d < descIdx + left ∧ size ≤ blockSize d) :
    size ≤ blockSize (findDesc size left descIdx) := by
  induction left generalizing descIdx with
  | zero =>
    obtain ⟨d, h1, h2, -⟩ := hd
    omega
  | succ left ih =>
    rw [findDesc]
    split
    · next hle => exact hle
    · next hlt =>
      obtain ⟨d, h1, h2, h3⟩ := hd
      have hne : d ≠ descIdx := by
        rintro rfl
        exact hlt h3
      exact ih (descIdx + 1) ⟨d, by omega, by omega, h3⟩

theorem safe_sysMalloc (hr : Runs ctx cur h) (hi : Inv ctx h live) (size : Nat) :
    ((sysMalloc cur size).on h).Safe (fun r t => Frame ctx h t ∧ Kept ctx h t ∧ (r = none → Inv ctx t live) ∧
      ∀ p ∈ r, live p = none ∧ Inv ctx t (update live p (some size)) ∧ Own ctx t p) := by
  have hof := hr.of
  -- a page that was not held is in no arena
  have hfresh : ∀ {v}, h.held ctx v = false → h.arena ctx v = none ∧
      ∀ a x, h.arena ctx a = some x → x.desc = none → ¬(a ≤ v ∧ v < a + x.cnt) := by
    intro v hv
    refine ⟨?_, fun a x hx hd hr => ?_⟩
    · cases hx : h.arena ctx v with
      | none => rfl
      | some x =>
        rw [hi.held hx] at hv
        cases hv
    · rw [((hi.large hx hd).2.2 v hr.1 hr.2).1] at hv
      cases hv
  rw [sysMalloc, bind_on, Res.safe_bind]
  refine (safe_context hr).mono fun c t ht => ?_
  obtain ⟨rfl, rfl⟩ := ht
  rw [ite_on]
  split
  · exact ⟨.of_eq rfl rfl, .of_eq rfl fun _ hq => hq, fun _ => hi, fun p hp => by cases hp⟩
  · rw [ite_on]
    split
    · next hlt =>
      rw [bind_on, Res.safe_bind]
      refine (safe_takePages hof hi.toCore _).mono fun r u hu => ?_
      obtain ⟨hcu, hfree, harena, hheld, hpages⟩ := hu
      cases r with
      | none =>
        refine ⟨.of_eq hfree harena, .of_eq harena hheld, fun _ => ⟨hcu, fun hx hd => ?_⟩, fun p hp => by cases hp⟩
        rw [harena] at hx
        exact hi.busy hx hd
      | some v =>
        have hcnt : 1 ≤ divRoundUp (size + 12) 4096 ∧ size + 12 ≤ 4096 * divRoundUp (size + 12) 4096 := by
          rw [divRoundUp]
          omega
        have hv := fun q h1 h2 => hpages v rfl q h1 h2
        have hnone : u.arena c v = none := by
          rw [harena]
          exact (hfresh (hv v le_rfl (by omega)).2).1
        have hcore := hcu.putLarge hcnt.1 hcnt.2 (fun q h1 h2 => (hv q h1 h2).1)
          (fun q h1 h2 => by rw [harena]; exact (hfresh (hv q h1 h2).2).1)
          (fun a x hx => by
            rw [harena] at hx
            exact (hfresh (hv v le_rfl (by omega)).2).2 a x hx)
        have hpage : block2arena (4096 * v + 12) = v := by
          rw [block2arena]
          omega
        refine ⟨(Frame.of_eq hfree harena).trans (frame_setArena fun y hy d hd => (by cases hy; cases hd)),
          (Kept.of_eq harena hheld).trans (kept_setArena fun x hx => (by rw [hnone] at hx; cases hx)),
          fun hn => (by cases hn), fun p hp => ?_⟩
        obtain rfl := Option.some.inj hp
        refine ⟨hcu.not_live (by rw [hpage]; exact hnone), ⟨hcore, fun {a x i} hx hd => ?_⟩, fun x d hx hd => ?_⟩
        · rw [arena_setArena] at hx
          split at hx
          · obtain rfl := Option.some.inj hx
            cases hd
          · rw [harena] at hx
            exact hi.busy hx hd
        · rw [hpage, arena_setArena, if_pos rfl] at hx
          obtain rfl := Option.some.inj hx
          cases hd
    · next hle =>
      have hdesc : size ≤ blockSize (findDesc size 7 0) := by
        refine findDesc_spec 7 0 ⟨6, by omega, by omega, ?_⟩
        have : blockSize 6 = 1024 := rfl
        omega
      generalize findDesc size 7 0 = i at hdesc ⊢
      rw [bind_on, Res.safe_bind, get_on, Res.safe_done, ite_on]
      split
      · next hempty =>
        rw [bind_on, Res.safe_bind]
        refine (safe_takePages hof hi.toCore _).mono fun r u hu => ?_
        obtain ⟨hcu, hfree, harena, hmore, hpages⟩ := hu
        cases r with
        | none =>
          refine ⟨.of_eq hfree harena, .of_eq harena hmore, fun _ => ⟨hcu, fun hx hd => ?_⟩, fun p hp => by cases hp⟩
          rw [harena] at hx
          exact hi.busy hx hd
        | some v =>
          obtain ⟨hheld, hnew⟩ := hpages v rfl v le_rfl (by omega)
          have hempty' : u.freeList c i = [] := by rw [hfree, hempty]
          have hcore := hcu.putSmall (i := i) hheld (by rw [harena]; exact (hfresh hnew).1)
            (fun a x hx => by rw [harena] at hx; exact (hfresh hnew).2 a x hx) hempty'
          dsimp only
          rw [bind_on, Res.safe_bind, modify_on, Res.safe_done, bind_on, Res.safe_bind]
          refine (safe_splitArena _ 0 fun b _ hm => ?_).mono fun _ w hw => ?_
          · have hm' : b ∈ u.freeList c i := hm
            rw [hempty'] at hm'
            cases hm'
          · have hlist : (u.setArena c v (some ⟨some (c, i), blocksPerArena i, false⟩)).freeList c i = [] := hempty'
            rw [hlist, List.nil_append] at hw
            subst hw
            cases hbs : blocks v i 0 (blocksPerArena i) with
            | nil => simp [popBlock, freeList_setFree]
            | cons b rest =>
              rw [hbs] at hcore
              have hb : block2arena b = v := by
                obtain ⟨j, -, hj, rfl⟩ := mem_blocks.mp (by rw [hbs]; exact List.mem_cons_self)
                exact block2arena_arena2block (by omega)
              have hpop := safe_popBlock hcore (i := i) (b := b) (by rw [freeList_setFree, if_pos rfl]) hdesc
                fun {a x j} hx hd hab => by
                  rw [hb] at hab
                  have hx' : (u.setArena c v (some ⟨some (c, i), blocksPerArena i, false⟩)).arena c a = some x := hx
                  rw [arena_setArena, if_neg hab, harena] at hx'
                  exact hi.busy hx' hd
              refine hpop.mono fun r y hy => ?_
              obtain ⟨rfl, hlive, hinv, hframe, hkept, hown⟩ := hy
              have hnone : u.arena c v = none := by
                rw [harena]
                exact (hfresh hnew).1
              have hnewArena : Kept c u (u.setArena c v (some ⟨some (c, i), blocksPerArena i, false⟩)) :=
                kept_setArena fun x hx => (by rw [hnone] at hx; cases hx)
              refine ⟨(((Frame.of_eq hfree harena).trans (frame_setArena (own_desc rfl))).trans (frame_setFree _ _)).trans hframe,
                (((Kept.of_eq harena hmore).trans hnewArena).trans (kept_setFree _ _)).trans hkept,
                fun hn => (by cases hn), fun p hp => ?_⟩
              obtain rfl := Option.some.inj hp
              exact ⟨hlive, hinv, hown⟩
      · next hne =>
        obtain ⟨b, rest, hF⟩ := List.exists_cons_of_ne_nil hne
        refine (safe_popBlock hi.toCore hF hdesc fun hx hd _ => hi.busy hx hd).mono fun r u hu => ?_
        obtain ⟨rfl, hlive, hinv, hframe, hkept, hown⟩ := hu
        refine ⟨hframe, hkept, fun hn => (by cases hn), fun p hp => ?_⟩
        obtain rfl := Option.some.inj hp
        exact ⟨hlive, hinv, hown⟩

theorem Core.forget (hc : Core ctx h live) {live' : Nat → Option Nat} (hl : ∀ p n, live' p = some n → live p = some n) :
    Core ctx h live' :=
  { hc with live := fun hp => hc.live (hl _ _ hp) }

theorem inArena_append_singleton (a p : Nat) (l : List Nat) :
    inArena a (l ++ [p]) = if block2arena p = a then inArena a l ++ [p] else inArena a l := by
  simp only [inArena, List.filter_append, List.filter_cons, List.filter_nil, decide_eq_true_eq]
  split
  · rfl
  · rw [List.append_nil]

theorem of_forget {p q n : Nat} (hq : update live p none q = some n) : q ≠ p ∧ live q = some n := by
  by_cases hqp : q = p
  · subst hqp
    rw [update_self] at hq
    cases hq
  · rw [update_of_ne hqp] at hq
    exact ⟨hqp, hq⟩

theorem Core.giveBack (hc : Core ctx h live) {p n i : Nat} {x : Arena} (hp : live p = some n)
    (hx : h.arena ctx (block2arena p) = some x) (hd : x.desc = some (ctx, i)) :
    Core ctx ((h.setFree ctx i (h.freeList ctx i ++ [p])).setArena ctx (block2arena p) (some { x with cnt := x.cnt + 1 }))
      (update live p none) := by
  obtain ⟨y, hy, hblock, -⟩ := hc.live hp
  obtain rfl := Option.some.inj (hx.symm.trans hy)
  simp only [Block, hd] at hblock
  obtain ⟨⟨k, hk, hpk⟩, -⟩ := hblock
  refine hc.recount _ (x.cnt + 1) hx hd ?_ ?_ ?_ ?_ ?_
  · exact (hc.nodup i).append (List.nodup_singleton p) (by simpa using hc.not_free hp i)
  · rw [inArena_append_singleton, if_pos rfl, List.length_append, List.length_singleton, hc.count hx hd]
  · intro b hb
    rcases List.mem_append.1 hb with hb | hb
    · exact .inl hb
    · rw [List.mem_singleton.1 hb]
      exact .inr (mem_blocks.2 ⟨k, Nat.zero_le _, by omega, hpk⟩)
  · intro b hb
    rw [inArena_append_singleton, if_neg fun e => hb e.symm]
  · intro q m hq
    obtain ⟨hqp, hq⟩ := of_forget hq
    refine .inl ⟨hq, fun hm => ?_⟩
    rcases List.mem_append.1 hm with hm | hm
    · exact hc.not_free hq i hm
    · exact hqp (List.mem_singleton.1 hm)

theorem Core.retire (hc : Core ctx h live) {a i : Nat} {x : Arena} (hx : h.arena ctx a = some x)
    (hd : x.desc = some (ctx, i)) (hall : ∀ b ∈ blocks a i 0 (blocksPerArena i), b ∈ h.freeList ctx i) {m : Mm} {b : Bitmap}
    (hmap : ctx.Map m b) (htaken : ∀ q, h.held ctx q = true → ¬(a ≤ q ∧ q < a + 1) → ctx.Taken b q) :
    Core ctx (({ h.setFree ctx i ((h.freeList ctx i).filter (fun b => b ∉ blocks a i 0 (blocksPerArena i))) with
      mm := m }.setHeld ctx a 1 false).setArena ctx a none) live := by
  have hin : ∀ p ∈ h.freeList ctx i, block2arena p = a ↔ p ∈ blocks a i 0 (blocksPerArena i) := by
    intro p hp
    refine ⟨hc.page_blocks a p hp, fun hm => ?_⟩
    obtain ⟨j, -, hj, rfl⟩ := mem_blocks.mp hm
    exact block2arena_arena2block (by omega)
  have hmem : ∀ p, p ∈ (h.freeList ctx i).filter (fun b => b ∉ blocks a i 0 (blocksPerArena i)) ↔
      p ∈ h.freeList ctx i ∧ block2arena p ≠ a := by
    intro p
    rw [List.mem_filter, decide_eq_true_eq]
    exact and_congr_right fun hp => not_congr (hin p hp).symm
  -- the arena with a counter of zero, which nobody sees
  have hcore := hc.recount live 0 hx hd
    (l := (h.freeList ctx i).filter (fun b => b ∉ blocks a i 0 (blocksPerArena i)))
    ((hc.nodup i).filter _)
    (by
      rw [eq_comm, List.length_eq_zero_iff, List.eq_nil_iff_forall_not_mem]
      intro p hp
      rw [mem_inArena, hmem] at hp
      exact hp.1.2 hp.2)
    (fun p hp => .inl ((hmem p).1 hp).1)
    (fun c hc' => by
      rw [inArena, inArena, List.filter_filter]
      refine List.filter_congr fun p hp => ?_
      by_cases hpc : block2arena p = c
      · have : p ∉ blocks a i 0 (blocksPerArena i) := fun hm => hc' (hpc.symm.trans ((hin p hp).2 hm))
        simp [hpc, this]
      · simp [hpc])
    (fun p n hp => .inl ⟨hp, fun hm => hc.not_free hp i ((hmem p).1 hm).1⟩)
  have hpages : pages { x with cnt := 0 } = 1 := by
    rw [pages, if_neg (by rw [hd]; exact Option.some_ne_none _)]
  have hdrop := hcore.drop (a := a) (by rw [arena_setArena, if_pos rfl]) hmap
    (by rw [hpages]; exact htaken) (fun j p hp hpa => ?_) (fun p n hp hpa => ?_)
  · rw [hpages] at hdrop
    have he : ∀ g : Heap, ({ g.setArena ctx a (some { x with cnt := 0 }) with mm := m }.setHeld ctx a 1 false).setArena
        ctx a none = ({ g with mm := m }.setHeld ctx a 1 false).setArena ctx a none := by
      intro g
      simp only [setArena, setHeld, update_self, Function.update_idem]
    rwa [he] at hdrop
  · have hp' : p ∈ if j = i then (h.freeList ctx i).filter (fun b => b ∉ blocks a i 0 (blocksPerArena i))
        else h.freeList ctx j := by
      rw [← freeList_setFree]
      exact hp
    split at hp'
    · exact ((hmem p).1 hp').2 hpa
    · next hji =>
      obtain ⟨y, hy, hdy, -⟩ := hc.block hp'
      rw [hpa] at hy
      obtain rfl := Option.some.inj (hx.symm.trans hy)
      exact hji (Prod.mk.inj (Option.some.inj (hd.symm.trans hdy))).2.symm
  · obtain ⟨y, hy, hblock, -⟩ := hc.live hp
    rw [hpa] at hy hblock
    obtain rfl := Option.some.inj (hx.symm.trans hy)
    simp only [Block, hd] at hblock
    obtain ⟨⟨k, hk, hpk⟩, -⟩ := hblock
    exact hc.not_free hp i (hall p (mem_blocks.2 ⟨k, Nat.zero_le _, by omega, hpk⟩))

structure Released (ctx : Ctx) (h t : Heap) (p : Nat) : Prop where
  arena : ∀ a x, h.arena ctx a = some x → t.arena ctx a = none ∧ a = block2arena p ∨
    ∃ y, t.arena ctx a = some y ∧ y.desc = x.desc
  small : ∀ a x i, h.arena ctx a = some x → x.desc = some (ctx, i) → (t.held ctx a = false ↔
    a = block2arena p ∧ ∀ b ∈ blocks a i 0 (blocksPerArena i), b = p ∨ b ∈ h.freeList ctx i)

theorem frame_dropped (m : Mm) (a k : Nat) :
    Frame ctx h (({ h with mm := m }.setHeld ctx a k false).setArena ctx a none) := by
  have hheld : Frame ctx h ({ h with mm := m }.setHeld ctx a k false) := .of_eq rfl rfl
  refine hheld.trans (frame_setArena fun y hy => ?_)
  cases hy

theorem safe_freeLarge (hof : ctx.Of cur) (hi : Inv ctx h live) {p n : Nat} {x : Arena} (hp : live p = some n)
    (hx : h.arena ctx (block2arena p) = some x) (hd : x.desc = none) :
    ((dropPages cur ctx (block2arena p) x.cnt).on h).Safe (fun _ t => Frame ctx h t ∧
      Inv ctx t (update live p none) ∧ Released ctx h t p) := by
  obtain ⟨b, hmap, htaken⟩ := hi.map
  refine (safe_dropPages hof hmap htaken (hi.held hx) x.cnt).mono fun _ t ht => ?_
  obtain ⟨m, b', rfl, hmap', htaken'⟩ := ht
  have hpages : pages x = x.cnt := by rw [pages, if_pos hd]
  have hcore : Core ctx h (update live p none) := hi.toCore.forget fun q k hq => (of_forget hq).2
  have hfree : ∀ i, ∀ q ∈ h.freeList ctx i, block2arena q ≠ block2arena p := by
    intro i q hq e
    obtain ⟨y, hy, hdy, -⟩ := hi.block hq
    rw [e] at hy
    obtain rfl := Option.some.inj (hx.symm.trans hy)
    cases hd.symm.trans hdy
  have hlive : ∀ q k, update live p none q = some k → block2arena q ≠ block2arena p := by
    intro q k hq e
    obtain ⟨hqp, hq⟩ := of_forget hq
    obtain ⟨y, hy, hby, -⟩ := hi.live hq
    obtain ⟨z, hz, hbz, -⟩ := hi.live hp
    rw [e] at hy hby
    obtain rfl := Option.some.inj (hx.symm.trans hy)
    obtain rfl := Option.some.inj (hx.symm.trans hz)
    simp only [Block, hd] at hby hbz
    exact hqp (hby.1.trans hbz.1.symm)
  have hdrop := hcore.drop hx hmap' (by rwa [hpages]) hfree hlive
  rw [hpages] at hdrop
  refine ⟨frame_dropped m _ _, ⟨hdrop, fun {a y i} hy hdy => ?_⟩, fun a y hy => ?_, fun a y i hy hdy => ?_⟩
  · rw [arena_setArena] at hy
    split at hy
    · cases hy
    · exact hi.busy hy hdy
  · rw [arena_setArena]
    split
    · next e => exact .inl ⟨rfl, e⟩
    · exact .inr ⟨y, hy, rfl⟩
  · -- a small arena is not among the pages
    have hne : a ≠ block2arena p := by
      rintro rfl
      obtain rfl := Option.some.inj (hx.symm.trans hy)
      cases hd.symm.trans hdy
    have hya : pages y = 1 := by rw [pages, if_neg (by rw [hdy]; exact Option.some_ne_none _)]
    have hout : ¬(block2arena p ≤ a ∧ a < block2arena p + x.cnt) := by
      have := hi.toCore.apart hx hy hne.symm
      rw [hpages, hya] at this
      omega
    refine iff_of_false ?_ fun e => hne e.1
    have hsame : (({ h with mm := m }.setHeld ctx (block2arena p) x.cnt false).setArena ctx (block2arena p) none).held
        ctx a = h.held ctx a := (held_setHeld _ _ _ _ _ _).trans (if_neg hout)
    rw [hsame, hi.small hy hdy]
    decide

theorem safe_freeSmall (hof : ctx.Of cur) (hi : Inv ctx h live) {p n i cnt : Nat} {large : Bool} (hp : live p = some n)
    (hx : h.arena ctx (block2arena p) = some ⟨some (ctx, i), cnt, large⟩) {g : Heap}
    (hg : (h.setFree ctx i (h.freeList ctx i ++ [p])).setArena ctx (block2arena p)
      (some ⟨some (ctx, i), cnt + 1, large⟩) = g) :
    ((if cnt + 1 = blocksPerArena i then do
        unlinkBlocks ctx i (block2arena p) (blocksPerArena i) 0
        dropPages cur ctx (block2arena p) 1
      else pure () : Prog Heap Buf Unit).on g).Safe
      (fun _ t => Frame ctx h t ∧ Inv ctx t (update live p none) ∧ Released ctx h t p) := by
  have hcore : Core ctx g (update live p none) := hg ▸ hi.toCore.giveBack hp hx rfl
  have hframe : Frame ctx h g := hg ▸ (frame_setFree _ _).trans (frame_setArena (own_desc rfl))
  have hgp : g.arena ctx (block2arena p) = some ⟨some (ctx, i), cnt + 1, large⟩ := by
    rw [← hg, arena_setArena, if_pos rfl]
  have hgo : ∀ a, a ≠ block2arena p → g.arena ctx a = h.arena ctx a := by
    intro a hne
    rw [← hg, arena_setArena, if_neg hne]
    rfl
  have hlist : g.freeList ctx i = h.freeList ctx i ++ [p] := by
    rw [← hg]
    exact (freeList_setFree _ _ _ _ _).trans (if_pos rfl)
  have hheld : g.held = h.held := by
    rw [← hg]
    rfl
  have hcount : cnt + 1 = (inArena (block2arena p) (g.freeList ctx i)).length := hcore.count hgp rfl
  have hbound := length_inArena_le (hcore.nodup i) (hcore.page_blocks (block2arena p))
  have hall := length_inArena_eq_iff (hcore.nodup i) (hcore.page_blocks (block2arena p))
  rw [← hcount] at hbound hall
  have hfree : (∀ b ∈ blocks (block2arena p) i 0 (blocksPerArena i), b ∈ g.freeList ctx i) ↔
      ∀ b ∈ blocks (block2arena p) i 0 (blocksPerArena i), b = p ∨ b ∈ h.freeList ctx i := by
    simp only [hlist, List.mem_append, List.mem_singleton, or_comm]
  have hsame : ∀ {a y j}, h.arena ctx a = some y → y.desc = some (ctx, j) → a = block2arena p → j = i := by
    rintro a y j hy hdy rfl
    obtain rfl := Option.some.inj (hx.symm.trans hy)
    exact (Prod.mk.inj (Option.some.inj hdy)).2.symm
  rw [ite_on]
  split
  · next hfull =>
    rw [bind_on, Res.safe_bind]
    refine (safe_unlinkBlocks _ _ (hcore.nodup i) (hall.1 hfull)).mono fun _ u hu => ?_
    subst hu
    obtain ⟨b₁, hmap₁, htaken₁⟩ := hcore.map
    refine (safe_dropPages (h := g.setFree ctx i _) hof hmap₁ htaken₁ (hcore.held hgp) 1).mono fun _ w hw => ?_
    obtain ⟨m, b₂, rfl, hmap₂, htaken₂⟩ := hw
    have hret := hcore.retire hgp rfl (hall.1 hfull) hmap₂ htaken₂
    refine ⟨(hframe.trans (frame_setFree _ _)).trans (frame_dropped m _ _), ⟨hret, fun {a y j} hy hdy => ?_⟩,
      fun a y hy => ?_, fun a y j hy hdy => ?_⟩
    · rw [arena_setArena] at hy
      split at hy
      · cases hy
      · next hne => exact hi.busy ((hgo a hne).symm.trans hy) hdy
    · rw [arena_setArena]
      split
      · next e => exact .inl ⟨rfl, e⟩
      · next hne => exact .inr ⟨y, (hgo a hne).trans hy, rfl⟩
    · rw [show ∀ k : Heap, (k.setArena ctx (block2arena p) none).held = k.held from fun _ => rfl, held_setHeld]
      by_cases hne : a = block2arena p
      · obtain rfl := hsame hy hdy hne
        subst hne
        exact iff_of_true (if_pos (by omega)) ⟨rfl, hfree.1 (hall.1 hfull)⟩
      · refine iff_of_false ?_ fun e => hne e.1
        rw [if_neg (by omega)]
        have : g.held ctx a = true := hheld ▸ hi.small hy hdy
        exact fun e => Bool.false_ne_true (e.symm.trans this)
  · next hfull =>
    rw [pure_on, Res.safe_done]
    refine ⟨hframe, ⟨hcore, fun {a y j} hy hdy => ?_⟩, fun a y hy => ?_, fun a y j hy hdy => ?_⟩
    · by_cases hne : a = block2arena p
      · subst hne
        obtain rfl := Option.some.inj (hgp.symm.trans hy)
        obtain rfl : i = j := (Prod.mk.inj (Option.some.inj hdy)).2
        dsimp only
        omega
      · exact hi.busy ((hgo a hne).symm.trans hy) hdy
    · by_cases hne : a = block2arena p
      · subst hne
        obtain rfl := Option.some.inj (hx.symm.trans hy)
        exact .inr ⟨_, hgp, rfl⟩
      · exact .inr ⟨y, (hgo a hne).trans hy, rfl⟩
    · rw [hheld, hi.small hy hdy]
      refine iff_of_false (by decide) ?_
      rintro ⟨e, hblocks⟩
      obtain rfl := hsame hy hdy e
      subst e
      exact hfull (hall.2 (hfree.2 hblocks))

theorem safe_sysFree (hr : Runs ctx cur h) (hi : Inv ctx h live) {p n : Nat} (hp : live p = some n)
    (hown : Own ctx h p) : ((sysFree cur p).on h).Safe (fun _ t => Frame ctx h t ∧
      Inv ctx t (update live p none) ∧ Released ctx h t p) := by
  have hof := hr.of
  obtain ⟨⟨desc, cnt, large⟩, hx, -, -⟩ := hi.live hp
  obtain ⟨b, hmap, htaken⟩ := hi.map
  obtain ⟨hlo, -, -⟩ := htaken _ (hi.held hx)
  have hle : 4096 * ctx.start ≤ p := by
    rw [block2arena] at hlo
    omega
  have hpos := ctx.start_pos
  simp only [sysFree, bind_on, Res.safe_bind, safe_assert, decide_eq_true_eq]
  refine ⟨by omega, (safe_context hr).mono fun c t ht => ?_⟩
  obtain ⟨rfl, rfl⟩ := ht
  refine ⟨fun e => ?_, ?_⟩
  · subst e
    exact hle
  simp only [get_on, Res.safe_done, hx]
  cases desc with
  | none =>
    rw [ite_on, if_pos (hi.large hx rfl).1]
    exact safe_freeLarge hof hi hp hx rfl
  | some d =>
    obtain ⟨o, i⟩ := d
    obtain rfl : o = c := hown _ (o, i) hx rfl
    simp only [bind_on, modify_on, Res.safe_bind, Res.safe_done]
    exact safe_freeSmall hof hi hp hx rfl

end Calls

end Heap

end TrueOs
