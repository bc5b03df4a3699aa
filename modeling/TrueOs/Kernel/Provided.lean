import TrueOs.Kernel.Allocator
import TrueOs.Kernel.Exhausted

/-! When `sys_malloc` returns, with `ASSERT` as it is built. -/

namespace TrueOs

namespace Heap

open Prog Mm

def pagesFor (size : Nat) : Nat := if 1024 < size then divRoundUp (size + 12) 4096 else 1

/-- A request that is turned away at once, or served from a free list, or for which there are
pages. -/
def Provided (ctx : Ctx) (h : Heap) (size : Nat) : Prop :=
  size = 0 ∨ poolSize < size ∨ size ≤ 1024 ∧ h.freeList ctx (findDesc size 7 0) ≠ [] ∨
    ∃ b, ctx.bitmap h.mm = some b ∧ Ample ctx.pf (pagesFor size) h.mm b

structure Proper (ctx : Ctx) (h : Heap) : Prop where
  neat : ∃ b, Neat ctx h.mm b
  user : ∀ p, ctx = .user p → h.held ctx (ctx.start + 8 * ctx.len - 1) = false ∧
    ∀ q, h.held ctx q = true → ∃ f, h.mm.frameOf q = some f ∧ PoolFlags.user.start ≤ f

/-- The runs of `sys_malloc` and `sys_free` on one heap. -/
inductive Usable (ctx : Ctx) : Heap → (Nat → Option Nat) → Prop
  | fresh {h : Heap} (hf : Fresh ctx h) (hp : Proper ctx h) : Usable ctx h (fun _ => none)
  | malloc {h t : Heap} {live : Nat → Option Nat} {cur size p : Nat} (hu : Usable ctx h live) (hr : Runs ctx cur h)
      (hrun : ((sysMalloc cur size).on h).run = .ok (some p, t)) : Usable ctx t (Function.update live p (some size))
  | noMemory {h t : Heap} {live : Nat → Option Nat} {cur size : Nat} (hu : Usable ctx h live) (hr : Runs ctx cur h)
      (hrun : ((sysMalloc cur size).on h).run = .ok (none, t)) : Usable ctx t live
  | free {h t : Heap} {live : Nat → Option Nat} {cur p n : Nat} (hu : Usable ctx h live) (hr : Runs ctx cur h)
      (hp : live p = some n) (hrun : ((sysFree cur p).on h).run = .ok ((), t)) : Usable ctx t (Function.update live p none)
  | other {h t : Heap} {live : Nat → Option Nat} (hu : Usable ctx h live) (he : Elsewhere ctx h t) (hp : Proper ctx t) :
      Usable ctx t live

variable {ctx : Ctx} {h t : Heap} {live : Nat → Option Nat} {cur : Nat}

theorem Usable.reach (hu : Usable ctx h live) : Reach ctx h live := by
  induction hu with
  | fresh hf _ => exact .fresh hf
  | malloc _ hr hrun ih => exact .step ih (.malloc hr hrun)
  | noMemory _ hr hrun ih => exact .step ih (.noMemory hr hrun)
  | free _ hr hp hrun ih => exact .step ih (.free hr hp hrun)
  | other _ he _ ih => exact .step ih (.other he)

theorem Proper.congr (hp : Proper ctx h) (hmm : t.mm = h.mm) (hheld : t.held = h.held) : Proper ctx t := by
  refine ⟨?_, ?_⟩
  · rw [hmm]
    exact hp.neat
  · rw [hmm, hheld]
    exact hp.user

section Malloc

variable {F : Stop → Prop}

theorem ends_ofMm {α : Type} {c : Prog Mm Buf α} {Q : α → Mm → Prop} (hc : (c.on h.mm).Ends F Q) :
    ((ofMm c).on h).Ends F (fun r t => ∃ m, t = { h with mm := m } ∧ Q r m) := by
  rcases hc.cases_run with ⟨a, m, hrun, hQ⟩ | ⟨e, hrun, hF⟩
  · simp only [ofMm, hrun]
    exact ⟨m, rfl, hQ⟩
  · simp only [ofMm, hrun]
    exact hF

theorem ends_takePages (hof : ctx.Of cur) (hp : Proper ctx h) {b : Bitmap} (hb : Neat ctx h.mm b) {n : Nat} (hn : 1 ≤ n) :
    ((takePages cur ctx n).on h).Ends (fun e => e = .assert ∧ ¬Ample ctx.pf n h.mm b ∨ b.Overrun n)
      (fun _ t => Ample ctx.pf n h.mm b ∧ Proper ctx t) := by
  rw [takePages, bind_on, Res.ends_bind]
  refine (ends_ofMm (ends_mallocPage hof hb hn)).mono fun r t ht => ?_
  obtain ⟨m, rfl, hample, ⟨rfl, rfl⟩ | ⟨i, b', rfl, hfit, hneat, hback⟩⟩ := ht
  · exact ⟨hample, hp⟩
  · refine ⟨hample, ⟨b', hneat⟩, fun p hctx => ⟨?_, fun q hq => ?_⟩⟩
    · subst hctx
      have hbelow := hb.below_stack hfit
      refine (held_setHeld _ _ _ _ _ _).trans ?_
      rw [if_neg (by omega)]
      exact (hp.user p rfl).1
    · obtain ⟨g, hg, -⟩ := hback.frames
      have hq' := (held_setHeld _ _ _ _ _ _).symm.trans hq
      by_cases hin : ctx.start + i ≤ q ∧ q < ctx.start + i + n
      · refine ⟨ctx.pf.start + g q, (hg q hin.1 hin.2).2.2, ?_⟩
        rw [hctx]
        exact Nat.le_add_right _ _
      · rw [if_neg hin] at hq'
        obtain ⟨f, hf, hge⟩ := (hp.user p hctx).2 q hq'
        exact ⟨f, (hback.others q hin).trans hf, hge⟩

theorem ends_popBlock {i b : Nat} {rest : List Nat} {x : Arena} (hF : h.freeList ctx i = b :: rest)
    (hx : h.arena ctx (block2arena b) = some x) {Q : Option Nat → Heap → Prop}
    (hQ : ∀ t : Heap, t.mm = h.mm → t.held = h.held → Q (some b) t) : ((popBlock ctx i).on h).Ends F Q := by
  have hx' : (h.setFree ctx i rest).arena ctx (block2arena b) = some x := hx
  simp only [popBlock, bind_on, Res.ends_bind, get_on, Res.ends_done, hF, modify_on, hx', pure_on]
  exact hQ _ rfl rfl

theorem findDesc_le (size left descIdx : Nat) : findDesc size left descIdx ≤ descIdx + left := by
  induction left generalizing descIdx with
  | zero => exact le_rfl
  | succ left ih =>
    rw [findDesc]
    split
    · omega
    · have := ih (descIdx + 1)
      omega

theorem exists_block (size a : Nat) : ∃ b rest, blocks a (findDesc size 7 0) 0 (blocksPerArena (findDesc size 7 0)) = b :: rest := by
  have hpos : ∀ i ≤ 7, 0 < blocksPerArena i := by decide
  refine List.exists_cons_of_ne_nil fun hnil => ?_
  have hlen := length_blocks a (findDesc size 7 0) 0 (blocksPerArena (findDesc size 7 0))
  have := hpos _ (findDesc_le size 7 0)
  rw [hnil, List.length_nil] at hlen
  omega

theorem provided_iff {b : Bitmap} (hb : Neat ctx h.mm b) {size : Nat} (hpos : 0 < size) (hle : size ≤ poolSize)
    (hlist : size ≤ 1024 → h.freeList ctx (findDesc size 7 0) = []) :
    Provided ctx h size ↔ Ample ctx.pf (pagesFor size) h.mm b := by
  constructor
  · rintro (hs | hs | ⟨hs, hne⟩ | ⟨c, hc, ha⟩)
    · omega
    · omega
    · exact absurd (hlist hs) hne
    · obtain rfl := Option.some.inj (hb.map.1.symm.trans hc)
      exact ha
  · exact fun ha => .inr (.inr (.inr ⟨b, hb.map.1, ha⟩))

theorem ends_sysMalloc (hr : Runs ctx cur h) (hi : Inv ctx h live) (hp : Proper ctx h) {b : Bitmap} (hb : Neat ctx h.mm b)
    (size : Nat) : ((sysMalloc cur size).on h).Ends
      (fun e => e = .assert ∧ ¬Provided ctx h size ∨ b.Overrun (pagesFor size))
      (fun _ t => Provided ctx h size ∧ Proper ctx t) := by
  have hof := hr.of
  rw [sysMalloc, bind_on, Res.ends_bind]
  refine ((sat_context hr).ends False.elim).mono fun c t ht => ?_
  obtain ⟨rfl, rfl⟩ := ht
  rw [ite_on]
  split
  · next hs =>
    refine ⟨?_, hp⟩
    by_cases h0 : size = 0
    · exact .inl h0
    · exact .inr (.inl (by omega))
  · next hs =>
    have hpos : 0 < size := by omega
    have hle : size ≤ poolSize := by omega
    rw [ite_on]
    split
    · next hlt =>
      have hpages : pagesFor size = divRoundUp (size + 12) 4096 := if_pos hlt
      have hn : 1 ≤ divRoundUp (size + 12) 4096 := by
        rw [divRoundUp]
        omega
      rw [bind_on, Res.ends_bind, provided_iff hb hpos hle fun hs => absurd hs (by omega), hpages]
      refine (ends_takePages hof hp hb hn).mono fun r u hu => ?_
      cases r with
      | none => exact hu
      | some a => exact ⟨hu.1, hu.2.congr rfl rfl⟩
    · next hlt =>
      have hpages : pagesFor size = 1 := if_neg hlt
      rw [bind_on, Res.ends_bind, get_on, Res.ends_done, ite_on]
      split
      · next hempty =>
        rw [bind_on, Res.ends_bind, provided_iff hb hpos hle fun _ => hempty, hpages]
        refine ((ends_takePages hof hp hb le_rfl).and_sat (safe_takePages hof hi.toCore 1).sat).mono fun r u hu => ?_
        obtain ⟨⟨hample, hproper⟩, -, hfree, -⟩ := hu
        cases r with
        | none => exact ⟨hample, hproper⟩
        | some v =>
          have hnil : u.freeList c (findDesc size 7 0) = [] := by rw [hfree, hempty]
          obtain ⟨p, rest, hblocks⟩ := exists_block size v
          dsimp only
          rw [bind_on, Res.ends_bind, modify_on, Res.ends_done, bind_on, Res.ends_bind]
          refine ((sat_splitArena _ 0 fun q _ hq => ?_).ends False.elim).mono fun _ w hw => ?_
          · have hq' : q ∈ u.freeList c (findDesc size 7 0) := hq
            rw [hnil] at hq'
            cases hq'
          · have hpv : block2arena p = v := by
              obtain ⟨j, -, hj, rfl⟩ := mem_blocks.mp (by rw [hblocks]; exact List.mem_cons_self)
              exact block2arena_arena2block (by omega)
            have hF : w.freeList c (findDesc size 7 0) = p :: rest := by
              rw [hw, freeList_setFree, if_pos rfl, ← hblocks]
              exact congrArg (· ++ _) hnil
            have hx : ∃ x, w.arena c (block2arena p) = some x := by
              rw [hw, hpv]
              exact ⟨_, (arena_setArena _ _ _ _ _).trans (if_pos rfl)⟩
            obtain ⟨x, hx⟩ := hx
            have hproper' : Proper c w := by
              rw [hw]
              exact hproper.congr rfl rfl
            exact ends_popBlock hF hx fun t hmm hheld => ⟨hample, hproper'.congr hmm hheld⟩
      · next hne =>
        obtain ⟨p, rest, hF⟩ := List.exists_cons_of_ne_nil hne
        obtain ⟨x, hx, -⟩ := hi.block (i := findDesc size 7 0) (b := p) (by rw [hF]; exact List.mem_cons_self)
        refine ends_popBlock hF hx fun t hmm hheld => ⟨.inr (.inr (.inl ⟨by omega, hne⟩)), hp.congr hmm hheld⟩

end Malloc

section Free

theorem sat_dropPages (hof : ctx.Of cur) (hp : Proper ctx h) {b : Bitmap} (htaken : ∀ q, h.held ctx q = true → ctx.Taken b q)
    {a n : Nat} (hn : 1 ≤ n) (hheld : ∀ q, a ≤ q → q < a + n → h.held ctx q = true) :
    ((dropPages cur ctx a n).on h).Sat True (fun _ t => Proper ctx t) := by
  obtain ⟨c, hc⟩ := hp.neat
  have hlo := (htaken a (hheld a le_rfl (by omega))).1
  have hhi := (htaken (a + n - 1) (hheld _ (by omega) (by omega))).2.1
  have huser : ∀ p, ctx = .user p → a + n < ctx.start + 8 * ctx.len ∧
      ∃ f, h.mm.frameOf a = some f ∧ PoolFlags.user.start ≤ f := by
    intro p hctx
    obtain ⟨hstack, hback⟩ := hp.user p hctx
    refine ⟨?_, hback a (hheld a le_rfl (by omega))⟩
    by_contra hc
    rw [hheld _ (by omega) (by omega)] at hstack
    cases hstack
  rw [dropPages, sat_bind]
  refine (safe_ofMm (sat_mfreePage hof hc hn hlo (by omega) huser)).sat.mono fun _ t ht => ?_
  obtain ⟨m, rfl, b', hneat, hframes⟩ := ht
  refine ⟨⟨b', hneat⟩, fun p hctx => ?_⟩
  obtain ⟨hstack, hback⟩ := hp.user p hctx
  have hset : ∀ q, ((({ h with mm := m } : Heap).setHeld ctx a n false).setArena ctx a none).held ctx q =
      if a ≤ q ∧ q < a + n then false else h.held ctx q := fun q => held_setHeld _ _ _ _ _ _
  refine ⟨?_, fun q hq => ?_⟩
  · rw [hset, hstack]
    exact ite_self _
  · rw [hset] at hq
    split at hq
    · cases hq
    · next hout =>
      obtain ⟨f, hf, hge⟩ := hback q hq
      exact ⟨f, (hframes q).trans ((if_neg hout).trans hf), hge⟩

def SamePages (h t : Heap) : Prop := t.mm = h.mm ∧ t.held = h.held

instance : IsPreorder Heap SamePages where
  refl _ := ⟨rfl, rfl⟩
  trans _ _ _ h h' := ⟨h'.1.trans h.1, h'.2.trans h.2⟩

theorem keeps_unlinkBlocks (o : Ctx) (i a left blockIdx : Nat) : Keeps SamePages (unlinkBlocks o i a left blockIdx) := by
  induction left generalizing blockIdx with
  | zero => exact keeps_pure _
  | succ left ih =>
    exact .bind keeps_get fun _ => .bind (keeps_assert _) fun _ => .bind (keeps_modify fun _ => ⟨rfl, rfl⟩) fun _ => ih _

theorem sat_sysFree (hr : Runs ctx cur h) (hi : Inv ctx h live) (hp : Proper ctx h) {p n : Nat} (hlive : live p = some n) :
    ((sysFree cur p).on h).Sat True (fun _ t => Proper ctx t) := by
  have hof := hr.of
  obtain ⟨⟨desc, cnt, large⟩, hx, -, -⟩ := hi.live hlive
  obtain ⟨b, hmap, htaken⟩ := hi.map
  simp only [sysFree, sat_bind, sat_assert]
  refine ⟨fun _ => (safe_context hr).sat.mono fun c t ht => ⟨fun _ => ?_, fun _ => trivial⟩, fun _ => trivial⟩
  obtain ⟨rfl, rfl⟩ := ht
  simp only [sat_get, hx]
  cases desc with
  | none =>
    obtain ⟨hlarge, hcnt, hpages⟩ := hi.large hx rfl
    rw [ite_on, if_pos hlarge]
    exact sat_dropPages hof hp htaken hcnt fun q h₁ h₂ => (hpages q h₁ h₂).1
  | some d =>
    obtain ⟨o, i⟩ := d
    simp only [bind_on, modify_on, Res.sat_bind, Res.sat_done, ite_on]
    split
    · rw [Res.sat_bind]
      refine (keeps_unlinkBlocks _ _ _ _ _ _).mono fun _ u hu => ?_
      have hheld : u.held = t.held := hu.2
      refine sat_dropPages (b := b) hof (hp.congr hu.1 hheld) (fun q hq => htaken q (hheld ▸ hq)) le_rfl fun q h₁ h₂ => ?_
      rw [hheld, show q = block2arena p by omega]
      exact hi.held hx
    · exact hp.congr rfl rfl

end Free

theorem Usable.proper (hu : Usable ctx h live) : Proper ctx h := by
  induction hu with
  | fresh _ hp => exact hp
  | malloc hu hr hrun ih =>
    obtain ⟨b, hb⟩ := ih.neat
    exact ((ends_sysMalloc hr hu.reach.inv.1 ih hb _).of_run hrun).2
  | noMemory hu hr hrun ih =>
    obtain ⟨b, hb⟩ := ih.neat
    exact ((ends_sysMalloc hr hu.reach.inv.1 ih hb _).of_run hrun).2
  | free hu hr hp hrun ih => exact (sat_sysFree hr hu.reach.inv.1 ih hp).of_run hrun
  | other _ _ hp _ => exact hp

/-- `sys_malloc` fails an assertion exactly if nothing is provided for the request, and
returns otherwise.  The kernel's map has no stack at its end, so there the scan may run over. -/
theorem sys_malloc_asserts_iff (hu : Usable ctx h live) (hr : Runs ctx cur h) (size : Nat)
    (hin : ctx = .kernel → ¬h.mm.kernelVaddr.Overrun (pagesFor size)) :
    (((sysMalloc cur size).on h).run = .error .assert ↔ ¬Provided ctx h size) ∧
      (Provided ctx h size → ∃ r t, ((sysMalloc cur size).on h).run = .ok (r, t) ∧
        ∀ p ∈ r, live p = none ∧ Contract ctx t (Function.update live p (some size))) := by
  have hi := hu.reach.inv.1
  obtain ⟨b, hb⟩ := hu.proper.neat
  have hover : ¬b.Overrun (pagesFor size) := by
    cases ctx with
    | kernel =>
      obtain rfl : h.mm.kernelVaddr = b := Option.some.inj hb.map.1
      exact hin rfl
    | user p => exact hb.not_overrun
  have hends := (ends_sysMalloc hr hi hu.proper hb size).and_sat (safe_sysMalloc hr hi size).sat
  refine Res.Ends.asserts_iff (hends.mono fun r t ht => ⟨ht.1.1, fun p hp => ?_⟩) hover
  obtain ⟨hnone, hinv, -⟩ := ht.2.2.2.2 p hp
  exact ⟨hnone, hinv.contract⟩

section Example

theorem proper_untouched : Proper .kernel untouched := by
  refine ⟨⟨_, ⟨rfl, rfl⟩, fun j _ _ => ?_, fun p hp => (by cases hp)⟩, fun p hp => (by cases hp)⟩
  rw [frameOf]
  split <;> rfl

/-- A hundred bytes of an empty heap. -/
theorem hundred_provided : ∃ r t, ((sysMalloc 0 100).on untouched).run = .ok (r, t) := by
  have hample : Ample .kernel 1 untouched.mm ⟨480, fun _ => 0⟩ := by
    refine ⟨by decide, ⟨0, by decide, by decide⟩, fun i _ => ?_, fun i _ hpf => (by cases hpf)⟩
    rw [show (untouched.mm.pool .kernel).used = 0 from Ndebug.bare_used]
    decide
  obtain ⟨-, hok⟩ := sys_malloc_asserts_iff (.fresh fresh_untouched proper_untouched) ⟨_, rfl, rfl⟩ 100
    fun _ ho => absurd ho.many (by decide)
  obtain ⟨r, t, hrun, -⟩ := hok (.inr (.inr (.inr ⟨_, rfl, hample⟩)))
  exact ⟨r, t, hrun⟩

/-- A request of the size of the pool passes the test of the size.  With the header it is one
page too many. -/
theorem pool_size_asserts : Usable .kernel untouched (fun _ => none) ∧ Runs .kernel 0 untouched ∧
    ((sysMalloc 0 poolSize).on untouched).run = .error .assert :=
  ⟨.fresh fresh_untouched proper_untouched, ⟨_, rfl, rfl⟩, run_of_stops (by decide)⟩

end Example

end Heap

end TrueOs
