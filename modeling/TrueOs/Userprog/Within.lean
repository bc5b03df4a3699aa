import TrueOs.Userprog.Exec
import TrueOs.Userprog.Frames

/-! What a process does to memory while it only touches pages of its own. -/

namespace TrueOs.Mm

open Function (update update_self update_of_ne)
open Prog

/-- The frame behind page `v` of task `p`, with its bytes. -/
def view (m : Mm) (p v : Nat) : Option (Nat × Buf) := (m.mapped p v).map (fun f => (f, m.phys f))

def byteAt (m : Mm) (p addr : Nat) : Option UInt8 := (m.view p (addr / 4096)).map (fun y => y.2 (addr % 4096))

/-- From `s` to `t` nothing has changed but user pages of process `p`. -/
structure Within (p : Nat) (s t : Mm) : Prop where
  inv : Inv t
  live : t.live = s.live
  active : t.active = s.active
  kernelVaddr : t.kernelVaddr = s.kernelVaddr
  kpte : t.kpte = s.kpte
  phys : ∀ f < PoolFlags.user.start, t.phys f = s.phys f
  info : ∀ q, q ≠ p → (t.tasks q).map Task.info = (s.tasks q).map Task.info
  views : ∀ q ∈ s.live, q ≠ p → t.view q = s.view q
  outside : ∀ v, ¬(userVaddrStart ≤ v ∧ v < kernelBase) → t.view p v = s.view p v

variable {p v : Nat} {s t : Mm}

theorem Within.refl (h : Inv s) : Within p s s :=
  ⟨h, rfl, rfl, rfl, rfl, fun _ _ => rfl, fun _ _ => rfl, fun _ _ _ => rfl, fun _ _ => rfl⟩

theorem Within.trans {u : Mm} (h : Within p s t) (h' : Within p t u) : Within p s u where
  inv := h'.inv
  live := h'.live.trans h.live
  active := h'.active.trans h.active
  kernelVaddr := h'.kernelVaddr.trans h.kernelVaddr
  kpte := h'.kpte.trans h.kpte
  phys f hf := (h'.phys f hf).trans (h.phys f hf)
  info q hq := (h'.info q hq).trans (h.info q hq)
  views q hq hne := (h'.views q (h.live ▸ hq) hne).trans (h.views q hq hne)
  outside v hv := (h'.outside v hv).trans (h.outside v hv)

theorem Within.runs (h : Within p s t) (hp : p ∈ s.live) (ha : s.active = p) :
    Inv t ∧ p ∈ t.live ∧ t.active = p := ⟨h.inv, h.live ▸ hp, h.active.trans ha⟩

theorem view_isSome (m : Mm) (p v : Nat) : (m.view p v).isSome = (m.mapped p v).isSome := by
  rw [view, Option.isSome_map]

section Pages

theorem Beside.view_eq (h : Beside p s t) {q w : Nat} (hm : t.mapped q w = s.mapped q w) : t.view q w = s.view q w := by
  rw [view, view, hm, h.phys]

theorem Beside.within (h : Beside p s t) (hlo : userVaddrStart ≤ v) (hhi : v < kernelBase)
    (hm : ∀ q ∈ s.live, ∀ w, ¬(q = p ∧ w = v) → t.mapped q w = s.mapped q w) (hp : p ∈ s.live) : Within p s t where
  inv := h.inv
  live := h.live
  active := h.active
  kernelVaddr := h.kernelVaddr
  kpte := h.kpte
  phys f _ := congrFun h.phys f
  info := h.info
  views q hq hne := funext fun w => h.view_eq (hm q hq w fun he => hne he.1)
  outside w hw := h.view_eq (hm p hp w fun he => hw (he.2 ▸ ⟨hlo, hhi⟩))

theorem Beside.view_put (h : Beside p s t) (hp : p ∈ s.live) (hm : Mapped s.live p v 1 s t) :
    ∃ y, t.view p = update (s.view p) v (some y) := by
  obtain ⟨y, hy⟩ := Option.isSome_iff_exists.mp ((view_isSome t p v).trans (hm.inside v le_rfl (by omega)))
  refine ⟨y, funext fun w => ?_⟩
  by_cases hw : w = v
  · rw [hw, update_self, hy]
  · rw [update_of_ne hw]
    exact h.view_eq (hm.outside p hp w (by omega))

theorem sat_getAPage_view (h : Inv s) (hp : p ∈ s.live) (ha : s.active = p) (hlo : userVaddrStart ≤ v)
    (hhi : v < kernelBase) : ((getAPage p v).on s).Sat True (fun r t => r.isSome = true ∧
      Within p s t ∧ ∃ y, t.view p = update (s.view p) v (some y)) := by
  refine (sat_getAPage h hp ha hlo hhi).mono fun r t ht => ?_
  obtain ⟨hr, hb, hm⟩ := ht
  refine ⟨hr, ?_, hb.view_put hp hm⟩
  exact hb.within hlo hhi (fun q hq w hw => hm.outside q hq w (by omega)) hp

theorem sat_mallocPage_view (h : Inv s) (hp : p ∈ s.live) (ha : s.active = p) :
    ((mallocPage p .user 1).on s).Sat True (fun r t => ∃ v, r = some v ∧ userVaddrStart ≤ v ∧
      v < kernelBase ∧ s.view p v = none ∧ Within p s t ∧ ∃ y, t.view p = update (s.view p) v (some y)) := by
  refine (sat_mallocUser h hp ha 1).mono fun r t ht => ?_
  obtain ⟨v, rfl⟩ := Option.isSome_iff_exists.mp (ht.1 rfl)
  obtain ⟨hb, hlo, hhi, hnone, hm⟩ := ht.2 v rfl
  refine ⟨v, rfl, hlo, by omega, ?_, hb.within hlo (by omega) (fun q hq w hw => hm.outside q hq w (by omega)) hp,
    hb.view_put hp hm⟩
  rw [view, hnone v le_rfl (by omega), Option.map_none]

theorem sat_mfreePage_view (h : Inv s) (hp : p ∈ s.live) (ha : s.active = p) (hlo : userVaddrStart ≤ v)
    (hhi : v < kernelBase) (hv : (s.view p v).isSome = true) :
    ((mfreePage p .user v 1).on s).Sat True (fun _ t => Within p s t ∧
      t.view p = update (s.view p) v none) := by
  rw [view_isSome] at hv
  have hin : ∀ w, v ≤ w → w < v + 1 → ∃ f, s.mapped p w = some f := fun w hw hw' => by
    obtain rfl : w = v := by omega
    exact Option.isSome_iff_exists.mp hv
  refine (sat_mfreeUser h hp ha hlo (by omega) hin).mono fun _ t ht => ?_
  obtain ⟨hb, hm⟩ := ht
  have hother : ∀ q ∈ s.live, ∀ w, ¬(q = p ∧ w = v) → t.mapped q w = s.mapped q w := fun q hq w hw => by
    rw [hm q hq, if_neg (by omega)]
  refine ⟨hb.within hlo hhi hother hp, funext fun w => ?_⟩
  by_cases hw : w = v
  · rw [hw, update_self, view, hm p hp, if_pos ⟨rfl, le_rfl, by omega⟩, Option.map_none]
  · rw [update_of_ne hw]
    exact hb.view_eq (hother p hp w fun he => hw he.2)

theorem sat_pagePresent (ha : s.active = p) (hhi : v < kernelBase) : ((pagePresent v).on s).Sat True
    (fun r t => t = s ∧ r = (s.view p v).isSome) := by
  rw [view_isSome]
  simp only [pagePresent, sat_bind, sat_get, ite_on, activeTable_eq, ha]
  split
  · next hnone =>
    refine ⟨rfl, ?_⟩
    rw [mapped, hnone.2]
    rfl
  · rw [sat_bind]
    refine (sat_getPte_user hhi ha).mono fun e t ht => ?_
    obtain ⟨rfl, table, hd, rfl⟩ := ht
    refine ⟨rfl, ?_⟩
    rw [mapped, hd, Option.bind_some, Pte.mapped]
    split
    · next he => rw [he]; rfl
    · next he => rw [Bool.eq_false_iff.mpr he]; rfl

end Pages

section Bytes

theorem sat_writeByte (h : Inv s) (hp : p ∈ s.live) (ha : s.active = p) {addr f : Nat} {b : Buf} (c : UInt8)
    (hlo : userVaddrStart ≤ addr / 4096) (hhi : addr / 4096 < kernelBase) (hv : s.view p (addr / 4096) = some (f, b)) :
    ((writeByte addr c).on s).Sat True (fun _ t => Within p s t ∧
      t.view p = update (s.view p) (addr / 4096) (some (f, update b (addr % 4096) c))) := by
  generalize hpage : addr / 4096 = v at hlo hhi hv
  obtain ⟨g, hf, hb⟩ := Option.map_eq_some_iff.mp hv
  obtain ⟨rfl, rfl⟩ := Prod.mk.inj hb
  have hholds : UserHolds s.live s (p, v) g := ⟨hp, hf⟩
  have hge : PoolFlags.user.start ≤ g := (h.ok.user.used hholds).1
  rw [writeByte, hpage, sat_bind]
  refine (sat_readPage_user hhi ha).mono fun b t ht => ?_
  obtain ⟨rfl, hb⟩ := ht
  rw [content, hf, Option.map_some] at hb
  obtain rfl := Option.some.inj hb
  refine sat_writePage_user hhi ha hf _ ?_
  have hview : ∀ q ∈ t.live, ∀ w, ¬(q = p ∧ w = v) →
      ({ t with phys := update t.phys g (update (t.phys g) (addr % 4096) c) } : Mm).view q w = t.view q w := by
    intro q hq w hw
    change (t.mapped q w).map _ = (t.mapped q w).map _
    cases hm : t.mapped q w with
    | none => rfl
    | some g' =>
      have hne : g' ≠ g := by
        rintro rfl
        have := h.ok.user.inj (o := (q, w)) ⟨hq, hm⟩ hholds
        exact hw ⟨congrArg Prod.fst this, congrArg Prod.snd this⟩
      simp only [Option.map_some, update_of_ne hne]
  refine ⟨⟨⟨?_, h.agree⟩, rfl, rfl, rfl, rfl, fun f' hf' => ?_, fun _ _ => rfl, fun q hq hne => ?_, fun w hw => ?_⟩, ?_⟩
  · exact h.ok.withActive _ t.active
  · exact update_of_ne (by omega) _ _
  · exact funext fun w => hview q hq w fun he => hne he.1
  · exact hview p hp w fun he => hw (he.2 ▸ ⟨hlo, hhi⟩)
  · funext w
    by_cases hw : w = v
    · rw [hw, update_self]
      change (t.mapped p v).map _ = _
      simp only [hf, Option.map_some, update_self]
    · rw [update_of_ne hw]
      exact hview p hp w fun he => hw he.2

def Spans (vaddr n w : Nat) : Prop := 0 < n ∧ vaddr / 4096 ≤ w ∧ w * 4096 < vaddr + n

structure Written (p vaddr n pos : Nat) (src : Buf) (s t : Mm) : Prop extends Within p s t where
  pages : ∀ w, (t.view p w).isSome = (s.view p w).isSome
  other : ∀ w, ¬Spans vaddr n w → t.view p w = s.view p w
  bytes : ∀ x, t.byteAt p x = if vaddr ≤ x ∧ x < vaddr + n then some (src (pos + (x - vaddr))) else s.byteAt p x

theorem sat_copyBytesTo (src : Buf) (pos : Nat) {n vaddr : Nat} (h : Inv s) (hp : p ∈ s.live) (ha : s.active = p)
    (hlo : userVaddrStart * 4096 ≤ vaddr) (hhi : vaddr + n ≤ kernelBase * 4096)
    (hm : ∀ w, Spans vaddr n w → (s.view p w).isSome = true) :
    ((copyBytesTo src n vaddr pos).on s).Sat True (fun _ t => Written p vaddr n pos src s t) := by
  induction n generalizing s vaddr pos with
  | zero => exact ⟨.refl h, fun _ => rfl, fun _ _ => rfl, fun x => by rw [if_neg (by omega)]⟩
  | succ n ih =>
    obtain ⟨⟨f, b⟩, hv⟩ := Option.isSome_iff_exists.mp (hm (vaddr / 4096) ⟨by omega, le_rfl, by omega⟩)
    rw [copyBytesTo, sat_bind]
    refine (sat_writeByte h hp ha (src pos) (by omega) (by omega) hv).mono fun _ t ht => ?_
    obtain ⟨hw, hview⟩ := ht
    obtain ⟨ht, hpt, hat⟩ := hw.runs hp ha
    have hpages : ∀ w, (t.view p w).isSome = (s.view p w).isSome := by
      intro w
      rw [hview]
      by_cases hwv : w = vaddr / 4096
      · rw [hwv, update_self, hv]
        rfl
      · rw [update_of_ne hwv]
    have hnext : (vaddr + 1) % 2 ^ 32 = vaddr + 1 := Nat.mod_eq_of_lt (by simp only [kernelBase] at hhi; omega)
    rw [hnext]
    refine (ih (pos + 1) ht hpt hat (by omega) (by omega) fun w hw => ?_).mono fun _ u hu => ?_
    · rw [hpages]
      simp only [Spans] at hw hm
      exact hm w (by omega)
    refine ⟨hw.trans hu.toWithin, fun w => (hu.pages w).trans (hpages w), fun w hout => ?_, fun x => ?_⟩
    · simp only [Spans] at hout
      rw [hu.other w (by simp only [Spans]; omega), hview, update_of_ne (by omega)]
    · rw [hu.bytes]
      by_cases hx : vaddr + 1 ≤ x ∧ x < vaddr + 1 + n
      · rw [if_pos hx, if_pos (by omega), show pos + 1 + (x - (vaddr + 1)) = pos + (x - vaddr) by omega]
      · rw [if_neg hx, byteAt, hview]
        by_cases hxv : x = vaddr
        · subst hxv
          simp only [if_pos (show x ≤ x ∧ x < x + (n + 1) by omega), update_self, Option.map_some, Nat.sub_self,
            Nat.add_zero]
        · rw [if_neg (by omega), byteAt]
          by_cases hpage : x / 4096 = vaddr / 4096
          · have hoff : x % 4096 ≠ vaddr % 4096 := by omega
            simp only [hpage, update_self, hv, Option.map_some, update_of_ne hoff]
          · rw [update_of_ne hpage]

end Bytes

end TrueOs.Mm
