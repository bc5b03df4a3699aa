import TrueOs.Userprog.Reap
import TrueOs.Userprog.Spaces

/-! Bitmaps, page tables and pools agree in every reachable state. -/

namespace TrueOs.Mm

open Prog

/-- Neither hanging nor dead, and no kernel thread. -/
def Task.alive (x : Task) : Bool := x.status != .hanging && x.status != .died && x.pgdir.isSome

def live (m : Mm) : Set Nat := { p | ∃ x, m.tasks p = some x ∧ x.alive = true }

def Task.essence (x : Task) : Bitmap × Bool := (x.vaddrBitmap, x.alive)

structure Inv (m : Mm) : Prop where
  ok : Ok m.live m
  agree : ∀ p ∈ m.live, Agree m p

section Essence

variable {s t : Mm} {p : Nat}

theorem live_iff (m : Mm) (p : Nat) : p ∈ m.live ↔ ∃ e, (m.tasks p).map Task.essence = some e ∧ e.2 = true := by
  constructor
  · rintro ⟨x, hx, ha⟩
    exact ⟨x.essence, by rw [hx, Option.map_some], ha⟩
  · rintro ⟨e, he, ha⟩
    obtain ⟨x, hx, rfl⟩ := Option.map_eq_some_iff.mp he
    exact ⟨x, hx, ha⟩

theorem live_congr (h : (t.tasks p).map Task.essence = (s.tasks p).map Task.essence) : p ∈ t.live ↔ p ∈ s.live := by
  rw [live_iff, live_iff, h]

theorem Agree.congr (h : Agree s p) (he : (t.tasks p).map Task.essence = (s.tasks p).map Task.essence)
    (hm : ∀ v, t.mapped p v = s.mapped p v) : Agree t p := by
  intro x hx k hk
  rw [hx, Option.map_some] at he
  obtain ⟨y, hy, hxy⟩ := Option.map_eq_some_iff.mp he.symm
  have hb : y.vaddrBitmap = x.vaddrBitmap := congrArg Prod.fst hxy
  rw [← hb, h y hy k hk, hm]

theorem essence_of_info {x y : Task} (h : x.info = y.info) : x.essence = y.essence := by
  have h1 : x.info.status = y.info.status := congrArg Task.status h
  have h2 : x.info.pgdir = y.info.pgdir := congrArg Task.pgdir h
  change x.status = y.status at h1
  change x.pgdir = y.pgdir at h2
  rw [Task.essence, Task.essence, Task.info_vaddrBitmap h, Task.alive, Task.alive, h1, h2]

theorem map_essence_of_info {a b : Option Task} (h : a.map Task.info = b.map Task.info) :
    a.map Task.essence = b.map Task.essence := by
  cases a with
  | none =>
    cases b with
    | none => rfl
    | some y => cases h
  | some x =>
    cases b with
    | none => cases h
    | some y => exact congrArg some (essence_of_info (Option.some.inj h))

theorem Inv.of_others (h : Inv s) (hok : Ok t.live t)
    (he : ∀ q, q ≠ p → (t.tasks q).map Task.essence = (s.tasks q).map Task.essence)
    (hm : ∀ q ∈ s.live, q ≠ p → ∀ v, t.mapped q v = s.mapped q v) (hp : p ∈ t.live → Agree t p) : Inv t := by
  refine ⟨hok, fun q hq => ?_⟩
  by_cases hqp : q = p
  · subst hqp
    exact hp hq
  · have hqs : q ∈ s.live := (live_congr (he q hqp)).mp hq
    exact (h.agree q hqs).congr (he q hqp) (hm q hqs hqp)

end Essence

/-- Only pages of process `p` have changed, and its bitmap; no byte has. -/
structure Beside (p : Nat) (s t : Mm) : Prop where
  inv : Inv t
  live : t.live = s.live
  kernelVaddr : t.kernelVaddr = s.kernelVaddr
  kpte : t.kpte = s.kpte
  phys : t.phys = s.phys
  active : t.active = s.active
  info : ∀ q, q ≠ p → (t.tasks q).map Task.info = (s.tasks q).map Task.info

section Malloc

variable {s : Mm} {p : Nat}

theorem live_putBitmap {x : Task} (hx : s.tasks p = some x) (b : Bitmap) :
    (s.putTask p { x with vaddrBitmap := b }).live = s.live := by
  ext q
  by_cases hq : q = p
  · subst hq
    rw [live_iff, live_iff, putTask_self, hx]
    simp [Task.essence, Task.alive]
  · exact live_congr (by rw [putTask_of_ne s _ hq])

theorem Kept.live {t : Mm} (h : Kept s t) : t.live = s.live := by
  ext q
  exact live_congr (map_essence_of_info (h.info q))

theorem Inv.besideMapped (h : Inv s) {x : Task} (hx : s.tasks p = some x) {b : Bitmap} {i cnt : Nat} {t : Mm}
    (hbits : ∀ j, b.bits.bit j = if i ≤ j ∧ j < i + cnt then true else x.vaddrBitmap.bits.bit j)
    (hk : Kept (s.putTask p { x with vaddrBitmap := b }) t) (hok : Ok s.live t) (hp : p ∈ s.live)
    (hm : Mapped s.live p (bitPage i) cnt s t) : Beside p s t := by
  have hlive : t.live = s.live := hk.live.trans (live_putBitmap hx b)
  refine ⟨?_, hlive, hk.kernelVaddr, hk.kpte, hk.phys, hk.active, fun q hq => ?_⟩
  swap
  · rw [hk.info q, putTask_of_ne s _ hq]
  refine h.of_others (p := p) (hlive ▸ hok) (fun q hq => ?_) (fun q hq hqp v => ?_) fun _ => ?_
  · rw [map_essence_of_info (hk.info q), putTask_of_ne s _ hq]
  · exact hm.outside q hq v fun he => hqp he.1
  · intro y hy k hk'
    obtain ⟨z, hz, hi⟩ := hk.task hy
    rw [putTask_self] at hz
    obtain rfl := Option.some.inj hz
    rw [Task.info_vaddrBitmap hi, hbits]
    by_cases hr : i ≤ k ∧ k < i + cnt
    · rw [if_pos hr, hm.inside (bitPage k) (by simp only [bitPage]; omega) (by simp only [bitPage]; omega)]
    · rw [if_neg hr, hm.outside p hp _ (by simp only [bitPage]; omega), h.agree p hp x hx k hk']

theorem sat_mallocUser (h : Inv s) (hp : p ∈ s.live) (ha : s.active = p) (cnt : Nat) :
    ((mallocPage p .user cnt).on s).Sat True (fun r t => (cnt = 1 → r.isSome = true) ∧
      ∀ v ∈ r, Beside p s t ∧ userVaddrStart ≤ v ∧ v + cnt ≤ kernelBase ∧
        (∀ w, v ≤ w → w < v + cnt → s.mapped p w = none) ∧ Mapped s.live p v cnt s t) := by
  rw [mallocPage]
  simp only [sat_bind, sat_assert, decide_eq_true_eq]
  refine ⟨fun hcnt => ?_, fun _ => trivial⟩
  rw [vaddrGet]
  simp only [sat_bind]
  refine (sat_getTask p s).mono fun x t ht => ?_
  obtain ⟨rfl, hx⟩ := ht
  have hlen : x.vaddrBitmap.btmpBytesLen = userBitmapLen := by
    obtain ⟨x', hx', hlen⟩ := h.ok.task p hp
    obtain rfl := Option.some.inj (hx'.symm.trans hx)
    exact hlen
  refine ((Bitmap.sat_bitmapScan_run _ _ t).and (Bitmap.sat_bitmapScan_some _ _ t)).mono fun r u hu => ?_
  obtain ⟨⟨rfl, hfree⟩, hsome⟩ := hu
  cases r with
  | none => exact ⟨hsome, fun v hv => by cases hv⟩
  | some i =>
    have hfree := hfree i rfl
    simp only [sat_bind]
    refine (sat_bitmapSetRun true cnt i _ u).mono fun b v hv => ?_
    obtain ⟨rfl, hblen, hin, hbits⟩ := hv
    have hin := hin hcnt.1
    rw [hlen] at hin
    simp only [setTask, sat_modify, sat_bind, sat_assert, sat_pure]
    refine ⟨fun _ => ?_, fun _ => trivial⟩
    change ((mapPages .user cnt (bitPage i)).on (v.putTask p { x with vaddrBitmap := b })).Sat _ _
    have hok := h.ok.putTask (y := { x with vaddrBitmap := b }) hx rfl rfl hblen
    have hfit : bitPage i + cnt ≤ kernelBase := by
      simp only [bitPage, userVaddrStart, kernelBase, userBitmapLen] at hin ⊢
      omega
    refine (sat_mapPages hok ha hp hfit).mono fun r w hw => ?_
    obtain ⟨rfl, hk, hokw, hm⟩ := hw
    have hmapped : Mapped v.live p (bitPage i) cnt v w := ⟨hm.inside, fun q hq v' hv' =>
      (hm.outside q hq v' hv').trans (putTask_mapped (y := { x with vaddrBitmap := b }) hx rfl q v')⟩
    refine ⟨fun _ => rfl, fun v' hv' => ?_⟩
    obtain rfl := Option.some.inj hv'
    refine ⟨h.besideMapped hx hbits hk hokw hp hmapped, Nat.le_add_right _ _, hfit, fun w' hw' hw'' => ?_, hmapped⟩
    -- the bit of the page was clear
    have hk' : bitPage (w' - userVaddrStart) = w' := by
      simp only [bitPage] at hw' ⊢
      omega
    simp only [bitPage] at hw' hw''
    have hbit := h.agree p hp x hx (w' - userVaddrStart) (by omega)
    rw [hfree _ (by omega) (by omega), hk'] at hbit
    exact Option.not_isSome_iff_eq_none.mp (by rw [← hbit]; decide)

theorem sat_getAPage (h : Inv s) (hp : p ∈ s.live) (ha : s.active = p) {v : Nat} (hlo : userVaddrStart ≤ v)
    (hhi : v < kernelBase) : ((getAPage p v).on s).Sat True (fun r t => r.isSome = true ∧
      Beside p s t ∧ Mapped s.live p v 1 s t) := by
  rw [getAPage, sat_bind]
  refine (sat_getTask p s).mono fun x t ht => ?_
  obtain ⟨rfl, hx⟩ := ht
  rw [sat_bind, sat_assert]
  refine ⟨fun _ => ?_, fun _ => trivial⟩
  have hi : bitOf v userVaddrStart = v - userVaddrStart := bitOf_eq hlo (by simp only [kernelBase] at hhi; omega)
  rw [sat_bind, hi, Bitmap.bitmapSet]
  split
  · rw [sat_pure]
    generalize hb : (⟨x.vaddrBitmap.btmpBytesLen, x.vaddrBitmap.bits.setBit (v - userVaddrStart) true⟩ : Bitmap) = b
    have hblen : b.btmpBytesLen = x.vaddrBitmap.btmpBytesLen := by
      subst hb
      rfl
    have hbits : ∀ j, b.bits.bit j = if v - userVaddrStart ≤ j ∧ j < v - userVaddrStart + 1 then true
        else x.vaddrBitmap.bits.bit j := by
      intro j
      subst hb
      rw [Buf.bit_setBit]
      by_cases hj : j = v - userVaddrStart
      · rw [if_pos hj, if_pos (by omega)]
      · rw [if_neg hj, if_neg (by omega)]
    have hok := h.ok.putTask (y := { x with vaddrBitmap := b }) hx rfl rfl hblen
    have hpage : bitPage (v - userVaddrStart) = v := by
      rw [bitPage]
      omega
    rw [sat_bind, setTask, sat_modify]
    refine sat_mapOne (s := t.putTask p { x with vaddrBitmap := b }) hok ha hp hhi fun u f hk hoku hf hother _ => ?_
    have hm : Mapped t.live p v 1 t u := by
      refine ⟨fun w hw hw' => ?_, fun q hq w hw => ?_⟩
      · obtain rfl : w = v := by omega
        rw [hf]
        rfl
      · exact (hother q hq w (by omega)).trans (putTask_mapped (y := { x with vaddrBitmap := b }) hx rfl q w)
    exact ⟨rfl, h.besideMapped hx hbits hk hoku hp (hpage.symm ▸ hm), hm⟩
  · trivial

end Malloc

section Free

variable {L : Set Nat} {s : Mm} {p v f : Nat}

theorem mapped_some (h : s.mapped p v = some f) :
    ∃ table, s.dir p (v / 1024) = some table ∧ s.tables table (v % 1024) = ⟨f, true⟩ := by
  rw [mapped] at h
  obtain ⟨table, hd, he⟩ := Option.bind_eq_some_iff.mp h
  refine ⟨table, hd, ?_⟩
  rw [Pte.mapped] at he
  split at he
  · next hp => rw [← Option.some.inj he, ← hp]
  · cases he

theorem Ok.unmapUser (h : Ok L s) (hp : p ∈ L) {table : Nat} (hd : s.dir p (v / 1024) = some table)
    (hf : s.mapped p v = some f) : Ok L ((s.freed f).putPte table (v % 1024) ⟨f, false⟩) ∧
      ∀ q ∈ L, ∀ w, ((s.freed f).putPte table (v % 1024) ⟨f, false⟩).mapped q w =
        if q = p ∧ w = v then none else s.mapped q w := by
  obtain ⟨hge, hlt, -⟩ := h.user.used (o := (p, v)) ⟨hp, hf⟩
  have hdir : (s.freed f).dir = s.dir := by
    funext q i
    rw [dir, dir, freed_tasks]
  -- `mapped_setTable` needs a consistent state: the tables of `s` are those of `s.freed f`
  have hm : ∀ q ∈ L, ∀ w, ((s.freed f).putPte table (v % 1024) ⟨f, false⟩).mapped q w =
      if q = p ∧ w = v then none else s.mapped q w := by
    intro q hq w
    have hs := mapped_setTable h hp hd ⟨f, false⟩ (w := w) hq
    have heq : ((s.freed f).putPte table (v % 1024) ⟨f, false⟩).mapped q w =
        (s.putPte table (v % 1024) ⟨f, false⟩).mapped q w := by
      rw [mapped, mapped]
      change ((s.freed f).dir q (w / 1024)).bind _ = (s.dir q (w / 1024)).bind _
      rw [hdir]
      simp only [putPte, freed_tables]
    rw [heq, hs]
    rfl
  have hk : Kept s ((s.freed f).putPte table (v % 1024) ⟨f, false⟩) :=
    (freed_kept s f).trans ⟨rfl, rfl, rfl, rfl, rfl, fun _ => rfl⟩
  refine ⟨h.kept hk ((freed_kernelLen s f).trans h.kernelLen) ((freed_userLen s f).trans h.userLen) ?_ ?_, hm⟩
  · refine h.kernel.mono (fun o g ho => ?_) fun g hg => ?_
    · cases ho with
      | heap hx => exact .heap (hk.heapFrame _ ▸ hx)
      | @table q i g hq hx =>
        have hx' : (s.freed f).dir q i = some g := hx
        exact .table hq (hdir ▸ hx')
    · refine hg.freed ?_ (by omega)
      have := hg.2.1
      omega
  · refine h.user.drop (f := f) (fun o g ho => ?_) fun g hg hne => hg.freed hne
    have hog := ho.2
    rw [hm _ ho.1] at hog
    by_cases hov : o.1 = p ∧ o.2 = v
    · rw [if_pos hov] at hog
      cases hog
    · rw [if_neg hov] at hog
      refine ⟨⟨ho.1, hog⟩, ?_⟩
      rintro rfl
      have : o = (p, v) := h.user.inj ⟨ho.1, hog⟩ ⟨hp, hf⟩
      exact hov ⟨congrArg Prod.fst this, congrArg Prod.snd this⟩

theorem sat_unmapUser {cnt : Nat} {inPool : Nat → Bool} (h : Ok L s) (hp : p ∈ L) (ha : s.active = p)
    (hv : v + cnt ≤ kernelBase) (hin : ∀ w, v ≤ w → w < v + cnt → ∃ f, s.mapped p w = some f) :
    ((unmapPages inPool cnt v).on s).Sat True (fun _ t => Kept s t ∧ Ok L t ∧
      (∀ q ∈ L, ∀ w, t.mapped q w = if q = p ∧ v ≤ w ∧ w < v + cnt then none else s.mapped q w)) := by
  induction cnt generalizing s v with
  | zero => exact ⟨.rfl, h, fun q _ w => by rw [if_neg (by omega)]⟩
  | succ cnt ih =>
    obtain ⟨f, hf⟩ := hin v le_rfl (by omega)
    obtain ⟨table, hd, he⟩ := mapped_some hf
    obtain ⟨hge, hlt, -⟩ := h.user.used (o := (p, v)) ⟨hp, hf⟩
    rw [unmapPages, sat_bind]
    refine (sat_getPte_user (by omega) ha).mono fun e t ht => ?_
    obtain ⟨rfl, table', hd', rfl⟩ := ht
    obtain rfl := Option.some.inj (hd.symm.trans hd')
    rw [he]
    simp only [sat_bind, sat_assert]
    refine ⟨fun _ => ?_, fun _ => trivial⟩
    refine (sat_pfree (by omega) hlt).mono fun _ u hu => ?_
    subst hu
    have hdf : (t.freed f).dir p (v / 1024) = some table := by
      rw [dir, freed_tasks]
      exact hd
    have haf : (t.freed f).active = p := (freed_kept t f).active.trans ha
    rw [pageTablePteRemove, sat_bind]
    refine (sat_getPte_user (by omega) haf).mono fun e u hu => ?_
    obtain ⟨rfl, table', hd'', rfl⟩ := hu
    obtain rfl := Option.some.inj (hdf.symm.trans hd'')
    rw [freed_tables, he]
    refine sat_setPte_user (by omega) haf hdf _ ?_
    obtain ⟨hok, hm⟩ := h.unmapUser hp hd hf
    have hk : Kept t ((t.freed f).putPte table (v % 1024) ⟨f, false⟩) :=
      (freed_kept t f).trans ⟨rfl, rfl, rfl, rfl, rfl, fun _ => rfl⟩
    refine (ih hok (hk.active.trans ha) (by omega) fun w hw hw' => ?_).mono fun _ u hu => ?_
    · rw [hm p hp, if_neg (by omega)]
      exact hin w (by omega) (by omega)
    · obtain ⟨hku, hoku, hmu⟩ := hu
      refine ⟨hk.trans hku, hoku, fun q hq w => ?_⟩
      rw [hmu q hq, hm q hq]
      by_cases hqw : q = p ∧ v ≤ w ∧ w < v + (cnt + 1)
      · rw [if_pos hqw]
        by_cases hwv : w = v
        · rw [if_neg (by omega), if_pos ⟨hqw.1, hwv⟩]
        · rw [if_pos (by omega)]
      · rw [if_neg (by omega), if_neg (by omega), if_neg hqw]

theorem sat_mfreeUser {cnt : Nat} (h : Inv s) (hp : p ∈ s.live) (ha : s.active = p)
    (hlo : userVaddrStart ≤ v) (hv : v + cnt ≤ kernelBase)
    (hin : ∀ w, v ≤ w → w < v + cnt → ∃ f, s.mapped p w = some f) :
    ((mfreePage p .user v cnt).on s).Sat True (fun _ t => Beside p s t ∧
      ∀ q ∈ s.live, ∀ w, t.mapped q w = if q = p ∧ v ≤ w ∧ w < v + cnt then none else s.mapped q w) := by
  have hremove : ∀ t : Mm, Kept s t ∧ Ok s.live t ∧ (∀ q ∈ s.live, ∀ w, t.mapped q w =
      if q = p ∧ v ≤ w ∧ w < v + cnt then none else s.mapped q w) → 0 < cnt →
      ((vaddrRemove p .user v cnt).on t).Sat True (fun _ t => Beside p s t ∧
        ∀ q ∈ s.live, ∀ w, t.mapped q w = if q = p ∧ v ≤ w ∧ w < v + cnt then none else s.mapped q w) := by
    rintro t ⟨hk, hok, hm⟩ hcnt
    rw [vaddrRemove]
    simp only [sat_bind]
    refine (sat_getTask p t).mono fun x u hu => ?_
    obtain ⟨rfl, hx⟩ := hu
    refine (sat_bitmapSetRun false cnt _ _ u).mono fun b w hw => ?_
    obtain ⟨rfl, hblen, -, hbits⟩ := hw
    rw [setTask, sat_modify]
    change Beside p s (w.putTask p { x with vaddrBitmap := b }) ∧ _
    have hput : (w.putTask p { x with vaddrBitmap := b }).live = s.live := (live_putBitmap hx b).trans hk.live
    have hokp := hok.putTask (y := { x with vaddrBitmap := b }) hx rfl rfl hblen
    have hmp : ∀ q w', (w.putTask p { x with vaddrBitmap := b }).mapped q w' = w.mapped q w' :=
      putTask_mapped (y := { x with vaddrBitmap := b }) hx rfl
    refine ⟨⟨?_, hput, hk.kernelVaddr, hk.kpte, hk.phys, hk.active, fun q hq => ?_⟩, fun q hq w' => (hmp q w').trans (hm q hq w')⟩
    swap
    · rw [putTask_of_ne w _ hq, hk.info q]
    refine h.of_others (p := p) (hput ▸ hokp) (fun q hq => ?_) (fun q hq hqp w' => ?_) fun _ => ?_
    · rw [putTask_of_ne w _ hq, map_essence_of_info (hk.info q)]
    · rw [hmp, hm q hq, if_neg fun he => hqp he.1]
    · intro y hy k hk'
      rw [putTask_self] at hy
      obtain rfl := Option.some.inj hy
      obtain ⟨z, hz, hi⟩ := hk.task hx
      have hold := h.agree p hp z hz k hk'
      change b.bits.bit k = _
      rw [hmp, hm p hp, hbits, Task.info_vaddrBitmap hi, hold,
        bitOf_eq hlo (by simp only [kernelBase] at hv; omega)]
      by_cases hr : v - userVaddrStart ≤ k ∧ k < v - userVaddrStart + cnt
      · have hin : v ≤ bitPage k ∧ bitPage k < v + cnt := by
          rw [bitPage]
          omega
        rw [if_pos hr, if_pos ⟨rfl, hin⟩]
        rfl
      · have hout : ¬(v ≤ bitPage k ∧ bitPage k < v + cnt) := by
          rw [bitPage]
          omega
        rw [if_neg hr, if_neg fun he => hout he.2]
  rw [mfreePage]
  simp only [sat_bind, sat_assert, decide_eq_true_eq]
  refine ⟨fun hcnt => ?_, fun _ => trivial⟩
  refine (sat_getPte_user (by omega) ha).mono fun e t ht => ?_
  obtain ⟨rfl, -⟩ := ht
  refine ⟨fun _ => ?_, fun _ => trivial⟩
  split
  · rw [sat_bind]
    exact (sat_unmapUser h.ok hp ha hv hin).mono fun _ u hu => hremove u hu (by omega)
  · rw [sat_bind]
    exact (sat_unmapUser h.ok hp ha hv hin).mono fun _ u hu => hremove u hu (by omega)

end Free

section Exit

variable {L : Set Nat} {s t : Mm} {p : Nat}

def Task.core (x : Task) : (Nat → Option Nat) × Nat × Bitmap := (x.pde, x.bits, x.vaddrBitmap)

theorem map_core {a b : Option Task} (h : a.map Task.core = b.map Task.core) {x : Task} (hx : a = some x) :
    ∃ y, b = some y ∧ x.pde = y.pde ∧ x.bits = y.bits ∧ x.vaddrBitmap = y.vaddrBitmap := by
  rw [hx, Option.map_some] at h
  obtain ⟨y, hy, he⟩ := Option.map_eq_some_iff.mp h.symm
  simp only [Task.core, Prod.mk.injEq] at he
  exact ⟨y, hy, he.1.symm, he.2.1.symm, he.2.2.symm⟩

theorem Ok.recore (h : Ok L s) {f : Nat → Option Task}
    (hf : ∀ q ∈ L, (f q).map Task.core = (s.tasks q).map Task.core) : Ok L { s with tasks := f } := by
  have hdir : ∀ q ∈ L, ∀ i, ({ s with tasks := f } : Mm).dir q i = s.dir q i := by
    intro q hq i
    change (f q).bind _ = (s.tasks q).bind _
    cases hfq : f q with
    | none =>
      have := hf q hq
      rw [hfq] at this
      rw [Option.map_eq_none_iff.mp this.symm]
    | some x =>
      obtain ⟨y, hy, hpde, -, -⟩ := map_core (hf q hq) hfq
      rw [hy, Option.bind_some, Option.bind_some, hpde]
  refine ⟨h.kernelLen, h.userLen, h.vaddrLen, fun q hq => ?_, ?_, ?_, h.vaddr, fun q hq x hx v hv => ?_,
    fun q hq r hr x y v hx hy hv hv' => ?_, fun q hq x hx => ?_⟩
  · obtain ⟨y, hy, hlen⟩ := h.task q hq
    obtain ⟨x, hx, -, -, hb⟩ := map_core (hf q hq).symm hy
    exact ⟨x, hx, by rw [← hb, hlen]⟩
  · refine h.kernel.mono (fun o g ho => ?_) fun _ hg => hg
    cases ho with
    | heap hv => exact .heap hv
    | table hq hd => exact .table hq ((hdir _ hq _) ▸ hd)
  · refine h.user.mono (fun o g ho => ⟨ho.1, ?_⟩) fun _ hg => hg
    have hog := ho.2
    rw [mapped, hdir _ ho.1] at hog
    exact hog
  · obtain ⟨y, hy, -, hb, -⟩ := map_core (hf q hq) hx
    rw [Owns, hb] at hv
    exact h.owned q hq y hy v hv
  · obtain ⟨x', hx', -, hb, -⟩ := map_core (hf q hq) hx
    obtain ⟨y', hy', -, hb', -⟩ := map_core (hf r hr) hy
    rw [Owns, hb] at hv
    rw [Owns, hb'] at hv'
    exact h.apart q hq r hr x' y' v hx' hy' hv hv'
  · obtain ⟨y, hy, -, hb, -⟩ := map_core (hf q hq) hx
    rw [hb]
    exact h.pcb q hq y hy

structure SamePages (s t : Mm) : Prop extends Kept s t where
  tasks : t.tasks = s.tasks
  tables : t.tables = s.tables

theorem SamePages.mapped (h : SamePages s t) (q v : Nat) : t.mapped q v = s.mapped q v := by
  rw [Mm.mapped, Mm.mapped, dir, dir, h.tasks, h.tables]

theorem SamePages.freed (h : SamePages s t) (f : Nat) : SamePages s (t.freed f) :=
  { h.toKept.trans (freed_kept t f) with
    tasks := (freed_tasks t f).trans h.tasks
    tables := (freed_tables t f).trans h.tables }

theorem SamePages.userHolds (h : SamePages s t) {o : Nat × Nat} {f : Nat} (ho : UserHolds L t o f) :
    UserHolds L s o f := ⟨ho.1, h.mapped _ _ ▸ ho.2⟩

theorem SamePages.kernelHolds (h : SamePages s t) {o : KernelHolder} {f : Nat} (ho : KernelHolds L t o f) :
    KernelHolds L s o f := by
  cases ho with
  | heap hv => exact .heap (h.heapFrame _ ▸ hv)
  | table hq hd =>
    rw [dir, h.tasks] at hd
    exact .table hq hd

theorem UserHolds.mono {L' : Set Nat} (hL : ∀ q ∈ L', q ∈ L) {o : Nat × Nat} {f : Nat} (ho : UserHolds L' s o f) :
    UserHolds L s o f := ⟨hL _ ho.1, ho.2⟩

variable {L' : Set Nat} (hs : Ok L s) (hp : p ∈ L) (hL : ∀ q ∈ L', q ∈ L) (hpL : p ∉ L')

include hs hp hL hpL

theorem Ok.freeUser (h : Ok L' t) (hst : SamePages s t) {v f : Nat} (hf : s.mapped p v = some f) :
    Ok L' (t.freed f) := by
  obtain ⟨hge, hlt, -⟩ := hs.user.used (o := (p, v)) ⟨hp, hf⟩
  refine h.freed (by omega) (fun o ho => ?_) fun o ho => ?_
  · have := (h.kernel.used ho).2.1
    omega
  · have heq : _ = (p, v) := hs.user.inj (UserHolds.mono hL (hst.userHolds ho)) ⟨hp, hf⟩
    have hop : o.1 = p := congrArg Prod.fst heq
    exact hpL (hop ▸ ho.1)

theorem Ok.freeTable (h : Ok L' t) (hst : SamePages s t) {i f : Nat} (hf : s.dir p i = some f) :
    Ok L' (t.freed f) := by
  obtain ⟨hge, hlt, -⟩ := hs.kernel.used (.table hp hf)
  refine h.freed hge (fun o ho => ?_) fun o ho => ?_
  · have heq := hs.kernel.inj (KernelHolds.mono hL (hst.kernelHolds ho)) (.table hp hf)
    subst heq
    cases ho with
    | table hq _ => exact hpL hq
  · have := (h.user.used ho).1
    omega

theorem sat_freeFrames (ha : s.active = p) {i : Nat} (hi : i < 768) (left pteIdx : Nat)
    (hsum : pteIdx + left = 1024) (h : Ok L' t) (hst : SamePages s t) :
    ((freeFrames (i * 1024) left pteIdx).on t).Sat True
      (fun _ u => Ok L' u ∧ SamePages s u) := by
  induction left generalizing pteIdx t with
  | zero => exact ⟨h, hst⟩
  | succ left ih =>
    have hv : i * 1024 + pteIdx < kernelBase := by
      simp only [kernelBase]
      omega
    rw [freeFrames, sat_bind]
    refine (sat_getPte_user hv (hst.active.trans ha)).mono fun e u hu => ?_
    obtain ⟨rfl, table, hd, rfl⟩ := hu
    dsimp only
    split
    · next hpres =>
      have hf : s.mapped p (i * 1024 + pteIdx) =
          some (u.tables table ((i * 1024 + pteIdx) % 1024)).frame := by
        rw [← hst.mapped, mapped, hd, Option.bind_some, Pte.mapped, if_pos hpres]
      obtain ⟨hge, hlt, -⟩ := hs.user.used (o := (p, _)) ⟨hp, hf⟩
      rw [sat_bind]
      refine (sat_pfree (by omega) hlt).mono fun _ w hw => ?_
      subst hw
      exact ih (pteIdx + 1) (by omega) (hs.freeUser hp hL hpL h hst hf) (hst.freed _)
    · exact ih (pteIdx + 1) (by omega) h hst

theorem sat_freeTables (ha : s.active = p) {x : Task} (hx : s.tasks p = some x) (left pdeIdx : Nat)
    (hsum : pdeIdx + left = 768) (h : Ok L' t) (hst : SamePages s t) :
    ((freeTables x left pdeIdx).on t).Sat True (fun _ u => Ok L' u ∧ SamePages s u) := by
  induction left generalizing pdeIdx t with
  | zero => exact ⟨h, hst⟩
  | succ left ih =>
    have hframes := fun {t : Mm} (h : Ok L' t) (hst : SamePages s t) =>
      sat_freeFrames hs hp hL hpL ha (i := pdeIdx) (by omega) 1024 0 (by omega) h hst
    generalize hprog : freeFrames (pdeIdx * 1024) 1024 0 = prog at hframes
    rw [freeTables, hprog]
    cases hd : x.pde pdeIdx with
    | none => exact ih (pdeIdx + 1) (by omega) h hst
    | some table =>
      have hdir : s.dir p pdeIdx = some table := by
        rw [dir, hx, Option.bind_some, hd]
      obtain ⟨hge, hlt, -⟩ := hs.kernel.used (.table hp hdir)
      dsimp only
      rw [sat_bind]
      refine (hframes h hst).mono fun _ u hu => ?_
      rw [sat_bind]
      refine (sat_pfree hge (by omega)).mono fun _ w hw => ?_
      subst hw
      exact ih (pdeIdx + 1) (by omega) (hs.freeTable hp hL hpL hu.1 hu.2 hdir) (hu.2.freed _)

end Exit

section Calls

variable {s t : Mm} {p : Nat}

theorem initAdopt_core (s : Mm) (pid q : Nat) :
    ((s.initAdopt pid).tasks q).map Task.core = (s.tasks q).map Task.core ∧
      ((s.initAdopt pid).tasks q).map Task.essence = (s.tasks q).map Task.essence := by
  simp only [initAdopt, Option.map_map]
  constructor
  · congr 1
    funext x
    simp only [Function.comp_apply]
    split <;> rfl
  · congr 1
    funext x
    simp only [Function.comp_apply]
    split <;> rfl

theorem mapped_recore {f : Nat → Option Task} {q : Nat} (hf : (f q).map Task.core = (s.tasks q).map Task.core)
    (v : Nat) : ({ s with tasks := f } : Mm).mapped q v = s.mapped q v := by
  have hdir : ∀ i, ({ s with tasks := f } : Mm).dir q i = s.dir q i := by
    intro i
    change (f q).bind _ = (s.tasks q).bind _
    cases hfq : f q with
    | none =>
      rw [hfq] at hf
      rw [Option.map_eq_none_iff.mp hf.symm]
    | some x =>
      obtain ⟨y, hy, hpde, -, -⟩ := map_core hf hfq
      rw [hy, Option.bind_some, Option.bind_some, hpde]
  rw [mapped, mapped, hdir]

structure Released (p : Nat) (s t : Mm) : Prop where
  ok : Ok (s.live \ {p}) t
  essence : ∀ q, (t.tasks q).map Task.essence = (s.tasks q).map Task.essence
  mapped : ∀ q ∈ s.live, q ≠ p → ∀ v, t.mapped q v = s.mapped q v

theorem Released.putStatus (h : Released p s t) {q : Nat} {x : Task} (hx : t.tasks q = some x) (st : TaskStatus)
    (hst : q = p ∨ (x.alive = ({ x with status := st } : Task).alive)) :
    Ok (s.live \ {p}) (t.putTask q { x with status := st }) ∧
      (∀ r, r ≠ p → ((t.putTask q { x with status := st }).tasks r).map Task.essence =
        (s.tasks r).map Task.essence) ∧
      ∀ r ∈ s.live, r ≠ p → ∀ v, (t.putTask q { x with status := st }).mapped r v = s.mapped r v := by
  refine ⟨h.ok.putTask hx rfl rfl rfl, fun r hr => ?_, fun r hr hrp v => ?_⟩
  · by_cases hrq : r = q
    · subst hrq
      have he := h.essence r
      rw [hx, Option.map_some] at he
      rw [putTask_self, Option.map_some, ← he, Task.essence, Task.essence, hst.resolve_left hr]
    · rw [putTask_of_ne t _ hrq, h.essence]
  · exact (putTask_mapped (y := { x with status := st }) hx rfl r v).trans (h.mapped r hr hrp v)

/-- The other processes go on with the memory they had. -/
def Aside (p : Nat) (s t : Mm) : Prop := ∀ q ∈ s.live, q ≠ p → q ∈ t.live ∧ ∀ v, t.content q v = s.content q v

theorem sat_release (h : Inv s) (hp : p ∈ s.live) (ha : s.active = p) (pid : Nat) :
    ((releaseProgResource p).on (s.initAdopt pid)).Sat True (fun _ t => Released p s t ∧ t.phys = s.phys) := by
  have hok : Ok s.live (s.initAdopt pid) := h.ok.recore fun q _ => (initAdopt_core s pid q).1
  rw [releaseProgResource, sat_bind]
  refine (sat_getTask p _).mono fun x t ht => ?_
  obtain ⟨rfl, hx⟩ := ht
  have hlen : x.vaddrBitmap.btmpBytesLen = userBitmapLen := by
    obtain ⟨x', hx', hlen⟩ := hok.task p hp
    obtain rfl := Option.some.inj (hx'.symm.trans hx)
    exact hlen
  have hL : ∀ q ∈ s.live \ {p}, q ∈ s.live := fun q hq => hq.1
  have hpL : p ∉ s.live \ {p} := fun hq => hq.2 rfl
  have hfree := sat_freeTables hok hp hL hpL ha hx 768 0 (by omega) (hok.mono hL)
    ⟨.rfl, rfl, rfl⟩
  generalize freeTables x 768 0 = prog at hfree
  rw [sat_bind]
  refine hfree.mono fun _ u hu => ?_
  obtain ⟨hoku, hsame⟩ := hu
  rw [hlen]
  refine (sat_mfreeKernel hoku p (fun w hw hw' => ?_) fun w hw hw' q hq y hy hown => ?_).mono fun _ w hw => ?_
  · obtain ⟨f, hf⟩ := hok.owned p hp x hx w (Or.inr ⟨hw, by simp only [userBitmapLen, kernelBase, userVaddrStart] at hw'; omega⟩)
    exact ⟨f, hsame.heapFrame w ▸ hf⟩
  · rw [hsame.tasks] at hy
    have := hok.apart q hq.1 p hp y x w hy hx hown
      (Or.inr ⟨hw, by simp only [userBitmapLen, kernelBase, userVaddrStart] at hw'; omega⟩)
    exact hq.2 this
  · obtain ⟨hku, hokw, hphys⟩ := hw
    refine ⟨⟨hokw, fun q => ?_, fun q hq _ v => ?_⟩, hphys.trans hsame.phys⟩
    · rw [hku.tasks, hsame.tasks]
      exact (initAdopt_core s pid q).2
    · rw [hku.mapped, hsame.mapped]
      exact mapped_recore (initAdopt_core s pid q).1 v

theorem sat_sysExit (h : Inv s) (hp : p ∈ s.live) (ha : s.active = p) :
    ((sysExit p).on s).Sat True (fun _ t => Inv t ∧ Aside p s t) := by
  have hlast : ∀ u : Mm, u.phys = s.phys → Ok (s.live \ {p}) u →
      (∀ r, r ≠ p → (u.tasks r).map Task.essence = (s.tasks r).map Task.essence) →
      (∀ r ∈ s.live, r ≠ p → ∀ v, u.mapped r v = s.mapped r v) → ((do
        let t ← getTask p
        setTask p { t with status := .hanging }).on u).Sat True (fun _ t => Inv t ∧ Aside p s t) := by
    intro u hph hok he hm
    rw [sat_bind]
    refine (sat_getTask p u).mono fun x v hv => ?_
    obtain ⟨rfl, hx⟩ := hv
    change Inv (v.putTask p { x with status := .hanging }) ∧ Aside p s (v.putTask p { x with status := .hanging })
    have hess : ∀ q, q ≠ p → ((v.putTask p { x with status := .hanging }).tasks q).map Task.essence =
        (s.tasks q).map Task.essence := fun q hq => by rw [putTask_of_ne v _ hq, he q hq]
    have hnot : p ∉ (v.putTask p { x with status := .hanging }).live := by
      rintro ⟨y, hy, hy'⟩
      rw [putTask_self] at hy
      obtain rfl := Option.some.inj hy
      simp [Task.alive] at hy'
    have hlive : (v.putTask p { x with status := .hanging }).live = s.live \ {p} := by
      ext q
      by_cases hq : q = p
      · subst hq
        exact ⟨fun hm => absurd hm hnot, fun hm => absurd rfl hm.2⟩
      · rw [live_congr (hess q hq)]
        exact ⟨fun hm => ⟨hm, hq⟩, fun hm => hm.1⟩
    have hmap : ∀ q ∈ s.live, q ≠ p → ∀ w, (v.putTask p { x with status := .hanging }).mapped q w = s.mapped q w :=
      fun q hq hqp w => (putTask_mapped (y := { x with status := .hanging }) hx rfl q w).trans (hm q hq hqp w)
    refine ⟨h.of_others (p := p) (hlive ▸ hok.putTask hx rfl rfl rfl) hess hmap fun hm => absurd hm hnot, ?_⟩
    intro q hq hqp
    refine ⟨hlive ▸ ⟨hq, hqp⟩, fun w => ?_⟩
    rw [content, content, hmap q hq hqp, show (v.putTask p { x with status := .hanging }).phys = s.phys from hph]
  rw [sysExit, sat_bind]
  refine (sat_getTask p s).mono fun x t ht => ?_
  obtain ⟨rfl, hx⟩ := ht
  simp only [sat_bind, sat_assert]
  refine ⟨fun _ => ?_, fun _ => trivial⟩
  rw [sat_modify]
  refine (sat_release h hp ha x.pid).mono fun _ u hu => ?_
  obtain ⟨hu, hph⟩ := hu
  refine (sat_getTask p u).mono fun x' v hv => ?_
  obtain ⟨rfl, hx'⟩ := hv
  simp only [sat_get]
  split
  · trivial
  · next parent _ =>
    rw [sat_bind]
    refine (sat_getTask parent v).mono fun tp w hw => ?_
    obtain ⟨rfl, htp⟩ := hw
    split
    · next hwait =>
      obtain ⟨h1, h2, h3⟩ := hu.putStatus htp .ready (Or.inr (by rw [Task.alive, hwait]; rfl))
      rw [sat_bind, setTask, sat_modify]
      exact hlast _ hph h1 h2 h3
    · exact hlast w hph hu.ok (fun r _ => hu.essence r) hu.mapped

theorem sat_fork (h : Inv s) (hp : p ∈ s.live) (ha : s.active = p) :
    ((sysFork p).on s).Sat True (fun r t => r.isSome = true → Inv t) := by
  obtain ⟨x, hx, -⟩ := h.ok.task p hp
  refine (sat_sysFork h.ok hp ha hx).mono fun r t ht hr => ?_
  obtain ⟨c, rfl⟩ := Option.isSome_iff_exists.mp hr
  have hf := ht c rfl
  obtain ⟨y, hy, hready, hdir, hmap⟩ := hf.task
  have hess : ∀ q, q ≠ c.1 → (t.tasks q).map Task.essence = (s.tasks q).map Task.essence :=
    fun q hq => map_essence_of_info (hf.others q hq)
  have hlive : t.live = insert c.1 s.live := by
    ext q
    by_cases hq : q = c.1
    · subst hq
      exact ⟨fun _ => Or.inl rfl, fun _ => ⟨y, hy, by simp [Task.alive, hready, hdir]⟩⟩
    · rw [live_congr (hess q hq)]
      exact ⟨fun hm => Or.inr hm, fun hm => hm.resolve_left hq⟩
  refine h.of_others (p := c.1) (hlive ▸ hf.ok) hess (fun q hq _ v => (hf.same q hq v).1) fun _ => ?_
  intro y' hy' k hk
  obtain rfl := Option.some.inj (hy'.symm.trans hy)
  rw [hmap]
  cases hb : x.vaddrBitmap.bits.bit k with
  | true =>
    obtain ⟨hsome, heq⟩ := hf.copied k hk hb
    rw [← heq, content, Option.isSome_map] at hsome
    exact hsome.symm
  | false =>
    rw [hf.only (bitPage k) fun j hj hbj he => ?_]
    · rfl
    · obtain rfl : k = j := by
        simp only [bitPage] at he
        omega
      rw [hb] at hbj
      cases hbj

theorem Inv.kernel (h : Inv s) (hk : KeptUser s t) (hok : Ok s.live t) : Inv t := by
  have hlive : t.live = s.live := by
    ext q
    exact live_congr (by rw [hk.tasks])
  refine ⟨hlive ▸ hok, fun q hq => ?_⟩
  rw [hlive] at hq
  exact (h.agree q hq).congr (by rw [hk.tasks]) fun v => hk.mapped q v

theorem sat_orFault {r : Option Nat} {Q : Nat → Mm → Prop} (hQ : ∀ v, r = some v → Q v s) :
    ((orFault r).on s).Sat True Q := by
  cases r with
  | none => trivial
  | some v => exact hQ v rfl

theorem sat_execute (h : Inv s) (name : List UInt8) : ((do
    let p ← processExecute name
    startProcess p).on s).Sat True (fun _ t => Inv t) := by
  rw [sat_bind, processExecute, sat_bind]
  refine (sat_getKernelPages h.ok 1).mono fun r s₁ h₁ => ?_
  rw [sat_bind]
  refine sat_orFault fun thread hr => ?_
  obtain ⟨hok₁, hnew₁⟩ := h₁ thread hr
  rw [sat_bind]
  refine (sat_allocatePid hok₁).mono fun pid s₂ h₂ => ?_
  obtain ⟨hok₂, pb, rfl⟩ := h₂
  rw [sat_bind]
  refine (sat_getKernelPages hok₂ _).mono fun r s₃ h₃ => ?_
  rw [sat_bind]
  refine sat_orFault fun bits hr => ?_
  obtain ⟨hok₃, hnew₃⟩ := h₃ bits hr
  rw [sat_bind, createPageDir]
  refine (sat_getKernelPages hok₃ 1).mono fun pgdir s₄ h₄ => ?_
  simp only [sat_bind, setTask, sat_modify, sat_pure, startProcess, pageDirActivate]
  cases pgdir with
  | none =>
    -- without a directory `get_a_page` panics
    simp only [getAPage, getTask, sat_bind, sat_get, Function.update_self, sat_pure,
      sat_assert]
    exact ⟨fun hf => absurd hf (by decide), fun _ => trivial⟩
  | some pgdir =>
    obtain ⟨hok₄, hnew₄⟩ := h₄ pgdir rfl
    have hkeep₁ : ∀ w g, s.heapFrame w = some g → s₁.heapFrame w = some g := by
      intro w g hw
      rw [hnew₁.outside w fun hr => ?_, hw]
      rw [hnew₁.fresh w hr.1 hr.2] at hw
      cases hw
    have hrange : ∀ w g, s₁.heapFrame w = some g → ¬(bits ≤ w ∧ w < bits + 23) := by
      intro w g hw hr
      have hnone : s₁.heapFrame w = none := hnew₃.fresh w hr.1 hr.2
      rw [hnone] at hw
      cases hw
    have hkeep₃ : ∀ w g, s₁.heapFrame w = some g → s₃.heapFrame w = some g := by
      intro w g hw
      exact (hnew₃.outside w fun hr => hrange w g hw hr).trans hw
    have hkeep₄ : ∀ w g, s₃.heapFrame w = some g → s₄.heapFrame w = some g := by
      intro w g hw
      rw [hnew₄.outside w fun hr => ?_, hw]
      rw [hnew₄.fresh w hr.1 hr.2] at hw
      cases hw
    obtain ⟨ft, hft⟩ := hnew₁.inside thread le_rfl (by omega)
    have htasks : s₄.tasks = s.tasks := hnew₄.tasks.trans (hnew₃.tasks.trans hnew₁.tasks)
    have hmapped : ∀ q v, s₄.mapped q v = s.mapped q v := fun q v =>
      (hnew₄.toKeptUser.mapped q v).trans ((hnew₃.toKeptUser.mapped q v).trans (hnew₁.toKeptUser.mapped q v))
    have hfresh : ∀ q ∈ s.live, ∀ z v, s.tasks q = some z → Owns z q v →
        v ≠ thread ∧ ¬(bits ≤ v ∧ v < bits + 23) := by
      intro q hq z v hz hv
      obtain ⟨g, hg⟩ := h.ok.owned q hq z hz v hv
      refine ⟨?_, hrange v g (hkeep₁ v g hg)⟩
      rintro rfl
      rw [hnew₁.fresh v le_rfl (by omega)] at hg
      cases hg
    have hnot : thread ∉ s.live := by
      intro hm
      obtain ⟨z, hz, -⟩ := h.ok.task thread hm
      exact (hfresh thread hm z thread hz (Or.inl rfl)).1 rfl
    generalize hy : (⟨name, pid, -1, .ready, some pgdir, fun _ => none, bits, ⟨userBitmapLen, fun _ => 0⟩⟩ : Task) = y
    have hyf : y.bits = bits ∧ (∀ i, y.pde i = none) ∧ y.vaddrBitmap = ⟨userBitmapLen, fun _ => 0⟩ ∧
        y.alive = true := by
      subst hy
      exact ⟨rfl, fun _ => rfl, rfl, rfl⟩
    obtain ⟨hyb, hypde, hymap, hyalive⟩ := hyf
    have hown : ∀ v, Owns y thread v → v = thread ∨ (bits ≤ v ∧ v < bits + 23) := by
      intro v hv
      rwa [Owns, hyb] at hv
    have hok : Ok (insert thread s.live) (s₄.putTask thread y) := by
      refine (hok₄.putOther hnot y).insert (putTask_self s₄ thread y) hypde (by rw [hymap]) (fun v hv => ?_)
        (fun q hq z v hz hv hv' => ?_) ?_
      · rcases hown v hv with rfl | ⟨hlo, hhi⟩
        · exact ⟨ft, hkeep₄ _ _ (hkeep₃ _ _ hft)⟩
        · obtain ⟨g, hg⟩ := hnew₃.inside v hlo hhi
          exact ⟨g, hkeep₄ _ _ hg⟩
      · have hne : q ≠ thread := by
          rintro rfl
          exact hnot hq
        rw [putTask_of_ne s₄ y hne, htasks] at hz
        obtain ⟨h1, h2⟩ := hfresh q hq z v hz hv
        exact (hown v hv').elim h1 h2
      · rw [hyb]
        exact hrange thread ft hft
    have hess : ∀ q, q ≠ thread → ((s₄.putTask thread y).tasks q).map Task.essence = (s.tasks q).map Task.essence :=
      fun q hq => by rw [putTask_of_ne s₄ y hq, htasks]
    have hlive : (s₄.putTask thread y).live = insert thread s.live := by
      ext q
      by_cases hq : q = thread
      · subst hq
        exact ⟨fun _ => Or.inl rfl, fun _ => ⟨y, putTask_self s₄ q y, hyalive⟩⟩
      · rw [live_congr (hess q hq)]
        exact ⟨fun hm => Or.inr hm, fun hm => hm.resolve_left hq⟩
    have hinv : Inv (s₄.putTask thread y) := by
      refine h.of_others (p := thread) (hlive ▸ hok) hess (fun q _ hq v => ?_) fun _ => ?_
      · rw [putTask_mapped_of_ne s₄ y hq, hmapped]
      · intro z hz k _
        rw [putTask_self] at hz
        obtain rfl := Option.some.inj hz
        rw [hymap, mapped, dir, putTask_self, Option.bind_some, hypde]
        simp [Buf.bit]
    have hstart : Inv { s₄.putTask thread y with threadAllList := s₄.threadAllList ++ [thread], active := thread } :=
      ⟨(hinv.ok.withActive s₄.phys thread).withList (s₄.threadAllList ++ [thread]), hinv.agree⟩
    exact (sat_getAPage hstart (hlive ▸ Or.inl rfl) rfl (by decide) (by decide)).mono fun _ t ht => ht.2.1.inv

end Calls

section Runs

/-- The calls of the processes, each as the running one, and the kernel's own use of its
heap. -/
inductive Step : Mm → Mm → Prop
  | execute {s t : Mm} {name : List UInt8}
      (hr : ((do let p ← processExecute name; startProcess p).on s).run = .ok ((), t)) : Step s t
  | mallocPage {s t : Mm} {p cnt v : Nat} (hp : p ∈ s.live)
      (hr : ((do pageDirActivate p; mallocPage p .user cnt).on s).run = .ok (some v, t)) : Step s t
  | getAPage {s t : Mm} {p v w : Nat} (hp : p ∈ s.live) (hlo : userVaddrStart ≤ v) (hhi : v < kernelBase)
      (hv : s.mapped p v = none) (hr : ((do pageDirActivate p; getAPage p v).on s).run = .ok (some w, t)) :
      Step s t
  | mfreePage {s t : Mm} {p v cnt : Nat} (hp : p ∈ s.live) (hlo : userVaddrStart ≤ v)
      (hhi : v + cnt ≤ kernelBase) (hv : ∀ w, v ≤ w → w < v + cnt → ∃ f, s.mapped p w = some f)
      (hr : ((do pageDirActivate p; mfreePage p .user v cnt).on s).run = .ok ((), t)) : Step s t
  | fork {s t : Mm} {p : Nat} {c : Nat × Nat} (hp : p ∈ s.live)
      (hr : ((do pageDirActivate p; sysFork p).on s).run = .ok (some c, t)) : Step s t
  | exit {s t : Mm} {p : Nat} (hp : p ∈ s.live)
      (hr : ((do pageDirActivate p; sysExit p).on s).run = .ok ((), t)) : Step s t
  | kernelPages {s t : Mm} {cnt v : Nat} (hr : ((getKernelPages cnt).on s).run = .ok (some v, t)) : Step s t
  | kernelFree {s t : Mm} {cur v cnt : Nat} (hv : ∀ w, v ≤ w → w < v + cnt → ∃ f, s.heapFrame w = some f)
      (howns : ∀ w, v ≤ w → w < v + cnt → ∀ p ∈ s.live, ∀ x, s.tasks p = some x → ¬Owns x p w)
      (hr : ((mfreePage cur .kernel v cnt).on s).run = .ok ((), t)) : Step s t

inductive Reach : Mm → Prop
  | start {s : Mm} (hok : Ok ∅ s) (hnone : ∀ p, s.tasks p = none) : Reach s
  | step {s t : Mm} (h : Reach s) (hs : Step s t) : Reach t

theorem Inv.activate {s : Mm} (h : Inv s) (p : Nat) : Inv { s with active := p } :=
  ⟨h.ok.withActive s.phys p, h.agree⟩

theorem Step.inv {s t : Mm} (hs : Step s t) (h : Inv s) : Inv t := by
  cases hs with
  | execute hr => exact (sat_execute h _).of_run hr
  | @mallocPage p _ _ hp hr => exact (((sat_mallocUser (h.activate p) hp rfl _).of_run hr).2 _ rfl).1.inv
  | @getAPage p _ _ hp hlo hhi _ hr => exact ((sat_getAPage (h.activate p) hp rfl hlo hhi).of_run hr).2.1.inv
  | @mfreePage p _ _ hp hlo hhi hv hr => exact ((sat_mfreeUser (h.activate p) hp rfl hlo hhi hv).of_run hr).1.inv
  | @fork p _ hp hr => exact (sat_fork (h.activate p) hp rfl).of_run hr rfl
  | @exit p hp hr => exact ((sat_sysExit (h.activate p) hp rfl).of_run hr).1
  | kernelPages hr =>
    obtain ⟨hok, hnew⟩ := (sat_getKernelPages h.ok _).of_run hr _ rfl
    exact h.kernel hnew.toKeptUser hok
  | kernelFree hv howns hr =>
    obtain ⟨hk, hok, -⟩ := (sat_mfreeKernel h.ok _ hv howns).of_run hr
    exact h.kernel hk hok

theorem Reach.inv {s : Mm} (h : Reach s) : Inv s := by
  induction h with
  | @start s hok hnone =>
    have hlive : s.live = ∅ := by
      refine Set.eq_empty_of_forall_notMem fun p hp => ?_
      obtain ⟨x, hx, _⟩ := hp
      rw [hnone] at hx
      cases hx
    exact ⟨hlive ▸ hok, fun p hp => by rw [hlive] at hp; exact hp.elim⟩
  | step _ hs ih => exact hs.inv ih

end Runs

section Main

theorem frames_agree {s : Mm} (h : Reach s) {p : Nat} {x : Task} (hx : s.tasks p = some x)
    (halive : x.alive = true) :
    (∀ k < 8 * userBitmapLen, x.vaddrBitmap.bits.bit k = true ↔ ∃ f, s.mapped p (bitPage k) = some f) ∧
      (∀ v f, s.mapped p v = some f → s.UserUsed f) ∧
      ∀ q y, s.tasks q = some y → y.alive = true → ∀ v w f,
        s.mapped p v = some f → s.mapped q w = some f → p = q ∧ v = w := by
  have hinv := h.inv
  have hp : p ∈ s.live := ⟨x, hx, halive⟩
  refine ⟨fun k hk => ?_, fun v f hv => hinv.ok.user.used (o := (p, v)) ⟨hp, hv⟩, fun q y hy hq v w f hv hw => ?_⟩
  · rw [hinv.agree p hp x hx k hk, Option.isSome_iff_exists]
  · have heq : (p, v) = (q, w) := hinv.ok.user.inj ⟨hp, hv⟩ ⟨⟨y, hy, hq⟩, hw⟩
    exact Prod.mk.inj heq

/-- The child has the parent's pages, byte for byte, in frames of its own, and the parent
keeps what it had. -/
theorem fork_copies_space {s t : Mm} {L : Set Nat} {p c pid : Nat} (hok : Ok L s) (hp : p ∈ L)
    (hagree : Agree s p)
    (h : ((do pageDirActivate p; sysFork p).on s).run = .ok (some (c, pid), t)) :
    (t.tasks c).map (fun x => x.vaddrBitmap) = (s.tasks p).map (fun x => x.vaddrBitmap) ∧
      (∀ v, userVaddrStart ≤ v → v < kernelBase → t.content c v = s.content p v) ∧
      (∀ v, ¬(userVaddrStart ≤ v ∧ v < kernelBase) → t.mapped c v = none) ∧
      (∀ v w f, t.mapped c v = some f → t.mapped p w ≠ some f) ∧
      ∀ v, t.mapped p v = s.mapped p v ∧ t.content p v = s.content p v := by
  obtain ⟨x, hx, -⟩ := hok.task p hp
  have hrun : ((sysFork p).on { s with active := p }).run = .ok (some (c, pid), t) := h
  have hf := (sat_sysFork (hok.withActive s.phys p) hp rfl hx).of_run hrun _ rfl
  obtain ⟨y, hy, -, -, hmap⟩ := hf.task
  have hpage : ∀ v, userVaddrStart ≤ v → v < kernelBase → ∃ k < 8 * userBitmapLen, v = bitPage k := by
    intro v hlo hhi
    refine ⟨v - userVaddrStart, ?_, ?_⟩
    · simp only [userVaddrStart, kernelBase, userBitmapLen] at hlo hhi ⊢
      omega
    · rw [bitPage]
      omega
  refine ⟨?_, fun v hlo hhi => ?_, fun v hv => ?_, fun v w f hv hw => ?_, fun v => hf.same p hp v⟩
  · rw [hy, hx, Option.map_some, Option.map_some, hmap]
  · obtain ⟨k, hk, rfl⟩ := hpage v hlo hhi
    have hbit := hagree x hx k hk
    cases hb : x.vaddrBitmap.bits.bit k with
    | true => exact (hf.copied k hk hb).2
    | false =>
      -- neither has the page
      rw [hb] at hbit
      have hnone : t.mapped c (bitPage k) = none := by
        refine hf.only _ fun j hj hbj he => ?_
        obtain rfl : k = j := by
          simp only [bitPage] at he
          omega
        rw [hb] at hbj
        cases hbj
      have hnone' : s.mapped p (bitPage k) = none := by
        simpa using hbit.symm
      rw [content, content, hnone, hnone']
      rfl
  · refine hf.only v fun k hk _ he => hv ?_
    rw [he, bitPage]
    simp only [userVaddrStart, kernelBase, userBitmapLen] at hk ⊢
    omega
  · have : (c, v) = (p, w) := hf.ok.user.inj ⟨Or.inl rfl, hv⟩ ⟨Or.inr hp, hw⟩
    obtain rfl := congrArg Prod.fst this
    exact hf.fresh hp

end Main

section Example

theorem booted_heapFrame (v : Nat) : booted.heapFrame v = none := by
  rw [heapFrame]
  split <;> rfl

theorem ok_empty {s : Mm} (hkl : s.kernelPool.btmpBytesLen = 480) (hul : s.userPool.btmpBytesLen = 480)
    (hvl : s.kernelVaddr.btmpBytesLen = 480) (hnone : ∀ v, s.heapFrame v = none) : Ok ∅ s where
  kernelLen := hkl
  userLen := hul
  vaddrLen := hvl
  task := fun p hp => hp.elim
  kernel := by
    have hfree : ∀ o f, ¬KernelHolds ∅ s o f := by
      rintro o f (h | ⟨hp, -⟩)
      · rw [hnone] at h
        cases h
      · exact hp.elim
    exact ⟨fun h => (hfree _ _ h).elim, fun h => (hfree _ _ h).elim⟩
  user := ⟨fun h => h.1.elim, fun h => h.1.elim⟩
  vaddr := fun v f h => by rw [hnone] at h; cases h
  owned := fun p hp => hp.elim
  apart := fun p hp => hp.elim
  pcb := fun p hp => hp.elim

theorem booted_ok : Ok ∅ booted := ok_empty rfl rfl rfl booted_heapFrame

theorem reach_withInit : Reach withInit :=
  .step (.start booted_ok fun _ => rfl) (.execute (run_after (by decide)))

theorem withInit_alive : (withInit.tasks kHeapStart).map Task.alive = some true := by decide

theorem init_frames_agree : ∃ x, withInit.tasks kHeapStart = some x ∧
    ∀ k < 8 * userBitmapLen, x.vaddrBitmap.bits.bit k = true ↔ ∃ f, withInit.mapped kHeapStart (bitPage k) = some f := by
  obtain ⟨x, hx, halive⟩ := Option.map_eq_some_iff.mp withInit_alive
  exact ⟨x, hx, (frames_agree reach_withInit hx halive).1⟩

theorem init_forks : ∃ r t, ((do pageDirActivate kHeapStart; sysFork kHeapStart).on withInit).run =
    .ok (some r, t) := by
  have h := reaped_run
  rw [forkExitWait, ← bind_assoc, bind_on, Res.run_bind] at h
  cases hr : ((do pageDirActivate kHeapStart; sysFork kHeapStart).on withInit).run with
  | error e =>
    rw [hr] at h
    cases h
  | ok x =>
    obtain ⟨r, t⟩ := x
    rw [hr] at h
    cases r with
    | none => cases h
    | some c => exact ⟨c, t, rfl⟩

theorem init_fork_copies : ∃ c pid t, ((do pageDirActivate kHeapStart; sysFork kHeapStart).on withInit).run =
    .ok (some (c, pid), t) ∧ ∀ v, userVaddrStart ≤ v → v < kernelBase → t.content c v = withInit.content kHeapStart v := by
  obtain ⟨⟨c, pid⟩, t, h⟩ := init_forks
  have hp : kHeapStart ∈ withInit.live := Option.map_eq_some_iff.mp withInit_alive
  have hinv := reach_withInit.inv
  exact ⟨c, pid, t, h, (fork_copies_space hinv.ok hp (hinv.agree _ hp) h).2.1⟩

end Example

end TrueOs.Mm
