import TrueOs.Kernel.Space
import TrueOs.Userprog.Process

/-! `sys_fork` and the address spaces of parent and child. -/

namespace TrueOs.Mm

open Function (update update_self update_of_ne)
open Prog

def content (m : Mm) (p v : Nat) : Option Buf := (m.mapped p v).map m.phys

/-- Bit `k` of the bitmap of task `p` is set exactly when its page is mapped. -/
def Agree (m : Mm) (p : Nat) : Prop := ∀ x, m.tasks p = some x → ∀ k < 8 * userBitmapLen,
  x.vaddrBitmap.bits.bit k = (m.mapped p (bitPage k)).isSome

def putTask (m : Mm) (p : Nat) (x : Task) : Mm := { m with tasks := update m.tasks p (some x) }

section Tasks

variable {L : Set Nat} {s : Mm} {p : Nat} {x y : Task}

theorem putTask_self (m : Mm) (p : Nat) (x : Task) : (m.putTask p x).tasks p = some x :=
  update_self _ _ _

theorem putTask_of_ne (m : Mm) {p q : Nat} (x : Task) (h : q ≠ p) : (m.putTask p x).tasks q = m.tasks q :=
  update_of_ne h _ _

theorem putTask_dir (hx : s.tasks p = some x) (hpde : y.pde = x.pde) : (s.putTask p y).dir = s.dir := by
  funext q i
  by_cases hq : q = p
  · subst hq
    rw [dir, dir, putTask_self, hx, Option.bind_some, Option.bind_some, hpde]
  · rw [dir, dir, putTask_of_ne s y hq]

theorem putTask_mapped (hx : s.tasks p = some x) (hpde : y.pde = x.pde) (q v : Nat) :
    (s.putTask p y).mapped q v = s.mapped q v := by
  rw [mapped, mapped, putTask_dir hx hpde]
  rfl

theorem putTask_mapped_of_ne (s : Mm) {q : Nat} (x : Task) (hq : q ≠ p) (v : Nat) :
    (s.putTask p x).mapped q v = s.mapped q v := by
  rw [mapped, mapped, dir, dir, putTask_of_ne s x hq]
  rfl

theorem Ok.putOther (h : Ok L s) (hp : p ∉ L) (x : Task) : Ok L (s.putTask p x) := by
  have hne : ∀ q ∈ L, q ≠ p := fun q hq he => hp (he ▸ hq)
  have htask : ∀ q ∈ L, (s.putTask p x).tasks q = s.tasks q := fun q hq => putTask_of_ne s x (hne q hq)
  refine ⟨h.kernelLen, h.userLen, h.vaddrLen, fun q hq => ?_, ?_, ?_, h.vaddr, fun q hq y hy => ?_,
    fun q hq r hr y z v hy hz => ?_, fun q hq y hy => ?_⟩
  · rw [htask q hq]
    exact h.task q hq
  · refine h.kernel.mono (fun o f ho => ?_) fun _ hf => hf
    cases ho with
    | heap hv => exact .heap hv
    | table hq hd =>
      rw [dir, htask _ hq] at hd
      exact .table hq hd
  · exact h.user.mono (fun o f ho => ⟨ho.1, putTask_mapped_of_ne s x (hne _ ho.1) _ ▸ ho.2⟩) fun _ hf => hf
  · rw [htask q hq] at hy
    exact h.owned q hq y hy
  · rw [htask q hq] at hy
    rw [htask r hr] at hz
    exact h.apart q hq r hr y z v hy hz
  · rw [htask q hq] at hy
    exact h.pcb q hq y hy

theorem Ok.putTask (h : Ok L s) (hx : s.tasks p = some x) (hpde : y.pde = x.pde) (hbits : y.bits = x.bits)
    (hlen : y.vaddrBitmap.btmpBytesLen = x.vaddrBitmap.btmpBytesLen) : Ok L (s.putTask p y) := by
  have htask : ∀ q z, (s.putTask p y).tasks q = some z →
      ∃ z', s.tasks q = some z' ∧ z.bits = z'.bits ∧ (∀ r v, Owns z r v → Owns z' r v) := by
    intro q z hz
    by_cases hq : q = p
    · subst hq
      rw [putTask_self] at hz
      obtain rfl := Option.some.inj hz
      exact ⟨x, hx, hbits, fun r v hv => by rw [Owns, hbits] at hv; exact hv⟩
    · rw [putTask_of_ne s y hq] at hz
      exact ⟨z, hz, rfl, fun _ _ hv => hv⟩
  refine ⟨h.kernelLen, h.userLen, h.vaddrLen, fun q hq => ?_, ?_, ?_, h.vaddr, fun q hq z hz v hv => ?_,
    fun q hq r hr z w v hz hw hv hv' => ?_, fun q hq z hz => ?_⟩
  · obtain ⟨z, hz, hzlen⟩ := h.task q hq
    by_cases hqp : q = p
    · subst hqp
      obtain rfl := Option.some.inj (hz.symm.trans hx)
      exact ⟨y, putTask_self s q y, hlen.trans hzlen⟩
    · exact ⟨z, (putTask_of_ne s y hqp).trans hz, hzlen⟩
  · refine h.kernel.mono (fun o f ho => ?_) fun _ hf => hf
    cases ho with
    | heap hv => exact .heap hv
    | table hq hd => exact .table hq (putTask_dir hx hpde ▸ hd)
  · exact h.user.mono (fun o f ho => ⟨ho.1, putTask_mapped hx hpde _ _ ▸ ho.2⟩) fun _ hf => hf
  · obtain ⟨z', hz', -, hown⟩ := htask q z hz
    exact h.owned q hq z' hz' v (hown q v hv)
  · obtain ⟨z', hz', -, hown⟩ := htask q z hz
    obtain ⟨w', hw', -, hown'⟩ := htask r w hw
    exact h.apart q hq r hr z' w' v hz' hw' (hown q v hv) (hown' r v hv')
  · obtain ⟨z', hz', hb, -⟩ := htask q z hz
    rw [hb]
    exact h.pcb q hq z' hz'

theorem Ok.insert (h : Ok L s) (hx : s.tasks p = some x) (hpde : ∀ i, x.pde i = none)
    (hlen : x.vaddrBitmap.btmpBytesLen = userBitmapLen)
    (howned : ∀ v, Owns x p v → ∃ f, s.heapFrame v = some f)
    (hapart : ∀ q ∈ L, ∀ y v, s.tasks q = some y → Owns y q v → ¬Owns x p v)
    (hpcb : ¬(x.bits ≤ p ∧ p < x.bits + 23)) : Ok (insert p L) s := by
  have hdir : ∀ i, s.dir p i = none := fun i => by rw [dir, hx, Option.bind_some, hpde]
  refine ⟨h.kernelLen, h.userLen, h.vaddrLen, fun q hq => ?_, ?_, ?_, h.vaddr, fun q hq y hy v hv => ?_,
    fun q hq r hr y z v hy hz hv hv' => ?_, fun q hq y hy => ?_⟩
  · rcases hq with rfl | hq
    · exact ⟨x, hx, hlen⟩
    · exact h.task q hq
  · refine h.kernel.mono (fun o f ho => ?_) fun _ hf => hf
    cases ho with
    | heap hv => exact .heap hv
    | table hq hd =>
      rcases hq with rfl | hq
      · rw [hdir] at hd
        cases hd
      · exact .table hq hd
  · refine h.user.mono (fun o f ho => ?_) fun _ hf => hf
    rcases ho.1 with heq | hq
    · have := ho.2
      rw [heq, mapped, hdir] at this
      cases this
    · exact ⟨hq, ho.2⟩
  · rcases hq with rfl | hq
    · obtain rfl := Option.some.inj (hy.symm.trans hx)
      exact howned v hv
    · exact h.owned q hq y hy v hv
  · rcases hq with rfl | hq
    · rcases hr with rfl | hr
      · rfl
      · obtain rfl := Option.some.inj (hy.symm.trans hx)
        exact absurd hv (hapart r hr z v hz hv')
    · rcases hr with rfl | hr
      · obtain rfl := Option.some.inj (hz.symm.trans hx)
        exact absurd hv' (hapart q hq y v hy hv)
      · exact h.apart q hq r hr y z v hy hz hv hv'
  · rcases hq with rfl | hq
    · obtain rfl := Option.some.inj (hy.symm.trans hx)
      exact hpcb
    · exact h.pcb q hq y hy

theorem Ok.mono {L' : Set Nat} (h : Ok L s) (hL : ∀ q ∈ L', q ∈ L) : Ok L' s := by
  refine ⟨h.kernelLen, h.userLen, h.vaddrLen, fun q hq => h.task q (hL q hq), ?_, ?_, h.vaddr,
    fun q hq => h.owned q (hL q hq), fun q hq r hr => h.apart q (hL q hq) r (hL r hr),
    fun q hq => h.pcb q (hL q hq)⟩
  · exact h.kernel.mono (fun _ _ ho => ho.mono hL) fun _ hf => hf
  · exact h.user.mono (fun o f ho => ⟨hL _ ho.1, ho.2⟩) fun _ hf => hf

theorem Ok.withActive (h : Ok L s) (phys : Nat → Buf) (a : Nat) : Ok L { s with phys := phys, active := a } :=
  h.withRest phys a s.threadAllList

theorem Ok.withList (h : Ok L s) (l : List Nat) : Ok L { s with threadAllList := l } := h.withRest s.phys s.active l

theorem sat_activate {a : Nat} {Q : Unit → Mm → Prop} (hQ : Q () { s with active := a }) :
    ((pageDirActivate a).on s).Sat True Q := hQ

end Tasks

section Copy

variable {L : Set Nat} {bits : Buf} {child parent bufPage n : Nat} {s t : Mm}

structure Copied (L : Set Nat) (bits : Buf) (child parent bufPage : Nat) (s : Mm) (n : Nat) (t : Mm) :
    Prop where
  ok : Ok L t
  active : t.active = parent
  kernelVaddr : t.kernelVaddr = s.kernelVaddr
  kpte : t.kpte = s.kpte
  threadAllList : t.threadAllList = s.threadAllList
  info : ∀ p, (t.tasks p).map Task.info = (s.tasks p).map Task.info
  others : ∀ p ∈ L, p ≠ child → ∀ w, t.mapped p w = s.mapped p w ∧ t.content p w = s.content p w
  copied : ∀ k < n, bits.bit k = true → (s.content parent (bitPage k)).isSome = true ∧
    t.content child (bitPage k) = s.content parent (bitPage k)
  only : ∀ w, (∀ k < n, bits.bit k = true → w ≠ bitPage k) → t.mapped child w = none

theorem sat_readPage_user {a v : Nat} (hv : v < kernelBase) (ha : s.active = a) :
    ((readPage v).on s).Sat True (fun b t => t = s ∧ s.content a v = some b) := by
  rw [readPage, sat_bind]
  refine (sat_getPte_user hv ha).mono fun e t ht => ?_
  obtain ⟨rfl, table, hd, rfl⟩ := ht
  split
  · next hp =>
    simp only [sat_bind, sat_get, sat_pure]
    refine ⟨trivial, ?_⟩
    rw [content, mapped, hd, Option.bind_some, Pte.mapped, if_pos hp, Option.map_some]
  · trivial

theorem sat_writePage_user {a v f : Nat} (hv : v < kernelBase) (ha : s.active = a)
    (hf : s.mapped a v = some f) (b : Buf) {Q : Unit → Mm → Prop}
    (hQ : Q () { s with phys := update s.phys f b }) :
    ((writePage v b).on s).Sat True Q := by
  rw [writePage, sat_bind]
  refine (sat_getPte_user hv ha).mono fun e t ht => ?_
  obtain ⟨rfl, table, hd, rfl⟩ := ht
  rw [mapped, hd, Option.bind_some, Pte.mapped] at hf
  split at hf
  · next hp =>
    rw [if_pos hp, Option.some.inj hf]
    exact hQ
  · cases hf

theorem sat_copyPage (h : Copied L bits child parent bufPage s n t) (hne : child ≠ parent) (hc : child ∈ L)
    (hp : parent ∈ L) (hbuf : ∃ f, s.heapFrame bufPage = some f) (hn : bitPage n < kernelBase)
    (hbit : bits.bit n = true) : ((copyPage child parent bufPage (bitPage n)).on t).Sat True
      (fun _ u => Copied L bits child parent bufPage s (n + 1) u) := by
  obtain ⟨fb, hfb⟩ := hbuf
  have hfbt : t.heapFrame bufPage = some fb := by
    rw [heapFrame, h.kpte]
    exact hfb
  have hfblt := (h.ok.kernel.used (.heap hfbt)).2.1
  rw [copyPage, sat_bind]
  refine (sat_readPage_user hn h.active).mono fun b u hu => ?_
  obtain ⟨rfl, hb⟩ := hu
  rw [sat_bind]
  refine sat_writePage_heap hfbt b ?_
  rw [sat_bind]
  refine sat_activate ?_
  have hok := h.ok.withActive (update u.phys fb b) child
  have hcont : ∀ p ∈ L, ∀ w g, u.mapped p w = some g → g ≠ fb := by
    intro p hpL w g hg
    have := (h.ok.user.used (o := (p, w)) ⟨hpL, hg⟩).1
    omega
  rw [sat_bind, getAPageWithoutOpvaddrbitmap]
  refine sat_mapOne hok rfl hc hn fun t f hk hokt hf hother hfree => ?_
  rw [sat_pure, sat_bind, readPage, sat_bind]
  have hfbt' : t.heapFrame bufPage = some fb := (hk.heapFrame bufPage).trans hfbt
  refine sat_getPte_heap hfbt' ?_
  have hb' : t.phys fb = b := by
    rw [hk.phys]
    exact update_self _ _ _
  simp only [if_pos, sat_bind, sat_get, sat_pure, hb']
  refine sat_writePage_user hn hk.active hf b (sat_activate ?_)
  -- a frame that was mapped before keeps its bytes
  have hkeep : ∀ p ∈ L, ∀ w, ¬(p = child ∧ w = bitPage n) →
      ({ t with phys := update t.phys f b, active := parent } : Mm).content p w = u.content p w := by
    intro p hpL w hw
    have hm : t.mapped p w = u.mapped p w := hother p hpL w hw
    change (t.mapped p w).map (update t.phys f b) = (u.mapped p w).map u.phys
    rw [hm]
    cases hg : u.mapped p w with
    | none => rfl
    | some g =>
      have hgf : g ≠ f := by
        rintro rfl
        exact hfree (p, w) ⟨hpL, hg⟩
      have hgb := hcont p hpL w g hg
      rw [Option.map_some, Option.map_some, update_of_ne hgf, hk.phys]
      exact congrArg some (update_of_ne hgb _ _)
  refine ⟨hokt.withActive _ _, rfl, hk.kernelVaddr.trans h.kernelVaddr, 
    hk.kpte.trans h.kpte, hk.threadAllList.trans h.threadAllList, fun p => (hk.info p).trans (h.info p),
    fun p hpL hpc w => ?_, fun k hk' hbk => ?_, fun w hw => ?_⟩
  · have hw : ¬(p = child ∧ w = bitPage n) := fun he => hpc he.1
    exact ⟨(hother p hpL w hw).trans (h.others p hpL hpc w).1, (hkeep p hpL w hw).trans (h.others p hpL hpc w).2⟩
  · by_cases hkn : k = n
    · subst hkn
      have hpar := (h.others parent hp hne.symm (bitPage k)).2
      rw [← hpar, hb]
      refine ⟨rfl, ?_⟩
      change (t.mapped child (bitPage k)).map (update t.phys f b) = some b
      rw [hf, Option.map_some, update_self]
    · have hw : ¬(child = child ∧ bitPage k = bitPage n) := by
        simp only [bitPage]
        omega
      rw [hkeep child hc _ hw]
      exact h.copied k (by omega) hbk
  · have hwn : ¬(child = child ∧ w = bitPage n) := fun he => hw n (by omega) hbit he.2
    exact (hother child hc w hwn).trans (h.only w fun k hk' => hw k (by omega))

theorem Copied.skip (h : Copied L bits child parent bufPage s n t) (hbit : bits.bit n = false) :
    Copied L bits child parent bufPage s (n + 1) t := by
  refine { h with copied := fun k hk hb => ?_, only := fun w hw => h.only w fun k hk => hw k (by omega) }
  have hkn : k ≠ n := by
    rintro rfl
    rw [hbit] at hb
    cases hb
  exact h.copied k (by omega) hb

variable (hne : child ≠ parent) (hc : child ∈ L) (hp : parent ∈ L) (hbuf : ∃ f, s.heapFrame bufPage = some f)

include hne hc hp hbuf

theorem sat_copyBits (idxByte left idxBit : Nat) (h8 : idxBit + left = 8) (hmax : idxByte < userBitmapLen)
    (h : Copied L bits child parent bufPage s (idxByte * 8 + idxBit) t) :
    ((copyBits child parent bufPage (bits idxByte) idxByte left idxBit).on t).Sat True
      (fun _ u => Copied L bits child parent bufPage s (idxByte * 8 + 8) u) := by
  induction left generalizing idxBit t with
  | zero =>
    obtain rfl : idxBit = 8 := by omega
    exact h
  | succ left ih =>
    have hbit : (bits idxByte).toBitVec.getLsbD idxBit = bits.bit (idxByte * 8 + idxBit) := by
      rw [Buf.bit, show (idxByte * 8 + idxBit) / 8 = idxByte by omega,
        show (idxByte * 8 + idxBit) % 8 = idxBit by omega]
    have hlt : bitPage (idxByte * 8 + idxBit) < kernelBase := by
      simp only [bitPage, userVaddrStart, kernelBase, userBitmapLen] at hmax ⊢
      omega
    rw [copyBits, hbit]
    split
    · next hb =>
      rw [sat_bind]
      refine (sat_copyPage h hne hc hp hbuf hlt hb).mono fun _ u hu => ?_
      exact ih (idxBit + 1) (by omega) hu
    · next hb => exact ih (idxBit + 1) (by omega) (h.skip (by simpa using hb))

theorem sat_copyBytes (left idxByte : Nat) (hlen : idxByte + left = userBitmapLen)
    (h : Copied L bits child parent bufPage s (idxByte * 8) t) :
    ((copyBytes child parent bufPage bits left idxByte).on t).Sat True
      (fun _ u => Copied L bits child parent bufPage s (8 * userBitmapLen) u) := by
  induction left generalizing idxByte t with
  | zero =>
    obtain rfl : idxByte = userBitmapLen := by omega
    rw [Nat.mul_comm] at h
    exact h
  | succ left ih =>
    have hnext : (idxByte + 1) * 8 = idxByte * 8 + 8 := by omega
    generalize hprog : copyBits child parent bufPage (bits idxByte) idxByte 8 0 = prog
    rw [copyBytes, hprog]
    split
    · rw [sat_bind, ← hprog]
      refine (sat_copyBits hne hc hp hbuf idxByte 8 0 rfl (by omega) h).mono fun _ u hu => ?_
      exact ih (idxByte + 1) (by omega) (hnext ▸ hu)
    · next hzero =>
      have hzero : bits idxByte = 0 := not_not.mp hzero
      have hbit : ∀ i < 8, bits.bit (idxByte * 8 + i) = false := by
        intro i hi
        rw [Buf.bit, show (idxByte * 8 + i) / 8 = idxByte by omega, hzero]
        simp
      refine ih (idxByte + 1) (by omega) (hnext ▸ ?_)
      exact (((((((h.skip (hbit 0 (by omega))).skip (hbit 1 (by omega))).skip (hbit 2 (by omega))).skip
        (hbit 3 (by omega))).skip (hbit 4 (by omega))).skip (hbit 5 (by omega))).skip (hbit 6 (by omega))).skip
        (hbit 7 (by omega))

end Copy

section Fork

variable {L : Set Nat} {s t u : Mm} {child parent : Nat} {x : Task}

theorem sat_allocatePid (h : Ok L s) : (allocatePid.on s).Sat True (fun _ t =>
    Ok L t ∧ ∃ b, t = { s with pidBitmap := b }) := by
  simp only [allocatePid, sat_bind, sat_get]
  refine Bitmap.sat_bitmapScan_one (Or.inl trivial) fun i hi => ?_
  simp only [sat_bind, sat_get]
  refine Bitmap.sat_bitmapSet hi.lt ?_
  rw [sat_modify, sat_pure]
  refine ⟨?_, _, rfl⟩
  refine h.keptUser ⟨rfl, rfl, rfl, rfl, rfl⟩ h.kernelLen h.vaddrLen ?_ h.vaddr fun _ _ _ _ _ _ => rfl
  exact h.kernel.mono (fun _ _ => .same rfl rfl) fun _ hf => hf

structure Cloned (child : Nat) (x : Task) (s t : Mm) : Prop where
  tables : t.tables = s.tables
  threadAllList : t.threadAllList = s.threadAllList
  active : t.active = s.active
  others : ∀ p, p ≠ child → t.tasks p = s.tasks p
  task : ∃ y, t.tasks child = some y ∧ y.status = .ready ∧ y.vaddrBitmap = x.vaddrBitmap ∧
    KernelMapped y.bits 23 s t ∧ ∀ w, y.bits ≤ w → w < y.bits + 23 → s.heapFrame w = none
  same : SameUser s t

theorem sat_copyPcb (h : Ok L s) (hc : child ∉ L) (hx : s.tasks parent = some x) :
    ((copyPcbVaddrbitmapStack0 child parent).on s).Sat True (fun ok t => ok = true →
      Ok L t ∧ Cloned child x s t) := by
  rw [copyPcbVaddrbitmapStack0, sat_bind]
  refine (sat_getTask parent s).mono fun x' t ht => ?_
  obtain ⟨rfl, hx'⟩ := ht
  obtain rfl := Option.some.inj (hx'.symm.trans hx)
  rw [sat_bind]
  refine (sat_allocatePid h).mono fun pid u hu => ?_
  obtain ⟨hok, b, rfl⟩ := hu
  rw [sat_bind]
  refine (sat_getKernelPages hok _).mono fun r u hu => ?_
  cases r with
  | none => exact fun h => by cases h
  | some bits =>
    obtain ⟨hoku, hnew⟩ := hu bits rfl
    simp only [sat_bind, sat_assert]
    refine ⟨fun _ _ => ⟨hoku.putOther hc _, ?_⟩, fun _ => trivial⟩
    refine ⟨hnew.tables, hnew.threadAllList, hnew.active, fun p hp => ?_,
      ⟨_, putTask_self u child _, rfl, rfl, ⟨hnew.inside, hnew.outside⟩, hnew.fresh⟩, hnew.same⟩
    exact (putTask_of_ne u _ hp).trans (congrFun hnew.tasks p)

/-- The child of a successful `sys_fork`. -/
structure Forked (L : Set Nat) (child parent : Nat) (x : Task) (s t : Mm) : Prop where
  ok : Ok (insert child L) t
  fresh : child ∉ L
  others : ∀ p, p ≠ child → (t.tasks p).map Task.info = (s.tasks p).map Task.info
  task : ∃ y, t.tasks child = some y ∧ y.status = .ready ∧ y.pgdir.isSome = true ∧
    y.vaddrBitmap = x.vaddrBitmap
  same : ∀ p ∈ L, ∀ w, t.mapped p w = s.mapped p w ∧ t.content p w = s.content p w
  copied : ∀ k < 8 * userBitmapLen, x.vaddrBitmap.bits.bit k = true →
    (s.content parent (bitPage k)).isSome = true ∧ t.content child (bitPage k) = s.content parent (bitPage k)
  only : ∀ w, (∀ k < 8 * userBitmapLen, x.vaddrBitmap.bits.bit k = true → w ≠ bitPage k) →
    t.mapped child w = none

theorem content_eq (h : Ok L s) {p w : Nat} (hp : p ∈ L) (hm : t.mapped p w = s.mapped p w)
    (hsame : SameUser s t) : t.content p w = s.content p w := by
  rw [content, content, hm]
  cases hg : s.mapped p w with
  | none => rfl
  | some g =>
    rw [Option.map_some, Option.map_some, hsame g (h.user.used (o := (p, w)) ⟨hp, hg⟩).1]

structure Prepared (L : Set Nat) (child parent bufPage : Nat) (x y : Task) (s u : Mm) : Prop where
  ok : Ok L u
  active : u.active = parent
  list : u.threadAllList = s.threadAllList
  others : ∀ p, p ≠ child → u.tasks p = s.tasks p
  tables : u.tables = s.tables
  task : u.tasks child = some y
  ready : y.status = .ready
  bitmap : y.vaddrBitmap = x.vaddrBitmap
  same : SameUser s u
  buf : ∃ f, u.heapFrame bufPage = some f
  owned : ∀ v, Owns y child v → ∃ f, u.heapFrame v = some f
  pcb : ¬(y.bits ≤ child ∧ child < y.bits + 23)
  bufApart : ¬Owns y child bufPage
  apart : ∀ q ∈ L, ∀ z v, u.tasks q = some z → Owns z q v → ¬Owns y child v ∧ v ≠ bufPage

theorem Prepared.mapped {bufPage : Nat} {y : Task} (h : Prepared L child parent bufPage x y s u)
    (hc : child ∉ L) {p : Nat} (hp : p ∈ L) (w : Nat) : u.mapped p w = s.mapped p w := by
  rw [Mm.mapped, Mm.mapped, dir, dir, h.others p fun he => hc (he ▸ hp), h.tables]

theorem sat_copyRest {bufPage : Nat} {y : Task} (h : Prepared L child parent bufPage x y s u) (hs : Ok L s)
    (hc : child ∉ L) (hp : parent ∈ L) (hx : s.tasks parent = some x)
    (hlen : x.vaddrBitmap.btmpBytesLen = userBitmapLen) (pgdir : Nat) :
    ((do
      setTask child { y with pgdir := some pgdir, pde := fun _ => none }
      copyBodyStack3 child parent bufPage
      mfreePage parent .kernel bufPage 1
      return true).on u).Sat True (fun ok t => ok = true →
        Forked L child parent x s t ∧ t.threadAllList = s.threadAllList) := by
  have hne : child ≠ parent := fun he => hc (he ▸ hp)
  rw [sat_bind, setTask, sat_modify]
  change Res.Sat _ _ (Prog.on _ (u.putTask child { y with pgdir := some pgdir, pde := fun _ => none }))
  generalize hz : ({ y with pgdir := some pgdir, pde := fun _ => none } : Task) = z
  have hzb : z.bits = y.bits ∧ z.vaddrBitmap = x.vaddrBitmap ∧ (∀ i, z.pde i = none) ∧ z.status = .ready ∧
      z.pgdir.isSome = true := by
    subst hz
    exact ⟨rfl, h.bitmap, fun _ => rfl, h.ready, rfl⟩
  obtain ⟨hzbits, hzmap, hzpde, hzready, hzdir⟩ := hzb
  have hown : ∀ {v}, Owns z child v → Owns y child v := by
    intro v hv
    rwa [Owns, hzbits] at hv
  have hother : ∀ q ∈ L, (u.putTask child z).tasks q = u.tasks q :=
    fun q hq => putTask_of_ne u z fun he => hc (he ▸ hq)
  have hok : Ok (insert child L) (u.putTask child z) := by
    refine (h.ok.putOther hc z).insert (putTask_self u child z) hzpde (by rw [hzmap, hlen])
      (fun v hv => h.owned v (hown hv)) (fun q hq z' v hz' hv hv' => ?_) (by rw [hzbits]; exact h.pcb)
    rw [hother q hq] at hz'
    exact (h.apart q hq z' v hz' hv).1 (hown hv')
  have hpar : (u.putTask child z).tasks parent = some x := by
    rw [hother parent hp, h.others parent hne.symm, hx]
  have hdirc : ∀ w, (u.putTask child z).mapped child w = none := by
    intro w
    rw [Mm.mapped, dir, putTask_self, Option.bind_some, hzpde]
    rfl
  have hmapL : ∀ p ∈ L, ∀ w, (u.putTask child z).mapped p w = s.mapped p w ∧
      (u.putTask child z).content p w = s.content p w := by
    intro p hpL w
    have hpc : p ≠ child := fun he => hc (he ▸ hpL)
    have hm : (u.putTask child z).mapped p w = s.mapped p w :=
      (putTask_mapped_of_ne u z hpc w).trans (h.mapped hc hpL w)
    exact ⟨hm, content_eq hs hpL hm h.same⟩
  rw [sat_bind, copyBodyStack3, sat_bind]
  refine (sat_getTask parent _).mono fun x' v hv => ?_
  obtain ⟨rfl, hx'⟩ := hv
  obtain rfl := Option.some.inj (hx'.symm.trans hpar)
  have hstart : Copied (insert child L) x'.vaddrBitmap.bits child parent bufPage (u.putTask child z) (0 * 8)
      (u.putTask child z) :=
    ⟨hok, h.active, rfl, rfl, rfl, fun _ => rfl, fun _ _ _ _ => ⟨rfl, rfl⟩, fun k hk => by omega,
      fun w _ => hdirc w⟩
  have hbuf : ∃ f, (u.putTask child z).heapFrame bufPage = some f := h.buf
  rw [hlen]
  refine (sat_copyBytes hne (Or.inl rfl) (Or.inr hp) hbuf userBitmapLen 0 (by omega) hstart).mono
    fun _ t ht => ?_
  rw [sat_bind]
  have hkept : ∀ q y', t.tasks q = some y' → ∃ z', (u.putTask child z).tasks q = some z' ∧ y'.info = z'.info := by
    intro q y' hy'
    have hinfo := ht.info q
    rw [hy', Option.map_some] at hinfo
    obtain ⟨z', hz', he⟩ := Option.map_eq_some_iff.mp hinfo.symm
    exact ⟨z', hz', he.symm⟩
  have hheap : ∀ v, t.heapFrame v = u.heapFrame v := fun v => by
    rw [heapFrame, heapFrame, ht.kpte]
    rfl
  refine (sat_mfreeKernel ht.ok parent (fun w hw hw' => ?_) fun w hw hw' q hq y' hy' hv => ?_).mono
    fun _ r hr _ => ?_
  · obtain rfl : w = bufPage := by omega
    rw [hheap]
    exact h.buf
  · obtain rfl : w = bufPage := by omega
    obtain ⟨z', hz', hi⟩ := hkept q y' hy'
    have hv' := Task.info_owns hi hv
    rcases hq with rfl | hq
    · obtain rfl := Option.some.inj (hz'.symm.trans (putTask_self u q z))
      exact h.bufApart (hown hv')
    · rw [hother q hq] at hz'
      exact (h.apart q hq z' w hz' hv').2 rfl
  · obtain ⟨hku, hokr, hphys⟩ := hr
    have hcont : ∀ p w, r.content p w = t.content p w := fun p w => by
      rw [content, content, hku.mapped, hphys]
    refine ⟨⟨hokr, hc, fun p hpc => ?_, ?_, fun p hpL w => ?_, fun k hk hb => ?_, fun w hw => ?_⟩, ?_⟩
    · rw [hku.tasks, ht.info, putTask_of_ne u z hpc, h.others p hpc]
    · have hinfo := ht.info child
      rw [putTask_self, Option.map_some] at hinfo
      obtain ⟨y', hy', hi⟩ := Option.map_eq_some_iff.mp hinfo
      refine ⟨y', by rw [hku.tasks, hy'], ?_, ?_, ?_⟩
      · exact (congrArg (fun t : Task => t.status) hi).trans hzready
      · exact (congrArg (fun t : Task => t.pgdir.isSome) hi).trans hzdir
      · exact (Task.info_vaddrBitmap hi).trans hzmap
    · have hpc : p ≠ child := fun he => hc (he ▸ hpL)
      obtain ⟨h1, h2⟩ := ht.others p (Or.inr hpL) hpc w
      rw [hku.mapped, hcont]
      exact ⟨h1.trans (hmapL p hpL w).1, h2.trans (hmapL p hpL w).2⟩
    · have := ht.copied k hk hb
      rw [(hmapL parent hp _).2] at this
      rw [hcont]
      exact this
    · rw [hku.mapped]
      exact ht.only w hw
    · rw [hku.threadAllList, ht.threadAllList]
      exact h.list

theorem sat_copyProcess (h : Ok L s) (hp : parent ∈ L) (ha : s.active = parent)
    (hx : s.tasks parent = some x) (hcf : ∃ f, s.heapFrame child = some f)
    (hc : ∀ q ∈ L, ∀ y, s.tasks q = some y → ¬Owns y q child) :
    ((copyProcess child parent).on s).Sat True (fun ok t => ok = true →
      Forked L child parent x s t ∧ t.threadAllList = s.threadAllList) := by
  have hcL : child ∉ L := by
    intro hcL
    obtain ⟨y, hy, -⟩ := h.task child hcL
    exact hc child hcL y hy (Or.inl rfl)
  have hne : child ≠ parent := fun he => hcL (he ▸ hp)
  have hlen : x.vaddrBitmap.btmpBytesLen = userBitmapLen := by
    obtain ⟨x', hx', hlen⟩ := h.task parent hp
    obtain rfl := Option.some.inj (hx'.symm.trans hx)
    exact hlen
  rw [copyProcess, sat_bind]
  refine (sat_getKernelPages h 1).mono fun r s₂ h₂ => ?_
  cases r with
  | none => exact fun h => by cases h
  | some bufPage =>
    obtain ⟨hok₂, hnew₂⟩ := h₂ bufPage rfl
    dsimp only
    rw [sat_bind]
    refine (sat_copyPcb hok₂ hcL (hnew₂.tasks ▸ hx)).mono fun ok s₅ h₅ => ?_
    cases ok with
    | false => exact fun h => by cases h
    | true =>
      obtain ⟨hok₅, hcl⟩ := h₅ rfl
      obtain ⟨y, hy, hready, hbtmp, hbits, hfresh⟩ := hcl.task
      rw [if_pos rfl, sat_bind, createPageDir]
      refine (sat_getKernelPages hok₅ 1).mono fun r s₆ h₆ => ?_
      cases r with
      | none => exact fun h => by cases h
      | some pgdir =>
        obtain ⟨hok₆, hnew₆⟩ := h₆ pgdir rfl
        dsimp only
        rw [sat_bind]
        refine (sat_getTask child s₆).mono fun y' u hu => ?_
        obtain ⟨rfl, hy'⟩ := hu
        obtain rfl : y' = y := Option.some.inj (hy'.symm.trans ((congrFun hnew₆.tasks child).trans hy))
        obtain ⟨fc, hfc⟩ := hcf
        -- a page that is mapped stays so while others are allocated
        have h23 : ∀ w g, s.heapFrame w = some g → s₂.heapFrame w = some g := by
          intro w g hw
          rw [hnew₂.outside w fun hr => ?_, hw]
          rw [hnew₂.fresh w hr.1 hr.2] at hw
          cases hw
        have h25 : ∀ w g, s₂.heapFrame w = some g → s₅.heapFrame w = some g := by
          intro w g hw
          rw [hbits.outside w fun hr => ?_, hw]
          rw [hfresh w hr.1 hr.2] at hw
          cases hw
        have h56 : ∀ w g, s₅.heapFrame w = some g → u.heapFrame w = some g := by
          intro w g hw
          rw [hnew₆.outside w fun hr => ?_, hw]
          rw [hnew₆.fresh w hr.1 hr.2] at hw
          cases hw
        obtain ⟨fb, hfb⟩ := hnew₂.inside bufPage le_rfl (by omega)
        have hbc : bufPage ≠ child := by
          rintro rfl
          rw [hnew₂.fresh bufPage le_rfl (by omega)] at hfc
          cases hfc
        have hrange : ∀ w g, s₂.heapFrame w = some g → ¬(y'.bits ≤ w ∧ w < y'.bits + 23) := by
          intro w g hw hr
          rw [hfresh w hr.1 hr.2] at hw
          cases hw
        refine sat_copyRest (y := y') ⟨hok₆, ?_, ?_, fun p hpc => ?_, ?_, hy', hready, hbtmp, ?_, ?_,
          fun v hv => ?_, ?_, ?_, fun q hq z v hz hv => ?_⟩ h hcL hp hx hlen pgdir
        · rw [hnew₆.active, hcl.active, hnew₂.active, ha]
        · rw [hnew₆.threadAllList, hcl.threadAllList, hnew₂.threadAllList]
        · rw [hnew₆.tasks, hcl.others p hpc, hnew₂.tasks]
        · rw [hnew₆.tables, hcl.tables, hnew₂.tables]
        · exact fun g hg => (hnew₆.same g hg).trans ((hcl.same g hg).trans (hnew₂.same g hg))
        · exact ⟨fb, h56 _ _ (h25 _ _ hfb)⟩
        · rcases hv with rfl | ⟨hlo, hhi⟩
          · exact ⟨fc, h56 _ _ (h25 _ _ (h23 _ _ hfc))⟩
          · obtain ⟨g, hg⟩ := hbits.inside v hlo hhi
            exact ⟨g, h56 _ _ hg⟩
        · exact hrange child fc (h23 _ _ hfc)
        · rintro (rfl | hr)
          · exact hbc rfl
          · exact hrange bufPage fb hfb hr
        · have hz₀ : s.tasks q = some z := by
            rw [← hz, hnew₆.tasks, hcl.others q fun he => hcL (he ▸ hq), hnew₂.tasks]
          obtain ⟨g, hg⟩ := h.owned q hq z hz₀ v hv
          refine ⟨?_, ?_⟩
          · rintro (rfl | hr)
            · exact hc q hq z hz₀ hv
            · exact hrange v g (h23 _ _ hg) hr
          · rintro rfl
            rw [hnew₂.fresh v le_rfl (by omega)] at hg
            cases hg

theorem sat_sysFork (h : Ok L s) (hp : parent ∈ L) (ha : s.active = parent) (hx : s.tasks parent = some x) :
    ((sysFork parent).on s).Sat True
      (fun r t => ∀ c ∈ r, Forked L c.1 parent x s t) := by
  rw [sysFork, sat_bind]
  refine (sat_getKernelPages h 1).mono fun r u hu => ?_
  cases r with
  | none => exact fun c hc => by cases hc
  | some child =>
    obtain ⟨hok, hnew⟩ := hu child rfl
    have hmapped : ∀ p w, u.mapped p w = s.mapped p w := hnew.toKeptUser.mapped
    dsimp only
    rw [sat_bind]
    refine (sat_getTask parent u).mono fun x' v hv => ?_
    obtain ⟨rfl, hx'⟩ := hv
    simp only [sat_bind, sat_assert]
    refine ⟨fun _ => ?_, fun _ => trivial⟩
    refine (sat_copyProcess (x := x) hok hp (hnew.active.trans ha) (hnew.tasks ▸ hx)
      (hnew.inside child le_rfl (by omega)) fun q hq y hy hown => ?_).mono fun ok t ht => ?_
    · rw [hnew.tasks] at hy
      obtain ⟨g, hg⟩ := h.owned q hq y hy child hown
      rw [hnew.fresh child le_rfl (by omega)] at hg
      cases hg
    · cases ok with
      | false => exact fun c hc => by cases hc
      | true =>
        obtain ⟨hf, -⟩ := ht rfl
        have hcont : ∀ p ∈ L, ∀ w, v.content p w = s.content p w := fun p hpL w =>
          content_eq h hpL (hmapped p w) hnew.same
        simp only [if_pos, sat_bind, sat_get, sat_assert, sat_modify]
        refine ⟨fun _ => ?_, fun _ => trivial⟩
        refine (sat_getTask child _).mono fun y w hw => ?_
        obtain ⟨rfl, -⟩ := hw
        intro c hc
        obtain rfl := Option.some.inj hc
        refine ⟨hf.ok.withList _, hf.fresh, fun p hpc => ?_, hf.task, fun p hpL w => ?_, fun k hk hb => ?_, hf.only⟩
        · exact (hf.others p hpc).trans (by rw [hnew.tasks])
        · obtain ⟨h1, h2⟩ := hf.same p hpL w
          exact ⟨h1.trans (hmapped p w), h2.trans (hcont p hpL w)⟩
        · have hk' := hf.copied k hk hb
          rw [hcont parent hp] at hk'
          exact hk'

end Fork

end TrueOs.Mm
