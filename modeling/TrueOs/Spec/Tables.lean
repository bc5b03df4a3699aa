import TrueOs.Spec.Tree

/-! The tables in memory while inodes are opened, changed and closed. -/

namespace TrueOs.Fs

open Function (update update_self update_of_ne)

namespace Mem

def skel (m : Mem) (p : Nat) : Option (Nat × Nat) := (m.inodes p).map (fun i => (i.iNo, i.iOpenCnts))

@[simps] def upd (m : Mem) (n size : Nat) (sec : Nat → Nat) : Mem :=
  { m with inodes := fun p => (m.inodes p).map (fun i => if i.iNo = n then i.body size sec else i) }

@[simps] def setFile (m : Mem) (k : Nat) (f : File) : Mem :=
  { m with fileTable := update m.fileTable k f }

end Mem

structure Skel (m m' : Mem) : Prop where
  list : m'.openInodes = m.openInodes
  objs : ∀ p, m'.skel p = m.skel p

section Skel

variable {m m' m'' : Mem} {p n size : Nat} {sec : Nat → Nat} {i : Inode}

theorem Skel.some (h : Skel m m') (hi : m'.inodes p = some i) :
    ∃ j, m.inodes p = some j ∧ j.iNo = i.iNo ∧ j.iOpenCnts = i.iOpenCnts := by
  have := h.objs p
  rw [Mem.skel, Mem.skel, hi, Option.map_some] at this
  obtain ⟨j, hj, he⟩ := Option.map_eq_some_iff.mp this.symm
  exact ⟨j, hj, congrArg Prod.fst he, congrArg Prod.snd he⟩

theorem Skel.symm (h : Skel m m') : Skel m' m :=
  ⟨h.list.symm, fun p => (h.objs p).symm⟩

theorem skel_set {j : Inode} (hp : m.inodes p = some i) (hno : j.iNo = i.iNo)
    (hc : j.iOpenCnts = i.iOpenCnts) : Skel m (m.set p j) := by
  refine ⟨rfl, fun q => ?_⟩
  by_cases hq : q = p
  · subst hq
    simp [Mem.skel, Mem.set, hp, hno, hc]
  · simp [Mem.skel, Mem.set, update_of_ne hq]

end Skel

section Upd

variable {w : View} {m : Mem} {p n size : Nat} {sec : Nat → Nat} {i : Inode}

theorem Cached.set_eq_upd (h : Cached w m) (hp : m.inodes p = some i) :
    m.set p (i.body size sec) = m.upd i.iNo size sec := by
  rw [Mem.set, Mem.upd]
  congr 1
  funext q
  by_cases hq : q = p
  · subst hq
    rw [update_self, hp, Option.map_some, if_pos rfl]
  · rw [update_of_ne hq]
    cases hj : m.inodes q with
    | none => rfl
    | some j =>
      rw [Option.map_some, if_neg]
      exact fun hno => hq (h.once q j p i hj hp hno)

theorem Cached.upd_of_none (h : Cached w m) (hf : m.find n = none) : m.upd n size sec = m := by
  rw [Mem.upd]
  congr 1
  funext q
  cases hj : m.inodes q with
  | none => rfl
  | some j =>
    rw [Option.map_some, if_neg]
    exact Mem.find_none hf ((h.obj q).mpr ⟨j, hj⟩) hj

theorem Cached.closed_upd (h : Cached w m) (hc : Calm m) {j : Inode}
    (hj : (m.opened w n).inodes (m.ptr n) = some j) :
    ((m.opened w n).set (m.ptr n) (j.body size sec)).closed (m.ptr n) = m.upd n size sec := by
  rw [Mem.closed_body_opened h.ok (hc.counted.counts h) hj]
  cases hf : m.find n with
  | none => exact (h.upd_of_none hf).symm
  | some p =>
    obtain ⟨-, i, hi, hno⟩ := Mem.find_some hf
    subst hno
    dsimp only
    rw [Mem.deliver_of_find hf hi, h.set_eq_upd hi]

end Upd

section Cached

variable {w W : View} {m m' : Mem} {p n d size : Nat} {sec : Nat → Nat} {i j : Inode}

theorem mem_upd (m : Mem) (d size : Nat) (sec : Nat → Nat) (hj : (m.upd d size sec).inodes p = some j) :
    ∃ i, m.inodes p = some i ∧ j.iNo = i.iNo ∧ j.iOpenCnts = i.iOpenCnts ∧
      (i.iNo = d ∧ j.iSize = size ∧ j.iSectors = sec ∨
        i.iNo ≠ d ∧ j.iSize = i.iSize ∧ j.iSectors = i.iSectors) := by
  obtain ⟨i, hi, he⟩ := Option.map_eq_some_iff.mp hj
  refine ⟨i, hi, ?_⟩
  by_cases hd : i.iNo = d
  · rw [if_pos hd] at he
    subst he
    exact ⟨rfl, rfl, Or.inl ⟨hd, rfl, rfl⟩⟩
  · rw [if_neg hd] at he
    subst he
    exact ⟨rfl, rfl, Or.inr ⟨hd, rfl, rfl⟩⟩

theorem Cached.upd (h : Cached w m) (hib : ∀ p i, m.inodes p = some i → W.ibit i.iNo = true)
    (hd : (W.ino d).iSize = size ∧ (W.ino d).iSectors = sec)
    (hne : ∀ p i, m.inodes p = some i → i.iNo ≠ d → W.ino i.iNo = w.ino i.iNo) :
    Cached W (m.upd d size sec) where
  nodup := h.nodup
  obj p := by
    rw [Mem.upd_openInodes, h.obj p, Mem.upd_inodes]
    constructor
    · rintro ⟨i, hi⟩
      exact ⟨_, by rw [hi]; rfl⟩
    · rintro ⟨j, hj⟩
      obtain ⟨i, hi, -⟩ := Option.map_eq_some_iff.mp hj
      exact ⟨i, hi⟩
  alloc p j hj := by
    obtain ⟨i, hi, hno, -⟩ := mem_upd m d size sec hj
    rw [hno]
    exact hib p i hi
  agree p j hj := by
    obtain ⟨i, hi, hno, -, ⟨rfl, hs⟩ | ⟨hne', hs⟩⟩ := mem_upd m d size sec hj
    · rw [hno, hd.1, hd.2]
      exact hs
    · rw [hno, hne p i hi hne', hs.1, hs.2]
      exact h.agree p i hi
  pos p j hj := by
    obtain ⟨i, hi, -, hc, -⟩ := mem_upd m d size sec hj
    rw [hc]
    exact h.pos p i hi
  once p j q j' hj hj' he := by
    obtain ⟨i, hi, hno, -⟩ := mem_upd m d size sec hj
    obtain ⟨i', hi', hno', -⟩ := mem_upd m d size sec hj'
    exact h.once p i q i' hi hi' (by rw [← hno, ← hno', he])
  root := by
    obtain ⟨i, hi, hno⟩ := h.root
    refine ⟨_, by rw [Mem.upd_rootDir, Mem.upd_inodes, hi]; rfl, ?_⟩
    dsimp only
    split
    · exact hno
    · exact hno

theorem Cached.push (h : Cached w m) (hp : m.inodes p = none)
    (hno : ∀ q j, m.inodes q = some j → j.iNo ≠ i.iNo) (hib : w.ibit i.iNo = true)
    (hag : i.iSize = (w.ino i.iNo).iSize ∧ i.iSectors = (w.ino i.iNo).iSectors)
    (hc : 1 ≤ i.iOpenCnts) : Cached w (m.push p i) := by
  have hcases : ∀ q j, (m.push p i).inodes q = some j → q = p ∧ j = i ∨ m.inodes q = some j := by
    intro q j hj
    rw [Mem.push_inodes] at hj
    by_cases hq : q = p
    · subst hq
      rw [update_self, Option.some.injEq] at hj
      exact Or.inl ⟨rfl, hj.symm⟩
    · rw [update_of_ne hq] at hj
      exact Or.inr hj
  refine ⟨?_, ?_, ?_, ?_, ?_, ?_, ?_⟩
  · rw [Mem.push_openInodes]
    refine List.nodup_cons.mpr ⟨fun hmem => ?_, h.nodup⟩
    obtain ⟨j, hj⟩ := (h.obj p).mp hmem
    rw [hp] at hj
    cases hj
  · intro q
    rw [Mem.push_openInodes, Mem.push_inodes]
    by_cases hq : q = p
    · subst hq
      simp
    · simp [hq, h.obj q]
  · intro q j hj
    rcases hcases q j hj with ⟨rfl, rfl⟩ | hj
    · exact hib
    · exact h.alloc q j hj
  · intro q j hj
    rcases hcases q j hj with ⟨rfl, rfl⟩ | hj
    · exact hag
    · exact h.agree q j hj
  · intro q j hj
    rcases hcases q j hj with ⟨rfl, rfl⟩ | hj
    · exact hc
    · exact h.pos q j hj
  · intro q j q' j' hj hj' he
    rcases hcases q j hj with ⟨rfl, rfl⟩ | hq <;> rcases hcases q' j' hj' with ⟨rfl, rfl⟩ | hq'
    · rfl
    · exact absurd he.symm (hno q' j' hq')
    · exact absurd he (hno q j hq)
    · exact h.once q j q' j' hq hq' he
  · obtain ⟨j, hj, hz⟩ := h.root
    refine ⟨j, ?_, hz⟩
    rw [Mem.push_rootDir, Mem.push_inodes, update_of_ne, hj]
    rintro rfl
    rw [hp] at hj
    cases hj

theorem Cached.set (h : Cached w m) (hp : m.inodes p = some i) (hno : j.iNo = i.iNo)
    (hs : j.iSize = i.iSize ∧ j.iSectors = i.iSectors) (hc : 1 ≤ j.iOpenCnts) : Cached w (m.set p j) := by
  have hcases : ∀ q i', (m.set p j).inodes q = some i' → ∃ i₀, m.inodes q = some i₀ ∧
      i'.iNo = i₀.iNo ∧ i'.iSize = i₀.iSize ∧ i'.iSectors = i₀.iSectors ∧ 1 ≤ i'.iOpenCnts := by
    intro q i' hi'
    rw [Mem.set_inodes] at hi'
    by_cases hq : q = p
    · subst hq
      rw [update_self, Option.some.injEq] at hi'
      subst hi'
      exact ⟨i, hp, hno, hs.1, hs.2, hc⟩
    · rw [update_of_ne hq] at hi'
      exact ⟨i', hi', rfl, rfl, rfl, h.pos q i' hi'⟩
  refine ⟨h.nodup, ?_, ?_, ?_, ?_, ?_, ?_⟩
  · intro q
    rw [Mem.set_openInodes, h.obj q, Mem.set_inodes]
    by_cases hq : q = p
    · subst hq
      simp [hp]
    · simp [update_of_ne hq]
  · intro q i' hi'
    obtain ⟨i₀, h₀, hno', -⟩ := hcases q i' hi'
    rw [hno']
    exact h.alloc q i₀ h₀
  · intro q i' hi'
    obtain ⟨i₀, h₀, hno', h₁, h₂, -⟩ := hcases q i' hi'
    rw [hno', h₁, h₂]
    exact h.agree q i₀ h₀
  · intro q i' hi'
    obtain ⟨-, -, -, -, -, h₁⟩ := hcases q i' hi'
    exact h₁
  · intro q i₁ q' i₂ h₁ h₂ he
    obtain ⟨j₁, hj₁, hn₁, -⟩ := hcases q i₁ h₁
    obtain ⟨j₂, hj₂, hn₂, -⟩ := hcases q' i₂ h₂
    exact h.once q j₁ q' j₂ hj₁ hj₂ (by rw [← hn₁, ← hn₂, he])
  · obtain ⟨i₀, h₀, hz⟩ := h.root
    by_cases hq : m.rootDir = p
    · refine ⟨j, ?_, ?_⟩
      · rw [Mem.set_rootDir, hq, Mem.set_inodes_self]
      · rw [hq, hp, Option.some.injEq] at h₀
        subst h₀
        rw [hno, hz]
    · exact ⟨i₀, by rw [Mem.set_rootDir, Mem.set_inodes, update_of_ne hq, h₀], hz⟩

theorem Cached.opened (h : Cached w m) (hc : Below 1 m) (hib : w.ibit n = true) (hno : (w.ino n).iNo = n) :
    Cached w (m.opened w n) := by
  rw [Mem.opened]
  cases hf : m.find n with
  | none =>
    dsimp only
    apply h.push h.ok.fresh_none
    · intro q j hj
      rw [Inode.cnt_iNo, hno]
      exact Mem.find_none hf ((h.obj q).mpr ⟨j, hj⟩) hj
    · rwa [Inode.cnt_iNo, hno]
    · rw [Inode.cnt_iNo, hno]
      exact ⟨rfl, rfl⟩
    · exact Nat.le_refl 1
  | some p =>
    obtain ⟨-, i, hi, -⟩ := Mem.find_some hf
    have := hc p i hi
    dsimp only
    rw [Mem.deliver_of_find hf hi]
    refine h.set hi ?_ ⟨?_, ?_⟩ ?_
    · rfl
    · rfl
    · rfl
    · rw [Inode.cnt_iOpenCnts, add32_of_lt (by omega)]
      omega

theorem Cached.congr (h : Cached w m) (h₁ : m'.inodes = m.inodes) (h₂ : m'.openInodes = m.openInodes)
    (h₃ : m'.rootDir = m.rootDir) : Cached w m' := by
  constructor
  all_goals simp only [h₁, h₂, h₃]
  · exact h.nodup
  · exact h.obj
  · exact h.alloc
  · exact h.agree
  · exact h.pos
  · exact h.once
  · exact h.root

end Cached

section Files

variable {w : View} {m m' : Mem} {γ γ' : Ghost} {p n d k : Nat} {i : Inode} {f : File}

theorem opened_cases (h : Cached w m) (hc : Below 1 m) {j : Inode}
    (hno : (w.ino n).iNo = n) (hj : (m.opened w n).inodes p = some j) :
    p = m.ptr n ∧ j.iNo = n ∧
        j.iOpenCnts = ((m.inodes p).map Inode.iOpenCnts).getD 0 + 1 ∧
        (∀ i, m.inodes p = some i → i.iNo = n) ∨
      m.inodes p = some j ∧ j.iNo ≠ n := by
  cases hf : m.find n with
  | none =>
    rw [Mem.opened, hf] at hj
    dsimp only at hj
    rw [Mem.push_inodes] at hj
    by_cases hp : p = m.fresh
    · subst hp
      rw [update_self, Option.some.injEq] at hj
      subst hj
      left
      rw [h.ok.fresh_none, Mem.ptr, hf]
      exact ⟨rfl, hno, rfl, fun i hi => by cases hi⟩
    · rw [update_of_ne hp] at hj
      exact Or.inr ⟨hj, Mem.find_none hf ((h.obj p).mpr ⟨j, hj⟩) hj⟩
  | some q =>
    obtain ⟨-, i, hi, hin⟩ := Mem.find_some hf
    have hlt := hc q i hi
    rw [Mem.opened, hf] at hj
    dsimp only at hj
    rw [Mem.deliver_of_find hf hi, Mem.set_inodes] at hj
    by_cases hp : p = q
    · subst hp
      rw [update_self, Option.some.injEq] at hj
      subst hj
      left
      rw [hi, Mem.ptr_of_find hf, Inode.cnt_iOpenCnts, add32_of_lt (by omega)]
      exact ⟨rfl, hin, rfl, fun j hj => by rw [← Option.some.inj hj, hin]⟩
    · rw [update_of_ne hp] at hj
      refine Or.inr ⟨hj, fun hjn => hp ?_⟩
      exact h.once p j q i hj hi (hjn.trans hin.symm)

theorem Below.opened {c : Nat} (hc : Below (c + 1) m) (h : Cached w m) (hno : (w.ino n).iNo = n) :
    Below c (m.opened w n) := by
  have h1 : Below 1 m := fun p i hi => by have := hc p i hi; omega
  intro p j hj
  rcases opened_cases h h1 hno hj with ⟨-, -, hcnt, -⟩ | ⟨hj', -⟩
  · rw [hcnt]
    cases hi : m.inodes p with
    | none =>
      obtain ⟨r, hr, -⟩ := h.root
      have := hc _ r hr
      have := h.pos _ r hr
      rw [Option.map_none, Option.getD_none]
      omega
    | some i =>
      have := hc p i hi
      rw [Option.map_some, Option.getD_some]
      omega
  · have := hc p j hj'
    omega

theorem opened_old (h : Cached w m) {n q : Nat} {j : Inode} (hj : m.inodes q = some j) :
    ∃ j', (m.opened w n).inodes q = some j' ∧ j'.iNo = j.iNo := by
  cases hf : m.find n with
  | none =>
    rw [Mem.opened, hf]
    dsimp only
    rw [Mem.push_inodes, update_of_ne]
    · exact ⟨j, hj, rfl⟩
    · rintro rfl
      rw [h.ok.fresh_none] at hj
      cases hj
  | some p =>
    obtain ⟨-, i, hi, hin⟩ := Mem.find_some hf
    rw [Mem.opened, hf]
    dsimp only
    rw [Mem.deliver_of_find hf hi, Mem.set_inodes]
    by_cases hp : q = p
    · subst hp
      rw [hi, Option.some.injEq] at hj
      subst hj
      exact ⟨_, update_self _ _ _, rfl⟩
    · rw [update_of_ne hp]
      exact ⟨j, hj, rfl⟩

theorem opened_fileTable (m : Mem) (w : View) (n : Nat) : (m.opened w n).fileTable = m.fileTable := by
  rw [Mem.opened]
  split <;> rfl

end Files

end TrueOs.Fs
