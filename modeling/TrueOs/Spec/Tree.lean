import TrueOs.Spec.Edit

/-! A new inode in the tree, and an inode taken out of it. -/

namespace TrueOs.Fs

open Function (update update_self update_of_ne)

def Ghost.add (γ : Ghost) (n d : Nat) (isDir : Bool) : Ghost where
  isDir := update γ.isDir n isDir
  par := update γ.par n d

structure Graft (w : View) (d n : Nat) (i i' : Inode) (W : View) : Prop where
  blk : W.blk = w.blk
  used : W.used = w.used
  ibit : W.ibit = w.ibit
  ino : W.ino = update (update w.ino d i) n i'

section Add

variable {g : Geom} {w w₁ W : View} {γ : Ghost} {d n k j : Nat} {e : Ent} {o : Option Ent}
  {sec' : Nat → Nat} {i i' : Inode}

theorem Edit.same (h : Edit g w (w.sec d) k j o w₁ sec') (hO : Own w) (hd : w.ibit d = true)
    {x : Nat} (hx : w.ibit x = true) (hne : x ≠ d) :
    SameBlocks w w₁ (w.sec x) ∧ ∀ q, w.hold (w.sec x) q ≠ 0 → w₁.used (w.hold (w.sec x) q) = true := by
  have key : ∀ q, w.hold (w.sec x) q ≠ 0 → w₁.blk (w.hold (w.sec x) q) = w.blk (w.hold (w.sec x) q) ∧
      w₁.used (w.hold (w.sec x) q) = true := by
    intro q hq
    apply h.keep _ (hO.used x q hx hq)
    intro q' he
    exact hne (hO.once x q d q' hx hd hq he.symm).1
  exact ⟨fun q hq => (key q hq).1, fun q hq => (key q hq).2⟩

structure Grafted (g : Geom) (w : View) (γ : Ghost) (d n k j : Nat) (e : Ent) (w₁ : View)
    (sec' : Nat → Nat) (i i' : Inode) (W : View) : Prop where
  dir : IsDir w γ d
  free : w.ibit n = false
  lt : n < 4096
  edit : Edit g w (w.sec d) k j (some e) w₁ sec'
  rep : DirRep g w₁ sec' d (γ.par d)
  graft : Graft (w₁.setIbit n true) d n i i' W
  normal : e.normal = true
  ino : e.ino = n
  no : i.iNo = d
  size : i.iSize = (w.ino d).iSize + 24
  sec : i.iSectors = sec'
  clean : i.clean = i
  no' : i'.iNo = n
  clean' : i'.clean = i'
  hold' : ∀ q, W.hold i'.iSectors q ≠ 0 → q = 0 ∧ Free w (W.hold i'.iSectors q) ∧
    w.used (W.hold i'.iSectors q) = true ∧ w₁.used (W.hold i'.iSectors q) = true
  file' : e.ty ≠ ftDirectory → FileRep W i'.iSectors i'.iSize
  dir' : e.ty = ftDirectory → DirRep g W i'.iSectors n d ∧ i'.iSize = 48 ∧
    ∀ k j e', W.ent i'.iSectors k j = some e' → e'.normal = false

namespace Grafted

theorem isDir_of_ne {b : Bool} {x : Nat} (hn : x ≠ n) : (γ.add n d b).isDir x = γ.isDir x :=
  update_of_ne hn _ _

theorem par_of_ne {b : Bool} {x : Nat} (hn : x ≠ n) : (γ.add n d b).par x = γ.par x :=
  update_of_ne hn _ _

theorem par_self {b : Bool} : (γ.add n d b).par n = d := update_self _ _ _

theorem isDir_self {b : Bool} : (γ.add n d b).isDir n = b := update_self _ _ _

variable (h : Grafted g w γ d n k j e w₁ sec' i i' W)
include h

theorem ne : n ≠ d := by
  rintro rfl
  have := h.dir.1
  rw [h.free] at this
  cases this

theorem sec_d : W.sec d = sec' := by
  rw [View.sec, h.graft.ino, update_of_ne h.ne.symm, update_self, h.sec]

theorem ino_n : W.ino n = i' := by
  rw [h.graft.ino, update_self]

theorem ino_d : W.ino d = i := by
  rw [h.graft.ino, update_of_ne h.ne.symm, update_self]

theorem ino_of_ne {x : Nat} (hd : x ≠ d) (hn : x ≠ n) : W.ino x = w.ino x := by
  rw [h.graft.ino, update_of_ne hn, update_of_ne hd]
  exact congrFun h.edit.ino x

theorem ibit_of_ne {x : Nat} (hn : x ≠ n) : W.ibit x = w.ibit x := by
  rw [h.graft.ibit, View.setIbit_ibit, update_of_ne hn, h.edit.ibit]

theorem ibit_n : W.ibit n = true := by
  rw [h.graft.ibit, View.setIbit_ibit, update_self]

theorem same_d : SameBlocks w₁ W sec' := by
  intro q _
  rw [h.graft.blk]
  rfl

theorem same (hO : Own w) {x : Nat}
    (hx : w.ibit x = true) (hd : x ≠ d) : SameBlocks w W (w.sec x) ∧
      ∀ q, w.hold (w.sec x) q ≠ 0 → W.used (w.hold (w.sec x) q) = true := by
  obtain ⟨h₁, h₂⟩ := h.edit.same hO h.dir.1 hx hd
  rw [SameBlocks, h.graft.blk, h.graft.used]
  exact ⟨h₁, h₂⟩

theorem sec_of_ne {x : Nat} (hd : x ≠ d) (hn : x ≠ n) : W.sec x = w.sec x := by
  rw [View.sec, View.sec, h.ino_of_ne hd hn]

theorem old {x : Nat} (hx : W.ibit x = true)
    (hn : x ≠ n) : w.ibit x = true := by
  rwa [h.ibit_of_ne hn] at hx

theorem hold_d (q : Nat) : W.hold (W.sec d) q = w₁.hold sec' q := by
  rw [h.sec_d, h.same_d.hold]

theorem held (hO : Own w) {x q : Nat}
    (hx : W.ibit x = true) (hq : W.hold (W.sec x) q ≠ 0) :
    (w.ibit x = true ∧ w.hold (w.sec x) q = W.hold (W.sec x) q ∨
      x = n ∧ q = 0 ∧ Free w (W.hold (W.sec x) q) ∧ w.used (W.hold (W.sec x) q) = true ∨
      x = d ∧ w.used (W.hold (W.sec x) q) = false) ∧ W.used (W.hold (W.sec x) q) = true := by
  by_cases hn : x = n
  · subst hn
    have hs : W.sec x = i'.iSectors := by rw [View.sec, h.ino_n]
    rw [hs] at hq ⊢
    obtain ⟨h₁, h₂, h₃, h₄⟩ := h.hold' q hq
    exact ⟨Or.inr (Or.inl ⟨rfl, h₁, h₂, h₃⟩), by rw [h.graft.used]; exact h₄⟩
  · by_cases hd : x = d
    · subst hd
      rw [h.hold_d] at hq ⊢
      obtain ⟨h₁, h₂⟩ := h.edit.hold q hq
      rw [h.graft.used]
      exact ⟨h₁.imp (fun he => ⟨h.dir.1, he⟩) (fun hf => Or.inr ⟨rfl, hf⟩), h₂⟩
    · have hx' := h.old hx hn
      obtain ⟨hs, hu⟩ := h.same hO hx' hd
      rw [h.sec_of_ne hd hn, hs.hold] at hq ⊢
      exact ⟨Or.inl ⟨hx', rfl⟩, hu q hq⟩

theorem own (hO : Own w) : Own W := by
  apply hO.mono
  · intro x q hx hq
    obtain ⟨h₁, h₂⟩ := h.held hO hx hq
    refine ⟨?_, h₂⟩
    rcases h₁ with h₁ | ⟨-, -, h₁, -⟩ | ⟨-, h₁⟩
    · exact Or.inl h₁
    · exact Or.inr h₁
    · exact Or.inr (hO.free h₁ hq)
  · intro x q x' q' hx hx' hq hf he
    have h₁ := (h.held hO hx hq).1
    have h₂ := (h.held hO hx' (he ▸ hq)).1
    rw [← he] at h₂
    -- an address that nobody held is the block of `n`, or was free before
    rcases h₁ with ⟨hb, ho⟩ | ⟨rfl, rfl, -, hu⟩ | ⟨rfl, hu⟩
    · exact absurd ho (hf x q hb)
    · rcases h₂ with ⟨hb, ho⟩ | ⟨rfl, rfl, -⟩ | ⟨-, hu'⟩
      · exact absurd ho (hf x' q' hb)
      · exact ⟨rfl, rfl⟩
      · rw [hu] at hu'
        cases hu'
    · rcases h₂ with ⟨hb, ho⟩ | ⟨-, -, -, hu'⟩ | ⟨rfl, -⟩
      · exact absurd ho (hf x' q' hb)
      · rw [hu] at hu'
        cases hu'
      · rw [h.hold_d] at hq hu
        rw [h.hold_d, h.hold_d] at he
        exact ⟨rfl, h.edit.once q q' hq hu he⟩

theorem ent_d (k' j' : Nat) : W.ent (W.sec d) k' j' =
    if k' = k ∧ j' = j then some e else w.ent (w.sec d) k' j' := by
  rw [h.sec_d, h.same_d.ent, h.edit.ent]

theorem ent_of_ne (hO : Own w) {x : Nat}
    (hx : W.ibit x = true) (hd : x ≠ d) (hn : x ≠ n) (k' j' : Nat) :
    W.ent (W.sec x) k' j' = w.ent (w.sec x) k' j' := by
  rw [h.sec_of_ne hd hn, (h.same hO (h.old hx hn) hd).1.ent]

theorem ne_zero (hT : Tree g w γ) : n ≠ 0 := by
  rintro rfl
  have := hT.root.1
  rw [h.free] at this
  cases this

theorem children_eq (hT : Tree g w γ) (b : Bool)
    (x : Nat) : children W (γ.add n d b) x =
      if x = d then insert n (children w γ x) else children w γ x := by
  ext y
  have hy : y ∈ children W (γ.add n d b) x ↔ y = n ∧ x = d ∨ y ∈ children w γ x := by
    rw [mem_children, mem_children]
    by_cases hn : y = n
    · subst hn
      rw [h.ibit_n, par_self, h.free]
      simp [h.lt, h.ne_zero hT, eq_comm]
    · rw [h.ibit_of_ne hn, par_of_ne hn]
      simp [hn]
  rw [hy]
  split
  · rename_i hx
    simp [hx]
  · rename_i hx
    simp [hx]

theorem not_mem_children (x : Nat) : n ∉ children w γ x := by
  simp [mem_children, h.free]

theorem children_n (hT : Tree g w γ) : children w γ n = ∅ := by
  rw [Finset.eq_empty_iff_forall_notMem]
  intro y hmem
  obtain ⟨-, hy, -, hp⟩ := mem_children.mp hmem
  have := (hT.par y hy).1
  rw [hp, h.free] at this
  cases this

theorem tree (hO : Own w) (hT : Tree g w γ) :
    Tree g W (γ.add n d (decide (e.ty = ftDirectory))) where
  root := by
    have h0 := (h.ne_zero hT).symm
    rw [h.ibit_of_ne h0, isDir_of_ne h0, par_of_ne h0]
    exact hT.root
  no x hx := by
    by_cases hn : x = n
    · subst hn
      rw [h.ino_n]
      exact ⟨h.lt, h.no'⟩
    · have hw := hT.no x (h.old hx hn)
      by_cases hd : x = d
      · subst hd
        rw [h.ino_d]
        exact ⟨hw.1, h.no⟩
      · rwa [h.ino_of_ne hd hn]
  clean x hx := by
    by_cases hn : x = n
    · rw [hn, h.ino_n, h.clean']
    · by_cases hd : x = d
      · rw [hd, h.ino_d, h.clean]
      · rw [h.ino_of_ne hd hn]
        exact hT.clean x (h.old hx hn)
  dir x hx hdir := by
    by_cases hn : x = n
    · subst hn
      have hb : e.ty = ftDirectory := by simpa [isDir_self] using hdir
      rw [View.sec, h.ino_n, par_self]
      exact (h.dir' hb).1
    · rw [isDir_of_ne hn] at hdir
      rw [par_of_ne hn]
      by_cases hd : x = d
      · subst hd
        rw [h.sec_d]
        exact h.same_d.dirRep h.rep
      · rw [h.sec_of_ne hd hn]
        exact (h.same hO (h.old hx hn) hd).1.dirRep (hT.dir x (h.old hx hn) hdir)
  file x hx hfile := by
    by_cases hn : x = n
    · subst hn
      have hb : e.ty ≠ ftDirectory := by simpa [isDir_self] using hfile
      rw [View.sec, h.ino_n]
      exact h.file' hb
    · rw [isDir_of_ne hn] at hfile
      have hd : x ≠ d := by
        rintro rfl
        rw [h.dir.2] at hfile
        cases hfile
      rw [h.sec_of_ne hd hn, h.ino_of_ne hd hn]
      exact (h.same hO (h.old hx hn) hd).1.fileRep (hT.file x (h.old hx hn) hfile)
  ent x k' j' e' hx hdir he hnorm := by
    by_cases hn : x = n
    · subst hn
      have hb : e.ty = ftDirectory := by simpa [isDir_self] using hdir
      rw [View.sec, h.ino_n] at he
      rw [(h.dir' hb).2.2 k' j' e' he] at hnorm
      cases hnorm
    · rw [isDir_of_ne hn] at hdir
      by_cases hnew : x = d ∧ k' = k ∧ j' = j
      · obtain ⟨rfl, rfl, rfl⟩ := hnew
        rw [h.ent_d, if_pos ⟨rfl, rfl⟩, Option.some.injEq] at he
        subst he
        rw [h.ino]
        exact ⟨h.ibit_n, h.ne_zero hT, par_self, isDir_self⟩
      · have hold : w.ent (w.sec x) k' j' = some e' := by
          by_cases hd : x = d
          · subst hd
            rwa [h.ent_d, if_neg (fun hc => hnew ⟨rfl, hc⟩)] at he
          · rwa [h.ent_of_ne hO hx hd hn] at he
        obtain ⟨h₁, h₂, h₃, h₄⟩ := hT.ent x k' j' e' (h.old hx hn) hdir hold hnorm
        have hne : e'.ino ≠ n := by
          intro hc
          rw [hc, h.free] at h₁
          cases h₁
        rw [h.ibit_of_ne hne, par_of_ne hne, isDir_of_ne hne]
        exact ⟨h₁, h₂, h₃, h₄⟩
  once x k₁ j₁ e₁ k₂ j₂ e₂ hx hdir h₁ h₂ hn₁ hn₂ heq := by
    by_cases hn : x = n
    · subst hn
      have hb : e.ty = ftDirectory := by simpa [isDir_self] using hdir
      rw [View.sec, h.ino_n] at h₁
      rw [(h.dir' hb).2.2 k₁ j₁ e₁ h₁] at hn₁
      cases hn₁
    · have hx' := h.old hx hn
      rw [isDir_of_ne hn] at hdir
      by_cases hd : x = d
      · subst hd
        -- no old entry has the number of the new one
        have hold : ∀ k j e', w.ent (w.sec x) k j = some e' → e'.normal = true → e'.ino ≠ n := by
          intro k j e' he hnorm hc
          have := (hT.ent x k j e' hx' hdir he hnorm).1
          rw [hc, h.free] at this
          cases this
        rw [h.ent_d] at h₁ h₂
        split at h₁ <;> split at h₂
        · omega
        · cases h₁
          exact absurd (heq.symm.trans h.ino) (hold _ _ _ h₂ hn₂)
        · cases h₂
          exact absurd (heq.trans h.ino) (hold _ _ _ h₁ hn₁)
        · exact hT.once x k₁ j₁ e₁ k₂ j₂ e₂ hx' hdir h₁ h₂ hn₁ hn₂ heq
      · rw [h.ent_of_ne hO hx hd hn] at h₁ h₂
        exact hT.once x k₁ j₁ e₁ k₂ j₂ e₂ hx' hdir h₁ h₂ hn₁ hn₂ heq
  par x hx := by
    by_cases hn : x = n
    · subst hn
      rw [par_self, h.ibit_of_ne h.ne.symm, isDir_of_ne h.ne.symm]
      exact h.dir
    · rw [par_of_ne hn]
      obtain ⟨h₁, h₂⟩ := hT.par x (h.old hx hn)
      have hne : γ.par x ≠ n := by
        intro hc
        rw [hc, h.free] at h₁
        cases h₁
      rw [h.ibit_of_ne hne, isDir_of_ne hne]
      exact ⟨h₁, h₂⟩
  size x hx hdir := by
    rw [h.children_eq hT]
    by_cases hn : x = n
    · subst hn
      have hb : e.ty = ftDirectory := by simpa [isDir_self] using hdir
      rw [if_neg h.ne, h.children_n hT, h.ino_n, (h.dir' hb).2.1]
      rfl
    · rw [isDir_of_ne hn] at hdir
      by_cases hd : x = d
      · subst hd
        rw [if_pos rfl, h.ino_d, h.size, hT.size x (h.old hx hn) hdir,
          Finset.card_insert_of_notMem (h.not_mem_children x)]
        omega
      · rw [if_neg hd, h.ino_of_ne hd hn]
        exact hT.size x (h.old hx hn) hdir

end Grafted

end Add

section Remove

variable {g : Geom} {w w₁ W : View} {γ : Ghost} {d n k j : Nat} {e : Ent} {sec' : Nat → Nat}
  {i : Inode}

structure Pruned (g : Geom) (w : View) (γ : Ghost) (d n k j : Nat) (e : Ent) (w₁ : View)
    (sec' : Nat → Nat) (i : Inode) (W : View) : Prop where
  dir : IsDir w γ d
  found : w.ent (w.sec d) k j = some e
  normal : e.normal = true
  ino : e.ino = n
  leaf : ∀ x, w.ibit x = true → x ≠ 0 → γ.par x ≠ n
  edit : Edit g w (w.sec d) k j none w₁ sec'
  rep : DirRep g w₁ sec' d (γ.par d)
  no : i.iNo = d
  size : i.iSize = (w.ino d).iSize - 24
  sec : i.iSectors = sec'
  clean : i.clean = i
  blk : W.blk = w₁.blk
  used : ∀ l, w₁.used l = true → (∀ q, w.hold (w.sec n) q ≠ l) → W.used l = true
  ibit : W.ibit = update w.ibit n false
  inodes : W.ino = update (update w.ino d i) n noInode

namespace Pruned

variable (h : Pruned g w γ d n k j e w₁ sec' i W)
include h

theorem target (hT : Tree g w γ) : w.ibit n = true ∧ n ≠ 0 ∧ γ.par n = d := by
  obtain ⟨h₁, h₂, h₃, -⟩ := hT.ent d k j e h.dir.1 h.dir.2 h.found h.normal
  rw [h.ino] at h₁ h₂ h₃
  exact ⟨h₁, h₂, h₃⟩

theorem ne (hT : Tree g w γ) : d ≠ n := by
  rintro rfl
  obtain ⟨h₁, h₂, h₃⟩ := h.target hT
  exact h.leaf d h₁ h₂ h₃

theorem old {x : Nat} (hx : W.ibit x = true) : x ≠ n ∧ w.ibit x = true := by
  rw [h.ibit] at hx
  by_cases hn : x = n
  · rw [hn, update_self] at hx
    cases hx
  · rw [update_of_ne hn] at hx
    exact ⟨hn, hx⟩

theorem ibit_of_ne {x : Nat} (hn : x ≠ n) : W.ibit x = w.ibit x := by
  rw [h.ibit, update_of_ne hn]

theorem ino_d (hT : Tree g w γ) : W.ino d = i := by
  rw [h.inodes, update_of_ne (h.ne hT), update_self]

theorem ino_of_ne {x : Nat} (hn : x ≠ n) (hd : x ≠ d) : W.ino x = w.ino x := by
  rw [h.inodes, update_of_ne hn, update_of_ne hd]

theorem sec_d (hT : Tree g w γ) : W.sec d = sec' := by
  rw [View.sec, h.ino_d hT, h.sec]

theorem sec_of_ne {x : Nat} (hn : x ≠ n) (hd : x ≠ d) : W.sec x = w.sec x := by
  rw [View.sec, View.sec, h.ino_of_ne hn hd]

theorem same_d : SameBlocks w₁ W sec' := by
  intro q _
  rw [h.blk]

theorem same (hO : Own w) {x : Nat}
    (hx : w.ibit x = true) (hd : x ≠ d) : SameBlocks w W (w.sec x) := by
  rw [SameBlocks, h.blk]
  exact (h.edit.same hO h.dir.1 hx hd).1

theorem own (hO : Own w) (hT : Tree g w γ) : Own W := by
  obtain ⟨hn, -, -⟩ := h.target hT
  -- a block that `n` held is nobody else's
  have hfree : ∀ x q, w.ibit x = true → x ≠ n → w.hold (w.sec x) q ≠ 0 →
      ∀ q', w.hold (w.sec n) q' ≠ w.hold (w.sec x) q := by
    intro x q hx hne hq q' he
    exact hne (hO.once x q n q' hx hn hq he.symm).1
  apply hO.mono
  · intro x q hx hq
    obtain ⟨hxn, hx'⟩ := h.old hx
    by_cases hd : x = d
    · subst hd
      rw [h.sec_d hT, h.same_d.hold] at hq ⊢
      obtain ⟨h₁, h₂⟩ := h.edit.hold q hq
      refine ⟨h₁.imp (fun he => ⟨hx', he⟩) (fun hf => hO.free hf hq), h.used _ h₂ ?_⟩
      rcases h₁ with he | hf
      · rw [← he] at hq ⊢
        exact hfree x q hx' hxn hq
      · intro q' he
        have := hO.used n q' hn (by rwa [he])
        rw [he, hf] at this
        cases this
    · have hs := h.same hO hx' hd
      rw [h.sec_of_ne hxn hd, hs.hold] at hq ⊢
      exact ⟨Or.inl ⟨hx', rfl⟩, h.used _ ((h.edit.same hO h.dir.1 hx' hd).2 q hq)
        (hfree x q hx' hxn hq)⟩
  · intro x q x' q' hx hx' hq hf he
    obtain ⟨hxn, hxw⟩ := h.old hx
    obtain ⟨hxn', hxw'⟩ := h.old hx'
    by_cases hd : x = d
    · subst hd
      rw [h.sec_d hT, h.same_d.hold] at hq hf he
      rcases (h.edit.hold q hq).1 with ho | hu
      · exact absurd ho (hf x q hxw)
      · by_cases hd' : x' = x
        · subst hd'
          rw [h.sec_d hT, h.same_d.hold] at he
          exact ⟨rfl, h.edit.once q q' hq hu he⟩
        · rw [h.sec_of_ne hxn' hd', (h.same hO hxw' hd').hold] at he
          exact absurd he.symm (hf x' q' hxw')
    · rw [h.sec_of_ne hxn hd, (h.same hO hxw hd).hold] at hf
      exact absurd rfl (hf x q hxw)

theorem ent_d (hT : Tree g w γ) (k' j' : Nat) :
    W.ent (W.sec d) k' j' = if k' = k ∧ j' = j then none else w.ent (w.sec d) k' j' := by
  rw [h.sec_d hT, h.same_d.ent, h.edit.ent]

theorem ent_old (hO : Own w) (hT : Tree g w γ) {x : Nat}
    (hx : W.ibit x = true) {k' j' : Nat} {e' : Ent} (he : W.ent (W.sec x) k' j' = some e') :
    w.ent (w.sec x) k' j' = some e' ∧ (x = d → ¬(k' = k ∧ j' = j)) := by
  obtain ⟨hn, hx'⟩ := h.old hx
  by_cases hd : x = d
  · subst hd
    rw [h.ent_d hT] at he
    split at he
    · cases he
    · exact ⟨he, fun _ => ‹_›⟩
  · rw [h.sec_of_ne hn hd, (h.same hO hx' hd).ent] at he
    exact ⟨he, fun hc => absurd hc hd⟩

theorem children_eq (x : Nat) : children W γ x = (children w γ x).erase n := by
  ext y
  rw [Finset.mem_erase, mem_children, mem_children]
  by_cases hn : y = n
  · rw [hn, h.ibit, update_self]
    simp
  · rw [h.ibit_of_ne hn]
    simp [hn]

theorem tree (hO : Own w) (hT : Tree g w γ) : Tree g W γ where
  root := by
    rw [h.ibit_of_ne (h.target hT).2.1.symm]
    exact hT.root
  no x hx := by
    obtain ⟨hn, hx'⟩ := h.old hx
    have hw := hT.no x hx'
    by_cases hd : x = d
    · subst hd
      rw [h.ino_d hT]
      exact ⟨hw.1, h.no⟩
    · rwa [h.ino_of_ne hn hd]
  clean x hx := by
    obtain ⟨hn, hx'⟩ := h.old hx
    by_cases hd : x = d
    · rw [hd, h.ino_d hT, h.clean]
    · rw [h.ino_of_ne hn hd]
      exact hT.clean x hx'
  dir x hx hdir := by
    obtain ⟨hn, hx'⟩ := h.old hx
    by_cases hd : x = d
    · subst hd
      rw [h.sec_d hT]
      exact h.same_d.dirRep h.rep
    · rw [h.sec_of_ne hn hd]
      exact (h.same hO hx' hd).dirRep (hT.dir x hx' hdir)
  file x hx hfile := by
    obtain ⟨hn, hx'⟩ := h.old hx
    have hd : x ≠ d := by
      rintro rfl
      rw [h.dir.2] at hfile
      cases hfile
    rw [h.sec_of_ne hn hd, h.ino_of_ne hn hd]
    exact (h.same hO hx' hd).fileRep (hT.file x hx' hfile)
  ent x k' j' e' hx hdir he hnorm := by
    obtain ⟨hn, hx'⟩ := h.old hx
    obtain ⟨hold, hne⟩ := h.ent_old hO hT hx he
    obtain ⟨h₁, h₂, h₃, h₄⟩ := hT.ent x k' j' e' hx' hdir hold hnorm
    have hino : e'.ino ≠ n := by
      -- `n` was in `d` only, and there it had one entry
      intro hc
      have hxd : x = d := by rw [← h₃, hc, (h.target hT).2.2]
      subst hxd
      exact hne rfl (hT.once x k' j' e' k j e hx' hdir hold h.found hnorm h.normal
        (hc.trans h.ino.symm))
    rw [h.ibit_of_ne hino]
    exact ⟨h₁, h₂, h₃, h₄⟩
  once x k₁ j₁ e₁ k₂ j₂ e₂ hx hdir h₁ h₂ hn₁ hn₂ heq := by
    obtain ⟨hn, hx'⟩ := h.old hx
    exact hT.once x k₁ j₁ e₁ k₂ j₂ e₂ hx' hdir (h.ent_old hO hT hx h₁).1 (h.ent_old hO hT hx h₂).1
      hn₁ hn₂ heq
  par x hx := by
    obtain ⟨hn, hx'⟩ := h.old hx
    obtain ⟨h₁, h₂⟩ := hT.par x hx'
    have hne : γ.par x ≠ n := by
      by_cases h0 : x = 0
      · rw [h0, hT.root.2.2]
        exact (h.target hT).2.1.symm
      · exact h.leaf x hx' h0
    rw [h.ibit_of_ne hne]
    exact ⟨h₁, h₂⟩
  size x hx hdir := by
    obtain ⟨hn, hx'⟩ := h.old hx
    rw [h.children_eq]
    obtain ⟨hb, h0, hp⟩ := h.target hT
    have hsize := hT.size x hx' hdir
    by_cases hd : x = d
    · subst hd
      have hmem : n ∈ children w γ x := mem_children.mpr ⟨(hT.no n hb).1, hb, h0, hp⟩
      have hpos := Finset.card_pos.mpr ⟨n, hmem⟩
      rw [h.ino_d hT, h.size, hsize, Finset.card_erase_of_mem hmem]
      omega
    · have hmem : n ∉ children w γ x := fun hc => hd ((mem_children.mp hc).2.2.2.symm.trans hp)
      rw [h.ino_of_ne hn hd, Finset.erase_eq_of_notMem hmem, hsize]

end Pruned

end Remove

end TrueOs.Fs
