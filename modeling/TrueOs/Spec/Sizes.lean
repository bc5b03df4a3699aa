import TrueOs.Spec.Balance
import TrueOs.Spec.Write

/-! What reading and writing does to the sizes of inodes and to the positions of files. -/

namespace TrueOs.Fs

open Function (update update_self update_of_ne update_eq_self)
open Prog

structure SameSizes (s t : Fs) : Prop where
  files : t.mem.fileTable = s.mem.fileTable
  size : ∀ p, (t.mem.inodes p).map Inode.iSize = (s.mem.inodes p).map Inode.iSize

theorem SameSizes.update {s : Fs} {p : Nat} {i j : Inode} (hi : s.mem.inodes p = some i) (hj : j.iSize = i.iSize) :
    SameSizes s { s with mem.inodes := update s.mem.inodes p (some j) } := by
  refine ⟨rfl, fun q => ?_⟩
  by_cases hq : q = p
  · subst hq
    simp only [update_self, hi, Option.map_some, hj]
  · simp only [update_of_ne hq]

instance : Still SameSizes where
  refl _ := ⟨rfl, fun _ => rfl⟩
  trans _ _ _ h h' := ⟨h'.files.trans h.files, fun p => (h'.size p).trans (h.size p)⟩
  vol _ _ := ⟨rfl, fun _ => rfl⟩
  sectors _ _ _ _ hi := .update hi rfl

def Narrow (s : Fs) : Prop := ∀ p i, s.mem.inodes p = some i → i.iSize < 2 ^ 32

section Sizes

variable {s t : Fs}

theorem exists_of_map_eq {o o' : Option Inode} {i : Inode} (h : o'.map Inode.iSize = o.map Inode.iSize)
    (hi : o' = some i) : ∃ j, o = some j ∧ j.iSize = i.iSize := by
  rw [hi] at h
  exact Option.map_eq_some_iff.mp h.symm

theorem SameSizes.narrow (h : SameSizes s t) (hs : Narrow s) : Narrow t := by
  intro p i hi
  obtain ⟨j, hj, he⟩ := exists_of_map_eq (h.size p) hi
  rw [← he]
  exact hs p j hj

end Sizes

section Loops

variable {s : Fs} {g p size n count : Nat} {i : Inode} {buf : Buf} {all : Nat → Nat}

theorem sat_ideRead_vol {lba cnt : Nat} {Q : Buf → Fs → Prop} (hQ : ∀ b, Q b s) :
    ((ideRead lba cnt).on s).Sat True Q := by
  simp only [ideRead, sat_bind, sat_assert, sat_transfer]
  exact ⟨fun _ => ⟨fun _ => hQ _, fun _ => trivial⟩, fun _ => trivial⟩

theorem sat_ideWrite_vol {lba cnt : Nat} {f : Fs → Buf} {Q : Unit → Fs → Prop} (hQ : ∀ v, Q () { s with vol := v }) :
    ((ideWrite lba cnt f).on s).Sat True Q := by
  simp only [ideWrite, sat_bind, sat_assert, sat_transfer, sat_pure]
  exact ⟨fun _ => ⟨fun _ => hQ _, fun _ => trivial⟩, fun _ => trivial⟩

theorem writing_self {m : Mem} (hp : m.inodes p = some i) (hf : (m.fileTable g).fdPos < 2 ^ 32) :
    m.writing p g i (m.fileTable g) i.iSize (add32 (m.fileTable g).fdPos 0) = m := by
  have h₁ : m.set p (i.body i.iSize i.iSectors) = m := Mem.set_self hp
  have h₂ : (⟨add32 (m.fileTable g).fdPos 0, (m.fileTable g).fdFlag, (m.fileTable g).fdInode⟩ : File) =
      m.fileTable g := by
    rw [add32_of_lt (by omega), Nat.add_zero]
  rw [Mem.writing, h₁, h₂, Mem.setFile, update_eq_self]

theorem writing_writing (m : Mem) (p g : Nat) (i : Inode) (f : File) (a b c d : Nat) :
    (m.writing p g i f a b).writing p g (i.body a i.iSectors) ((m.writing p g i f a b).fileTable g) c d =
      m.writing p g i f c d := by
  simp only [Mem.writing, Mem.set, Mem.setFile, update_self, Function.update_idem, Inode.body]

theorem add32_add32 (a b c : Nat) : add32 (add32 a b) c = add32 a (b + c) := by
  simp only [add32]
  omega

theorem sat_chunk_sizes {lba c : Nat} {io : Fs → Buf} {next : Prog Fs Buf Unit} {Q : Unit → Fs → Prop}
    (hp : s.mem.inodes p = some i)
    (hQ : ∀ t, t.mem = s.mem.writing p g i (s.mem.fileTable g) (add32 i.iSize c) (add32 (s.mem.fileTable g).fdPos c) →
      (next.on t).Sat True Q) :
    ((do
      ideWrite lba 1 io
      addSize p c
      addPos g c
      next : Prog Fs Buf Unit).on s).Sat True Q := by
  rw [sat_bind]
  refine sat_ideWrite_vol fun v => ?_
  rw [sat_bind, addSize, sat_bind]
  refine (sat_getInode_eq p _).mono fun j t hj => ?_
  obtain ⟨rfl, hj⟩ := hj
  cases hp.symm.trans hj
  exact hQ _ rfl

theorem sat_writeChunks_sizes {turns : Nat} {first : Bool} (hp : s.mem.inodes p = some i) (hn : n ≤ count)
    (hf : (s.mem.fileTable g).fdPos < 2 ^ 32) :
    ((writeChunks g p all buf count turns n first).on s).Sat True (fun _ t =>
      (n < count → i.iSize + (count - n) ≤ 512 * 140) ∧
        t.mem = s.mem.writing p g i (s.mem.fileTable g) (i.iSize + (count - n))
          (add32 (s.mem.fileTable g).fdPos (count - n))) := by
  induction turns generalizing s n first i with
  | zero => trivial
  | succ turns ih =>
    rw [writeChunks, ite_on]
    by_cases hlt : n < count
    · rw [if_pos hlt, sat_bind]
      refine (sat_getInode_eq p s).mono fun j t ht => ?_
      obtain ⟨rfl, hj⟩ := ht
      cases hp.symm.trans hj
      rw [ite_on]
      by_cases hin : i.iSize / 512 < 140
      · rw [if_pos hin]
        have hc := chunkSize_pos i.iSize (show 0 < count - n by omega)
        have hle := chunkSize_le i.iSize (count - n)
        have hfits := chunkSize_fits i.iSize (count - n)
        have hturn : ∀ io : Fs → Buf, ((do
            ideWrite (all (i.iSize / 512)) 1 io
            addSize p (chunkSize i.iSize (count - n))
            addPos g (chunkSize i.iSize (count - n))
            writeChunks g p all buf count turns (n + chunkSize i.iSize (count - n)) false :
              Prog Fs Buf Unit).on t).Sat True (fun _ u =>
                (n < count → i.iSize + (count - n) ≤ 512 * 140) ∧
                  u.mem = t.mem.writing p g i (t.mem.fileTable g) (i.iSize + (count - n))
                    (add32 (t.mem.fileTable g).fdPos (count - n))) := by
          intro io
          generalize chunkSize i.iSize (count - n) = c at hc hle hfits
          refine sat_chunk_sizes hp fun u hu => ?_
          rw [add32_of_lt (show i.iSize + c < 2 ^ 32 by omega)] at hu
          have hp' : u.mem.inodes p = some (i.body (i.iSize + c) i.iSectors) := by
            rw [hu]
            exact Mem.set_inodes_self _ _ _
          have hf' : (u.mem.fileTable g).fdPos = add32 (t.mem.fileTable g).fdPos c := by
            rw [hu]
            simp only [Mem.writing, Mem.setFile_fileTable, update_self]
          have hlt' : (u.mem.fileTable g).fdPos < 2 ^ 32 := hf' ▸ Nat.mod_lt _ (by decide)
          refine (ih hp' (by omega) hlt').mono fun _ v hv => ?_
          have hsum : i.iSize + c + (count - (n + c)) = i.iSize + (count - n) := by omega
          have hpos : c + (count - (n + c)) = count - n := by omega
          rw [Inode.body_iSize, hf', add32_add32, hsum, hpos, hu, writing_writing] at hv
          refine ⟨fun _ => ?_, hv.2⟩
          by_cases hend : n + c < count
          · exact hv.1 hend
          · omega
        cases first with
        | true =>
          rw [if_pos rfl, sat_bind]
          exact sat_ideRead_vol fun b => hturn _
        | false => exact hturn _
      · rw [if_neg hin]
        trivial
    · obtain rfl : n = count := by omega
      rw [if_neg hlt, Nat.sub_self]
      exact ⟨fun h => absurd h hlt, (writing_self hp hf).symm⟩

def Mem.seek (m : Mem) (g pos : Nat) : Mem := m.setFile g { m.fileTable g with fdPos := pos }

theorem seek_self (m : Mem) (g : Nat) : m.seek g (m.fileTable g).fdPos = m := by
  rw [Mem.seek, Mem.setFile, update_eq_self]

theorem seek_pos (m : Mem) (g pos : Nat) : ((m.seek g pos).fileTable g).fdPos = pos := by
  rw [Mem.seek, Mem.setFile_fileTable, update_self]

theorem seek_seek (m : Mem) (g a b : Nat) : (m.seek g a).seek g b = m.seek g b := by
  simp only [Mem.seek, Mem.setFile, update_self, Function.update_idem]

theorem sat_readChunks_pos {turns : Nat} (hn : n ≤ size) :
    ((readChunks g all size turns n).on s).Sat True (fun _ t =>
      (n < size → (s.mem.fileTable g).fdPos + (size - n) ≤ 512 * 140) ∧
        t.mem = s.mem.seek g ((s.mem.fileTable g).fdPos + (size - n))) := by
  induction turns generalizing s n with
  | zero => trivial
  | succ turns ih =>
    rw [readChunks, ite_on]
    by_cases hlt : n < size
    · rw [if_pos hlt, bind_on, get_on, Res.bind, ite_on]
      by_cases hin : (s.mem.fileTable g).fdPos / 512 < 140
      · rw [if_pos hin, sat_bind]
        have hc := chunkSize_pos (s.mem.fileTable g).fdPos (show 0 < size - n by omega)
        have hle := chunkSize_le (s.mem.fileTable g).fdPos (size - n)
        have hfits := chunkSize_fits (s.mem.fileTable g).fdPos (size - n)
        generalize chunkSize (s.mem.fileTable g).fdPos (size - n) = c at hc hle hfits
        refine sat_ideRead_vol fun io => ?_
        simp only [addPos, bind_on, get_on, setFile, modify_on, Res.sat_bind, Res.sat_done, pure_on]
        generalize hu : ({ s with mem.fileTable := _ } : Fs) = u
        have hm : u.mem = s.mem.seek g ((s.mem.fileTable g).fdPos + c) := by
          rw [← hu, add32_of_lt (by omega)]
          rfl
        refine (ih (show n + c ≤ size by omega)).mono fun _ v hv => ?_
        have hsum : (s.mem.fileTable g).fdPos + c + (size - (n + c)) = (s.mem.fileTable g).fdPos + (size - n) := by
          omega
        rw [hm, seek_pos, seek_seek, hsum] at hv
        refine ⟨fun _ => ?_, hv.2⟩
        by_cases hend : n + c < size
        · exact hv.1 hend
        · omega
      · rw [if_neg hin]
        trivial
    · obtain rfl : n = size := by omega
      rw [if_neg hlt, Nat.sub_self, Nat.add_zero, seek_self]
      exact ⟨fun h => absurd h hlt, rfl⟩

end Loops

section Calls

variable {s t u : Fs} {g p size count : Nat} {i : Inode} {buf : Buf}

theorem SameSizes.inode (h : SameSizes s t) (hp : s.mem.inodes p = some i) :
    ∃ j, t.mem.inodes p = some j ∧ j.iSize = i.iSize := exists_of_map_eq (h.size p).symm hp

structure Appended (s t : Fs) (g p size count : Nat) : Prop where
  files : t.mem.fileTable = update s.mem.fileTable g
    { s.mem.fileTable g with fdPos := add32 (sub32 size 1) count }
  self : (t.mem.inodes p).map Inode.iSize = some (size + count)
  others : ∀ q, q ≠ p → (t.mem.inodes q).map Inode.iSize = (s.mem.inodes q).map Inode.iSize
  fits : 0 < count → size + count ≤ 512 * 140

theorem Appended.size_eq (h : Appended s t g p size count) (hi : t.mem.inodes p = some i) : i.iSize = size + count := by
  have hself := h.self
  rw [hi, Option.map_some, Option.some.injEq] at hself
  exact hself

theorem Appended.before (h : SameSizes s t) (he : Appended t u g p size count) : Appended s u g p size count where
  files := by rw [he.files, h.files]
  self := he.self
  others q hq := (he.others q hq).trans (h.size q)
  fits := he.fits

theorem Appended.after (he : Appended s t g p size count) (h : SameSizes t u) : Appended s u g p size count where
  files := h.files.trans he.files
  self := (h.size p).trans he.self
  others q hq := (h.size q).trans (he.others q hq)
  fits := he.fits

theorem sub32_lt {a b : Nat} (ha : a < 2 ^ 32) : sub32 a b < 2 ^ 32 := by
  rw [sub32]
  split <;> omega

theorem sat_collectBlocks_limit (hp : s.mem.inodes p = some i) : ((collectBlocks p count).on s).Sat True
    (fun _ _ => add32 i.iSize count < 512 * 140) := by
  rw [collectBlocks, sat_bind]
  refine (sat_getInode_eq p s).mono fun j t hj => ?_
  obtain ⟨rfl, hj⟩ := hj
  cases hp.symm.trans hj
  dsimp only
  rw [sat_bind, sat_assert]
  refine ⟨fun hle => ?_, fun _ => trivial⟩
  rw [decide_eq_true_eq] at hle
  exact (Res.sat_top trivial _).mono fun _ _ _ => by omega

theorem sat_writeData_sizes (hp : s.mem.inodes p = some i) (hi : i.iSize < 2 ^ 32) :
    ((writeData g p buf count).on s).Sat True (fun r t =>
      r = (count : Int) ∧ add32 i.iSize count < 512 * 140 ∧ Appended s t g p i.iSize count) := by
  have hc : Keeps SameSizes (collectBlocks p count) := Inner.keeps_collectBlocks p count
  rw [writeData, sat_bind]
  refine ((Tracked.yields_collectBlocks p count).and_sat ((hc s).and (sat_collectBlocks_limit hp))).mono fun r s₁ h₁ => ?_
  cases r with
  | none => cases h₁.1
  | some all =>
    obtain ⟨-, h₁, hlimit⟩ := h₁
    obtain ⟨j, hj, hsize⟩ := h₁.inode hp
    dsimp only
    rw [sat_bind]
    refine (sat_getInode_eq p s₁).mono fun k s₂ hk => ?_
    obtain ⟨rfl, hk⟩ := hk
    cases hj.symm.trans hk
    simp only [bind_on, get_on, setFile, modify_on, Res.sat_bind, Res.sat_done, hsize]
    generalize hs₃ : ({ s₂ with mem.fileTable := _ } : Fs) = s₃
    have hp₃ : s₃.mem.inodes p = some j := hs₃ ▸ hj
    have hm₃ : s₃.mem = s₂.mem.seek g (sub32 i.iSize 1) := hs₃ ▸ rfl
    have hlt₃ : (s₃.mem.fileTable g).fdPos < 2 ^ 32 := by
      rw [hm₃, seek_pos]
      exact sub32_lt hi
    refine (sat_writeChunks_sizes hp₃ (Nat.zero_le count) hlt₃).mono fun _ s₄ h₄ => ?_
    obtain ⟨hfit, hm⟩ := h₄
    rw [Nat.sub_zero, hsize] at hfit hm
    have hext : Appended s₂ s₄ g p i.iSize count := by
      refine ⟨?_, ?_, ?_, hfit⟩
      · rw [hm, hm₃]
        simp only [Mem.writing, Mem.seek, Mem.setFile, Mem.set, update_self, Function.update_idem]
      · rw [hm]
        simp only [Mem.writing, Mem.setFile_inodes, Mem.set_inodes_self, Option.map_some, Inode.body_iSize]
      · intro q hq
        rw [hm, hm₃]
        simp only [Mem.writing, Mem.seek, Mem.setFile, Mem.set, update_of_ne hq]
    refine (sat_getInode_eq p s₄).mono fun k s₅ hk => ?_
    obtain ⟨rfl, -⟩ := hk
    have hsync : Keeps SameSizes (inodeSync k) := Inner.keeps_inodeSync k
    exact (hsync s₅).mono fun _ s₆ h₆ => ⟨rfl, hlimit, (hext.after h₆).before h₁⟩

structure OpenAs (s : Fs) (g p : Nat) (i : Inode) : Prop where
  file : (s.mem.fileTable g).fdInode = some p
  inode : s.mem.inodes p = some i

theorem sat_openAs {α : Type} {f : Nat → Inode → Prog Fs Buf α} {Q : α → Fs → Prop}
    (h : ∀ p i, OpenAs s g p i → ((f p i).on s).Sat True Q) :
    ((do
      let p ← fileInode g
      let i ← getInode p
      f p i : Prog Fs Buf α).on s).Sat True Q := by
  rw [sat_bind]
  refine (sat_fileInode_eq g s).mono fun p t hp => ?_
  obtain ⟨rfl, hp⟩ := hp
  rw [sat_bind]
  refine (sat_getInode_eq p t).mono fun i u hi => ?_
  obtain ⟨rfl, hi⟩ := hi
  exact h p i ⟨hp, hi⟩

theorem sat_fileWrite_sizes (hs : ∀ p i, OpenAs s g p i → i.iSize < 2 ^ 32) :
    ((fileWrite g buf count).on s).Sat True (fun r t => ∃ p i, OpenAs s g p i ∧ (r = -1 ∧ 512 * 140 < add32 i.iSize count ∧ t = s ∨
      r = (count : Int) ∧ add32 i.iSize count < 512 * 140 ∧ Appended s t g p i.iSize count)) := by
  refine sat_openAs fun p i hpi => ?_
  rw [ite_on]
  by_cases hbig : 512 * 140 < add32 i.iSize count
  · rw [if_pos hbig]
    exact ⟨p, i, hpi, .inl ⟨rfl, hbig, rfl⟩⟩
  · rw [if_neg hbig, sat_bind]
    have hf : Keeps SameSizes (firstBlock p) := Inner.keeps_firstBlock p
    refine ((Tracked.yields_firstBlock p).and_sat (hf s)).mono fun b v hv => ?_
    obtain ⟨rfl, hv⟩ := hv
    obtain ⟨j, hj, hsize⟩ := hv.inode hpi.inode
    refine (sat_writeData_sizes hj (hsize ▸ hs p i hpi)).mono fun r w hw => ?_
    rw [hsize] at hw
    exact ⟨p, i, hpi, .inr ⟨hw.1, hw.2.1, hw.2.2.before hv⟩⟩

structure Moved (s t : Fs) (g pos : Nat) : Prop where
  files : t.mem.fileTable = update s.mem.fileTable g { s.mem.fileTable g with fdPos := pos }
  size : ∀ q, (t.mem.inodes q).map Inode.iSize = (s.mem.inodes q).map Inode.iSize

theorem moved_self (s : Fs) (g : Nat) : Moved s s g (s.mem.fileTable g).fdPos :=
  ⟨(update_eq_self g s.mem.fileTable).symm, fun _ => rfl⟩

theorem Moved.seek (h : SameSizes s t) {pos : Nat} (hm : u.mem = t.mem.seek g pos) : Moved s u g pos where
  files := by
    rw [hm, ← h.files]
    rfl
  size q := by
    rw [hm]
    exact h.size q

theorem read_end_le {pos size : Nat} (hle : pos ≤ i.iSize)
    (hsize : (if i.iSize < add32 pos count then sub32 i.iSize pos else count) = size)
    (hfit : 0 < size → pos + size ≤ 512 * 140) : pos + size ≤ i.iSize := by
  by_cases hc : i.iSize < add32 pos count
  · rw [if_pos hc, sub32_of_le hle] at hsize
    omega
  · rw [if_neg hc] at hsize
    subst hsize
    by_cases h0 : count = 0
    · omega
    · have := hfit (by omega)
      rw [add32_of_lt (by omega)] at hc
      omega

theorem sat_fileRead_moved (hle : ∀ p i, OpenAs s g p i → (s.mem.fileTable g).fdPos ≤ i.iSize) :
    ((fileRead g count).on s).Sat True (fun _ t =>
      ∃ p i, OpenAs s g p i ∧ ∃ pos ≤ i.iSize, Moved s t g pos) := by
  refine sat_openAs fun p i hpi => ?_
  rw [bind_on, get_on, Res.bind]
  dsimp only
  generalize hsize : (if i.iSize < add32 (s.mem.fileTable g).fdPos count
    then sub32 i.iSize (s.mem.fileTable g).fdPos else count) = size
  rw [ite_on]
  split
  · exact ⟨p, i, hpi, _, hle p i hpi, moved_self s g⟩
  · rw [sat_bind, sat_assert]
    refine ⟨fun _ => ?_, fun _ => trivial⟩
    rw [sat_bind]
    refine (sat_fileInode_eq g s).mono fun q t hq => ?_
    obtain ⟨rfl, -⟩ := hq
    rw [sat_bind]
    have hb : Keeps SameSizes (readBlocks q ((t.mem.fileTable g).fdPos / 512)
      (add32 (t.mem.fileTable g).fdPos size / 512)) := Inner.keeps_readBlocks _ _ _
    refine (hb t).mono fun all v hv => ?_
    rw [sat_bind]
    refine (sat_readChunks_pos (Nat.zero_le size)).mono fun bytes w hw => ?_
    rw [Nat.sub_zero, hv.files] at hw
    exact ⟨p, i, hpi, _, read_end_le (hle p i hpi) hsize hw.1, .seek hv hw.2⟩

end Calls

end TrueOs.Fs
