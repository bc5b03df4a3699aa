import TrueOs.Fs.Syscall
import TrueOs.Spec.Delete

/-! When a mounted file system is consistent.

The ghost part says what the disk is meant to be: which inodes are directories, and
in which directory each inode was created.  An inode may have lost its name; its
directory still counts it. -/

namespace TrueOs.Fs

open Function (update update_of_ne)

structure Ghost where
  isDir : Nat → Bool
  par : Nat → Nat

namespace View

def sec (w : View) (n : Nat) : Nat → Nat := (w.ino n).iSectors

def hold (w : View) (sec : Nat → Nat) (q : Nat) : Nat :=
  if q < 12 then sec q else if q = 12 then sec 12 else w.addr sec (q - 1)

end View

structure Own (w : View) : Prop where
  used : ∀ n q, w.ibit n = true → w.hold (w.sec n) q ≠ 0 → w.used (w.hold (w.sec n) q) = true
  once : ∀ n q n' q', w.ibit n = true → w.ibit n' = true → w.hold (w.sec n) q ≠ 0 →
    w.hold (w.sec n) q = w.hold (w.sec n') q' → n = n' ∧ q = q'

structure DirRep (g : Geom) (w : View) (sec : Nat → Nat) (d p : Nat) : Prop where
  ok : DirOk g w sec
  dot : w.ent sec 0 0 = some ⟨dot, d, ftDirectory⟩
  dotdot : w.ent sec 0 1 = some ⟨dotdot, p, ftDirectory⟩
  normal : ∀ k j e, w.ent sec k j = some e → e.normal = false → k = 0 ∧ j ≤ 1
  names : ∀ k j e k' j' e', w.ent sec k j = some e → w.ent sec k' j' = some e' →
    e.name = e'.name → k = k' ∧ j = j'
  live : ∀ k, 1 ≤ k → k < 12 → sec k ≠ 0 → ∃ j e, w.ent sec k j = some e
  tbl : sec 12 ≠ 0 → (∃ e, w.ent sec 12 0 = some e) ∧
    ∀ k j e, 12 ≤ k → w.ent sec k j = some e → k = 12 ∧ j = 0

/-- The sectors `sec` are those of a file of `size` bytes: it has the blocks up to the
one its next byte goes to, and none before its first write. -/
structure FileRep (w : View) (sec : Nat → Nat) (size : Nat) : Prop where
  lt : size < 512 * 140
  fresh : sec 0 = 0 → size = 0
  addr : ∀ b < 140, w.addr sec b ≠ 0 ↔ sec 0 ≠ 0 ∧ b ≤ size / 512
  tbl : sec 12 ≠ 0 ↔ 12 ≤ size / 512

def children (w : View) (γ : Ghost) (d : Nat) : Finset Nat :=
  (Finset.range 4096).filter (fun n => w.ibit n = true ∧ n ≠ 0 ∧ γ.par n = d)

theorem mem_children {w : View} {γ : Ghost} {d n : Nat} : n ∈ children w γ d ↔
    n < 4096 ∧ w.ibit n = true ∧ n ≠ 0 ∧ γ.par n = d := by
  rw [children, Finset.mem_filter, Finset.mem_range]

structure Tree (g : Geom) (w : View) (γ : Ghost) : Prop where
  root : w.ibit 0 = true ∧ γ.isDir 0 = true ∧ γ.par 0 = 0
  no : ∀ n, w.ibit n = true → n < 4096 ∧ (w.ino n).iNo = n
  clean : ∀ n, w.ibit n = true → (w.ino n).clean = w.ino n
  dir : ∀ d, w.ibit d = true → γ.isDir d = true → DirRep g w (w.sec d) d (γ.par d)
  file : ∀ n, w.ibit n = true → γ.isDir n = false → FileRep w (w.sec n) (w.ino n).iSize
  ent : ∀ d k j e, w.ibit d = true → γ.isDir d = true → w.ent (w.sec d) k j = some e →
    e.normal = true → w.ibit e.ino = true ∧ e.ino ≠ 0 ∧ γ.par e.ino = d ∧
      γ.isDir e.ino = decide (e.ty = ftDirectory)
  once : ∀ d k j e k' j' e', w.ibit d = true → γ.isDir d = true → w.ent (w.sec d) k j = some e →
    w.ent (w.sec d) k' j' = some e' → e.normal = true → e'.normal = true → e.ino = e'.ino →
    k = k' ∧ j = j'
  par : ∀ n, w.ibit n = true → w.ibit (γ.par n) = true ∧ γ.isDir (γ.par n) = true
  size : ∀ d, w.ibit d = true → γ.isDir d = true →
    (w.ino d).iSize = 24 * (2 + (children w γ d).card)

/-- `open_inodes` holds inodes in use, each once, as they are on disk. -/
structure Cached (w : View) (m : Mem) : Prop where
  nodup : m.openInodes.Nodup
  obj : ∀ p, p ∈ m.openInodes ↔ ∃ i, m.inodes p = some i
  alloc : ∀ p i, m.inodes p = some i → w.ibit i.iNo = true
  agree : ∀ p i, m.inodes p = some i →
    i.iSize = (w.ino i.iNo).iSize ∧ i.iSectors = (w.ino i.iNo).iSectors
  pos : ∀ p i, m.inodes p = some i → 1 ≤ i.iOpenCnts
  once : ∀ p i q j, m.inodes p = some i → m.inodes q = some j → i.iNo = j.iNo → p = q
  root : ∃ i, m.inodes m.rootDir = some i ∧ i.iNo = 0

def Calm (m : Mem) : Prop := ∀ p i, m.inodes p = some i → i.iOpenCnts + 4 < 2 ^ 32

def Counted (m : Mem) : Prop := ∀ p i, m.inodes p = some i → i.iOpenCnts < 2 ^ 32

def Below (c : Nat) (m : Mem) : Prop := ∀ p i, m.inodes p = some i → i.iOpenCnts + c < 2 ^ 32

theorem Calm.below {m : Mem} (h : Calm m) {c : Nat} (hc : c ≤ 4) : Below c m := by
  intro p i hi
  have := h p i hi
  omega

theorem Below.counted {m : Mem} {c : Nat} (h : Below c m) : Counted m := by
  intro p i hi
  have := h p i hi
  omega

theorem Calm.counted {m : Mem} (h : Calm m) : Counted m := (h.below (Nat.zero_le 4)).counted

section Cached

variable {w : View} {m : Mem} {n p : Nat} {i : Inode}

theorem Cached.ok (h : Cached w m) : m.Ok :=
  ⟨h.nodup, fun p hp => (h.obj p).mp hp, fun p i hi => Or.inl ((h.obj p).mpr ⟨i, hi⟩)⟩

theorem Cached.find (h : Cached w m) (hi : m.inodes p = some i) : m.find i.iNo = some p := by
  have hs := Mem.find_isSome ((h.obj p).mpr ⟨i, hi⟩) hi
  cases hf : m.find i.iNo with
  | none => simp [hf] at hs
  | some q =>
    obtain ⟨-, j, hj, hno⟩ := Mem.find_some hf
    rw [h.once q j p i hj hi hno]

theorem Cached.deliver (h : Cached w m) (hn : (w.ino n).iNo = n) :
    (m.deliver w n).iNo = n ∧ (m.deliver w n).iSize = (w.ino n).iSize ∧
      (m.deliver w n).iSectors = w.sec n := by
  cases hf : m.find n with
  | none =>
    rw [Mem.deliver_of_none hf]
    exact ⟨hn, rfl, rfl⟩
  | some p =>
    obtain ⟨-, i, hi, hno⟩ := Mem.find_some hf
    subst hno
    rw [Mem.deliver_of_find hf hi]
    exact ⟨rfl, h.agree p i hi⟩

theorem Counted.counts (hc : Counted m) (h : Cached w m) : ∀ p i, m.find n = some p →
    m.inodes p = some i → 1 ≤ i.iOpenCnts ∧ i.iOpenCnts < 2 ^ 32 := by
  intro p i _ hi
  exact ⟨h.pos p i hi, hc p i hi⟩

theorem Cached.closed_opened (h : Cached w m) (hc : Counted m) :
    (m.opened w n).closed (m.ptr n) = m := Mem.closed_opened h.ok (hc.counts h)

end Cached

section NewDir

variable {g : Geom} {w : View} {n par lba : Nat}

theorem ok_dots {name : List UInt8} (hv : ValidName name) (hn : n < 4096) :
    Ent.Ok ⟨name, n, ftDirectory⟩ := ⟨hv, hn, Or.inr rfl⟩

theorem dotBlock_eq (n par : Nat) : (dotBlock n par).slice 0 512 =
    (((Buf.splice (fun _ => 0) (24 * 0) 24 (Ent.entry ⟨dot, n, ftDirectory⟩).bytes).slice 0 512).splice
      (24 * 1) 24 (Ent.entry ⟨dotdot, par, ftDirectory⟩).bytes).slice 0 512 := by
  funext x
  by_cases hx : x < 512
  · rw [Buf.slice_of_lt hx, Buf.slice_of_lt hx, Nat.zero_add, dotBlock, dirEntryBytes]
    by_cases h : 24 ≤ x ∧ x < 48
    · rw [Buf.splice_of_mem (by omega) (by omega), Buf.splice_of_mem (by omega) (by omega)]
      rfl
    · rw [Buf.splice_of_not_mem (a := 24) (by omega), Buf.splice_of_not_mem (a := 24 * 1) (by omega),
        Buf.slice_of_lt hx, Nat.zero_add]
      rfl
  · rw [Buf.slice_of_le (by omega), Buf.slice_of_le (by omega)]

theorem dotBlock_slot (hn : n < 4096) (hp : par < 4096) :
    GoodBlock ((dotBlock n par).slice 0 512) ∧ ∀ j < 21, slot ((dotBlock n par).slice 0 512) j =
      if j = 1 then some ⟨dotdot, par, ftDirectory⟩
      else if j = 0 then some ⟨dot, n, ftDirectory⟩ else none := by
  obtain ⟨h₁, hs₁⟩ := goodBlock_zero.store 0 (ok_dots valid_dot hn)
  obtain ⟨h₂, hs₂⟩ := h₁.store 1 (ok_dots valid_dotdot hp)
  rw [dotBlock_eq]
  refine ⟨h₂, fun j hj => ?_⟩
  rw [hs₂ j hj, hs₁ j hj, slot_zero]

theorem addr_single (k : Nat) :
    w.addr (update (fun _ => 0) 0 lba) k = if k = 0 then lba else 0 := by
  simp only [View.addr]
  by_cases hk : k = 0
  · subst hk
    rfl
  · rw [if_neg hk, update_of_ne hk, update_of_ne (by decide)]
    split
    · rfl
    · rw [if_neg (by simp)]

theorem ent_single (hn : n < 4096) (hp : par < 4096) (hb : w.blk lba = (dotBlock n par).slice 0 512)
    (h0 : lba ≠ 0) (k j : Nat) : w.ent (update (fun _ => 0) 0 lba) k j =
      if k = 0 ∧ j = 1 then some ⟨dotdot, par, ftDirectory⟩
      else if k = 0 ∧ j = 0 then some ⟨dot, n, ftDirectory⟩ else none := by
  simp only [View.ent, addr_single]
  by_cases hk : k = 0
  · subst hk
    by_cases hj : j < 21
    · rw [if_pos ⟨by omega, hj, by simpa using h0⟩, if_pos rfl, hb, (dotBlock_slot hn hp).2 j hj]
      simp
    · rw [if_neg (by omega), if_neg (by omega), if_neg (by omega)]
  · simp [hk]

theorem dirRep_new (hn : n < 4096) (hp : par < 4096) (hb : w.blk lba = (dotBlock n par).slice 0 512)
    (hl : g.base ≤ lba) (hm : lba ≤ maxLba) : DirRep g w (update (fun _ => 0) 0 lba) n par := by
  have h0 : lba ≠ 0 := by have := g.base_pos; omega
  have hent := ent_single hn hp hb h0
  have hcases : ∀ k j e, w.ent (update (fun _ => 0) 0 lba) k j = some e →
      k = 0 ∧ (j = 1 ∧ e.name = dotdot ∨ j = 0 ∧ e.name = dot) := by
    intro k j e he
    rw [hent] at he
    split at he
    · cases he
      rename_i hkj
      exact ⟨hkj.1, Or.inl ⟨hkj.2, rfl⟩⟩
    · split at he
      · cases he
        rename_i hkj
        exact ⟨hkj.1, Or.inr ⟨hkj.2, rfl⟩⟩
      · cases he
  have hne : dot ≠ dotdot := by decide
  constructor
  · constructor
    · intro h
      exact absurd (update_of_ne (by decide) _ _) h
    · intro k _ ha
      rw [addr_single] at ha ⊢
      split at ha
      · rw [if_pos (by assumption)]
        exact ⟨hl, hm⟩
      · exact absurd rfl ha
    · intro k _ ha
      rw [addr_single] at ha ⊢
      split at ha
      · rw [if_pos (by assumption), hb]
        exact (dotBlock_slot hn hp).1
      · exact absurd rfl ha
  · rw [hent, if_neg (by omega), if_pos ⟨rfl, rfl⟩]
  · rw [hent, if_pos ⟨rfl, rfl⟩]
  · intro k j e he _
    obtain ⟨hk, hj | hj⟩ := hcases k j e he
    · exact ⟨hk, by omega⟩
    · exact ⟨hk, by omega⟩
  · intro k j e k' j' e' he he' hname
    obtain ⟨hk, hj⟩ := hcases k j e he
    obtain ⟨hk', hj'⟩ := hcases k' j' e' he'
    refine ⟨by omega, ?_⟩
    rcases hj with ⟨hj, hx⟩ | ⟨hj, hx⟩ <;> rcases hj' with ⟨hj', hx'⟩ | ⟨hj', hx'⟩
    · omega
    · exact absurd (hx'.symm.trans (hname.symm.trans hx)) hne
    · exact absurd (hx.symm.trans (hname.trans hx')) hne
    · omega
  · intro k h1 _ hk
    exact absurd (update_of_ne (by omega) _ _) hk
  · intro h
    exact absurd (update_of_ne (by decide) _ _) h

theorem new_not_normal (hn : n < 4096) (hp : par < 4096)
    (hb : w.blk lba = (dotBlock n par).slice 0 512) (h0 : lba ≠ 0) {k j : Nat} {e : Ent}
    (he : w.ent (update (fun _ => 0) 0 lba) k j = some e) : e.normal = false := by
  rw [ent_single hn hp hb h0] at he
  split at he
  · cases he
    simp [Ent.normal]
  · split at he
    · cases he
      simp [Ent.normal]
    · cases he

end NewDir

end TrueOs.Fs
