import TrueOs.Lib.Made
import TrueOs.Spec.Sizes

/-! What `file_read` returns, and which sectors it reads. -/

namespace TrueOs.Fs

open Prog

def readSector (lba : Nat) : Fs → Buf × Fs := fun s => (s.vol.disk.slice (512 * lba) (512 * 1), s)

theorem readSector_inj (s : Fs) {a b : Nat} (h : readSector a = readSector b) : a = b := by
  -- a disk whose only non-zero byte is the first of sector `a`
  have h₀ := congrFun (congrArg Prod.fst
    (congrFun h { s with vol.disk := Function.update (fun _ => 0) (512 * a) 1 })) 0
  simp only [readSector, Buf.slice, Nat.mul_one, Nat.add_zero, if_pos (show 0 < 512 by decide)] at h₀
  by_contra hne
  rw [Function.update_self, Function.update_of_ne (by omega)] at h₀
  cases h₀

def Vol.fileBlock (v : Vol) (i : Inode) (b : Nat) : Nat :=
  if 12 ≤ b ∧ i.iSectors 12 = 0 then 0 else withTable i.iSectors (v.disk.slice (512 * i.iSectors 12) 512) b

def Vol.fileByte (v : Vol) (i : Inode) (pos : Nat) : UInt8 := v.disk (512 * v.fileBlock i (pos / 512) + pos % 512)

def Vol.Belongs (v : Vol) (i : Inode) (lba : Nat) : Prop :=
  lba ≠ 0 ∧ (lba = i.iSectors 12 ∨ ∃ b < 140, v.fileBlock i b = lba)

structure Whole (v : Vol) (i : Inode) : Prop where
  size : i.iSize ≤ 71680
  blocks : ∀ b, 512 * b < i.iSize → v.fileBlock i b ≠ 0 ∧ v.fileBlock i b ≤ maxLba
  table : i.iSectors 12 ≤ maxLba

section Chunks

variable {s : Fs} {g p size n count pos : Nat} {i : Inode} {all : Nat → Nat} {P : (Fs → Buf × Fs) → Prop}

theorem made_ideRead {lba : Nat} {Q : Buf → Fs → Prop} :
    ((ideRead lba 1).on s).Made P Q ↔ lba ≤ maxLba ∧ P (readSector lba) ∧ Q (s.vol.disk.slice (512 * lba) 512) s := by
  simp only [ideRead, bind_on, Res.made_bind, made_assert, made_transfer, decide_eq_true_eq, Nat.zero_lt_one, true_and]
  rfl

theorem map_slice_eq {d : Buf} {lba c : Nat} (hc : pos % 512 + c ≤ 512) :
    (List.range c).map (fun k => d.slice (512 * lba) 512 (pos % 512 + k)) =
      (List.range c).map (fun k => d (512 * lba + (pos + k) % 512)) := by
  refine List.map_congr_left fun k hk => ?_
  rw [List.mem_range] at hk
  rw [Buf.slice, if_pos (by omega), show (pos + k) % 512 = pos % 512 + k by omega]

theorem made_readChunks {turns : Nat} (hpos : (s.mem.fileTable g).fdPos = pos) (hn : n ≤ size) (hturns : size - n < turns)
    (hfit : pos + (size - n) ≤ 512 * 140)
    (hall : ∀ b, pos / 512 ≤ b → 512 * b < pos + (size - n) → all b ≤ maxLba ∧ P (readSector (all b))) :
    ((readChunks g all size turns n).on s).Made P (fun bytes t =>
      bytes = (List.range (size - n)).map (fun j => s.vol.disk (512 * all ((pos + j) / 512) + (pos + j) % 512)) ∧
        t = { s with mem := s.mem.seek g (pos + (size - n)) }) := by
  induction turns generalizing s n pos with
  | zero => omega
  | succ turns ih =>
    rw [readChunks, ite_on]
    by_cases hlt : n < size
    · rw [if_pos hlt, bind_on, get_on, Res.bind, hpos, ite_on, if_pos (by omega), bind_on, Res.made_bind, made_ideRead]
      have hc := chunkSize_pos pos (show 0 < size - n by omega)
      have hle := chunkSize_le pos (size - n)
      have hin := chunkSize_fits pos (size - n)
      generalize chunkSize pos (size - n) = c at hc hle hin
      obtain ⟨hlba, hP⟩ := hall (pos / 512) le_rfl (by omega)
      refine ⟨hlba, hP, ?_⟩
      simp only [addPos, bind_on, get_on, setFile, modify_on, Res.made_bind, Res.made_done, pure_on]
      generalize hu : ({ s with mem.fileTable := _ } : Fs) = u
      have hu' : u = { s with mem := s.mem.seek g (pos + c) } := by
        rw [← hu, hpos, add32_of_lt (by omega)]
        rfl
      have hpos' : (u.mem.fileTable g).fdPos = pos + c := by
        rw [hu']
        exact seek_pos _ _ _
      refine (ih hpos' (by omega) (by omega) (by omega) fun b hb hb' => hall b (by omega) (by omega)).mono
        fun rest t ht => ?_
      obtain ⟨rfl, rfl⟩ := ht
      have hsum : size - n = c + (size - (n + c)) := by omega
      subst hu'
      refine ⟨?_, ?_⟩
      · rw [map_slice_eq hin, hsum, List.range_add, List.map_append, List.map_map]
        refine congrArg₂ (· ++ ·) (List.map_congr_left fun k hk => ?_) (List.map_congr_left fun k _ => ?_)
        · rw [List.mem_range] at hk
          rw [show (pos + k) / 512 = pos / 512 by omega]
        · rw [Function.comp_apply, Nat.add_assoc]
      · rw [seek_seek, hsum, Nat.add_assoc]
    · obtain rfl : n = size := by omega
      rw [if_neg hlt, Nat.sub_self, Nat.add_zero, ← hpos, seek_self]
      exact ⟨rfl, rfl⟩

end Chunks

def blockList (direct : Nat → Nat) (table : Buf) (a b : Nat) : Nat → Nat :=
  if a = b then
    if b < 12 then oneBlock b (direct b) else withTable (fun _ => 0) table
  else if b < 12 then
    fun k => if a ≤ k ∧ k ≤ b then direct k else 0
  else if a < 12 then
    withTable (fun k => if a ≤ k then direct k else 0) table
  else
    withTable (fun _ => 0) table

section Blocks

variable {s : Fs} {p a b k : Nat} {i : Inode} {direct : Nat → Nat} {table : Buf} {P : (Fs → Buf × Fs) → Prop}

theorem blockList_apply (ha : a ≤ k) (hb : k ≤ b) : blockList direct table a b k = withTable direct table k := by
  simp only [blockList]
  split
  · next hab =>
    obtain rfl : k = b := by omega
    split
    · next hk => rw [oneBlock, Function.update_self, withTable, if_pos hk]
    · next hk => rw [withTable, if_neg hk, withTable, if_neg hk]
  · split
    · simp only [if_pos (And.intro ha hb), withTable, if_pos (show k < 12 by omega)]
    · split
      · simp only [withTable, if_pos ha]
      · simp only [withTable, if_neg (show ¬k < 12 by omega)]

theorem made_readBlocks_iff (hp : s.mem.inodes p = some i) {Q : (Nat → Nat) → Fs → Prop} :
    ((readBlocks p a b).on s).Made P Q ↔
      (12 ≤ b → (a ≠ b → i.iSectors 12 ≠ 0) ∧ i.iSectors 12 ≤ maxLba ∧ P (readSector (i.iSectors 12))) ∧
        Q (blockList i.iSectors (s.vol.disk.slice (512 * i.iSectors 12) 512) a b) s := by
  simp only [readBlocks, getInode, bind_on, get_on, Res.bind, hp, pure_on, ite_on, blockList]
  by_cases hab : a = b
  · by_cases hb : b < 12
    · simp only [if_pos hab, if_pos hb, Res.made_done]
      simp [Nat.not_le.mpr hb]
    · simp only [if_pos hab, if_neg hb, Res.made_bind, made_ideRead, Res.made_done]
      simp [hab, Nat.not_lt.mp hb, and_assoc]
  · by_cases hb : b < 12
    · simp only [if_neg hab, if_pos hb, Res.made_done]
      simp [Nat.not_le.mpr hb]
    · by_cases ha : a < 12
      · simp only [if_neg hab, if_neg hb, if_pos ha, Res.made_bind, made_assert, made_ideRead, Res.made_done]
        simp [hab, Nat.not_lt.mp hb, and_assoc]
      · simp only [if_neg hab, if_neg hb, if_neg ha, Res.made_bind, made_assert, made_ideRead, Res.made_done]
        simp [hab, Nat.not_lt.mp hb, and_assoc]

end Blocks

/-- How many bytes `file_read` sets out to read. -/
def readSize (iSize pos count : Nat) : Nat := if iSize < add32 pos count then sub32 iSize pos else count

def OwnSector (v : Vol) (i : Inode) (x : Fs → Buf × Fs) : Prop := ∃ lba, v.Belongs i lba ∧ x = readSector lba

/-- `file_read` comes back with the bytes from the position on, or with -1 at the end, and read
nothing else than the file. -/
def ReadsRight (s : Fs) (k : Nat) (i : Inode) (pos count : Nat) : Prop :=
  ((fileRead k count).on s).Made (OwnSector s.vol i) (fun r t =>
    r = (if 0 < count ∧ pos = i.iSize then none
      else some ((List.range (min count (i.iSize - pos))).map fun j => s.vol.fileByte i (pos + j))) ∧
    t = { s with mem := s.mem.seek k (pos + min count (i.iSize - pos)) })

section Read

variable {s : Fs} {k p count pos : Nat} {i : Inode} {P : (Fs → Buf × Fs) → Prop}

theorem made_fileRead_iff (hk : OpenAs s k p i) (hpos : (s.mem.fileTable k).fdPos = pos)
    {Q : Option (List UInt8) → Fs → Prop} : ((fileRead k count).on s).Made P Q ↔
      if i.iSize < add32 pos count ∧ readSize i.iSize pos count = 0 then Q none s
      else (pos / 512 < 139 ∧ add32 pos (readSize i.iSize pos count) / 512 < 139) ∧
        ((readBlocks p (pos / 512) (add32 pos (readSize i.iSize pos count) / 512)).on s).Made P (fun all t =>
          ((readChunks k all (readSize i.iSize pos count) (readSize i.iSize pos count + 1) 0).on t).Made P
            (fun bytes u => Q (some bytes) u)) := by
  have hsize : (if i.iSize < add32 pos count then sub32 i.iSize pos else count) = readSize i.iSize pos count := rfl
  simp only [fileRead, fileInode, getInode, bind_on, get_on, Res.bind, hk.file, hk.inode, pure_on, ite_on, hpos, hsize]
  by_cases h : i.iSize < add32 pos count ∧ readSize i.iSize pos count = 0
  · rw [if_pos h, if_pos h]
    rfl
  · rw [if_neg h, if_neg h]
    simp only [Res.made_bind, made_assert, decide_eq_true_eq, Res.made_done, hk.file, pure_on]

theorem readSize_of_lt (hle : pos ≤ i.iSize) (hlt : pos + count < 2 ^ 32) :
    readSize i.iSize pos count = min count (i.iSize - pos) := by
  rw [readSize, add32_of_lt hlt, sub32_of_le hle]
  split <;> omega

theorem blockList_eq (v : Vol) {a b c : Nat} (hb : a ≤ c ∧ c ≤ b) (h12 : 12 ≤ b → i.iSectors 12 ≠ 0) :
    blockList i.iSectors (v.disk.slice (512 * i.iSectors 12) 512) a b c = v.fileBlock i c := by
  rw [blockList_apply hb.1 hb.2, Vol.fileBlock, if_neg fun h => h12 (by omega) h.2]

theorem Whole.own (hw : Whole s.vol i) {b : Nat} (hb : 512 * b < i.iSize) :
    s.vol.fileBlock i b ≤ maxLba ∧ OwnSector s.vol i (readSector (s.vol.fileBlock i b)) := by
  have hsize := hw.size
  obtain ⟨hne, hle⟩ := hw.blocks b hb
  exact ⟨hle, _, ⟨hne, .inr ⟨b, by omega, rfl⟩⟩, rfl⟩

theorem own_table_iff : OwnSector s.vol i (readSector (i.iSectors 12)) ↔ i.iSectors 12 ≠ 0 := by
  constructor
  · rintro ⟨lba, ⟨hne, -⟩, he⟩
    rwa [readSector_inj s he]
  · exact fun h => ⟨_, ⟨h, .inl rfl⟩, rfl⟩

theorem not_made_wrap (hk : OpenAs s k p i) (hpos : (s.mem.fileTable k).fdPos = pos) (hle : pos ≤ i.iSize)
    (hsize : i.iSize ≤ 71680) (hcount : count < 2 ^ 32) (hwrap : ¬pos + count < 2 ^ 32)
    {Q : Option (List UInt8) → Fs → Prop} : ¬((fileRead k count).on s).Made P Q := by
  have hadd : ¬i.iSize < add32 pos count := by
    rw [add32]
    omega
  have hread : readSize i.iSize pos count = count := if_neg hadd
  rw [made_fileRead_iff hk hpos, if_neg fun h => hadd h.1, hread, made_readBlocks_iff hk.inode]
  rintro ⟨-, -, hmade⟩
  obtain ⟨bytes, t, hrun, -⟩ := hmade.exists_run
  have hfit := ((sat_readChunks_pos (Nat.zero_le count)).of_run hrun).1
  rw [hpos] at hfit
  omega

theorem file_read_iff (hk : OpenAs s k p i) (hpos : (s.mem.fileTable k).fdPos = pos) (hw : Whole s.vol i)
    (hle : pos ≤ i.iSize) (hcount : count < 2 ^ 32) : ReadsRight s k i pos count ↔ pos + count < 2 ^ 32 ∧
      (0 < count ∧ pos = i.iSize ∨ (pos + min count (i.iSize - pos)) / 512 < 139 ∧
        (12 ≤ (pos + min count (i.iSize - pos)) / 512 → i.iSectors 12 ≠ 0)) := by
  have hsize := hw.size
  by_cases hwrap : pos + count < 2 ^ 32
  · rw [ReadsRight, made_fileRead_iff hk hpos, readSize_of_lt hle hwrap, add32_of_lt hwrap,
      add32_of_lt (show pos + min count (i.iSize - pos) < 2 ^ 32 by omega)]
    by_cases hend : 0 < count ∧ pos = i.iSize
    · rw [if_pos (show i.iSize < pos + count ∧ min count (i.iSize - pos) = 0 by omega), if_pos hend,
        show pos + min count (i.iSize - pos) = (s.mem.fileTable k).fdPos by omega, seek_self]
      exact iff_of_true ⟨rfl, rfl⟩ ⟨hwrap, .inl hend⟩
    · rw [if_neg (show ¬(i.iSize < pos + count ∧ min count (i.iSize - pos) = 0) by omega), if_neg hend,
        made_readBlocks_iff hk.inode]
      constructor
      · rintro ⟨⟨-, h139⟩, htable, -⟩
        exact ⟨hwrap, .inr ⟨h139, fun h => own_table_iff.mp (htable h).2.2⟩⟩
      · rintro ⟨-, hc | ⟨h139, h12⟩⟩
        · exact absurd hc hend
        · have hlist : ∀ b, pos / 512 ≤ b → 512 * b < pos + min count (i.iSize - pos) →
              blockList i.iSectors (s.vol.disk.slice (512 * i.iSectors 12) 512) (pos / 512)
                ((pos + min count (i.iSize - pos)) / 512) b = s.vol.fileBlock i b :=
            fun b hb hb' => blockList_eq s.vol ⟨hb, by omega⟩ h12
          refine ⟨⟨by omega, h139⟩, fun h => ⟨fun _ => h12 h, hw.table, own_table_iff.mpr (h12 h)⟩, ?_⟩
          refine (made_readChunks hpos (Nat.zero_le _) (by omega) (by omega) fun b hb hb' => ?_).mono fun bytes t ht => ?_
          · rw [hlist b hb hb']
            exact hw.own (by omega)
          · refine ⟨congrArg some (ht.1.trans (List.map_congr_left fun j hj => ?_)), ht.2⟩
            rw [List.mem_range] at hj
            rw [hlist _ (by omega) (by omega), Vol.fileByte]
  · refine iff_of_false (not_made_wrap hk hpos hle hsize hcount hwrap) fun h => hwrap h.1

def longFile : Inode := ⟨1, 71168, 1, false, fun k => 700 + k⟩

def longOpen : Fs where
  vol := ⟨0, 1000, ⟨0, 1000, 4096, 0, 1, 1, 2, 1, 3, 608, 611, 0, 24⟩, .ofWords (fun j => 713 + (j - 91136)),
    ⟨512, fun _ => 0⟩, ⟨512, fun _ => 0⟩⟩
  mem := ⟨Function.update (fun _ => none) 1 (some longFile), [1], 0,
    Function.update (fun _ => ⟨0, 0, none⟩) 3 ⟨70000, 0, some 1⟩, fun _ => none, fun _ _ => -1, fun _ => 0⟩

theorem whole_longFile : Whole longOpen.vol longFile where
  size := by decide
  blocks b hb := by
    have hb' : b < 139 := by
      simp only [longFile] at hb
      omega
    have hblock : longOpen.vol.fileBlock longFile b = if b < 12 then 700 + b else 701 + b := by
      rw [Vol.fileBlock, if_neg (by simp [longFile]), withTable]
      split
      · rfl
      · rw [if_pos (by omega), Buf.word_slice (by omega)]
        have hword : 512 * longFile.iSectors 12 + 4 * (b - 12) = 4 * (91136 + (b - 12)) := by
          simp only [longFile]
          omega
        rw [hword, longOpen, Buf.word_ofWords, Nat.mod_eq_of_lt (by omega)]
        omega
    have hmax : maxLba = 163839 := rfl
    rw [hblock]
    split <;> omega
  table := by decide

theorem read_hundred_bytes : ReadsRight longOpen 3 longFile 70000 100 :=
  (file_read_iff (p := 1) ⟨rfl, rfl⟩ rfl whole_longFile (by decide) (by decide)).mpr (by decide)

/-- The block after the last one is 139. -/
theorem read_last_byte : OpenAs longOpen 3 1 longFile ∧ Whole longOpen.vol longFile ∧
    ((fileRead 3 1168).on longOpen).run = .error .assert :=
  ⟨⟨rfl, rfl⟩, whole_longFile, run_of_stops (by decide)⟩

end Read

end TrueOs.Fs
