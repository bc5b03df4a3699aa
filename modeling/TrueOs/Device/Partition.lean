import TrueOs.Fs.State

/-! Reading the partition tables, after `partition_scan` and `ide_init` of `device/ide.c`.  Of a
partition only the place on its disk is kept.  The memory for the sectors that are read, and the
stack that the recursion takes, are not limited here. -/

namespace TrueOs.Ide

open Fs (maxLba add32)

abbrev Disk : Type := Nat → Buf

structure Partition where
  startLba : Nat
  secCnt : Nat
  deriving DecidableEq, Repr

structure Entry where
  fsType : UInt8
  startLba : Nat
  secCnt : Nat
  deriving DecidableEq, Repr

def entry (bs : Buf) (i : Nat) : Entry :=
  ⟨bs (446 + 16 * i + 4), bs.word (446 + 16 * i + 8), bs.word (446 + 16 * i + 12)⟩

def partitionTable (bs : Buf) : List Entry := [entry bs 0, entry bs 1, entry bs 2, entry bs 3]

structure Scan where
  extLbaBase : Nat
  pNo : Nat
  lNo : Nat
  primParts : Nat → Partition
  logicParts : Nat → Partition

/-- The next primary partition; behind the four cells lie the logical ones. -/
def Scan.addPrim (s : Scan) (p : Partition) : Except Stop Scan :=
  if s.pNo < 4 then
    .ok { s with primParts := Function.update s.primParts s.pNo p, pNo := s.pNo + 1 }
  else
    .error .fault

/-- The next logical partition; behind the eight cells lies another disk. -/
def Scan.addLogic (s : Scan) (p : Partition) : Except Stop Scan :=
  if s.lNo < 8 then
    .ok { s with logicParts := Function.update s.logicParts s.lNo p, lNo := s.lNo + 1 }
  else
    .error .fault

/-- The loop over the entries of the sector at `extLba`; `scan` is the recursive call. -/
def scanEntries (scan : Nat → Scan → Except Stop Scan) (extLba : Nat) :
    List Entry → Scan → Except Stop Scan
  | [], s => .ok s
  | p :: ps, s => do
    if p.fsType = 5 then
      let s ←
        if s.extLbaBase ≠ 0 then
          scan (add32 p.startLba s.extLbaBase) s
        else
          scan p.startLba { s with extLbaBase := p.startLba }
      scanEntries scan extLba ps s
    else if p.fsType ≠ 0 then
      if extLba = 0 then
        let s ← s.addPrim ⟨add32 extLba p.startLba, p.secCnt⟩
        if s.pNo < 4 then scanEntries scan extLba ps s else throw .assert
      else
        let s ← s.addLogic ⟨add32 extLba p.startLba, p.secCnt⟩
        -- leaves this sector, and no more than this one
        if 8 ≤ s.lNo then return s else scanEntries scan extLba ps s
    else
      scanEntries scan extLba ps s

/-- `depth` bounds how far the calls are nested. -/
def partitionScan (disk : Disk) : (depth : Nat) → (extLba : Nat) → Scan → Except Stop Scan
  | 0, _, _ => .error .loop
  | depth + 1, extLba, s =>
    if extLba ≤ maxLba then
      scanEntries (partitionScan disk depth) extLba (partitionTable (disk extLba)) s
    else
      .error .assert

def blank : Nat → Partition := fun _ => ⟨0, 0⟩

/-- The loops of `ide_init` over the disks that are scanned (the first one of each channel is not).
The counters are set back after each disk, but `ext_lba_base` stays.  The result are the two arrays
of each disk. -/
def scanDisks (depth : Nat) : List Disk → (extLbaBase : Nat) →
    Except Stop (List ((Nat → Partition) × (Nat → Partition)))
  | [], _ => .ok []
  | disk :: disks, extLbaBase => do
    let s ← partitionScan disk depth 0 ⟨extLbaBase, 0, 0, blank, blank⟩
    let rest ← scanDisks depth disks s.extLbaBase
    return (s.primParts, s.logicParts) :: rest

section Place

variable {α : Type}

def place (f : Nat → α) (n : Nat) : List α → Nat → α
  | [] => f
  | p :: ps => place (Function.update f n p) (n + 1) ps

theorem place_append (f : Nat → α) (n : Nat) (l l' : List α) :
    place (place f n l) (n + l.length) l' = place f n (l ++ l') := by
  induction l generalizing f n with
  | nil => rfl
  | cons p ps ih =>
    rw [List.length_cons, Nat.add_comm ps.length, ← Nat.add_assoc]
    exact ih (Function.update f n p) (n + 1)

theorem place_of_lt (f : Nat → α) {n i : Nat} (l : List α) (h : i < n) : place f n l i = f i := by
  induction l generalizing f n with
  | nil => rfl
  | cons p ps ih => rw [place, ih _ (by omega), Function.update_of_ne (by omega)]

theorem place_apply (f : Nat → α) (n i : Nat) (l : List α) : place f n l (n + i) = l.getD i (f (n + i)) := by
  induction l generalizing f n i with
  | nil => simp [place]
  | cons p ps ih =>
    rw [place]
    cases i with
    | zero => exact (place_of_lt _ ps (Nat.lt_add_one n)).trans (Function.update_self ..)
    | succ i =>
      rw [show n + (i + 1) = n + 1 + i by omega, ih, Function.update_of_ne (by omega)]
      simp

end Place

def Scan.grow (s : Scan) (base : Nat) (prims logics : List Partition) : Scan where
  extLbaBase := base
  pNo := s.pNo + prims.length
  lNo := s.lNo + logics.length
  primParts := place s.primParts s.pNo prims
  logicParts := place s.logicParts s.lNo logics

theorem Scan.grow_grow (s : Scan) (b b' : Nat) (ps ps' ls ls' : List Partition) :
    (s.grow b ps ls).grow b' ps' ls' = s.grow b' (ps ++ ps') (ls ++ ls') := by
  simp only [grow, place_append, List.length_append, Nat.add_assoc]

/-- The partitions met from some entries of the sector at `lba` on, down along the links.  A link is
relative to `base`, which the first one sets, and a partition to its own sector.  Links that come
back to a sector have no derivation. -/
inductive Meets (disk : Disk) : (base lba : Nat) → List Entry → (base' : Nat) →
    (prims logics : List Partition) → Prop
  | nil {base lba} : Meets disk base lba [] base [] []
  | empty {base lba base' p ps prims logics} : p.fsType = 0 →
      Meets disk base lba ps base' prims logics → Meets disk base lba (p :: ps) base' prims logics
  | prim {base base' p ps prims logics} : p.fsType ≠ 5 → p.fsType ≠ 0 →
      Meets disk base 0 ps base' prims logics →
      Meets disk base 0 (p :: ps) base' (⟨add32 0 p.startLba, p.secCnt⟩ :: prims) logics
  | logic {base lba base' p ps prims logics} : p.fsType ≠ 5 → p.fsType ≠ 0 → lba ≠ 0 →
      Meets disk base lba ps base' prims logics →
      Meets disk base lba (p :: ps) base' prims (⟨add32 lba p.startLba, p.secCnt⟩ :: logics)
  | first {lba base' base₁ p ps prims logics prims₁ logics₁} : p.fsType = 5 → p.startLba ≠ 0 →
      p.startLba ≤ maxLba →
      Meets disk p.startLba p.startLba (partitionTable (disk p.startLba)) base₁ prims₁ logics₁ →
      Meets disk base₁ lba ps base' prims logics →
      Meets disk 0 lba (p :: ps) base' (prims₁ ++ prims) (logics₁ ++ logics)
  | link {base lba base' base₁ p ps prims logics prims₁ logics₁} : p.fsType = 5 → base ≠ 0 →
      add32 p.startLba base ≠ 0 → add32 p.startLba base ≤ maxLba →
      Meets disk base (add32 p.startLba base) (partitionTable (disk (add32 p.startLba base))) base₁ prims₁
        logics₁ →
      Meets disk base₁ lba ps base' prims logics →
      Meets disk base lba (p :: ps) base' (prims₁ ++ prims) (logics₁ ++ logics)

section Scanning

variable {disk : Disk} {base lba base' depth : Nat} {ps : List Entry} {prims logics : List Partition}
  {s : Scan}

theorem Meets.inner (h : Meets disk base lba ps base' prims logics) (hlba : lba ≠ 0) (hbase : base ≠ 0) :
    prims = [] ∧ base' = base := by
  induction h with
  | nil => exact ⟨rfl, rfl⟩
  | empty _ _ ih => exact ih hlba hbase
  | prim => exact absurd rfl hlba
  | logic _ _ _ _ ih => exact ih hlba hbase
  | first => exact absurd rfl hbase
  | link _ _ hne _ _ _ ih₁ ih₂ =>
    obtain ⟨rfl, rfl⟩ := ih₁ hne hbase
    exact ih₂ hlba hbase

theorem partitionScan_succ (h : lba ≤ maxLba) :
    partitionScan disk (depth + 1) lba s =
      scanEntries (partitionScan disk depth) lba (partitionTable (disk lba)) s := if_pos h

theorem Meets.scan (h : Meets disk base lba ps base' prims logics) (hlba : lba ≠ 0 → base ≠ 0)
    (hbase : s.extLbaBase = base) (hp : s.pNo + prims.length < 4) (hl : s.lNo + logics.length ≤ 8) :
    ∃ d, ∀ depth, d ≤ depth →
      scanEntries (partitionScan disk depth) lba ps s = .ok (s.grow base' prims logics) := by
  induction h generalizing s with
  | nil =>
    subst hbase
    exact ⟨0, fun _ _ => rfl⟩
  | empty h0 _ ih =>
    obtain ⟨d, hd⟩ := ih hlba hbase hp hl
    refine ⟨d, fun depth hdep => ?_⟩
    rw [scanEntries, if_neg (by rw [h0]; decide), if_neg (not_not.mpr h0)]
    exact hd depth hdep
  | @prim base base' p ps prims logics h5 h0 _ ih =>
    rw [List.length_cons] at hp
    obtain ⟨d, hd⟩ := ih (s := s.grow base [⟨add32 0 p.startLba, p.secCnt⟩] []) hlba rfl
      (by simp only [Scan.grow, List.length_singleton]; omega) hl
    refine ⟨d, fun depth hdep => ?_⟩
    have hadd : s.addPrim ⟨add32 0 p.startLba, p.secCnt⟩ =
        .ok (s.grow base [⟨add32 0 p.startLba, p.secCnt⟩] []) := by
      rw [Scan.addPrim, if_pos (by omega), ← hbase]
      rfl
    rw [scanEntries, if_neg h5, if_pos h0, if_pos rfl, hadd]
    refine (if_pos ?_).trans ((hd depth hdep).trans ?_)
    · simp only [Scan.grow, List.length_singleton]
      omega
    · rw [Scan.grow_grow]
      rfl
  | @logic base lba base' p ps prims logics h5 h0 hne hrest ih =>
    rw [List.length_cons] at hl
    have hadd : s.addLogic ⟨add32 lba p.startLba, p.secCnt⟩ =
        .ok (s.grow base [] [⟨add32 lba p.startLba, p.secCnt⟩]) := by
      rw [Scan.addLogic, if_pos (by omega), ← hbase]
      rfl
    obtain ⟨d, hd⟩ := ih (s := s.grow base [] [⟨add32 lba p.startLba, p.secCnt⟩]) hlba rfl hp
      (by simp only [Scan.grow, List.length_singleton]; omega)
    refine ⟨d, fun depth hdep => ?_⟩
    rw [scanEntries, if_neg h5, if_pos h0, if_neg hne, hadd]
    by_cases hfull : 8 ≤ s.lNo + 1
    · -- the entries that are skipped hold nothing
      obtain rfl : logics = [] := List.eq_nil_of_length_eq_zero (by omega)
      obtain ⟨rfl, rfl⟩ := hrest.inner hne (hlba hne)
      exact if_pos hfull
    · refine (if_neg hfull).trans ((hd depth hdep).trans ?_)
      rw [Scan.grow_grow]
      rfl
  | @first lba base' base₁ p ps prims logics prims₁ logics₁ h5 hne hmax _ _ ih₁ ih₂ =>
    rw [List.length_append] at hp hl
    obtain ⟨d₁, hd₁⟩ := ih₁ (s := { s with extLbaBase := p.startLba }) (fun _ => hne) rfl (by simp only; omega)
      (by simp only; omega)
    obtain ⟨d₂, hd₂⟩ := ih₂ (s := s.grow base₁ prims₁ logics₁) (fun hl => absurd rfl (hlba hl)) rfl
      (by simp only [Scan.grow]; omega) (by simp only [Scan.grow]; omega)
    refine ⟨max (d₁ + 1) d₂, fun depth hdep => ?_⟩
    obtain ⟨depth, rfl⟩ := Nat.exists_eq_add_one_of_ne_zero (show depth ≠ 0 by omega)
    have hsub := (partitionScan_succ hmax).trans (hd₁ depth (by omega))
    rw [scanEntries, if_pos h5, if_neg (not_not.mpr hbase), hsub]
    refine (hd₂ (depth + 1) (by omega)).trans ?_
    rw [Scan.grow_grow]
  | @link base lba base' base₁ p ps prims logics prims₁ logics₁ h5 hbne hne hmax hsub _ ih₁ ih₂ =>
    rw [List.length_append] at hp hl
    obtain ⟨rfl, rfl⟩ := hsub.inner hne hbne
    obtain ⟨d₁, hd₁⟩ := ih₁ (fun _ => hbne) hbase (by simp only [List.length_nil]; omega) (by omega)
    obtain ⟨d₂, hd₂⟩ := ih₂ (s := s.grow base₁ [] logics₁) hlba rfl (by simp only [Scan.grow]; omega)
      (by simp only [Scan.grow]; omega)
    refine ⟨max (d₁ + 1) d₂, fun depth hdep => ?_⟩
    obtain ⟨depth, rfl⟩ := Nat.exists_eq_add_one_of_ne_zero (show depth ≠ 0 by omega)
    have hscan := (partitionScan_succ hmax).trans (hd₁ depth (by omega))
    rw [scanEntries, if_pos h5, if_pos (by rw [hbase]; exact hbne), hbase, hscan]
    refine (hd₂ (depth + 1) (by omega)).trans ?_
    rw [Scan.grow_grow]

theorem Meets.returns (primParts logicParts : Nat → Partition)
    (h : Meets disk base 0 (partitionTable (disk 0)) base' prims logics) (hp : prims.length < 4)
    (hl : logics.length ≤ 8) :
    ∃ d, ∀ depth, d ≤ depth → partitionScan disk depth 0 ⟨base, 0, 0, primParts, logicParts⟩ =
      .ok (Scan.grow ⟨base, 0, 0, primParts, logicParts⟩ base' prims logics) := by
  obtain ⟨d, hd⟩ := h.scan (s := ⟨base, 0, 0, primParts, logicParts⟩) (fun h => absurd rfl h) rfl
    (by simpa using hp) (by simpa using hl)
  refine ⟨d + 1, fun depth hdep => ?_⟩
  obtain ⟨depth, rfl⟩ := Nat.exists_eq_add_one_of_ne_zero (show depth ≠ 0 by omega)
  exact (partitionScan_succ (Nat.zero_le _)).trans (hd depth (by omega))

/-- The links end, and there are no more partitions than the scan has room for. -/
def Bounded (disk : Disk) (base : Nat) : Prop :=
  ∃ base' prims logics, Meets disk base 0 (partitionTable (disk 0)) base' prims logics ∧
    prims.length < 4 ∧ logics.length ≤ 8

end Scanning

section Layouts

variable {disk : Disk} {base : Nat} {ps : List Entry} {prims logics : List Partition}

def Entry.Primary (p : Entry) : Prop := p.fsType ≠ 0 ∧ p.fsType ≠ 5

instance : DecidablePred Entry.Primary := fun _ => inferInstanceAs (Decidable (_ ∧ _))

def primaries (ps : List Entry) : List Partition :=
  (ps.filter fun p => p.Primary).map fun p => ⟨p.startLba, p.secCnt⟩

def extendeds (ps : List Entry) : List Entry := ps.filter fun p => p.fsType = 5

/-- A disk with these partitions: an extended partition, if there is one, holds a tree of sectors with
the logical ones. -/
structure Layout (disk : Disk) (prims logics : List Partition) : Prop where
  prims_eq : prims = primaries (partitionTable (disk 0))
  ext : extendeds (partitionTable (disk 0)) = [] ∧ logics = [] ∨
    ∃ e, extendeds (partitionTable (disk 0)) = [e] ∧ e.startLba ≠ 0 ∧ e.startLba ≤ maxLba ∧
      Meets disk e.startLba e.startLba (partitionTable (disk e.startLba)) e.startLba [] logics
  logics_le : logics.length ≤ 8

theorem startLba_lt {bs : Buf} {p : Entry} (h : p ∈ partitionTable bs) : p.startLba < 2 ^ 32 := by
  simp only [partitionTable, List.mem_cons, List.not_mem_nil, or_false] at h
  rcases h with rfl | rfl | rfl | rfl <;> exact Buf.word_lt ..

theorem add32_zero {n : Nat} (h : n < 2 ^ 32) : add32 0 n = n := by
  rw [Fs.add32_of_lt (by omega), Nat.zero_add]

theorem Meets.primary {p : Entry} (hp : p.Primary) (hlt : p.startLba < 2 ^ 32) {base' : Nat}
    (h : Meets disk base 0 ps base' (primaries ps) logics) :
    Meets disk base 0 (p :: ps) base' (primaries (p :: ps)) logics := by
  rw [primaries, List.filter_cons_of_pos (by simpa using hp), List.map_cons]
  have := Meets.prim (p := p) hp.2 hp.1 h
  rwa [add32_zero hlt] at this

theorem primaries_of_not {p : Entry} (h : ¬ p.Primary) (ps : List Entry) :
    primaries (p :: ps) = primaries ps := by
  rw [primaries, List.filter_cons_of_neg (by simpa using h)]
  rfl

theorem meets_of_no_ext (hlt : ∀ p ∈ ps, p.startLba < 2 ^ 32) (h : extendeds ps = []) :
    Meets disk base 0 ps base (primaries ps) [] := by
  induction ps with
  | nil => exact .nil
  | cons p ps ih =>
    have hrest := ih (fun q hq => hlt q (List.mem_cons_of_mem _ hq)) (by
      rw [extendeds, List.filter_eq_nil_iff] at h ⊢
      exact fun q hq => h q (List.mem_cons_of_mem _ hq))
    have h5 : p.fsType ≠ 5 := by
      rw [extendeds, List.filter_eq_nil_iff] at h
      simpa using h p List.mem_cons_self
    by_cases h0 : p.fsType = 0
    · rw [primaries_of_not fun hp => hp.1 h0]
      exact .empty h0 hrest
    · exact hrest.primary ⟨h0, h5⟩ (hlt p List.mem_cons_self)

theorem meets_of_ext {e : Entry} (hlt : ∀ p ∈ ps, p.startLba < 2 ^ 32) (h : extendeds ps = [e])
    (hne : e.startLba ≠ 0) (hmax : e.startLba ≤ maxLba)
    (hsub : Meets disk e.startLba e.startLba (partitionTable (disk e.startLba)) e.startLba [] logics) :
    Meets disk 0 0 ps e.startLba (primaries ps) logics := by
  induction ps with
  | nil => cases h
  | cons p ps ih =>
    have hlt' : ∀ q ∈ ps, q.startLba < 2 ^ 32 := fun q hq => hlt q (List.mem_cons_of_mem _ hq)
    by_cases h5 : p.fsType = 5
    · rw [extendeds, List.filter_cons_of_pos (by simpa using h5)] at h
      obtain ⟨rfl, hnil⟩ := List.cons.inj h
      rw [primaries_of_not fun hp => hp.2 h5]
      have := Meets.first h5 hne hmax hsub (meets_of_no_ext hlt' hnil)
      rwa [List.nil_append, List.append_nil] at this
    · rw [extendeds, List.filter_cons_of_neg (by simpa using h5)] at h
      have hrest := ih hlt' h
      by_cases h0 : p.fsType = 0
      · rw [primaries_of_not fun hp => hp.1 h0]
        exact .empty h0 hrest
      · exact hrest.primary ⟨h0, h5⟩ (hlt p List.mem_cons_self)

def HasExtended (disk : Disk) : Prop := extendeds (partitionTable (disk 0)) ≠ []

instance : DecidablePred HasExtended := fun _ => inferInstanceAs (Decidable (_ ≠ _))

theorem Layout.meets (h : Layout disk prims logics) (hbase : base = 0 ∨ ¬ HasExtended disk) :
    ∃ base', Meets disk base 0 (partitionTable (disk 0)) base' prims logics ∧
      (base' = base ∨ HasExtended disk) := by
  have hlt : ∀ p ∈ partitionTable (disk 0), p.startLba < 2 ^ 32 := fun p hp => startLba_lt hp
  rw [h.prims_eq]
  obtain ⟨hnil, rfl⟩ | ⟨e, he, hne, hmax, hsub⟩ := h.ext
  · exact ⟨base, meets_of_no_ext hlt hnil, .inl rfl⟩
  · have hext : HasExtended disk := by rw [HasExtended, he]; exact List.cons_ne_nil _ _
    obtain rfl := hbase.resolve_right (not_not.mpr hext)
    exact ⟨e.startLba, meets_of_ext hlt he hne hmax hsub, .inr hext⟩

def arrays (spec : List Partition × List Partition) : (Nat → Partition) × (Nat → Partition) :=
  (fun i => spec.1.getD i ⟨0, 0⟩, fun i => spec.2.getD i ⟨0, 0⟩)

theorem place_blank (l : List Partition) : place blank 0 l = fun i => l.getD i ⟨0, 0⟩ := by
  funext i
  have := place_apply blank 0 i l
  rwa [Nat.zero_add] at this

theorem scanDisks_layouts {disks : List Disk} {specs : List (List Partition × List Partition)}
    (h : List.Forall₂ (fun disk spec => Layout disk spec.1 spec.2) disks specs)
    (hthree : ∀ spec ∈ specs, spec.1.length ≤ 3)
    (hext : base = 0 ∧ (disks.filter fun d => HasExtended d).length ≤ 1 ∨
      (disks.filter fun d => HasExtended d).length = 0) :
    ∃ d, ∀ depth, d ≤ depth → scanDisks depth disks base = .ok (specs.map arrays) := by
  induction h generalizing base with
  | nil => exact ⟨0, fun _ _ => rfl⟩
  | @cons disk spec disks specs hd _ ih =>
    have hbase : base = 0 ∨ ¬ HasExtended disk := by
      refine hext.imp And.left fun h0 he => ?_
      rw [List.filter_cons_of_pos (by simpa using he)] at h0
      cases h0
    obtain ⟨base', hm, hb⟩ := hd.meets hbase
    obtain ⟨d₁, hd₁⟩ := hm.returns blank blank
      (Nat.lt_succ_of_le (hthree spec List.mem_cons_self)) hd.logics_le
    have hrest : base' = 0 ∧ (disks.filter fun d => HasExtended d).length ≤ 1 ∨
        (disks.filter fun d => HasExtended d).length = 0 := by
      by_cases he : HasExtended disk
      · rw [List.filter_cons_of_pos (by simpa using he), List.length_cons] at hext
        exact .inr (by omega)
      · rw [List.filter_cons_of_neg (by simpa using he)] at hext
        rwa [hb.resolve_right he]
    obtain ⟨d₂, hd₂⟩ := ih (fun sp hsp => hthree sp (List.mem_cons_of_mem _ hsp)) hrest
    refine ⟨max d₁ d₂, fun depth hdep => ?_⟩
    rw [scanDisks, hd₁ depth (by omega)]
    have := hd₂ depth (by omega)
    rw [List.map_cons, arrays, ← place_blank, ← place_blank]
    exact congrArg (· >>= fun rest => pure (_ :: rest)) this

end Layouts

section Sectors

def sector (entries : List (UInt8 × Nat × Nat)) : Buf := fun i =>
  if i < 446 then 0
  else
    let e := entries.getD ((i - 446) / 16) (0, 0, 0)
    let k := (i - 446) % 16
    if k = 4 then e.1
    else if k < 8 then 0
    else if k < 12 then Buf.wordByte e.2.1 (k - 8)
    else Buf.wordByte e.2.2 (k - 12)

def sample : Disk
  | 0 => sector [(7, 100, 50), (5, 1000, 500)]
  | 1000 => sector [(7, 63, 400)]
  | _ => fun _ => 0

theorem sample_mbr : partitionTable (sample 0) = [⟨7, 100, 50⟩, ⟨5, 1000, 500⟩, ⟨0, 0, 0⟩, ⟨0, 0, 0⟩] := by
  decide

theorem sample_ebr : partitionTable (sample 1000) = [⟨7, 63, 400⟩, ⟨0, 0, 0⟩, ⟨0, 0, 0⟩, ⟨0, 0, 0⟩] := by
  decide

theorem sample_chain : Meets sample 1000 1000 (partitionTable (sample 1000)) 1000 [] [⟨1063, 400⟩] := by
  rw [sample_ebr]
  exact .logic (by decide) (by decide) (by decide) (.empty rfl (.empty rfl (.empty rfl .nil)))

theorem sample_meets : Meets sample 0 0 (partitionTable (sample 0)) 1000 [⟨100, 50⟩] [⟨1063, 400⟩] := by
  rw [sample_mbr]
  have hext : Meets sample 0 0 [⟨5, 1000, 500⟩, ⟨0, 0, 0⟩, ⟨0, 0, 0⟩] 1000 ([] ++ []) ([⟨1063, 400⟩] ++ []) :=
    .first rfl (by decide) (by decide) sample_chain (.empty rfl (.empty rfl .nil))
  exact .prim (by decide) (by decide) hext

theorem sample_layout : Layout sample [⟨100, 50⟩] [⟨1063, 400⟩] where
  prims_eq := by rw [sample_mbr]; decide
  ext := .inr ⟨⟨5, 1000, 500⟩, by rw [sample_mbr]; decide, by decide, by decide, sample_chain⟩
  logics_le := by decide

def four : Disk
  | 0 => sector [(7, 100, 10), (7, 200, 10), (7, 300, 10), (7, 400, 10)]
  | _ => fun _ => 0

def cyclic : Disk
  | 0 => sector [(5, 1, 10)]
  | 1 => sector [(5, 0, 10)]
  | _ => fun _ => 0

theorem cyclic_inner (depth : Nat) (s : Scan) (h : s.extLbaBase = 1) :
    partitionScan cyclic depth 1 s = .error .loop := by
  induction depth with
  | zero => rfl
  | succ depth ih =>
    have htable : partitionTable (cyclic 1) = [⟨5, 0, 10⟩, ⟨0, 0, 0⟩, ⟨0, 0, 0⟩, ⟨0, 0, 0⟩] := by decide
    have hlink : add32 0 s.extLbaBase = 1 := by rw [h]; decide
    rw [partitionScan_succ (by decide), htable, scanEntries, if_pos rfl, if_pos (by rw [h]; decide), hlink, ih]
    rfl

end Sectors

end TrueOs.Ide
