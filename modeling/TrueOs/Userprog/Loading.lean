import TrueOs.Userprog.HeapFork
import TrueOs.Userprog.Scratch

/-! `sys_execv`: what it changes, and what is in memory when it succeeds. -/

namespace TrueOs

open Mm

namespace Lookup

def inRoot : Lookup → Bool
  | .refused => true
  | .walk [] .missing => true
  | .walk [] (.file ..) => true
  | _ => false

def image : Lookup → Option Image
  | .walk _ (.file _ _ _ f) => some f
  | _ => none

end Lookup

namespace Elf32Phdr

/-- `segment_load` takes page `w` for the segment. -/
def Occupies (ph : Elf32Phdr) (w : Nat) : Prop :=
  ph.pVaddr / 4096 ≤ w ∧ w < ph.pVaddr / 4096 + Heap.occupyPages ph.pFilesz ph.pVaddr

def Apart (a b : Elf32Phdr) : Prop := a.pType = 1 → b.pType = 1 → ∀ w, a.Occupies w → ¬b.Occupies w

/-- All bytes of the segment have user addresses that a bit of the bitmap stands for. -/
structure Confined (ph : Elf32Phdr) : Prop where
  lo : userVaddrStart * 4096 ≤ ph.pVaddr
  first : ph.pVaddr < kernelBase * 4096
  last : ph.pVaddr + ph.pFilesz ≤ kernelBase * 4096

/-- The segment lies in the user's memory below the stack, and its bytes are in the file. -/
structure Fits (ph : Elf32Phdr) (f : Image) : Prop where
  lo : userVaddrStart * 4096 ≤ ph.pVaddr
  filesz : ph.pVaddr + ph.pFilesz ≤ userStack3Vaddr * 4096
  memsz : ph.pVaddr + ph.pMemsz ≤ userStack3Vaddr * 4096
  file : ph.pOffset + ph.pFilesz ≤ f.iSize

structure Loaded (ph : Elf32Phdr) (f : Image) (m : Mm) (p : Nat) : Prop where
  bytes : ∀ i < ph.pFilesz, m.byteAt p (ph.pVaddr + i) = some (f.bytes (ph.pOffset + i))
  bss : ∀ i, ph.pFilesz ≤ i → i < ph.pMemsz → m.byteAt p (ph.pVaddr + i) = some 0

variable {ph : Elf32Phdr}

theorem Fits.confined {f : Image} (h : ph.Fits f) : ph.Confined := by
  have := h.filesz
  simp only [userStack3Vaddr, kernelBase] at this
  exact ⟨h.lo, by simp only [kernelBase]; omega, by simp only [kernelBase]; omega⟩

theorem Confined.occupy_le (h : ph.Confined) :
    ph.pVaddr / 4096 + Heap.occupyPages ph.pFilesz ph.pVaddr ≤ kernelBase := by
  obtain ⟨hlo, hfirst, hlast⟩ := h
  simp only [kernelBase] at hfirst hlast ⊢
  rw [Heap.occupyPages]
  split
  · rw [Nat.mod_eq_of_lt (by omega)]
    omega
  · omega

theorem Confined.occupies (h : ph.Confined) {n w : Nat} (hn : n ≤ ph.pFilesz) (hw : Spans ph.pVaddr n w) : ph.Occupies w := by
  obtain ⟨hlo, hfirst, hlast⟩ := h
  obtain ⟨hpos, hge, hlt⟩ := hw
  simp only [kernelBase] at hlast
  refine ⟨hge, ?_⟩
  rw [Heap.occupyPages]
  split
  · rw [Nat.mod_eq_of_lt (by omega)]
    omega
  · omega

end Elf32Phdr

namespace Image

variable {f : Image} {pos count n : Nat}

theorem sysLseek_le (hpos : pos ≤ f.iSize) (offset : Nat) : f.sysLseek offset pos ≤ f.iSize := by
  rw [sysLseek]
  split
  · exact hpos
  · omega

theorem sysLseek_of_lt {offset : Nat} (h : offset < f.iSize) (pos : Nat) : f.sysLseek offset pos = offset := by
  have := f.le
  rw [sysLseek, if_neg (by omega)]

theorem readSize_le (hpos : pos ≤ f.iSize) (hc : pos + count < 2 ^ 32) (h : f.readSize pos count = some n) :
    n ≤ count ∧ pos + n ≤ f.iSize := by
  have := f.le
  rw [readSize, Nat.mod_eq_of_lt hc] at h
  split at h
  · split at h
    · cases h
    · obtain rfl := Option.some.inj h
      omega
  · obtain rfl := Option.some.inj h
    omega

theorem readSize_of_le (h : pos + count ≤ f.iSize) : f.readSize pos count = some count := by
  have := f.le
  rw [readSize, Nat.mod_eq_of_lt (by omega), if_neg (by omega)]

def afterSegment (f : Image) (ph : Elf32Phdr) (pos : Nat) : Nat :=
  (f.sysLseek ph.pOffset pos + (f.readSize (f.sysLseek ph.pOffset pos) ph.pFilesz).getD 0) % 2 ^ 32

/-- The program headers that the loop of `load` reads. -/
def reached (f : Image) : (left progHeaderOffset pos : Nat) → List Elf32Phdr
  | 0, _, _ => []
  | left + 1, progHeaderOffset, pos =>
    let pos := f.sysLseek progHeaderOffset pos
    if f.readSize pos 32 = some 32 then
      let ph := f.progHeader pos
      ph :: f.reached left ((progHeaderOffset + 32) % 2 ^ 32) (if ph.pType = 1 then f.afterSegment ph (pos + 32) else pos + 32)
    else
      []

def checked (f : Image) : Bool := f.readSize 0 52 = some 52 ∧ f.accepted

def headers (f : Image) : List Elf32Phdr :=
  if f.checked then f.reached f.elfHeader.ePhnum f.elfHeader.ePhoff 52 else []

def table (f : Image) : List Elf32Phdr :=
  (List.range f.elfHeader.ePhnum).map (fun k => f.progHeader (f.elfHeader.ePhoff + 32 * k))

theorem reached_eq_map {left off : Nat} (h : off + 32 * left ≤ f.iSize) (pos : Nat) :
    f.reached left off pos = (List.range left).map (fun k => f.progHeader (off + 32 * k)) := by
  have hle := f.le
  induction left generalizing off pos with
  | zero => rfl
  | succ left ih =>
    rw [reached, sysLseek_of_lt (by omega), readSize_of_le (by omega), List.range_succ_eq_map, List.map_cons, List.map_map]
    simp only [if_pos, Nat.mul_zero, Nat.add_zero]
    rw [Nat.mod_eq_of_lt (by omega), ih (by omega)]
    congr 1
    refine List.map_congr_left fun k _ => ?_
    simp only [Function.comp_apply]
    congr 1
    omega

end Image

namespace Heap

open Prog

variable {p : Nat} {h t u v : Heap} {f : Image} {ph : Elf32Phdr} {phs : List Elf32Phdr}

section Segment

structure Paged (p page cnt : Nat) (h t : Heap) : Prop extends Within p h t where
  lists : t.freeList (.user p) = h.freeList (.user p)
  inside : ∀ w, page ≤ w → w < page + cnt → (t.mm.view p w).isSome = true
  other : ∀ w, ¬(page ≤ w ∧ w < page + cnt) → t.mm.view p w = h.mm.view p w

theorem Paged.cons {cnt page : Nat} {t u : Heap} (ht : Paged p page 1 h t) (hu : Paged p (page + 1) cnt t u) :
    Paged p page (cnt + 1) h u where
  toWithin := ht.toWithin.trans hu.toWithin
  lists := hu.lists.trans ht.lists
  inside := by
    intro w hlo hhi
    by_cases hw : w = page
    · rw [hu.other w (by omega)]
      exact ht.inside w hlo (by omega)
    · exact hu.inside w (by omega) (by omega)
  other := by
    intro w hw
    rw [hu.other w (by omega), ht.other w (by omega)]

theorem sat_takeOne {g : Heap} {page : Nat} (hr : Ready p h) (hlo : userVaddrStart ≤ page) (hhi : page < kernelBase)
    (hw : Within p h g) (hlists : g.freeList (.user p) = h.freeList (.user p))
    (hview : ∀ w, w ≠ page → g.mm.view p w = h.mm.view p w) : ((ofMm (getAPage p page)).on g).Sat
      True (fun r t => r.isSome = true ∧ Paged p page 1 h t) := by
  have hrg := hw.ready hr
  refine (sat_ofMm (sat_getAPage_view hrg.inv hrg.live hrg.active hlo hhi)).mono fun r t ht => ?_
  obtain ⟨m, rfl, hsome, hwm, y, hy⟩ := ht
  refine ⟨hsome, hw.trans (.of_mm hwm), hlists, fun w hlo' hhi' => ?_, fun w hw' => ?_⟩
  · obtain rfl : w = page := by omega
    change (m.view p w).isSome = true
    rw [hy, Function.update_self]
    rfl
  · change m.view p w = _
    rw [hy, Function.update_of_ne (by omega)]
    exact hview w (by omega)

theorem sat_takeSegment {cnt page : Nat} (hr : Ready p h) (hlo : userVaddrStart ≤ page) (hhi : page + cnt ≤ kernelBase) :
    ((takeSegment p cnt page).on h).Sat True (fun r t => r = true ∧ Paged p page cnt h t) := by
  induction cnt generalizing h page with
  | zero => exact ⟨rfl, .refl hr.inv, rfl, fun w hw hw' => by omega, fun _ _ => rfl⟩
  | succ cnt ih =>
    have hnext : (page + 1) % 0x100000 = page + 1 :=
      Nat.mod_eq_of_lt (by simp only [kernelBase] at hhi; omega)
    have hrest : ∀ g, Paged p page 1 h g → ((takeSegment p cnt ((page + 1) % 0x100000)).on g).Sat
        True (fun r t => r = true ∧ Paged p page (cnt + 1) h t) := by
      intro g hg
      rw [hnext]
      exact (ih (hg.toWithin.ready hr) (by omega) (by omega)).mono fun r t ht => ⟨ht.1, hg.cons ht.2⟩
    rw [takeSegment, sat_bind]
    refine (sat_ofMm (sat_pagePresent hr.active (by omega))).mono fun r g hg => ?_
    obtain ⟨m, rfl, rfl, rfl⟩ := hg
    split
    · next hpres =>
      rw [sat_bind]
      refine (sat_dropPage hr hlo (by omega) hpres).mono fun _ g hg => ?_
      have hview : ∀ w, w ≠ page → g.mm.view p w = h.mm.view p w := by
        intro w hw
        rw [hg.view, Function.update_of_ne hw]
      rw [sat_bind]
      refine (sat_takeOne hr hlo (by omega) hg.toWithin (congrFun hg.list _) hview).mono fun r t ht => ?_
      obtain ⟨_, rfl⟩ := Option.isSome_iff_exists.mp ht.1
      exact hrest t ht.2
    · rw [sat_bind]
      refine (sat_takeOne hr hlo (by omega) (.refl hr.inv) rfl fun _ _ => rfl).mono fun r t ht => ?_
      obtain ⟨_, rfl⟩ := Option.isSome_iff_exists.mp ht.1
      exact hrest t ht.2

structure Segment (p : Nat) (f : Image) (ph : Elf32Phdr) (h t : Heap) : Prop extends Within p h t where
  lists : t.freeList (.user p) = h.freeList (.user p)
  other : ∀ w, ¬ph.Occupies w → t.mm.view p w = h.mm.view p w
  bytes : ph.pOffset + ph.pFilesz ≤ f.iSize → ∀ i < ph.pFilesz,
    t.mm.byteAt p (ph.pVaddr + i) = some (f.bytes (ph.pOffset + i))

theorem sat_segmentLoad {pos : Nat} (hr : Ready p h) (hE : Bare p h) (hc : ph.Confined)
    (hpos : pos ≤ f.iSize) :
    ((segmentLoad p f pos ph.pOffset ph.pFilesz ph.pVaddr).on h).Sat True (fun r t =>
      r = some (f.afterSegment ph pos) ∧ f.afterSegment ph pos ≤ f.iSize ∧ Segment p f ph h t) := by
  have hle := f.le
  have hlast := hc.last
  have hseek := f.sysLseek_le hpos ph.pOffset
  have hlo : userVaddrStart ≤ ph.pVaddr / 4096 := by
    have := hc.lo
    omega
  rw [segmentLoad, sat_bind]
  refine (sat_takeSegment hr hlo hc.occupy_le).mono fun r g hg => ?_
  obtain ⟨rfl, hg⟩ := hg
  have hrg := hg.ready hr
  have hEg : Bare p g := hE.congr hg.lists
  -- what is read is at most the segment
  have hsize : ∀ n, f.readSize (f.sysLseek ph.pOffset pos) ph.pFilesz = some n →
      n ≤ ph.pFilesz ∧ f.sysLseek ph.pOffset pos + n ≤ f.iSize := fun n hn =>
    Image.readSize_le hseek (by simp only [kernelBase] at hlast; have := hc.lo; simp only [userVaddrStart] at this; omega) hn
  have hin : ∀ n, f.readSize (f.sysLseek ph.pOffset pos) ph.pFilesz = some n → ∀ w, Spans ph.pVaddr n w →
      (g.mm.view p w).isSome = true := fun n hn w hw => by
    obtain ⟨h1, h2⟩ := hc.occupies (hsize n hn).1 hw
    exact hg.inside w h1 h2
  simp only [if_pos, sat_bind]
  refine (sat_sysRead hrg hEg hc.lo (fun n hn => ?_) hin).mono fun r t ht => ?_
  · have := (hsize n hn).1
    omega
  obtain ⟨rfl, ht⟩ := ht
  have hbound : ∀ n, (f.readSize (f.sysLseek ph.pOffset pos) ph.pFilesz).getD 0 = n → n ≤ ph.pFilesz ∧
      f.sysLseek ph.pOffset pos + n ≤ f.iSize := by
    rintro n rfl
    cases hn : f.readSize (f.sysLseek ph.pOffset pos) ph.pFilesz with
    | none => exact ⟨Nat.zero_le _, hseek⟩
    | some n => exact hsize n hn
  refine ⟨rfl, (Nat.mod_le _ _).trans (hbound _ rfl).2, hg.toWithin.trans ht.toWithin, ht.lists.trans hg.lists,
    fun w hw => ?_, fun hfile i hi => ?_⟩
  · rw [ht.written.other w fun hs => hw (hc.occupies (hbound _ rfl).1 hs)]
    exact hg.other w hw
  · -- the whole segment is in the file, so the seek and the read succeed
    have hs : f.sysLseek ph.pOffset pos = ph.pOffset := Image.sysLseek_of_lt (by omega) pos
    rw [ht.written.bytes, hs, Image.readSize_of_le hfile, Option.getD_some, if_pos (by omega), Nat.add_sub_cancel_left]

end Segment

section Load

structure Loads (p : Nat) (f : Image) (phs : List Elf32Phdr) (h t : Heap) : Prop extends Within p h t where
  lists : t.freeList (.user p) = h.freeList (.user p)
  other : ∀ w, (∀ ph ∈ phs, ph.pType = 1 → ¬ph.Occupies w) → t.mm.view p w = h.mm.view p w
  bytes : phs.Pairwise Elf32Phdr.Apart → ∀ ph ∈ phs, ph.pType = 1 → ph.Confined → ph.pOffset + ph.pFilesz ≤ f.iSize →
    ∀ i < ph.pFilesz, t.mm.byteAt p (ph.pVaddr + i) = some (f.bytes (ph.pOffset + i))

theorem Loads.of_calm (hc : Calm p h t) : Loads p f [] h t :=
  ⟨hc.toWithin, hc.lists, fun w _ => congrFun hc.written.view_eq w, fun _ ph hph => by cases hph⟩

theorem Loads.before (hl : Loads p f phs t u) (hc : Calm p h t) : Loads p f phs h u :=
  ⟨hc.toWithin.trans hl.toWithin, hl.lists.trans hc.lists,
    fun w hw => (hl.other w hw).trans (congrFun hc.written.view_eq w), hl.bytes⟩

theorem Loads.skip (hl : Loads p f phs h t) (hne : ph.pType ≠ 1) : Loads p f (ph :: phs) h t where
  toWithin := hl.toWithin
  lists := hl.lists
  other w hw := hl.other w fun q hq => hw q (List.mem_cons_of_mem _ hq)
  bytes hpw q hq hload := by
    rcases List.mem_cons.mp hq with rfl | hq
    · exact absurd hload hne
    · exact hl.bytes hpw.tail q hq hload

theorem Loads.segment (hl : Loads p f phs t u) (hs : Segment p f ph h t) (hload : ph.pType = 1) : Loads p f (ph :: phs) h u where
  toWithin := hs.toWithin.trans hl.toWithin
  lists := hl.lists.trans hs.lists
  other w hw := (hl.other w fun q hq => hw q (List.mem_cons_of_mem _ hq)).trans (hs.other w (hw ph List.mem_cons_self hload))
  bytes hpw q hq hq1 hqc hfile i hi := by
    rcases List.mem_cons.mp hq with rfl | hq
    · -- no later segment takes one of its pages
      have hocc : q.Occupies ((q.pVaddr + i) / 4096) :=
        hqc.occupies le_rfl ⟨by omega, by omega, by omega⟩
      have hkeep := hl.other ((q.pVaddr + i) / 4096) fun r hr hr1 => List.rel_of_pairwise_cons hpw hr hload hr1 _ hocc
      rw [byteAt, hkeep]
      exact hs.bytes hfile i hi
    · exact hl.bytes hpw.tail q hq hq1 hqc hfile i hi

theorem sat_loadSegments {left off pos : Nat} (hr : Ready p h) (hE : Bare p h)
    (hpos : pos ≤ f.iSize) (hc : ∀ ph ∈ f.reached left off pos, ph.pType = 1 → ph.Confined) :
    ((loadSegments p f left off pos).on h).Sat True (fun _ t => Loads p f (f.reached left off pos) h t) := by
  induction left generalizing h off pos with
  | zero => exact Loads.of_calm (.refl hr)
  | succ left ih =>
    have hseek := f.sysLseek_le hpos off
    rw [Image.reached] at hc ⊢
    generalize hpos' : f.sysLseek off pos = pos' at hseek hc ⊢
    rw [loadSegments]
    simp only [hpos', sat_bind]
    refine (sat_sysReadLocal hr hE f pos' 32).mono fun r g hg => ?_
    obtain ⟨rfl, hg⟩ := hg
    have hrg := hg.ready hr
    have hEg : Bare p g := hE.congr hg.lists
    by_cases hread : f.readSize pos' 32 = some 32
    · have hnext := (Image.readSize_le hseek (by have := f.le; omega) hread).2
      simp only [hread, if_pos] at hc ⊢
      by_cases hload : (f.progHeader pos').pType = 1
      · simp only [hload, if_pos, sat_bind] at hc ⊢
        refine (sat_segmentLoad hrg hEg (hc _ List.mem_cons_self hload) hnext).mono fun r t ht => ?_
        obtain ⟨rfl, hafter, ht⟩ := ht
        have hEt : Bare p t := hEg.congr ht.lists
        refine (ih (ht.ready hrg) hEt hafter fun q hq => hc q (List.mem_cons_of_mem _ hq)).mono fun _ u hu => ?_
        exact (hu.segment ht hload).before hg
      · simp only [hload, if_false] at hc ⊢
        refine (ih hrg hEg hnext fun q hq => hc q (List.mem_cons_of_mem _ hq)).mono fun _ u hu => ?_
        exact (hu.skip hload).before hg
    · simp only [hread, if_false]
      exact Loads.of_calm hg

theorem sat_sysOpen {path : Lookup} (hr : Ready p h) (hE : Bare p h)
    (hroot : path.inRoot = true) : ((sysOpen p path).on h).Sat True (fun r t => Calm p h t ∧
      ∀ f ∈ r, path.image = some f) := by
  cases path with
  | refused => exact ⟨.refl hr, fun f hf => by cases hf⟩
  | walk dirs found =>
    cases dirs with
    | cons dir dirs => cases hroot
    | nil =>
      simp only [sysOpen, enterDirs, pure_on, sat_bind, Res.sat_done, if_pos]
      cases found with
      | directory parent => cases hroot
      | missing =>
        simp only [sat_bind]
        exact (sat_searchDirEntry hr hE).mono fun _ t ht => ⟨ht.2, fun f hf => by cases hf⟩
      | file slot inode fd f =>
        simp only [sat_bind]
        refine (sat_searchDirEntry hr hE).mono fun _ t ht => ?_
        obtain ⟨hfound, ht⟩ := ht
        subst hfound
        have hEt : Bare p t := hE.congr ht.lists
        cases slot with
        | false => exact ⟨ht, fun f hf => by cases hf⟩
        | true =>
          simp only [if_pos, sat_bind, sat_pure]
          refine (sat_inodeOpen (ht.ready hr) hEt inode).mono fun _ u hu => ⟨?_, fun g hg => ?_⟩
          · exact Calm.trans ht hu
          · cases fd with
            | false => cases hg
            | true => exact congrArg some (Option.some.inj hg)

theorem sat_load {path : Lookup} (hr : Ready p h) (hE : Bare p h) (hroot : path.inRoot = true)
    (hc : ∀ f ∈ path.image, ∀ ph ∈ f.headers, ph.pType = 1 → ph.Confined) :
    ((load p path).on h).Sat True (fun r t => r = failed ∧ Calm p h t ∨
      ∃ f ∈ path.image, f.checked = true ∧ Loads p f f.headers h t ∧ (r ≠ failed → r = f.elfHeader.eEntry)) := by
  rw [load, sat_bind]
  refine (sat_sysOpen hr hE hroot).mono fun r t ht => ?_
  obtain ⟨ht, himage⟩ := ht
  cases r with
  | none => exact .inl ⟨rfl, ht⟩
  | some f =>
    have himage := himage f rfl
    simp only [sat_bind]
    refine (sat_sysReadLocal (ht.ready hr) (hE.congr ht.lists) f 0 52).mono fun r u hu => ?_
    obtain ⟨rfl, hu⟩ := hu
    have hcalm : Calm p h u := Calm.trans ht hu
    split
    · next hread =>
      split
      · next hacc =>
        have hcheck : f.checked = true := decide_eq_true ⟨hread, hacc⟩
        have hheaders : f.headers = f.reached f.elfHeader.ePhnum f.elfHeader.ePhoff 52 := if_pos hcheck
        have h52 := (Image.readSize_le (Nat.zero_le _) (by decide) hread).2
        have hconf := hc f himage
        rw [hheaders] at hconf
        rw [sat_bind]
        refine (sat_loadSegments (hcalm.ready hr) (hE.congr hcalm.lists) (by omega) hconf).mono fun r v hv => ?_
        rw [← hheaders] at hv
        split
        · exact .inr ⟨f, himage, hcheck, hv.before hcalm, fun _ => rfl⟩
        · exact .inr ⟨f, himage, hcheck, hv.before hcalm, fun hne => absurd rfl hne⟩
      · exact .inl ⟨rfl, hcalm⟩
    · exact .inl ⟨rfl, hcalm⟩

end Load

section Exec

theorem Ready.reset (hr : Ready p h) : Ready p (h.resetLists p) := ⟨hr.inv, hr.live, hr.active⟩

theorem bare_reset (h : Heap) (p : Nat) : Bare p (h.resetLists p) := fun i hi => by
  simp only [resetLists, Function.update_self, if_pos hi]

theorem Within.of_reset (hw : Within p (h.resetLists p) t) : Within p h t :=
  ⟨hw.mm, fun o ho => (hw.freeList o ho).trans (Function.update_of_ne ho _ _), hw.arena⟩

theorem sat_sysExecv {path : Lookup} (hr : Ready p h) (hroot : path.inRoot = true)
    (hc : ∀ f ∈ path.image, ∀ ph ∈ f.headers, ph.pType = 1 → ph.Confined) :
    ((sysExecv p path).on h).Sat True (fun r t => r = none ∧ Calm p (h.resetLists p) t ∨
      ∃ f ∈ path.image, f.checked = true ∧ Loads p f f.headers (h.resetLists p) t ∧ ∀ e ∈ r, e = f.elfHeader.eEntry) := by
  rw [sysExecv, sat_bind, sat_modify, sat_bind]
  refine (sat_load hr.reset (bare_reset h p) hroot hc).mono fun r t ht => ?_
  rw [sat_pure]
  rcases ht with ⟨rfl, ht⟩ | ⟨f, hf, hcheck, ht, hentry⟩
  · exact .inl ⟨if_pos rfl, ht⟩
  · refine .inr ⟨f, hf, hcheck, ht, fun e he => ?_⟩
    split at he
    · cases he
    · next hne => exact (Option.some.inj he).symm.trans (hentry hne)

structure Intact (p : Nat) (h t : Heap) : Prop where
  lists : ∀ i < 7, t.freeList (.user p) i = h.freeList (.user p) i
  bitmap : ∀ x y, h.mm.tasks p = some x → t.mm.tasks p = some y → ∀ k < 8 * userBitmapLen,
    y.vaddrBitmap.bits.bit k = x.vaddrBitmap.bits.bit k
  pages : ∀ v, t.mm.mapped p v = h.mm.mapped p v
  bytes : ∀ v, t.mm.content p v = h.mm.content p v

theorem mapped_of_view {s t : Mm} (hv : t.view p = s.view p) (v : Nat) :
    t.mapped p v = s.mapped p v ∧ t.content p v = s.content p v := by
  have hfst : ∀ m : Mm, (m.view p v).map Prod.fst = m.mapped p v := fun m => by
    rw [view, Option.map_map]
    exact Option.map_id'
  have hsnd : ∀ m : Mm, (m.view p v).map Prod.snd = m.content p v := fun m => by
    rw [view, Option.map_map]
    rfl
  exact ⟨by rw [← hfst t, ← hfst s, hv], by rw [← hsnd t, ← hsnd s, hv]⟩

theorem Within.bitmap_eq (hw : Within p h t) (hr : Ready p h) (hv : t.mm.view p = h.mm.view p) {x y : Task}
    (hx : h.mm.tasks p = some x) (hy : t.mm.tasks p = some y) {k : Nat} (hk : k < 8 * userBitmapLen) :
    y.vaddrBitmap.bits.bit k = x.vaddrBitmap.bits.bit k := by
  rw [hw.mm.inv.agree p (hw.ready hr).live y hy k hk, hr.inv.agree p hr.live x hx k hk, (mapped_of_view hv _).1]

end Exec

section Example

def elfWords (offset vaddr filesz memsz : Nat) : List Nat :=
  [0x464C457F, 0x00010101, 0, 0, 0x00030002, 1, 0x8048000, 52, 0, 0, 0x00200034, 1, 0,
    1, offset, vaddr, vaddr, filesz, memsz, 7, 4096]

def elfFile (offset vaddr filesz memsz : Nat) : Image where
  iSize := 84
  bytes := Buf.ofWords ((elfWords offset vaddr filesz memsz).getD · 0)
  le := by decide

def inRootDir (f : Image) : Lookup := .walk [] (.file true .oneSector true f)

theorem ready_initHeap : Ready kHeapStart initHeap :=
  ⟨reach_withInit.inv, Option.map_eq_some_iff.mp withInit_alive, by decide⟩

def textOnly : Image := elfFile 0 0x8048000 84 84

theorem text_run : ((sysExecv kHeapStart (inRootDir textOnly)).on initHeap).run =
    .ok (some 0x8048000, (sysExecv kHeapStart (inRootDir textOnly)).after initHeap) :=
  run_of_gives (by decide +kernel)

theorem text_table : textOnly.table = [⟨1, 0, 0x8048000, 84, 84⟩] := by rfl

theorem text_headers : textOnly.headers = [⟨1, 0, 0x8048000, 84, 84⟩] := by rfl

theorem text_fits : (⟨1, 0, 0x8048000, 84, 84⟩ : Elf32Phdr).Fits textOnly := ⟨by decide, by decide, by decide, by decide⟩

def oneBlock : Heap := (sysMalloc kHeapStart 1024).after initHeap

theorem oneBlock_run : ∃ b, ((sysMalloc kHeapStart 1024).on initHeap).run = .ok (b, oneBlock) :=
  exists_run_after (by decide)

theorem ready_oneBlock : Ready kHeapStart oneBlock := by
  obtain ⟨b, hb⟩ := oneBlock_run
  have hdesc : findDesc 1024 7 0 = 6 := by decide
  obtain ⟨a, -, ht⟩ := (sat_sysMalloc_empty ready_initHeap (by decide) (by decide) hdesc (by decide) rfl).of_run hb
  exact ht.ready ready_initHeap

def withBss : Image := elfFile 0 0x8048000 84 0x2000

def lowMapped : Mm :=
  { booted with kpte := fun v => if kernelBase ≤ v ∧ v < kernelBase + 0x100 then ⟨v - kernelBase, true⟩ else ⟨0, false⟩ }

def lowInit : Heap :=
  { initHeap with mm := (do let p ← processExecute [0x69, 0x6E, 0x69, 0x74]; startProcess p : Prog Mm Buf Unit).after lowMapped }

def acrossTop : Image := elfFile 0 0xBFFFFFFF 0xFFFFFFFF 0xFFFFFFFF

theorem ready_lowInit : Ready kHeapStart lowInit := by
  have hframe : ∀ v, lowMapped.heapFrame v = none := fun v => by
    rw [heapFrame]
    split
    · next hv =>
      have hne : ¬(kernelBase ≤ v ∧ v < kernelBase + 0x100) := by
        simp only [kHeapStart, kernelBase] at hv ⊢
        omega
      simp only [lowMapped, if_neg hne]
      rfl
    · rfl
  have hrun := run_after (c := (do let p ← processExecute [0x69, 0x6E, 0x69, 0x74]; startProcess p : Prog Mm Buf Unit))
    (s := lowMapped) (by decide)
  have hreach : Mm.Reach lowInit.mm := .step (.start (ok_empty rfl rfl rfl hframe) fun _ => rfl) (.execute hrun)
  have halive : (lowInit.mm.tasks kHeapStart).map Task.alive = some true := by decide
  exact ⟨hreach.inv, Option.map_eq_some_iff.mp halive, by decide⟩

end Example

end Heap

end TrueOs
