import TrueOs.Fs.Format
import TrueOs.Shell.Wash

/-! The buffers that `path_parse` stores names in.  Its three callers are repeated with the store
left open: when it may do anything for a name that does not fit, and what the caller does does
not depend on it, then the caller never stores such a name. -/

namespace TrueOs.Fs.Stored

open Prog

def depthLoop (store : List UInt8 → Prog Fs Buf Unit) : (turns : Nat) → (name0 : UInt8) →
    (p : Option (List UInt8)) → (depth : Nat) → Prog Fs Buf Nat
  | 0, _, _, _ => halt .loop
  | turns + 1, name0, p, depth => do
    if name0 = 0 then
      return depth
    else
      match p with
      | none => depthLoop store turns 0 none (depth + 1)
      | some p =>
        store (pathParse p).1
        depthLoop store turns ((pathParse p).1.headD 0) (pathParse p).2 (depth + 1)

def pathDepthCnt (store : List UInt8 → Prog Fs Buf Unit) (name : Buf) (pathname : List UInt8) :
    Prog Fs Buf Nat := do
  store (pathParse pathname).1
  depthLoop store (pathname.length + 2) ((pathParse pathname).1.headD (name 0)) (pathParse pathname).2 0

def nextName (store : List UInt8 → Prog Fs Buf Unit) :
    Option (List UInt8) → Prog Fs Buf (List UInt8 × Option (List UInt8))
  | none => return ([], none)
  | some subPath => do
    store (pathParse subPath).1
    return pathParse subPath

/-- Here the name is taken to be terminated. -/
def searchLoop (store : List UInt8 → Prog Fs Buf Unit) : (turns : Nat) → (r : PathSearchRecord) →
    (name : List UInt8) → (subPath : Option (List UInt8)) → (parentInodeNo : Nat) → (dirE : DirEntry) →
    Prog Fs Buf (Int × PathSearchRecord)
  | 0, _, _, _, _, _ => halt .loop
  | turns + 1, r, name, subPath, parentInodeNo, dirE => do
    if name = [] then
      dirClose r.parentDir
      let parentDir ← dirOpen parentInodeNo
      return (int32 dirE.iNo, ⟨r.searchedPath, parentDir, ftDirectory⟩)
    else
      assert (r.searchedPath.length < maxPathLen)
      let r : PathSearchRecord := { r with searchedPath := r.searchedPath ++ slash :: name }
      match ← searchDirEntry r.parentDir name with
      | none => return (-1, r)
      | some dirE =>
        let next ← nextName store subPath
        if dirE.fType = ftDirectory then
          let parentInodeNo := (← getInode (← r.parentDir.inode)).iNo
          dirClose r.parentDir
          let parentDir ← dirOpen dirE.iNo
          searchLoop store turns { r with parentDir := parentDir } next.1 next.2 parentInodeNo dirE
        else if dirE.fType = ftRegular then
          return (int32 dirE.iNo, { r with fileType := ftRegular })
        else
          searchLoop store turns r next.1 next.2 parentInodeNo dirE

def searchFile (store : List UInt8 → Prog Fs Buf Unit) (dirE : DirEntry) (pathname : List UInt8) :
    Prog Fs Buf (Int × PathSearchRecord) := do
  if isRootPath pathname then
    return (0, ⟨[], .root, ftDirectory⟩)
  else
    assert (pathname.head? = some slash ∧ 1 < pathname.length ∧ pathname.length < maxPathLen)
    let next ← nextName store (some pathname)
    searchLoop store (pathname.length + 1) ⟨[], .root, ftUnknown⟩ next.1 next.2 0 dirE

def Good {m : Type → Type} [Monad m] (store : List UInt8 → m Unit) : Prop :=
  ∀ name, name.length < maxFileNameLen → store name = pure ()

section Short

variable {store : List UInt8 → Prog Fs Buf Unit} {path name : List UInt8} {sub : Option (List UInt8)}
  {turns depth parentInodeNo : Nat} {name0 : UInt8} {r : PathSearchRecord} {dirE : DirEntry}

theorem good_pure {m : Type → Type} [Monad m] : Good (fun _ => pure () : List UInt8 → m Unit) :=
  fun _ _ => rfl

theorem short_parse (h : Short (components path)) :
    (pathParse path).1.length < maxFileNameLen ∧ Short (compsLeft (pathParse path).2) := by
  rw [components_parse] at h
  by_cases hn : (pathParse path).1 = []
  · rw [hn, pathParse_nil hn]
    exact ⟨by decide, fun c hc => absurd hc List.not_mem_nil⟩
  · rw [if_neg hn] at h
    exact ⟨Nat.lt_succ_of_le h.head, h.tail⟩

theorem storeName_eq (h : name.length < maxFileNameLen) : storeName name = pure () :=
  if_pos (Nat.le_of_lt h)

theorem depthLoop_eq (hs : Good store) (h : Short (compsLeft sub)) :
    depthLoop store turns name0 sub depth = Fs.depthLoop turns name0 sub depth := by
  induction turns generalizing name0 sub depth with
  | zero => rfl
  | succ turns ih =>
    cases sub with
    | none => rw [depthLoop, Fs.depthLoop, ih h]
    | some q =>
      obtain ⟨hlen, hrest⟩ := short_parse h
      rw [depthLoop, Fs.depthLoop, hs _ hlen, storeName_eq hlen, ih hrest]

theorem pathDepthCnt_eq (hs : Good store) (h : Short (components path)) (name : Buf) :
    pathDepthCnt store name path = Fs.pathDepthCnt name path := by
  obtain ⟨hlen, hrest⟩ := short_parse h
  rw [pathDepthCnt, Fs.pathDepthCnt, hs _ hlen, storeName_eq hlen, depthLoop_eq hs hrest]

theorem nextName_eq (hs : Good store) (h : Short (compsLeft sub)) :
    nextName store sub = Fs.nextName sub := by
  cases sub with
  | none => rfl
  | some q =>
    obtain ⟨hlen, -⟩ := short_parse h
    rw [nextName, Fs.nextName, hs _ hlen, storeName_eq hlen]

theorem nextName_of_short (h : Short (compsLeft sub)) : ∃ next : List UInt8 × Option (List UInt8),
    Fs.nextName sub = pure next ∧ next.1.length < maxFileNameLen ∧ Short (compsLeft next.2) := by
  cases sub with
  | none => exact ⟨([], none), rfl, by decide, h⟩
  | some q =>
    obtain ⟨hlen, hrest⟩ := short_parse h
    refine ⟨pathParse q, ?_, hlen, hrest⟩
    rw [Fs.nextName, storeName_eq hlen, pure_bind]

theorem searchLoop_eq (hs : Good store) (hn : name.length < maxFileNameLen) (h : Short (compsLeft sub)) :
    searchLoop store turns r name sub parentInodeNo dirE =
      Fs.searchLoop turns r name sub parentInodeNo dirE := by
  induction turns generalizing r name sub parentInodeNo dirE with
  | zero => rfl
  | succ turns ih =>
    have hterm : terminated name = pure () := if_pos hn
    obtain ⟨next, hnext, hlen, hrest⟩ := nextName_of_short h
    rw [searchLoop, Fs.searchLoop]
    simp only [hterm, nextName_eq hs h, hnext, pure_bind, ih hlen hrest]
    -- each of the two loops has a match of its own
    all_goals rfl

theorem searchFile_eq (hs : Good store) (h : Short (components path)) (dirE : DirEntry) :
    searchFile store dirE path = Fs.searchFile dirE path := by
  have h' : Short (compsLeft (some path)) := h
  obtain ⟨next, hnext, hlen, hrest⟩ := nextName_of_short h'
  rw [searchFile, Fs.searchFile]
  simp only [nextName_eq hs h', hnext, pure_bind, searchLoop_eq hs hlen hrest]

theorem washLoop_eq {store : List UInt8 → Except Stop Unit} (hs : Good store) {strTurns : Nat} {new : Buf}
    (h : Short (compsLeft sub)) :
    Shell.washLoop store strTurns turns new name sub =
      Shell.washLoop Shell.storeShort strTurns turns new name sub := by
  induction turns generalizing new name sub with
  | zero => rfl
  | succ turns ih =>
    cases sub with
    | none => simp only [Shell.washLoop, ih h]
    | some q =>
      obtain ⟨hlen, hrest⟩ := short_parse h
      have hshort : Shell.storeShort (pathParse q).1 = pure () := if_pos hlen
      simp only [Shell.washLoop, Shell.parseName, hs _ hlen, hshort, pure_bind, ih hrest]

theorem washPathWith_eq {store : List UInt8 → Except Stop Unit} (hs : Good store)
    (h : Short (components path)) (new : Buf) : Shell.washPathWith store path new = Shell.washPath path new := by
  obtain ⟨hlen, hrest⟩ := short_parse h
  have hshort : Shell.storeShort (pathParse path).1 = pure () := if_pos hlen
  simp only [Shell.washPath, Shell.washPathWith, Shell.parseName, hs _ hlen, hshort, pure_bind,
    washLoop_eq hs hrest]

end Short

section Long

variable {path : List UInt8} {sub : Option (List UInt8)} {turns depth : Nat} {name0 : UInt8} {s : Fs}

def strict (name : List UInt8) : Prog Fs Buf Unit :=
  if name.length < maxFileNameLen then return () else halt .fault

theorem good_strict : Good strict := fun _ h => if_pos h

theorem depthLoop_zero (store : List UInt8 → Prog Fs Buf Unit) :
    depthLoop store (turns + 1) 0 sub depth = pure depth := by
  cases sub <;> rw [depthLoop, if_pos rfl]

theorem depthLoop_done (ht : (compsLeft sub).length + 2 ≤ turns) :
    ∃ d, (depthLoop (fun _ => pure ()) turns name0 sub depth).on s = .done d s := by
  induction turns generalizing name0 sub depth with
  | zero => omega
  | succ turns ih =>
    by_cases h0 : name0 = 0
    · rw [h0, depthLoop_zero]
      exact ⟨depth, rfl⟩
    · cases sub with
      | none =>
        obtain ⟨t, rfl⟩ := Nat.exists_eq_add_one_of_ne_zero (show turns ≠ 0 by omega)
        rw [depthLoop, if_neg h0, depthLoop_zero]
        exact ⟨depth + 1, rfl⟩
      | some q =>
        rw [depthLoop, if_neg h0, pure_bind]
        rw [compsLeft, Option.elim_some, components_parse] at ht
        by_cases hn : (pathParse q).1 = []
        · obtain ⟨t, rfl⟩ := Nat.exists_eq_add_one_of_ne_zero (show turns ≠ 0 by omega)
          rw [hn, List.headD_nil, depthLoop_zero]
          exact ⟨depth + 1, rfl⟩
        · rw [if_neg hn, List.length_cons] at ht
          exact ih (by omega)

theorem fits_of_strict {name : List UInt8} {a b : Prog Fs Buf Nat} {d : Nat} (hb : b.on s = .done d s)
    (h : (strict name >>= fun _ => a).on s = b.on s) :
    name.length < maxFileNameLen ∧ a.on s = b.on s := by
  by_cases hlen : name.length < maxFileNameLen
  · rw [good_strict _ hlen, pure_bind] at h
    exact ⟨hlen, h⟩
  · rw [hb, strict, if_neg hlen] at h
    cases h

theorem nul_not_mem_rest (hnul : 0 ∉ path) : ∀ rest, (pathParse path).2 = some rest → 0 ∉ rest := by
  intro rest hr h
  obtain ⟨skip, hp, -⟩ := pathParse_spec hr
  exact hnul (hp ▸ List.mem_append_right _ h)

theorem short_of_depthLoop (h0 : name0 ≠ 0) (hnul : ∀ q, sub = some q → 0 ∉ q)
    (ht : (compsLeft sub).length + 2 ≤ turns)
    (h : (depthLoop strict turns name0 sub depth).on s =
      (depthLoop (fun _ => pure ()) turns name0 sub depth).on s) : Short (compsLeft sub) := by
  induction turns generalizing name0 sub depth with
  | zero => omega
  | succ turns ih =>
    cases sub with
    | none => exact fun c hc => absurd hc List.not_mem_nil
    | some q =>
      rw [depthLoop, depthLoop, if_neg h0, if_neg h0, pure_bind] at h
      rw [compsLeft, Option.elim_some, components_parse] at ht ⊢
      by_cases hn : (pathParse q).1 = []
      · rw [if_pos hn]
        exact fun c hc => absurd hc List.not_mem_nil
      · rw [if_neg hn, List.length_cons] at ht
        rw [if_neg hn]
        have hrest : (compsLeft (pathParse q).2).length + 2 ≤ turns := by omega
        obtain ⟨d, hd⟩ := depthLoop_done hrest
        obtain ⟨hlen, h'⟩ := fits_of_strict hd h
        have hhead := headD_ne_zero hn (fun h => hnul q rfl (pathParse_subset q h)) 0
        have hshort := ih hhead (nul_not_mem_rest (hnul q rfl)) hrest h'
        exact List.forall_mem_cons.mpr ⟨Nat.le_of_lt_succ hlen, hshort⟩

theorem short_of_pathDepthCnt (hnul : 0 ∉ path) (name : Buf)
    (h : (pathDepthCnt strict name path).on s = (pathDepthCnt (fun _ => pure ()) name path).on s) :
    Short (components path) := by
  have hcnt := length_components_le path
  rw [components_parse] at hcnt ⊢
  rw [pathDepthCnt, pathDepthCnt, pure_bind] at h
  by_cases hn : (pathParse path).1 = []
  · rw [if_pos hn]
    exact fun c hc => absurd hc List.not_mem_nil
  · rw [if_neg hn, List.length_cons] at hcnt
    rw [if_neg hn]
    have hrest : (compsLeft (pathParse path).2).length + 2 ≤ path.length + 2 := by omega
    obtain ⟨d, hd⟩ := depthLoop_done hrest
    obtain ⟨hlen, h'⟩ := fits_of_strict hd h
    have hhead := headD_ne_zero hn (fun h => hnul (pathParse_subset path h)) (name 0)
    have hshort := short_of_depthLoop hhead (nul_not_mem_rest hnul) hrest h'
    exact List.forall_mem_cons.mpr ⟨Nat.le_of_lt_succ hlen, hshort⟩

def Fits {m : Type → Type} [Monad m] {α : Type} (caller : (List UInt8 → m Unit) → α) : Prop :=
  ∀ store, Good store → caller store = caller fun _ => pure ()

theorem names_fit_iff (path : List UInt8) (hnul : 0 ∉ path) :
    ((∀ name, Fits fun store => pathDepthCnt store name path) ∧
      (∀ dirE, Fits fun store => searchFile store dirE path) ∧
      ∀ new, Fits fun store => Shell.washPathWith store path new) ↔ Short (components path) := by
  constructor
  · rintro ⟨hdepth, -, -⟩
    have hstrict := hdepth (fun _ => 0) strict good_strict
    exact short_of_pathDepthCnt hnul (fun _ => 0)
      (congrArg (fun c => c.on (bootState 0 0 fun _ => 0)) hstrict)
  · intro h
    refine ⟨fun name store hs => ?_, fun dirE store hs => ?_, fun new store hs => ?_⟩
    · exact (pathDepthCnt_eq hs h name).trans (pathDepthCnt_eq good_pure h name).symm
    · exact (searchFile_eq hs h dirE).trans (searchFile_eq good_pure h dirE).symm
    · exact (washPathWith_eq hs h new).trans (washPathWith_eq good_pure h new).symm

/-- `/a/bc`. -/
theorem names_fit_a_bc :
    (∀ name, Fits fun store => pathDepthCnt store name [47, 97, 47, 98, 99]) ∧
      (∀ dirE, Fits fun store => searchFile store dirE [47, 97, 47, 98, 99]) ∧
      ∀ new, Fits fun store => Shell.washPathWith store [47, 97, 47, 98, 99] new :=
  (names_fit_iff [47, 97, 47, 98, 99] (by decide)).mpr
    (show ∀ c ∈ components [47, 97, 47, 98, 99], c.length ≤ 15 by decide)

def sixteen : List UInt8 := 47 :: List.replicate 16 97

/-- `path_depth_cnt` stores all sixteen. -/
theorem sixteen_not_terminated : ¬ Fits fun store => pathDepthCnt store (fun _ => 0) sixteen := by
  intro h
  have hshort := short_of_pathDepthCnt (by decide) (fun _ => 0)
    (congrArg (fun c => c.on (bootState 0 0 fun _ => 0)) (h strict good_strict))
  exact absurd (hshort (List.replicate 16 97) (by decide)) (by decide)

end Long

end TrueOs.Fs.Stored
