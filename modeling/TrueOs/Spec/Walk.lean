import TrueOs.Spec.Path

/-! Walking a path through the directories, and `search_file`. -/

namespace TrueOs.Fs

open Prog

/-- How a walk ends.  A place `at` is the static `root_dir`, or a directory that the
walk has opened; `left` are the components it did not come to. -/
inductive Hit
  | dir (par no : Nat)
  | file (cur : Option Nat) (no : Nat) (left : List (List UInt8))
  | miss (cur : Option Nat) (left : List (List UInt8))
  deriving DecidableEq

def Hit.left : Hit → List (List UInt8)
  | .dir _ _ => []
  | .file _ _ left => left
  | .miss _ left => left

namespace View

/-- The walk of `search_file`: it stops at a regular file, whatever follows. -/
def walk (w : View) : (par : Nat) → (cur : Option Nat) → List (List UInt8) → Hit
  | par, cur, [] => .dir par (cur.getD 0)
  | _, cur, c :: cs =>
    match w.lookup (w.sec (cur.getD 0)) c with
    | none => .miss cur cs
    | some e =>
      if e.ty = ftDirectory then w.walk (cur.getD 0) (some e.ino) cs else .file cur e.ino cs

end View

def Mem.at (m : Mem) (w : View) : Option Nat → Mem
  | none => m
  | some d => m.opened w d

def Mem.ref (m : Mem) : Option Nat → DirRef
  | none => .root
  | some d => .heap (m.ptr d)

def joinPath (comps : List (List UInt8)) : List UInt8 := comps.flatMap (slash :: ·)

/-- What `search_file` returns, and the tables it leaves.  `junk` is what its local
`dir_e.i_no` holds to begin with. -/
inductive Found (w : View) (m : Mem) (path : List UInt8) (junk : Nat) :
    Int × PathSearchRecord → Mem → Prop
  | root (h : isRootPath path = true) : Found w m path junk (0, ⟨[], .root, ftDirectory⟩) m
  | slashes (h : isRootPath path = false) (hc : components path = []) :
      Found w m path junk (int32 junk, ⟨[], .heap (m.ptr 0), ftDirectory⟩) (m.opened w 0)
  | dir (par no : Nat) (h : isRootPath path = false) (hc : components path ≠ [])
      (hs : Short (components path)) (hw : w.walk 0 none (components path) = .dir par no) :
      Found w m path junk (no, ⟨joinPath (components path), .heap (m.ptr par), ftDirectory⟩)
        (m.opened w par)
  | file (cur : Option Nat) (no : Nat) (tried left : List (List UInt8)) (h : isRootPath path = false)
      (hc : components path = tried ++ left) (ht : tried ≠ []) (hs : Short tried)
      (hw : w.walk 0 none (components path) = .file cur no left) :
      Found w m path junk (no, ⟨joinPath tried, m.ref cur, ftRegular⟩) (m.at w cur)
  | miss (cur : Option Nat) (tried left : List (List UInt8)) (h : isRootPath path = false)
      (hc : components path = tried ++ left) (ht : tried ≠ []) (hs : Short tried)
      (hw : w.walk 0 none (components path) = .miss cur left) :
      Found w m path junk (-1, ⟨joinPath tried, m.ref cur, ftUnknown⟩) (m.at w cur)

section Walk

variable {g : Geom} {w : View} {γ : Ghost} {par no : Nat} {cur : Option Nat}
  {cs : List (List UInt8)}

def IsDir (w : View) (γ : Ghost) (d : Nat) : Prop := w.ibit d = true ∧ γ.isDir d = true

theorem Tree.rep (h : Tree g w γ) {d : Nat} (hd : IsDir w γ d) : DirRep g w (w.sec d) d (γ.par d) :=
  h.dir d hd.1 hd.2

structure DirList (g : Geom) (w : View) (sec : Nat → Nat) (d p : Nat) : Prop where
  ok : DirOk g w sec
  dot : w.ent sec 0 0 = some ⟨dot, d, ftDirectory⟩
  dotdot : w.ent sec 0 1 = some ⟨dotdot, p, ftDirectory⟩
  normal : ∀ k j e, w.ent sec k j = some e → e.normal = false → k = 0 ∧ j ≤ 1
  names : ∀ k j e k' j' e', w.ent sec k j = some e → w.ent sec k' j' = some e' →
    e.name = e'.name → k = k' ∧ j = j'

/-- The directories are a tree, and `open_inodes` has them as they are on disk.  Nothing is
said about the blocks of files, or about how far a directory fills its own. -/
structure Dirs (g : Geom) (w : View) (m : Mem) (γ : Ghost) : Prop where
  root : IsDir w γ 0 ∧ γ.par 0 = 0
  no : ∀ d, IsDir w γ d → d < 4096 ∧ (w.ino d).iNo = d
  list : ∀ d, IsDir w γ d → DirList g w (w.sec d) d (γ.par d)
  ent : ∀ d k j e, IsDir w γ d → w.ent (w.sec d) k j = some e → e.normal = true →
    w.ibit e.ino = true ∧ e.ino ≠ 0 ∧ γ.par e.ino = d ∧ γ.isDir e.ino = decide (e.ty = ftDirectory)
  once : ∀ d k j e k' j' e', IsDir w γ d → w.ent (w.sec d) k j = some e →
    w.ent (w.sec d) k' j' = some e' → e.normal = true → e'.normal = true → e.ino = e'.ino →
    k = k' ∧ j = j'
  par : ∀ d, IsDir w γ d → IsDir w γ (γ.par d)
  cached : Cached w m
  counted : Counted m

theorem DirRep.list {sec : Nat → Nat} {d p : Nat} (h : DirRep g w sec d p) : DirList g w sec d p :=
  ⟨h.ok, h.dot, h.dotdot, h.normal, h.names⟩

theorem DirList.lookup {sec : Nat → Nat} {d p k j : Nat} {e : Ent} (h : DirList g w sec d p)
    (he : w.ent sec k j = some e) : w.lookup sec e.name = some e := by
  apply lookup_eq_some _ he
  intro k₁ j₁ k₂ j₂ e₁ e₂ h₁ h₂ hname
  obtain ⟨rfl, rfl⟩ := h.names _ _ _ _ _ _ h₁ h₂ hname
  exact Option.some.inj (h₁.symm.trans h₂)

theorem Tree.dirs {m : Mem} (h : Tree g w γ) (hm : Cached w m) (hc : Counted m) : Dirs g w m γ where
  root := ⟨⟨h.root.1, h.root.2.1⟩, h.root.2.2⟩
  no d hd := h.no d hd.1
  list _ hd := (h.rep hd).list
  ent d k j e hd := h.ent d k j e hd.1 hd.2
  once d k j e k' j' e' hd := h.once d k j e k' j' e' hd.1 hd.2
  par d hd := h.par d hd.1
  cached := hm
  counted := hc

namespace Dirs

variable {m : Mem} {d k j : Nat} {e : Ent} {c : List UInt8}

theorem entOk (h : Dirs g w m γ) (hd : IsDir w γ d) (he : w.ent (w.sec d) k j = some e) : e.Ok := by
  obtain ⟨hk, hj, ha, hs⟩ := ent_eq_some he
  exact ((h.list d hd).ok.good k hk ha).ok j hj e hs

theorem target (h : Dirs g w m γ) (hd : IsDir w γ d) (he : w.ent (w.sec d) k j = some e) :
    w.ibit e.ino = true ∧ γ.isDir e.ino = decide (e.ty = ftDirectory) := by
  cases hn : e.normal with
  | true =>
    obtain ⟨h₁, -, -, h₂⟩ := h.ent d k j e hd he hn
    exact ⟨h₁, h₂⟩
  | false =>
    have hr := h.list d hd
    obtain ⟨rfl, hj⟩ := hr.normal k j e he hn
    obtain rfl | rfl : j = 0 ∨ j = 1 := by omega
    · rw [hr.dot, Option.some.injEq] at he
      subst he
      exact ⟨hd.1, by simpa using hd.2⟩
    · rw [hr.dotdot, Option.some.injEq] at he
      subst he
      obtain ⟨h₁, h₂⟩ := h.par d hd
      exact ⟨h₁, by simpa using h₂⟩

theorem lookup_dir (h : Dirs g w m γ) (hd : IsDir w γ d) (hl : w.lookup (w.sec d) c = some e)
    (ht : e.ty = ftDirectory) : IsDir w γ e.ino := by
  obtain ⟨k, j, he, -⟩ := lookup_some hl
  obtain ⟨h₁, h₂⟩ := h.target hd he
  exact ⟨h₁, by simpa [ht] using h₂⟩

theorem lookup_file (h : Dirs g w m γ) (hd : IsDir w γ d) (hl : w.lookup (w.sec d) c = some e)
    (ht : e.ty ≠ ftDirectory) : e.ino < 4096 ∧ e.ty = ftRegular := by
  obtain ⟨k, j, he, -⟩ := lookup_some hl
  have hok := h.entOk hd he
  exact ⟨hok.ino, hok.ty.resolve_right ht⟩

end Dirs

theorem walk_cons (w : View) (par : Nat) (cur : Option Nat) (c : List UInt8) (cs : List (List UInt8)) :
    (w.lookup (w.sec (cur.getD 0)) c = none ∧ w.walk par cur (c :: cs) = .miss cur cs) ∨
    ∃ e, w.lookup (w.sec (cur.getD 0)) c = some e ∧
      (e.ty = ftDirectory ∧ w.walk par cur (c :: cs) = w.walk (cur.getD 0) (some e.ino) cs ∨
        e.ty ≠ ftDirectory ∧ w.walk par cur (c :: cs) = .file cur e.ino cs) := by
  rw [View.walk]
  cases w.lookup (w.sec (cur.getD 0)) c with
  | none => exact Or.inl ⟨rfl, rfl⟩
  | some e =>
    refine Or.inr ⟨e, rfl, ?_⟩
    by_cases ht : e.ty = ftDirectory
    · exact Or.inl ⟨ht, if_pos ht⟩
    · exact Or.inr ⟨ht, if_neg ht⟩

theorem walk_left {hit : Hit} (hw : w.walk par cur cs = hit) (hd : ∀ p n, hit ≠ .dir p n) :
    ∃ tried, cs = tried ++ hit.left ∧ tried ≠ [] := by
  induction cs generalizing par cur with
  | nil => exact absurd hw.symm (hd _ _)
  | cons c cs ih =>
    rcases walk_cons w par cur c cs with ⟨-, hw'⟩ | ⟨e, -, ⟨-, hw'⟩ | ⟨-, hw'⟩⟩
    · rw [hw'] at hw
      subst hw
      exact ⟨[c], rfl, List.cons_ne_nil _ _⟩
    · rw [hw'] at hw
      obtain ⟨tried, hc, -⟩ := ih hw
      exact ⟨c :: tried, by rw [hc]; rfl, List.cons_ne_nil _ _⟩
    · rw [hw'] at hw
      subst hw
      exact ⟨[c], rfl, List.cons_ne_nil _ _⟩

end Walk

section Search

variable {g : Geom} {w : View} {m : Mem} {γ : Ghost} {s : Fs} {E : Prop}
  {cur : Option Nat}

theorem Dirs.cursor (h : Dirs g w m γ) (hd : IsDir w γ (cur.getD 0)) :
    ∃ i, (m.at w cur).inodes ((m.ref cur).ptr (m.at w cur)) = some i ∧ i.iNo = cur.getD 0 ∧
      i.iSize = (w.ino (cur.getD 0)).iSize ∧ i.iSectors = w.sec (cur.getD 0) := by
  cases cur with
  | none =>
    obtain ⟨i, hi, hno⟩ := h.cached.root
    have := h.cached.agree _ i hi
    rw [hno] at this
    exact ⟨i, hi, hno, this⟩
  | some d =>
    refine ⟨_, Mem.opened_inodes d, ?_⟩
    exact h.cached.deliver (h.no d hd).2

theorem sat_dirClose_ref (h : At g w (m.at w cur) s) (hI : Dirs g w m γ)
    {R : Unit → Fs → Prop} (hR : ∀ t, At g w m t → R () t) :
    ((dirClose (m.ref cur)).on s).Sat E R := by
  cases cur with
  | none => exact hR s h
  | some d =>
    apply sat_inodeClose h (Mem.opened_inodes d)
    rw [Mem.at, hI.cached.closed_opened hI.counted]
    exact hR

theorem sat_dirClose_return {α : Type} (cur : Option Nat) (h : At g w (m.at w cur) s) (hI : Dirs g w m γ) {a : α}
    {Q : α → Fs → Prop} (hQ : ∀ t, At g w m t → Q a t) : ((do
      dirClose (m.ref cur)
      return a : Prog Fs Buf α).on s).Sat E Q := by
  rw [sat_bind]
  exact sat_dirClose_ref h hI hQ

theorem sat_dirOpen (h : At g w m s) {n : Nat} (hn : E ∨ n < 4096)
    {Q : DirRef → Fs → Prop} (hQ : ∀ t, At g w (m.opened w n) t → Q (.heap (m.ptr n)) t) :
    ((dirOpen n).on s).Sat E Q := by
  rw [dirOpen, sat_bind]
  exact sat_inodeOpen h hn hQ

theorem sat_searchDirEntry (h : At g w m s) {d : DirRef} {i : Inode}
    (hp : m.inodes (d.ptr m) = some i) (hd : DirOk g w i.iSectors) {name : List UInt8}
    (hn : ValidName name) {Q : Option DirEntry → Fs → Prop}
    (hQ : Q ((w.lookup i.iSectors name).map Ent.entry) s) :
    ((searchDirEntry d name).on s).Sat E Q := by
  rw [searchDirEntry, sat_bind]
  apply sat_dirInode h
  rw [sat_bind]
  apply sat_getInode h hp
  exact sat_searchIn h hd hn hQ

theorem sat_nextName {p : Option (List UInt8)} (hE : E ∨ Short (compsLeft p))
    {Q : List UInt8 × Option (List UInt8) → Fs → Prop}
    (hQ : ∀ r, compsLeft p = (if r.1 = [] then [] else r.1 :: compsLeft r.2) →
      (r.1 = [] → r.2 = none) → Q r s) : ((nextName p).on s).Sat E Q := by
  cases p with
  | none => exact hQ _ rfl fun _ => rfl
  | some q =>
    rw [compsLeft, Option.elim_some] at hE hQ
    rw [nextName, sat_bind]
    apply sat_storeName
    · by_cases hn : (pathParse q).1 = []
      · exact Or.inr (by simp [hn])
      · rw [components_parse, if_neg hn] at hE
        exact hE.imp_right Short.head
    · exact hQ _ (components_parse q) pathParse_nil

theorem int32_of_lt {n : Nat} (h : n < 2 ^ 31) : int32 n = n := if_pos h

inductive Ended (w : View) (m : Mem) (sp : List UInt8) (comps : List (List UInt8)) :
    Hit → Int × PathSearchRecord → Mem → Prop
  | dir (par no : Nat) (hs : Short comps) : Ended w m sp comps (.dir par no)
      (no, ⟨sp ++ joinPath comps, .heap (m.ptr par), ftDirectory⟩) (m.opened w par)
  | file (cur : Option Nat) (no : Nat) (tried left : List (List UInt8)) (hc : comps = tried ++ left)
      (hs : Short tried) : Ended w m sp comps (.file cur no left)
        (no, ⟨sp ++ joinPath tried, m.ref cur, ftRegular⟩) (m.at w cur)
  | miss (cur : Option Nat) (tried left : List (List UInt8)) (hc : comps = tried ++ left)
      (hs : Short tried) : Ended w m sp comps (.miss cur left)
        (-1, ⟨sp ++ joinPath tried, m.ref cur, ftUnknown⟩) (m.at w cur)

theorem Ended.nil {sp : List UInt8} (par no : Nat) : Ended w m sp [] (.dir par no)
    (no, ⟨sp, .heap (m.ptr par), ftDirectory⟩) (m.opened w par) := by
  have h : Ended w m sp [] (.dir par no) _ _ := .dir par no fun _ hc => absurd hc List.not_mem_nil
  rwa [joinPath, List.flatMap_nil, List.append_nil] at h

theorem Short.cons {c : List UInt8} {cs : List (List UInt8)} (h : Short cs) (hc : c.length ≤ 15) :
    Short (c :: cs) := List.forall_mem_cons.mpr ⟨hc, h⟩

theorem Ended.cons {sp c : List UInt8} {comps : List (List UInt8)} {hit : Hit}
    {r : Int × PathSearchRecord} {m' : Mem} (h : Ended w m (sp ++ slash :: c) comps hit r m')
    (hlen : c.length ≤ 15) : Ended w m sp (c :: comps) hit r m' := by
  have hj : ∀ l, sp ++ slash :: c ++ joinPath l = sp ++ joinPath (c :: l) := by
    intro l
    simp [joinPath]
  cases h with
  | dir par no hs =>
    rw [hj]
    exact .dir par no (hs.cons hlen)
  | file cur no tried left hc hs =>
    rw [hj]
    exact .file cur no (c :: tried) left (by rw [hc]; rfl) (hs.cons hlen)
  | miss cur tried left hc hs =>
    rw [hj]
    exact .miss cur (c :: tried) left (by rw [hc]; rfl) (hs.cons hlen)

theorem sat_terminated {name : List UInt8} (hE : E ∨ name.length ≤ 15) {R : Unit → Fs → Prop}
    (hR : name.length ≤ 15 → R () s) : ((terminated name).on s).Sat E R := by
  rw [terminated, maxFileNameLen]
  split
  · exact hR (by omega)
  · exact hE.resolve_right (by omega)

theorem sat_searchLoop (hI : Dirs g w m γ)
    {Q : Int × PathSearchRecord → Fs → Prop} {turns par : Nat} {r : PathSearchRecord}
    {name : List UInt8} {sub : Option (List UInt8)} {dirE : DirEntry} {cs : List (List UInt8)}
    (h : At g w (m.at w cur) s) (hd : IsDir w γ (cur.getD 0)) (hpar : IsDir w γ par)
    (href : r.parentDir = m.ref cur) (hft : r.fileType = ftUnknown)
    (hcs : cs = if name = [] then [] else name :: compsLeft sub) (hnul : ∀ c ∈ cs, 0 ∉ c)
    (hE : E ∨ Short cs ∧ r.searchedPath.length + (cs.map (fun c => c.length + 1)).sum < 512)
    (ht : cs.length < turns) (hno : cs = [] → dirE.iNo = cur.getD 0)
    (hQ : ∀ r' m' t, Ended w m r.searchedPath cs (w.walk par cur cs) r' m' → At g w m' t → Q r' t) :
    ((searchLoop turns r name sub par dirE).on s).Sat E Q := by
  induction turns generalizing s cur par r name sub dirE cs with
  | zero => omega
  | succ turns ih =>
    rw [searchLoop]
    by_cases hn : name = []
    · rw [if_pos hn] at hcs ⊢
      subst hcs
      rw [sat_bind, href]
      apply sat_dirClose_ref h hI
      intro t ht
      rw [sat_bind]
      apply sat_dirOpen ht (Or.inr (hI.no par hpar).1)
      intro t' ht'
      have hlt := (hI.no _ hd).1
      rw [hno rfl, int32_of_lt (by omega)]
      exact hQ _ _ t' (Ended.nil par _) ht'
    · rw [if_neg hn] at hcs ⊢
      subst hcs
      obtain ⟨i, hi, hino, -, hsec⟩ := hI.cursor hd
      have hrep := hI.list _ hd
      simp only [List.map_cons, List.sum_cons] at hE
      simp only [sat_bind, sat_assert, decide_eq_true_eq, decide_eq_false_iff_not]
      refine ⟨fun _ => ?_, fun hc => hE.resolve_right fun h => by simp only [maxPathLen] at hc; omega⟩
      apply sat_terminated (hE.imp_right fun h => h.1.head)
      intro hlen
      rw [href]
      apply sat_searchDirEntry h hi (hsec ▸ hrep.ok)
        ⟨hn, hlen, hnul name List.mem_cons_self⟩
      rw [hsec]
      rw [View.walk] at hQ
      cases hl : w.lookup (w.sec (cur.getD 0)) name with
      | none =>
        rw [hl] at hQ
        have he : Ended w m (r.searchedPath ++ slash :: name) (compsLeft sub) (.miss cur (compsLeft sub))
            _ _ := .miss cur [] _ rfl fun _ hc => absurd hc List.not_mem_nil
        rw [joinPath, List.flatMap_nil, List.append_nil] at he
        refine hQ _ _ s ?_ h
        have := he.cons hlen
        rwa [← hft] at this
      | some e =>
        rw [hl] at hQ
        simp only [Option.map_some, sat_bind]
        apply sat_nextName (hE.imp_right fun h => h.1.tail)
        intro next hnext hnone
        dsimp only at hQ
        by_cases hty : e.ty = ftDirectory
        · rw [if_pos hty] at hQ
          rw [if_pos (show e.entry.fType = ftDirectory from hty)]
          simp only [sat_bind]
          apply sat_dirInode h
          apply sat_getInode h hi
          apply sat_dirClose_ref h hI
          intro t ht'
          have hd' := hI.lookup_dir hd hl hty
          apply sat_dirOpen ht' (Or.inr (hI.no _ hd').1)
          intro t' ht''
          rw [hino]
          have hat : At g w (m.at w (some e.ino)) t' := ht''
          refine ih hat hd' hd ?_ ?_ hnext ?_ ?_ ?_ ?_ ?_
          · rfl
          · exact hft
          · exact fun c hc => hnul c (List.mem_cons_of_mem _ hc)
          · apply hE.imp_right
            intro h
            refine ⟨h.1.tail, ?_⟩
            simp only [List.length_append, List.length_cons]
            omega
          · simp only [List.length_cons] at ht
            omega
          · exact fun _ => rfl
          · intro r' m' t'' he
            exact hQ r' m' t'' (he.cons hlen)
        · rw [if_neg hty] at hQ
          obtain ⟨hlt, hreg⟩ := hI.lookup_file hd hl hty
          rw [if_neg (show ¬e.entry.fType = ftDirectory from hty),
            if_pos (show e.entry.fType = ftRegular from hreg)]
          have he : Ended w m (r.searchedPath ++ slash :: name) (compsLeft sub)
              (.file cur e.ino (compsLeft sub)) _ _ :=
            .file cur e.ino [] _ rfl fun _ hc => absurd hc List.not_mem_nil
          rw [joinPath, List.flatMap_nil, List.append_nil] at he
          have hno : int32 e.entry.iNo = e.ino := int32_of_lt (show e.ino < 2 ^ 31 by omega)
          rw [sat_pure, hno]
          exact hQ _ _ s (he.cons hlen) h

structure PathOk (path : List UInt8) : Prop where
  abs : path.head? = some slash
  len : path.length < 512
  short : Short (components path)

theorem isRootPath_nil {path : List UInt8} (h : isRootPath path = false)
    (habs : path.head? = some slash) : 1 < path.length := by
  cases path with
  | nil => cases habs
  | cons c cs =>
    obtain rfl : c = slash := by simpa using habs
    cases cs with
    | nil => simp [isRootPath] at h
    | cons d ds => simp

theorem isRootPath_abs {path : List UInt8} (h : isRootPath path = true) :
    path.head? = some slash ∧ path.length < 512 := by
  simp only [isRootPath, Bool.or_eq_true, beq_iff_eq] at h
  rcases h with (rfl | rfl) | rfl <;> decide

theorem sat_searchFile (h : At g w m s) (hI : Dirs g w m γ)
    {path : List UInt8} (hnul : 0 ∉ path) (hE : E ∨ PathOk path) {dirE : DirEntry}
    {Q : Int × PathSearchRecord → Fs → Prop}
    (hQ : ∀ r m' t, path.head? = some slash → path.length < 512 → Found w m path dirE.iNo r m' →
      At g w m' t → Q r t) : ((searchFile dirE path).on s).Sat E Q := by
  rw [searchFile]
  cases hroot : isRootPath path with
  | true =>
    obtain ⟨habs, hlen⟩ := isRootPath_abs hroot
    rw [if_pos rfl]
    exact hQ _ m s habs hlen (.root hroot) h
  | false =>
    rw [if_neg Bool.false_ne_true]
    simp only [sat_bind, sat_assert, decide_eq_true_eq, decide_eq_false_iff_not]
    refine ⟨fun hass => ?_, fun hc => hE.resolve_right fun hok =>
      hc ⟨hok.abs, isRootPath_nil hroot hok.abs, hok.len⟩⟩
    obtain ⟨habs, -, hlen⟩ := hass
    rw [maxPathLen] at hlen
    apply sat_nextName (hE.imp_right PathOk.short)
    intro next hnext hnone
    have hsum := sum_components_le habs
    have hcount := length_components_le path
    rw [compsLeft, Option.elim_some] at hnext
    have hbase : At g w (m.at w none) s := h
    by_cases hcs : components path = []
    · -- only slashes: the loop ends at once, with nothing in `dir_e`
      have hn : next.1 = [] := by
        by_contra hne
        rw [hcs, if_neg hne] at hnext
        cases hnext
      rw [searchLoop, if_pos hn, sat_bind]
      have href : DirRef.root = m.ref none := rfl
      rw [href]
      apply sat_dirClose_ref hbase hI
      intro t ht
      rw [sat_bind]
      apply sat_dirOpen ht (Or.inr (by omega))
      intro t' ht'
      exact hQ _ _ t' habs hlen (.slashes hroot hcs) ht'
    · refine sat_searchLoop hI hbase hI.root.1 hI.root.1 rfl rfl hnext
        ?_ ?_ ?_ ?_ ?_
      · intro c hc h0
        exact hnul (mem_of_mem_components hc h0).1
      · apply hE.imp_right
        intro hok
        refine ⟨hok.short, ?_⟩
        simp only [List.length_nil]
        omega
      · omega
      · exact fun hc => absurd hc hcs
      · intro r' m' t he ht
        apply hQ r' m' t habs hlen _ ht
        generalize hw : w.walk 0 none (components path) = hit at he
        cases he with
        | dir par no hs => exact .dir par no hroot hcs hs hw
        | file cur no tried left hc hs =>
          obtain ⟨tried', hc', hne⟩ := walk_left hw (by simp)
          obtain rfl := List.append_cancel_right (hc.symm.trans hc')
          exact .file cur no tried left hroot hc hne hs hw
        | miss cur tried left hc hs =>
          obtain ⟨tried', hc', hne⟩ := walk_left hw (by simp)
          obtain rfl := List.append_cancel_right (hc.symm.trans hc')
          exact .miss cur tried left hroot hc hne hs hw

end Search

end TrueOs.Fs
