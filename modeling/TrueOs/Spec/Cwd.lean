import TrueOs.Fs.Cwd
import TrueOs.Spec.Mount
import TrueOs.Spec.Walk

/-! `sys_chdir` goes down a path, and `sys_getcwd` finds the way back up. -/

namespace TrueOs.Fs

open Prog

section Join

variable {c l : List UInt8} {cs : List (List UInt8)}

theorem joinPath_nil : joinPath [] = [] := rfl

theorem joinPath_append (cs cs' : List (List UInt8)) :
    joinPath (cs ++ cs') = joinPath cs ++ joinPath cs' := List.flatMap_append

theorem joinPath_single (c : List UInt8) : joinPath [c] = slash :: c := by
  simp [joinPath]

theorem joinPath_cons (c : List UInt8) (cs : List (List UInt8)) :
    joinPath (c :: cs) = slash :: (c ++ joinPath cs) := by
  simp [joinPath]

theorem length_le_joinPath (cs : List (List UInt8)) : cs.length ≤ (joinPath cs).length := by
  induction cs with
  | nil => exact Nat.le_refl _
  | cons c cs ih =>
    simp only [joinPath_cons, List.length_cons, List.length_append]
    omega

theorem components_joinPath (h : ∀ c ∈ cs, c ≠ [] ∧ slash ∉ c) : components (joinPath cs) = cs := by
  induction cs with
  | nil => rfl
  | cons c cs ih =>
    obtain ⟨hne, hs⟩ := h c List.mem_cons_self
    have ih := ih fun x hx => h x (List.mem_cons_of_mem _ hx)
    rw [joinPath_cons, components_slash]
    cases cs with
    | nil => rw [joinPath_nil, List.append_nil, components_single hne hs]
    | cons x xs =>
      rw [joinPath_cons, components_slash] at ih
      rw [joinPath_cons, components_append hne hs, ih]

theorem ne_slash (h : slash ∉ c) : ∀ x ∈ c.reverse, (x != slash) = true := by
  intro x hx
  have : x ≠ slash := fun he => h (he ▸ List.mem_reverse.mp hx)
  simpa using this

theorem afterSlash_append (h : slash ∉ c) : afterSlash (l ++ slash :: c) = c := by
  rw [afterSlash, List.reverse_append, List.reverse_cons, List.append_assoc,
    List.takeWhile_append_of_pos (ne_slash h)]
  simp

theorem beforeSlash_append (h : slash ∉ c) : beforeSlash (l ++ slash :: c) = l := by
  rw [beforeSlash, List.reverse_append, List.reverse_cons, List.append_assoc,
    List.dropWhile_append_of_pos (ne_slash h)]
  simp

theorem turnRound_joinPath {turns : Nat} {buf : List UInt8} (h : ∀ c ∈ cs, slash ∉ c)
    (ht : cs.length ≤ turns) : turnRound turns (joinPath cs) buf = buf ++ joinPath cs.reverse := by
  induction cs using List.reverseRecOn generalizing turns buf with
  | nil =>
    cases turns <;> simp [turnRound, joinPath]
  | append_singleton cs c ih =>
    simp only [List.length_append, List.length_singleton] at ht
    obtain ⟨turns, rfl⟩ : ∃ t, turns = t + 1 := ⟨turns - 1, by omega⟩
    have hc := h c (by simp)
    rw [joinPath_append, joinPath_single, turnRound, if_pos (by simp), beforeSlash_append hc,
      afterSlash_append hc, ih (fun x hx => h x (List.mem_append_left _ hx)) (by omega),
      List.reverse_append, List.reverse_singleton, List.singleton_append, joinPath_cons,
      List.append_assoc, List.cons_append]

end Join

/-- The names `cs` lead from the root down to directory `d`, each of them one level deeper. -/
inductive Canon (w : View) : Nat → List (List UInt8) → Prop
  | root : Canon w 0 []
  | child {d k j : Nat} {cs : List (List UInt8)} {e : Ent} (h : Canon w d cs)
      (he : w.ent (w.sec d) k j = some e) (hn : e.normal = true) (ht : e.ty = ftDirectory)
      (hs : slash ∉ e.name) : Canon w e.ino (cs ++ [e.name])

section Canon

variable {g : Geom} {w : View} {m : Mem} {γ : Ghost} {d : Nat} {cs cs' : List (List UInt8)}

theorem Canon.isDir (h : Canon w d cs) (hI : Dirs g w m γ) : IsDir w γ d := by
  induction h with
  | root => exact hI.root.1
  | child _ he _ ht _ ih =>
    obtain ⟨h₁, h₂⟩ := hI.target ih he
    exact ⟨h₁, by simpa [ht] using h₂⟩

theorem Canon.eq_zero (h : Canon w d []) : d = 0 := by
  generalize hcs : [] = cs at h
  cases h with
  | root => rfl
  | child => simp at hcs

theorem Canon.parent (h : Canon w d cs) (hI : Dirs g w m γ) (hd : d ≠ 0) :
    ∃ cs' k j e, Canon w (γ.par d) cs' ∧ w.ent (w.sec (γ.par d)) k j = some e ∧ e.normal = true ∧
      e.ino = d ∧ slash ∉ e.name ∧ cs = cs' ++ [e.name] := by
  cases h with
  | root => exact absurd rfl hd
  | @child d k j cs e h he hn ht hs =>
    obtain ⟨-, -, hp, -⟩ := hI.ent d k j e (h.isDir hI) he hn
    rw [hp]
    exact ⟨cs, k, j, e, h, he, hn, rfl, hs, rfl⟩

theorem Canon.unique (h : Canon w d cs) (hI : Dirs g w m γ) (h' : Canon w d cs') : cs = cs' := by
  induction h generalizing cs' with
  | root =>
    generalize h0 : 0 = x at h'
    cases h' with
    | root => rfl
    | @child d k j cs e h he hn ht hs => exact absurd h0.symm (hI.ent d k j e (h.isDir hI) he hn).2.1
  | @child d k j cs e h he hn ht hs ih =>
    obtain ⟨-, h0, hp, -⟩ := hI.ent d k j e (h.isDir hI) he hn
    obtain ⟨cs'', k', j', e', hc, he', hn', hino, -, rfl⟩ := h'.parent hI h0
    rw [hp] at hc he'
    obtain ⟨rfl, rfl⟩ := hI.once d k j e k' j' e' (h.isDir hI) he he' hn hn' hino.symm
    rw [he, Option.some.injEq] at he'
    rw [ih hc, he']

theorem Canon.not_dots {e : Ent} (h : Canon w d cs) (hI : Dirs g w m γ)
    (hc : Canon w e.ino (cs ++ [e.name])) (h0 : e.ino ≠ 0) : d ≠ e.ino ∧ γ.par d ≠ e.ino := by
  constructor
  · intro hd
    have := congrArg List.length ((hd ▸ h).unique hI hc)
    simp at this
  · intro hp
    by_cases hd : d = 0
    · rw [hd, hI.root.2] at hp
      exact h0 hp.symm
    · obtain ⟨cs', k, j, e', hc', -, -, -, -, rfl⟩ := h.parent hI hd
      have := congrArg List.length ((hp ▸ hc').unique hI hc)
      simp at this

theorem Canon.name (h : Canon w d cs) (hI : Dirs g w m γ) :
    ∀ c ∈ cs, ValidName c ∧ slash ∉ c ∧ c ≠ dot ∧ c ≠ dotdot := by
  induction h with
  | root => exact fun c hc => absurd hc List.not_mem_nil
  | child h he hn _ hs ih =>
    intro c hc
    rcases List.mem_append.mp hc with hc | hc
    · exact ih c hc
    · obtain rfl := List.mem_singleton.mp hc
      exact ⟨(hI.entOk (h.isDir hI) he).valid, hs, by simpa [Ent.normal] using hn⟩

theorem Canon.step {c : List UInt8} {e : Ent} (h : Canon w d cs) (hI : Dirs g w m γ)
    (hl : w.lookup (w.sec d) c = some e) (ht : e.ty = ftDirectory) (hs : slash ∉ c) :
    ∃ cs', Canon w e.ino cs' ∧ (joinPath cs').length ≤ (joinPath cs).length + (c.length + 1) := by
  obtain ⟨k, j, he, rfl⟩ := lookup_some hl
  cases hn : e.normal with
  | true =>
    refine ⟨_, h.child he hn ht hs, ?_⟩
    rw [joinPath_append, joinPath_single, List.length_append, List.length_cons]
  | false =>
    have hr := hI.list d (h.isDir hI)
    obtain ⟨rfl, hj⟩ := hr.normal k j e he hn
    obtain rfl | rfl : j = 0 ∨ j = 1 := by omega
    · rw [hr.dot, Option.some.injEq] at he
      subst he
      exact ⟨cs, h, Nat.le_add_right _ _⟩
    · rw [hr.dotdot, Option.some.injEq] at he
      subst he
      by_cases hd : d = 0
      · subst hd
        refine ⟨cs, ?_, Nat.le_add_right _ _⟩
        rw [hI.root.2]
        exact h
      · obtain ⟨cs', k, j, e, hc, -, -, -, -, rfl⟩ := h.parent hI hd
        refine ⟨cs', hc, ?_⟩
        rw [joinPath_append, List.length_append]
        omega

theorem Canon.walk {par par' no : Nat} {cur : Option Nat} {comps : List (List UInt8)}
    (h : Canon w (cur.getD 0) cs) (hI : Dirs g w m γ) (hs : ∀ c ∈ comps, slash ∉ c)
    (hw : w.walk par cur comps = .dir par' no) : ∃ cs', Canon w no cs' ∧
      (joinPath cs').length ≤ (joinPath cs).length + (comps.map (fun c => c.length + 1)).sum := by
  induction comps generalizing par cur cs with
  | nil =>
    rw [View.walk, Hit.dir.injEq] at hw
    exact ⟨cs, hw.2 ▸ h, Nat.le_add_right _ _⟩
  | cons c comps ih =>
    rcases walk_cons w par cur c comps with ⟨-, hw'⟩ | ⟨e, hl, ⟨ht, hw'⟩ | ⟨-, hw'⟩⟩
    · rw [hw'] at hw
      cases hw
    · rw [hw'] at hw
      obtain ⟨cs₁, h₁, hle₁⟩ := h.step hI hl ht (hs c List.mem_cons_self)
      have h₁ : Canon w ((some e.ino).getD 0) cs₁ := h₁
      obtain ⟨cs₂, h₂, hle₂⟩ := ih h₁ (fun x hx => hs x (List.mem_cons_of_mem _ hx)) hw
      refine ⟨cs₂, h₂, ?_⟩
      rw [List.map_cons, List.sum_cons]
      omega
    · rw [hw'] at hw
      cases hw

theorem Canon.walk_eq (h : Canon w d cs) (hI : Dirs g w m γ) : ∃ par cur, cur.getD 0 = d ∧
    ∀ rest, w.walk 0 none (cs ++ rest) = w.walk par cur rest := by
  induction h with
  | root => exact ⟨0, none, rfl, fun _ => rfl⟩
  | @child d k j cs e h he hn ht hs ih =>
    obtain ⟨par, cur, rfl, hw⟩ := ih
    have hl := (hI.list _ (h.isDir hI)).lookup he
    refine ⟨cur.getD 0, some e.ino, rfl, fun rest => ?_⟩
    rw [List.append_assoc, hw, List.singleton_append, View.walk, hl]
    exact if_pos ht

end Canon

section Getcwd

variable {g : Geom} {w : View} {m : Mem} {γ : Ghost} {s : Fs} {E : Prop} {d : Nat}

theorem sat_getParentDirInodeNr (h : At g w m s) (hI : Dirs g w m γ) (hd : IsDir w γ d)
    {Q : Nat → Fs → Prop} (hQ : ∀ t, At g w m t → Q (γ.par d) t) :
    ((getParentDirInodeNr d).on s).Sat E Q := by
  have hl := hI.list d hd
  obtain ⟨-, -, ha, -⟩ := ent_eq_some hl.dot
  have haddr : w.addr (w.sec d) 0 = w.sec d 0 := rfl
  obtain ⟨hbase, hmax⟩ := hl.ok.addr 0 (by omega) ha
  have hcode := (hl.ok.good 0 (by omega) ha).code 1 (by omega)
  obtain ⟨-, -, -, hslot⟩ := ent_eq_some hl.dotdot
  rw [hslot, haddr] at hcode
  rw [haddr] at hbase hmax
  have hpar := (hI.no _ (hI.par d hd)).1
  have hsec : ((m.deliver w d).cnt (if m.find d = none then 1 else
      add32 (m.deliver w d).iOpenCnts 1)).iSectors = w.sec d := (hI.cached.deliver (hI.no d hd).2).2.2
  simp only [getParentDirInodeNr, sat_bind]
  apply sat_inodeOpen h (Or.inr (hI.no d hd).1)
  intro t ht
  apply sat_getInode ht (Mem.opened_inodes d)
  simp only [sat_get, sat_assert, decide_eq_true_eq, decide_eq_false_iff_not, hsec, ht.sb]
  refine ⟨fun _ => ?_, fun hc => absurd hbase hc⟩
  apply sat_inodeClose ht (Mem.opened_inodes d)
  intro t' ht'
  rw [hI.cached.closed_opened hI.counted] at ht'
  apply sat_readBlk ht' (Or.inr hmax) hbase
  rw [show dirEntryBytes = 24 * 1 from rfl, hcode]
  exact ⟨fun _ => hQ t' ht', fun hc => absurd ⟨hpar, rfl⟩ hc⟩

theorem takeWhile_slot {b : Buf} {j : Nat} {e : Ent} (hb : GoodBlock b) (hj : j < 21)
    (hs : slot b j = some e) :
    ((List.range' (24 * j) (512 - 24 * j)).map b).takeWhile (· != 0) = e.name := by
  have hv := (hb.ok j hj e hs).valid
  have hlen := hv.len
  have hchar : ∀ i < 16, b (24 * j + i) = e.name.getD i 0 := by
    intro i hi
    have := congrFun (congrArg DirEntry.filename ((hb.code j hj).trans (congrArg encode hs))) i
    simp only [DirEntry.ofBytes, Buf.slice_of_lt hi] at this
    exact this
  have hsplit : (List.range' (24 * j) (512 - 24 * j)).map b =
      e.name ++ 0 :: (List.range' (24 * j + e.name.length + 1) (511 - 24 * j - e.name.length)).map b := by
    rw [show 512 - 24 * j = e.name.length + ((511 - 24 * j - e.name.length) + 1) by omega,
      ← List.range'_append_1, List.map_append, List.range'_succ, List.map_cons,
      hchar _ (by omega), List.getD_eq_default _ _ (Nat.le_refl _)]
    congr 1
    apply List.ext_getElem
    · simp
    · intro i h₁ h₂
      rw [List.getElem_map, List.getElem_range', Nat.one_mul, hchar i (by omega), List.getD_eq_getElem _ _ h₂]
  have hne : ∀ c ∈ e.name, (c != 0) = true := by
    intro c hc
    have : c ≠ 0 := fun h0 => hv.nul (h0 ▸ hc)
    simpa using this
  rw [hsplit, List.takeWhile_append_of_pos hne]
  simp

theorem sat_cstring {b : Buf} {j : Nat} {e : Ent} (hb : GoodBlock b) (hj : j < 21)
    (hs : slot b j = some e) {Q : List UInt8 → Fs → Prop} (hQ : Q e.name s) :
    ((cstring b (24 * j)).on s).Sat E Q := by
  have hlen := (hb.ok j hj e hs).valid.len
  simp only [cstring, takeWhile_slot hb hj hs]
  rw [if_pos (by omega)]
  exact hQ

theorem sat_appendName {path name : List UInt8} (hlen : path.length + name.length + 1 < 512)
    {Q : List UInt8 → Fs → Prop} (hQ : Q (path ++ slash :: name) s) :
    ((appendName path name).on s).Sat E Q := by
  rw [appendName, if_pos hlen]
  exact hQ

theorem find?_eq_some_of_unique {q : Nat → Bool} {l : List Nat} {j : Nat} (hj : j ∈ l) (hq : q j = true)
    (hu : ∀ x ∈ l, q x = true → x = j) : l.find? q = some j := by
  cases hf : l.find? q with
  | none => exact absurd hq (by simpa using List.find?_eq_none.mp hf j hj)
  | some x => rw [hu x (List.mem_of_find?_eq_some hf) (List.find?_some hf)]

theorem sat_childBlocks {sec : Nat → Nat} {c k j : Nat} {e : Ent} {path : List UInt8}
    (h : At g w m s) (hd : DirOk g w sec) (hc : c ≠ 0) (he : w.ent sec k j = some e) (hino : e.ino = c)
    (hu : ∀ k' j' e', w.ent sec k' j' = some e' → e'.ino = c → k' = k ∧ j' = j)
    (hlen : path.length + e.name.length + 1 < 512) {ks : List Nat} (hks : ∀ k' ∈ ks, k' < 140)
    (hk : k ∈ ks) {Q : Option (List UInt8) → Fs → Prop}
    (hQ : Q (some (path ++ slash :: e.name)) s) :
    ((childBlocks c path (w.addr sec) ks).on s).Sat E Q := by
  induction ks with
  | nil => cases hk
  | cons k' ks ih =>
    have hks' : ∀ k ∈ ks, k < 140 := fun k hk => hks k (List.mem_cons_of_mem _ hk)
    have hlt := hks k' List.mem_cons_self
    obtain ⟨-, hj, ha, hs⟩ := ent_eq_some he
    simp only [childBlocks, ite_on]
    by_cases ha' : w.addr sec k' = 0
    · rw [if_pos ha']
      apply ih hks'
      rcases List.mem_cons.mp hk with rfl | hk
      · exact absurd ha' ha
      · exact hk
    · obtain ⟨h₁, h₂⟩ := hd.addr k' hlt ha'
      have hg := hd.good k' hlt ha'
      rw [if_neg ha', sat_bind]
      apply sat_readBlk h (Or.inr h₂) h₁
      simp only [bind_on, get_on, Res.bind, h.sb, g.entrySize]
      -- an empty slot has the number 0
      have hhit : ∀ i < 21, ((DirEntry.ofBytes (w.blk (w.addr sec k')) (24 * i)).iNo == c) = true →
          ∃ e', w.ent sec k' i = some e' ∧ e'.ino = c := by
        intro i hi hx
        rw [hg.code i hi] at hx
        rw [ent_of hlt hi ha']
        cases hsi : slot (w.blk (w.addr sec k')) i with
        | none =>
          rw [hsi] at hx
          exact absurd (beq_iff_eq.mp hx).symm hc
        | some e' =>
          rw [hsi] at hx
          exact ⟨e', rfl, beq_iff_eq.mp hx⟩
      by_cases hkk : k' = k
      · subst hkk
        have hfind : (List.range (512 / 24)).find?
            (fun i => (DirEntry.ofBytes (w.blk (w.addr sec k')) (24 * i)).iNo == c) = some j := by
          apply find?_eq_some_of_unique (List.mem_range.mpr hj)
          · rw [hg.code j hj, hs]
            exact beq_iff_eq.mpr hino
          · intro i hi hx
            obtain ⟨e', he', hino'⟩ := hhit i (List.mem_range.mp hi) hx
            exact (hu k' i e' he' hino').2
        rw [hfind]
        simp only [sat_bind]
        apply sat_cstring hg hj hs
        exact sat_appendName hlen hQ
      · have hfind : (List.range (512 / 24)).find?
            (fun i => (DirEntry.ofBytes (w.blk (w.addr sec k')) (24 * i)).iNo == c) = none := by
          rw [List.find?_eq_none]
          intro i hi hx
          obtain ⟨e', he', hino'⟩ := hhit i (List.mem_range.mp hi) hx
          exact hkk (hu k' i e' he' hino').1
        rw [hfind]
        apply ih hks'
        rcases List.mem_cons.mp hk with rfl | hk
        · exact absurd rfl hkk
        · exact hk

theorem lt_of_addr {sec : Nat → Nat} {k : Nat} (hk : k < 140) (ha : w.addr sec k ≠ 0) :
    k < if sec 12 ≠ 0 then 140 else 12 := by
  by_cases h12 : sec 12 = 0
  · rw [if_neg (by simpa using h12)]
    by_contra hc
    rw [View.addr, if_neg hc, if_neg (by simp [h12])] at ha
    exact ha rfl
  · rw [if_pos h12]
    exact hk

theorem sat_getChildDirName {k j : Nat} {cs : List (List UInt8)} {e : Ent} {path : List UInt8}
    (h : At g w m s) (hI : Dirs g w m γ) (hd : Canon w d cs) (he : w.ent (w.sec d) k j = some e)
    (hn : e.normal = true) (ht : e.ty = ftDirectory) (hs : slash ∉ e.name)
    (hlen : path.length + e.name.length + 1 < 512) {Q : Option (List UInt8) → Fs → Prop}
    (hQ : ∀ t, At g w m t → Q (some (path ++ slash :: e.name)) t) :
    ((getChildDirName d e.ino path).on s).Sat E Q := by
  have hdir := hd.isDir hI
  have hl := hI.list d hdir
  have h0 := (hI.ent d k j e hdir he hn).2.1
  have hsec : ((m.deliver w d).cnt (if m.find d = none then 1 else
      add32 (m.deliver w d).iOpenCnts 1)).iSectors = w.sec d := (hI.cached.deliver (hI.no d hdir).2).2.2
  have hu : ∀ k' j' e', w.ent (w.sec d) k' j' = some e' → e'.ino = e.ino → k' = k ∧ j' = j := by
    intro k' j' e' he' hino
    cases hn' : e'.normal with
    | true => exact hI.once d k' j' e' k j e hdir he' he hn' hn hino
    | false =>
      obtain ⟨h₁, h₂⟩ := hd.not_dots hI (hd.child he hn ht hs) h0
      obtain ⟨rfl, hj⟩ := hl.normal k' j' e' he' hn'
      obtain rfl | rfl : j' = 0 ∨ j' = 1 := by omega
      · rw [hl.dot, Option.some.injEq] at he'
        subst he'
        exact absurd hino h₁
      · rw [hl.dotdot, Option.some.injEq] at he'
        subst he'
        exact absurd hino h₂
  obtain ⟨hk, -, ha, -⟩ := ent_eq_some he
  simp only [getChildDirName, sat_bind]
  apply sat_inodeOpen h (Or.inr (hI.no d hdir).1)
  intro t ht
  apply sat_getInode ht (Mem.opened_inodes d)
  apply sat_dirBlocks ht (hsec ▸ hl.ok.tbl)
  apply sat_inodeClose ht (Mem.opened_inodes d)
  intro t' ht'
  rw [hI.cached.closed_opened hI.counted] at ht'
  rw [hsec]
  apply sat_childBlocks ht' hl.ok h0 he rfl hu hlen
  · intro k' hk'
    have := List.mem_range.mp hk'
    split at this <;> omega
  · exact List.mem_range.mpr (lt_of_addr hk ha)
  · exact hQ t' ht'

theorem sat_ascend {turns : Nat} {cs : List (List UInt8)} {path : List UInt8} (h : At g w m s)
    (hI : Dirs g w m γ) (hd : Canon w d cs) (ht : cs.length < turns)
    (hlen : path.length + (joinPath cs).length < 512) {Q : Option (List UInt8) → Fs → Prop}
    (hQ : ∀ t, At g w m t → Q (some (path ++ joinPath cs.reverse)) t) :
    ((ascend turns d path).on s).Sat E Q := by
  induction hd generalizing turns path s with
  | root =>
    obtain ⟨turns, rfl⟩ : ∃ n, turns = n + 1 := ⟨turns - 1, by simp at ht; omega⟩
    rw [ascend, if_pos rfl]
    have := hQ s h
    rwa [List.reverse_nil, joinPath_nil, List.append_nil] at this
  | @child d k j cs e hd he hn hty hs ih =>
    simp only [List.length_append, List.length_singleton] at ht
    obtain ⟨turns, rfl⟩ : ∃ n, turns = n + 1 := ⟨turns - 1, by omega⟩
    rw [joinPath_append, joinPath_single, List.length_append, List.length_cons] at hlen
    obtain ⟨-, h0, hp, -⟩ := hI.ent d k j e (hd.isDir hI) he hn
    rw [ascend, if_neg h0, sat_bind]
    apply sat_getParentDirInodeNr h hI ((hd.child he hn hty hs).isDir hI)
    intro t₁ h₁
    rw [hp, sat_bind]
    apply sat_getChildDirName h₁ hI hd he hn hty hs (by omega)
    intro t₂ h₂
    apply ih h₂ (by omega)
    · rw [List.length_append, List.length_cons]
      omega
    · intro t₃ h₃
      have := hQ t₃ h₃
      rwa [List.reverse_append, List.reverse_singleton, List.singleton_append, joinPath_cons,
        ← List.cons_append, ← List.append_assoc] at this

/-- The path `sys_getcwd` writes for a directory with the names `cs` above it. -/
def cwdOf (cs : List (List UInt8)) : List UInt8 := if cs = [] then [slash] else joinPath cs

theorem sat_sysGetcwd {cur : Nat} {cs : List (List UInt8)} (h : At g w m s) (hI : Dirs g w m γ)
    (hd : Canon w (m.cwdInodeNr cur) cs) (hlen : (joinPath cs).length < 512)
    {Q : Option (List UInt8) → Fs → Prop} (hQ : ∀ t, At g w m t → Q (some (cwdOf cs)) t) :
    ((sysGetcwd cur 512).on s).Sat E Q := by
  have hlt := (hI.no _ (hd.isDir hI)).1
  simp only [sysGetcwd, sat_bind, sat_get, sat_assert, decide_eq_true_eq,
    decide_eq_false_iff_not, h.mem]
  refine ⟨fun _ => ?_, fun hc => absurd hlt hc⟩
  by_cases h0 : m.cwdInodeNr cur = 0
  · obtain rfl := (h0 ▸ hd).unique hI .root
    rw [if_pos h0]
    exact hQ s h
  · have hcs : cs ≠ [] := by
      obtain ⟨cs', k, j, e, -, -, -, -, -, rfl⟩ := hd.parent hI h0
      simp
    rw [if_neg h0, cwdPath, sat_bind]
    have hle := length_le_joinPath cs
    apply sat_ascend h hI hd (by simp only [maxPathLen]; omega) (by simpa using hlen)
    intro t ht
    have hrev : (joinPath cs.reverse).length = (joinPath cs).length := by
      rw [joinPath, joinPath, List.length_flatMap, List.length_flatMap, List.map_reverse,
        List.sum_reverse]
    have hturn : turnRound (joinPath cs.reverse).length (joinPath cs.reverse) [] = joinPath cs := by
      rw [turnRound_joinPath (fun c hc => (hd.name hI c (List.mem_reverse.mp hc)).2.1)
        (length_le_joinPath _), List.nil_append, List.reverse_reverse]
    simp only [List.nil_append, sat_bind, sat_assert, decide_eq_true_eq,
      decide_eq_false_iff_not, hrev]
    refine ⟨fun _ => ?_, fun hc => by omega⟩
    rw [← hrev, hturn, storePath, if_pos hlen]
    have := hQ t ht
    rwa [cwdOf, if_neg hcs] at this

end Getcwd

namespace Mem

@[simps] def setCwd (m : Mem) (cur n : Nat) : Mem :=
  { m with cwdInodeNr := Function.update m.cwdInodeNr cur n }

theorem opened_setCwd (m : Mem) (w : View) (cur n d : Nat) :
    (m.setCwd cur n).opened w d = (m.opened w d).setCwd cur n := by
  have hf : (m.setCwd cur n).find d = m.find d := rfl
  rw [opened, opened, hf]
  cases m.find d <;> rfl

end Mem

/-- An absolute path with no step to spare. -/
def Canonical (q : List UInt8) : Prop := q = [slash] ∨
  components q ≠ [] ∧ q = joinPath (components q) ∧ dot ∉ components q ∧ dotdot ∉ components q

section Chdir

variable {g : Geom} {w : View} {m : Mem} {γ : Ghost} {s t : Fs} {E : Prop} {cur : Nat} {stack : Stack}
  {p : List UInt8}

theorem Dirs.setCwd (h : Dirs g w m γ) (cur n : Nat) : Dirs g w (m.setCwd cur n) γ where
  root := h.root
  no := h.no
  list := h.list
  ent := h.ent
  once := h.once
  par := h.par
  cached := ⟨h.cached.nodup, h.cached.obj, h.cached.alloc, h.cached.agree, h.cached.pos,
    h.cached.once, h.cached.root⟩
  counted := h.counted

theorem sat_setCwd {n : Nat} (h : At g w m s) {R : Unit → Fs → Prop}
    (hR : ∀ t, At g w (m.setCwd cur n) t → R () t) :
    ((modify (fun s => { s with
      mem.cwdInodeNr := Function.update s.mem.cwdInodeNr cur n }) : Prog Fs Buf Unit).on s).Sat E R := by
  rw [sat_modify, h.mem]
  exact hR _ (h.withMem _)

theorem uint32_of_lt {n : Nat} (h : n < 2 ^ 32) : uint32 n = n := by
  rw [uint32]
  omega

theorem sat_enter {par n : Nat} (h : At g w (m.opened w par) s) (hI : Dirs g w m γ) (hn : n < 2 ^ 32)
    {Q : Int → Fs → Prop} (hQ : ∀ t, At g w (m.setCwd cur n) t → Q 0 t) :
    ((do
      modify (fun s => { s with mem.cwdInodeNr := Function.update s.mem.cwdInodeNr cur (uint32 n) })
      dirClose (.heap (m.ptr par))
      return 0 : Prog Fs Buf Int).on s).Sat E Q := by
  rw [uint32_of_lt hn, sat_bind]
  apply sat_setCwd h
  intro t ht
  rw [← Mem.opened_setCwd] at ht
  rw [sat_bind]
  have ht : At g w ((m.setCwd cur n).at w (some par)) t := ht
  exact sat_dirClose_ref ht (hI.setCwd cur n) hQ

theorem sat_sysChdir (h : At g w m s) (hI : Dirs g w m γ) (hnul : 0 ∉ p) (hE : E ∨ PathOk p)
    (hp : components p ≠ [] ∨ isRootPath p = true) {Q : Int → Fs → Prop}
    (hno : ∀ t, At g w m t → Q (-1) t)
    (hyes : ∀ n cs t, Canon w n cs → (joinPath cs).length < 512 → At g w (m.setCwd cur n) t → Q 0 t) :
    ((sysChdir stack cur p).on s).Sat E Q := by
  rw [sysChdir, sat_bind]
  apply sat_searchFile h hI hnul hE
  intro r m' t habs hlen hf ht
  cases hf with
  | root hr =>
    dsimp only
    rw [if_pos (by decide), sat_bind]
    apply sat_setCwd ht
    exact fun u hu => hyes 0 [] u .root (by decide) hu
  | slashes hr hc => exact absurd hc (hp.resolve_right (by simp [hr]))
  | dir par no hr hc _ hw =>
    have hroot : Canon w ((none : Option Nat).getD 0) [] := .root
    obtain ⟨cs, hcs, hle⟩ := hroot.walk hI (fun c hc hs => (mem_of_mem_components hc hs).2 rfl) hw
    have hsum := sum_components_le habs
    have hlt := (hI.no _ (hcs.isDir hI)).1
    rw [joinPath_nil, List.length_nil] at hle
    dsimp only
    rw [if_pos ⟨by omega, rfl⟩]
    exact sat_enter ht hI (by omega) fun u hu => hyes no cs u hcs (by omega) hu
  | file cur' no tried left hr hc _ _ hw =>
    dsimp only
    rw [if_neg (by simp)]
    exact sat_dirClose_return cur' ht hI hno
  | miss cur' tried left hr hc _ _ hw =>
    dsimp only
    rw [if_neg (by simp)]
    exact sat_dirClose_return cur' ht hI hno

theorem canonical_cwdOf {d : Nat} {cs : List (List UInt8)} (h : Canon w d cs) (hI : Dirs g w m γ) :
    Canonical (cwdOf cs) := by
  have hname := h.name hI
  by_cases hcs : cs = []
  · rw [cwdOf, if_pos hcs]
    exact Or.inl rfl
  · have hcomp : components (joinPath cs) = cs :=
      components_joinPath fun c hc => ⟨(hname c hc).1.ne, (hname c hc).2.1⟩
    rw [cwdOf, if_neg hcs, Canonical, hcomp]
    exact Or.inr ⟨hcs, rfl, fun hc => (hname _ hc).2.2.1 rfl, fun hc => (hname _ hc).2.2.2 rfl⟩

theorem isRootPath_joinPath {cs : List (List UInt8)} (hne : ∀ c ∈ cs, c ≠ [] ∧ slash ∉ c) (hcs : cs ≠ [])
    (hdot : dot ∉ cs) (hdotdot : dotdot ∉ cs) : isRootPath (joinPath cs) = false := by
  have hcomp := components_joinPath hne
  rw [Bool.eq_false_iff]
  intro h
  simp only [isRootPath, Bool.or_eq_true, beq_iff_eq] at h
  rcases h with (h | h) | h <;> rw [h] at hcomp
  · exact hcs (hcomp.symm.trans (by decide))
  · exact hdot (hcomp ▸ (by decide))
  · exact hdotdot (hcomp ▸ (by decide))

theorem sat_searchFile_cwdOf {d : Nat} {cs : List (List UInt8)} {dirE : DirEntry} (h : At g w m s)
    (hI : Dirs g w m γ) (hd : Canon w d cs) (hlen : (joinPath cs).length < 512) :
    ((searchFile dirE (cwdOf cs)).on s).Sat E (fun r _ => r.1 = (d : Int)) := by
  have hname := hd.name hI
  by_cases hcs : cs = []
  · subst hcs
    rw [hd.eq_zero, cwdOf, if_pos rfl, searchFile, if_pos (by decide)]
    rfl
  · have hne : ∀ c ∈ cs, c ≠ [] ∧ slash ∉ c := fun c hc => ⟨(hname c hc).1.ne, (hname c hc).2.1⟩
    have hcomp := components_joinPath hne
    have hroot : isRootPath (joinPath cs) = false := isRootPath_joinPath hne hcs
      (fun hc => (hname _ hc).2.2.1 rfl) (fun hc => (hname _ hc).2.2.2 rfl)
    have habs : (joinPath cs).head? = some slash := by
      obtain ⟨c, cs', rfl⟩ := List.exists_cons_of_ne_nil hcs
      rw [joinPath_cons, List.head?_cons]
    have hnul : 0 ∉ joinPath cs := by
      intro h0
      obtain ⟨c, hc, hx⟩ := List.mem_flatMap.mp h0
      rcases List.mem_cons.mp hx with hx | hx
      · exact absurd hx (by decide)
      · exact (hname c hc).1.nul hx
    have hok : PathOk (joinPath cs) := ⟨habs, hlen, fun c hc => (hname c (hcomp ▸ hc)).1.len⟩
    obtain ⟨par, cur, hcur, hwalk⟩ := hd.walk_eq hI
    have hwalk : w.walk 0 none cs = .dir par d := by
      have := hwalk []
      rwa [List.append_nil, View.walk, hcur] at this
    rw [cwdOf, if_neg hcs]
    apply sat_searchFile h hI hnul (Or.inr hok)
    intro r m' t _ _ hf _
    cases hf with
    | root hr => simp [hroot] at hr
    | slashes _ hc => exact absurd (hcomp ▸ hc) hcs
    | dir par' no _ _ _ hw =>
      rw [hcomp, hwalk, Hit.dir.injEq] at hw
      rw [hw.2]
    | file _ _ _ _ _ _ _ _ hw => simp [hcomp, hwalk] at hw
    | miss _ _ _ _ _ _ _ hw => simp [hcomp, hwalk] at hw

theorem dirs_mounted : ∃ w, At (formatGeom sized_small) w (mountMem w) mounted ∧
    Dirs (formatGeom sized_small) w (mountMem w) rootGhost := by
  obtain ⟨w, hf, h⟩ := at_mounted
  exact ⟨w, h, hf.tree.dirs hf.cached Formatted.calm.counted⟩

set_option maxRecDepth 100000 in
theorem chdir_root_gives : (sysChdir noStack 0 [slash, 46, 46, slash, 46]).gives mounted 0 = true := by
  decide +kernel

def junkStack : Stack := ⟨⟨fun _ => 0, 5000, 0⟩, fun _ => 0, fun _ => 0⟩

set_option maxRecDepth 100000 in
theorem chdir_slashes_gives : (sysChdir junkStack 0 [slash, slash]).gives mounted 0 = true := by
  decide +kernel

set_option maxRecDepth 100000 in
theorem cwd_slashes : ((sysChdir junkStack 0 [slash, slash]).after mounted).mem.cwdInodeNr 0 = 5000 := by
  decide +kernel

end Chdir

end TrueOs.Fs
