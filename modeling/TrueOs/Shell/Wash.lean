import TrueOs.Lib.CString
import TrueOs.Spec.Cwd

/-! `wash_path` of `shell/buildin_cmd.c`, which builds the clean path in place. -/

namespace TrueOs.Shell

open Buf Fs

/-- A loop over a string that does not end. -/
def ended {α : Type} : Option α → Except Stop α
  | none => .error .loop
  | some a => .ok a

/-- One component: `..` ends the path at its last slash, and keeps the slash that is the root. -/
def washStep (turns : Nat) (newAbsPath : Buf) (name : List UInt8) : Except Stop Buf :=
  if name = dotdot then do
    match ← ended (newAbsPath.strrchr slash turns 0 none) with
    | none => throw .fault
    | some slashPtr =>
      if slashPtr ≠ 0 then
        return Function.update newAbsPath slashPtr 0
      else
        return Function.update newAbsPath (slashPtr + 1) 0
  else if name ≠ dot then do
    let newAbsPath ←
      if newAbsPath.strEq 0 [slash] then pure newAbsPath else ended (newAbsPath.strcat turns [slash])
    ended (newAbsPath.strcat turns name)
  else
    return newAbsPath

/-- `path_parse(sub_path, name)`; `store` is what writing the name to its buffer does. -/
def parseName (store : List UInt8 → Except Stop Unit) (subPath : List UInt8) :
    Except Stop (List UInt8 × Option (List UInt8)) := do
  store (pathParse subPath).1
  return pathParse subPath

def washLoop (store : List UInt8 → Except Stop Unit) (strTurns : Nat) : (turns : Nat) → (newAbsPath : Buf) →
    (name : List UInt8) → (subPath : Option (List UInt8)) → Except Stop Buf
  | 0, _, _, _ => throw .loop
  | turns + 1, newAbsPath, name, subPath => do
    if name = [] then
      return newAbsPath
    else
      let newAbsPath ← washStep strTurns newAbsPath name
      match subPath with
      | none => washLoop store strTurns turns newAbsPath [] none
      | some subPath =>
        let next ← parseName store subPath
        washLoop store strTurns turns newAbsPath next.1 next.2

def washPathWith (store : List UInt8 → Except Stop Unit) (oldAbsPath : List UInt8) (newAbsPath : Buf) :
    Except Stop Buf := do
  if oldAbsPath.head? = some slash then
    let next ← parseName store oldAbsPath
    if next.1 = [] then
      return Function.update (Function.update newAbsPath 0 slash) 1 0
    else
      let newAbsPath ← ended (strcat (Function.update newAbsPath 0 0) (oldAbsPath.length + 2) [slash])
      washLoop store (oldAbsPath.length + 2) (oldAbsPath.length + 2) newAbsPath next.1 next.2
  else
    throw .assert

/-- Fifteen characters and the zero behind them fit the buffer. -/
def storeShort (name : List UInt8) : Except Stop Unit :=
  if name.length < maxFileNameLen then .ok () else .error .fault

def washPath (oldAbsPath : List UInt8) (newAbsPath : Buf) : Except Stop Buf :=
  washPathWith storeShort oldAbsPath newAbsPath

def keep (kept : List (List UInt8)) (name : List UInt8) : List (List UInt8) :=
  if name = dotdot then kept.dropLast else if name = dot then kept else kept ++ [name]

def washed (path : List UInt8) : List (List UInt8) := (components path).foldl keep []

section Wash

variable {turns strTurns : Nat} {newAbsPath : Buf} {kept comps : List (List UInt8)}
  {name path : List UInt8}

/-- A component as `path_parse` finds it. -/
def IsName (name : List UInt8) : Prop := name ≠ [] ∧ slash ∉ name ∧ 0 ∉ name

theorem cwdOf_snoc (kept : List (List UInt8)) (name : List UInt8) :
    cwdOf (kept ++ [name]) = joinPath kept ++ slash :: name := by
  rw [cwdOf, if_neg (by simp), joinPath_append, joinPath_single]

theorem cwdOf_of_ne_nil (h : kept ≠ []) : cwdOf kept = joinPath kept := if_neg h

theorem cwdOf_eq_slash_iff (h : ∀ c ∈ kept, IsName c) : cwdOf kept = [slash] ↔ kept = [] := by
  constructor
  · intro he
    cases kept with
    | nil => rfl
    | cons c cs =>
      rw [cwdOf_of_ne_nil (List.cons_ne_nil _ _), joinPath_cons] at he
      have hc := (h c List.mem_cons_self).1
      simp [hc] at he
  · rintro rfl
    rfl

theorem washStep_dotdot (h : Str newAbsPath 0 (cwdOf kept)) (hk : ∀ c ∈ kept, IsName c)
    (ht : (cwdOf kept).length < turns) :
    ∃ p, washStep turns newAbsPath dotdot = .ok p ∧ Str p 0 (cwdOf kept.dropLast) := by
  rw [washStep, if_pos rfl]
  rcases List.eq_nil_or_concat' kept with rfl | ⟨ks, c, rfl⟩
  · have hl := Str.strrchr_append (l := []) h (List.not_mem_nil) ht none
    rw [hl]
    have hroot : Str newAbsPath 0 ([slash] ++ []) := h
    exact ⟨_, rfl, hroot.cut⟩
  · rw [cwdOf_snoc] at h ht
    have hl := h.strrchr_append (hk c (by simp)).2.1 ht none
    rw [hl, List.dropLast_concat]
    by_cases hks : ks = []
    · subst hks
      have hroot : Str newAbsPath 0 ([slash] ++ c) := h
      exact ⟨_, rfl, hroot.cut⟩
    · have hne : (joinPath ks).length ≠ 0 := by
        have := length_le_joinPath ks
        have := List.length_pos_of_ne_nil hks
        omega
      refine ⟨_, if_pos (by rwa [Nat.zero_add]), ?_⟩
      rw [cwdOf_of_ne_nil hks]
      exact h.cut

theorem washStep_name (h : Str newAbsPath 0 (cwdOf kept)) (hk : ∀ c ∈ kept, IsName c)
    (ht : (cwdOf kept).length + 1 < turns) (hn : IsName name) (hdd : name ≠ dotdot) (hd : name ≠ dot) :
    ∃ p, washStep turns newAbsPath name = .ok p ∧ Str p 0 (cwdOf (kept ++ [name])) := by
  rw [washStep, if_neg hdd, if_pos hd, cwdOf_snoc]
  by_cases hkept : kept = []
  · have hs : newAbsPath.strEq 0 [slash] = true := by
      rw [hkept] at h
      exact h.eq
    obtain ⟨p, hp, hstr⟩ := h.strcat hn.2.2 (show _ < turns by omega)
    rw [if_pos hs]
    refine ⟨p, (congrArg ended hp : _), ?_⟩
    rw [hkept] at hstr ⊢
    exact hstr
  · have hs : newAbsPath.strEq 0 [slash] ≠ true := fun hs => by
      have := h.unique ⟨hs, by decide⟩
      exact hkept ((cwdOf_eq_slash_iff hk).mp this)
    obtain ⟨p, hp, hstr⟩ := h.strcat (by decide : 0 ∉ [slash]) (show _ < turns by omega)
    obtain ⟨q, hq, hstr'⟩ := hstr.strcat hn.2.2 (show _ < turns by simpa using ht)
    rw [if_neg hs, hp]
    refine ⟨q, (congrArg ended hq : _), ?_⟩
    rw [cwdOf_of_ne_nil hkept, List.append_assoc] at hstr'
    exact hstr'

theorem washStep_spec (h : Str newAbsPath 0 (cwdOf kept)) (hk : ∀ c ∈ kept, IsName c)
    (ht : (cwdOf kept).length + 1 < turns) (hn : IsName name) :
    ∃ p, washStep turns newAbsPath name = .ok p ∧ Str p 0 (cwdOf (keep kept name)) := by
  rw [keep]
  by_cases hdd : name = dotdot
  · rw [if_pos hdd, hdd]
    exact washStep_dotdot h hk (by omega)
  · rw [if_neg hdd]
    by_cases hd : name = dot
    · rw [if_pos hd]
      refine ⟨newAbsPath, ?_, h⟩
      rw [washStep, if_neg hdd, if_neg (not_not.mpr hd)]
      rfl
    · rw [if_neg hd]
      exact washStep_name h hk ht hn hdd hd

theorem mem_keep {c : List UInt8} (hc : c ∈ keep kept name) :
    c ∈ kept ∨ c = name ∧ name ≠ dot ∧ name ≠ dotdot := by
  rw [keep] at hc
  split at hc
  · exact .inl (List.mem_of_mem_dropLast hc)
  · split at hc
    · exact .inl hc
    · rename_i hdd hd
      exact (List.mem_append.mp hc).imp_right fun hc => ⟨List.mem_singleton.mp hc, hd, hdd⟩

theorem keep_names (hk : ∀ c ∈ kept, IsName c) (hn : IsName name) : ∀ c ∈ keep kept name, IsName c := by
  intro c hc
  obtain hc | ⟨rfl, -⟩ := mem_keep hc
  · exact hk c hc
  · exact hn

theorem length_keep_le (kept : List (List UInt8)) (name : List UInt8) :
    (joinPath (keep kept name)).length ≤ (joinPath kept).length + (name.length + 1) := by
  rw [keep]
  split
  · rcases List.eq_nil_or_concat' kept with rfl | ⟨ks, c, rfl⟩
    · simp [joinPath_nil]
    · rw [List.dropLast_concat, joinPath_append, List.length_append]
      omega
  · split
    · omega
    · rw [joinPath_append, joinPath_single, List.length_append, List.length_cons]

theorem length_foldl_keep_le (comps kept : List (List UInt8)) :
    (joinPath (comps.foldl keep kept)).length ≤
      (joinPath kept).length + (comps.map (fun c => c.length + 1)).sum := by
  induction comps generalizing kept with
  | nil => simp
  | cons c cs ih =>
    have := ih (keep kept c)
    have := length_keep_le kept c
    rw [List.foldl_cons, List.map_cons, List.sum_cons]
    omega

theorem length_cwdOf_le (kept : List (List UInt8)) : (cwdOf kept).length ≤ (joinPath kept).length + 1 := by
  rw [cwdOf]
  split
  · simp
  · omega

theorem washLoop_some {p : Buf} {q : List UInt8} (hname : name ≠ [])
    (hp : washStep strTurns newAbsPath name = .ok p) (hfit : storeShort (pathParse q).1 = .ok ()) :
    washLoop storeShort strTurns (turns + 1) newAbsPath name (some q) =
      washLoop storeShort strTurns turns p (pathParse q).1 (pathParse q).2 := by
  have hparse : parseName storeShort q = .ok (pathParse q) := by rw [parseName, hfit]; rfl
  rw [washLoop, if_neg hname, hp]
  exact congrArg (· >>= fun next => washLoop storeShort strTurns turns p next.1 next.2) hparse

theorem washLoop_spec {subPath : Option (List UInt8)} (h : Str newAbsPath 0 (cwdOf kept))
    (hk : ∀ c ∈ kept, IsName c) (hn : ∀ c ∈ name :: compsLeft subPath, IsName c)
    (hshort : Short (compsLeft subPath)) (ht : (compsLeft subPath).length + 2 ≤ turns)
    (hstr : (joinPath kept).length + ((name :: compsLeft subPath).map (fun c => c.length + 1)).sum + 2 ≤
      strTurns) :
    ∃ p, washLoop storeShort strTurns turns newAbsPath name subPath = .ok p ∧
      Str p 0 (cwdOf ((name :: compsLeft subPath).foldl keep kept)) := by
  induction turns generalizing newAbsPath kept name subPath with
  | zero => omega
  | succ turns ih =>
    have hname := hn name List.mem_cons_self
    rw [List.map_cons, List.sum_cons] at hstr
    have hroom : (cwdOf kept).length + 1 < strTurns := by
      have := length_cwdOf_le kept
      have := List.length_pos_of_ne_nil hname.1
      omega
    obtain ⟨p, hp, hs⟩ := washStep_spec h hk hroom hname
    have hk' := keep_names hk hname
    have hlen := length_keep_le kept name
    rw [List.foldl_cons]
    cases subPath with
    | none =>
      obtain ⟨t, rfl⟩ := Nat.exists_eq_add_one_of_ne_zero (show turns ≠ 0 by omega)
      refine ⟨p, ?_, hs⟩
      rw [washLoop, if_neg hname.1, hp]
      rfl
    | some q =>
      rw [compsLeft, Option.elim_some] at hn hshort ht hstr ⊢
      rw [components_parse] at hn hshort ht hstr ⊢
      by_cases hq : (pathParse q).1 = []
      · rw [if_pos hq] at ht ⊢
        obtain ⟨t, rfl⟩ := Nat.exists_eq_add_one_of_ne_zero (show turns ≠ 0 by omega)
        refine ⟨p, ?_, hs⟩
        rw [washLoop_some hname.1 hp (by rw [hq]; rfl), washLoop, if_pos hq]
        rfl
      · rw [if_neg hq] at hn hshort ht hstr ⊢
        have hfit : storeShort (pathParse q).1 = .ok () := if_pos (Nat.lt_succ_of_le hshort.head)
        rw [List.length_cons] at ht
        obtain ⟨r, hr, hfin⟩ := ih hs hk' (fun c hc => hn c (List.mem_cons_of_mem _ hc)) hshort.tail
          (by omega) (by omega)
        exact ⟨r, (washLoop_some hname.1 hp hfit).trans hr, hfin⟩

theorem isName_of_mem_components (h0 : 0 ∉ path) {c : List UInt8} (hc : c ∈ components path) :
    IsName c :=
  ⟨ne_nil_of_mem_components hc, fun h => (mem_of_mem_components hc h).2 rfl,
    fun h => h0 (mem_of_mem_components hc h).1⟩

theorem washPath_spec (newAbsPath : Buf) (hroot : path.head? = some slash) (h0 : 0 ∉ path)
    (hshort : Short (components path)) :
    ∃ p, washPath path newAbsPath = .ok p ∧ Str p 0 (cwdOf (washed path)) := by
  have hnames : ∀ c ∈ components path, IsName c := fun c hc => isName_of_mem_components h0 hc
  have hsum := sum_components_le hroot
  have hcnt := length_components_le path
  rw [washPath, washPathWith, if_pos hroot, washed]
  rw [components_parse] at hnames hsum hcnt hshort ⊢
  by_cases hn : (pathParse path).1 = []
  · have hparse : parseName storeShort path = .ok (pathParse path) := by rw [parseName, hn]; rfl
    rw [if_pos hn, hparse]
    refine ⟨_, if_pos hn, ?_⟩
    rw [List.foldl_nil]
    exact str_cons.mpr ⟨rfl, by decide, str_nil.mpr rfl⟩
  · rw [if_neg hn] at hnames hsum hcnt hshort ⊢
    have hfit : storeShort (pathParse path).1 = .ok () := if_pos (Nat.lt_succ_of_le hshort.head)
    have hparse : parseName storeShort path = .ok (pathParse path) := by rw [parseName, hfit]; rfl
    have hempty : Str (Function.update newAbsPath 0 0) 0 [] := str_nil.mpr (Function.update_self ..)
    obtain ⟨p, hp, hs⟩ := hempty.strcat (by decide : 0 ∉ [slash]) (Nat.succ_pos (path.length + 1))
    rw [List.length_cons] at hcnt
    have hroot' : Str p 0 (cwdOf []) := hs
    obtain ⟨r, hr, hfin⟩ := washLoop_spec hroot' (fun c hc => absurd hc List.not_mem_nil) hnames hshort.tail
      (show _ ≤ path.length + 2 by omega) (show _ ≤ path.length + 2 by rw [joinPath_nil, List.length_nil]; omega)
    refine ⟨r, ?_, hfin⟩
    rw [hparse]
    refine (if_neg hn).trans ?_
    rw [hp]
    exact hr

/-- Components that `wash_path` leaves as they are. -/
def Clean (comps : List (List UInt8)) : Prop := ∀ c ∈ comps, IsName c ∧ c.length ≤ 15 ∧ c ≠ dot ∧ c ≠ dotdot

theorem Clean.keep (h : Clean kept) (hn : IsName name) (hlen : name.length ≤ 15) : Clean (keep kept name) := by
  intro c hc
  obtain hc | ⟨rfl, hd, hdd⟩ := mem_keep hc
  · exact h c hc
  · exact ⟨hn, hlen, hd, hdd⟩

theorem Clean.foldl_keep (h : Clean kept) (hn : ∀ c ∈ comps, IsName c) (hshort : Short comps) :
    Clean (comps.foldl Shell.keep kept) := by
  induction comps generalizing kept with
  | nil => exact h
  | cons c cs ih =>
    exact ih (h.keep (hn c List.mem_cons_self) hshort.head) (fun x hx => hn x (List.mem_cons_of_mem _ hx))
      hshort.tail

theorem Clean.foldl_keep_self (h : Clean comps) (kept : List (List UInt8)) :
    comps.foldl Shell.keep kept = kept ++ comps := by
  induction comps generalizing kept with
  | nil => simp
  | cons c cs ih =>
    obtain ⟨-, -, hd, hdd⟩ := h c List.mem_cons_self
    rw [List.foldl_cons, ih (fun x hx => h x (List.mem_cons_of_mem _ hx)), Shell.keep, if_neg hdd, if_neg hd,
      List.append_assoc, List.singleton_append]

theorem Clean.components_cwdOf (h : Clean comps) : components (cwdOf comps) = comps := by
  by_cases hne : comps = []
  · rw [hne]
    rfl
  · rw [cwdOf_of_ne_nil hne]
    exact components_joinPath fun c hc => ⟨(h c hc).1.1, (h c hc).1.2.1⟩

theorem Clean.nul_not_mem (h : Clean comps) : 0 ∉ cwdOf comps := by
  rw [cwdOf]
  split
  · decide
  · rw [joinPath, List.mem_flatMap]
    rintro ⟨c, hc, h0⟩
    rcases List.mem_cons.mp h0 with h0 | h0
    · exact absurd h0 (by decide)
    · exact (h c hc).1.2.2 h0

theorem head?_cwdOf (comps : List (List UInt8)) : (cwdOf comps).head? = some slash := by
  cases comps with
  | nil => rfl
  | cons c cs => rw [cwdOf_of_ne_nil (List.cons_ne_nil _ _), joinPath_cons, List.head?_cons]

theorem wash_path_normalises (path : List UInt8) (newAbsPath again : Buf)
    (hroot : path.head? = some slash) (h0 : 0 ∉ path) (hshort : Short (components path)) :
    ∃ p, washPath path newAbsPath = .ok p ∧ Str p 0 (cwdOf (washed path)) ∧
      (cwdOf (washed path)).length ≤ path.length ∧
      ∃ q, washPath (cwdOf (washed path)) again = .ok q ∧ Str q 0 (cwdOf (washed path)) := by
  have hclean : Clean (washed path) :=
    Clean.foldl_keep (fun c hc => absurd hc List.not_mem_nil) (fun c hc => isName_of_mem_components h0 hc) hshort
  obtain ⟨p, hp, hs⟩ := washPath_spec newAbsPath hroot h0 hshort
  refine ⟨p, hp, hs, ?_, ?_⟩
  · rw [cwdOf]
    split
    · exact List.length_pos_of_ne_nil fun h => by rw [h] at hroot; cases hroot
    · exact (length_foldl_keep_le (components path) []).trans (by
        rw [joinPath_nil, List.length_nil, Nat.zero_add]; exact sum_components_le hroot)
  · have hsame : washed (cwdOf (washed path)) = washed path := by
      rw [washed, hclean.components_cwdOf, hclean.foldl_keep_self, List.nil_append]
    have hshort' : Short (components (cwdOf (washed path))) := by
      rw [hclean.components_cwdOf]
      exact fun c hc => (hclean c hc).2.1
    obtain ⟨q, hq, hs'⟩ := washPath_spec again (head?_cwdOf _) hclean.nul_not_mem hshort'
    rw [hsame] at hs'
    exact ⟨q, hq, hs'⟩

/-- `//a/.././b/` becomes `/b`. -/
theorem wash_path_normalises_b : ∃ p, washPath [47, 47, 97, 47, 46, 46, 47, 46, 47, 98, 47] (fun _ => 0) = .ok p ∧
    Str p 0 [47, 98] ∧ ∃ q, washPath [47, 98] (fun _ => 0) = .ok q ∧ Str q 0 [47, 98] := by
  obtain ⟨p, hp, hs, -, hq⟩ := wash_path_normalises [47, 47, 97, 47, 46, 46, 47, 46, 47, 98, 47] (fun _ => 0)
    (fun _ => 0) rfl (by decide) (show ∀ c ∈ components _, c.length ≤ 15 by decide)
  exact ⟨p, hp, hs, hq⟩

end Wash

section Resolve

variable {g : Geom} {w : View} {m : Mem} {γ : Ghost} {d : Nat} {cs : List (List UInt8)}

/-- `cwd` is what `getcwd` returns; `abs_path` has room for 512 characters. -/
def makeClearAbsPath (cwd : Option (List UInt8)) (path : List UInt8) (finalPath : Buf) : Except Stop Buf :=
  let absPath :=
    if path.head? = some slash then [] else cwd.elim [] fun c => if c = [slash] then c else c ++ [slash]
  if (absPath ++ path).length < Fs.maxPathLen then washPath (absPath ++ path) finalPath else .error .fault

theorem components_join (h : ∀ c ∈ cs, c ≠ [] ∧ slash ∉ c) (path : List UInt8) :
    components (joinPath cs ++ slash :: path) = cs ++ components path := by
  induction cs with
  | nil => exact components_slash path
  | cons c cs ih =>
    obtain ⟨hne, hs⟩ := h c List.mem_cons_self
    have ht : ∃ tail, joinPath cs ++ slash :: path = slash :: tail := by
      cases cs with
      | nil => exact ⟨path, rfl⟩
      | cons c' cs => exact ⟨_, by rw [joinPath_cons]; rfl⟩
    obtain ⟨tail, ht⟩ := ht
    rw [joinPath_cons, List.cons_append, components_slash, List.append_assoc, ht, components_append hne hs,
      ← components_slash, ← ht, ih fun x hx => h x (List.mem_cons_of_mem _ hx)]
    rfl

-- The parent that `..` names is the directory without the last name.
theorem canon_keep {c : List UInt8} {e : Ent} (h : Canon w d cs) (hI : Dirs g w m γ)
    (hl : w.lookup (w.sec d) c = some e) (ht : e.ty = ftDirectory) (hs : slash ∉ c) : Canon w e.ino (keep cs c) := by
  obtain ⟨k, j, he, rfl⟩ := lookup_some hl
  cases hn : e.normal with
  | true =>
    have hd : e.name ≠ dot ∧ e.name ≠ dotdot := by simpa [Ent.normal] using hn
    rw [keep, if_neg hd.2, if_neg hd.1]
    exact h.child he hn ht hs
  | false =>
    have hr := hI.list d (h.isDir hI)
    obtain ⟨rfl, hj⟩ := hr.normal k j e he hn
    obtain rfl | rfl : j = 0 ∨ j = 1 := by omega
    · rw [hr.dot, Option.some.injEq] at he
      subst he
      exact h
    · rw [hr.dotdot, Option.some.injEq] at he
      subst he
      by_cases hd : d = 0
      · subst hd
        rw [hI.root.2, ← Canon.root.unique hI h]
        exact .root
      · obtain ⟨cs', k, j, e, hc, -, -, -, -, rfl⟩ := h.parent hI hd
        rw [keep, if_pos rfl, List.dropLast_concat]
        exact hc

theorem canon_foldl_keep {par par' no : Nat} {cur : Option Nat} {comps : List (List UInt8)}
    (h : Canon w (cur.getD 0) cs) (hI : Dirs g w m γ) (hs : ∀ c ∈ comps, slash ∉ c)
    (hw : w.walk par cur comps = .dir par' no) : Canon w no (comps.foldl keep cs) := by
  induction comps generalizing par cur cs with
  | nil =>
    rw [View.walk, Hit.dir.injEq] at hw
    exact hw.2 ▸ h
  | cons c comps ih =>
    rcases walk_cons w par cur c comps with ⟨-, hw'⟩ | ⟨e, hl, ⟨ht, hw'⟩ | ⟨-, hw'⟩⟩
    · cases hw'.symm.trans hw
    · have hk : Canon w ((some e.ino).getD 0) (keep cs c) := canon_keep h hI hl ht (hs c List.mem_cons_self)
      exact ih hk (fun x hx => hs x (List.mem_cons_of_mem _ hx)) (hw'.symm.trans hw)
    · cases hw'.symm.trans hw

theorem wash_exact (hI : Dirs g w m γ) {path : List UInt8} (habs : path.head? = some slash) (h0 : 0 ∉ path)
    (hshort : Short (components path)) {par no : Nat} (hw : w.walk 0 none (components path) = .dir par no) (buf : Buf) :
    ∃ p ns, washPath path buf = .ok p ∧ Canon w no ns ∧ Str p 0 (cwdOf ns) := by
  obtain ⟨p, hp, hs⟩ := washPath_spec buf habs h0 hshort
  have hr : Canon w ((none : Option Nat).getD 0) [] := .root
  exact ⟨p, _, hp, canon_foldl_keep hr hI (fun c hc => (isName_of_mem_components h0 hc).2.1) hw, hs⟩

/-- The path the shell makes of an argument is the one that `getcwd` gives in the directory to which
the argument leads from the working directory, by way of its `.` and `..` entries. -/
theorem shell_path_exact (hI : Dirs g w m γ) (hd : Canon w d cs) {path : List UInt8} (h0 : 0 ∉ path)
    (hshort : Short (components path)) (hlen : (cwdOf cs).length + path.length + 1 < 512) {par no : Nat}
    (hw : w.walk 0 none ((if path.head? = some slash then [] else cs) ++ components path) = .dir par no) (buf : Buf) :
    ∃ p ns, makeClearAbsPath (some (cwdOf cs)) path buf = .ok p ∧ Canon w no ns ∧ Str p 0 (cwdOf ns) := by
  by_cases habs : path.head? = some slash
  · rw [if_pos habs, List.nil_append] at hw
    rw [makeClearAbsPath, if_pos habs, List.nil_append, if_pos (show path.length < 512 by omega)]
    exact wash_exact hI habs h0 hshort hw buf
  · have hname := hd.name hI
    have hjoin := components_join (fun c hc => ⟨(hname c hc).1.ne, (hname c hc).2.1⟩) path
    have he : (if cwdOf cs = [slash] then cwdOf cs else cwdOf cs ++ [slash]) ++ path = joinPath cs ++ slash :: path := by
      have hroot := cwdOf_eq_slash_iff fun c hc => ⟨(hname c hc).1.ne, (hname c hc).2.1, (hname c hc).1.nul⟩
      by_cases hcs : cs = []
      · rw [if_pos (hroot.2 hcs), hcs]
        rfl
      · rw [if_neg (mt hroot.1 hcs), cwdOf_of_ne_nil hcs, List.append_assoc, List.singleton_append]
    have hfit : (joinPath cs ++ slash :: path).length < 512 := by
      rw [← he]
      split <;> simp only [List.length_append, List.length_singleton] <;> omega
    rw [if_neg habs, ← hjoin] at hw
    rw [makeClearAbsPath, if_neg habs, Option.elim_some, he, if_pos hfit]
    refine wash_exact hI ?_ ?_ ?_ hw buf
    · cases cs with
      | nil => rfl
      | cons c cs => rw [joinPath_cons]; rfl
    · intro hm
      rcases List.mem_append.1 hm with hm | hm
      · obtain ⟨c, hc, hm⟩ := List.mem_flatMap.1 hm
        exact (List.mem_cons.1 hm).elim (by decide) (hname c hc).1.nul
      · exact (List.mem_cons.1 hm).elim (by decide) h0
    · rw [hjoin]
      exact fun c hc => (List.mem_append.1 hc).elim (fun hc => (hname c hc).1.len) (hshort c)

/-- `cd ..` in the root directory stays there. -/
theorem dotdot_of_root : ∃ p ns, makeClearAbsPath (some [slash]) dotdot (fun _ => 0) = .ok p ∧ Str p 0 (cwdOf ns) ∧
    ∃ w, Canon w 0 ns := by
  obtain ⟨w, -, hI⟩ := dirs_mounted
  have hl : w.lookup (w.sec 0) dotdot = some ⟨dotdot, _, ftDirectory⟩ :=
    (hI.list 0 hI.root.1).lookup (hI.list 0 hI.root.1).dotdot
  have hw : w.walk 0 none ((if dotdot.head? = some slash then [] else []) ++ components dotdot) = .dir 0 0 := by
    rw [show (if dotdot.head? = some slash then [] else []) ++ components dotdot = [dotdot] by decide]
    simp only [View.walk, Option.getD_none, hl, hI.root.2]
    rfl
  have hshort : Short (components dotdot) := show ∀ c ∈ components dotdot, c.length ≤ 15 by decide
  obtain ⟨p, ns, hp, hc, hs⟩ := shell_path_exact hI .root (by decide) hshort (by decide) hw fun _ => 0
  exact ⟨p, ns, hp, hs, w, hc⟩

end Resolve

end TrueOs.Shell
