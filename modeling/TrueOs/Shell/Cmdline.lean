import Mathlib.Data.List.Forall2
import TrueOs.Lib.CString

/-! From the command line to the calls of `cmd_execute`, after `shell/shell.c`.  A pointer into
the line is its offset, and `argv` is the memory from the start of the array on: what lies
behind its sixteen cells is another variable. -/

namespace TrueOs.Shell

open Function (update update_self update_of_ne)
open Buf

def maxArgNr : Nat := 16

abbrev Argv : Type := Nat → Option Nat

/-- The result with the line and the memory that the call leaves. -/
structure Parsed where
  argc : Int
  line : Buf
  argv : Argv

def endWord (line : Buf) (next : Nat) : Buf × Nat :=
  if line next ≠ 0 then (update line next 0, next + 1) else (line, next)

def parseLoop (token : UInt8) : (turns : Nat) → (line : Buf) → (argv : Argv) → (next argc : Nat) →
    Option Parsed
  | 0, _, _, _, _ => none
  | turns + 1, line, argv, next, argc => do
    if line next = 0 then
      return ⟨argc, line, argv⟩
    else
      let next ← line.advance (· == token) (turns + 1) next
      if line next = 0 then
        return ⟨argc, line, argv⟩
      else
        let argv := update argv argc (some next)
        let next ← line.advance (fun c => c != 0 && c != token) (turns + 1) next
        let rest := endWord line next
        -- the limit is looked at after the store, and lets seventeen words pass
        if maxArgNr < argc then
          return ⟨-1, rest.1, argv⟩
        else
          parseLoop token turns rest.1 argv rest.2 (argc + 1)

def space : UInt8 := 32

def bar : UInt8 := 124

/-- `turns` bounds each loop; the string is the one at `cmdStr`. -/
def cmdParse (turns : Nat) (line : Buf) (cmdStr : Nat) (argv : Argv) (token : UInt8) : Option Parsed :=
  parseLoop token turns line (fun i => if i < maxArgNr then none else argv i) cmdStr 0

section Parse

variable {token : UInt8} {line line' : Buf} {argv : Argv} {next next' argc turns p : Nat}
  {l l' w : List UInt8}

structure Taken (token : UInt8) (line : Buf) (next : Nat) (l w : List UInt8) (p : Nat) (line' : Buf)
    (next' : Nat) (l' : List UInt8) : Prop where
  words_eq : words token l = w :: words token l'
  word : Str line' p w
  rest : Str line' next' l'
  length_lt : l'.length < l.length
  next_le : next ≤ next'
  reach : next' + l'.length = next + l.length
  line_of_not : ∀ x, x < next ∨ next + l.length ≤ x ∨ line x ≠ token → line' x = line x
  -- the turns to come do not touch the word or its end
  behind : ∀ x ≤ p + w.length, x < next' ∨ line' x ≠ token

theorem Taken.last (h0 : token ≠ 0) {skip : List UInt8} (h : Str line next (skip ++ w)) (hw : w ≠ [])
    (hwords : words token (skip ++ w) = [w]) :
    Taken token line next (skip ++ w) w (next + skip.length) line (next + skip.length + w.length) [] := by
  have hend : Str line (next + skip.length + w.length) [] := by
    apply Str.drop (l := w)
    rw [List.append_nil]
    exact h.drop
  have hpos := List.length_pos_of_ne_nil hw
  exact {
    words_eq := by rw [hwords, words_nil]
    word := h.drop
    rest := hend
    length_lt := by simp only [List.length_append, List.length_nil]; omega
    next_le := by omega
    reach := by simp only [List.length_append, List.length_nil]; omega
    line_of_not := fun _ _ => rfl
    behind := by
      intro x hx
      by_cases hn : x = next + skip.length + w.length
      · exact .inr (by rw [hn, str_nil.mp hend]; exact Ne.symm h0)
      · exact .inl (by omega) }

theorem Taken.cut {skip : List UInt8} (h : Str line next (skip ++ (w ++ token :: l')))
    (hwords : words token (skip ++ (w ++ token :: l')) = w :: words token l') :
    Taken token line next (skip ++ (w ++ token :: l')) w (next + skip.length)
      (update line (next + skip.length + w.length) 0) (next + skip.length + w.length + 1) l' where
  words_eq := hwords
  word := h.drop.cut
  rest := by
    have hrest : Str line (next + skip.length + w.length + 1) l' := (str_cons.mp h.drop.drop).2.2
    exact hrest.of_update (.inl (by omega))
  length_lt := by simp only [List.length_append, List.length_cons]; omega
  next_le := by omega
  reach := by simp only [List.length_append, List.length_cons]; omega
  line_of_not := by
    intro x hx
    apply update_of_ne
    rintro rfl
    have hc := h.drop.char
    simp only [List.length_append, List.length_cons] at hx
    rcases hx with hx | hx | hx
    · omega
    · omega
    · exact hx hc
  behind := fun x hx => .inl (by omega)

theorem parseLoop_turn (argv : Argv) (argc : Nat) (h0 : token ≠ 0) (h : Str line next l) (ht : l.length < turns + 1) :
    words token l = [] ∧ parseLoop token (turns + 1) line argv next argc = some ⟨argc, line, argv⟩ ∨
    ∃ w p line' next' l', Taken token line next l w p line' next' l' ∧
      parseLoop token (turns + 1) line argv next argc =
        if maxArgNr < argc then some ⟨-1, line', update argv argc (some p)⟩
        else parseLoop token turns line' (update argv argc (some p)) next' (argc + 1) := by
  rw [parseLoop]
  by_cases hl : line next = 0
  · have hl' := h.nil_iff.mp hl
    subst hl'
    rw [if_pos hl]
    exact .inl ⟨rfl, rfl⟩
  · have hskip := h.advance (p := (· == token)) (by simp [Ne.symm h0]) ht
    have happ := List.takeWhile_append_dropWhile (p := (· == token)) (l := l)
    have hq := h.dropWhile (· == token)
    have hlen : (l.dropWhile (· == token)).length < turns + 1 :=
      Nat.lt_of_le_of_lt (List.dropWhile_sublist _).length_le ht
    rw [if_neg hl, hskip, Option.bind_eq_bind, Option.bind_some]
    rw [← words_dropWhile l]
    cases hd : l.dropWhile (· == token) with
    | nil =>
      rw [hd] at hq
      rw [if_pos (str_nil.mp hq)]
      exact .inl ⟨rfl, rfl⟩
    | cons c cs =>
      have hc := head_dropWhile_eq hd
      rw [hd] at hq happ hlen
      have hword := hq.advance_word token hlen
      have happ' := List.takeWhile_append_dropWhile (p := (· != token)) (l := c :: cs)
      have hwords : words token l = _ := (words_dropWhile l).symm.trans ((congrArg _ hd).trans (words_takeWhile hc))
      have hrest := hq.dropWhile (· != token)
      have hne : (c :: cs).takeWhile (· != token) ≠ [] := by simp [hc]
      rw [if_neg (by rw [(str_cons.mp hq).1]; exact (str_cons.mp hq).2.1), hword, Option.bind_some]
      refine .inr ?_
      cases hw : (c :: cs).dropWhile (· != token) with
      | nil =>
        rw [hw] at hrest hwords happ'
        rw [List.append_nil] at happ'
        rw [happ'] at hrest hne hwords ⊢
        rw [endWord, if_neg (not_not.mpr (str_nil.mp hrest))]
        rw [← happ] at h hwords
        have hlast := Taken.last h0 h hne hwords
        rw [happ] at hlast
        exact ⟨_, _, _, _, _, hlast, rfl⟩
      | cons t ts =>
        have ht := head_dropWhile_ne hw
        subst ht
        rw [hw] at hrest hwords happ'
        have hcut : line (next + (l.takeWhile (· == t)).length + ((c :: cs).takeWhile (· != t)).length) ≠ 0 := by
          rw [(str_cons.mp hrest).1]
          exact h0
        rw [endWord, if_pos hcut]
        rw [words_sep] at hwords
        rw [← happ'] at happ
        rw [← happ] at h hwords
        have hfirst := Taken.cut h hwords
        rw [happ] at hfirst
        exact ⟨_, _, _, _, _, hfirst, rfl⟩

structure Split (token : UInt8) (line : Buf) (argv : Argv) (next argc : Nat) (l : List UInt8)
    (r : Parsed) : Prop where
  argc_eq : r.argc = if argc + (words token l).length ≤ maxArgNr + 1
    then ((argc + (words token l).length : Nat) : Int) else -1
  word : ∀ i (h : i < (words token l).length), argc + i ≤ maxArgNr + 1 →
    ∃ p, r.argv (argc + i) = some p ∧ Str r.line p ((words token l).get ⟨i, h⟩)
  argv_of_not : ∀ i, i < argc ∨ argc + (words token l).length ≤ i → r.argv i = argv i
  line_of_not : ∀ x, x < next ∨ next + l.length ≤ x ∨ line x ≠ token → r.line x = line x

theorem Split.done (h : words token l = []) (hargc : argc ≤ maxArgNr + 1) :
    Split token line argv next argc l ⟨argc, line, argv⟩ where
  argc_eq := by rw [h, List.length_nil, Nat.add_zero, if_pos hargc]
  word i hi := by simp [h] at hi
  argv_of_not _ _ := rfl
  line_of_not _ _ := rfl

theorem Taken.limit (h : Taken token line next l w p line' next' l') (hargc : maxArgNr < argc)
    (hle : argc ≤ maxArgNr + 1) :
    Split token line argv next argc l ⟨-1, line', update argv argc (some p)⟩ where
  argc_eq := by
    rw [h.words_eq, List.length_cons, if_neg (by omega)]
  word i hi hb := by
    obtain rfl : i = 0 := by omega
    refine ⟨p, update_self .., ?_⟩
    simp only [h.words_eq, List.get_eq_getElem, List.getElem_cons_zero]
    exact h.word
  argv_of_not i hi := by
    rw [h.words_eq, List.length_cons] at hi
    exact update_of_ne (by omega) _ _
  line_of_not := h.line_of_not

theorem Taken.split {r : Parsed} (h : Taken token line next l w p line' next' l')
    (hr : Split token line' (update argv argc (some p)) next' (argc + 1) l' r) :
    Split token line argv next argc l r where
  argc_eq := by
    rw [hr.argc_eq, h.words_eq, List.length_cons, Nat.add_right_comm argc 1]
    rfl
  word i hi hb := by
    simp only [h.words_eq, List.get_eq_getElem]
    cases i with
    | zero =>
      refine ⟨p, ?_, ?_⟩
      · rw [hr.argv_of_not _ (.inl (by omega)), Nat.add_zero, update_self]
      · rw [List.getElem_cons_zero]
        apply h.word.congr
        intro x hx
        apply hr.line_of_not
        exact (h.behind (p + x) (by omega)).imp_right .inr
    | succ i =>
      rw [h.words_eq, List.length_cons] at hi
      obtain ⟨q, hq, hs⟩ := hr.word i (by omega) (by omega)
      refine ⟨q, ?_, hs⟩
      rwa [Nat.add_assoc, Nat.add_comm 1] at hq
  argv_of_not i hi := by
    rw [h.words_eq, List.length_cons] at hi
    rw [hr.argv_of_not i (by omega), update_of_ne (by omega)]
  line_of_not x hx := by
    have hfirst := h.line_of_not x hx
    rw [← hfirst]
    apply hr.line_of_not
    rw [h.reach, hfirst]
    have := h.next_le
    exact hx.imp (by omega) id

theorem parseLoop_split (h0 : token ≠ 0) (h : Str line next l) (ht : l.length < turns)
    (hargc : argc ≤ maxArgNr + 1) :
    ∃ r, parseLoop token turns line argv next argc = some r ∧ Split token line argv next argc l r := by
  induction turns generalizing line argv next argc l with
  | zero => omega
  | succ turns ih =>
    obtain ⟨hw, hr⟩ | ⟨w, p, line', next', l', hk, hr⟩ := parseLoop_turn argv argc h0 h ht
    · exact ⟨_, hr, Split.done hw hargc⟩
    · rw [hr]
      by_cases hlim : maxArgNr < argc
      · rw [if_pos hlim]
        exact ⟨_, rfl, hk.limit hlim hargc⟩
      · rw [if_neg hlim]
        have hlt := hk.length_lt
        have hargc' : argc + 1 ≤ maxArgNr + 1 := by omega
        obtain ⟨r, hr, hs⟩ := ih hk.rest (by omega) hargc'
        exact ⟨r, hr, hk.split hs⟩

theorem cmdParse_split (argv : Argv) (h0 : token ≠ 0) (h : Str line next l) (ht : l.length < turns) :
    ∃ r, cmdParse turns line next argv token = some r ∧
      Split token line (fun i => if i < maxArgNr then none else argv i) next 0 l r :=
  parseLoop_split h0 h ht (Nat.zero_le _)

/-- What `cmd_parse` is for, on the string `l` at `cmdStr`.  A store behind the array shows as
a change, since the memory there is arbitrary. -/
def SplitsWords (turns : Nat) (line : Buf) (cmdStr : Nat) (token : UInt8) (l : List UInt8) : Prop :=
  ∀ argv, ∃ r, cmdParse turns line cmdStr argv token = some r ∧
    ((words token l).length ≤ maxArgNr → r.argc = (words token l).length ∧
      (∀ i (h : i < (words token l).length),
        ∃ p, r.argv i = some p ∧ Str r.line p ((words token l).get ⟨i, h⟩)) ∧
      ∀ i, (words token l).length ≤ i → i < maxArgNr → r.argv i = none) ∧
    (maxArgNr < (words token l).length → r.argc = -1) ∧
    ∀ i, maxArgNr ≤ i → r.argv i = argv i

theorem cmd_parse_splits_iff {token : UInt8} {line : Buf} {cmdStr turns : Nat} {l : List UInt8}
    (h0 : token ≠ 0) (h : Str line cmdStr l) (ht : l.length < turns) :
    SplitsWords turns line cmdStr token l ↔ (words token l).length ≤ maxArgNr := by
  constructor
  · intro hs
    by_contra hlen
    -- the seventeenth word goes to the cell behind the array
    obtain ⟨r, hr, -, -, hbehind⟩ := hs (fun _ => none)
    obtain ⟨r', hr', hsplit⟩ := cmdParse_split (fun _ => none) h0 h ht
    obtain rfl : r = r' := Option.some.inj (hr.symm.trans hr')
    obtain ⟨p, hp, -⟩ := hsplit.word maxArgNr (by omega) (by omega)
    rw [Nat.zero_add, hbehind _ (Nat.le_refl _)] at hp
    cases hp
  · intro hlen argv
    obtain ⟨r, hr, hs⟩ := cmdParse_split argv h0 h ht
    refine ⟨r, hr, fun _ => ⟨?_, ?_, ?_⟩, fun hlt => absurd hlen (by omega), ?_⟩
    · rw [hs.argc_eq, Nat.zero_add, if_pos (by omega)]
    · intro i hi
      have := hs.word i hi (by omega)
      rwa [Nat.zero_add] at this
    · intro i hi hlt
      rw [hs.argv_of_not i (.inr (by omega)), if_pos hlt]
    · intro i hi
      rw [hs.argv_of_not i (.inr (by omega)), if_neg (by omega)]

/-- `ls -l`. -/
theorem cmd_parse_splits_ls : SplitsWords 512 (ofList [108, 115, 32, 45, 108]) 0 space [108, 115, 32, 45, 108] :=
  (cmd_parse_splits_iff (by decide) ⟨by decide, by decide⟩ (by decide)).mpr (by decide)

def seventeen : List UInt8 := [97, 32, 97, 32, 97, 32, 97, 32, 97, 32, 97, 32, 97, 32, 97, 32, 97, 32, 97, 32,
  97, 32, 97, 32, 97, 32, 97, 32, 97, 32, 97, 32, 97]

theorem seventeen_words_accepted : (words space seventeen).length = 17 ∧
    (cmdParse 512 (ofList seventeen) 0 (fun _ => none) space).map (fun r => (r.argc, r.argv 16)) =
      some (17, some 32) := by
  decide

end Parse

section Calls

/-- The commands before the last one, which the first `|` has been found to follow: each is cut
off, parsed and run.  What is left are the line, the arguments, and the last command. -/
def middleCmds : (turns : Nat) → (line : Buf) → (argv : Argv) → (eachCmd : Nat) →
    Option (List Parsed × Buf × Argv × Nat)
  | 0, _, _, _ => none
  | turns + 1, line, argv, eachCmd => do
    match ← line.strchr (turns + 1) eachCmd bar with
    | none => return ([], line, argv, eachCmd)
    | some pipeSymbol =>
      let r ← cmdParse (turns + 1) (update line pipeSymbol 0) eachCmd argv space
      let rest ← middleCmds turns r.line r.argv (pipeSymbol + 1)
      return (r :: rest.1, rest.2)

/-- The calls of `cmd_execute` that `my_shell` makes for the line that `readline` has left.  The
pipe around them is not looked at here. -/
def shellCalls (turns : Nat) (line : Buf) (argv : Argv) : Option (List Parsed) := do
  if line 0 = 0 then
    return []
  else
    match ← line.strchr turns 0 bar with
    | some pipeSymbol =>
      let first ← cmdParse turns (update line pipeSymbol 0) 0 argv space
      let (middle, line, argv, eachCmd) ← middleCmds turns first.line first.argv (pipeSymbol + 1)
      let last ← cmdParse turns line eachCmd argv space
      return first :: (middle ++ [last])
    | none =>
      let r ← cmdParse turns line 0 argv space
      -- too many arguments
      if r.argc = -1 then return [] else return [r]

/-- A call of `cmd_execute` that names a command. -/
def Parsed.Real (r : Parsed) : Prop := 1 ≤ r.argc ∧ r.argc ≤ maxArgNr ∧ r.argv 0 ≠ none

def Runnable (seg : List UInt8) : Prop :=
  1 ≤ (words space seg).length ∧ (words space seg).length ≤ maxArgNr

instance : DecidablePred Runnable := fun _ => inferInstanceAs (Decidable (_ ∧ _))

/-- Lines for which every call is of a real command: the empty one, one that has too many words,
and one with a command in each part. -/
def Answered (l : List UInt8) : Prop :=
  l = [] ∨ (bar ∉ l ∧ maxArgNr + 1 < (words space l).length) ∨ ∀ seg ∈ l.splitOn bar, Runnable seg

variable {line : Buf} {argv : Argv} {next turns : Nat} {l l' seg : List UInt8} {r : Parsed}

theorem Split.real_iff (h : Split space line (fun i => if i < maxArgNr then none else argv i) next 0 l r) :
    r.Real ↔ Runnable l := by
  have hargc := h.argc_eq
  rw [Nat.zero_add] at hargc
  constructor
  · rintro ⟨h1, h2, -⟩
    constructor
    · split at hargc <;> omega
    · split at hargc <;> omega
  · rintro ⟨h1, h2⟩
    rw [if_pos (by omega)] at hargc
    obtain ⟨p, hp, -⟩ := h.word 0 (by omega) (by omega)
    refine ⟨by omega, by omega, ?_⟩
    rw [hp]
    exact Option.some_ne_none p

theorem cmdParse_cut (argv : Argv) (h : Str line next (seg ++ bar :: l')) (ht : seg.length < turns) :
    ∃ r, cmdParse turns (update line (next + seg.length) 0) next argv space = some r ∧
      (r.Real ↔ Runnable seg) ∧ Str r.line (next + seg.length + 1) l' := by
  obtain ⟨r, hr, hs⟩ := cmdParse_split argv (by decide : space ≠ 0) h.cut ht
  refine ⟨r, hr, hs.real_iff, ?_⟩
  have hrest : Str line (next + seg.length + 1) l' := (str_cons.mp h.drop).2.2
  have hrest' : Str (update line (next + seg.length) 0) _ l' := hrest.of_update (.inl (by omega))
  apply hrest'.congr
  intro i hi
  exact hs.line_of_not _ (.inr (.inl (by omega)))

theorem middleCmds_spec (argv : Argv) (h : Str line next l) (ht : l.length < turns) :
    ∃ calls line' argv' last seg, middleCmds turns line argv next = some (calls, line', argv', last) ∧
      Str line' last seg ∧ seg.length ≤ l.length ∧
      ((∀ c ∈ calls, c.Real) ∧ Runnable seg ↔ ∀ s ∈ l.splitOn bar, Runnable s) := by
  induction turns generalizing line argv next l with
  | zero => omega
  | succ turns ih =>
    rw [middleCmds]
    by_cases hb : bar ∈ l
    · obtain ⟨seg, l', rfl, hseg⟩ := List.eq_append_cons_of_mem hb
      rw [h.strchr_append hseg ht]
      rw [List.length_append, List.length_cons] at ht
      have hlt : seg.length < turns + 1 := by omega
      obtain ⟨r, hr, hreal, hrest⟩ := cmdParse_cut argv h hlt
      obtain ⟨calls, line', argv', last, s, hm, hs, hlen, hall⟩ := ih r.argv hrest (by omega)
      refine ⟨r :: calls, line', argv', last, s, ?_, hs, ?_, ?_⟩
      · simp [hr, hm]
      · rw [List.length_append, List.length_cons]
        omega
      · rw [List.splitOn_append_cons_self_of_not_mem hseg, List.forall_mem_cons, List.forall_mem_cons, hreal,
          and_assoc, hall]
    · rw [h.strchr_of_not_mem hb ht (by decide)]
      refine ⟨[], line, argv, next, l, rfl, h, Nat.le_refl _, ?_⟩
      rw [List.splitOn_eq_singleton hb]
      simp

theorem shell_calls_real_iff {line : Buf} {turns : Nat} {l : List UInt8} (argv : Argv)
    (h : Str line 0 l) (ht : l.length < turns) :
    ∃ calls, shellCalls turns line argv = some calls ∧ ((∀ c ∈ calls, c.Real) ↔ Answered l) := by
  rw [shellCalls, Answered]
  by_cases hl : line 0 = 0
  · rw [if_pos hl]
    exact ⟨[], rfl, iff_of_true (by simp) (.inl (h.nil_iff.mp hl))⟩
  · have hne : l ≠ [] := fun he => hl (h.nil_iff.mpr he)
    rw [if_neg hl]
    by_cases hb : bar ∈ l
    · obtain ⟨seg, l', rfl, hseg⟩ := List.eq_append_cons_of_mem hb
      rw [h.strchr_append hseg ht]
      rw [List.length_append, List.length_cons] at ht
      have hlt : seg.length < turns := by omega
      obtain ⟨first, hfirst, hreal, hrest⟩ := cmdParse_cut argv h hlt
      have hlt' : l'.length < turns := by omega
      obtain ⟨middle, line', argv', each, s, hm, hs, hlen, hall⟩ := middleCmds_spec first.argv hrest hlt'
      obtain ⟨last, hlast, hsplit⟩ := cmdParse_split argv' (by decide : space ≠ 0) hs
        (Nat.lt_of_le_of_lt hlen hlt')
      rw [Nat.zero_add] at hfirst hm
      refine ⟨first :: (middle ++ [last]), by simp [hfirst, hm, hlast], ?_⟩
      rw [List.splitOn_append_cons_self_of_not_mem hseg, List.forall_mem_cons, List.forall_mem_append,
        List.forall_mem_singleton, List.forall_mem_cons, hreal, hsplit.real_iff, hall]
      simp [hne]
    · rw [h.strchr_of_not_mem hb ht (by decide), List.splitOn_eq_singleton hb, List.forall_mem_singleton]
      obtain ⟨r, hr, hs⟩ := cmdParse_split argv (by decide : space ≠ 0) h ht
      by_cases hlim : r.argc = -1
      · refine ⟨[], by simp [hr, hlim], iff_of_true (by simp) (.inr (.inl ⟨hb, ?_⟩))⟩
        have := hs.argc_eq
        split at this <;> omega
      · refine ⟨[r], by simp [hr, hlim], ?_⟩
        rw [List.forall_mem_singleton, hs.real_iff]
        have := hs.argc_eq
        rw [Nat.zero_add] at this
        simp only [hne, hb, not_false_eq_true, true_and, false_or]
        refine ⟨.inr, fun ho => ho.resolve_left fun hgt => hlim ?_⟩
        rw [this, if_neg (by omega)]

/-- `ls|cat f`. -/
theorem shell_calls_ls_cat : ∃ calls,
    shellCalls 512 (ofList [108, 115, 124, 99, 97, 116, 32, 102]) (fun _ => none) = some calls ∧
      ∀ c ∈ calls, c.Real := by
  have hline : Str (ofList [108, 115, 124, 99, 97, 116, 32, 102]) 0 [108, 115, 124, 99, 97, 116, 32, 102] :=
    ⟨by decide, by decide⟩
  obtain ⟨calls, hc, hall⟩ := shell_calls_real_iff (fun _ => none) hline (by decide : 8 < 512)
  exact ⟨calls, hc, hall.mpr (.inr (.inr (by decide)))⟩

/-- For a line of one space `cmd_execute` is called without a command. -/
theorem blank_line_runs : (shellCalls 512 (ofList [32]) (fun _ => none)).map
    (List.map fun r => (r.argc, r.argv 0)) = some [(0, none)] := by
  decide

end Calls

end TrueOs.Shell
