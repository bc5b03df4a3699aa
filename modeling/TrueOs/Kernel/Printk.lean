import TrueOs.Fs.Format

/-! `lib/stdio.c` and `lib/kernel/printk.c`: the format interpreter that every byte for the
screen goes through. -/

namespace TrueOs.Printk

open Prog Fs

def percent : UInt8 := 0x25

/-- What `va_arg` finds: the words on the stack behind the format, and the bytes they may
point to. -/
structure Args where
  word : Nat → Nat
  mem : Nat → UInt8

def digit (m : Nat) : UInt8 := if m < 10 then .ofNat (m + 0x30) else .ofNat (m - 10 + 0x41)

/-- Writes the digits of `value`, the last one first in the recursion. -/
def itoa (value base : Nat) : List UInt8 :=
  if _h : 1 < base ∧ value / base ≠ 0 then
    itoa (value / base) base ++ [digit (value % base)]
  else
    [digit (value % base)]
termination_by value
decreasing_by
  refine Nat.div_lt_self (Nat.pos_of_ne_zero ?_) _h.1
  rintro rfl
  exact _h.2 (Nat.zero_div base)

/-- `%d`: a word whose sign bit is set is negated. -/
def decimal (argInt : Nat) : List UInt8 :=
  if 2 ^ 31 ≤ argInt then 0x2D :: itoa (2 ^ 32 - argInt) 10 else itoa argInt 10

def strAt (mem : Nat → UInt8) : (left p : Nat) → Option (List UInt8)
  | 0, _ => none
  | left + 1, p => if mem p = 0 then some [] else (strAt mem left (p + 1)).map (mem p :: ·)

/-- The bytes stored to `str`.  A letter that is no conversion is looked at again, without
its percent sign.  `none`: the copy of a string runs past the caller's 1024 bytes. -/
def vsprintf (a : Args) : (format : List UInt8) → (ap : Nat) → Option (List UInt8)
  | [], _ => some []
  | [c], _ => if c ≠ percent then some [c] else some []
  | c :: d :: rest, ap =>
    if c ≠ percent then
      (vsprintf a (d :: rest) ap).map (c :: ·)
    else if d = 0x73 then
      (strAt a.mem 1024 (a.word ap)).bind (fun s => (vsprintf a rest (ap + 1)).map (s ++ ·))
    else if d = 0x63 then
      (vsprintf a rest (ap + 1)).map (UInt8.ofNat (a.word ap) :: ·)
    else if d = 0x64 then
      (vsprintf a rest (ap + 1)).map (decimal (a.word ap) ++ ·)
    else if d = 0x78 then
      (vsprintf a rest (ap + 1)).map (itoa (a.word ap) 16 ++ ·)
    else
      vsprintf a (d :: rest) ap

def cstr (s : List UInt8) : List UInt8 := s.takeWhile (· ≠ 0)

/-- What `console_put_str` is given. -/
def printk (a : Args) (format : List UInt8) : Prog Fs Buf (List UInt8) :=
  match vsprintf a (cstr format) 0 with
  | none => halt .fault
  | some str => if str.length < 1024 then return cstr str else halt .fault

/-- `sys_write` to standard output: the result, and what goes to the screen. -/
def sysWriteStdout (a : Args) (cur : Nat) (buf : Buf) (count : Nat) : Prog Fs Buf (Int × List UInt8) := do
  if ← isPipe cur 1 then
    return (← pipeWrite cur 1 buf count, [])
  else if count < 1024 then
    let str ← printk a ((List.range count).map buf)
    return (count, str)
  else
    halt .fault

section Vsprintf

theorem vsprintf_plain (a : Args) (ap : Nat) {format : List UInt8} (h : percent ∉ format) :
    vsprintf a format ap = some format := by
  induction format with
  | nil => rfl
  | cons c rest ih =>
    have hc : percent ≠ c := List.ne_of_not_mem_cons h
    have hrest : percent ∉ rest := List.not_mem_of_not_mem_cons h
    cases rest with
    | nil => rw [vsprintf, if_pos hc.symm]
    | cons d rest => rw [vsprintf, if_pos hc.symm, ih hrest, Option.map_some]

def zeros : Args := ⟨fun _ => 0, fun _ => 0⟩

theorem itoa_zero (base : Nat) : itoa 0 base = [0x30] := by
  rw [itoa, dif_neg (by simp), Nat.zero_mod]
  rfl

theorem vsprintf_zeros (format : List UInt8) (ap : Nat) : ∃ str, vsprintf zeros format ap = some str ∧
    str.length ≤ format.length ∧ percent ∉ str := by
  induction format, ap using vsprintf.induct with
  | case1 ap => exact ⟨[], rfl, le_rfl, List.not_mem_nil⟩
  | case2 ap c hc => exact ⟨[c], by rw [vsprintf, if_pos hc], le_rfl, by simpa using hc.symm⟩
  | case3 ap c hc => exact ⟨[], by rw [vsprintf, if_neg hc], by simp, List.not_mem_nil⟩
  | case4 c d rest ap hc ih =>
    obtain ⟨str, hstr, hlen, hmem⟩ := ih
    refine ⟨c :: str, by rw [vsprintf, if_pos hc, hstr, Option.map_some], by simpa using hlen, ?_⟩
    simpa using ⟨hc.symm, hmem⟩
  | case5 c rest ap hc ih =>
    obtain ⟨str, hstr, hlen, hmem⟩ := ih
    refine ⟨str, ?_, by simp only [List.length_cons]; omega, hmem⟩
    have hs : strAt zeros.mem 1024 (zeros.word ap) = some [] := rfl
    rw [vsprintf, if_neg hc, if_pos rfl, hs, Option.bind_some, hstr, Option.map_some, List.nil_append]
  | case6 c rest ap hc h1 ih =>
    obtain ⟨str, hstr, hlen, hmem⟩ := ih
    refine ⟨0 :: str, ?_, by simp only [List.length_cons]; omega, ?_⟩
    · rw [vsprintf, if_neg hc, if_neg h1, if_pos rfl, hstr]
      rfl
    · simpa using ⟨by decide, hmem⟩
  | case7 c rest ap hc h1 h2 ih =>
    obtain ⟨str, hstr, hlen, hmem⟩ := ih
    refine ⟨0x30 :: str, ?_, by simp only [List.length_cons]; omega, ?_⟩
    · have hdec : decimal (zeros.word ap) = [0x30] := itoa_zero 10
      rw [vsprintf, if_neg hc, if_neg h1, if_neg h2, if_pos rfl, hstr, Option.map_some, hdec]
      rfl
    · simpa using ⟨by decide, hmem⟩
  | case8 c rest ap hc h1 h2 h3 ih =>
    obtain ⟨str, hstr, hlen, hmem⟩ := ih
    refine ⟨0x30 :: str, ?_, by simp only [List.length_cons]; omega, ?_⟩
    · have hhex : itoa (zeros.word ap) 16 = [0x30] := itoa_zero 16
      rw [vsprintf, if_neg hc, if_neg h1, if_neg h2, if_neg h3, if_pos rfl, hstr, Option.map_some, hhex]
      rfl
    · simpa using ⟨by decide, hmem⟩
  | case9 c d rest ap hc h1 h2 h3 h4 ih =>
    obtain ⟨str, hstr, hlen, hmem⟩ := ih
    refine ⟨str, ?_, by simp only [List.length_cons] at hlen ⊢; omega, hmem⟩
    rw [vsprintf, if_neg hc, if_neg h1, if_neg h2, if_neg h3, if_neg h4, hstr]

end Vsprintf

section Stdout

variable {s : Fs} {cur count : Nat} {buf : Buf}

theorem cstr_of_not_mem {str : List UInt8} (h : 0 ∉ str) : cstr str = str := by
  induction str with
  | nil => rfl
  | cons c str ih =>
    have hc : 0 ≠ c := List.ne_of_not_mem_cons h
    rw [cstr, List.takeWhile_cons, if_pos (decide_eq_true hc.symm)]
    exact congrArg (c :: ·) (ih (List.not_mem_of_not_mem_cons h))

theorem sysWriteStdout_run (a : Args) (hout : s.mem.fdTable cur 1 = 1) (hpipe : (s.mem.fileTable 1).fdFlag ≠ pipeFlag)
    (hcount : count ≤ 1023) {str : List UInt8}
    (hstr : vsprintf a (cstr ((List.range count).map buf)) 0 = some str) (hlen : str.length ≤ 1023) :
    ((sysWriteStdout a cur buf count).on s).run = .ok ((count, cstr str), s) := by
  have hnot : (isPipe cur 1).on s = .check true (.done false s) := by
    simp [isPipe, fdLocal2Global, Res.bind, hout, hpipe, maxFilesOpenPerProc, maxFileOpen, Prog.assert]
  have hprint : (printk a ((List.range count).map buf)).on s = .done (cstr str) s := by
    rw [printk, hstr]
    dsimp only
    rw [if_pos (by omega), pure_on]
  rw [sysWriteStdout, bind_on, hnot]
  simp only [Res.bind, Bool.false_eq_true, if_false, if_pos (Nat.lt_succ_of_le hcount), bind_on, hprint, pure_on]
  rfl

theorem mem_bytes {c : UInt8} : c ∈ (List.range count).map buf ↔ ∃ i < count, buf i = c := by
  simp only [List.mem_map, List.mem_range]

/-- The screen shows the buffer, whatever is on the stack, unless a percent sign is in it. -/
theorem stdout_unchanged_iff (hout : s.mem.fdTable cur 1 = 1) (hpipe : (s.mem.fileTable 1).fdFlag ≠ pipeFlag)
    (hcount : count ≤ 1023) (hnul : ∀ i < count, buf i ≠ 0) :
    (∀ a, ((sysWriteStdout a cur buf count).on s).run = .ok ((count, (List.range count).map buf), s)) ↔
      ∀ i < count, buf i ≠ percent := by
  have hcstr : cstr ((List.range count).map buf) = (List.range count).map buf := by
    refine cstr_of_not_mem fun hm => ?_
    obtain ⟨i, hi, hb⟩ := mem_bytes.mp hm
    exact hnul i hi hb
  have hlen : ((List.range count).map buf).length = count := by
    rw [List.length_map, List.length_range]
  constructor
  · intro h i hi hb
    obtain ⟨str, hstr, hle, hmem⟩ := vsprintf_zeros ((List.range count).map buf) 0
    have hrun := sysWriteStdout_run zeros hout hpipe hcount (hcstr.symm ▸ hstr) (by omega)
    rw [h zeros] at hrun
    have hsame : (List.range count).map buf = cstr str := congrArg (fun r => r.2) (congrArg Prod.fst (Except.ok.inj hrun))
    have hin : percent ∈ cstr str := hsame ▸ mem_bytes.mpr ⟨i, hi, hb⟩
    exact hmem ((List.takeWhile_prefix _).subset hin)
  · intro h a
    have hplain : percent ∉ (List.range count).map buf := by
      intro hm
      obtain ⟨i, hi, hb⟩ := mem_bytes.mp hm
      exact h i hi hb
    have hprint : vsprintf a (cstr ((List.range count).map buf)) 0 = some ((List.range count).map buf) := by
      rw [hcstr, vsprintf_plain a 0 hplain]
    have hrun := sysWriteStdout_run a hout hpipe hcount hprint (by omega)
    rwa [hcstr] at hrun

section Example

def fresh : Fs := bootState 63 1000 (fun _ => 0)

theorem fresh_stdout : fresh.mem.fdTable 0 1 = 1 ∧ (fresh.mem.fileTable 1).fdFlag ≠ pipeFlag :=
  ⟨rfl, by decide⟩

/-- `write(1, "hi", 2)`. -/
theorem plain_text_unchanged : ((sysWriteStdout zeros 0 (fun i => if i = 0 then 0x68 else 0x69) 2).on fresh).run =
    .ok ((2, [0x68, 0x69]), fresh) :=
  (stdout_unchanged_iff fresh_stdout.1 fresh_stdout.2 (by omega) (fun i _ => by split <;> decide)).mpr
    (fun i _ => by split <;> decide) zeros

/-- `write(1, "%", 1)` shows nothing. -/
theorem percent_swallowed : ((sysWriteStdout zeros 0 (fun _ => percent) 1).on fresh).run = .ok ((1, []), fresh) ∧
    [] ≠ (List.range 1).map (fun _ => percent) := by
  have hstr : vsprintf zeros (cstr ((List.range 1).map (fun _ => percent))) 0 = some [] := by decide
  exact ⟨sysWriteStdout_run zeros fresh_stdout.1 fresh_stdout.2 (by omega) hstr (by decide), by decide⟩

end Example

end Stdout

end TrueOs.Printk
