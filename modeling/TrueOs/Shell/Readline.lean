import TrueOs.Lib.CString

/-! `readline` of `shell/shell.c`, which edits the line in the buffer that it reads into.  Its
output is left out. -/

namespace TrueOs.Shell

open Function (update update_self update_of_ne)
open Buf

def maxPathLen : Nat := 512

def newline : UInt8 := 10

def carriage : UInt8 := 13

def backspace : UInt8 := 8

/-- `'l' - 'a'`. -/
def ctrlL : UInt8 := 11

/-- `'u' - 'a'`. -/
def ctrlU : UInt8 := 20

/-- `while (buf != pos) *(pos--) = 0`, which leaves the first cell. -/
def clearBack (buf : Buf) : (pos : Nat) → Buf
  | 0 => buf
  | pos + 1 => clearBack (update buf (pos + 1) 0) pos

/-- Reads the keys that come one after the other; without a key it waits.  `cmd_line` is the
buffer itself, and the keys that are not read stay in the queue. -/
def readlineLoop (count : Nat) : (keys : List UInt8) → (buf : Buf) → (pos : Nat) →
    Option (Buf × List UInt8)
  | [], _, _ => none
  | key :: keys, buf, pos =>
    -- the key is stored before the cursor is compared with the size
    let buf := update buf pos key
    if pos < count then
      if key = newline ∨ key = carriage then
        some (update buf pos 0, keys)
      else if key = backspace then
        if buf 0 ≠ backspace then
          readlineLoop count keys buf (pos - 1)
        else
          readlineLoop count keys buf pos
      else if key = ctrlL then
        readlineLoop count keys (update buf pos 0) pos
      else if key = ctrlU then
        readlineLoop count keys (clearBack buf pos) 0
      else
        readlineLoop count keys buf (pos + 1)
    else
      some (buf, keys)

def readline (keys : List UInt8) (buf : Buf) (count : Nat) : Option (Buf × List UInt8) :=
  readlineLoop count keys buf 0

def edit (line : List UInt8) (key : UInt8) : List UInt8 :=
  if key = backspace then line.dropLast
  else if key = ctrlU then []
  else if key = ctrlL then line
  else line ++ [key]

def edited (keys : List UInt8) : List UInt8 := keys.foldl edit []

structure Pending (buf : Buf) (pos : Nat) (line : List UInt8) : Prop where
  str : Str (update buf pos 0) 0 line
  pos_eq : pos = line.length
  no_backspace : backspace ∉ line

namespace Pending

variable {buf : Buf} {pos : Nat} {line : List UInt8}

theorem empty (buf : Buf) : Pending buf 0 [] :=
  ⟨str_nil.mpr (update_self ..), rfl, List.not_mem_nil⟩

theorem store (h : Pending buf pos line) (v : UInt8) : Pending (update buf pos v) pos line :=
  ⟨by rw [Function.update_idem]; exact h.str, h.pos_eq, h.no_backspace⟩

theorem append (h : Pending buf pos line) {key : UInt8} (h0 : key ≠ 0) (hb : key ≠ backspace) :
    Pending (update buf pos key) (pos + 1) (line ++ [key]) := by
  refine ⟨?_, by simp [h.pos_eq], by simp [h.no_backspace, Ne.symm hb]⟩
  have hs := h.str.snoc h0
  rw [Nat.zero_add, ← h.pos_eq, Function.update_idem] at hs
  exact hs

theorem first (h : Pending buf pos line) (hne : line ≠ []) : buf 0 ≠ backspace := by
  obtain ⟨c, cs, rfl⟩ := List.exists_cons_of_ne_nil hne
  have hc := (str_cons.mp h.str).1
  rw [update_of_ne (by rw [h.pos_eq]; simp)] at hc
  rw [hc]
  exact fun he => h.no_backspace (he ▸ List.mem_cons_self)

theorem dropLast (h : Pending buf pos line) : Pending buf (pos - 1) line.dropLast := by
  refine ⟨?_, by simp [h.pos_eq], fun hm => h.no_backspace (List.mem_of_mem_dropLast hm)⟩
  rcases List.eq_nil_or_concat' line with rfl | ⟨l, c, rfl⟩
  · rw [show pos - 1 = pos by simp [h.pos_eq]]
    exact h.str
  · have hs := h.str.cut
    have hp : pos = l.length + 1 := by simpa using h.pos_eq
    rw [List.dropLast_concat, hp, Nat.add_sub_cancel]
    apply hs.congr
    intro i hi
    by_cases hl : i = l.length
    · simp [hl]
    · rw [update_of_ne (by omega), update_of_ne (by omega),
        update_of_ne (by omega)]

end Pending

theorem readlineLoop_key {count pos : Nat} {key : UInt8} (keys : List UInt8) {buf : Buf}
    {line : List UInt8} (h : Pending buf pos line) (hlen : line.length < count)
    (hk : key ≠ 0 ∧ key ≠ newline ∧ key ≠ carriage) :
    ∃ buf' pos', Pending buf' pos' (edit line key) ∧
      readlineLoop count (key :: keys) buf pos = readlineLoop count keys buf' pos' := by
  obtain ⟨h0, hn, hc⟩ := hk
  rw [readlineLoop, if_pos (h.pos_eq ▸ hlen), if_neg (not_or.mpr ⟨hn, hc⟩), edit]
  by_cases hb : key = backspace
  · rw [if_pos hb, if_pos hb]
    by_cases hl : line = []
    · -- the key itself has gone to the first cell
      have hp : pos = 0 := by rw [h.pos_eq, hl]; rfl
      refine ⟨_, _, ?_, if_neg (not_not.mpr (by rw [hp, update_self, hb]))⟩
      rw [hl, List.dropLast_nil, ← hl]
      exact h.store key
    · exact ⟨_, _, (h.store key).dropLast, if_pos ((h.store key).first hl)⟩
  · rw [if_neg hb, if_neg hb]
    by_cases hl : key = ctrlL
    · rw [if_pos hl, if_neg (by rw [hl]; decide), if_pos hl]
      exact ⟨_, _, (h.store key).store 0, rfl⟩
    · rw [if_neg hl, if_neg hl]
      by_cases hu : key = ctrlU
      · rw [if_pos hu, if_pos hu]
        exact ⟨_, _, Pending.empty _, rfl⟩
      · rw [if_neg hu, if_neg hu]
        exact ⟨_, _, h.append h0 hb, rfl⟩

theorem readlineLoop_edits {count pos : Nat} {keys rest : List UInt8} {key : UInt8} {buf : Buf}
    {line : List UInt8} (h : Pending buf pos line)
    (hk : ∀ k ∈ keys, k ≠ 0 ∧ k ≠ newline ∧ k ≠ carriage) (he : key = newline ∨ key = carriage)
    (hlen : ∀ n ≤ keys.length, ((keys.take n).foldl edit line).length < count) :
    ∃ buf', readlineLoop count (keys ++ key :: rest) buf pos = some (buf', rest) ∧
      Str buf' 0 (keys.foldl edit line) := by
  induction keys generalizing buf pos line with
  | nil =>
    have hl : line.length < count := hlen 0 (Nat.le_refl 0)
    rw [List.nil_append, readlineLoop, if_pos (h.pos_eq ▸ hl), if_pos he, Function.update_idem]
    exact ⟨_, rfl, h.str⟩
  | cons k ks ih =>
    have hl : line.length < count := hlen 0 (Nat.zero_le _)
    obtain ⟨buf₁, pos₁, hp, hr⟩ := readlineLoop_key (ks ++ key :: rest) h hl (hk k List.mem_cons_self)
    rw [List.cons_append, hr]
    exact ih hp (fun x hx => hk x (List.mem_cons_of_mem _ hx)) fun n hn =>
      hlen (n + 1) (Nat.succ_le_succ hn)

/-- `readline` is a line editor. -/
theorem readline_edits (keys rest : List UInt8) (key : UInt8) (buf : Buf)
    (hk : ∀ k ∈ keys, k ≠ 0 ∧ k ≠ newline ∧ k ≠ carriage) (he : key = newline ∨ key = carriage)
    (hlen : ∀ n ≤ keys.length, (edited (keys.take n)).length < maxPathLen) :
    ∃ buf', readline (keys ++ key :: rest) buf maxPathLen = some (buf', rest) ∧
      Str buf' 0 (edited keys) :=
  readlineLoop_edits (Pending.empty buf) hk he hlen

/-- `x`, ctrl+u, backspace, `l`, `a`, backspace, ctrl+l and `s` make `ls`. -/
theorem readline_edits_ls : ∃ buf', readline [120, 20, 8, 108, 97, 8, 11, 115, 13] (fun _ => 0)
    maxPathLen = some (buf', []) ∧ Str buf' 0 [108, 115] :=
  readline_edits [120, 20, 8, 108, 97, 8, 11, 115] [] carriage (fun _ => 0) (by decide +kernel)
    (.inr rfl) (by decide)

end TrueOs.Shell
