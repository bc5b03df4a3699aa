import TrueOs.Kernel.Stdio

/-! `put_int` of `lib/kernel/print.s`: eight characters in a buffer, printed behind the leading zeros. -/

namespace TrueOs.PutInt

open Function (update update_self update_of_ne)
open Fs (add32 sub32 int32)
open Printk (digit itoa)

def hexChar (edx : Nat) : UInt8 :=
  if 9 < edx then .ofNat (add32 (sub32 edx 10) 0x41) else .ofNat (add32 edx 0x30)

/-- `.16based_4bits`: `loop` counts `ecx` down; the memory and `edi` behind it. -/
def based4bits (buffer : Nat) : (ecx : Nat) → Buf → (eax edi : Nat) → Buf × Nat
  | 0, m, _, edi => (m, edi)
  | ecx + 1, m, eax, edi =>
    based4bits buffer ecx (update m (add32 buffer edi) (hexChar (eax &&& 0xF))) (eax >>> 4) (sub32 edi 1)

/-- `cl` and `edi` at `.put_each_num`. -/
def skipPrefix0 (buffer : Nat) (m : Buf) : (turns : Nat) → (edi : Nat) → Option (UInt8 × Nat)
  | 0, _ => none
  | turns + 1, edi =>
    if edi = 8 then some (0x30, edi)
    else
      let cl := m (add32 buffer edi)
      let edi := add32 edi 1
      if cl = 0x30 then skipPrefix0 buffer m turns edi else some (cl, sub32 edi 1)

/-- The characters that `put_char` is called with; it saves the registers. -/
def putEachNum (buffer : Nat) (m : Buf) : (turns : Nat) → (cl : UInt8) → (edi : Nat) → Option (List UInt8)
  | 0, _, _ => none
  | turns + 1, cl, edi =>
    let edi := add32 edi 1
    if int32 edi < 8 then (putEachNum buffer m turns (m (add32 buffer edi)) edi).map (cl :: ·) else some [cl]

/-- Neither of the last two loops is given more than nine turns. -/
def putInt (buffer : Nat) (m : Buf) (num : Nat) : Option (List UInt8) :=
  let r := based4bits buffer 8 m num 7
  (skipPrefix0 buffer r.1 9 (add32 r.2 1)).bind fun c => putEachNum buffer r.1 9 c.1 c.2

def cells (buffer : Nat) (m : Buf) : (i k : Nat) → List UInt8
  | _, 0 => []
  | i, k + 1 => m (add32 buffer i) :: cells buffer m (i + 1) k

/-- The last `k` hexadecimal digits of `n`. -/
def chars : (k n : Nat) → List UInt8
  | 0, _ => []
  | k + 1, n => chars k (n / 16) ++ [digit (n % 16)]

theorem hexChar_eq (n : Nat) : hexChar (n &&& 0xF) = digit (n % 16) := by
  have h : ∀ d < 16, hexChar d = digit d := by decide
  rw [show n &&& 0xF = n % 16 from Nat.and_two_pow_sub_one_eq_mod n 4]
  exact h _ (Nat.mod_lt n (by decide))

variable {buffer : Nat} {m : Buf}

theorem add32_ne {i j : Nat} (hi : i < 2 ^ 32) (hj : j < 2 ^ 32) (h : i ≠ j) : add32 buffer i ≠ add32 buffer j := by
  unfold add32
  omega

theorem cells_update {i j k : Nat} {c : UInt8} (h : j < i) (hk : i + k < 2 ^ 32) :
    cells buffer (update m (add32 buffer j) c) i k = cells buffer m i k := by
  induction k generalizing i with
  | zero => rfl
  | succ k ih =>
    rw [cells, cells, update_of_ne (add32_ne (by omega) (by omega) (by omega)), ih (by omega) (by omega)]

/-- The loop fills the buffer from its end. -/
theorem based4bits_eq {k : Nat} (hk : k ≤ 8) (m : Buf) (n : Nat) :
    cells buffer (based4bits buffer k m n (sub32 k 1)).1 0 8 = chars k n ++ cells buffer m k (8 - k) ∧
      (based4bits buffer k m n (sub32 k 1)).2 = sub32 0 1 := by
  induction k generalizing m n with
  | zero => exact ⟨rfl, rfl⟩
  | succ k ih =>
    have hedi : sub32 (k + 1) 1 = k := Fs.sub32_of_le (by omega)
    have hn : n >>> 4 = n / 16 := Nat.shiftRight_eq_div_pow n 4
    obtain ⟨hc, he⟩ := ih (by omega) (update m (add32 buffer k) (digit (n % 16))) (n / 16)
    rw [based4bits, hedi, hexChar_eq, hn]
    refine ⟨hc.trans ?_, he⟩
    rw [show 8 - k = 8 - (k + 1) + 1 by omega, cells, update_self, cells_update (by omega) (by omega), chars,
      List.append_assoc]
    rfl

theorem putEachNum_eq {i k turns : Nat} (hi : i + (k + 1) = 8) (hk : k < turns) :
    putEachNum buffer m turns (m (add32 buffer i)) i = some (cells buffer m i (k + 1)) := by
  induction k generalizing i turns with
  | zero =>
    obtain ⟨turns, rfl⟩ := Nat.exists_eq_add_of_lt hk
    obtain rfl : i = 7 := by omega
    rfl
  | succ k ih =>
    obtain ⟨turns, rfl⟩ := Nat.exists_eq_add_one_of_ne_zero (Nat.ne_zero_of_lt hk)
    have hedi : add32 i 1 = i + 1 := Fs.add32_of_lt (by omega)
    have hlt : int32 (i + 1) < 8 := by
      rw [int32, if_pos (by omega)]
      omega
    rw [putEachNum]
    simp only [hedi, if_pos hlt]
    rw [ih (by omega) (by omega), Option.map_some, ← cells]

/-- The leading zeros are left out, all but the last character of a buffer of zeros. -/
theorem skipPrefix0_eq {i k turns : Nat} (hi : i + k = 8) (hk : k < turns) :
    ((skipPrefix0 buffer m turns i).bind fun c => putEachNum buffer m 9 c.1 c.2) =
      some (if (cells buffer m i k).dropWhile (· = 0x30) = [] then [0x30]
        else (cells buffer m i k).dropWhile (· = 0x30)) := by
  induction k generalizing i turns with
  | zero =>
    obtain ⟨turns, rfl⟩ := Nat.exists_eq_add_one_of_ne_zero (Nat.ne_zero_of_lt hk)
    obtain rfl : i = 8 := hi
    rfl
  | succ k ih =>
    obtain ⟨turns, rfl⟩ := Nat.exists_eq_add_one_of_ne_zero (Nat.ne_zero_of_lt hk)
    have hedi : add32 i 1 = i + 1 := Fs.add32_of_lt (by omega)
    have hback : sub32 (i + 1) 1 = i := Fs.sub32_of_le (by omega)
    rw [skipPrefix0, if_neg (by omega), cells]
    simp only [hedi, hback]
    by_cases h0 : m (add32 buffer i) = 0x30
    · rw [if_pos h0, ih (by omega) (by omega), List.dropWhile_cons_of_pos (by simpa using h0)]
    · rw [if_neg h0, Option.bind_some, putEachNum_eq hi (by omega), List.dropWhile_cons_of_neg (by simpa using h0),
        if_neg (List.cons_ne_nil _ _), ← cells]

theorem itoa_ne_nil (n base : Nat) : itoa n base ≠ [] := by
  rw [itoa]
  split
  · exact List.append_ne_nil_of_right_ne_nil _ (List.cons_ne_nil _ _)
  · exact List.cons_ne_nil _ _

theorem digit_eq_zero_iff {d : Nat} (hd : d < 16) : digit d = 0x30 ↔ d = 0 := by
  have h : ∀ d < 16, (digit d = 0x30 ↔ d = 0) := by decide
  exact h d hd

theorem dropWhile_chars {k n : Nat} (hn : n < 16 ^ k) :
    (chars k n).dropWhile (· = 0x30) = if n = 0 then [] else itoa n 16 := by
  induction k generalizing n with
  | zero =>
    obtain rfl : n = 0 := by simpa using hn
    rfl
  | succ k ih =>
    have hq : n / 16 < 16 ^ k := Nat.div_lt_of_lt_mul (by rwa [← Nat.pow_succ'])
    have hz := digit_eq_zero_iff (Nat.mod_lt n (show 0 < 16 by decide))
    rw [chars, List.dropWhile_append, ih hq]
    conv_rhs => rw [itoa]
    by_cases h : n / 16 = 0
    · -- a single digit, dropped if it is zero as well
      have hmod : n % 16 = n := by omega
      have hone : ¬(1 < 16 ∧ n / 16 ≠ 0) := fun hb => hb.2 h
      rw [if_pos h, dif_neg hone, hmod, if_pos List.isEmpty_nil]
      rw [hmod] at hz
      by_cases h0 : n = 0
      · rw [if_pos h0, List.dropWhile_cons_of_pos (by simpa using hz.2 h0)]
        rfl
      · rw [if_neg h0, List.dropWhile_cons_of_neg (by simpa using hz.not.2 h0)]
    · have hne : ¬(itoa (n / 16) 16).isEmpty = true := by simpa using itoa_ne_nil (n / 16) 16
      have h0 : n ≠ 0 := fun h0 => h (by rw [h0])
      rw [if_neg h, if_neg hne, if_neg h0, dif_pos ⟨by decide, h⟩]

theorem putInt_eq {n : Nat} (hn : n < 2 ^ 32) : putInt buffer m n = some (itoa n 16) := by
  obtain ⟨hc, he⟩ := @based4bits_eq buffer 8 le_rfl m n
  have hfull : cells buffer (based4bits buffer 8 m n 7).1 0 8 = chars 8 n := hc.trans (List.append_nil _)
  have hedi : add32 (based4bits buffer 8 m n 7).2 1 = 0 := congrArg (add32 · 1) he
  have hskip := @skipPrefix0_eq buffer (based4bits buffer 8 m n 7).1 0 8 9 rfl (by decide)
  rw [hfull, dropWhile_chars (show n < 16 ^ 8 from hn)] at hskip
  rw [putInt, hedi, hskip]
  by_cases h0 : n = 0
  · rw [if_pos h0, if_pos rfl, h0, Printk.itoa_zero]
  · rw [if_neg h0, if_neg (itoa_ne_nil n 16)]

/-- The two printers of hexadecimal numbers agree, whatever the buffer held before. -/
theorem put_int_itoa (buffer : Nat) (m : Buf) (n : UInt32) :
    ∃ l, putInt buffer m n.toNat = some l ∧ l = Stdio.numeral 16 n.toNat ∧
      ∀ (m' : Buf) (p : Nat), Stdio.itoaAt n.toNat 16 m' p = (Stdio.put m' p l, p + l.length) := by
  refine ⟨_, putInt_eq n.toNat_lt, Stdio.itoa_eq_numeral (by decide) _, fun m' p => ?_⟩
  exact Stdio.itoaAt_eq _ _ m' p

example : putInt 0 (fun _ => 0) 0x1A0F = some [0x31, 0x41, 0x30, 0x46] := by decide

end TrueOs.PutInt
