import Mathlib.Data.UInt
import Mathlib.Logic.Basic

/-! Byte buffers, and little-endian words in them.  A buffer is a function
on offsets; how far it reaches is known to the code that uses it. -/

namespace TrueOs

abbrev Buf : Type := Nat → UInt8

namespace Buf

/-- `memcpy(d + a, f, n)`. -/
def splice (d : Buf) (a n : Nat) (f : Buf) : Buf :=
  fun i => if a ≤ i ∧ i < a + n then f (i - a) else d i

/-- The `n` bytes from `a` on, followed by zeros. -/
def slice (d : Buf) (a n : Nat) : Buf := fun i => if i < n then d (a + i) else 0

def half (d : Buf) (a : Nat) : Nat := (d a).toNat + 256 * (d (a + 1)).toNat

def word (d : Buf) (a : Nat) : Nat :=
  (d a).toNat + 256 * (d (a + 1)).toNat + 65536 * (d (a + 2)).toNat + 16777216 * (d (a + 3)).toNat

/-- Byte `i` of the little-endian form of `w`. -/
def wordByte (w i : Nat) : UInt8 :=
  match i with
  | 0 => .ofNat w
  | 1 => .ofNat (w / 256)
  | 2 => .ofNat (w / 65536)
  | _ => .ofNat (w / 16777216)

def ofWords (f : Nat → Nat) : Buf := fun i => wordByte (f (i / 4)) (i % 4)

/-- `strcmp(d + a, name) == 0` for a terminated `name`: the comparison walks both
strings and ends with the shorter one, so it looks at `name.length + 1` bytes. -/
def strEq (d : Buf) (a : Nat) : List UInt8 → Bool
  | [] => d a == 0
  | c :: cs => d a == c && strEq d (a + 1) cs

theorem splice_of_mem {d : Buf} {a n : Nat} {f : Buf} {i : Nat} (h : a ≤ i) (h' : i < a + n) :
    d.splice a n f i = f (i - a) := if_pos ⟨h, h'⟩

theorem splice_of_not_mem {d : Buf} {a n : Nat} {f : Buf} {i : Nat} (h : i < a ∨ a + n ≤ i) :
    d.splice a n f i = d i := if_neg (by omega)

theorem slice_of_lt {d : Buf} {a n i : Nat} (h : i < n) : d.slice a n i = d (a + i) := if_pos h

theorem slice_of_le {d : Buf} {a n i : Nat} (h : n ≤ i) : d.slice a n i = 0 :=
  if_neg (by omega)

theorem slice_congr {d e : Buf} {a n : Nat} (h : ∀ i, a ≤ i → i < a + n → d i = e i) :
    d.slice a n = e.slice a n := by
  funext i
  by_cases hi : i < n
  · rw [slice_of_lt hi, slice_of_lt hi, h _ (by omega) (by omega)]
  · rw [slice_of_le (by omega), slice_of_le (by omega)]

theorem slice_splice_self (d : Buf) (a n : Nat) (f : Buf) :
    (d.splice a n f).slice a n = f.slice 0 n := by
  funext i
  by_cases hi : i < n
  · rw [slice_of_lt hi, slice_of_lt hi, splice_of_mem (by omega) (by omega)]
    congr 1
    omega
  · rw [slice_of_le (by omega), slice_of_le (by omega)]

theorem slice_splice_disjoint {d : Buf} {a n b m : Nat} {f : Buf} (h : a + n ≤ b ∨ b + m ≤ a) :
    (d.splice b m f).slice a n = d.slice a n :=
  slice_congr fun _ h₁ h₂ => splice_of_not_mem (by omega)

theorem splice_slice_append (d e : Buf) (a b n m : Nat) :
    (d.splice a n (e.slice b n)).splice (a + n) m (e.slice (b + n) m) = d.splice a (n + m) (e.slice b (n + m)) := by
  funext i
  by_cases hlo : i < a
  · rw [splice_of_not_mem (Or.inl (by omega)), splice_of_not_mem (Or.inl hlo), splice_of_not_mem (Or.inl hlo)]
  · by_cases hmid : i < a + n
    · rw [splice_of_not_mem (Or.inl hmid), splice_of_mem (by omega) hmid, splice_of_mem (by omega) (by omega),
        slice_of_lt (by omega), slice_of_lt (by omega)]
    · by_cases hhi : i < a + n + m
      · rw [splice_of_mem (by omega) hhi, splice_of_mem (by omega) (by omega), slice_of_lt (by omega),
          slice_of_lt (by omega)]
        congr 1
        omega
      · rw [splice_of_not_mem (Or.inr (by omega)), splice_of_not_mem (Or.inr (by omega)),
          splice_of_not_mem (Or.inr (by omega))]

theorem splice_slice_splice {d f : Buf} {a n b m : Nat} (h : b + m ≤ n) :
    d.splice a n ((d.slice a n).splice b m f) = d.splice (a + b) m f := by
  funext i
  by_cases hi : a + b ≤ i ∧ i < a + b + m
  · rw [splice_of_mem (by omega) (by omega), splice_of_mem (by omega) (by omega),
      splice_of_mem (by omega) (by omega)]
    congr 1
    omega
  · rw [splice_of_not_mem (by omega : i < a + b ∨ a + b + m ≤ i)]
    by_cases hj : a ≤ i ∧ i < a + n
    · rw [splice_of_mem (by omega) (by omega), splice_of_not_mem (by omega),
        slice_of_lt (by omega)]
      congr 1
      omega
    · rw [splice_of_not_mem (by omega)]

theorem word_lt (d : Buf) (a : Nat) : d.word a < 2 ^ 32 := by
  have h0 := (d a).toNat_lt
  have h1 := (d (a + 1)).toNat_lt
  have h2 := (d (a + 2)).toNat_lt
  have h3 := (d (a + 3)).toNat_lt
  simp only [word]
  omega

theorem word_congr {d e : Buf} {a b : Nat} (h : ∀ i < 4, d (a + i) = e (b + i)) :
    d.word a = e.word b := by
  have h0 := h 0 (by omega)
  have h1 := h 1 (by omega)
  have h2 := h 2 (by omega)
  have h3 := h 3 (by omega)
  simp only [Nat.add_zero] at h0
  simp only [word, h0, h1, h2, h3]

theorem word_splice_of_mem {d f : Buf} {a n x : Nat} (h : a ≤ x) (h' : x + 4 ≤ a + n) :
    (d.splice a n f).word x = f.word (x - a) := by
  apply word_congr
  intro i hi
  rw [splice_of_mem (by omega) (by omega)]
  congr 1
  omega

theorem word_slice {d : Buf} {a n x : Nat} (h : x + 4 ≤ n) :
    (d.slice a n).word x = d.word (a + x) := by
  apply word_congr
  intro i hi
  rw [slice_of_lt (by omega)]
  congr 1
  omega

theorem word_ofWords (f : Nat → Nat) (k : Nat) : (ofWords f).word (4 * k) = f k % 2 ^ 32 := by
  have e0 : 4 * k / 4 = k ∧ 4 * k % 4 = 0 := by omega
  have e1 : (4 * k + 1) / 4 = k ∧ (4 * k + 1) % 4 = 1 := by omega
  have e2 : (4 * k + 2) / 4 = k ∧ (4 * k + 2) % 4 = 2 := by omega
  have e3 : (4 * k + 3) / 4 = k ∧ (4 * k + 3) % 4 = 3 := by omega
  simp only [word, ofWords, e0, e1, e2, e3, wordByte, UInt8.toNat_ofNat']
  omega

theorem word_ofWords_of_lt {f : Nat → Nat} {k : Nat} (h : f k < 2 ^ 32) :
    (ofWords f).word (4 * k) = f k := by
  rw [word_ofWords, Nat.mod_eq_of_lt h]

@[simp] theorem word_zero (a : Nat) : word (fun _ => 0) a = 0 := rfl

theorem strEq_congr {d e : Buf} {a b : Nat} {name : List UInt8}
    (h : ∀ i ≤ name.length, d (a + i) = e (b + i)) : d.strEq a name = e.strEq b name := by
  induction name generalizing a b with
  | nil =>
    have h0 := h 0 (by simp)
    simp only [Nat.add_zero] at h0
    simp only [strEq, h0]
  | cons c cs ih =>
    have h0 := h 0 (by simp)
    simp only [Nat.add_zero] at h0
    have hs : d.strEq (a + 1) cs = e.strEq (b + 1) cs := by
      apply ih
      intro i hi
      have := h (i + 1) (by simpa using hi)
      rwa [Nat.add_assoc, Nat.add_assoc, Nat.add_comm 1 i]
    simp only [strEq, h0, hs]

theorem strEq_iff {d : Buf} {a : Nat} {name : List UInt8} :
    d.strEq a name = true ↔ (∀ i (h : i < name.length), d (a + i) = name.get ⟨i, h⟩) ∧
      d (a + name.length) = 0 := by
  induction name generalizing a with
  | nil => simp [strEq]
  | cons c cs ih =>
    simp only [strEq, Bool.and_eq_true, beq_iff_eq, ih, List.length_cons]
    constructor
    · rintro ⟨h0, hs, hz⟩
      refine ⟨fun i hi => ?_, by rwa [Nat.add_assoc, Nat.add_comm 1] at hz⟩
      cases i with
      | zero => exact h0
      | succ i =>
        have := hs i (by omega)
        rwa [Nat.add_assoc, Nat.add_comm 1] at this
    · rintro ⟨hs, hz⟩
      refine ⟨hs 0 (by omega), fun i hi => ?_, by rwa [Nat.add_assoc, Nat.add_comm 1]⟩
      have := hs (i + 1) (by omega)
      rwa [Nat.add_assoc, Nat.add_comm 1]

end Buf

end TrueOs
