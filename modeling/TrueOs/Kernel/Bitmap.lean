import TrueOs.Lib.Bits
import TrueOs.Lib.Prog

/-! `lib/kernel/bitmap.c`. -/

namespace TrueOs

structure Bitmap where
  btmpBytesLen : Nat
  bits : Buf

namespace Bitmap

variable {σ β : Type}

/-- The loop over bytes: how far the bytes `0xFF` reach, looking at `n` of them. -/
def fullBytes (bits : Buf) : Nat → Nat → Nat
  | 0, idx => idx
  | n + 1, idx => if bits idx = 0xFF then fullBytes bits n (idx + 1) else idx

/-- The loop over the bits of one byte; `1 << 8` is cut off to zero. -/
def usedBits (b : UInt8) : Nat → Nat → Nat
  | 0, idx => idx
  | n + 1, idx => if b.toBitVec.getLsbD idx then usedBits b n (idx + 1) else idx

def bitmapScanTest (btmp : Bitmap) (bitIdx : Nat) : Bool := btmp.bits.bit bitIdx

/-- The loop that looks for `cnt` free bits in a row. -/
def scanRun (btmp : Bitmap) (cnt : Nat) : (bitLeft nextBit count : Nat) → Option Nat
  | 0, _, _ => none
  | bitLeft + 1, nextBit, count =>
    let count := if bitmapScanTest btmp nextBit then 0 else count + 1
    if count = cnt then some (nextBit + 1 - cnt) else scanRun btmp cnt bitLeft (nextBit + 1) count

def bitmapScan (btmp : Bitmap) (cnt : Nat) : Prog σ β (Option Nat) := do
  let idxByte := fullBytes btmp.bits btmp.btmpBytesLen 0
  Prog.assert (idxByte < btmp.btmpBytesLen)
  if idxByte = btmp.btmpBytesLen then
    return none
  else
    let bitIdxStart := idxByte * 8 + usedBits (btmp.bits idxByte) 8 0
    if cnt = 1 then
      return some bitIdxStart
    else
      return scanRun btmp cnt (btmp.btmpBytesLen * 8 - bitIdxStart) (bitIdxStart + 1) 1

/-- A bit outside the map is some other memory. -/
def bitmapSet (btmp : Bitmap) (bitIdx : Nat) (value : Bool) : Prog σ β Bitmap :=
  if bitIdx / 8 < btmp.btmpBytesLen then
    pure { btmp with bits := btmp.bits.setBit bitIdx value }
  else
    Prog.halt .fault

/-- `i` is the lowest bit of the map that is clear. -/
structure FirstFree (btmp : Bitmap) (i : Nat) : Prop where
  lt : i < 8 * btmp.btmpBytesLen
  free : btmp.bits.bit i = false
  used : ∀ j < i, btmp.bits.bit j = true

theorem fullBytes_spec (bits : Buf) (n idx : Nat) :
    idx ≤ fullBytes bits n idx ∧ fullBytes bits n idx ≤ idx + n ∧
      (∀ k, idx ≤ k → k < fullBytes bits n idx → bits k = 0xFF) ∧
      (fullBytes bits n idx < idx + n → bits (fullBytes bits n idx) ≠ 0xFF) := by
  induction n generalizing idx with
  | zero => simp [fullBytes]; omega
  | succ n ih =>
    simp only [fullBytes]
    split
    · rename_i h
      obtain ⟨h₁, h₂, h₃, h₄⟩ := ih (idx + 1)
      refine ⟨by omega, by omega, fun k hk hk' => ?_, fun hlt => h₄ (by omega)⟩
      by_cases hki : k = idx
      · rw [hki, h]
      · exact h₃ k (by omega) hk'
    · rename_i h
      exact ⟨by omega, by omega, fun k hk hk' => by omega, fun _ => h⟩

theorem usedBits_spec (b : UInt8) (n idx : Nat) :
    idx ≤ usedBits b n idx ∧ usedBits b n idx ≤ idx + n ∧
      (∀ k, idx ≤ k → k < usedBits b n idx → b.toBitVec.getLsbD k = true) ∧
      (usedBits b n idx < idx + n → b.toBitVec.getLsbD (usedBits b n idx) = false) := by
  induction n generalizing idx with
  | zero => simp [usedBits]; omega
  | succ n ih =>
    simp only [usedBits]
    split
    · rename_i h
      obtain ⟨h₁, h₂, h₃, h₄⟩ := ih (idx + 1)
      refine ⟨by omega, by omega, fun k hk hk' => ?_, fun hlt => h₄ (by omega)⟩
      by_cases hki : k = idx
      · rw [hki, h]
      · exact h₃ k (by omega) hk'
    · rename_i h
      exact ⟨by omega, by omega, fun k hk hk' => by omega, fun _ => by simpa using h⟩

theorem usedBits_lt {b : UInt8} (h : b ≠ 0xFF) : usedBits b 8 0 < 8 := by
  obtain ⟨-, h₂, h₃, -⟩ := usedBits_spec b 8 0
  by_contra hc
  apply h
  apply Buf.eq_of_bits
  intro k hk
  rw [h₃ k (by omega) (by omega)]
  revert k
  decide

theorem firstFree_scan {btmp : Bitmap}
    (h : fullBytes btmp.bits btmp.btmpBytesLen 0 < btmp.btmpBytesLen) :
    FirstFree btmp (fullBytes btmp.bits btmp.btmpBytesLen 0 * 8 +
      usedBits (btmp.bits (fullBytes btmp.bits btmp.btmpBytesLen 0)) 8 0) := by
  obtain ⟨-, -, hfull, hne⟩ := fullBytes_spec btmp.bits btmp.btmpBytesLen 0
  have hlt := usedBits_lt (hne (by omega))
  obtain ⟨-, -, hused, hfree⟩ := usedBits_spec (btmp.bits (fullBytes btmp.bits btmp.btmpBytesLen 0)) 8 0
  generalize fullBytes btmp.bits btmp.btmpBytesLen 0 = q at *
  generalize usedBits (btmp.bits q) 8 0 = r at *
  have hq : (q * 8 + r) / 8 = q ∧ (q * 8 + r) % 8 = r := by omega
  refine ⟨by omega, ?_, fun j hj => ?_⟩
  · simpa [Buf.bit, hq] using hfree (by omega)
  · by_cases hjq : j / 8 = q
    · simp only [Buf.bit, hjq]
      exact hused _ (by omega) (by omega)
    · have h255 := hfull (j / 8) (by omega) (by omega)
      have hk : ∀ k < 8, (0xFF : UInt8).toBitVec.getLsbD k = true := by decide
      simpa [Buf.bit, h255] using hk (j % 8) (by omega)

theorem FirstFree.unique {btmp : Bitmap} {i j : Nat} (hi : btmp.FirstFree i)
    (hj : btmp.FirstFree j) : i = j := by
  rcases Nat.lt_trichotomy i j with h | h | h
  · simpa [hi.free] using hj.used i h
  · exact h
  · simpa [hj.free] using hi.used j h

theorem fullBytes_lt {btmp : Bitmap} {i : Nat} (h : i < 8 * btmp.btmpBytesLen)
    (hf : btmp.bits.bit i = false) :
    fullBytes btmp.bits btmp.btmpBytesLen 0 < btmp.btmpBytesLen := by
  obtain ⟨-, hle, hfull, -⟩ := fullBytes_spec btmp.bits btmp.btmpBytesLen 0
  by_contra hc
  have h255 := hfull (i / 8) (by omega) (by omega)
  have hk : ∀ k < 8, (0xFF : UInt8).toBitVec.getLsbD k = true := by decide
  rw [Buf.bit, h255, hk (i % 8) (by omega)] at hf
  cases hf

variable {E : Prop}

theorem sat_bitmapScan_one {btmp : Bitmap} {s : σ} {Q : Option Nat → σ → Prop}
    (hE : E ∨ ∃ i < 8 * btmp.btmpBytesLen, btmp.bits.bit i = false)
    (hQ : ∀ i, btmp.FirstFree i → Q (some i) s) :
    ((bitmapScan btmp 1 : Prog σ β (Option Nat)).on s).Sat E Q := by
  simp only [bitmapScan, Prog.sat_bind, Prog.sat_assert, Prog.ite_on,
    decide_eq_true_eq, decide_eq_false_iff_not]
  refine ⟨fun h => ?_, fun h => ?_⟩
  · rw [if_neg (by omega), if_pos trivial]
    exact hQ _ (firstFree_scan h)
  · rcases hE with hE | ⟨i, hi, hf⟩
    · exact hE
    · exact absurd (fullBytes_lt hi hf) h

theorem sat_bitmapSet {btmp : Bitmap} {bitIdx : Nat} {value : Bool} {s : σ}
    {Q : Bitmap → σ → Prop} (hlt : bitIdx < 8 * btmp.btmpBytesLen)
    (hQ : Q { btmp with bits := btmp.bits.setBit bitIdx value } s) :
    ((bitmapSet btmp bitIdx value : Prog σ β Bitmap).on s).Sat E Q := by
  rw [bitmapSet, if_pos (by omega)]
  exact hQ

end Bitmap

end TrueOs
