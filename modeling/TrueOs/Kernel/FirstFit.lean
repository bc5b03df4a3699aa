import TrueOs.Kernel.Pages

/-! `bitmap_scan` with the integers it is compiled for, and when it is first fit.

After the first free bit the loop counts down all bits that were left with that bit, so it
also looks at the bit behind the map. -/

namespace TrueOs.Bitmap

variable {σ β : Type} {btmp : Bitmap} {cnt i : Nat}

/-- A `uint32_t` that is stored in an `int`. -/
def toInt (n : Nat) : Int := if n % 2 ^ 32 < 2 ^ 31 then (n % 2 ^ 32 : Nat) else (n % 2 ^ 32 : Nat) - 2 ^ 32

def scanRun32 (btmp : Bitmap) (cnt : Nat) : (bitLeft nextBit count : Nat) → Int
  | 0, _, _ => -1
  | bitLeft + 1, nextBit, count =>
    let count := if bitmapScanTest btmp nextBit then 0 else (count + 1) % 2 ^ 32
    if count = cnt then
      toInt (nextBit + (2 ^ 32 - cnt) + 1)
    else
      scanRun32 btmp cnt bitLeft ((nextBit + 1) % 2 ^ 32) count

def bitmapScan32 (btmp : Bitmap) (cnt : Nat) : Prog σ β Int := do
  let idxByte := fullBytes btmp.bits btmp.btmpBytesLen 0
  Prog.assert (idxByte < btmp.btmpBytesLen)
  if idxByte = btmp.btmpBytesLen then
    return -1
  else
    let bitIdxStart := (idxByte * 8 + usedBits (btmp.bits idxByte) 8 0) % 2 ^ 32
    if cnt = 1 then
      return toInt bitIdxStart
    else
      let bitLeft := (btmp.btmpBytesLen * 8 + (2 ^ 32 - bitIdxStart)) % 2 ^ 32
      return scanRun32 btmp cnt bitLeft ((bitIdxStart + 1) % 2 ^ 32) 1

def resultInt : Option Nat → Int
  | none => -1
  | some i => i

theorem toInt_of_lt {n : Nat} (h : n < 2 ^ 31) : toInt n = n := by
  rw [toInt, Nat.mod_eq_of_lt (by omega), if_pos h]

theorem scanRun32_eq {bitLeft nextBit count : Nat} (hcount : count ≤ nextBit) (hlt : nextBit + bitLeft ≤ 2 ^ 31 + 1)
    (hcnt : 1 < cnt) :
    scanRun32 btmp cnt bitLeft nextBit count = resultInt (scanRun btmp cnt bitLeft nextBit count) := by
  induction bitLeft generalizing nextBit count with
  | zero => rfl
  | succ bitLeft ih =>
    rw [scanRun32, scanRun, Nat.mod_eq_of_lt (show count + 1 < 2 ^ 32 by omega),
      Nat.mod_eq_of_lt (show nextBit + 1 < 2 ^ 32 by omega)]
    have hle : (if btmp.bitmapScanTest nextBit = true then 0 else count + 1) ≤ nextBit + 1 := by
      split <;> omega
    generalize (if btmp.bitmapScanTest nextBit = true then 0 else count + 1) = c at hle
    split
    · next hc =>
      have hmod : (nextBit + (2 ^ 32 - cnt) + 1) % 2 ^ 32 = nextBit + 1 - cnt := by omega
      rw [resultInt, toInt, hmod, if_pos (by omega)]
    · exact ih hle (by omega)

theorem bitmapScan32_eq (hlen : 8 * btmp.btmpBytesLen ≤ 2 ^ 31) (hcnt : 1 ≤ cnt) :
    (bitmapScan32 btmp cnt : Prog σ β Int) = resultInt <$> bitmapScan btmp cnt := by
  obtain ⟨-, hle, -, hne⟩ := fullBytes_spec btmp.bits btmp.btmpBytesLen 0
  rw [bitmapScan32, bitmapScan, map_bind]
  refine congrArg _ (funext fun _ => ?_)
  split
  · rfl
  · next hlen' =>
    have hused := usedBits_lt (hne (by omega))
    generalize fullBytes btmp.bits btmp.btmpBytesLen 0 = q at *
    generalize usedBits (btmp.bits q) 8 0 = r at *
    rw [Nat.mod_eq_of_lt (show q * 8 + r < 2 ^ 32 by omega)]
    split
    · dsimp only
      rw [toInt_of_lt (by omega)]
      rfl
    · dsimp only
      rw [Nat.mod_eq_of_lt (show q * 8 + r + 1 < 2 ^ 32 by omega),
        show (btmp.btmpBytesLen * 8 + (2 ^ 32 - (q * 8 + r))) % 2 ^ 32 = btmp.btmpBytesLen * 8 - (q * 8 + r) by omega,
        scanRun32_eq (by omega) (by omega) (by omega)]
      rfl

structure Fits (btmp : Bitmap) (top cnt i : Nat) : Prop where
  within : i + cnt ≤ top
  free : btmp.FreeRun i cnt

/-- What a first fit search of the bits below `top` may return. -/
def FirstFit (btmp : Bitmap) (top cnt : Nat) : Option Nat → Prop
  | some i => btmp.Fits top cnt i ∧ ∀ j < i, ¬btmp.Fits top cnt j
  | none => ∀ i, ¬btmp.Fits top cnt i

/-- Only with the bit behind the map there are `cnt` free bits in a row. -/
structure Overrun (btmp : Bitmap) (cnt : Nat) : Prop where
  many : 1 < cnt
  le : cnt ≤ 8 * btmp.btmpBytesLen + 1
  free : btmp.FreeRun (8 * btmp.btmpBytesLen + 1 - cnt) cnt
  none : ∀ i, ¬btmp.Fits (8 * btmp.btmpBytesLen) cnt i

theorem scanRun_first {bitLeft nextBit count : Nat} (hlt : count < cnt) (hle : count ≤ nextBit)
    (hrun : btmp.FreeRun (nextBit - count) count) (hno : ∀ j < nextBit - count, ¬btmp.FreeRun j cnt) :
    btmp.FirstFit (nextBit + bitLeft) cnt (scanRun btmp cnt bitLeft nextBit count) := by
  induction bitLeft generalizing nextBit count with
  | zero => exact fun i hi => hno i (by have := hi.within; omega) hi.free
  | succ bitLeft ih =>
    rw [scanRun, show nextBit + (bitLeft + 1) = nextBit + 1 + bitLeft by omega]
    by_cases hbit : btmp.bitmapScanTest nextBit = true
    · -- a run that starts in front of this bit would contain it
      simp only [if_pos hbit, if_neg (show ¬0 = cnt by omega)]
      refine ih (by omega) (by omega) (fun j hj hj' => by omega) fun j hj hfree => ?_
      by_cases hjn : j < nextBit - count
      · exact hno j hjn hfree
      · have hused : btmp.bits.bit nextBit = true := hbit
        rw [hfree nextBit (by omega) (by omega)] at hused
        cases hused
    · have hrun' : btmp.FreeRun (nextBit - count) (count + 1) := by
        intro j hj hj'
        by_cases hjn : j = nextBit
        · rw [hjn]
          simpa [bitmapScanTest] using hbit
        · exact hrun j hj (by omega)
      have hstart : nextBit + 1 - (count + 1) = nextBit - count := by omega
      simp only [if_neg hbit]
      by_cases hc : count + 1 = cnt
      · subst hc
        rw [if_pos rfl, hstart]
        exact ⟨⟨by omega, hrun'⟩, fun j hj hf => hno j hj hf.free⟩
      · rw [if_neg hc]
        refine ih (by omega) (by omega) ?_ ?_
        · rwa [hstart]
        · rwa [hstart]

theorem firstFit_iff {r : Option Nat} (hcnt : 1 < cnt) (hr : btmp.FirstFit (8 * btmp.btmpBytesLen + 1) cnt r) :
    btmp.FirstFit (8 * btmp.btmpBytesLen) cnt r ↔ ¬btmp.Overrun cnt := by
  cases r with
  | none =>
    refine ⟨fun _ ho => hr _ ⟨by have := ho.le; omega, ho.free⟩, fun _ i hi => ?_⟩
    exact hr i ⟨by have := hi.within; omega, hi.free⟩
  | some i =>
    obtain ⟨⟨hle, hfree⟩, hmin⟩ := hr
    by_cases hin : i + cnt ≤ 8 * btmp.btmpBytesLen
    · refine ⟨fun _ ho => ho.none i ⟨hin, hfree⟩, fun _ => ⟨⟨hin, hfree⟩, fun j hj hf => ?_⟩⟩
      exact hmin j hj ⟨by omega, hf.free⟩
    · have hi : 8 * btmp.btmpBytesLen + 1 - cnt = i := by omega
      refine ⟨fun hf => absurd hf.1.within hin, fun ho => absurd ?_ ho⟩
      refine ⟨hcnt, by omega, hi ▸ hfree, fun j hj => ?_⟩
      have hjt := hj.within
      exact hmin j (by omega) ⟨by omega, hj.free⟩

theorem scan_firstFit_iff {st : Nat} (hfirst : btmp.FirstFree st) (hcnt : 1 ≤ cnt) :
    btmp.FirstFit (8 * btmp.btmpBytesLen) cnt
      (if cnt = 1 then some st else scanRun btmp cnt (btmp.btmpBytesLen * 8 - st) (st + 1) 1) ↔ ¬btmp.Overrun cnt := by
  have hst := hfirst.lt
  have hno : ∀ j < st, ¬btmp.FreeRun j cnt := by
    intro j hj hf
    have hused := hfirst.used j hj
    rw [hf j (by omega) (by omega)] at hused
    cases hused
  have hone : btmp.FreeRun st 1 := by
    intro j hj hj'
    obtain rfl : j = st := by omega
    exact hfirst.free
  by_cases h1 : cnt = 1
  · subst h1
    rw [if_pos rfl]
    exact ⟨fun _ ho => absurd ho.many (by omega), fun _ => ⟨⟨by omega, hone⟩, fun j hj hf => hno j hj hf.free⟩⟩
  · rw [if_neg h1]
    have hscan : btmp.FirstFit (st + 1 + (btmp.btmpBytesLen * 8 - st)) cnt
        (scanRun btmp cnt (btmp.btmpBytesLen * 8 - st) (st + 1) 1) :=
      scanRun_first (by omega) (by omega) hone hno
    rw [show st + 1 + (btmp.btmpBytesLen * 8 - st) = 8 * btmp.btmpBytesLen + 1 by omega] at hscan
    exact firstFit_iff (by omega) hscan

/-- `bitmap_scan` returns, and is first fit unless it counts the bit behind the map. -/
theorem bitmap_scan_first_fit_iff (hlen : 8 * btmp.btmpBytesLen ≤ 2 ^ 31) (hcnt : 1 ≤ cnt)
    (hfree : ∃ i < 8 * btmp.btmpBytesLen, btmp.bits.bit i = false) (s : σ) :
    ∃ r, ((bitmapScan32 btmp cnt : Prog σ β Int).on s).run = .ok (resultInt r, s) ∧
      (btmp.FirstFit (8 * btmp.btmpBytesLen) cnt r ↔ ¬btmp.Overrun cnt) := by
  obtain ⟨i, hi, hbit⟩ := hfree
  have hlt := fullBytes_lt hi hbit
  refine ⟨_, ?_, scan_firstFit_iff (firstFree_scan hlt) hcnt⟩
  rw [bitmapScan32_eq hlen hcnt]
  simp only [bitmapScan, Prog.map_on, Prog.bind_on, Prog.assert, decide_eq_true hlt, if_neg (Nat.ne_of_lt hlt)]
  split <;> rfl

section Example

def lastBit : Bitmap := ⟨1, fun i => if i = 0 then 0x7F else 0⟩

theorem lastBit_none (i : Nat) : ¬lastBit.Fits 8 2 i := by
  intro h
  have hi : i + 2 ≤ 8 := h.within
  have hbits : ∀ j < 7, lastBit.bits.bit j = true := by decide
  have hused := hbits i (by omega)
  rw [h.free i (by omega) (by omega)] at hused
  cases hused

def twoBytes : Bitmap := { lastBit with btmpBytesLen := 2 }

/-- With a second byte in the map the two bits are there. -/
theorem two_bits_fit : ∃ r, ((bitmapScan32 twoBytes 2 : Prog Unit Unit Int).on ()).run = .ok (resultInt r, ()) ∧
    (twoBytes.FirstFit (8 * twoBytes.btmpBytesLen) 2 r ↔ ¬twoBytes.Overrun 2) :=
  bitmap_scan_first_fit_iff (by decide) (by decide) ⟨7, by decide, by decide⟩ ()

/-- Two bits are found where there is one. -/
theorem scan_leaves_map : ((bitmapScan32 lastBit 2 : Prog Unit Unit Int).on ()).run = .ok (7, ()) ∧
    ¬lastBit.FirstFit 8 2 (some 7) := by
  refine ⟨by decide +kernel, fun h => lastBit_none 7 h.1⟩

end Example

end TrueOs.Bitmap
