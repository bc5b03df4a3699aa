import TrueOs.Lib.Bytes

/-! Bit arrays stored in bytes, lowest bit first. -/

namespace TrueOs.Buf

def bit (d : Buf) (i : Nat) : Bool := (d (i / 8)).toBitVec.getLsbD (i % 8)

/-- `d[i / 8] |= 1 << i % 8`, or `&= ~(1 << i % 8)`. -/
def setBit (d : Buf) (i : Nat) (v : Bool) : Buf := fun j =>
  if j = i / 8 then
    if v then d j ||| (1 <<< UInt8.ofNat (i % 8)) else d j &&& ~~~(1 <<< UInt8.ofNat (i % 8))
  else d j

private theorem getLsbD_one_shiftLeft :
    ∀ k < 8, ∀ l < 8, ((1 : UInt8) <<< UInt8.ofNat k).toBitVec.getLsbD l = decide (l = k) := by
  decide

theorem bit_setBit (d : Buf) (i j : Nat) (v : Bool) :
    (d.setBit i v).bit j = if j = i then v else d.bit j := by
  simp only [bit, setBit]
  by_cases hb : j / 8 = i / 8
  · have hm := getLsbD_one_shiftLeft (i % 8) (by omega) (j % 8) (by omega)
    have hj : j = i ↔ j % 8 = i % 8 := by omega
    rw [if_pos hb]
    generalize (1 : UInt8) <<< UInt8.ofNat (i % 8) = m at hm
    have h8 : j % 8 < 8 := by omega
    generalize i % 8 = k at hm hj
    generalize j % 8 = l at hm hj h8
    by_cases h : l = k <;> cases v <;> simp_all [-BitVec.getLsbD_eq_getElem]
  · rw [if_neg hb, if_neg (by rintro rfl; exact hb rfl)]

@[simp] theorem bit_setBit_self (d : Buf) (i : Nat) (v : Bool) : (d.setBit i v).bit i = v := by
  rw [bit_setBit, if_pos rfl]

theorem bit_setBit_of_ne {d : Buf} {i j : Nat} {v : Bool} (h : j ≠ i) :
    (d.setBit i v).bit j = d.bit j := by
  rw [bit_setBit, if_neg h]

theorem eq_of_bits {x y : UInt8} (h : ∀ k < 8, x.toBitVec.getLsbD k = y.toBitVec.getLsbD k) :
    x = y := by
  apply UInt8.toBitVec_inj.mp
  apply BitVec.eq_of_getLsbD_eq
  intro k hk
  exact h k hk

theorem apply_eq_of_bit_eq {d e : Buf} {j : Nat} (h : ∀ i, i / 8 = j → d.bit i = e.bit i) :
    d j = e j := by
  apply eq_of_bits
  intro k hk
  have := h (8 * j + k) (by omega)
  simpa [bit, show (8 * j + k) / 8 = j by omega, show (8 * j + k) % 8 = k by omega] using this

theorem bit_congr {d e : Buf} {i : Nat} (h : d (i / 8) = e (i / 8)) : d.bit i = e.bit i := by
  simp only [bit, h]

end TrueOs.Buf
