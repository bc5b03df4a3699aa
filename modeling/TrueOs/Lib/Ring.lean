import Mathlib.Data.List.Basic
import Mathlib.Logic.Function.Basic
import Mathlib.Tactic.SplitIfs

/-! A ring of `N` cells with two cursors, one cell kept free, as a queue. -/

namespace TrueOs.Ring

variable {α : Type} {N head tail : Nat}

def len (N head tail : Nat) : Nat := if tail ≤ head then head - tail else N - (tail - head)

def contents (N : Nat) (buf : Nat → α) (head tail : Nat) : List α :=
  (List.range (len N head tail)).map (fun i => buf ((tail + i) % N))

theorem mod_once {x : Nat} (h : x < 2 * N) : x % N = if x < N then x else x - N := by
  split
  · next hx => exact Nat.mod_eq_of_lt hx
  · next hx => rw [Nat.mod_eq_sub_mod (by omega), Nat.mod_eq_of_lt (by omega)]

theorem len_lt (hh : head < N) (tail : Nat) : len N head tail < N := by
  rw [len]
  split <;> omega

theorem len_eq_zero (ht : tail < N) : len N head tail = 0 ↔ head = tail := by
  rw [len]
  split <;> omega

theorem full_iff (hh : head < N) (ht : tail < N) : (head + 1) % N = tail ↔ len N head tail + 1 = N := by
  rw [mod_once (by omega), len]
  split_ifs <;> omega

theorem length_contents (buf : Nat → α) : (contents N buf head tail).length = len N head tail := by
  rw [contents, List.length_map, List.length_range]

theorem contents_push (hh : head < N) (ht : tail < N) (hfull : (head + 1) % N ≠ tail) (buf : Nat → α) (b : α) :
    contents N (Function.update buf head b) ((head + 1) % N) tail = contents N buf head tail ++ [b] := by
  have hlen : len N ((head + 1) % N) tail = len N head tail + 1 := by
    rw [mod_once (by omega)] at hfull ⊢
    simp only [len]
    split_ifs at hfull ⊢ <;> omega
  have hcell : ∀ i ≤ len N head tail, (tail + i) % N = head ↔ i = len N head tail := by
    intro i hi
    have := len_lt hh tail
    rw [mod_once (by omega)]
    simp only [len] at hi ⊢
    split_ifs at hi ⊢ <;> omega
  rw [contents, hlen, List.range_succ, List.map_append, List.map_singleton, (hcell _ (Nat.le_refl _)).mpr rfl,
    Function.update_self, contents]
  congr 1
  refine List.map_congr_left fun i hi => ?_
  have hlt := List.mem_range.mp hi
  have hne : (tail + i) % N ≠ head := by
    rw [ne_eq, hcell i (Nat.le_of_lt hlt)]
    omega
  rw [Function.update_of_ne hne]

theorem contents_pop (hh : head < N) (ht : tail < N) (hne : head ≠ tail) (buf : Nat → α) :
    contents N buf head tail = buf tail :: contents N buf head ((tail + 1) % N) := by
  have hlen : len N head tail = len N head ((tail + 1) % N) + 1 := by
    rw [mod_once (by omega)]
    simp only [len]
    split_ifs <;> omega
  rw [contents, hlen, List.range_succ_eq_map, List.map_cons, Nat.add_zero, Nat.mod_eq_of_lt ht, contents,
    List.map_map]
  congr 1
  refine List.map_congr_left fun i _ => ?_
  rw [Function.comp_apply, Nat.mod_add_mod]
  congr 2
  omega

end TrueOs.Ring
