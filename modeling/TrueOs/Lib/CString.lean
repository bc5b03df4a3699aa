import Mathlib.Logic.Function.Basic
import TrueOs.Lib.Bytes
import TrueOs.Lib.Words

/-! Strings inside a buffer: the characters up to the first zero. -/

namespace TrueOs.Buf

open Function (update update_self update_of_ne)

structure Str (d : Buf) (a : Nat) (l : List UInt8) : Prop where
  eq : d.strEq a l = true
  nul : 0 ∉ l

def ofList (l : List UInt8) : Buf := fun i => l.getD i 0

/-- Moves a pointer while the character under it satisfies `p`. -/
def advance (d : Buf) (p : UInt8 → Bool) : (turns : Nat) → (a : Nat) → Option Nat
  | 0, _ => none
  | turns + 1, a => if p (d a) then advance d p turns (a + 1) else some a

def strchr (d : Buf) (turns a : Nat) (ch : UInt8) : Option (Option Nat) :=
  (d.advance (fun c => c != 0 && c != ch) turns a).map fun q => if d q = ch then some q else none

/-- `strrchr`; `last` is the place found so far. -/
def strrchr (d : Buf) (ch : UInt8) : (turns : Nat) → (a : Nat) → (last : Option Nat) →
    Option (Option Nat)
  | 0, _, _ => none
  | turns + 1, a, last =>
    if d a = 0 then some last else strrchr d ch turns (a + 1) (if d a = ch then some a else last)

def strcat (d : Buf) (turns : Nat) (src : List UInt8) : Option Buf :=
  (d.advance (· != 0) turns 0).map fun e => d.splice e (src.length + 1) (ofList src)

section Str

variable {d e : Buf} {a b turns : Nat} {l l' : List UInt8} {c : UInt8} {p : UInt8 → Bool}

theorem str_nil : Str d a [] ↔ d a = 0 :=
  ⟨fun h => by simpa [strEq] using h.eq, fun h => ⟨by simpa [strEq] using h, by simp⟩⟩

theorem str_cons : Str d a (c :: l) ↔ d a = c ∧ c ≠ 0 ∧ Str d (a + 1) l := by
  constructor
  · rintro ⟨h, hn⟩
    rw [strEq, Bool.and_eq_true, beq_iff_eq] at h
    rw [List.mem_cons, not_or] at hn
    exact ⟨h.1, Ne.symm hn.1, h.2, hn.2⟩
  · rintro ⟨h, hc, hs⟩
    refine ⟨by rw [strEq, Bool.and_eq_true, beq_iff_eq]; exact ⟨h, hs.eq⟩, ?_⟩
    rw [List.mem_cons, not_or]
    exact ⟨Ne.symm hc, hs.nul⟩

theorem strEq_of_nul {x : Nat} (h0 : d (a + x) = 0) (h : ∀ i ≤ x, e (b + i) = d (a + i)) (hn : 0 ∉ l) :
    e.strEq b l = d.strEq a l := by
  induction l generalizing a b x with
  | nil =>
    have hhead : e b = d a := h 0 (Nat.zero_le x)
    rw [strEq, strEq, hhead]
  | cons c cs ih =>
    have hhead : e b = d a := h 0 (Nat.zero_le x)
    rw [List.mem_cons, not_or] at hn
    rw [strEq, strEq, hhead]
    cases x with
    | zero =>
      have hc : (d a == c) = false := by
        rw [show d a = 0 from h0]
        exact beq_eq_false_iff_ne.mpr hn.1
      rw [hc, Bool.false_and, Bool.false_and]
    | succ x =>
      have htail := ih (a := a + 1) (b := b + 1) (x := x) (by rwa [Nat.add_assoc, Nat.add_comm 1])
        (fun i hi => by
          rw [Nat.add_assoc, Nat.add_assoc, Nat.add_comm 1]
          exact h (i + 1) (by omega)) hn.2
      rw [htail]

theorem Str.congr (h : Str d a l) (he : ∀ i ≤ l.length, e (b + i) = d (a + i)) : Str e b l :=
  ⟨(strEq_congr he).trans h.eq, h.nul⟩

theorem Str.unique (h : Str d a l) (h' : Str d a l') : l = l' := by
  induction l generalizing a l' with
  | nil =>
    cases l' with
    | nil => rfl
    | cons c cs =>
      obtain ⟨hc, h0, -⟩ := str_cons.mp h'
      exact absurd (hc.symm.trans (str_nil.mp h)) h0
  | cons c cs ih =>
    obtain ⟨hc, h0, hs⟩ := str_cons.mp h
    cases l' with
    | nil => exact absurd (hc.symm.trans (str_nil.mp h')) h0
    | cons c' cs' =>
      obtain ⟨hc', -, hs'⟩ := str_cons.mp h'
      rw [← hc, ← hc', ih hs hs']

theorem Str.drop (h : Str d a (l ++ l')) : Str d (a + l.length) l' := by
  induction l generalizing a with
  | nil => exact h
  | cons c cs ih =>
    have := ih (str_cons.mp h).2.2
    rwa [Nat.add_assoc, Nat.add_comm 1] at this

theorem str_append : Str d a (l ++ l') ↔
    (∀ i (h : i < l.length), d (a + i) = l.get ⟨i, h⟩) ∧ 0 ∉ l ∧ Str d (a + l.length) l' := by
  constructor
  · intro h
    have hn := h.nul
    rw [List.mem_append, not_or] at hn
    refine ⟨fun i hi => ?_, hn.1, h.drop⟩
    rw [(strEq_iff.mp h.eq).1 i (by rw [List.length_append]; omega)]
    simp [List.getElem_append_left hi]
  · rintro ⟨hl, hn, h⟩
    induction l generalizing a with
    | nil => exact h
    | cons x xs ih =>
      rw [List.mem_cons, not_or] at hn
      refine str_cons.mpr ⟨hl 0 (Nat.zero_lt_succ _), Ne.symm hn.1, ih (fun i hi => ?_) hn.2 ?_⟩
      · rw [Nat.add_assoc, Nat.add_comm 1]
        exact hl (i + 1) (Nat.succ_lt_succ hi)
      · rwa [Nat.add_assoc, Nat.add_comm 1]

theorem Str.char (h : Str d a (l ++ c :: l')) : d (a + l.length) = c := (str_cons.mp h.drop).1

theorem Str.nil_iff (h : Str d a l) : d a = 0 ↔ l = [] := by
  cases l with
  | nil => simpa using str_nil.mp h
  | cons c cs =>
    obtain ⟨h1, h2, -⟩ := str_cons.mp h
    simp [h1, h2]

theorem Str.cut (h : Str d a (l ++ l')) : Str (update d (a + l.length) 0) a l := by
  induction l generalizing a with
  | nil => exact str_nil.mpr (update_self ..)
  | cons c cs ih =>
    obtain ⟨h1, h2, h3⟩ := str_cons.mp h
    rw [str_cons, List.length_cons, update_of_ne (by omega)]
    have := ih h3
    rw [Nat.add_assoc, Nat.add_comm 1] at this
    exact ⟨h1, h2, this⟩

theorem Str.snoc (h : Str d a l) (hc : c ≠ 0) :
    Str (update (update d (a + l.length) c) (a + l.length + 1) 0) a (l ++ [c]) := by
  induction l generalizing a with
  | nil =>
    refine str_cons.mpr ⟨?_, hc, str_nil.mpr (update_self ..)⟩
    rw [List.length_nil, Nat.add_zero, update_of_ne (by omega), update_self]
  | cons x xs ih =>
    obtain ⟨h1, h2, h3⟩ := str_cons.mp h
    rw [List.cons_append, str_cons, List.length_cons, update_of_ne (by omega),
      update_of_ne (by omega)]
    have := ih h3
    rw [Nat.add_assoc a 1, Nat.add_comm 1] at this
    exact ⟨h1, h2, this⟩

theorem Str.of_update (h : Str d a l) {v : UInt8} (hb : b < a ∨ a + l.length < b) :
    Str (update d b v) a l := by
  apply h.congr
  intro i hi
  rw [update_of_ne (by omega)]

theorem Str.advance (h : Str d a l) (h0 : p 0 = false) (ht : l.length < turns) :
    d.advance p turns a = some (a + (l.takeWhile p).length) := by
  induction l generalizing a turns with
  | nil =>
    obtain ⟨t, rfl⟩ := Nat.exists_eq_add_one_of_ne_zero (Nat.ne_zero_of_lt ht)
    rw [Buf.advance, str_nil.mp h, h0]
    rfl
  | cons c cs ih =>
    obtain ⟨t, rfl⟩ := Nat.exists_eq_add_one_of_ne_zero (Nat.ne_zero_of_lt ht)
    obtain ⟨h1, -, h3⟩ := str_cons.mp h
    rw [Buf.advance, h1, List.takeWhile_cons]
    split
    · rw [ih h3 (by simpa using ht), List.length_cons, Nat.add_assoc, Nat.add_comm 1]
    · rfl

theorem Str.dropWhile (h : Str d a l) (p : UInt8 → Bool) :
    Str d (a + (l.takeWhile p).length) (l.dropWhile p) := by
  apply Str.drop
  rwa [List.takeWhile_append_dropWhile]

theorem takeWhile_word (h : 0 ∉ l) (ch : UInt8) :
    l.takeWhile (fun c => c != 0 && c != ch) = l.takeWhile (· != ch) := by
  induction l with
  | nil => rfl
  | cons c cs ih =>
    rw [List.mem_cons, not_or] at h
    rw [List.takeWhile_cons, List.takeWhile_cons, ih h.2]
    simp [Ne.symm h.1]

theorem Str.advance_word (h : Str d a l) (ch : UInt8) (ht : l.length < turns) :
    d.advance (fun c => c != 0 && c != ch) turns a = some (a + (l.takeWhile (· != ch)).length) := by
  rw [h.advance rfl ht, takeWhile_word h.nul]

theorem Str.strchr_of_not_mem (h : Str d a l) (hc : c ∉ l) (ht : l.length < turns) (h0 : c ≠ 0) :
    d.strchr turns a c = some none := by
  have hw : l.takeWhile (· != c) = l :=
    List.takeWhile_eq_self_iff.mpr fun x hx => by simpa using fun hx' : x = c => hc (hx' ▸ hx)
  rw [strchr, h.advance_word c ht, hw, Option.map_some]
  rw [(strEq_iff.mp h.eq).2, if_neg (Ne.symm h0)]

theorem Str.strchr_append (h : Str d a (l ++ c :: l')) (hc : c ∉ l) (ht : (l ++ c :: l').length < turns) :
    d.strchr turns a c = some (some (a + l.length)) := by
  have hw : (l ++ c :: l').takeWhile (· != c) = l := by
    rw [List.takeWhile_append_of_pos fun x hx => by simpa using fun hx' : x = c => hc (hx' ▸ hx)]
    simp
  rw [strchr, h.advance_word c ht, hw, Option.map_some, if_pos h.char]

theorem Str.strrchr_of_not_mem (h : Str d a l) (hc : c ∉ l) (ht : l.length < turns)
    (last : Option Nat) : d.strrchr c turns a last = some last := by
  induction l generalizing a turns last with
  | nil =>
    obtain ⟨t, rfl⟩ := Nat.exists_eq_add_one_of_ne_zero (Nat.ne_zero_of_lt ht)
    rw [strrchr, if_pos (str_nil.mp h)]
  | cons x xs ih =>
    obtain ⟨t, rfl⟩ := Nat.exists_eq_add_one_of_ne_zero (Nat.ne_zero_of_lt ht)
    obtain ⟨h1, h2, h3⟩ := str_cons.mp h
    rw [List.mem_cons, not_or] at hc
    rw [strrchr, h1, if_neg h2, if_neg (Ne.symm hc.1)]
    exact ih h3 hc.2 (by simpa using ht) last

theorem Str.strrchr_append (h : Str d a (l ++ c :: l')) (hc : c ∉ l')
    (ht : (l ++ c :: l').length < turns) (last : Option Nat) :
    d.strrchr c turns a last = some (some (a + l.length)) := by
  induction l generalizing a turns last with
  | nil =>
    obtain ⟨t, rfl⟩ := Nat.exists_eq_add_one_of_ne_zero (Nat.ne_zero_of_lt ht)
    obtain ⟨h1, h2, h3⟩ := str_cons.mp h
    rw [strrchr, h1, if_neg h2, if_pos rfl]
    exact h3.strrchr_of_not_mem hc (by simpa using ht) _
  | cons x xs ih =>
    obtain ⟨t, rfl⟩ := Nat.exists_eq_add_one_of_ne_zero (Nat.ne_zero_of_lt ht)
    obtain ⟨h1, h2, h3⟩ := str_cons.mp h
    rw [strrchr, h1, if_neg h2, ih h3 (by simpa using ht), List.length_cons, Nat.add_assoc, Nat.add_comm 1]

theorem str_ofList (h : 0 ∉ l) : Str (ofList l) 0 l := by
  refine ⟨strEq_iff.mpr ⟨fun i hi => ?_, ?_⟩, h⟩
  · simp [ofList, hi]
  · simp [ofList]

theorem Str.strcat (h : Str d 0 l) (hn : 0 ∉ l') (ht : l.length < turns) :
    ∃ e, d.strcat turns l' = some e ∧ Str e 0 (l ++ l') := by
  have hw : l.takeWhile (· != 0) = l :=
    List.takeWhile_eq_self_iff.mpr fun x hx => by simpa using fun hx' : x = 0 => h.nul (hx' ▸ hx)
  rw [Buf.strcat, h.advance rfl ht, hw, Nat.zero_add]
  refine ⟨d.splice l.length (l'.length + 1) (ofList l'), rfl, str_append.mpr ⟨fun i hi => ?_, h.nul, ?_⟩⟩
  · rw [splice_of_not_mem (by omega)]
    exact (strEq_iff.mp h.eq).1 i hi
  · apply (str_ofList hn).congr
    intro i hi
    rw [splice_of_mem (by omega) (by omega)]
    congr 1
    omega

end Str

end TrueOs.Buf
