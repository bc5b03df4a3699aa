import Mathlib.Data.List.GetD
import Mathlib.Data.Nat.Digits.Defs
import TrueOs.Kernel.Printk
import TrueOs.Lib.CString

/-! `vsprintf` of `lib/stdio.c` in memory: one cursor runs over the format, another over the output. -/

namespace TrueOs.Stdio

open Function (update update_self update_of_ne update_eq_self)
open Printk

/-- `*src` is copied up to and with the zero that ends it. -/
def strcpy : (turns : Nat) → Buf → (dst src : Nat) → Option Buf
  | 0, _, _, _ => none
  | turns + 1, m, dst, src =>
    if m src = 0 then some (update m dst (m src))
    else strcpy turns (update m dst (m src)) (dst + 1) (src + 1)

def strlen : (turns : Nat) → Buf → (p : Nat) → Option Nat
  | 0, _, _ => none
  | turns + 1, m, p => if m p = 0 then some 0 else (strlen turns m (p + 1)).map (· + 1)

def itoaAt (value base : Nat) (m : Buf) (bufPtr : Nat) : Buf × Nat :=
  if _h : 1 < base ∧ value / base ≠ 0 then
    let r := itoaAt (value / base) base m bufPtr
    (update r.1 r.2 (digit (value % base)), r.2 + 1)
  else
    (update m bufPtr (digit (value % base)), bufPtr + 1)
termination_by value
decreasing_by
  refine Nat.div_lt_self (Nat.pos_of_ne_zero ?_) _h.1
  rintro rfl
  exact _h.2 (Nat.zero_div base)

/-- `%d`: a negative number is negated behind its sign. -/
def decimalAt (argInt : Nat) (m : Buf) (bufPtr : Nat) : Buf × Nat :=
  if 2 ^ 31 ≤ argInt then
    itoaAt ((2 ^ 32 - argInt) % 2 ^ 32) 10 (update m bufPtr 0x2D) (bufPtr + 1)
  else
    itoaAt argInt 10 m bufPtr

/-- The loop; `word ap` is the next argument.  A letter that is no conversion is looked at again. -/
def vsLoop (limit : Nat) (word : Nat → Nat) : (turns : Nat) → Buf → (bufPtr indexPtr ap : Nat) → (indexChar : UInt8) →
    Option Buf
  | 0, _, _, _, _, _ => none
  | turns + 1, m, bufPtr, indexPtr, ap, indexChar =>
    if indexChar = 0 then
      some m
    else if indexChar ≠ percent then
      let m := update m bufPtr indexChar
      vsLoop limit word turns m (bufPtr + 1) (indexPtr + 1) ap (m (indexPtr + 1))
    else
      let indexPtr := indexPtr + 1
      let indexChar := m indexPtr
      if indexChar = 0x73 then
        (strcpy limit m bufPtr (word ap)).bind fun m =>
          (strlen limit m (word ap)).bind fun n =>
            vsLoop limit word turns m (bufPtr + n) (indexPtr + 1) (ap + 1) (m (indexPtr + 1))
      else if indexChar = 0x63 then
        let m := update m bufPtr (UInt8.ofNat (word ap))
        vsLoop limit word turns m (bufPtr + 1) (indexPtr + 1) (ap + 1) (m (indexPtr + 1))
      else if indexChar = 0x64 then
        let r := decimalAt (word ap) m bufPtr
        vsLoop limit word turns r.1 r.2 (indexPtr + 1) (ap + 1) (r.1 (indexPtr + 1))
      else if indexChar = 0x78 then
        let r := itoaAt (word ap) 16 m bufPtr
        vsLoop limit word turns r.1 r.2 (indexPtr + 1) (ap + 1) (r.1 (indexPtr + 1))
      else
        vsLoop limit word turns m bufPtr indexPtr ap indexChar

/-- The memory afterwards and the result.  Every loop gets `limit` turns. -/
def vsprintf (limit : Nat) (word : Nat → Nat) (m : Buf) (str format ap : Nat) : Option (Buf × Nat) :=
  (vsLoop limit word limit m str format ap (m format)).bind fun m => (strlen limit m str).map fun n => (m, n)

def numeral (base n : Nat) : List UInt8 := if n = 0 then [0x30] else (Nat.digits base n).reverse.map digit

def signed (w : Nat) : List UInt8 :=
  if 0 ≤ Fs.int32 w then numeral 10 (Fs.int32 w).toNat else 0x2D :: numeral 10 (Fs.int32 w).natAbs

inductive Arg
  | str (l : List UInt8)
  | chr (c : UInt8)
  | int (w : Nat)

/-- Every percent sign of the format is followed by a conversion, whose argument is rendered in its place. -/
inductive Renders : (format : List UInt8) → (args : List Arg) → (out : List UInt8) → Prop
  | nil : Renders [] [] []
  | lit {c f as o} (hc : c ≠ percent) (h : Renders f as o) : Renders (c :: f) as (c :: o)
  | str {l f as o} (hl : 0 ∉ l) (h : Renders f as o) : Renders (percent :: 0x73 :: f) (.str l :: as) (l ++ o)
  | chr {c f as o} (hc : c ≠ 0) (h : Renders f as o) : Renders (percent :: 0x63 :: f) (.chr c :: as) (c :: o)
  | dec {w f as o} (hw : w < 2 ^ 32) (h : Renders f as o) : Renders (percent :: 0x64 :: f) (.int w :: as) (signed w ++ o)
  | hex {w f as o} (hw : w < 2 ^ 32) (h : Renders f as o) :
      Renders (percent :: 0x78 :: f) (.int w :: as) (numeral 16 w ++ o)

def Away (a n str cap : Nat) : Prop := a + n < str ∨ str + cap ≤ a

def ArgsAt (m : Buf) (word : Nat → Nat) (str cap : Nat) : (ap : Nat) → List Arg → Prop
  | _, [] => True
  | ap, .str l :: as => (m.Str (word ap) l ∧ Away (word ap) l.length str cap) ∧ ArgsAt m word str cap (ap + 1) as
  | ap, .chr c :: as => UInt8.ofNat (word ap) = c ∧ ArgsAt m word str cap (ap + 1) as
  | ap, .int w :: as => word ap = w ∧ ArgsAt m word str cap (ap + 1) as

section Digits

variable {base n : Nat}

theorem itoa_eq_numeral (hb : 1 < base) (n : Nat) : itoa n base = numeral base n := by
  induction n using Nat.strong_induction_on with
  | _ n ih =>
    rw [itoa]
    by_cases hq : n / base = 0
    · rw [dif_neg (fun h => h.2 hq)]
      have hlt : n < base := by rwa [Nat.div_eq_zero_iff_lt (by omega)] at hq
      rw [Nat.mod_eq_of_lt hlt, numeral]
      split
      · next h0 =>
        rw [h0]
        rfl
      · next h0 => rw [Nat.digits_of_lt base n h0 hlt]; rfl
    · have hpos : 0 < n := Nat.pos_of_ne_zero fun h => hq (by rw [h, Nat.zero_div])
      rw [dif_pos ⟨hb, hq⟩, ih _ (Nat.div_lt_self hpos hb), numeral, numeral, if_neg hq, if_neg (by omega),
        Nat.digits_def' hb hpos, List.reverse_cons, List.map_append]
      rfl

theorem decimal_eq_signed {w : Nat} (hw : w < 2 ^ 32) : decimal w = signed w := by
  rw [decimal, signed, Fs.int32]
  by_cases h : 2 ^ 31 ≤ w
  · have hneg : ¬(0 : Int) ≤ (w : Int) - 2 ^ 32 := by omega
    have habs : ((w : Int) - 2 ^ 32).natAbs = 2 ^ 32 - w := by omega
    rw [if_pos h, if_neg (show ¬w < 2 ^ 31 by omega), if_neg hneg, habs, itoa_eq_numeral (by decide)]
  · rw [if_neg h, if_pos (show w < 2 ^ 31 by omega), if_pos (Int.natCast_nonneg w), Int.toNat_natCast,
      itoa_eq_numeral (by decide)]

theorem digit_ne_zero {d : Nat} (hd : d < 16) : digit d ≠ 0 := by
  have h : ∀ d < 16, digit d ≠ 0 := by decide
  exact h d hd

theorem zero_not_mem_itoa (hb : base ≤ 16) (h₀ : 0 < base) (n : Nat) : 0 ∉ itoa n base := by
  have hlast : ∀ n, digit (n % base) ≠ 0 := fun n => digit_ne_zero (lt_of_lt_of_le (Nat.mod_lt n h₀) hb)
  induction n using Nat.strong_induction_on with
  | _ n ih =>
    rw [itoa]
    split
    · next h =>
      have hpos : 0 < n := Nat.pos_of_ne_zero fun hn => h.2 (by rw [hn, Nat.zero_div])
      rw [List.mem_append, not_or]
      exact ⟨ih _ (Nat.div_lt_self hpos h.1), by simpa using (hlast n).symm⟩
    · simpa using (hlast n).symm

end Digits

section Put

variable {m : Buf} {p a i : Nat} {l l' : List UInt8} {c : UInt8}

def put (m : Buf) (p : Nat) (l : List UInt8) : Buf := m.splice p l.length (Buf.ofList l)

theorem put_of_mem (h : p ≤ i) (h' : i < p + l.length) : put m p l i = l.getD (i - p) 0 := Buf.splice_of_mem h h'

theorem put_of_not_mem (h : i < p ∨ p + l.length ≤ i) : put m p l i = m i := Buf.splice_of_not_mem h

theorem put_nil (m : Buf) (p : Nat) : put m p [] = m :=
  funext fun i => put_of_not_mem (by rw [List.length_nil]; omega)

theorem put_append (m : Buf) (p : Nat) (l l' : List UInt8) : put (put m p l) (p + l.length) l' = put m p (l ++ l') := by
  funext i
  have hlen : (l ++ l').length = l.length + l'.length := List.length_append
  by_cases hlo : i < p
  · rw [put_of_not_mem (by omega), put_of_not_mem (by omega), put_of_not_mem (by omega)]
  · by_cases hmid : i < p + l.length
    · rw [put_of_not_mem (by omega), put_of_mem (by omega) hmid, put_of_mem (by omega) (by omega),
        List.getD_append _ _ _ _ (by omega)]
    · by_cases hhi : i < p + l.length + l'.length
      · rw [put_of_mem (by omega) hhi, put_of_mem (by omega) (by omega), List.getD_append_right _ _ _ _ (by omega)]
        congr 1
        omega
      · rw [put_of_not_mem (by omega), put_of_not_mem (by omega), put_of_not_mem (by omega)]

theorem update_eq_put (m : Buf) (p : Nat) (c : UInt8) : update m p c = put m p [c] := by
  funext i
  by_cases hi : i = p
  · subst hi
    rw [update_self, put_of_mem le_rfl (by rw [List.length_singleton]; omega), Nat.sub_self]
    rfl
  · rw [update_of_ne hi, put_of_not_mem (by rw [List.length_singleton]; omega)]

theorem itoaAt_eq (value base : Nat) (m : Buf) (p : Nat) :
    itoaAt value base m p = (put m p (itoa value base), p + (itoa value base).length) := by
  induction value using Nat.strong_induction_on with
  | _ n ih =>
    rw [itoaAt, itoa]
    by_cases h : 1 < base ∧ n / base ≠ 0
    · have hpos : 0 < n := Nat.pos_of_ne_zero fun hn => h.2 (by rw [hn, Nat.zero_div])
      rw [dif_pos h, dif_pos h, ih _ (Nat.div_lt_self hpos h.1)]
      dsimp only
      rw [update_eq_put, put_append, List.length_append, List.length_singleton, Nat.add_assoc]
    · rw [dif_neg h, dif_neg h, update_eq_put, List.length_singleton]

theorem decimalAt_eq (w : Nat) (m : Buf) (p : Nat) :
    decimalAt w m p = (put m p (decimal w), p + (decimal w).length) := by
  rw [decimalAt, decimal]
  by_cases h : 2 ^ 31 ≤ w
  · rw [if_pos h, if_pos h, Nat.mod_eq_of_lt (show 2 ^ 32 - w < 2 ^ 32 by omega), itoaAt_eq, update_eq_put]
    have happ := put_append m p [0x2D] (itoa (2 ^ 32 - w) 10)
    rw [List.length_singleton] at happ
    rw [happ, List.length_cons, List.singleton_append]
    congr 1
    omega
  · rw [if_neg h, if_neg h, itoaAt_eq]

theorem strlen_eq {turns : Nat} (h : m.Str p l) (ht : l.length < turns) : strlen turns m p = some l.length := by
  induction l generalizing p turns with
  | nil =>
    cases turns with
    | zero => omega
    | succ turns => rw [strlen, if_pos (Buf.str_nil.mp h), List.length_nil]
  | cons c l ih =>
    obtain ⟨hc, h0, hs⟩ := Buf.str_cons.mp h
    rw [List.length_cons] at ht
    cases turns with
    | zero => omega
    | succ turns =>
      rw [strlen, hc, if_neg h0, ih hs (by omega)]
      rfl

theorem strcpy_eq {turns dst src : Nat} (h : m.Str src l) (ht : l.length < turns)
    (haway : src + l.length < dst ∨ dst + l.length < src) : strcpy turns m dst src = some (put m dst (l ++ [0])) := by
  induction l generalizing m dst src turns with
  | nil =>
    cases turns with
    | zero => omega
    | succ turns =>
      have h0 := Buf.str_nil.mp h
      rw [strcpy, if_pos h0, h0, update_eq_put, List.nil_append]
  | cons c l ih =>
    obtain ⟨hc, h0, hs⟩ := Buf.str_cons.mp h
    rw [List.length_cons] at ht haway
    cases turns with
    | zero => omega
    | succ turns =>
      have hrest : Buf.Str (update m dst c) (src + 1) l :=
        hs.congr fun i hi => update_of_ne (by omega) _ _
      have happ := put_append m dst [c] (l ++ [0])
      rw [List.length_singleton] at happ
      rw [strcpy, hc, if_neg h0, ih hrest (by omega) (by omega), update_eq_put, happ]
      rfl

end Put

section Loop

variable {m : Buf} {word : Nat → Nat} {str cap limit : Nat} {f out o : List UInt8} {as : List Arg}

def Clear (m : Buf) (str cap : Nat) : Prop := ∀ i < cap, m (str + i) = 0

theorem put_zero (hz : Clear m str cap) (ho : out.length < cap) : put m str (out ++ [0]) = put m str out := by
  rw [← put_append, ← update_eq_put]
  have h0 : put m str out (str + out.length) = 0 := by
    rw [put_of_not_mem (by omega)]
    exact hz _ ho
  rw [← h0, update_eq_self]

theorem str_put (out : List UInt8) {a : Nat} {l : List UInt8} (h : m.Str a l) (haway : Away a l.length str cap)
    (ho : out.length ≤ cap) : (put m str out).Str a l :=
  h.congr fun i hi => put_of_not_mem (by rcases haway with h | h <;> omega)

theorem away_tail {a n : Nat} (h : Away a (n + 1) str cap) : Away (a + 1) n str cap := by
  rcases h with h | h
  · exact Or.inl (by omega)
  · exact Or.inr (by omega)

theorem Renders.nul (h : Renders f as o) (hf : 0 ∉ f) : 0 ∉ o := by
  induction h with
  | nil => exact List.not_mem_nil
  | lit hc h ih =>
    rw [List.mem_cons, not_or] at hf ⊢
    exact ⟨hf.1, ih hf.2⟩
  | str hl h ih =>
    simp only [List.mem_cons, not_or] at hf
    rw [List.mem_append, not_or]
    exact ⟨hl, ih hf.2.2⟩
  | chr hc h ih =>
    simp only [List.mem_cons, not_or] at hf ⊢
    exact ⟨hc.symm, ih hf.2.2⟩
  | dec hw h ih =>
    simp only [List.mem_cons, not_or] at hf
    rw [List.mem_append, not_or, ← decimal_eq_signed hw]
    refine ⟨?_, ih hf.2.2⟩
    rw [decimal]
    split
    · rw [List.mem_cons, not_or]
      exact ⟨by decide, zero_not_mem_itoa (by decide) (by decide) _⟩
    · exact zero_not_mem_itoa (by decide) (by decide) _
  | hex hw h ih =>
    simp only [List.mem_cons, not_or] at hf
    rw [List.mem_append, not_or, ← itoa_eq_numeral (by decide)]
    exact ⟨zero_not_mem_itoa (by decide) (by decide) _, ih hf.2.2⟩

theorem conversion_at (out : List UInt8) {ip : Nat} {x : UInt8} (hs : m.Str ip (percent :: x :: f))
    (haway : Away ip (f.length + 2) str cap) (ho : out.length ≤ cap) : put m str out ip = percent ∧
      put m str out (ip + 1) = x ∧ m.Str (ip + 2) f ∧ Away (ip + 2) f.length str cap := by
  obtain ⟨hc, -, hx⟩ := Buf.str_cons.mp (str_put out hs haway ho)
  obtain ⟨hd, -⟩ := Buf.str_cons.mp hx
  exact ⟨hc, hd, (Buf.str_cons.mp (Buf.str_cons.mp hs).2.2).2.2, away_tail (away_tail haway)⟩

def loopAt (limit : Nat) (word : Nat → Nat) (m : Buf) (str : Nat) (out : List UInt8) (turns ip ap : Nat) : Option Buf :=
  vsLoop limit word turns (put m str out) (str + out.length) ip ap (put m str out ip)

section Turns

variable {ip ap turns : Nat}

theorem turn_lit {c : UInt8} (hchar : put m str out ip = c) (hnz : c ≠ 0) (hc : c ≠ percent) :
    loopAt limit word m str out (turns + 1) ip ap = loopAt limit word m str (out ++ [c]) turns (ip + 1) ap := by
  rw [loopAt, vsLoop, hchar, if_neg hnz, if_pos hc]
  dsimp only
  rw [update_eq_put, put_append, loopAt, List.length_append, List.length_singleton, Nat.add_assoc]

theorem turn_str (hp : put m str out ip = percent) (hx : put m str out (ip + 1) = 0x73) {l : List UInt8}
    (hcopy : strcpy limit (put m str out) (str + out.length) (word ap) = some (put m str (out ++ l)))
    (hlen : strlen limit (put m str (out ++ l)) (word ap) = some l.length) :
    loopAt limit word m str out (turns + 1) ip ap = loopAt limit word m str (out ++ l) turns (ip + 2) (ap + 1) := by
  rw [loopAt, vsLoop, hp, if_neg (by decide), if_neg (by decide)]
  dsimp only
  rw [hx, if_pos rfl, hcopy, Option.bind_some, hlen, Option.bind_some, loopAt, List.length_append, Nat.add_assoc str]

theorem turn_chr (hp : put m str out ip = percent) (hx : put m str out (ip + 1) = 0x63) {c : UInt8}
    (hword : UInt8.ofNat (word ap) = c) :
    loopAt limit word m str out (turns + 1) ip ap = loopAt limit word m str (out ++ [c]) turns (ip + 2) (ap + 1) := by
  rw [loopAt, vsLoop, hp, if_neg (by decide), if_neg (by decide)]
  dsimp only
  rw [hx, if_neg (by decide), if_pos rfl, hword, update_eq_put, put_append, loopAt, List.length_append,
    List.length_singleton, Nat.add_assoc str]

theorem turn_dec (hp : put m str out ip = percent) (hx : put m str out (ip + 1) = 0x64) :
    loopAt limit word m str out (turns + 1) ip ap =
      loopAt limit word m str (out ++ decimal (word ap)) turns (ip + 2) (ap + 1) := by
  rw [loopAt, vsLoop, hp, if_neg (by decide), if_neg (by decide)]
  dsimp only
  rw [hx, if_neg (by decide), if_neg (by decide), if_pos rfl, decimalAt_eq, put_append, loopAt, List.length_append,
    Nat.add_assoc str]

theorem turn_hex (hp : put m str out ip = percent) (hx : put m str out (ip + 1) = 0x78) :
    loopAt limit word m str out (turns + 1) ip ap =
      loopAt limit word m str (out ++ itoa (word ap) 16) turns (ip + 2) (ap + 1) := by
  rw [loopAt, vsLoop, hp, if_neg (by decide), if_neg (by decide)]
  dsimp only
  rw [hx, if_neg (by decide), if_neg (by decide), if_neg (by decide), if_pos rfl, itoaAt_eq, put_append, loopAt,
    List.length_append, Nat.add_assoc str]

end Turns

theorem loopAt_eq (out : List UInt8) (h : Renders f as o) (hz : Clear m str cap) (hlim : o.length < limit)
    {ip ap turns : Nat} (hs : m.Str ip f) (haway : Away ip f.length str cap) (has : ArgsAt m word str cap ap as)
    (hfit : out.length + o.length < cap) (ht : f.length < turns) :
    loopAt limit word m str out turns ip ap = some (put m str (out ++ o)) := by
  induction h generalizing out ip ap turns with
  | nil =>
    obtain ⟨turns, rfl⟩ := Nat.exists_eq_add_one.mpr ht
    have h0 : put m str out ip = 0 := Buf.str_nil.mp (str_put out hs haway (by omega))
    rw [loopAt, vsLoop, if_pos h0, List.append_nil]
  | @lit c f as o hc h ih =>
    obtain ⟨turns, rfl⟩ := Nat.exists_eq_add_one.mpr (Nat.zero_lt_of_lt ht)
    rw [List.length_cons] at hfit hlim ht haway
    obtain ⟨hchar, hnz, -⟩ := Buf.str_cons.mp (str_put out hs haway (by omega))
    rw [turn_lit hchar hnz hc, ih (out ++ [c]) (by omega) (Buf.str_cons.mp hs).2.2 (away_tail haway) has
      (by rw [List.length_append, List.length_singleton]; omega) (by omega), List.append_assoc, List.singleton_append]
  | @str l f as o hl h ih =>
    obtain ⟨turns, rfl⟩ := Nat.exists_eq_add_one.mpr (Nat.zero_lt_of_lt ht)
    simp only [List.length_cons, List.length_append] at hfit hlim ht haway
    obtain ⟨⟨hstr, hsaway⟩, has⟩ := has
    obtain ⟨hp, hx, hs', haway'⟩ := conversion_at out hs haway (by omega)
    have hcopy : strcpy limit (put m str out) (str + out.length) (word ap) = some (put m str (out ++ l)) := by
      rw [strcpy_eq (str_put out hstr hsaway (by omega)) (by omega) (by rcases hsaway with h | h <;> omega), put_append,
        ← List.append_assoc, put_zero hz (by rw [List.length_append]; omega)]
    have hlen : strlen limit (put m str (out ++ l)) (word ap) = some l.length :=
      strlen_eq (str_put (out ++ l) hstr hsaway (by rw [List.length_append]; omega)) (by omega)
    rw [turn_str hp hx hcopy hlen, ih (out ++ l) (by omega) hs' haway' has (by rw [List.length_append]; omega) (by omega),
      List.append_assoc]
  | @chr c f as o hc h ih =>
    obtain ⟨turns, rfl⟩ := Nat.exists_eq_add_one.mpr (Nat.zero_lt_of_lt ht)
    simp only [List.length_cons] at hfit hlim ht haway
    obtain ⟨hword, has⟩ := has
    obtain ⟨hp, hx, hs', haway'⟩ := conversion_at out hs haway (by omega)
    rw [turn_chr hp hx hword, ih (out ++ [c]) (by omega) hs' haway' has
      (by rw [List.length_append, List.length_singleton]; omega) (by omega), List.append_assoc, List.singleton_append]
  | @dec w f as o hw h ih =>
    obtain ⟨turns, rfl⟩ := Nat.exists_eq_add_one.mpr (Nat.zero_lt_of_lt ht)
    rw [← decimal_eq_signed hw] at hfit hlim ⊢
    simp only [List.length_cons, List.length_append] at hfit hlim ht haway
    obtain ⟨hword, has⟩ := has
    obtain ⟨hp, hx, hs', haway'⟩ := conversion_at out hs haway (by omega)
    rw [turn_dec hp hx, hword, ih (out ++ decimal w) (by omega) hs' haway' has (by rw [List.length_append]; omega)
      (by omega), List.append_assoc]
  | @hex w f as o hw h ih =>
    obtain ⟨turns, rfl⟩ := Nat.exists_eq_add_one.mpr (Nat.zero_lt_of_lt ht)
    rw [← itoa_eq_numeral (by decide)] at hfit hlim ⊢
    simp only [List.length_cons, List.length_append] at hfit hlim ht haway
    obtain ⟨hword, has⟩ := has
    obtain ⟨hp, hx, hs', haway'⟩ := conversion_at out hs haway (by omega)
    rw [turn_hex hp hx, hword, ih (out ++ itoa w 16) (by omega) hs' haway' has (by rw [List.length_append]; omega)
      (by omega), List.append_assoc]

theorem str_of_put (hz : Clear m str cap) (ho : o.length < cap) (hnul : 0 ∉ o) : (put m str o).Str str o := by
  refine ⟨Buf.strEq_iff.mpr ⟨fun i hi => ?_, ?_⟩, hnul⟩
  · rw [put_of_mem (by omega) (by omega), Nat.add_sub_cancel_left, List.getD_eq_getElem _ _ hi]
    rfl
  · rw [put_of_not_mem (by omega)]
    exact hz _ ho

/-- With turns enough the call comes back: the buffer holds the rendering, nothing else has changed, and the result is
its length. -/
theorem vsprintf_renders (h : Renders f as o) {format ap : Nat} (hs : m.Str format f)
    (haway : Away format f.length str cap) (has : ArgsAt m word str cap ap as) (hz : Clear m str cap) (ho : o.length < cap) :
    ∃ turns, ∀ limit ≥ turns, vsprintf limit word m str format ap = some (put m str o, o.length) ∧
      (put m str o).Str str o := by
  refine ⟨f.length + o.length + 1, fun limit hl => ?_⟩
  have hout := str_of_put hz ho (h.nul hs.nul)
  have hloop := loopAt_eq [] h hz (show o.length < limit by omega) hs haway has (by rw [List.length_nil]; omega)
    (show f.length < limit by omega)
  rw [loopAt, put_nil, List.length_nil, Nat.add_zero, List.nil_append] at hloop
  refine ⟨?_, hout⟩
  rw [vsprintf, hloop, Option.bind_some, strlen_eq hout (by omega)]
  rfl

def sampleMem : Buf :=
  (Buf.splice (fun _ => 0) 100 9 (Buf.ofList [0x61, 0x25, 0x64, 0x25, 0x78, 0x25, 0x63, 0x25, 0x73])).splice 200 2
    (Buf.ofList [0x68, 0x69])

def sampleWord : Nat → Nat
  | 0 => 0x80000000
  | 1 => 0xAB
  | 2 => 0x7A
  | _ => 200

def sampleArgs : List Arg := [.int 0x80000000, .int 0xAB, .chr 0x7A, .str [0x68, 0x69]]

theorem sample_renders : Renders [0x61, 0x25, 0x64, 0x25, 0x78, 0x25, 0x63, 0x25, 0x73] sampleArgs
    (0x61 :: (signed 0x80000000 ++ (numeral 16 0xAB ++ (0x7A :: ([0x68, 0x69] ++ []))))) :=
  .lit (by decide) (.dec (by decide) (.hex (by decide) (.chr (by decide) (.str (by decide) .nil))))

def sampleOut : List UInt8 := [0x61, 0x2D, 0x32, 0x31, 0x34, 0x37, 0x34, 0x38, 0x33, 0x36, 0x34, 0x38, 0x41, 0x42, 0x7A, 0x68, 0x69]

theorem sample_out : 0x61 :: (signed 0x80000000 ++ (numeral 16 0xAB ++ (0x7A :: ([0x68, 0x69] ++ [])))) = sampleOut := by
  have hint : Fs.int32 0x80000000 = -2147483648 := by decide
  have hdec : numeral 10 2147483648 = [0x32, 0x31, 0x34, 0x37, 0x34, 0x38, 0x33, 0x36, 0x34, 0x38] := by
    decide
  have hhex : numeral 16 0xAB = [0x41, 0x42] := by
    decide
  rw [signed, hint, if_neg (by decide), show (-2147483648 : Int).natAbs = 2147483648 from rfl, hdec, hhex]
  rfl

theorem sample_vsprintf : ∃ turns, ∀ limit ≥ turns, vsprintf limit sampleWord sampleMem 1000 100 0 =
    some (put sampleMem 1000 sampleOut, 17) ∧ (put sampleMem 1000 sampleOut).Str 1000 sampleOut := by
  have hargs : ArgsAt sampleMem sampleWord 1000 64 0 sampleArgs :=
    ⟨rfl, rfl, rfl, ⟨⟨by decide, by decide⟩, Or.inl (by decide)⟩, trivial⟩
  have hclear : Clear sampleMem 1000 64 := by
    unfold Clear
    decide
  have h := sample_renders
  rw [sample_out] at h
  exact vsprintf_renders h ⟨by decide, by decide⟩ (Or.inl (by decide)) hargs hclear (by decide)

end Loop

section Printk

variable {a : Args} {f o : List UInt8} {as : List Arg}

theorem strAt_eq {l : List UInt8} {p left : Nat} (h : Buf.Str a.mem p l) (hl : l.length < left) :
    strAt a.mem left p = some l := by
  induction l generalizing p left with
  | nil =>
    cases left with
    | zero => omega
    | succ left => rw [strAt, if_pos (Buf.str_nil.mp h)]
  | cons c l ih =>
    obtain ⟨hc, h0, hs⟩ := Buf.str_cons.mp h
    rw [List.length_cons] at hl
    cases left with
    | zero => omega
    | succ left => rw [strAt, hc, if_neg h0, ih hs (by omega), Option.map_some]

theorem printk_vsprintf_eq (h : Renders f as o) {str cap ap : Nat} (has : ArgsAt a.mem a.word str cap ap as)
    (hshort : o.length < 1024) : Printk.vsprintf a f ap = some o := by
  induction h generalizing ap with
  | nil => rfl
  | @lit c f as o hc h ih =>
    rw [List.length_cons] at hshort
    have hrest := ih has (by omega)
    cases f with
    | nil =>
      obtain rfl : o = [] := (Option.some.inj hrest).symm
      rw [Printk.vsprintf, if_pos hc]
    | cons d f => rw [Printk.vsprintf, if_pos hc, hrest, Option.map_some]
  | @str l f as o hl h ih =>
    rw [List.length_append] at hshort
    obtain ⟨⟨hstr, -⟩, has⟩ := has
    rw [Printk.vsprintf, if_neg (by decide), if_pos rfl, strAt_eq hstr (by omega), Option.bind_some, ih has (by omega),
      Option.map_some]
  | chr hc h ih =>
    rw [List.length_cons] at hshort
    obtain ⟨hword, has⟩ := has
    rw [Printk.vsprintf, if_neg (by decide), if_neg (by decide), if_pos rfl, ih has (by omega), hword, Option.map_some]
  | dec hw h ih =>
    rw [List.length_append] at hshort
    obtain ⟨hword, has⟩ := has
    rw [Printk.vsprintf, if_neg (by decide), if_neg (by decide), if_neg (by decide), if_pos rfl, ih has (by omega), hword,
      decimal_eq_signed hw, Option.map_some]
  | hex hw h ih =>
    rw [List.length_append] at hshort
    obtain ⟨hword, has⟩ := has
    rw [Printk.vsprintf, if_neg (by decide), if_neg (by decide), if_neg (by decide), if_neg (by decide), if_pos rfl,
      ih has (by omega), hword, itoa_eq_numeral (by decide), Option.map_some]

end Printk

end TrueOs.Stdio
