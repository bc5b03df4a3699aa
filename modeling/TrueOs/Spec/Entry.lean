import TrueOs.Fs.Dir
import TrueOs.Spec.Cache
import Mathlib.Data.List.TakeWhile
import Mathlib.Data.List.GetD

/-! Directory entries, decoded.

A block of a directory has 21 slots of 24 bytes.  A slot is either all zero or
holds a terminated name, an inode number and a type. -/

namespace TrueOs.Fs

structure Ent where
  name : List UInt8
  ino : Nat
  ty : Nat
  deriving DecidableEq

structure ValidName (name : List UInt8) : Prop where
  ne : name ≠ []
  len : name.length ≤ 15
  nul : 0 ∉ name

structure Ent.Ok (e : Ent) : Prop where
  valid : ValidName e.name
  ino : e.ino < 4096
  ty : e.ty = ftRegular ∨ e.ty = ftDirectory

def Ent.entry (e : Ent) : DirEntry := ⟨fun i => e.name.getD i 0, e.ino, e.ty⟩

def noEntry : DirEntry := ⟨fun _ => 0, 0, 0⟩

def encode : Option Ent → DirEntry
  | none => noEntry
  | some e => e.entry

def nameOf (f : Buf) : List UInt8 := ((List.range 16).map f).takeWhile (· != 0)

def slot (b : Buf) (j : Nat) : Option Ent :=
  let d := DirEntry.ofBytes b (24 * j)
  if d.fType = 0 then none else some ⟨nameOf d.filename, d.iNo, d.fType⟩

structure GoodBlock (b : Buf) : Prop where
  code : ∀ j < 21, DirEntry.ofBytes b (24 * j) = encode (slot b j)
  ok : ∀ j < 21, ∀ e, slot b j = some e → e.Ok

section Codes

variable {b : Buf} {j : Nat} {e : Ent} {name : List UInt8}

theorem map_getD_range (l : List UInt8) (n : Nat) (h : l.length ≤ n) :
    (List.range n).map (fun i => l.getD i 0) = l ++ List.replicate (n - l.length) 0 := by
  apply List.ext_getElem
  · simp only [List.length_map, List.length_range, List.length_append, List.length_replicate]
    omega
  · intro i h₁ h₂
    simp only [List.length_map, List.length_range] at h₁
    by_cases hi : i < l.length
    · simp [List.getElem_append_left, hi]
    · simp [List.getElem_append_right, hi, Nat.le_of_not_lt hi]

theorem nameOf_getD (h : ValidName name) : nameOf (fun i => name.getD i 0) = name := by
  have hlen := h.len
  have hall : ∀ c ∈ name, (c != 0) = true := by
    intro c hc
    have : c ≠ 0 := fun h0 => h.nul (h0 ▸ hc)
    simpa using this
  rw [nameOf, map_getD_range name 16 (by omega), List.takeWhile_append_of_pos hall,
    show 16 - name.length = (15 - name.length) + 1 by omega, List.replicate_succ]
  simp

theorem slot_of_code {o : Option Ent} (h : DirEntry.ofBytes b (24 * j) = encode o)
    (hok : ∀ e, o = some e → e.Ok) : slot b j = o := by
  rw [slot, h]
  cases o with
  | none => rfl
  | some e =>
    have he := hok e rfl
    have hty : e.ty ≠ 0 := by
      rcases he.ty with ht | ht <;> rw [ht] <;> decide
    simp only [encode, Ent.entry, if_neg hty, nameOf_getD he.valid]

theorem entryBytes_congr {d d' : Buf} {a a' : Nat} (h : ∀ k < 24, d (a + k) = d' (a' + k)) :
    DirEntry.ofBytes d a = DirEntry.ofBytes d' a' := by
  simp only [DirEntry.ofBytes, DirEntry.mk.injEq]
  refine ⟨?_, ?_, ?_⟩
  · funext k
    by_cases hk : k < 16
    · rw [Buf.slice_of_lt hk, Buf.slice_of_lt hk, h k (by omega)]
    · rw [Buf.slice_of_le (by omega), Buf.slice_of_le (by omega)]
  · apply Buf.word_congr
    intro i hi
    rw [Nat.add_assoc, Nat.add_assoc, h _ (by omega)]
  · apply Buf.word_congr
    intro i hi
    rw [Nat.add_assoc, Nat.add_assoc, h _ (by omega)]

theorem word_wordByte (d : Buf) (a n : Nat) (h : ∀ i < 4, d (a + i) = Buf.wordByte n i) :
    d.word a = n % 2 ^ 32 := by
  have h0 := h 0 (by omega)
  rw [Nat.add_zero] at h0
  rw [Buf.word, h0, h 1 (by omega), h 2 (by omega), h 3 (by omega)]
  simp only [Buf.wordByte, UInt8.toNat_ofNat']
  omega

theorem word_bytes_ino (e : Ent) : e.entry.bytes.word (0 + 16) = e.ino % 2 ^ 32 :=
  word_wordByte _ _ _ fun i hi => by
    rw [DirEntry.bytes, if_neg (by omega), if_pos (by omega), show 0 + 16 + i - 16 = i by omega]
    rfl

theorem word_bytes_ty (e : Ent) : e.entry.bytes.word (0 + 20) = e.ty % 2 ^ 32 :=
  word_wordByte _ _ _ fun i _ => by
    rw [DirEntry.bytes, if_neg (by omega), if_neg (by omega), show 0 + 20 + i - 20 = i by omega]
    rfl

theorem ofBytes_entry (he : e.Ok) : DirEntry.ofBytes e.entry.bytes 0 = e.entry := by
  have hi := he.ino
  have hty : e.ty < 4096 := by
    rcases he.ty with ht | ht <;> rw [ht] <;> decide
  simp only [DirEntry.ofBytes, Ent.entry, DirEntry.mk.injEq]
  refine ⟨?_, ?_, ?_⟩
  · funext k
    by_cases hk : k < 16
    · rw [Buf.slice_of_lt hk, Nat.zero_add]
      simp [DirEntry.bytes, hk]
    · have hl := he.valid.len
      rw [Buf.slice_of_le (by omega)]
      simp [List.getD_eq_getElem?_getD, List.getElem?_eq_none (show e.name.length ≤ k by omega)]
  · exact (word_bytes_ino e).trans (Nat.mod_eq_of_lt (by omega))
  · exact (word_bytes_ty e).trans (Nat.mod_eq_of_lt (by omega))

theorem ofBytes_splice_entry (b : Buf) (j : Nat) (he : e.Ok) :
    DirEntry.ofBytes (b.splice (24 * j) 24 e.entry.bytes) (24 * j) = e.entry := by
  conv_rhs => rw [← ofBytes_entry he]
  apply entryBytes_congr
  intro k hk
  rw [Buf.splice_of_mem (by omega) (by omega), Nat.add_sub_cancel_left, Nat.zero_add]

theorem ofBytes_splice_zero (b : Buf) (j : Nat) :
    DirEntry.ofBytes (b.splice (24 * j) 24 (fun _ => 0)) (24 * j) = noEntry := by
  have hz : DirEntry.ofBytes (fun _ => 0) 0 = noEntry := by
    simp only [DirEntry.ofBytes, noEntry, Buf.word_zero, DirEntry.mk.injEq, and_true]
    funext k
    simp [Buf.slice]
  rw [← hz]
  apply entryBytes_congr
  intro k hk
  rw [Buf.splice_of_mem (by omega) (by omega)]

theorem ofBytes_splice_of_ne {i : Nat} (b d : Buf) (h : i ≠ j) :
    DirEntry.ofBytes (b.splice (24 * j) 24 d) (24 * i) = DirEntry.ofBytes b (24 * i) := by
  apply entryBytes_congr
  intro k hk
  exact Buf.splice_of_not_mem (by omega)

theorem ofBytes_sector (b : Buf) (h : j < 21) :
    DirEntry.ofBytes (b.slice 0 512) (24 * j) = DirEntry.ofBytes b (24 * j) := by
  apply entryBytes_congr
  intro k hk
  rw [Buf.slice_of_lt (by omega), Nat.zero_add]

theorem GoodBlock.put {d : Buf} {o : Option Ent} (hb : GoodBlock b)
    (hd : DirEntry.ofBytes (b.splice (24 * j) 24 d) (24 * j) = encode o)
    (ho : ∀ e, o = some e → e.Ok) :
    GoodBlock ((b.splice (24 * j) 24 d).slice 0 512) ∧
      ∀ i < 21, slot ((b.splice (24 * j) 24 d).slice 0 512) i = if i = j then o else slot b i := by
  have hslot : ∀ i < 21, DirEntry.ofBytes ((b.splice (24 * j) 24 d).slice 0 512) (24 * i) =
      encode (if i = j then o else slot b i) := by
    intro i hi
    rw [ofBytes_sector _ hi]
    by_cases hij : i = j
    · rw [hij, hd, if_pos rfl]
    · rw [ofBytes_splice_of_ne _ _ hij, if_neg hij, hb.code i hi]
  have hokAll : ∀ i < 21, ∀ e, (if i = j then o else slot b i) = some e → e.Ok := by
    intro i hi e he
    split at he
    · exact ho e he
    · exact hb.ok i hi e he
  have heq : ∀ i < 21, slot ((b.splice (24 * j) 24 d).slice 0 512) i =
      if i = j then o else slot b i :=
    fun i hi => slot_of_code (hslot i hi) (hokAll i hi)
  refine ⟨⟨fun i hi => ?_, fun i hi e he => ?_⟩, heq⟩
  · rw [heq i hi]
    exact hslot i hi
  · rw [heq i hi] at he
    exact hokAll i hi e he

theorem GoodBlock.store (hb : GoodBlock b) (j : Nat) (he : e.Ok) :
    GoodBlock ((b.splice (24 * j) 24 e.entry.bytes).slice 0 512) ∧
      ∀ i < 21, slot ((b.splice (24 * j) 24 e.entry.bytes).slice 0 512) i =
        if i = j then some e else slot b i :=
  hb.put (ofBytes_splice_entry b j he) (fun _ h => Option.some.inj h ▸ he)

theorem GoodBlock.clear (hb : GoodBlock b) (j : Nat) :
    GoodBlock ((b.splice (24 * j) 24 (fun _ => 0)).slice 0 512) ∧
      ∀ i < 21, slot ((b.splice (24 * j) 24 (fun _ => 0)).slice 0 512) i =
        if i = j then none else slot b i :=
  hb.put (ofBytes_splice_zero b j) (fun _ h => nomatch h)

theorem slot_zero (j : Nat) : slot (fun _ => 0) j = none := by
  simp [slot, DirEntry.ofBytes]

theorem goodBlock_zero : GoodBlock (fun _ => 0) := by
  refine ⟨fun j _ => ?_, fun j _ e he => ?_⟩
  · rw [slot_zero, encode, noEntry]
    simp only [DirEntry.ofBytes, Buf.word_zero, DirEntry.mk.injEq, and_true]
    funext k
    simp [Buf.slice]
  · rw [slot_zero] at he
    cases he

end Codes

section Names

variable {b : Buf} {j : Nat} {e : Ent} {name : List UInt8}

theorem strEq_slot (h : name.length ≤ 15) :
    b.strEq (24 * j) name = (DirEntry.ofBytes b (24 * j)).filename.strEq 0 name := by
  apply Buf.strEq_congr
  intro i hi
  simp only [DirEntry.ofBytes]
  rw [Buf.slice_of_lt (by omega), Nat.zero_add]

theorem strEq_getD {l : List UInt8} (hl : 0 ∉ l) (hn : 0 ∉ name) :
    Buf.strEq (fun i => l.getD i 0) 0 name = decide (l = name) := by
  have key : ∀ (c : List UInt8) (a : Nat), 0 ∉ c →
      Buf.strEq (fun i => l.getD i 0) a c = decide (l.drop a = c) := by
    intro c
    induction c with
    | nil =>
      intro a _
      simp only [Buf.strEq, List.drop_eq_nil_iff]
      by_cases ha : a < l.length
      · have hne : l[a] ≠ 0 := fun h0 => hl (h0 ▸ List.getElem_mem ha)
        rw [List.getD_eq_getElem _ _ ha, decide_eq_false (by omega)]
        exact beq_eq_false_iff_ne.mpr hne
      · rw [List.getD_eq_default _ _ (Nat.le_of_not_lt ha), decide_eq_true (Nat.le_of_not_lt ha)]
        rfl
    | cons x c ih =>
      intro a hx
      simp only [List.mem_cons, not_or] at hx
      simp only [Buf.strEq, ih (a + 1) hx.2]
      by_cases ha : a < l.length
      · rw [List.drop_eq_getElem_cons ha, List.getD_eq_getElem _ _ ha, Bool.eq_iff_iff]
        simp only [Bool.and_eq_true, beq_iff_eq, decide_eq_true_eq, List.cons.injEq]
      · rw [List.drop_eq_nil_iff.mpr (show l.length ≤ a by omega),
          List.getD_eq_default _ _ (Nat.le_of_not_lt ha)]
        simp [hx.1]
  rw [key name 0 hn, List.drop_zero]

theorem strEq_nameOf (f : Buf) (hn : ValidName name) : f.strEq 0 name = decide (nameOf f = name) := by
  have key : ∀ (c : List UInt8) (a : Nat), a + c.length ≤ 15 → 0 ∉ c →
      f.strEq a c = decide (((List.range' a (16 - a)).map f).takeWhile (· != 0) = c) := by
    intro c
    induction c with
    | nil =>
      intro a ha _
      rw [List.length_nil] at ha
      rw [show 16 - a = (15 - a) + 1 by omega, List.range'_succ, List.map_cons, List.takeWhile_cons, Buf.strEq]
      by_cases h0 : f a = 0
      · simp [h0]
      · simp [h0]
    | cons x c ih =>
      intro a ha hx
      rw [List.length_cons] at ha
      simp only [List.mem_cons, not_or] at hx
      rw [show 16 - a = (16 - (a + 1)) + 1 by omega, List.range'_succ, List.map_cons, List.takeWhile_cons, Buf.strEq,
        ih (a + 1) (by omega) hx.2]
      by_cases h0 : f a = 0
      · simp [h0, hx.1]
      · simp [h0, Bool.beq_eq_decide_eq]
  rw [key name 0 (by simpa using hn.len) hn.nul, nameOf, List.range_eq_range']

theorem slot_eq_some (he : slot b j = some e) : nameOf (DirEntry.ofBytes b (24 * j)).filename = e.name ∧
    (DirEntry.ofBytes b (24 * j)).iNo = e.ino ∧ (DirEntry.ofBytes b (24 * j)).fType ≠ ftUnknown := by
  rw [slot] at he
  split at he
  · cases he
  · next hty =>
    cases he
    exact ⟨rfl, rfl, hty⟩

theorem slot_eq_none (h : slot b j = none) : (DirEntry.ofBytes b (24 * j)).fType = ftUnknown := by
  rw [slot] at h
  split at h
  · assumption
  · cases h

theorem strEq_of_slot (he : slot b j = some e) (hn : ValidName name) :
    b.strEq (24 * j) name = decide (e.name = name) := by
  rw [strEq_slot hn.len, strEq_nameOf _ hn, (slot_eq_some he).1]

theorem GoodBlock.strEq (hb : GoodBlock b) (hj : j < 21) (hn : ValidName name) :
    b.strEq (24 * j) name = (slot b j).any (fun e => decide (e.name = name)) := by
  rw [strEq_slot hn.len, hb.code j hj]
  cases h : slot b j with
  | none =>
    cases name with
    | nil => exact absurd rfl hn.ne
    | cons c cs =>
      have hc : c ≠ 0 := fun h0 => hn.nul (h0 ▸ List.mem_cons_self)
      simp [encode, noEntry, Buf.strEq, Ne.symm hc]
  | some e =>
    rw [Option.any_some]
    exact strEq_getD (hb.ok j hj e h).valid.nul hn.nul

end Names

end TrueOs.Fs
