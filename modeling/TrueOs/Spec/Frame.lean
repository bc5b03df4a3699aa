import TrueOs.Spec.Walk

/-! What a change of the disk leaves alone. -/

namespace TrueOs.Fs

variable {g : Geom} {w w' : View} {γ : Ghost} {sec : Nat → Nat} {n k j q size : Nat}

theorem hold_of_lt (hk : k < 12) : w.hold sec k = w.addr sec k := by
  rw [View.hold, if_pos hk, View.addr, if_pos hk]

theorem hold_succ (hk : 12 ≤ k) : w.hold sec (k + 1) = w.addr sec k := by
  rw [View.hold, if_neg (by omega), if_neg (by omega), Nat.add_sub_cancel]

theorem hold_table : w.hold sec 12 = sec 12 := by
  rw [View.hold, if_neg (Nat.lt_irrefl 12), if_pos rfl]

theorem hold_cases (q : Nat) : q < 12 ∨ q = 12 ∨ ∃ k, 12 ≤ k ∧ q = k + 1 := by
  by_cases h : q ≤ 12
  · omega
  · exact Or.inr (Or.inr ⟨q - 1, by omega⟩)

theorem exists_hold (w : View) (sec : Nat → Nat) (k : Nat) : ∃ q, w.hold sec q = w.addr sec k := by
  by_cases hk : k < 12
  · exact ⟨k, hold_of_lt hk⟩
  · exact ⟨k + 1, hold_succ (by omega)⟩

theorem addr_congr (h : sec 12 ≠ 0 → w'.blk (sec 12) = w.blk (sec 12)) : w'.addr sec k = w.addr sec k := by
  rw [View.addr, View.addr]
  by_cases hk : k < 12
  · rw [if_pos hk, if_pos hk]
  · rw [if_neg hk, if_neg hk]
    by_cases hc : k < 140 ∧ sec 12 ≠ 0
    · rw [if_pos hc, if_pos hc, h hc.2]
    · rw [if_neg hc, if_neg hc]

theorem hold_congr (h : sec 12 ≠ 0 → w'.blk (sec 12) = w.blk (sec 12)) : w'.hold sec q = w.hold sec q := by
  rw [View.hold, View.hold, addr_congr h]

theorem ent_congr {sec' : Nat → Nat} (ha : w'.addr sec' k = w.addr sec k)
    (hb : w.addr sec k ≠ 0 → w'.blk (w.addr sec k) = w.blk (w.addr sec k)) :
    w'.ent sec' k j = w.ent sec k j := by
  rw [View.ent, View.ent, ha]
  by_cases hc : k < 140 ∧ j < 21 ∧ w.addr sec k ≠ 0
  · rw [if_pos hc, if_pos hc, hb hc.2.2]
  · rw [if_neg hc, if_neg hc]

def SameBlocks (w w' : View) (sec : Nat → Nat) : Prop :=
  ∀ q, w.hold sec q ≠ 0 → w'.blk (w.hold sec q) = w.blk (w.hold sec q)

section

variable (h : SameBlocks w w' sec)
include h

theorem SameBlocks.table : sec 12 ≠ 0 → w'.blk (sec 12) = w.blk (sec 12) := by
  intro h12
  have := h 12
  rw [hold_table] at this
  exact this h12

theorem SameBlocks.addr : w'.addr sec k = w.addr sec k := addr_congr h.table

theorem SameBlocks.hold : w'.hold sec q = w.hold sec q := hold_congr h.table

theorem SameBlocks.blk (ha : w.addr sec k ≠ 0) :
    w'.blk (w.addr sec k) = w.blk (w.addr sec k) := by
  obtain ⟨q, hq⟩ := exists_hold w sec k
  have := h q
  rw [hq] at this
  exact this ha

theorem SameBlocks.ent : w'.ent sec k j = w.ent sec k j :=
  ent_congr h.addr h.blk

theorem SameBlocks.dirOk (hd : DirOk g w sec) : DirOk g w' sec where
  tbl := hd.tbl
  addr k hk ha := by
    rw [h.addr] at ha ⊢
    exact hd.addr k hk ha
  good k hk ha := by
    rw [h.addr] at ha ⊢
    rw [h.blk ha]
    exact hd.good k hk ha

theorem SameBlocks.dirRep {d p : Nat} (hd : DirRep g w sec d p) :
    DirRep g w' sec d p where
  ok := h.dirOk hd.ok
  dot := by rw [h.ent]; exact hd.dot
  dotdot := by rw [h.ent]; exact hd.dotdot
  normal k j e he := hd.normal k j e (h.ent ▸ he)
  names k j e k' j' e' he he' := hd.names k j e k' j' e' (h.ent ▸ he) (h.ent ▸ he')
  live k h₁ h₂ h₃ := by
    obtain ⟨j, e, he⟩ := hd.live k h₁ h₂ h₃
    exact ⟨j, e, by rw [h.ent]; exact he⟩
  tbl h12 := by
    obtain ⟨⟨e, he⟩, hu⟩ := hd.tbl h12
    exact ⟨⟨e, by rw [h.ent]; exact he⟩, fun k j e hk he => hu k j e hk (h.ent ▸ he)⟩

theorem SameBlocks.fileRep (hf : FileRep w sec size) : FileRep w' sec size where
  lt := hf.lt
  fresh := hf.fresh
  addr b hb := by
    rw [h.addr]
    exact hf.addr b hb
  tbl := hf.tbl

end

section Own

def Free (w : View) (lba : Nat) : Prop := ∀ n q, w.ibit n = true → w.hold (w.sec n) q ≠ lba

theorem Own.free (h : Own w) {lba : Nat} (hu : w.used lba = false) (h0 : lba ≠ 0) : Free w lba := by
  intro n q hn hq
  have := h.used n q hn (hq ▸ h0)
  rw [hq, hu] at this
  cases this

theorem Own.mono (h : Own w)
    (hold : ∀ n q, w'.ibit n = true → w'.hold (w'.sec n) q ≠ 0 →
      (w.ibit n = true ∧ w.hold (w.sec n) q = w'.hold (w'.sec n) q ∨ Free w (w'.hold (w'.sec n) q)) ∧
        w'.used (w'.hold (w'.sec n) q) = true)
    (fresh : ∀ n q n' q', w'.ibit n = true → w'.ibit n' = true → w'.hold (w'.sec n) q ≠ 0 →
      Free w (w'.hold (w'.sec n) q) → w'.hold (w'.sec n) q = w'.hold (w'.sec n') q' →
      n = n' ∧ q = q') : Own w' where
  used n q hn hq := (hold n q hn hq).2
  once n q n' q' hn hn' hq he := by
    obtain ⟨h₁, -⟩ := hold n q hn hq
    obtain ⟨h₂, -⟩ := hold n' q' hn' (he ▸ hq)
    rcases h₁ with ⟨hb, ho⟩ | hf
    · rcases h₂ with ⟨hb', ho'⟩ | hf'
      · exact h.once n q n' q' hb hb' (ho ▸ hq) (by rw [ho, ho', he])
      · exact absurd (ho.trans he) (hf' n q hb)
    · exact fresh n q n' q' hn hn' hq hf he

end Own

end TrueOs.Fs
