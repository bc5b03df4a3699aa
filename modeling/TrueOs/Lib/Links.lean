import Mathlib.Data.List.Chain

/-! Doubly linked sequences over any type of addresses. -/

namespace TrueOs.Links

variable {A : Type*} {next prev next' prev' : A → A} {a b : A} {l l₁ l₂ mid mid' ys : List A}

def Joined (next prev : A → A) (a b : A) : Prop := next a = b ∧ prev b = a

theorem isChain_joined_iff :
    l.IsChain (Joined next prev) ↔ l.IsChain (next · = ·) ∧ l.reverse.IsChain (prev · = ·) := by
  rw [List.isChain_reverse]
  constructor
  · intro h
    exact ⟨h.imp fun _ _ hab => hab.1, h.imp fun _ _ hab => hab.2⟩
  · rintro ⟨hnext, hprev⟩
    rw [List.isChain_iff_forall_rel_of_append_cons_cons] at hnext hprev ⊢
    intro a b l₁ l₂ hl
    exact ⟨hnext hl, hprev hl⟩

theorem isChain_congr (h : l.IsChain (Joined next prev)) (hnext : ∀ a ∈ l.dropLast, next' a = next a)
    (hprev : ∀ a ∈ l.tail, prev' a = prev a) : l.IsChain (Joined next' prev') := by
  rw [List.isChain_iff_forall_rel_of_append_cons_cons] at h ⊢
  rintro a b l₁ l₂ rfl
  obtain ⟨hab, hba⟩ := h rfl
  refine ⟨(hnext a ?_).trans hab, (hprev b ?_).trans hba⟩
  · simp [List.dropLast_append_of_ne_nil]
  · cases l₁ <;> simp

theorem isChain_replace (h : (l₁ ++ a :: (mid ++ b :: l₂)).IsChain (Joined next prev))
    (hmid : (a :: (mid' ++ [b])).IsChain (Joined next' prev'))
    (hleft : ∀ x ∈ l₁, next' x = next x ∧ prev' x = prev x) (ha : prev' a = prev a)
    (hb : next' b = next b) (hright : ∀ x ∈ l₂, next' x = next x ∧ prev' x = prev x) :
    (l₁ ++ a :: (mid' ++ b :: l₂)).IsChain (Joined next' prev') := by
  obtain ⟨h₁, h'⟩ := List.isChain_split.mp h
  rw [← List.cons_append] at h'
  obtain ⟨-, h₂⟩ := List.isChain_split.mp h'
  have h₂' : ((a :: mid') ++ b :: l₂).IsChain (Joined next' prev') := by
    refine List.isChain_split.mpr ⟨hmid, isChain_congr h₂ (fun x hx => ?_) (fun x hx => (hright x hx).2)⟩
    rcases List.mem_cons.mp (List.dropLast_subset (b :: l₂) hx) with rfl | hx
    · exact hb
    · exact (hright x hx).1
  refine List.isChain_split.mpr ⟨isChain_congr h₁ (fun x hx => ?_) (fun x hx => ?_), h₂'⟩
  · rw [List.dropLast_concat] at hx
    exact (hleft x hx).1
  · rcases List.mem_append.mp (List.mem_of_mem_tail hx) with hx | hx
    · exact (hleft x hx).2
    · rwa [List.mem_singleton.mp hx]

/-- From `a` on, the addresses before `b` are `ys`. -/
def Path (next : A → A) : A → List A → A → Prop
  | a, [], b => a = b
  | a, y :: ys, b => a = y ∧ a ≠ b ∧ Path next (next a) ys b

theorem path_of_isChain (h : (a :: (ys ++ [b])).IsChain (next · = ·)) (hb : b ∉ ys) : Path next (next a) ys b := by
  induction ys generalizing a with
  | nil => exact (List.isChain_cons_cons.mp h).1
  | cons y ys ih =>
    obtain ⟨rfl, h⟩ := List.isChain_cons_cons.mp h
    obtain ⟨hne, hb⟩ := not_or.mp (mt List.mem_cons.mpr hb)
    exact ⟨rfl, Ne.symm hne, ih h hb⟩

theorem Path.congr (h : Path next a ys b) (heq : ∀ y ∈ ys, next' y = next y) : Path next' a ys b := by
  induction ys generalizing a with
  | nil => exact h
  | cons y ys ih =>
    obtain ⟨rfl, hne, h⟩ := h
    refine ⟨rfl, hne, ?_⟩
    rw [heq a List.mem_cons_self]
    exact ih h fun y hy => heq y (List.mem_cons_of_mem a hy)

end TrueOs.Links
