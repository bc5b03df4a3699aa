import Mathlib.Data.List.TakeWhile

/-! The words of a list: its maximal runs without a separator. -/

namespace TrueOs

variable {α : Type} [DecidableEq α] {sep : α} {l : List α}

def words (sep : α) (l : List α) : List (List α) := (l.splitOn sep).filter (· ≠ [])

@[simp] theorem words_nil : words sep [] = [] := rfl

@[simp] theorem words_sep (l : List α) : words sep (sep :: l) = words sep l := by
  rw [words, List.splitOn_cons_eq_if_modifyHead, if_pos BEq.rfl]
  rfl

theorem words_dropWhile (l : List α) : words sep (l.dropWhile (· == sep)) = words sep l := by
  induction l with
  | nil => rfl
  | cons c cs ih =>
    rw [List.dropWhile_cons]
    split
    · rename_i hc
      rw [ih, beq_iff_eq.mp hc, words_sep]
    · rfl

theorem words_append {w tail : List α} (hne : w ≠ []) (hn : sep ∉ w) :
    words sep (w ++ sep :: tail) = w :: words sep tail := by
  rw [words, List.splitOn_append_cons_self_of_not_mem hn, List.filter_cons_of_pos (by simpa using hne)]
  rfl

theorem words_single {w : List α} (hne : w ≠ []) (hn : sep ∉ w) : words sep w = [w] := by
  rw [words, List.splitOn_eq_singleton hn]
  simp [hne]

theorem sep_not_mem_takeWhile (l : List α) : sep ∉ l.takeWhile (· != sep) := by
  intro h
  have := List.mem_takeWhile_imp h
  simp at this

theorem head_dropWhile_eq {c : α} {cs : List α} (h : l.dropWhile (· == sep) = c :: cs) : c ≠ sep := by
  have := List.head?_dropWhile_not (· == sep) l
  rw [h] at this
  simpa using this

theorem head_dropWhile_ne {c : α} {cs : List α} (h : l.dropWhile (· != sep) = c :: cs) : c = sep := by
  have := List.head?_dropWhile_not (· != sep) l
  rw [h] at this
  simpa using this

theorem words_takeWhile {c : α} {cs : List α} (hc : c ≠ sep) :
    words sep (c :: cs) = (c :: cs).takeWhile (· != sep) :: words sep ((c :: cs).dropWhile (· != sep)) := by
  have happ := List.takeWhile_append_dropWhile (p := (· != sep)) (l := c :: cs)
  have hname : (c :: cs).takeWhile (· != sep) ≠ [] := by simp [hc]
  cases ht : (c :: cs).dropWhile (· != sep) with
  | nil =>
    rw [ht, List.append_nil] at happ
    rw [happ, words_nil]
    exact words_single (List.cons_ne_nil _ _) (happ ▸ sep_not_mem_takeWhile (c :: cs))
  | cons d ds =>
    have hd := head_dropWhile_ne ht
    subst hd
    rw [ht] at happ
    rw [words_sep]
    calc words d (c :: cs) = words d ((c :: cs).takeWhile (· != d) ++ d :: ds) := by rw [happ]
      _ = _ := words_append hname (sep_not_mem_takeWhile (c :: cs))

end TrueOs
