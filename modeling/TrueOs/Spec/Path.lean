import TrueOs.Fs.Path
import TrueOs.Lib.Words
import TrueOs.Spec.Inv

/-! Splitting a path, and counting its components. -/

namespace TrueOs.Fs

open Prog

def components (path : List UInt8) : List (List UInt8) :=
  (path.splitOn slash).filter (· ≠ [])

def compsLeft (path : Option (List UInt8)) : List (List UInt8) := path.elim [] components

section Split

variable {path : List UInt8}

theorem components_slash (path : List UInt8) : components (slash :: path) = components path := words_sep path

theorem components_append {name tail : List UInt8} (hne : name ≠ []) (hn : slash ∉ name) :
    components (name ++ slash :: tail) = name :: components tail := words_append hne hn

theorem components_single {name : List UInt8} (hne : name ≠ []) (hn : slash ∉ name) :
    components name = [name] := words_single hne hn

theorem compsLeft_rest (q : List UInt8) : compsLeft (if q = [] then none else some q) = components q := by
  split
  · next hq =>
    rw [hq]
    rfl
  · rfl

theorem components_takeWhile {q : List UInt8} (hq : ∀ c cs, q = c :: cs → c ≠ slash) :
    components q = if q.takeWhile (· != slash) = [] then []
      else q.takeWhile (· != slash) ::
        compsLeft (if q.dropWhile (· != slash) = [] then none else some (q.dropWhile (· != slash))) := by
  cases q with
  | nil => rfl
  | cons c cs =>
    have hc := hq c cs rfl
    have hname : (c :: cs).takeWhile (· != slash) ≠ [] := by simp [hc]
    rw [if_neg hname, compsLeft_rest]
    exact words_takeWhile hc

theorem components_parse (path : List UInt8) :
    components path = if (pathParse path).1 = [] then []
      else (pathParse path).1 :: compsLeft (pathParse path).2 := by
  have hdrop : components (path.dropWhile (· == slash)) = components path := words_dropWhile path
  rw [← hdrop]
  exact components_takeWhile fun c cs h => head_dropWhile_eq h

theorem pathParse_nil (h : (pathParse path).1 = []) : (pathParse path).2 = none := by
  cases hq : path.dropWhile (· == slash) with
  | nil => simp [pathParse, hq]
  | cons c cs =>
    have := head_dropWhile_eq hq
    simp [pathParse, hq, this] at h

theorem pathParse_spec {rest : List UInt8} (h : (pathParse path).2 = some rest) :
    ∃ skip, path = skip ++ (pathParse path).1 ++ rest ∧ ∃ tail, rest = slash :: tail := by
  simp only [pathParse] at h ⊢
  split at h
  · cases h
  · rename_i hne
    cases h
    refine ⟨path.takeWhile (· == slash), ?_, ?_⟩
    · rw [List.append_assoc, List.takeWhile_append_dropWhile, List.takeWhile_append_dropWhile]
    · cases ht : (path.dropWhile (· == slash)).dropWhile (· != slash) with
      | nil => exact absurd ht hne
      | cons c cs => exact ⟨cs, by rw [head_dropWhile_ne ht]⟩

theorem pathParse_subset (path : List UInt8) : (pathParse path).1 ⊆ path :=
  ((List.takeWhile_sublist _).trans (List.dropWhile_sublist _)).subset

theorem length_rest_lt {rest : List UInt8} (hn : (pathParse path).1 ≠ [])
    (h : (pathParse path).2 = some rest) : rest.length < path.length := by
  obtain ⟨skip, hp, -⟩ := pathParse_spec h
  have hpos := List.length_pos_of_ne_nil hn
  have := congrArg List.length hp
  simp only [List.length_append] at this
  omega

theorem parse_induction {P : List UInt8 → Prop}
    (step : ∀ path, (∀ rest, (pathParse path).1 ≠ [] → (pathParse path).2 = some rest → P rest) →
      P path) (path : List UInt8) : P path := by
  induction hl : path.length using Nat.strong_induction_on generalizing path with
  | _ l ih =>
    apply step
    intro rest hn hr
    exact ih rest.length (hl ▸ length_rest_lt hn hr) rest rfl

theorem mem_of_mem_components {c : List UInt8} {x : UInt8} (h : c ∈ components path) (hx : x ∈ c) :
    x ∈ path ∧ x ≠ slash := by
  induction path using parse_induction with
  | step path ih =>
    rw [components_parse] at h
    split at h
    · cases h
    · rename_i hn
      rcases List.mem_cons.mp h with rfl | h
      · exact ⟨pathParse_subset path hx, fun hs => sep_not_mem_takeWhile _ (hs ▸ hx)⟩
      · cases hr : (pathParse path).2 with
        | none => simp [hr, compsLeft] at h
        | some rest =>
          rw [hr, compsLeft, Option.elim_some] at h
          obtain ⟨h₁, h₂⟩ := ih rest hn hr h
          obtain ⟨skip, hp, -⟩ := pathParse_spec hr
          exact ⟨by rw [hp]; exact List.mem_append_right _ h₁, h₂⟩

theorem ne_nil_of_mem_components {c : List UInt8} (h : c ∈ components path) : c ≠ [] := by
  simpa using (List.mem_filter.mp h).2

theorem length_parse_add {rest : List UInt8} (hr : (pathParse path).2 = some rest)
    (h : path.head? = some slash) : (pathParse path).1.length + 1 + rest.length ≤ path.length := by
  obtain ⟨skip, hp, -⟩ := pathParse_spec hr
  have hl := congrArg List.length hp
  simp only [List.length_append] at hl
  cases skip with
  | cons c cs =>
    simp only [List.length_cons] at hl
    omega
  | nil =>
    -- the name would begin with a slash
    rw [List.nil_append] at hp
    cases hn : (pathParse path).1 with
    | nil => rw [pathParse_nil hn] at hr; cases hr
    | cons c cs =>
      rw [hp, hn] at h
      have hc : c = slash := by simpa using h
      have hslash : slash ∉ (pathParse path).1 := sep_not_mem_takeWhile (path.dropWhile (· == slash))
      exact absurd (show slash ∈ (pathParse path).1 by rw [hn, hc]; exact List.mem_cons_self) hslash

theorem length_name_lt (hn : (pathParse path).1 ≠ []) (h : path.head? = some slash) :
    (pathParse path).1.length + 1 ≤ path.length := by
  cases path with
  | nil => cases h
  | cons c cs =>
    obtain rfl : c = slash := by simpa using h
    have hle := ((List.takeWhile_sublist (· != slash)).trans
      (List.dropWhile_sublist (l := cs) (· == slash))).length_le
    simpa [pathParse] using hle

theorem sum_components_le (h : path.head? = some slash) :
    ((components path).map (fun c => c.length + 1)).sum ≤ path.length := by
  induction path using parse_induction with
  | step path ih =>
    rw [components_parse]
    split
    · simp
    · rename_i hn
      rw [List.map_cons, List.sum_cons]
      cases hr : (pathParse path).2 with
      | none =>
        have := length_name_lt hn h
        simpa [compsLeft] using this
      | some rest =>
        obtain ⟨-, -, tail, ht⟩ := pathParse_spec hr
        have := ih rest hn hr (by rw [ht]; rfl)
        have := length_parse_add hr h
        simp only [compsLeft, Option.elim_some]
        omega

theorem length_components_le (path : List UInt8) : (components path).length ≤ path.length := by
  induction path using parse_induction with
  | step path ih =>
    rw [components_parse]
    split
    · simp
    · rename_i hn
      cases hr : (pathParse path).2 with
      | none =>
        have := List.length_pos_of_ne_nil hn
        have := ((List.takeWhile_sublist (· != slash)).trans
          (List.dropWhile_sublist (l := path) (· == slash))).length_le
        simp only [compsLeft, Option.elim_none, List.length_cons, List.length_nil]
        simp only [pathParse] at *
        omega
      | some rest =>
        have := ih rest hn hr
        have := length_rest_lt hn hr
        simp only [compsLeft, Option.elim_some, List.length_cons]
        omega

end Split

section Depth

variable {s : Fs} {E : Prop} {path : List UInt8}

def Short (comps : List (List UInt8)) : Prop := ∀ c ∈ comps, c.length ≤ 15

theorem sat_storeName {name : List UInt8} (hE : E ∨ name.length ≤ 15) {R : Unit → Fs → Prop}
    (hR : R () s) : ((storeName name).on s).Sat E R := by
  rw [storeName, maxFileNameLen]
  split
  · exact hR
  · exact hE.resolve_right (by omega)

theorem Short.head {c : List UInt8} {cs : List (List UInt8)} (h : Short (c :: cs)) : c.length ≤ 15 :=
  h c List.mem_cons_self

theorem Short.tail {c : List UInt8} {cs : List (List UInt8)} (h : Short (c :: cs)) : Short cs :=
  fun x hx => h x (List.mem_cons_of_mem _ hx)

theorem headD_ne_zero {c : List UInt8} (hne : c ≠ []) (h0 : 0 ∉ c) (d : UInt8) : c.headD d ≠ 0 := by
  cases c with
  | nil => exact absurd rfl hne
  | cons x xs => exact fun h => h0 (h ▸ List.mem_cons_self)

theorem sat_depthLoop {turns depth : Nat} {name0 : UInt8} {p : Option (List UInt8)} (h0 : name0 ≠ 0)
    (hnul : ∀ q, p = some q → 0 ∉ q) (hE : E ∨ Short (compsLeft p))
    (ht : (compsLeft p).length + 2 ≤ turns) {Q : Nat → Fs → Prop}
    (hQ : Q (depth + 1 + (compsLeft p).length) s) :
    ((depthLoop turns name0 p depth).on s).Sat E Q := by
  induction turns generalizing name0 p depth with
  | zero => omega
  | succ turns ih =>
    cases p with
    | none =>
      rw [depthLoop, if_neg h0]
      obtain ⟨t, rfl⟩ : ∃ t, turns = t + 1 := ⟨turns - 1, by simp [compsLeft] at ht; omega⟩
      rw [depthLoop, if_pos rfl]
      exact hQ
    | some q =>
      rw [compsLeft, Option.elim_some, components_parse] at hE ht hQ
      rw [depthLoop, if_neg h0, sat_bind]
      by_cases hn : (pathParse q).1 = []
      · rw [if_pos hn] at hQ
        obtain ⟨t, rfl⟩ : ∃ t, turns = t + 1 := ⟨turns - 1, by omega⟩
        apply sat_storeName (Or.inr (by simp [hn]))
        rw [hn, List.headD_nil, pathParse_nil hn, depthLoop, if_pos rfl]
        exact hQ
      · rw [if_neg hn] at hE ht hQ
        apply sat_storeName (hE.imp_right Short.head)
        have hq := hnul q rfl
        apply ih (headD_ne_zero hn (fun h => hq (pathParse_subset q h)) _)
        · intro rest hr h
          obtain ⟨skip, hp, -⟩ := pathParse_spec hr
          exact hq (hp ▸ List.mem_append_right _ h)
        · exact hE.imp_right Short.tail
        · simp only [List.length_cons] at ht
          omega
        · rw [List.length_cons] at hQ
          rwa [show depth + 1 + 1 + (compsLeft (pathParse q).2).length =
            depth + 1 + ((compsLeft (pathParse q).2).length + 1) by omega]

/-- What `path_depth_cnt` returns; a path without components leaves the first
character of its buffer to decide. -/
def depthOf (name : Buf) (comps : List (List UInt8)) : Nat :=
  if comps = [] then (if name 0 = 0 then 0 else 1) else comps.length

theorem sat_pathDepthCnt (name : Buf) (hnul : 0 ∉ path) (hE : E ∨ Short (components path))
    {Q : Nat → Fs → Prop} (hQ : Q (depthOf name (components path)) s) :
    ((pathDepthCnt name path).on s).Sat E Q := by
  rw [pathDepthCnt, sat_bind]
  have hlen := length_components_le path
  rw [components_parse] at hE hQ hlen
  by_cases hn : (pathParse path).1 = []
  · rw [if_pos hn, depthOf, if_pos rfl] at hQ
    apply sat_storeName (Or.inr (by simp [hn]))
    rw [hn, List.headD_nil, pathParse_nil hn, depthLoop]
    by_cases h0 : name 0 = 0
    · rw [if_pos h0] at hQ ⊢
      exact hQ
    · rw [if_neg h0] at hQ ⊢
      rw [depthLoop, if_pos rfl]
      exact hQ
  · rw [if_neg hn, depthOf, if_neg (List.cons_ne_nil _ _)] at hQ
    rw [if_neg hn] at hE hlen
    apply sat_storeName (hE.imp_right Short.head)
    apply sat_depthLoop (headD_ne_zero hn (fun h => hnul (pathParse_subset path h)) _)
    · intro rest hr h
      obtain ⟨skip, hp, -⟩ := pathParse_spec hr
      exact hnul (hp ▸ List.mem_append_right _ h)
    · exact hE.imp_right Short.tail
    · simp only [List.length_cons] at hlen
      omega
    · rwa [List.length_cons, Nat.add_comm] at hQ

end Depth

end TrueOs.Fs
