import TrueOs.Spec.Mount
import TrueOs.Spec.Path

/-! Splitting a path with `path_parse`, and the count that `path_depth_cnt` makes of it. -/

namespace TrueOs.Fs

open Prog

/-- The name that call `n` of `path_parse` leaves in a cleared buffer.  Behind the end of the path there is no
call, and the buffer stays clear. -/
def parsedName : (n : Nat) → (p : Option (List UInt8)) → List UInt8
  | _, none => []
  | 0, some pathname => (pathParse pathname).1
  | n + 1, some pathname => parsedName n (pathParse pathname).2

/-- `path_parse` yields the components one after the other and then empty names, and `path_depth_cnt` returns
their number. -/
structure DepthAgrees (name : Buf) (path : List UInt8) (s : Fs) : Prop where
  names : ∀ n, parsedName n (some path) = (components path).getD n []
  depth : ((pathDepthCnt name path).on s).run = .ok ((components path).length, s)

section Depth

variable {path : List UInt8} {p : Option (List UInt8)}

theorem parsedName_eq (n : Nat) (p : Option (List UInt8)) : parsedName n p = (compsLeft p).getD n [] := by
  induction n generalizing p with
  | zero =>
    cases p with
    | none => rfl
    | some q =>
      rw [parsedName, compsLeft, Option.elim_some, components_parse]
      split
      · next hn => rw [hn, List.getD_nil]
      · rfl
  | succ n ih =>
    cases p with
    | none => rfl
    | some q =>
      rw [parsedName, ih, compsLeft, compsLeft, Option.elim_some, components_parse q]
      split
      · next hn => rw [pathParse_nil hn, Option.elim_none, List.getD_nil, List.getD_nil]
      · rw [List.getD_cons_succ]
        rfl

theorem run_pathDepthCnt (name : Buf) (hnul : 0 ∉ path) (hshort : Short (components path)) (s : Fs) :
    ((pathDepthCnt name path).on s).run = .ok (depthOf name (components path), s) := by
  have hsat : ((pathDepthCnt name path).on s).Sat False (fun r t =>
      r = depthOf name (components path) ∧ t = s) :=
    sat_pathDepthCnt name hnul (Or.inr hshort) ⟨rfl, rfl⟩
  obtain ⟨r, t, hr, rfl, rfl⟩ := hsat.exists_run
  exact hr

theorem depthOf_eq_iff (name : Buf) (comps : List (List UInt8)) :
    depthOf name comps = comps.length ↔ comps ≠ [] ∨ name 0 = 0 := by
  cases comps with
  | nil =>
    rw [depthOf, if_pos rfl]
    split
    · next h0 => exact iff_of_true rfl (Or.inr h0)
    · next h0 => exact iff_of_false Nat.one_ne_zero (fun h => h.elim (fun hc => hc rfl) h0)
  | cons c cs =>
    rw [depthOf, if_neg (List.cons_ne_nil c cs)]
    exact iff_of_true rfl (Or.inl (List.cons_ne_nil c cs))

theorem depth_agrees_iff (name : Buf) {path : List UInt8} (hnul : 0 ∉ path) (hshort : Short (components path))
    (s : Fs) : DepthAgrees name path s ↔ components path ≠ [] ∨ name 0 = 0 := by
  rw [← depthOf_eq_iff]
  constructor
  · intro h
    have hrun := (run_pathDepthCnt name hnul hshort s).symm.trans h.depth
    exact (Prod.mk.inj (Except.ok.inj hrun)).1
  · intro h
    exact ⟨fun n => parsedName_eq n (some path), h ▸ run_pathDepthCnt name hnul hshort s⟩

/-- `//a/bc/`, whatever the buffer held. -/
theorem depth_agrees_a_bc : DepthAgrees (fun _ => 1) [47, 47, 97, 47, 98, 99, 47] (bootState 63 1000 fun _ => 0) :=
  (depth_agrees_iff _ (by decide) (by unfold Short; decide) _).mpr (Or.inl (by decide))

/-- For the root directory the first character of the buffer is counted as a name. -/
theorem root_depth_one : components [47] = [] ∧
    ((pathDepthCnt (fun _ => 1) [47]).on (bootState 63 1000 fun _ => 0)).run =
      .ok (1, bootState 63 1000 fun _ => 0) :=
  ⟨by decide, run_pathDepthCnt _ (by decide) (by unfold Short; decide) _⟩

end Depth

end TrueOs.Fs
