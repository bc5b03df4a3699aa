import TrueOs.Kernel.Paging

/-! `create_page_dir` of `userprog/process.c` in physical memory: every process has the kernel's page tables. -/

namespace TrueOs.Paging

open Function (update update_self update_of_ne)
open Prog

variable {s : Machine} {dir page f k : Nat} {m : Phys}

/-- `memcpy` from the self-map, by words. -/
def copyPdes (page : Nat) : (n k : Nat) → Prog Machine Buf Unit
  | 0, _ => return ()
  | n + 1, k => do
    let pde ← load (0xFFFFF000 + k * 4)
    store (page + k * 4) pde
    copyPdes page n (k + 1)

/-- `page` is what `get_kernel_pages` has returned. -/
def createPageDir (page : Nat) : Prog Machine Buf Unit := do
  copyPdes page 256 0x300
  match addrV2p (← get).dir (← get).phys page with
  | none => halt .fault
  | some newPageDirPhyAddr => store (page + 1023 * 4) (newPageDirPhyAddr ||| 7)

/-- The frame `f` of `page` is no page table and no directory. -/
structure NewPage (dir page f : Nat) (m : Phys) : Prop where
  self : SelfMap dir m
  lt : page < 0xFFC00000
  mod : page % 2 ^ 12 = 0
  pde : present (m (dir + page / 2 ^ 22 * 4)) = true
  pte : present (m (entryAt dir m page)) = true
  frame : frameOf (m (entryAt dir m page)) = f
  sole : ∀ k < 1024, present (m (dir + k * 4)) = true → frameOf (m (dir + k * 4)) ≠ f

theorem NewPage.frame_mod (h : NewPage dir page f m) : f % 2 ^ 12 = 0 := h.frame ▸ frameOf_mod _

theorem NewPage.walk_page (h : NewPage dir page f m) (hk : k < 1024) : walk dir m (page + k * 4) = some (f + k * 4) := by
  rw [walk_of_entry h.pde h.mod (by omega), ← entryAt, if_pos h.pte, h.frame]

theorem NewPage.walk_pde (h : NewPage dir page f m) (hk : k < 1024) :
    walk dir m (0xFFFFF000 + k * 4) = some (dir + k * 4) := by
  have hv : k * 2 ^ 22 < 2 ^ 32 := by omega
  have hw := walk_pdePtr h.self hv
  rwa [pdePtr_eq hv, Nat.mul_div_cancel _ (by decide)] at hw

theorem NewPage.pdes (h : NewPage dir page f m) (w : Nat) (hk : k < 1024) (j : Nat) (hj : j < 1024) :
    update m (f + k * 4) w (dir + j * 4) = m (dir + j * 4) := by
  have hne : f ≠ dir := fun e => h.sole 1023 (by decide) h.self.present (h.self.frame.trans e.symm)
  exact update_of_ne (dir_ne_entry h.self h.frame_mod hne hj hk) _ _

theorem NewPage.store (h : NewPage dir page f m) (w : Nat) (hk : k < 1024) :
    NewPage dir page f (update m (f + k * 4) w) := by
  have hlt := h.lt
  have hd := h.pdes w hk
  have hp := hd (page / 2 ^ 22) (by omega)
  -- the page table that maps `page` is in another frame
  have hat : entryAt dir (update m (f + k * 4) w) page = entryAt dir m page := by rw [entryAt, entryAt, hp]
  have he : update m (f + k * 4) w (entryAt dir m page) = m (entryAt dir m page) := by
    refine update_of_ne (fun e => h.sole _ (by omega) h.pde ?_) _ _
    have hf := h.frame_mod
    have ht := frameOf_mod (m (dir + page / 2 ^ 22 * 4))
    rw [entryAt] at e
    omega
  refine ⟨h.self.congr (hd 1023 (by decide)), hlt, h.mod, hp ▸ h.pde, ?_, ?_, fun j hj => ?_⟩
  · rw [hat, he]
    exact h.pte
  · rw [hat, he]
    exact h.frame
  · rw [hd j hj]
    exact h.sole j hj

theorem run_copyPdes (h : NewPage s.dir page f s.phys) (n : Nat) (hk : k + n ≤ 1024) :
    ∃ m, ((copyPdes page n k).on s).run = .ok ((), { s with phys := m }) ∧ NewPage s.dir page f m ∧
      (∀ j < 1024, m (s.dir + j * 4) = s.phys (s.dir + j * 4)) ∧
      ∀ j < k + n, m (f + j * 4) = s.phys ((if j < k then f else s.dir) + j * 4) := by
  induction n generalizing k s with
  | zero => exact ⟨s.phys, rfl, h, fun _ _ => rfl, fun j hj => by rw [if_pos (by omega)]⟩
  | succ n ih =>
    have hd := h.pdes (s.phys (s.dir + k * 4)) (show k < 1024 by omega)
    obtain ⟨m, hr, hm, hdm, hfm⟩ := ih (k := k + 1)
      (s := { s with phys := update s.phys (f + k * 4) (s.phys (s.dir + k * 4)) }) (h.store _ (by omega)) (by omega)
    refine ⟨m, ?_, hm, fun j hj => (hdm j hj).trans (hd j hj), fun j hj => ?_⟩
    · rw [copyPdes, run_seq (run_load (h.walk_pde (by omega))), run_seq (run_store (h.walk_page (by omega)))]
      exact hr
    · rw [hfm j (by omega)]
      by_cases hjk : j < k
      · rw [if_pos hjk, if_pos (by omega)]
        exact update_of_ne (by omega) _ _
      · rw [if_neg hjk]
        by_cases he : j = k
        · rw [if_pos (by omega), he]
          exact update_self _ _ _
        · rw [if_neg (by omega)]
          exact hd j (by omega)

/-- The new directory maps itself at its end and nothing for the user; above 0xC0000000 the two directories map alike,
and go on to do so whatever becomes of the page tables. -/
theorem kernel_space_shared (h : NewPage s.dir page f s.phys) (hc : ∀ j < 768, s.phys (f + j * 4) = 0) :
    ∃ m, ((createPageDir page).on s).run = .ok ((), { s with phys := m }) ∧ SelfMap f m ∧
      (∀ v < 0xC0000000, walk f m v = none) ∧
      ∀ m', (∀ j < 1023, m' (f + j * 4) = m (f + j * 4) ∧ m' (s.dir + j * 4) = m (s.dir + j * 4)) →
        ∀ v, 0xC0000000 ≤ v → v < 0xFFC00000 → walk f m' v = walk s.dir m' v := by
  obtain ⟨m, hr, hm, hdm, hfm⟩ := run_copyPdes h 256 (show 0x300 + 256 ≤ 1024 by decide)
  have hlt := h.lt
  have hv2p : addrV2p s.dir m page = some f := by
    rw [addrV2p_eq hm.self (by omega) hm.pde, ← entryAt, hm.frame, hm.mod]
    rfl
  have hf32 : f < 2 ^ 32 := h.frame ▸ Nat.lt_of_le_of_lt Nat.and_le_right (by decide)
  have hword : ∀ j < 1023, update m (f + 1023 * 4) (f ||| 7) (f + j * 4) = m (f + j * 4) :=
    fun j hj => update_of_ne (by omega) _ _
  refine ⟨update m (f + 1023 * 4) (f ||| 7), ?_, ⟨?_, ?_⟩, fun v hv => ?_, fun m' hm' v hv hv' => ?_⟩
  · rw [createPageDir, run_seq hr, run_seq (a := { s with phys := m }) (t := { s with phys := m }) rfl,
      run_seq (a := { s with phys := m }) (t := { s with phys := m }) rfl, hv2p]
    exact run_store (hm.walk_page (by decide))
  · rw [update_self]
    exact present_flags f
  · rw [update_self]
    exact frameOf_flags h.frame_mod hf32
  · have he : update m (f + 1023 * 4) (f ||| 7) (f + v / 2 ^ 22 * 4) = 0 := by
      rw [hword _ (by omega), hfm _ (by omega), if_pos (by omega), hc _ (by omega)]
    rw [walk, he]
    rfl
  · obtain ⟨hf, hd⟩ := hm' (v / 2 ^ 22) (by omega)
    rw [hword _ (by omega), hfm _ (by omega), if_neg (by omega)] at hf
    rw [hm.pdes _ (by decide) _ (by omega), hdm _ (by omega)] at hd
    rw [walk, walk, hf, hd]

/-- The page at 0xC0200000 becomes the directory of the first process. -/
theorem first_process_shares : ∃ m, ((createPageDir 0xC0200000).on { loaded with phys := update setupPage 0x101800 0x300007 }).run =
    .ok ((), { loaded with phys := m }) ∧ walk 0x300000 m 0xC0001234 = walk 0x100000 m 0xC0001234 := by
  have h : NewPage 0x100000 0xC0200000 0x300000 (update setupPage 0x101800 0x300007) :=
    ⟨⟨by decide, by decide⟩, by decide, by decide, by decide, by decide, by decide, by decide +kernel⟩
  have hc : ∀ j < 768, update setupPage 0x101800 0x300007 (0x300000 + j * 4) = 0 := by
    decide +kernel
  obtain ⟨m, hr, -, -, hs⟩ := kernel_space_shared (s := { loaded with phys := _ }) h hc
  exact ⟨m, hr, hs m (fun _ _ => ⟨rfl, rfl⟩) _ (by decide) (by decide)⟩

end TrueOs.Paging
