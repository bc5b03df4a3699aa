import TrueOs.Spec.Making

/-! `sys_unlink` and `sys_rmdir` on a consistent file system. -/

namespace TrueOs.Fs

open Prog

structure Tame (w : View) (γ : Ghost) : Prop where
  flat : ∀ d, IsDir w γ d → w.sec d 12 = 0
  low : ∀ n q, w.ibit n = true → w.hold (w.sec n) q ≤ maxLba

section Release

variable {g : Geom} {w W : View} {m m' : Mem} {γ : Ghost} {s : Fs} {E : Prop} {n : Nat}

theorem At.used_lt (h : At g w m s) {l : Nat} (hl : w.used l = true) : g.base ≤ l ∧ l < g.top := by
  rw [← h.view] at hl
  exact of_decide_eq_true (Bool.and_eq_true_iff.mp hl).1

theorem Sane.lt_hold (hS : Sane g w m γ) (h : At g w m' s) (hn : w.ibit n = true) (h0 : n ≠ 0) {q : Nat}
    (hq : w.hold (w.sec n) q ≠ 0) : g.base < w.hold (w.sec n) q ∧ w.hold (w.sec n) q < g.top := by
  obtain ⟨hb, ht⟩ := h.used_lt (hS.own.used n q hn hq)
  refine ⟨Nat.lt_of_le_of_ne hb fun he => h0 ?_, ht⟩
  have hroot : w.hold (w.sec 0) 0 = g.base := by
    rw [hold_of_lt (by omega), View.addr, if_pos (by omega), hS.base]
  exact (hS.own.once n q 0 0 hn hS.tree.root.1 hq (he.symm.trans hroot.symm)).1

theorem Skel.ok (h : Skel m m') (hok : m.Ok) (hf : m'.fileTable = m.fileTable) : m'.Ok := by
  refine ⟨h.list ▸ hok.nodup, ?_, ?_⟩
  · intro p hp
    rw [h.list] at hp
    obtain ⟨i, hi⟩ := hok.obj p hp
    obtain ⟨j, hj, -⟩ := h.symm.some hi
    exact ⟨j, hj⟩
  · intro p i hi
    obtain ⟨j, hj, -⟩ := h.some hi
    rw [h.list, hf]
    exact hok.known p j hj

theorem sat_release (h : At g W m' s) (hok : m'.Ok)
    (hc : ∀ p i, m'.inodes p = some i → 1 ≤ i.iOpenCnts ∧ i.iOpenCnts < 2 ^ 32)
    (hobj : ∀ p i, m'.inodes p = some i → i.iNo = n → i.iSectors = w.sec n)
    (hino : W.ino n = w.ino n) (hsame : SameBlocks w W (w.sec n)) (hno : n < 4096 ∧ (w.ino n).iNo = n)
    (hbl : ∀ q, w.hold (w.sec n) q ≠ 0 → g.base < w.hold (w.sec n) q ∧ w.hold (w.sec n) q < g.top)
    (htl : w.sec n 12 ≠ 0 → E ∨ w.sec n 12 ≤ maxLba) {R : Unit → Fs → Prop}
    (hR : ∀ t, At g (W.freed g n (w.sec n)) m' t → R () t) : ((inodeRelease n).on s).Sat E R := by
  have hdel : (m'.deliver W n).iNo = n ∧ (m'.deliver W n).iSectors = w.sec n := by
    cases hf : m'.find n with
    | none =>
      rw [Mem.deliver_of_none hf, hino]
      exact ⟨hno.2, rfl⟩
    | some p =>
      obtain ⟨-, i, hi, hin⟩ := Mem.find_some hf
      rw [Mem.deliver_of_find hf hi]
      exact ⟨hin, hobj p i hi hin⟩
  apply sat_inodeRelease h hok hno.1 (fun p i _ hi => hc p i hi) rfl (Or.inr hdel.1)
  · rw [hdel.2]
    intro lba hlba
    obtain ⟨h0, q, rfl⟩ := hold_of_mem_blocks hlba
    rw [hsame.hold] at h0 ⊢
    obtain ⟨h₁, h₂⟩ := hbl q h0
    exact ⟨Nat.le_of_lt h₁, h₂, Or.inr h₁⟩
  · rw [hdel.2]
    exact htl
  · rw [hdel.2]
    exact hR

end Release

section Remove

variable {g : Geom} {w : View} {m : Mem} {γ : Ghost} {s : Fs} {E : Prop} {d n k j : Nat} {i : Inode} {e : Ent}

theorem hits_iff {sec : Nat → Nat} (hk : k < 140) (hj : j < 21) (ha : w.addr sec k ≠ 0) :
    hits (w.blk (w.addr sec k)) n j = true ↔ ∃ e, w.ent sec k j = some e ∧ e.normal = true ∧ e.ino = n := by
  rw [ent_of hk hj ha, hits, Option.any_eq_true]
  simp only [Bool.and_eq_true, beq_iff_eq]

theorem Tree.onlyHit (h : Tree g w γ) (hd : IsDir w γ d) (he : w.ent (w.sec d) k j = some e)
    (hn : e.normal = true) : OnlyHit w (w.sec d) e.ino k j := by
  obtain ⟨hk, hj, ha, -⟩ := ent_eq_some he
  refine ⟨⟨hk, hj, ha, (hits_iff hk hj ha).mpr ⟨e, he, hn, rfl⟩⟩, ?_⟩
  intro k' hk' j' hj' ha' hhit
  obtain ⟨e', he', hn', hino⟩ := (hits_iff hk' hj' ha').mp hhit
  exact h.once d k' j' e' k j e hd.1 hd.2 he' he hn' hn hino

theorem sat_remove {dr : DirRef} (h : At g w m s) (hS : Sane g w m γ) (hc : Counted m)
    (hi : m.inodes (dr.ptr m) = some i) (hd : IsDir w γ d) (hst : Stands w d i)
    (he : w.ent (w.sec d) k j = some e) (hn : e.normal = true)
    (hleaf : ∀ x, w.ibit x = true → x ≠ 0 → γ.par x ≠ e.ino) (hE : E ∨ Tame w γ) {R : Unit → Fs → Prop}
    (hR : ∀ sec' W t, Shrunk g w γ d e.ino (i.iSize - 24) sec' W →
      At g W (m.set (dr.ptr m) (i.body (i.iSize - 24) sec')) t → R () t) :
    ((deleteDirEntry dr e.ino).on s).Sat E (fun _ t => ((inodeRelease e.ino).on t).Sat E R) := by
  have hrep := hS.tree.rep hd
  obtain ⟨hib, h0, hpar, -⟩ := hS.tree.ent d k j e hd.1 hd.2 he hn
  have hne : e.ino ≠ d := by
    rintro hed
    exact hleaf d hd.1 (hed ▸ h0) (by rw [← hed, hpar, hed])
  have hsize := hS.tree.size_lt hd
  apply sat_deleteDirEntry h hi (hst.sec.symm ▸ hrep.ok) (hst.sec.symm ▸ hS.tree.onlyHit hd he hn)
  · intro x hx
    have hhold : w.hold (w.sec d) x = w.sec d x := by rw [hold_of_lt hx, View.addr, if_pos hx]
    rw [hst.sec]
    by_cases hx0 : w.sec d x = 0
    · rw [hx0]
      have := g.base_pos
      simp only [Geom.top]
      omega
    · rw [← hhold] at hx0 ⊢
      exact (h.used_lt (hS.own.used d x hd.1 hx0)).2
  · apply hE.imp_right
    intro ht
    refine ⟨by rw [hst.size]; omega, by rw [hst.no]; exact (hS.tree.no d hd.1).1, fun hk => ?_⟩
    obtain ⟨-, -, ha, -⟩ := ent_eq_some he
    rw [View.addr, if_neg (by omega), if_neg (by simp [ht.flat d hd])] at ha
    exact absurd rfl ha
  · intro w₁ sec' t hrem ht
    have hshrunk := shrunk hS.own hS.tree hd hst he hn rfl hleaf hrem
    rw [hst.sec] at hrem
    obtain ⟨hed, -, -⟩ := hrem.edit hrep (hS.own.sec hd.1) he hn
    have hskel : Skel m (m.set (dr.ptr m) (i.body (i.iSize - 24) sec')) := skel_set hi rfl rfl
    apply sat_release ht (hskel.ok hS.cached.ok rfl)
    · intro p i' hi'
      obtain ⟨i₀, hi₀, -, hcnt⟩ := hskel.some hi'
      rw [← hcnt]
      exact ⟨hS.cached.pos p i₀ hi₀, hc p i₀ hi₀⟩
    · intro p i' hi' hno
      have hp : p ≠ dr.ptr m := by
        rintro rfl
        rw [Mem.set_inodes_self, Option.some.injEq] at hi'
        rw [← hi', Inode.body_iNo, hst.no] at hno
        exact hne hno.symm
      rw [Mem.set_inodes, Function.update_of_ne hp] at hi'
      rw [(hS.cached.agree p i' hi').2, hno]
      rfl
    · rw [View.setIno_ino, hst.no, Function.update_of_ne hne, hed.ino]
    · exact (hed.same hS.own hd.1 hib hne).1
    · exact hS.tree.no _ hib
    · exact fun q => hS.lt_hold h hib h0
    · intro _
      have htab : w.hold (w.sec e.ino) 12 = w.sec e.ino 12 := hold_table
      rw [← htab]
      exact hE.imp_right fun hT => hT.low e.ino 12 hib
    · exact fun t' ht' => hR sec' _ t' hshrunk ht'

end Remove

section Opened

variable {g : Geom} {w : View} {m : Mem} {γ : Ghost} {n p : Nat} {i : Inode} {cur : Option Nat}

theorem Sane.counted_at (h : Sane g w m γ) (hc : Calm m) (hd : IsDir w γ (cur.getD 0)) :
    Counted (m.at w cur) := by
  cases cur with
  | none => exact hc.counted
  | some d =>
    have hone : Below 1 m := hc.below (by omega)
    exact (hone.opened h.cached (h.tree.no d hd.1).2).counted

theorem Sane.at (h : Sane g w m γ) (hc : Calm m) (hd : IsDir w γ (cur.getD 0)) : Sane g w (m.at w cur) γ :=
  ⟨h.own, h.tree, h.cached_at hc hd, h.base⟩

theorem Sane.opened {d : Nat} (h : Sane g w m γ) (hc : Calm m) (hd : IsDir w γ d) : Sane g w (m.opened w d) γ := by
  have hat : Sane g w (m.at w (some d)) γ := h.at hc hd
  exact hat

/-- The path leads to the root, by whatever way. -/
def ToRoot (w : View) (p : List UInt8) : Prop := ∃ par, w.walk 0 none (components p) = .dir par 0

theorem toRoot_of_nil {p : List UInt8} (h : components p = []) : ToRoot w p :=
  ⟨0, by rw [h, View.walk]; rfl⟩

theorem Dirs.walk_dots (h : Dirs g w m γ) {e : Ent} {k j : Nat} (he : w.ent (w.sec 0) k j = some e)
    (ht : e.ty = ftDirectory) (h0 : e.ino = 0) : w.walk 0 none [e.name] = .dir 0 0 := by
  have hl : w.lookup (w.sec ((none : Option Nat).getD 0)) e.name = some e := (h.list 0 h.root.1).lookup he
  rw [View.walk, hl]
  dsimp only
  rw [if_pos ht, View.walk, h0]
  rfl

theorem Dirs.toRoot {p : List UInt8} (h : Dirs g w m γ) (hp : isRootPath p = true) : ToRoot w p := by
  have hr := h.list 0 h.root.1
  simp only [isRootPath, Bool.or_eq_true, beq_iff_eq] at hp
  rcases hp with (rfl | rfl) | rfl
  · exact toRoot_of_nil (by decide)
  · have hc : components (slash :: dot) = [dot] := by decide
    exact ⟨0, hc.symm ▸ h.walk_dots hr.dot rfl rfl⟩
  · have hc : components (slash :: dotdot) = [dotdot] := by decide
    exact ⟨0, hc.symm ▸ h.walk_dots hr.dotdot rfl h.root.2⟩

end Opened

section Unlink

variable {g : Geom} {w : View} {m : Mem} {γ : Ghost} {s : Fs} {E : Prop} {p : List UInt8} {stack : Stack}

theorem sat_sysUnlink (h : At g w m s) (hS : Sane g w m γ) (hc : Calm m) (hnul : 0 ∉ p)
    (hE : E ∨ PathOk p ∧ ¬ToRoot w p ∧ Tame w γ) {Q : Int → Fs → Prop} (hno : ∀ t, At g w m t → Q (-1) t)
    (hyes : ∀ d n size sec W t, Shrunk g w γ d n size sec W → At g W (m.upd d size sec) t → Q 0 t) :
    ((sysUnlink stack p).on s).Sat E Q := by
  have hI := hS.dirs hc.counted
  rw [sysUnlink, sat_bind, sat_assert, decide_eq_true_eq, decide_eq_false_iff_not]
  refine ⟨fun _ => ?_, fun hlen => hE.resolve_right fun hp => hlen hp.1.len⟩
  rw [sat_bind]
  apply sat_searchFile h hI hnul (hE.imp_right And.left)
  intro r m' t _ _ hf ht
  dsimp only
  rw [sat_bind, sat_assert, decide_eq_true_eq, decide_eq_false_iff_not]
  cases hf with
  | root hr =>
    refine ⟨fun h0 => absurd rfl h0, fun _ => hE.resolve_right fun hp => hp.2.1 (hI.toRoot hr)⟩
  | slashes hr hcs =>
    refine ⟨fun h0 => ?_, fun _ => hE.resolve_right fun hp => hp.2.1 (toRoot_of_nil hcs)⟩
    dsimp only
    split
    · exact sat_dirClose_return (some 0) ht hI hno
    · exact sat_dirClose_return (some 0) ht hI hno
  | dir par no hr hcs hs hw =>
    refine ⟨fun h0 => ?_, fun h0 => hE.resolve_right fun hp => hp.2.1 ⟨par, ?_⟩⟩
    · dsimp only
      rw [if_neg (by omega), if_pos rfl]
      exact sat_dirClose_return (some par) ht hI hno
    · dsimp only at h0
      rw [hw, show no = 0 by omega]
  | file c no tried left hr hcs hne hs hw =>
    have hroot : IsDir w γ ((none : Option Nat).getD 0) := hI.root.1
    obtain ⟨_, _, e, _, hd, hl, hty, rfl⟩ := hI.walk_file hroot hw
    obtain ⟨k, j, he, -⟩ := lookup_some hl
    obtain ⟨i, hi, hst⟩ := hI.stands hd
    have hrep := hS.tree.rep hd
    -- the dots are directories
    have hn : e.normal = true := by
      by_contra hn
      obtain ⟨rfl, hj⟩ := hrep.normal k j e he (by simpa using hn)
      obtain rfl | rfl : j = 0 ∨ j = 1 := by omega
      · rw [hrep.dot, Option.some.injEq] at he
        exact hty (he ▸ rfl)
      · rw [hrep.dotdot, Option.some.injEq] at he
        exact hty (he ▸ rfl)
    obtain ⟨-, h0, -, hfile⟩ := hS.tree.ent _ k j e hd.1 hd.2 he hn
    have hlt := (hI.lookup_file hd hl hty).1
    refine ⟨fun _ => ?_, fun hz => absurd hz (by dsimp only; omega)⟩
    dsimp only
    rw [if_neg (by omega), if_neg (by decide), uint32_of_lt (by omega), sat_bind, sat_get]
    cases inFileTable t.mem e.ino with
    | true =>
      rw [if_pos rfl]
      exact sat_dirClose_return c ht hI hno
    | false =>
      rw [if_neg (by decide)]
      simp only [sat_bind]
      apply sat_remove ht (hS.at hc hd) (hS.counted_at hc hd) hi hd hst he hn
      · intro x hx hx0 hpar
        have := (hS.tree.par x hx).2
        rw [hpar, hfile] at this
        exact hty (by simpa using this)
      · exact hE.imp_right fun hp => hp.2.2
      · intro sec' W u hsh hu
        apply sat_dirClose_upd hu hS.cached hc hi hst.no
        exact fun v hv => hyes _ _ _ _ _ v hsh hv
  | miss c tried left hr hcs hne hs hw =>
    refine ⟨fun _ => ?_, fun hz => absurd hz (by dsimp only; omega)⟩
    dsimp only
    rw [if_pos rfl]
    exact sat_dirClose_return c ht hI hno

end Unlink

section Empty

variable {g : Geom} {w : View} {γ : Ghost} {n : Nat}

theorem Tree.leaf (h : Tree g w γ) (hn : IsDir w γ n) (hs : (w.ino n).iSize = 48) :
    ∀ x, w.ibit x = true → x ≠ 0 → γ.par x ≠ n := by
  intro x hx h0 hpar
  have hcard := h.size n hn.1 hn.2
  have hmem : x ∈ children w γ n := mem_children.mpr ⟨(h.no x hx).1, hx, h0, hpar⟩
  have := Finset.card_pos.mpr ⟨x, hmem⟩
  omega

theorem Tree.leaf_sec (h : Tree g w γ) (hn : IsDir w γ n) (hs : (w.ino n).iSize = 48) {k : Nat} (hk : k < 12) :
    w.sec n (k + 1) = 0 := by
  have hr := h.rep hn
  have hnone : ∀ k' j e, 1 ≤ k' → w.ent (w.sec n) k' j ≠ some e := by
    intro k' j e hk' he
    have hnorm : e.normal = true := by
      by_contra hc
      obtain ⟨rfl, -⟩ := hr.normal k' j e he (by simpa using hc)
      omega
    obtain ⟨h₁, h₂, h₃, -⟩ := h.ent n k' j e hn.1 hn.2 he hnorm
    exact h.leaf hn hs e.ino h₁ h₂ h₃
  by_contra hne
  by_cases hk' : k + 1 < 12
  · obtain ⟨j, e, he⟩ := hr.live (k + 1) (by omega) hk' hne
    exact hnone _ _ _ (by omega) he
  · obtain rfl : k = 11 := by omega
    obtain ⟨⟨e, he⟩, -⟩ := hr.tbl hne
    exact hnone _ _ _ (by omega) he

end Empty

section Rmdir

variable {g : Geom} {w : View} {m : Mem} {γ : Ghost} {s : Fs} {E : Prop} {p : List UInt8} {stack : Stack}
  {n par : Nat} {i : Inode}

theorem opened_of_ne {q : Nat} (h : q ≠ m.ptr n) : (m.opened w n).inodes q = m.inodes q := by
  rw [Mem.opened]
  cases hf : m.find n with
  | none =>
    rw [Mem.ptr, hf] at h
    exact Function.update_of_ne h _ _
  | some r =>
    rw [Mem.ptr_of_find hf] at h
    exact Function.update_of_ne h _ _

theorem Cached.ne_ptr {q : Nat} (h : Cached w m) (hi : m.inodes q = some i) (hne : i.iNo ≠ n) : q ≠ m.ptr n := by
  rintro rfl
  cases hf : m.find n with
  | none =>
    rw [Mem.ptr, hf, Option.getD_none, h.ok.fresh_none] at hi
    cases hi
  | some r =>
    obtain ⟨-, j, hj, hno⟩ := Mem.find_some hf
    rw [Mem.ptr_of_find hf, hj, Option.some.injEq] at hi
    exact hne (hi ▸ hno)

theorem Cached.ptr_eq {q : Nat} (h : Cached w m) (hi : m.inodes q = some i) : m.ptr i.iNo = q :=
  Mem.ptr_of_find (h.find hi)

theorem sat_dirRemove {k j : Nat} {e : Ent} (h : At g w ((m.opened w par).opened w e.ino) s)
    (hS : Sane g w m γ) (hc : Calm m) (hpar : IsDir w γ par) (hn : IsDir w γ e.ino) (h0 : e.ino ≠ 0)
    (hsize : (w.ino e.ino).iSize = 48) (he : w.ent (w.sec par) k j = some e) (hE : E ∨ Tame w γ)
    (hi : (m.opened w par).inodes (m.ptr par) = some i) (hst : Stands w par i) {Q : Int → Fs → Prop}
    (hyes : par ≠ e.ino → ∀ sec W t, Shrunk g w γ par e.ino (i.iSize - 24) sec W →
      At g W (((m.opened w par).opened w e.ino).set (m.ptr par) (i.body (i.iSize - 24) sec)) t → Q 0 t)
    (hdot : e.name = dot → ∀ W t, At g W ((m.opened w par).opened w e.ino) t → Q 0 t) :
    ((dirRemove (.heap (m.ptr par)) (.heap ((m.opened w par).ptr e.ino))).on s).Sat E Q := by
  have hrep := hS.tree.rep hpar
  have hleaf := hS.tree.leaf hn hsize
  have hS₁ : Sane g w (m.opened w par) γ := hS.opened hc hpar
  have hb₁ : Below 3 (m.opened w par) := 
    Below.opened (hc.below (Nat.le_refl 4)) hS.cached (hS.tree.no par hpar.1).2
  have hC₂ : Cached w ((m.opened w par).opened w e.ino) :=
    hS₁.cached.opened (fun p i hi => by have := hb₁ p i hi; omega) hn.1 (hS.tree.no _ hn.1).2
  have hb₂ : Below 2 ((m.opened w par).opened w e.ino) := hb₁.opened hS₁.cached (hS.tree.no _ hn.1).2
  have hS₂ : Sane g w ((m.opened w par).opened w e.ino) γ := ⟨hS.own, hS.tree, hC₂, hS.base⟩
  obtain ⟨hno, hsz, hsec⟩ := hS₁.cached.deliver (hS.tree.no _ hn.1).2
  rw [dirRemove, sat_bind]
  apply sat_dirInode h
  rw [sat_bind]
  apply sat_getInode h (Mem.opened_inodes e.ino)
  simp only [sat_bind, sat_assert]
  refine ⟨fun _ => ?_, fun hf => ?_⟩
  · rw [Inode.cnt_iNo, hno]
    cases hnorm : e.normal with
    | true =>
      obtain ⟨-, -, hp, -⟩ := hS.tree.ent par k j e hpar.1 hpar.2 he hnorm
      have hne : par ≠ e.ino := by
        intro hpe
        exact hleaf e.ino hn.1 h0 (by rw [hp, hpe])
      have hptr : m.ptr par ≠ (m.opened w par).ptr e.ino := hS₁.cached.ne_ptr hi (by rw [hst.no]; exact hne)
      have hi₂ : ((m.opened w par).opened w e.ino).inodes
          ((DirRef.heap (m.ptr par)).ptr ((m.opened w par).opened w e.ino)) = some i :=
        (opened_of_ne hptr).trans hi
      exact sat_remove h hS₂ hb₂.counted hi₂ hpar hst he hnorm hleaf hE fun sec W t hsh ht =>
        hyes hne sec W t hsh ht
    | false =>
      obtain ⟨rfl, hj⟩ := hrep.normal k j e he hnorm
      obtain rfl | rfl : j = 0 ∨ j = 1 := by omega
      · -- the directory is looked for among its own entries
        rw [hrep.dot, Option.some.injEq] at he
        subst he
        dsimp only at h hn h0 hno hsz hsec hleaf hsize hdot hS₂ hb₂ hC₂ ⊢
        have hptr : (m.opened w par).ptr par = m.ptr par := hst.no ▸ hS₁.cached.ptr_eq hi
        obtain ⟨i₂, hi₂, hsec₂⟩ : ∃ i₂, ((m.opened w par).opened w par).inodes ((m.opened w par).ptr par) =
            some i₂ ∧ i₂.iSectors = w.sec par := ⟨_, Mem.opened_inodes par, hsec⟩
        rw [hptr] at hi₂
        apply sat_deleteDirEntry_none (d := .heap (m.ptr par)) h hi₂ (hsec₂.symm ▸ hrep.ok)
        · intro k hk j hj ha
          rw [hsec₂] at ha ⊢
          rw [Bool.eq_false_iff]
          intro hhit
          obtain ⟨e', he', hn', hino⟩ := (hits_iff hk hj ha).mp hhit
          obtain ⟨h₁, h₂, h₃, -⟩ := hS.tree.ent par k j e' hpar.1 hpar.2 he' hn'
          exact hleaf e'.ino h₁ h₂ h₃
        · apply sat_release (w := w) h hC₂.ok
          · exact fun p i hi => ⟨hC₂.pos p i hi, hb₂.counted p i hi⟩
          · intro p i hi hin
            rw [(hC₂.agree p i hi).2, hin]
            rfl
          · rfl
          · exact fun q _ => rfl
          · exact hS.tree.no _ hn.1
          · exact fun q => hS.lt_hold h hn.1 h0
          · exact fun h12 => absurd (hS.tree.leaf_sec hn hsize (show 11 < 12 by omega)) h12
          · exact fun t ht => hdot rfl _ t ht
      · rw [hrep.dotdot, Option.some.injEq] at he
        subst he
        refine absurd rfl (hleaf par hpar.1 ?_)
        rintro rfl
        exact h0 hS.tree.root.2.2
  · rw [List.all_eq_false] at hf
    obtain ⟨x, hx, hne⟩ := hf
    rw [Inode.cnt_iSectors, hsec, hS.tree.leaf_sec hn hsize (List.mem_range.mp hx)] at hne
    exact absurd rfl hne

theorem sat_dirIsEmpty {d : DirRef} (h : At g w m s) (hi : m.inodes (d.ptr m) = some i) {Q : Bool → Fs → Prop}
    (hQ : Q (i.iSize == 48) s) : ((dirIsEmpty d).on s).Sat E Q := by
  rw [dirIsEmpty, sat_bind]
  apply sat_dirInode h
  rw [sat_bind]
  apply sat_getInode h hi
  rw [sat_bind, sat_get, h.sb, g.entrySize]
  exact hQ

theorem sat_closeBoth {W : View} {Q : Int → Fs → Prop} {r : Int} (h : At g W ((m.opened w par).opened w n) s)
    (hS : Sane g w m γ) (hc : Calm m) (hpar : IsDir w γ par) (hQ : ∀ t, At g W m t → Q r t) : ((do
      dirClose (.heap ((m.opened w par).ptr n))
      dirClose (.heap (m.ptr par))
      return r : Prog Fs Buf Int).on s).Sat E Q := by
  have hS₁ : Sane g w (m.at w (some par)) γ := hS.at hc hpar
  have hc₁ : Counted (m.at w (some par)) := hS.counted_at hc hpar
  rw [sat_bind]
  apply sat_inodeClose h (Mem.opened_inodes n)
  intro t₁ ht₁
  rw [show ((m.opened w par).opened w n).closed ((m.opened w par).ptr n) = m.opened w par from
    hS₁.cached.closed_opened hc₁] at ht₁
  rw [sat_bind]
  apply sat_inodeClose ht₁ (Mem.opened_inodes par)
  rw [hS.cached.closed_opened hc.counted]
  exact hQ

theorem sat_sysRmdir (h : At g w m s) (hS : Sane g w m γ) (hc : Calm m) (hnul : 0 ∉ p)
    (hp : components p ≠ [] ∨ isRootPath p = true) (hE : E ∨ PathOk p ∧ ¬ToRoot w p ∧ Tame w γ)
    {Q : Int → Fs → Prop} (hno : ∀ t, At g w m t → Q (-1) t)
    (hyes : ∀ par n size sec W t, w.walk 0 none (components p) = .dir par n →
      Shrunk g w γ par n size sec W → At g W (m.upd par size sec) t → Q 0 t)
    (hdot : (components p).getLast? = some dot → ∀ W t, At g W m t → Q 0 t) :
    ((sysRmdir stack p).on s).Sat E Q := by
  have hI := hS.dirs hc.counted
  rw [sysRmdir, sat_bind]
  apply sat_searchFile h hI hnul (hE.imp_right And.left)
  intro r m' t _ _ hf ht
  dsimp only
  rw [sat_bind, sat_assert, decide_eq_true_eq, decide_eq_false_iff_not]
  cases hf with
  | root hr =>
    refine ⟨fun h0 => absurd rfl h0, fun _ => hE.resolve_right fun hp => hp.2.1 (hI.toRoot hr)⟩
  | slashes hr hcs => exact absurd hp (by simp [hr, hcs])
  | file c no tried left hr hcs hne hs hw =>
    have hroot : IsDir w γ ((none : Option Nat).getD 0) := hI.root.1
    obtain ⟨_, _, e, _, hd, hl, hty, rfl⟩ := hI.walk_file hroot hw
    obtain ⟨k, j, he, -⟩ := lookup_some hl
    have h0 : e.ino ≠ 0 := by
      intro h0
      have := (hI.target hd he).2
      rw [h0, hI.root.1.2] at this
      exact hty (by simpa using this.symm)
    refine ⟨fun _ => ?_, fun hz => absurd hz (by dsimp only; omega)⟩
    dsimp only
    rw [if_neg (by omega), if_pos rfl]
    exact sat_dirClose_return c ht hI hno
  | miss c tried left hr hcs hne hs hw =>
    refine ⟨fun _ => ?_, fun hz => absurd hz (by dsimp only; omega)⟩
    dsimp only
    rw [if_pos rfl]
    exact sat_dirClose_return c ht hI hno
  | dir par no hr hcs hs hw =>
    have hroot : IsDir w γ ((none : Option Nat).getD 0) := hI.root.1
    obtain ⟨init, c, e, hinit, hpar, hl, hty, rfl⟩ := hI.walk_dir hroot hcs hw
    obtain ⟨k, j, he, hname⟩ := lookup_some hl
    have hn := hI.lookup_dir hpar hl hty
    have hlt := (hI.no _ hn).1
    refine ⟨fun h0 => ?_, fun h0 => hE.resolve_right fun hp => hp.2.1 ⟨par, ?_⟩⟩
    · have h0 : e.ino ≠ 0 := by
        dsimp only at h0
        omega
      have hcur : IsDir w γ ((some par).getD 0) := hpar
      obtain ⟨i, hi, hst⟩ := hI.stands hcur
      have hS₁ : Sane g w (m.at w (some par)) γ := hS.at hc hpar
      have hc₁ : Counted (m.at w (some par)) := hS.counted_at hc hpar
      obtain ⟨-, hsz, -⟩ := hS₁.cached.deliver (hS.tree.no _ hn.1).2
      dsimp only
      rw [if_neg (by omega), if_neg (by decide), uint32_of_lt (by omega), sat_bind]
      apply sat_dirOpen ht (Or.inr hlt)
      intro t₁ ht₁
      rw [sat_bind]
      apply sat_dirIsEmpty (d := .heap _) ht₁ (Mem.opened_inodes e.ino)
      rw [Inode.cnt_iSize]
      by_cases hempty : (w.ino e.ino).iSize = 48
      · rw [if_pos (by rw [beq_iff_eq]; exact hsz.trans hempty), bind_on, Res.sat_bind]
        apply sat_dirRemove ht₁ hS hc hpar hn h0 hempty he (hE.imp_right fun hp => hp.2.2) hi hst
        · intro hne sec W u hsh hu
          have hptr : m.ptr par ≠ (m.opened w par).ptr e.ino := hS₁.cached.ne_ptr hi (by rw [hst.no]; exact hne)
          have hcl : ((m.opened w par).opened w e.ino).closed ((m.opened w par).ptr e.ino) = m.opened w par :=
            hS₁.cached.closed_opened hc₁
          rw [sat_bind]
          apply sat_inodeClose hu ((Function.update_of_ne hptr.symm _ _).trans (Mem.opened_inodes e.ino))
          intro t₂ ht₂
          rw [Mem.closed_set_comm hptr, hcl] at ht₂
          rw [sat_bind]
          apply sat_inodeClose ht₂ (Mem.set_inodes_self _ _ _)
          rw [hS.cached.closed_upd hc hi]
          exact fun t₃ ht₃ => hyes par _ _ sec W t₃ hw hsh ht₃
        · intro hd W u hu
          apply sat_closeBoth hu hS hc hpar
          apply hdot
          rw [hinit, List.getLast?_concat, ← hname, hd]
      · rw [if_neg (by rw [beq_iff_eq]; exact fun he => hempty (hsz.symm.trans he)), bind_on, Res.sat_bind]
        exact sat_closeBoth ht₁ hS hc hpar hno
    · dsimp only at h0
      rw [hw, show e.ino = 0 by omega]

end Rmdir

end TrueOs.Fs
