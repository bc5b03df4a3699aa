import Mathlib.Data.List.Perm.Subperm
import TrueOs.Lib.Bytes
import TrueOs.Lib.Links

/-! The intrusive lists of `lib/kernel/list.c` in one memory, and the sequences they stand for. -/

namespace TrueOs.Lists

open Function (update update_self update_of_ne update_apply)
open Links

structure Machine where
  mem : Buf
  intr : Bool

namespace Machine

/-- `elem->prev` and `elem->next` are the two words of `struct list_elem`. -/
def prev (s : Machine) (elem : Nat) : Nat := s.mem.word elem

def next (s : Machine) (elem : Nat) : Nat := s.mem.word (elem + 4)

def store (s : Machine) (addr value : Nat) : Machine :=
  { s with mem := s.mem.splice addr 4 (Buf.ofWords fun _ => value) }

def setPrev (s : Machine) (elem value : Nat) : Machine := s.store elem value

def setNext (s : Machine) (elem value : Nat) : Machine := s.store (elem + 4) value

end Machine

/-- `&plist->head` and `&plist->tail` of `struct list`. -/
def head (plist : Nat) : Nat := plist

def tail (plist : Nat) : Nat := plist + 8

def listInit (plist : Nat) (s : Machine) : Machine :=
  let s := s.setPrev (head plist) 0
  let s := s.setNext (head plist) (tail plist)
  let s := s.setPrev (tail plist) (head plist)
  s.setNext (tail plist) 0

def listInsertBefore (before elem : Nat) (s : Machine) : Machine :=
  let oldStatus := s.intr
  let s := { s with intr := false }
  let s := s.setNext (s.prev before) elem
  let s := s.setPrev elem (s.prev before)
  let s := s.setNext elem before
  let s := s.setPrev before elem
  { s with intr := oldStatus }

def listPush (plist elem : Nat) (s : Machine) : Machine := listInsertBefore (s.next (head plist)) elem s

def listAppend (plist elem : Nat) (s : Machine) : Machine := listInsertBefore (tail plist) elem s

/-- The links of `pelem` itself stay. -/
def listRemove (pelem : Nat) (s : Machine) : Machine :=
  let oldStatus := s.intr
  let s := { s with intr := false }
  let s := s.setNext (s.prev pelem) (s.next pelem)
  let s := s.setPrev (s.next pelem) (s.prev pelem)
  { s with intr := oldStatus }

def listPop (plist : Nat) (s : Machine) : Nat × Machine :=
  let elem := s.next (head plist)
  (elem, listRemove elem s)

def listEmpty (plist : Nat) (s : Machine) : Bool := s.next (head plist) = tail plist

section Loops

variable (plist : Nat)

/-- The loops have `none` for a list on which they do not end within `fuel` rounds. -/
def findLoop (objElem : Nat) (s : Machine) : (fuel elem : Nat) → Option Bool
  | 0, _ => none
  | fuel + 1, elem =>
    if elem ≠ tail plist then
      if elem = objElem then some true else findLoop objElem s fuel (s.next elem)
    else
      some false

def elemFind (fuel objElem : Nat) (s : Machine) : Option Bool :=
  findLoop plist objElem s fuel (s.next (head plist))

/-- The callback may read and write memory. -/
abbrev Callback := Nat → Int → StateM Machine Bool

def traversalLoop (func : Callback) (arg : Int) : (fuel elem : Nat) → Machine → Option (Nat × Machine)
  | 0, _, _ => none
  | fuel + 1, elem, s =>
    if elem ≠ tail plist then
      let (hit, s) := (func elem arg).run s
      if hit then some (elem, s) else traversalLoop func arg fuel (s.next elem) s
    else
      some (0, s)

def listTraversal (fuel : Nat) (func : Callback) (arg : Int) (s : Machine) : Option (Nat × Machine) :=
  let elem := s.next (head plist)
  if listEmpty plist s then some (0, s) else traversalLoop plist func arg fuel elem s

def lenLoop (s : Machine) : (fuel elem length : Nat) → Option Nat
  | 0, _, _ => none
  | fuel + 1, elem, length =>
    if elem ≠ tail plist then lenLoop s fuel (s.next elem) ((length + 1) % 2 ^ 32) else some length

def listLen (fuel : Nat) (s : Machine) : Option Nat := lenLoop plist s fuel (s.next (head plist)) 0

end Loops

inductive Op
  | init (plist : Nat)
  | push (plist elem : Nat)
  | append (plist elem : Nat)
  | remove (pelem : Nat)
  | pop (plist : Nat)
  | find (plist objElem : Nat)
  | len (plist : Nat)
  | empty (plist : Nat)
  | traversal (plist : Nat) (func : Callback) (arg : Int)

inductive Val
  | unit
  | ptr (p : Nat)
  | bool (b : Bool)
  | num (n : Nat)
  deriving DecidableEq

def Op.step (fuel : Nat) : Op → Machine → Option (Val × Machine)
  | .init plist, s => some (.unit, listInit plist s)
  | .push plist elem, s => some (.unit, listPush plist elem s)
  | .append plist elem, s => some (.unit, listAppend plist elem s)
  | .remove pelem, s => some (.unit, listRemove pelem s)
  | .pop plist, s => some (.ptr (listPop plist s).1, (listPop plist s).2)
  | .find plist objElem, s => (elemFind plist fuel objElem s).map (fun b => (.bool b, s))
  | .len plist, s => (listLen plist fuel s).map (fun n => (.num n, s))
  | .empty plist, s => some (.bool (listEmpty plist s), s)
  | .traversal plist func arg, s => (listTraversal plist fuel func arg s).map (fun x => (.ptr x.1, x.2))

abbrev Seqs := Nat → Option (List Nat)

def Seqs.elems (σ : Seqs) (plist : Nat) : List Nat := (σ plist).getD []

def Op.act : Op → Seqs → Seqs
  | .init plist, σ => update σ plist (some [])
  | .push plist elem, σ => update σ plist (some (elem :: σ.elems plist))
  | .append plist elem, σ => update σ plist (some (σ.elems plist ++ [elem]))
  | .remove pelem, σ => fun plist => (σ plist).map (·.erase pelem)
  | .pop plist, σ => update σ plist (some (σ.elems plist).tail)
  | _, σ => σ

/-- What an operation returns; a callback finds the machine as the calls before it left it. -/
def Op.value (σ : Seqs) (s : Machine) : Op → Val
  | .pop plist => .ptr ((σ.elems plist).headD 0)
  | .find plist objElem => .bool (objElem ∈ σ.elems plist)
  | .len plist => .num (σ.elems plist).length
  | .empty plist => .bool (σ.elems plist = [])
  | .traversal plist func arg => .ptr ((((σ.elems plist).findM? (func · arg)).run s).1.getD 0)
  | _ => .unit

def Apart (a b : Nat) : Prop := a + 8 ≤ b ∨ b + 8 ≤ a

def cells (plist : Nat) (xs : List Nat) : List Nat := head plist :: (xs ++ [tail plist])

def Same (s s' : Machine) (a : Nat) : Prop := s'.next a = s.next a ∧ s'.prev a = s.prev a

structure Free (σ : Seqs) (elem : Nat) : Prop where
  bound : elem + 8 ≤ 2 ^ 32
  apart : ∀ plist xs, σ plist = some xs → ∀ a ∈ cells plist xs, Apart elem a

def Calm (σ : Seqs) (func : Callback) (arg : Int) : Prop :=
  ∀ elem s plist xs, σ plist = some xs → ∀ a ∈ cells plist xs, Same s ((func elem arg).run s).2 a

/-- An element is inserted if it is in no list, and removed if it is in one. -/
def Op.Valid (σ : Seqs) : Op → Prop
  | .init plist => Free (update σ plist none) (head plist) ∧ Free (update σ plist none) (tail plist)
  | .push plist elem | .append plist elem => (σ plist).isSome ∧ Free σ elem
  | .remove pelem => ∃ plist, pelem ∈ σ.elems plist
  | .pop plist => σ.elems plist ≠ []
  | .find plist _ | .len plist | .empty plist => (σ plist).isSome
  | .traversal plist func arg => (σ plist).isSome ∧ Calm σ func arg

def Op.Changes (σ : Seqs) (plist : Nat) : Op → Prop
  | .init plist' | .push plist' _ | .append plist' _ | .pop plist' => plist' = plist
  | .remove pelem => pelem ∈ σ.elems plist
  | .find .. | .len _ | .empty _ | .traversal .. => False

structure Layout (σ : Seqs) : Prop where
  bound : ∀ {plist xs}, σ plist = some xs → ∀ a ∈ cells plist xs, a + 8 ≤ 2 ^ 32
  apart : ∀ {plist xs}, σ plist = some xs → (cells plist xs).Pairwise Apart
  across : ∀ {plist plist' xs ys}, plist ≠ plist' → σ plist = some xs → σ plist' = some ys →
    ∀ a ∈ cells plist xs, ∀ b ∈ cells plist' ys, Apart a b

/-- From the head the successors are the sequence, and from the tail the predecessors are its reverse. -/
structure Represents (σ : Seqs) (s : Machine) : Prop extends Layout σ where
  forward : ∀ {plist xs}, σ plist = some xs → (cells plist xs).IsChain (s.next · = ·)
  backward : ∀ {plist xs}, σ plist = some xs → (cells plist xs).reverse.IsChain (s.prev · = ·)

/-- The operation returns what it should, the sequences change as they should, and the other lists are left alone. -/
structure Follows (fuel : Nat) (σ : Seqs) (s : Machine) (op : Op) (s' : Machine) : Prop where
  returns : op.step fuel s = some (op.value σ s, s')
  represents : Represents (op.act σ) s'
  others : ∀ plist xs, ¬op.Changes σ plist → σ plist = some xs →
    op.act σ plist = some xs ∧ ∀ a ∈ cells plist xs, Same s s' a

def Acts (fuel : Nat) : Seqs → Machine → List Op → Prop
  | _, _, [] => True
  | σ, s, op :: ops => ∃ s', Follows fuel σ s op s' ∧ Acts fuel (op.act σ) s' ops

def Proper : Seqs → List Op → Prop
  | _, [] => True
  | σ, op :: ops => op.Valid σ ∧ Proper (op.act σ) ops

section Nodes

variable {s s' s'' : Machine} {a b e v x : Nat} {l₁ l₂ : List Nat}

theorem Apart.symm (h : Apart a b) : Apart b a := Or.symm h

theorem Apart.ne (h : Apart a b) : a ≠ b := by
  rw [Apart] at h
  omega

theorem Same.refl (s : Machine) (a : Nat) : Same s s a := ⟨rfl, rfl⟩

theorem Same.trans (h : Same s s' a) (h' : Same s' s'' a) : Same s s'' a := ⟨h'.1.trans h.1, h'.2.trans h.2⟩

theorem word_store_self (hv : v < 2 ^ 32) : (s.store a v).mem.word a = v := by
  rw [Machine.store, Buf.word_splice_of_mem le_rfl le_rfl, Nat.sub_self]
  exact Buf.word_ofWords_of_lt (k := 0) hv

theorem word_store_of_disjoint (h : a + 4 ≤ b ∨ b + 4 ≤ a) : (s.store a v).mem.word b = s.mem.word b :=
  Buf.word_congr fun _ _ => Buf.splice_of_not_mem (by omega)

theorem next_setNext (hv : v < 2 ^ 32) : (s.setNext a v).next a = v := word_store_self hv

theorem prev_setPrev (hv : v < 2 ^ 32) : (s.setPrev a v).prev a = v := word_store_self hv

theorem prev_setNext : (s.setNext a v).prev a = s.prev a := word_store_of_disjoint (Or.inr le_rfl)

theorem next_setPrev : (s.setPrev a v).next a = s.next a := word_store_of_disjoint (Or.inl le_rfl)

theorem same_setNext (h : Apart a b) (v : Nat) : Same s (s.setNext a v) b := by
  rw [Apart] at h
  exact ⟨word_store_of_disjoint (by omega), word_store_of_disjoint (by omega)⟩

theorem same_setPrev (h : Apart a b) (v : Nat) : Same s (s.setPrev a v) b := by
  rw [Apart] at h
  exact ⟨word_store_of_disjoint (by omega), word_store_of_disjoint (by omega)⟩

theorem listInsertBefore_eq (hprev : s.prev b = a) (hab : Apart a b) :
    listInsertBefore b e s = (((s.setNext a e).setPrev e a).setNext e b).setPrev b e := by
  subst hprev
  have hsame : (s.setNext (s.prev b) e).prev b = s.prev b := (same_setNext hab e).2
  calc listInsertBefore b e s
    _ = (((s.setNext (s.prev b) e).setPrev e ((s.setNext (s.prev b) e).prev b)).setNext e b).setPrev b e := rfl
    _ = _ := by rw [hsame]

theorem listRemove_eq (hprev : s.prev x = a) (hnext : s.next x = b) (hax : Apart a x) :
    listRemove x s = (s.setNext a b).setPrev b a := by
  subst hprev hnext
  have hsame := same_setNext (s := s) hax (s.next x)
  calc listRemove x s
    _ = (s.setNext (s.prev x) (s.next x)).setPrev ((s.setNext (s.prev x) (s.next x)).next x)
          ((s.setNext (s.prev x) (s.next x)).prev x) := rfl
    _ = _ := by rw [hsame.1, hsame.2]

structure Gap (l₁ l₂ : List Nat) (a b : Nat) : Prop where
  between : Apart a b
  left : ∀ y ∈ l₁, Apart a y ∧ Apart b y
  right : ∀ y ∈ l₂, Apart a y ∧ Apart b y

theorem gap_of_pairwise (h : (l₁ ++ a :: b :: l₂).Pairwise Apart) : Gap l₁ l₂ a b := by
  obtain ⟨-, h₂, h₁⟩ := List.pairwise_append.mp h
  obtain ⟨ha, h₂⟩ := List.pairwise_cons.mp h₂
  obtain ⟨hb, -⟩ := List.pairwise_cons.mp h₂
  exact ⟨ha b List.mem_cons_self,
    fun y hy => ⟨(h₁ y hy a List.mem_cons_self).symm, (h₁ y hy b (by simp)).symm⟩,
    fun y hy => ⟨ha y (List.mem_cons_of_mem b hy), hb y hy⟩⟩

theorem same_insert (hprev : s.prev b = a) (hab : Apart a b) (ha : Apart a x) (he : Apart e x) (hb : Apart b x) :
    Same s (listInsertBefore b e s) x := by
  rw [listInsertBefore_eq hprev hab]
  exact (same_setNext ha e).trans ((same_setPrev he a).trans ((same_setNext he b).trans (same_setPrev hb e)))

theorem joined_insert (hprev : s.prev b = a) (hab : Apart a b) (hea : Apart e a) (heb : Apart e b)
    (ha : a < 2 ^ 32) (he : e < 2 ^ 32) (hb : b < 2 ^ 32) :
    [a, e, b].IsChain (Joined (listInsertBefore b e s).next (listInsertBefore b e s).prev) := by
  rw [listInsertBefore_eq hprev hab]
  refine .cons_cons ⟨?_, ?_⟩ (.cons_cons ⟨?_, prev_setPrev he⟩ (.singleton b))
  · rw [(same_setPrev hab.symm e).1, (same_setNext hea b).1, (same_setPrev hea a).1, next_setNext he]
  · rw [(same_setPrev heb.symm e).2, prev_setNext, prev_setPrev ha]
  · rw [(same_setPrev heb.symm e).1, next_setNext hb]

theorem insert_outer (hprev : s.prev b = a) (hab : Apart a b) (hea : Apart e a) (heb : Apart e b) :
    (listInsertBefore b e s).prev a = s.prev a ∧ (listInsertBefore b e s).next b = s.next b := by
  rw [listInsertBefore_eq hprev hab]
  constructor
  · rw [(same_setPrev hab.symm e).2, (same_setNext hea b).2, (same_setPrev hea a).2, prev_setNext]
  · rw [next_setPrev, (same_setNext heb b).1, (same_setPrev heb a).1, (same_setNext hab e).1]

theorem isChain_insert (h : (l₁ ++ a :: b :: l₂).IsChain (Joined s.next s.prev))
    (hp : (l₁ ++ a :: b :: l₂).Pairwise Apart) (hlt : ∀ y ∈ l₁ ++ a :: b :: l₂, y < 2 ^ 32)
    (helt : e < 2 ^ 32) (he : ∀ y ∈ l₁ ++ a :: b :: l₂, Apart e y) :
    (l₁ ++ a :: e :: b :: l₂).IsChain
      (Joined (listInsertBefore b e s).next (listInsertBefore b e s).prev) := by
  have hgap := gap_of_pairwise hp
  have hea : Apart e a := he a (by simp)
  have heb : Apart e b := he b (by simp)
  obtain ⟨-, hprev⟩ : Joined s.next s.prev a b := (List.isChain_append_cons_cons.mp h).2.1
  obtain ⟨ha, hb⟩ := insert_outer hprev hgap.between hea heb
  have hsame (y : Nat) (hy : y ∈ l₁ ++ a :: b :: l₂) (hy' : Apart a y ∧ Apart b y) :
      Same s (listInsertBefore b e s) y := same_insert hprev hgap.between hy'.1 (he y hy) hy'.2
  have hnone : (l₁ ++ a :: ([] ++ b :: l₂)).IsChain (Joined s.next s.prev) := h
  change (l₁ ++ a :: ([e] ++ b :: l₂)).IsChain _
  exact isChain_replace hnone
    (joined_insert hprev hgap.between hea heb (hlt a (by simp)) helt (hlt b (by simp)))
    (fun y hy => hsame y (by simp [hy]) (hgap.left y hy)) ha hb
    (fun y hy => hsame y (by simp [hy]) (hgap.right y hy))

theorem same_remove (hprev : s.prev x = a) (hnext : s.next x = b) (hax : Apart a x) {y : Nat} (ha : Apart a y)
    (hb : Apart b y) : Same s (listRemove x s) y := by
  rw [listRemove_eq hprev hnext hax]
  exact (same_setNext ha b).trans (same_setPrev hb a)

theorem isChain_remove (h : (l₁ ++ a :: x :: b :: l₂).IsChain (Joined s.next s.prev))
    (hp : (l₁ ++ a :: x :: b :: l₂).Pairwise Apart) (hlt : ∀ y ∈ l₁ ++ a :: x :: b :: l₂, y < 2 ^ 32) :
    (l₁ ++ a :: b :: l₂).IsChain (Joined (listRemove x s).next (listRemove x s).prev) := by
  have hax := (gap_of_pairwise hp).between
  have hgap : Gap l₁ l₂ a b := gap_of_pairwise (hp.sublist (by simp))
  have hab := hgap.between
  obtain ⟨-, ⟨-, hprev⟩, h₂⟩ := List.isChain_append_cons_cons.mp h
  obtain ⟨hnext, -⟩ : Joined s.next s.prev x b := (List.isChain_cons_cons.mp h₂).1
  have hsame (y : Nat) (hy : Apart a y ∧ Apart b y) : Same s (listRemove x s) y :=
    same_remove hprev hnext hax hy.1 hy.2
  have hone : (l₁ ++ a :: ([x] ++ b :: l₂)).IsChain (Joined s.next s.prev) := h
  have heq := listRemove_eq hprev hnext hax
  change (l₁ ++ a :: ([] ++ b :: l₂)).IsChain _
  refine isChain_replace hone (.cons_cons ⟨?_, ?_⟩ (.singleton b)) (fun y hy => hsame y (hgap.left y hy)) ?_ ?_
    (fun y hy => hsame y (hgap.right y hy))
  · rw [heq, (same_setPrev hab.symm a).1, next_setNext (hlt b (by simp))]
  · rw [heq, prev_setPrev (hlt a (by simp))]
  · rw [heq, (same_setPrev hab.symm a).2, prev_setNext]
  · rw [heq, next_setPrev, (same_setNext hab b).1]

end Nodes

section Layouts

variable {σ : Seqs} {l e : Nat} {xs xs' : List Nat}

theorem Layout.change (h : Layout σ) (hbound : ∀ a ∈ cells l xs', a + 8 ≤ 2 ^ 32)
    (hapart : (cells l xs').Pairwise Apart)
    (hacross : ∀ l' ys, l' ≠ l → σ l' = some ys → ∀ a ∈ cells l xs', ∀ b ∈ cells l' ys, Apart a b) :
    Layout (update σ l (some xs')) := by
  have hcases {l' ys} (hys : update σ l (some xs') l' = some ys) :
      l' = l ∧ ys = xs' ∨ l' ≠ l ∧ σ l' = some ys := by
    by_cases hl : l' = l
    · subst hl
      rw [update_self] at hys
      exact Or.inl ⟨rfl, (Option.some.inj hys).symm⟩
    · rw [update_of_ne hl] at hys
      exact Or.inr ⟨hl, hys⟩
  constructor
  · intro l' ys hys
    rcases hcases hys with ⟨rfl, rfl⟩ | ⟨-, hys⟩
    · exact hbound
    · exact h.bound hys
  · intro l' ys hys
    rcases hcases hys with ⟨rfl, rfl⟩ | ⟨-, hys⟩
    · exact hapart
    · exact h.apart hys
  · intro l' l'' ys zs hne hys hzs
    rcases hcases hys with ⟨rfl, rfl⟩ | ⟨hl', hys'⟩
    · rcases hcases hzs with ⟨rfl, rfl⟩ | ⟨hl'', hzs'⟩
      · exact absurd rfl hne
      · exact hacross l'' zs hl'' hzs'
    · rcases hcases hzs with ⟨rfl, rfl⟩ | ⟨-, hzs'⟩
      · exact fun a ha b hb => (hacross l' ys hl' hys' b hb a ha).symm
      · exact h.across hne hys' hzs'

theorem Layout.insert (h : Layout σ) (hσ : σ l = some xs) (he : Free σ e) (hperm : xs'.Perm (e :: xs)) :
    Layout (update σ l (some xs')) := by
  have hcells : (cells l xs').Perm (e :: cells l xs) :=
    ((hperm.append_right [tail l]).cons (head l)).trans (.swap e (head l) _)
  have hmem {a} (ha : a ∈ cells l xs') : a = e ∨ a ∈ cells l xs := List.mem_cons.mp (hcells.mem_iff.mp ha)
  refine h.change (fun a ha => ?_) ?_ (fun l' ys hl hys a ha => ?_)
  · rcases hmem ha with rfl | ha
    · exact he.bound
    · exact h.bound hσ a ha
  · rw [hcells.pairwise_iff Apart.symm]
    exact List.pairwise_cons.mpr ⟨he.apart l xs hσ, h.apart hσ⟩
  · rcases hmem ha with rfl | ha
    · exact he.apart l' ys hys
    · exact h.across hl.symm hσ hys a ha

theorem Layout.shrink (h : Layout σ) (hσ : σ l = some xs) (hsub : xs'.Sublist xs) :
    Layout (update σ l (some xs')) := by
  have hcells : (cells l xs').Sublist (cells l xs) := (hsub.append_right [tail l]).cons_cons (head l)
  refine h.change (fun a ha => ?_) ((h.apart hσ).sublist hcells) (fun l' ys hl hys a ha => ?_)
  · exact h.bound hσ a (hcells.subset ha)
  · exact h.across hl.symm hσ hys a (hcells.subset ha)

theorem nodup_cells (h : Layout σ) (hσ : σ l = some xs) : (cells l xs).Nodup := (h.apart hσ).imp Apart.ne

theorem tail_not_mem (h : Layout σ) (hσ : σ l = some xs) : tail l ∉ xs := by
  have hnd := nodup_cells h hσ
  rw [cells, ← List.cons_append, List.nodup_append] at hnd
  intro hmem
  exact hnd.2.2 (tail l) (List.mem_cons_of_mem (head l) hmem) (tail l) (List.mem_singleton_self _) rfl

theorem length_le_of_nodup {n : Nat} (hnd : xs.Nodup) (h : ∀ a ∈ xs, a < n) : xs.length ≤ n := by
  have hsub : xs ⊆ List.range n := fun a ha => List.mem_range.mpr (h a ha)
  exact (hnd.length_le_of_subset hsub).trans_eq List.length_range

theorem length_lt (h : Layout σ) (hσ : σ l = some xs) : xs.length < 2 ^ 32 := by
  have hlen := length_le_of_nodup (nodup_cells h hσ) fun a ha => (by have := h.bound hσ a ha; omega : a < 2 ^ 32)
  rw [cells, List.length_cons, List.length_append] at hlen
  omega

end Layouts

section Changes

variable {σ : Seqs} {s s' : Machine} {l e x fuel : Nat} {xs xs' ys zs : List Nat} {op : Op}

theorem Represents.joined (h : Represents σ s) (hσ : σ l = some xs) : (cells l xs).IsChain (Joined s.next s.prev) :=
  isChain_joined_iff.mpr ⟨h.forward hσ, h.backward hσ⟩

theorem represents_of_joined (h : Layout σ)
    (hjoined : ∀ l xs, σ l = some xs → (cells l xs).IsChain (Joined s.next s.prev)) : Represents σ s :=
  ⟨h, fun hσ => (isChain_joined_iff.mp (hjoined _ _ hσ)).1, fun hσ => (isChain_joined_iff.mp (hjoined _ _ hσ)).2⟩

theorem isChain_of_same (h : Represents σ s) (hσ : σ l = some xs) (hsame : ∀ a ∈ cells l xs, Same s s' a) :
    (cells l xs).IsChain (Joined s'.next s'.prev) :=
  isChain_congr (h.joined hσ) (fun a ha => (hsame a (List.dropLast_subset _ ha)).1)
    (fun a ha => (hsame a (List.mem_of_mem_tail ha)).2)

theorem follows_of_update (h : Represents σ s) (hret : op.step fuel s = some (op.value σ s, s'))
    (hact : op.act σ = update σ l (some xs')) (hop : ∀ l', ¬op.Changes σ l' → l' ≠ l)
    (hlay : Layout (update σ l (some xs'))) (hchain : (cells l xs').IsChain (Joined s'.next s'.prev))
    (hsame : ∀ l' ys, l' ≠ l → σ l' = some ys → ∀ a ∈ cells l' ys, Same s s' a) : Follows fuel σ s op s' := by
  refine ⟨hret, ?_, fun l' ys hl' hys => ?_⟩
  · rw [hact]
    refine represents_of_joined hlay fun l' ys hys => ?_
    by_cases hl : l' = l
    · subst hl
      rw [update_self] at hys
      rwa [← Option.some.inj hys]
    · rw [update_of_ne hl] at hys
      exact isChain_of_same h hys (hsame l' ys hl hys)
  · rw [hact, update_of_ne (hop l' hl')]
    exact ⟨hys, hsame l' ys (hop l' hl') hys⟩

theorem lt_of_mem_cells (h : Layout σ) (hσ : σ l = some xs) {a : Nat} (ha : a ∈ cells l xs) : a < 2 ^ 32 := by
  have := h.bound hσ a ha
  omega

theorem follows_insert {l₁ l₂ : List Nat} {a b : Nat} (h : Represents σ s) (hσ : σ l = some xs) (he : Free σ e)
    (hcells : cells l xs = l₁ ++ a :: b :: l₂) (hcells' : cells l xs' = l₁ ++ a :: e :: b :: l₂)
    (hperm : xs'.Perm (e :: xs)) (hret : op.step fuel s = some (op.value σ s, listInsertBefore b e s))
    (hact : op.act σ = update σ l (some xs')) (hop : ∀ l', ¬op.Changes σ l' → l' ≠ l) :
    Follows fuel σ s op (listInsertBefore b e s) := by
  have hchain := h.joined hσ
  have hpair := h.apart hσ
  have hlt (y : Nat) (hy : y ∈ cells l xs) : y < 2 ^ 32 := lt_of_mem_cells h.toLayout hσ hy
  have hapart := he.apart l xs hσ
  have ha : a ∈ cells l xs := by simp [hcells]
  have hb : b ∈ cells l xs := by simp [hcells]
  rw [hcells] at hchain hpair hlt hapart
  have helt : e < 2 ^ 32 := by
    have := he.bound
    omega
  refine follows_of_update h hret hact hop (h.insert hσ he hperm) ?_ fun l' ys hl hys y hy => ?_
  · rw [hcells']
    exact isChain_insert hchain hpair hlt helt hapart
  · have hprev := (List.isChain_append_cons_cons.mp hchain).2.1.2
    exact same_insert hprev (gap_of_pairwise hpair).between (h.across hl.symm hσ hys a ha y hy)
      (he.apart l' ys hys y hy) (h.across hl.symm hσ hys b hb y hy)

theorem exists_first (l : Nat) (xs : List Nat) : ∃ b l₂, xs ++ [tail l] = b :: l₂ :=
  List.exists_cons_of_ne_nil (by simp)

theorem exists_last (l : Nat) (xs : List Nat) : ∃ l₁ a, head l :: xs = l₁ ++ [a] :=
  ⟨_, _, (List.dropLast_concat_getLast (List.cons_ne_nil _ _)).symm⟩

theorem exists_around (l x : Nat) (ys zs : List Nat) : ∃ l₁ a b l₂, cells l (ys ++ x :: zs) = l₁ ++ a :: x :: b :: l₂ ∧
    cells l (ys ++ zs) = l₁ ++ a :: b :: l₂ := by
  obtain ⟨l₁, a, hleft⟩ := exists_last l ys
  obtain ⟨b, l₂, hright⟩ := exists_first l zs
  refine ⟨l₁, a, b, l₂, ?_, ?_⟩
  · calc cells l (ys ++ x :: zs)
      _ = (head l :: ys) ++ x :: (zs ++ [tail l]) := by simp [cells]
      _ = l₁ ++ a :: x :: b :: l₂ := by simp [hleft, hright]
  · calc cells l (ys ++ zs)
      _ = (head l :: ys) ++ (zs ++ [tail l]) := by simp [cells]
      _ = l₁ ++ a :: b :: l₂ := by simp [hleft, hright]

theorem follows_remove (h : Represents σ s) (hσ : σ l = some (ys ++ x :: zs))
    (hret : op.step fuel s = some (op.value σ s, listRemove x s))
    (hact : op.act σ = update σ l (some (ys ++ zs))) (hop : ∀ l', ¬op.Changes σ l' → l' ≠ l) :
    Follows fuel σ s op (listRemove x s) := by
  obtain ⟨l₁, a, b, l₂, hcells, hcells'⟩ := exists_around l x ys zs
  have hchain := h.joined hσ
  have hpair := h.apart hσ
  have hlt (y : Nat) (hy : y ∈ cells l (ys ++ x :: zs)) : y < 2 ^ 32 := lt_of_mem_cells h.toLayout hσ hy
  have ha : a ∈ cells l (ys ++ x :: zs) := by simp [hcells]
  have hb : b ∈ cells l (ys ++ x :: zs) := by simp [hcells]
  rw [hcells] at hchain hpair hlt
  refine follows_of_update h hret hact hop (h.shrink hσ (by simp)) ?_ fun l' ys hl hys y hy => ?_
  · rw [hcells']
    exact isChain_remove hchain hpair hlt
  · obtain ⟨-, ⟨-, hprev⟩, hchain'⟩ := List.isChain_append_cons_cons.mp hchain
    have hnext := (List.isChain_cons_cons.mp hchain').1.1
    exact same_remove hprev hnext (gap_of_pairwise hpair).between (h.across hl.symm hσ hys a ha y hy)
      (h.across hl.symm hσ hys b hb y hy)

theorem follows_of_same (h : Represents σ s) (hret : op.step fuel s = some (op.value σ s, s')) (hact : op.act σ = σ)
    (hsame : ∀ l xs, σ l = some xs → ∀ a ∈ cells l xs, Same s s' a) : Follows fuel σ s op s' := by
  refine ⟨hret, ?_, fun l xs _ hσ => ?_⟩
  · rw [hact]
    exact represents_of_joined h.toLayout fun l xs hσ => isChain_of_same h hσ (hsame l xs hσ)
  · rw [hact]
    exact ⟨hσ, hsame l xs hσ⟩

theorem elems_eq (hσ : σ l = some xs) : σ.elems l = xs := by
  rw [Seqs.elems, hσ]
  rfl

theorem follows_init (h : Represents σ s) (hop : (Op.init l).Valid σ) :
    Follows fuel σ s (.init l) (listInit l s) := by
  obtain ⟨hhead, htail⟩ := hop
  have hht : Apart (head l) (tail l) := Or.inl le_rfl
  have hothers {l' ys} (hl : l' ≠ l) (hys : σ l' = some ys) : update σ l none l' = some ys := by
    rwa [update_of_ne hl]
  have hhb := hhead.bound
  have htb := htail.bound
  refine follows_of_update h rfl rfl (fun l' hl' => Ne.symm hl')
    (h.change (fun a ha => ?_) ?_ fun l' ys hl hys a ha b hb => ?_) ?_ fun l' ys hl hys a ha => ?_
  · rcases List.mem_cons.mp ha with rfl | ha
    · exact hhead.bound
    · rw [List.mem_singleton.mp ha]
      exact htail.bound
  · simpa [cells] using hht
  · rcases List.mem_cons.mp ha with rfl | ha
    · exact hhead.apart l' ys (hothers hl hys) b hb
    · rw [List.mem_singleton.mp ha]
      exact htail.apart l' ys (hothers hl hys) b hb
  · refine .cons_cons ⟨?_, ?_⟩ (.singleton _)
    · rw [listInit, (same_setNext hht.symm 0).1, (same_setPrev hht.symm (head l)).1, next_setNext (by omega)]
    · rw [listInit, prev_setNext, prev_setPrev (by omega)]
  · have hh := hhead.apart l' ys (hothers hl hys) a ha
    have ht := htail.apart l' ys (hothers hl hys) a ha
    exact (same_setPrev hh 0).trans ((same_setNext hh _).trans ((same_setPrev ht _).trans (same_setNext ht 0)))

theorem follows_push (h : Represents σ s) (hσ : σ l = some xs) (he : Free σ e) :
    ∃ s', Follows fuel σ s (.push l e) s' := by
  obtain ⟨b, l₂, hright⟩ := exists_first l xs
  have hcells : cells l xs = [] ++ head l :: b :: l₂ := by rw [cells, hright]; rfl
  have hcells' : cells l (e :: xs) = [] ++ head l :: e :: b :: l₂ := by rw [cells, List.cons_append, hright]; rfl
  have hnext : s.next (head l) = b := by
    have hchain := h.forward hσ
    rw [hcells] at hchain
    exact (List.isChain_cons_cons.mp hchain).1
  refine ⟨_, follows_insert h hσ he hcells hcells' (.refl _) ?_ ?_ fun l' hl' => Ne.symm hl'⟩
  · rw [Op.step, listPush, hnext]
    rfl
  · rw [Op.act, elems_eq hσ]

theorem follows_append (h : Represents σ s) (hσ : σ l = some xs) (he : Free σ e) :
    ∃ s', Follows fuel σ s (.append l e) s' := by
  obtain ⟨l₁, a, hleft⟩ := exists_last l xs
  have hcells : cells l xs = l₁ ++ a :: tail l :: [] := by
    rw [cells, ← List.cons_append, hleft, List.append_assoc]
    rfl
  have hcells' : cells l (xs ++ [e]) = l₁ ++ a :: e :: tail l :: [] := by
    rw [cells, List.append_assoc, ← List.cons_append, hleft, List.append_assoc]
    rfl
  refine ⟨_, follows_insert h hσ he hcells hcells' (List.perm_append_singleton e xs) ?_ ?_ fun l' hl' => Ne.symm hl'⟩
  · rfl
  · rw [Op.act, elems_eq hσ]

theorem not_mem_elems (h : Layout σ) (hσ : σ l = some xs) (hx : x ∈ xs) {l' : Nat} (hl : l' ≠ l) :
    x ∉ σ.elems l' := by
  intro hmem
  cases hys : σ l' with
  | none => simp [Seqs.elems, hys] at hmem
  | some ys =>
    rw [elems_eq hys] at hmem
    exact (h.across hl hys hσ x (by simp [cells, hmem]) x (by simp [cells, hx])).ne rfl

theorem act_remove (h : Layout σ) (hσ : σ l = some xs) (hx : x ∈ xs) :
    (Op.remove x).act σ = update σ l (some (xs.erase x)) := by
  funext l'
  by_cases hl : l' = l
  · subst hl
    rw [update_self]
    change (σ l').map (·.erase x) = _
    rw [hσ]
    rfl
  · have hnot := not_mem_elems h hσ hx hl
    rw [update_of_ne hl]
    change (σ l').map (·.erase x) = _
    cases hys : σ l' with
    | none => rfl
    | some ys =>
      rw [elems_eq hys] at hnot
      exact congrArg some (List.erase_of_not_mem hnot)

theorem follows_remove_elem (h : Represents σ s) (hσ : σ l = some xs) (hx : x ∈ xs) :
    Follows fuel σ s (.remove x) (listRemove x s) := by
  have hact := act_remove h.toLayout hσ hx
  obtain ⟨ys, zs, -, rfl, herase⟩ := List.exists_erase_eq hx
  rw [herase] at hact
  refine follows_remove h hσ rfl hact fun l' hl' => ?_
  rintro rfl
  exact hl' (by rwa [Op.Changes, elems_eq hσ])

theorem follows_pop (h : Represents σ s) (hσ : σ l = some (x :: xs)) :
    Follows fuel σ s (.pop l) (listRemove x s) := by
  have hnext : s.next (head l) = x := (List.isChain_cons_cons.mp (h.forward hσ)).1
  have hact : (Op.pop l).act σ = update σ l (some ([] ++ xs)) := by
    rw [Op.act, elems_eq hσ]
    rfl
  have hσ' : σ l = some ([] ++ x :: xs) := hσ
  refine follows_remove h hσ' ?_ hact fun l' hl' => Ne.symm hl'
  rw [Op.step, Op.value, elems_eq hσ, listPop, hnext]
  rfl

end Changes

section Walks

variable {σ : Seqs} {s : Machine} {l elem fuel : Nat} {xs ys : List Nat} {func : Callback} {arg : Int}

theorem findLoop_eq (hp : Path s.next elem ys (tail l)) (hfuel : ys.length < fuel) (objElem : Nat) :
    findLoop l objElem s fuel elem = some (decide (objElem ∈ ys)) := by
  induction ys generalizing fuel elem with
  | nil =>
    obtain ⟨fuel, rfl⟩ := Nat.exists_eq_add_one.mpr hfuel
    have hend : elem = tail l := hp
    rw [findLoop, if_neg (not_not.mpr hend)]
    rfl
  | cons y ys ih =>
    obtain ⟨fuel, rfl⟩ := Nat.exists_eq_add_one.mpr (Nat.zero_lt_of_lt hfuel)
    obtain ⟨rfl, hne, hp⟩ := hp
    rw [findLoop, if_pos hne]
    by_cases hobj : elem = objElem
    · rw [if_pos hobj]
      simp [hobj]
    · rw [if_neg hobj, ih hp (Nat.lt_of_succ_lt_succ hfuel)]
      simp [Ne.symm hobj]

theorem lenLoop_eq (hp : Path s.next elem ys (tail l)) (hfuel : ys.length < fuel) {length : Nat}
    (hlen : length + ys.length < 2 ^ 32) : lenLoop l s fuel elem length = some (length + ys.length) := by
  induction ys generalizing fuel elem length with
  | nil =>
    obtain ⟨fuel, rfl⟩ := Nat.exists_eq_add_one.mpr hfuel
    have hend : elem = tail l := hp
    rw [lenLoop, if_neg (not_not.mpr hend)]
    rfl
  | cons y ys ih =>
    obtain ⟨fuel, rfl⟩ := Nat.exists_eq_add_one.mpr (Nat.zero_lt_of_lt hfuel)
    obtain ⟨rfl, hne, hp⟩ := hp
    rw [List.length_cons] at hlen hfuel ⊢
    rw [lenLoop, if_pos hne, Nat.mod_eq_of_lt (by omega), ih hp (by omega) (by omega)]
    congr 1
    omega

theorem run_findM?_cons (y : Nat) (ys : List Nat) (s : Machine) : ((y :: ys).findM? (func · arg)).run s =
    if ((func y arg).run s).1 then (some y, ((func y arg).run s).2)
    else (ys.findM? (func · arg)).run ((func y arg).run s).2 := by
  rw [List.findM?, StateT.run_bind]
  generalize (func y arg).run s = r
  obtain ⟨hit, s'⟩ := r
  cases hit <;> rfl

theorem traversalLoop_eq (hp : Path s.next elem ys (tail l)) (hfuel : ys.length < fuel)
    (hcalm : ∀ elem s, ∀ a ∈ ys, ((func elem arg).run s).2.next a = s.next a) :
    traversalLoop l func arg fuel elem s =
      some (((ys.findM? (func · arg)).run s).1.getD 0, ((ys.findM? (func · arg)).run s).2) := by
  induction ys generalizing fuel elem s with
  | nil =>
    obtain ⟨fuel, rfl⟩ := Nat.exists_eq_add_one.mpr hfuel
    have hend : elem = tail l := hp
    rw [traversalLoop, if_neg (not_not.mpr hend)]
    rfl
  | cons y ys ih =>
    obtain ⟨fuel, rfl⟩ := Nat.exists_eq_add_one.mpr (Nat.zero_lt_of_lt hfuel)
    obtain ⟨rfl, hne, hp⟩ := hp
    rw [traversalLoop, if_pos hne, run_findM?_cons]
    have hkept := hcalm elem s
    generalize (func elem arg).run s = r at hkept ⊢
    obtain ⟨hit, s'⟩ := r
    cases hit with
    | true => rfl
    | false =>
      -- the callback may have written, but not to the links that are still to be followed
      have hnext : s'.next elem = s.next elem := hkept elem List.mem_cons_self
      have hp' : Path s'.next (s'.next elem) ys (tail l) := by
        rw [hnext]
        exact hp.congr fun a ha => hkept a (List.mem_cons_of_mem elem ha)
      exact ih hp' (Nat.lt_of_succ_lt_succ hfuel) fun e s a ha => hcalm e s a (List.mem_cons_of_mem elem ha)

theorem same_findM? {a : Nat} (hsame : ∀ elem s, Same s ((func elem arg).run s).2 a) (ys : List Nat) (s : Machine) :
    Same s ((ys.findM? (func · arg)).run s).2 a := by
  induction ys generalizing s with
  | nil => exact Same.refl s a
  | cons y ys ih =>
    rw [run_findM?_cons]
    by_cases hit : ((func y arg).run s).1
    · rw [if_pos hit]
      exact hsame y s
    · rw [if_neg hit]
      exact (hsame y s).trans (ih _)

theorem Represents.path (h : Represents σ s) (hσ : σ l = some xs) : Path s.next (s.next (head l)) xs (tail l) :=
  path_of_isChain (h.forward hσ) (tail_not_mem h.toLayout hσ)

theorem listEmpty_eq (h : Represents σ s) (hσ : σ l = some xs) : listEmpty l s = decide (xs = []) := by
  have hp := h.path hσ
  cases xs with
  | nil => exact decide_eq_true hp
  | cons x xs => simpa [listEmpty] using hp.2.1

theorem follows_find (h : Represents σ s) (hσ : σ l = some xs) (hfuel : xs.length < fuel) (objElem : Nat) :
    Follows fuel σ s (.find l objElem) s := by
  refine follows_of_same h ?_ rfl fun _ _ _ a _ => Same.refl s a
  rw [Op.step, Op.value, elems_eq hσ, elemFind, findLoop_eq (h.path hσ) hfuel]
  rfl

theorem follows_len (h : Represents σ s) (hσ : σ l = some xs) (hfuel : xs.length < fuel) :
    Follows fuel σ s (.len l) s := by
  have hlen := length_lt h.toLayout hσ
  refine follows_of_same h ?_ rfl fun _ _ _ a _ => Same.refl s a
  rw [Op.step, Op.value, elems_eq hσ, listLen, lenLoop_eq (h.path hσ) hfuel (by omega), Nat.zero_add]
  rfl

theorem follows_empty (h : Represents σ s) (hσ : σ l = some xs) : Follows fuel σ s (.empty l) s := by
  refine follows_of_same h ?_ rfl fun _ _ _ a _ => Same.refl s a
  rw [Op.step, Op.value, elems_eq hσ, listEmpty_eq h hσ]

theorem follows_traversal (h : Represents σ s) (hσ : σ l = some xs) (hfuel : xs.length < fuel)
    (hcalm : Calm σ func arg) :
    Follows fuel σ s (.traversal l func arg) ((xs.findM? (func · arg)).run s).2 := by
  refine follows_of_same h ?_ rfl fun l' ys hys a ha => same_findM? (fun e s => hcalm e s l' ys hys a ha) xs s
  have hloop := traversalLoop_eq (h.path hσ) hfuel fun e s a ha => (hcalm e s l xs hσ a (by simp [cells, ha])).1
  rw [Op.step, Op.value, elems_eq hσ, listTraversal, listEmpty_eq h hσ, hloop]
  cases xs with
  | nil => rfl
  | cons x xs => rfl

end Walks

theorem exists_follows {σ : Seqs} {s : Machine} {op : Op} {fuel : Nat} (h : Represents σ s) (hfuel : 2 ^ 32 ≤ fuel)
    (hop : op.Valid σ) : ∃ s', Follows fuel σ s op s' := by
  have hlen {l xs} (hσ : σ l = some xs) : xs.length < fuel := (length_lt h.toLayout hσ).trans_le hfuel
  cases op with
  | init l => exact ⟨_, follows_init h hop⟩
  | push l e =>
    obtain ⟨hl, he⟩ := hop
    obtain ⟨xs, hσ⟩ := Option.isSome_iff_exists.mp hl
    exact follows_push h hσ he
  | append l e =>
    obtain ⟨hl, he⟩ := hop
    obtain ⟨xs, hσ⟩ := Option.isSome_iff_exists.mp hl
    exact follows_append h hσ he
  | remove x =>
    obtain ⟨l, hx⟩ := hop
    cases hσ : σ l with
    | none => simp [Seqs.elems, hσ] at hx
    | some xs =>
      rw [elems_eq hσ] at hx
      exact ⟨_, follows_remove_elem h hσ hx⟩
  | pop l =>
    rw [Op.Valid] at hop
    cases hσ : σ l with
    | none => simp [Seqs.elems, hσ] at hop
    | some xs =>
      rw [elems_eq hσ] at hop
      obtain ⟨x, xs, rfl⟩ := List.exists_cons_of_ne_nil hop
      exact ⟨_, follows_pop h hσ⟩
  | find l objElem =>
    obtain ⟨xs, hσ⟩ := Option.isSome_iff_exists.mp hop
    exact ⟨s, follows_find h hσ (hlen hσ) objElem⟩
  | len l =>
    obtain ⟨xs, hσ⟩ := Option.isSome_iff_exists.mp hop
    exact ⟨s, follows_len h hσ (hlen hσ)⟩
  | empty l =>
    obtain ⟨xs, hσ⟩ := Option.isSome_iff_exists.mp hop
    exact ⟨s, follows_empty h hσ⟩
  | traversal l func arg =>
    obtain ⟨hl, hcalm⟩ := hop
    obtain ⟨xs, hσ⟩ := Option.isSome_iff_exists.mp hl
    exact ⟨_, follows_traversal h hσ (hlen hσ) hcalm⟩

theorem acts_of_represents {σ : Seqs} {s : Machine} {fuel : Nat} {ops : List Op} (h : Represents σ s)
    (hfuel : 2 ^ 32 ≤ fuel) (hops : Proper σ ops) : Acts fuel σ s ops := by
  induction ops generalizing σ s with
  | nil => trivial
  | cons op ops ih =>
    obtain ⟨hop, hops⟩ := hops
    obtain ⟨s', hs'⟩ := exists_follows h hfuel hop
    exact ⟨s', hs', ih hs'.represents hops⟩

/-- The lists are sequences, from a memory without lists on. -/
theorem lists_are_sequences (fuel : Nat) (s : Machine) (ops : List Op) (hfuel : 2 ^ 32 ≤ fuel)
    (hops : Proper (fun _ => none) ops) : Acts fuel (fun _ => none) s ops := by
  refine acts_of_represents ⟨⟨?_, ?_, ?_⟩, ?_, ?_⟩ hfuel hops
  · exact fun h => (Option.some_ne_none _ h.symm).elim
  · exact fun h => (Option.some_ne_none _ h.symm).elim
  · exact fun _ h => (Option.some_ne_none _ h.symm).elim
  · exact fun h => (Option.some_ne_none _ h.symm).elim
  · exact fun h => (Option.some_ne_none _ h.symm).elim

theorem pushed_and_popped_sequences : Acts (2 ^ 32) (fun _ => none) ⟨fun _ => 0, true⟩
    [.init 0x1000, .push 0x1000 0x2000, .find 0x1000 0x2000, .pop 0x1000] := by
  have hnone (e : Nat) (he : e + 8 ≤ 2 ^ 32) : Free (update (fun _ => none) 0x1000 none) e := by
    refine ⟨he, fun l xs hσ => ?_⟩
    rw [update_apply, ite_self] at hσ
    exact (Option.some_ne_none xs hσ.symm).elim
  have hfree : Free (update (fun _ => none) 0x1000 (some [])) 0x2000 := by
    refine ⟨by decide, fun l xs hσ a ha => ?_⟩
    by_cases hl : l = 0x1000
    · subst hl
      rw [update_self] at hσ
      obtain rfl := Option.some.inj hσ
      rcases List.mem_cons.mp ha with rfl | ha
      · exact Or.inr (by decide)
      · rw [List.mem_singleton.mp ha]
        exact Or.inr (by decide)
    · rw [update_of_ne hl] at hσ
      exact (Option.some_ne_none xs hσ.symm).elim
  refine lists_are_sequences (2 ^ 32) _ _ le_rfl
    ⟨⟨hnone _ (by decide), hnone _ (by decide)⟩, ⟨rfl, hfree⟩, rfl, ?_, trivial⟩
  exact List.cons_ne_nil 0x2000 []

end TrueOs.Lists
