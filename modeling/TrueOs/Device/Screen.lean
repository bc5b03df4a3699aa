import TrueOs.Lib.Bytes

/-! `put_char_color` and `cls_screen` of `lib/kernel/print.s`, and the terminal they stand for. -/

namespace TrueOs.Screen

open Function (update update_self update_of_ne)

/-- The cursor register of 16 bits, the bytes of the video segment and the offsets that were written, the last first. -/
structure Vga where
  cursor : Nat
  vram : Buf
  writes : List Nat

/-- The video segment has 32 KB; behind its limit the processor raises an exception. -/
def segLimit : Nat := 0x7FFF

def poke (off : Nat) (b : UInt8) (s : Vga) : Option Vga :=
  if off ≤ segLimit then
    some { s with vram := update s.vram off b, writes := off :: s.writes }
  else
    none

def setCursor (bx : Nat) (s : Vga) : Vga := { s with cursor := bx }

/-- `jl` after `cmp bx, 2000`: words from 0x8000 on are negative. -/
def below (bx : Nat) : Bool := bx < 2000 || 0x8000 ≤ bx

/-- `mov word [gs:ebx], 0x0720` for `n` words. -/
def blank : (n ebx : Nat) → Vga → Option Vga
  | 0, _, s => some s
  | n + 1, ebx, s => (poke ebx 0x20 s).bind fun s => (poke (ebx + 1) 0x07 s).bind (blank n (ebx + 2))

/-- `rep movsd` from the second row to the first.  The rows are 160 bytes apart, so that bytes move like dwords. -/
def moveUp : (n edi : Nat) → Vga → Option Vga
  | 0, _, s => some s
  | n + 1, edi, s => (poke edi (s.vram (edi + 160)) s).bind (moveUp n (edi + 1))

def rollScreen (s : Vga) : Option Vga :=
  (moveUp (960 * 4) 0 s).bind fun s => (blank 80 3840 s).map (setCursor 1920)

def lineFeed (bx : Nat) (s : Vga) : Option Vga :=
  let bx := (bx - bx % 80 + 80) % 2 ^ 16
  if below bx then some (setCursor bx s) else rollScreen s

def putCell (bx : Nat) (c attr : UInt8) (s : Vga) : Option Vga :=
  (poke (bx * 2 % 2 ^ 16) c s).bind (poke ((bx * 2 % 2 ^ 16 + 1) % 2 ^ 16) attr)

/-- `shr` gives back the position without its top bit. -/
def halved (bx : Nat) : Nat := (bx * 2 % 2 ^ 16 + 1) % 2 ^ 16 / 2

def putCharColor (c attr : UInt8) (s : Vga) : Option Vga :=
  if c = 0x0d ∨ c = 0x0a then
    lineFeed s.cursor s
  else if c = 0x08 then
    let bx := (s.cursor + 0xFFFF) % 2 ^ 16
    (putCell bx 0x20 attr s).map (setCursor (halved bx))
  else
    (putCell s.cursor c attr s).bind fun s' =>
      let bx := (halved s.cursor + 1) % 2 ^ 16
      if below bx then some (setCursor bx s') else lineFeed bx s'

def clsScreen (s : Vga) : Option Vga := (blank (80 * 25) 0 s).map (setCursor 0)

inductive Op
  | put (c attr : UInt8)
  | cls

def Op.step : Op → Vga → Option Vga
  | .put c attr => putCharColor c attr
  | .cls => clsScreen

def run (ops : List Op) (s : Vga) : Option Vga := ops.foldlM (fun s op => op.step s) s

/-- A terminal of 25 rows and 80 columns. -/
structure Term where
  cell : Nat → Nat → UInt8 × UInt8
  row : Nat
  col : Nat

namespace Term

def space : UInt8 × UInt8 := (0x20, 0x07)

def cleared : Term := ⟨fun _ _ => space, 0, 0⟩

def scroll (t : Term) : Term := { t with cell := fun r => if r < 24 then t.cell (r + 1) else fun _ => space }

def newline (t : Term) : Term :=
  if t.row < 24 then { t with row := t.row + 1, col := 0 } else { t.scroll with col := 0 }

def set (t : Term) (x : UInt8 × UInt8) : Term :=
  { t with cell := update t.cell t.row (update (t.cell t.row) t.col x) }

def forward (t : Term) : Term := if t.col < 79 then { t with col := t.col + 1 } else t.newline

def back (t : Term) : Term :=
  if 0 < t.col then { t with col := t.col - 1 }
  else if 0 < t.row then { t with row := t.row - 1, col := 79 }
  else t

def corner (t : Term) : Prop := t.row = 0 ∧ t.col = 0

instance (t : Term) : Decidable t.corner := inferInstanceAs (Decidable (_ ∧ _))

def step : Op → Term → Term
  | .cls, _ => cleared
  | .put c attr, t =>
    if c = 0x0d ∨ c = 0x0a then t.newline
    else if c = 0x08 then if t.corner then t else t.back.set (0x20, attr)
    else (t.set (c, attr)).forward

def run (ops : List Op) : Term := ops.foldl (fun t op => step op t) cleared

end Term

structure Shows (t : Term) (s : Vga) : Prop where
  row : t.row < 25
  col : t.col < 80
  cursor : s.cursor = t.row * 80 + t.col
  char : ∀ r < 25, ∀ c < 80, s.vram ((r * 80 + c) * 2) = (t.cell r c).1
  attr : ∀ r < 25, ∀ c < 80, s.vram ((r * 80 + c) * 2 + 1) = (t.cell r c).2
  writes : ∀ w ∈ s.writes, w < 4000

/-- After every character the cursor and all writes are on the screen, and the screen is that of the terminal. -/
def OnScreen (start : Vga) (ops : List Op) : Prop :=
  ∀ p, p <+: ops → ∃ s, run p start = some s ∧ s.cursor < 2000 ∧ Shows (Term.run p) s

def Bounded (ops : List Op) : Prop := ∀ p attr, p ++ [.put 0x08 attr] <+: ops → ¬(Term.run p).corner

section Writes

variable {s s' : Vga} {off n : Nat} {b : UInt8}

theorem poke_eq (h : off ≤ segLimit) (b : UInt8) (s : Vga) :
    poke off b s = some { s with vram := update s.vram off b, writes := off :: s.writes } := if_pos h

structure Fills (lo hi : Nat) (f : Nat → UInt8) (s s' : Vga) : Prop where
  cursor : s'.cursor = s.cursor
  vram : ∀ i, s'.vram i = if lo ≤ i ∧ i < hi then f i else s.vram i
  writes : ∀ w ∈ s'.writes, w ∈ s.writes ∨ (lo ≤ w ∧ w < hi)

theorem Fills.cons {hi : Nat} {f g : Nat → UInt8}
    (h : Fills (off + 1) hi f { s with vram := update s.vram off (g off), writes := off :: s.writes } s')
    (hlt : off < hi) (hfg : ∀ i, off < i → i < hi → f i = g i) : Fills off hi g s s' := by
  refine ⟨h.cursor, fun i => ?_, fun w hw => ?_⟩
  · rw [h.vram i]
    by_cases hin : off + 1 ≤ i ∧ i < hi
    · rw [if_pos hin, if_pos (by omega), hfg i (by omega) hin.2]
    · rw [if_neg hin]
      by_cases hoff : i = off
      · subst hoff
        rw [if_pos (by omega)]
        exact update_self _ _ _
      · rw [if_neg (by omega)]
        exact update_of_ne hoff _ _
  · rcases h.writes w hw with hw | hw
    · rcases List.mem_cons.mp hw with rfl | hw
      · exact Or.inr (by omega)
      · exact Or.inl hw
    · exact Or.inr (by omega)

theorem Fills.nil (f : Nat → UInt8) (s : Vga) : Fills off off f s s :=
  ⟨rfl, fun i => (if_neg (by omega)).symm, fun w hw => Or.inl hw⟩

def spaceByte (i : Nat) : UInt8 := if i % 2 = 0 then 0x20 else 0x07

theorem exists_blank (n off : Nat) (s : Vga) (h : off + n * 2 ≤ 4000) (heven : off % 2 = 0) :
    ∃ s', blank n off s = some s' ∧ Fills off (off + n * 2) spaceByte s s' := by
  induction n generalizing off s with
  | zero =>
    rw [Nat.zero_mul]
    exact ⟨s, rfl, .nil _ s⟩
  | succ n ih =>
    have hlim : segLimit = 0x7FFF := rfl
    have hchar : spaceByte off = 0x20 := if_pos heven
    have hattr : spaceByte (off + 1) = 0x07 := if_neg (by omega)
    obtain ⟨s', hrun, hf⟩ := ih (off + 2) { s with
      vram := update (update s.vram off (spaceByte off)) (off + 1) (spaceByte (off + 1))
      writes := (off + 1) :: off :: s.writes } (by omega) (by omega)
    refine ⟨s', ?_, ?_⟩
    · rw [hchar, hattr] at hrun
      rw [blank, poke_eq (by omega), Option.bind_some, poke_eq (by omega), Option.bind_some]
      exact hrun
    · rw [show off + 2 + n * 2 = off + (n + 1) * 2 by omega] at hf
      exact (hf.cons (by omega) fun _ _ _ => rfl).cons (by omega) fun _ _ _ => rfl

theorem exists_moveUp (n off : Nat) (s : Vga) (h : off + n ≤ 4000) : ∃ s', moveUp n off s = some s' ∧
    Fills off (off + n) (fun i => s.vram (i + 160)) s s' := by
  induction n generalizing off s with
  | zero => exact ⟨s, rfl, .nil _ s⟩
  | succ n ih =>
    have hlim : segLimit = 0x7FFF := rfl
    obtain ⟨s', hrun, hf⟩ := ih (off + 1) { s with
      vram := update s.vram off (s.vram (off + 160))
      writes := off :: s.writes } (by omega)
    refine ⟨s', ?_, ?_⟩
    · rw [moveUp, poke_eq (by omega), Option.bind_some]
      exact hrun
    · rw [show off + 1 + n = off + (n + 1) by omega] at hf
      -- the source lies ahead of the bytes that were written
      exact hf.cons (by omega) fun i hi _ => update_of_ne (by omega) _ _

end Writes

section Steps

variable {t : Term} {s s' : Vga}

theorem exists_rollScreen (s : Vga) : ∃ s', rollScreen s = some s' ∧ s'.cursor = 1920 ∧
    (∀ i < 3840, s'.vram i = s.vram (i + 160)) ∧
    (∀ i, 3840 ≤ i → i < 4000 → s'.vram i = spaceByte i) ∧
    ∀ w ∈ s'.writes, w ∈ s.writes ∨ w < 4000 := by
  obtain ⟨s₁, hrun₁, hf₁⟩ := exists_moveUp (960 * 4) 0 s (by decide)
  obtain ⟨s₂, hrun₂, hf₂⟩ := exists_blank 80 3840 s₁ (by decide) (by decide)
  refine ⟨setCursor 1920 s₂, ?_, rfl, fun i hi => ?_, fun i hi hi' => ?_, fun w hw => ?_⟩
  · rw [rollScreen, hrun₁, Option.bind_some, hrun₂]
    rfl
  · exact (hf₂.vram i).trans ((if_neg (by omega)).trans ((hf₁.vram i).trans (if_pos (by omega))))
  · exact (hf₂.vram i).trans (if_pos (by omega))
  · rcases hf₂.writes w hw with hw | hw
    · rcases hf₁.writes w hw with hw | hw
      · exact Or.inl hw
      · exact Or.inr (by omega)
    · exact Or.inr (by omega)

theorem Shows.pos_lt (h : Shows t s) : s.cursor < 2000 := by
  have := h.row
  have := h.col
  have := h.cursor
  omega

theorem Shows.move (h : Shows t s) {r c : Nat} (hr : r < 25) (hc : c < 80) :
    Shows { t with row := r, col := c } (setCursor (r * 80 + c) s) :=
  ⟨hr, hc, rfl, h.char, h.attr, h.writes⟩

theorem Shows.roll (h : Shows t s) : ∃ s', rollScreen s = some s' ∧ Shows { t.scroll with row := 24, col := 0 } s' := by
  obtain ⟨s', hrun, hcur, hup, hlast, hwrites⟩ := exists_rollScreen s
  refine ⟨s', hrun, (by decide : 24 < 25), (by decide : 0 < 80), hcur, fun r hr c hc => ?_, fun r hr c hc => ?_,
    fun w hw => (hwrites w hw).elim (h.writes w) id⟩
  · by_cases hr' : r < 24
    · rw [hup _ (by omega), show (r * 80 + c) * 2 + 160 = ((r + 1) * 80 + c) * 2 by omega, h.char _ (by omega) _ hc]
      simp only [Term.scroll, if_pos hr']
    · rw [hlast _ (by omega) (by omega), spaceByte, if_pos (by omega)]
      simp only [Term.scroll, if_neg hr', Term.space]
  · by_cases hr' : r < 24
    · rw [hup _ (by omega), show (r * 80 + c) * 2 + 1 + 160 = ((r + 1) * 80 + c) * 2 + 1 by omega,
        h.attr _ (by omega) _ hc]
      simp only [Term.scroll, if_pos hr']
    · rw [hlast _ (by omega) (by omega), spaceByte, if_neg (by omega)]
      simp only [Term.scroll, if_neg hr', Term.space]

theorem below_iff {bx : Nat} (h : bx < 2 ^ 15) : below bx = true ↔ bx < 2000 := by
  simp only [below, Bool.or_eq_true, decide_eq_true_eq]
  omega

theorem lineFeed_of_lt {bx : Nat} (h : bx < 1920) : lineFeed bx s = some (setCursor ((bx / 80 + 1) * 80) s) := by
  have hbx : (bx - bx % 80 + 80) % 2 ^ 16 = (bx / 80 + 1) * 80 := by omega
  rw [lineFeed, hbx]
  exact if_pos ((below_iff (by omega)).mpr (by omega))

theorem lineFeed_of_ge {bx : Nat} (h : 1920 ≤ bx) (h' : bx ≤ 2000) : lineFeed bx s = rollScreen s := by
  have hbx : (bx - bx % 80 + 80) % 2 ^ 16 = (bx / 80 + 1) * 80 := by omega
  rw [lineFeed, hbx]
  exact if_neg (mt (below_iff (by omega)).mp (by omega))

theorem Shows.newline (h : Shows t s) : ∃ s', lineFeed s.cursor s = some s' ∧ Shows t.newline s' := by
  have hrow := h.row
  have hcol := h.col
  have hcur := h.cursor
  by_cases hlt : t.row < 24
  · have hdiv : s.cursor / 80 = t.row := by omega
    rw [lineFeed_of_lt (by omega), hdiv, Term.newline, if_pos hlt]
    exact ⟨_, rfl, h.move (r := t.row + 1) (c := 0) (by omega) (by omega)⟩
  · obtain ⟨s', hrun, hs⟩ := h.roll
    have hlast : 24 = t.row := by omega
    rw [lineFeed_of_ge (by omega) (by omega), Term.newline, if_neg hlt]
    rw [hlast] at hs
    exact ⟨s', hrun, hs⟩

theorem Term.set_cell (t : Term) (x : UInt8 × UInt8) (r k : Nat) :
    (t.set x).cell r k = if r = t.row ∧ k = t.col then x else t.cell r k := by
  by_cases hr : r = t.row
  · subst hr
    by_cases hk : k = t.col
    · subst hk
      simp [Term.set]
    · simp [Term.set, hk]
  · simp [Term.set, hr]

theorem Shows.cell (h : Shows t s) (c attr : UInt8) :
    ∃ s', putCell s.cursor c attr s = some s' ∧ s'.cursor = s.cursor ∧ Shows (t.set (c, attr)) s' := by
  have hrow := h.row
  have hcol := h.col
  have hcur := h.cursor
  have hlim : segLimit = 0x7FFF := rfl
  have h₀ : s.cursor * 2 % 2 ^ 16 = s.cursor * 2 := by omega
  have h₁ : (s.cursor * 2 + 1) % 2 ^ 16 = s.cursor * 2 + 1 := by omega
  refine ⟨{ s with
    vram := update (update s.vram (s.cursor * 2) c) (s.cursor * 2 + 1) attr
    writes := (s.cursor * 2 + 1) :: s.cursor * 2 :: s.writes }, ?_, rfl, hrow, hcol, hcur, fun r hr k hk => ?_,
    fun r hr k hk => ?_, fun w hw => ?_⟩
  · rw [putCell, h₀, h₁, poke_eq (by omega), Option.bind_some, poke_eq (by omega)]
  · rw [Term.set_cell]
    dsimp only
    rw [update_of_ne (by omega)]
    by_cases hrk : r = t.row ∧ k = t.col
    · rw [if_pos hrk, show (r * 80 + k) * 2 = s.cursor * 2 by omega, update_self]
    · rw [if_neg hrk, update_of_ne (by omega), h.char r hr k hk]
  · rw [Term.set_cell]
    dsimp only
    by_cases hrk : r = t.row ∧ k = t.col
    · rw [if_pos hrk, show (r * 80 + k) * 2 + 1 = s.cursor * 2 + 1 by omega, update_self]
    · rw [if_neg hrk, update_of_ne (by omega), update_of_ne (by omega), h.attr r hr k hk]
  · rcases List.mem_cons.mp hw with rfl | hw
    · omega
    · rcases List.mem_cons.mp hw with rfl | hw
      · omega
      · exact h.writes w hw

theorem halved_of_lt {bx : Nat} (h : bx < 2000) : halved bx = bx := by
  rw [halved]
  omega

theorem Shows.forward (h : Shows t s) :
    ∃ s', (if below (s.cursor + 1) then some (setCursor (s.cursor + 1) s) else lineFeed (s.cursor + 1) s) = some s' ∧
      Shows t.forward s' := by
  have hrow := h.row
  have hcol := h.col
  have hcur := h.cursor
  have hbelow := below_iff (show s.cursor + 1 < 2 ^ 15 by omega)
  by_cases hmid : t.col < 79
  · rw [if_pos (hbelow.mpr (by omega)), Term.forward, if_pos hmid, hcur]
    exact ⟨_, rfl, h.move (r := t.row) (c := t.col + 1) hrow (by omega)⟩
  · rw [Term.forward, if_neg hmid, Term.newline]
    by_cases hlt : t.row < 24
    · have hnext : s.cursor + 1 = (t.row + 1) * 80 + 0 := by omega
      rw [if_pos (hbelow.mpr (by omega)), if_pos hlt, hnext]
      exact ⟨_, rfl, h.move (r := t.row + 1) (c := 0) (by omega) (by omega)⟩
    · obtain ⟨s', hrun, hs⟩ := h.roll
      have hlast : 24 = t.row := by omega
      rw [if_neg (mt hbelow.mp (by omega)), lineFeed_of_ge (by omega) (by omega), if_neg hlt]
      rw [hlast] at hs
      exact ⟨s', hrun, hs⟩

theorem Shows.back (h : Shows t s) (hcorner : ¬t.corner) : Shows t.back (setCursor (s.cursor - 1) s) := by
  have hrow := h.row
  have hcol := h.col
  have hcur := h.cursor
  rw [Term.back]
  by_cases hmid : 0 < t.col
  · rw [if_pos hmid, show s.cursor - 1 = t.row * 80 + (t.col - 1) by omega]
    exact h.move hrow (by omega)
  · have hdown : 0 < t.row := Nat.pos_of_ne_zero fun hzero => hcorner ⟨hzero, Nat.eq_zero_of_not_pos hmid⟩
    rw [if_neg hmid, if_pos hdown, show s.cursor - 1 = (t.row - 1) * 80 + 79 by omega]
    exact h.move (by omega) (by omega)

theorem putCell_setCursor (bx q : Nat) (c attr : UInt8) (s : Vga) :
    putCell bx c attr (setCursor q s) = (putCell bx c attr s).map (setCursor q) := by
  have hpoke (off : Nat) (b : UInt8) (s : Vga) : poke off b (setCursor q s) = (poke off b s).map (setCursor q) := by
    rw [poke, poke]
    by_cases hoff : off ≤ segLimit
    · rw [if_pos hoff, if_pos hoff]
      rfl
    · rw [if_neg hoff, if_neg hoff]
      rfl
  rw [putCell, putCell, hpoke]
  cases poke (bx * 2 % 2 ^ 16) c s with
  | none => rfl
  | some s₁ => exact hpoke _ _ s₁

theorem Shows.pos_iff (h : Shows t s) : s.cursor = 0 ↔ t.corner := by
  have := h.cursor
  rw [Term.corner]
  omega

theorem backspace_corner (hcur : s.cursor = 0) (attr : UInt8) : putCharColor 0x08 attr s = none := by
  rw [putCharColor, hcur]
  rfl

theorem Shows.erase (h : Shows t s) (hcorner : ¬t.corner) (attr : UInt8) :
    ∃ s', putCharColor 0x08 attr s = some s' ∧ Shows (t.back.set (0x20, attr)) s' := by
  obtain ⟨s', hrun, hcur, hs⟩ := (h.back hcorner).cell 0x20 attr
  have hlt := h.pos_lt
  have hpos : s.cursor ≠ 0 := mt h.pos_iff.mp hcorner
  have hbx : (s.cursor + 0xFFFF) % 2 ^ 16 = s.cursor - 1 := by omega
  refine ⟨s', ?_, hs⟩
  rw [putCharColor, if_neg (by decide), if_pos rfl, hbx]
  dsimp only
  rw [halved_of_lt (by omega), ← putCell_setCursor]
  exact hrun

theorem Shows.put (h : Shows t s) {c : UInt8} (hline : ¬(c = 0x0d ∨ c = 0x0a)) (hback : c ≠ 0x08) (attr : UInt8) :
    ∃ s', putCharColor c attr s = some s' ∧ Shows (t.set (c, attr)).forward s' := by
  obtain ⟨s₁, hrun, hcur, hs⟩ := h.cell c attr
  have hlt := h.pos_lt
  have hnext : (halved s.cursor + 1) % 2 ^ 16 = s₁.cursor + 1 := by
    rw [halved_of_lt hlt, hcur]
    omega
  rw [putCharColor, if_neg hline, if_neg hback, hrun, Option.bind_some, hnext]
  exact hs.forward

theorem exists_clsScreen (s : Vga) (h : ∀ w ∈ s.writes, w < 4000) :
    ∃ s', clsScreen s = some s' ∧ Shows Term.cleared s' := by
  obtain ⟨s₁, hrun, hf⟩ := exists_blank (80 * 25) 0 s (by decide) (by decide)
  refine ⟨setCursor 0 s₁, ?_, (by decide : 0 < 25), (by decide : 0 < 80), rfl, fun r hr c hc => ?_,
    fun r hr c hc => ?_, fun w hw => ?_⟩
  · rw [clsScreen, hrun]
    rfl
  · exact (hf.vram _).trans ((if_pos (by omega)).trans (if_pos (by omega)))
  · exact (hf.vram _).trans ((if_pos (by omega)).trans (if_neg (by omega)))
  · rcases hf.writes w hw with hw | hw
    · exact h w hw
    · omega

end Steps

section Runs

def Op.Falls (t : Term) : Op → Prop
  | .put c _ => c = 0x08 ∧ t.corner
  | .cls => False

variable {t : Term} {s start : Vga} {op : Op} {ops : List Op}

theorem Shows.step (h : Shows t s) (hop : ¬op.Falls t) : ∃ s', op.step s = some s' ∧ Shows (Term.step op t) s' := by
  cases op with
  | cls => exact exists_clsScreen s h.writes
  | put c attr =>
    rw [Op.step, Term.step]
    by_cases hline : c = 0x0d ∨ c = 0x0a
    · rw [putCharColor, if_pos hline, if_pos hline]
      exact h.newline
    · rw [if_neg hline]
      by_cases hback : c = 0x08
      · have hcorner : ¬t.corner := fun hcorner => hop ⟨hback, hcorner⟩
        subst hback
        rw [if_pos rfl, if_neg hcorner]
        exact h.erase hcorner attr
      · rw [if_neg hback]
        exact h.put hline hback attr

theorem Shows.step_none (h : Shows t s) (hop : op.Falls t) : op.step s = none := by
  cases op with
  | cls => exact hop.elim
  | put c attr =>
    obtain ⟨rfl, hcorner⟩ := hop
    exact backspace_corner (h.pos_iff.mpr hcorner) attr

theorem run_concat (ops : List Op) (op : Op) (s : Vga) : run (ops ++ [op]) s = (run ops s).bind op.step := by
  rw [run, run, List.foldlM_append]
  cases List.foldlM (fun s op => Op.step op s) s ops with
  | none => rfl
  | some s' => exact bind_pure (op.step s')

theorem Term.run_concat (ops : List Op) (op : Op) : Term.run (ops ++ [op]) = Term.step op (Term.run ops) :=
  List.foldl_concat ..

theorem bounded_iff : Bounded ops ↔ ∀ p op, p ++ [op] <+: ops → ¬op.Falls (Term.run p) := by
  constructor
  · intro h p op hp hop
    cases op with
    | cls => exact hop
    | put c attr =>
      obtain ⟨rfl, hcorner⟩ := hop
      exact h p attr hp hcorner
  · intro h p attr hp hcorner
    exact h p (.put 0x08 attr) hp ⟨rfl, hcorner⟩

theorem shows_run (hstart : Shows Term.cleared start) (h : Bounded ops) :
    ∀ p, p <+: ops → ∃ s, run p start = some s ∧ Shows (Term.run p) s := by
  intro p
  induction p using List.reverseRecOn with
  | nil => exact fun _ => ⟨start, rfl, hstart⟩
  | append_singleton p op ih =>
    intro hp
    obtain ⟨s, hrun, hs⟩ := ih ((List.prefix_append p [op]).trans hp)
    obtain ⟨s', hstep, hs'⟩ := hs.step (bounded_iff.mp h p op hp)
    refine ⟨s', ?_, ?_⟩
    · rw [run_concat, hrun, Option.bind_some, hstep]
    · rw [Term.run_concat]
      exact hs'

end Runs

/-- The screen is a terminal as long as no backspace comes in the corner. -/
theorem screen_tracks_iff (s₀ start : Vga) (ops : List Op) (hcls : clsScreen s₀ = some start) (hnew : s₀.writes = []) :
    OnScreen start ops ↔ Bounded ops := by
  obtain ⟨s', hrun, hstart⟩ := exists_clsScreen s₀ fun w hw => by simp [hnew] at hw
  obtain rfl : s' = start := Option.some.inj (hrun.symm.trans hcls)
  constructor
  · intro h p attr hp hcorner
    obtain ⟨s, hrunp, -, hs⟩ := h p ((List.prefix_append p _).trans hp)
    obtain ⟨s'', hrun'', -⟩ := h _ hp
    have hfalls : Op.Falls (Term.run p) (.put 0x08 attr) := ⟨rfl, hcorner⟩
    rw [run_concat, hrunp, Option.bind_some, hs.step_none hfalls] at hrun''
    exact Option.some_ne_none s'' hrun''.symm
  · intro h p hp
    obtain ⟨s, hrunp, hs⟩ := shows_run hstart h p hp
    exact ⟨s, hrunp, hs.pos_lt, hs⟩

theorem screen_tracks_erased : ∃ start, clsScreen ⟨0, fun _ => 0, []⟩ = some start ∧
    OnScreen start [.put 0x61 0x07, .put 0x08 0x07] := by
  obtain ⟨start, hcls, -⟩ := exists_clsScreen ⟨0, fun _ => 0, []⟩ (by simp)
  refine ⟨start, hcls, (screen_tracks_iff _ start _ hcls rfl).mpr fun p attr hp => ?_⟩
  rcases p with _ | ⟨op, _ | ⟨op', p⟩⟩
  · simp at hp
  · obtain ⟨rfl, -⟩ : op = .put 0x61 0x07 ∧ attr = 0x07 := by simpa using hp
    decide
  · simp at hp

/-- A backspace on the cleared screen addresses `gs:0xFFFE`. -/
theorem corner_backspace_faults : ∃ start, clsScreen ⟨0, fun _ => 0, []⟩ = some start ∧
    run [.put 0x08 0x07] start = none ∧ Term.run [.put 0x08 0x07] = Term.cleared ∧
    ¬OnScreen start [.put 0x08 0x07] := by
  obtain ⟨start, hcls, hstart⟩ := exists_clsScreen ⟨0, fun _ => 0, []⟩ (by simp)
  have hfault : run [.put 0x08 0x07] start = none := by
    have hnil : run [] start = some start := rfl
    rw [← List.nil_append [Op.put 0x08 0x07], run_concat, hnil, Option.bind_some, Op.step]
    exact backspace_corner hstart.cursor 0x07
  refine ⟨start, hcls, hfault, rfl, fun h => ?_⟩
  obtain ⟨s, hrun, -⟩ := h _ List.prefix_rfl
  rw [hfault] at hrun
  exact Option.some_ne_none s hrun.symm

end TrueOs.Screen
