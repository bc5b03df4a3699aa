import TrueOs.Shell.Pipe

/-! `device/keyboard.c`: which modifier keys are down, from the bytes of the controller.

The keys of a pair share one flag. -/

namespace TrueOs.Keyboard

open Function (update update_of_ne update_apply)
open Fs

def shiftLMake : Nat := 0x2a
def shiftRMake : Nat := 0x36
def altLMake : Nat := 0x38
def altRMake : Nat := 0xe038
def ctrlLMake : Nat := 0x1d
def ctrlRMake : Nat := 0xe01d
def capsLockMake : Nat := 0x3a

def pair (plain shifted : Char) : UInt8 × UInt8 := (plain.toUInt8, shifted.toUInt8)

/-- Indexed by the make code.  Quotes, the backslash, braces and the grave accent are given by their codes. -/
def keymap : List (UInt8 × UInt8) := [
  (0, 0), (0x1b, 0x1b), pair '1' '!', pair '2' '@', pair '3' '#', pair '4' '$', pair '5' '%', pair '6' '^',
  pair '7' '&', pair '8' '*', pair '9' '(', pair '0' ')', pair '-' '_', pair '=' '+', (0x08, 0x08), (0x09, 0x09),
  pair 'q' 'Q', pair 'w' 'W', pair 'e' 'E', pair 'r' 'R', pair 't' 'T', pair 'y' 'Y', pair 'u' 'U', pair 'i' 'I',
  pair 'o' 'O', pair 'p' 'P', (0x5b, 0x7b), (0x5d, 0x7d), (0x0d, 0x0d), (0, 0), pair 'a' 'A', pair 's' 'S',
  pair 'd' 'D', pair 'f' 'F', pair 'g' 'G', pair 'h' 'H', pair 'j' 'J', pair 'k' 'K', pair 'l' 'L', pair ';' ':',
  (0x27, 0x22), (0x60, 0x7e), (0, 0), (0x5c, 0x7c), pair 'z' 'Z', pair 'x' 'X', pair 'c' 'C', pair 'v' 'V',
  pair 'b' 'B', pair 'n' 'N', pair 'm' 'M', pair ',' '<', pair '.' '>', pair '/' '?', (0, 0), pair '*' '*',
  (0, 0), pair ' ' ' ', (0, 0)]

structure Mods where
  ctrlStatus : Bool
  shiftStatus : Bool
  altStatus : Bool
  capsLockStatus : Bool
  extScancode : Bool
  deriving DecidableEq

def Mods.released (m : Mods) (makeCode : Nat) : Mods :=
  if makeCode = ctrlLMake ∨ makeCode = ctrlRMake then { m with ctrlStatus := false }
  else if makeCode = shiftLMake ∨ makeCode = shiftRMake then { m with shiftStatus := false }
  else if makeCode = altLMake ∨ makeCode = altRMake then { m with altStatus := false }
  else m

/-- An unknown key is only reported on the screen. -/
def Mods.pressed (m : Mods) (scancode : Nat) : Mods :=
  if scancode = ctrlLMake ∨ scancode = ctrlRMake then { m with ctrlStatus := true }
  else if scancode = shiftLMake ∨ scancode = shiftRMake then { m with shiftStatus := true }
  else if scancode = altLMake ∨ scancode = altRMake then { m with altStatus := true }
  else if scancode = capsLockMake then { m with capsLockStatus := !m.capsLockStatus }
  else m

/-- Keys with two characters follow shift, letters follow shift and caps lock. -/
def shiftOf (m : Mods) (scancode : Nat) : Bool :=
  if scancode < 0x0e ∨ scancode = 0x29 ∨ scancode = 0x1a ∨ scancode = 0x1b ∨ scancode = 0x2b ∨ scancode = 0x27 ∨
      scancode = 0x28 ∨ scancode = 0x33 ∨ scancode = 0x34 ∨ scancode = 0x35 then
    m.shiftStatus
  else if m.shiftStatus && m.capsLockStatus then false
  else m.shiftStatus || m.capsLockStatus

def ctrlChar (m : Mods) (curChar : UInt8) : UInt8 :=
  if m.ctrlStatus && (curChar == 0x6c || curChar == 0x75) then curChar - 0x61 else curChar

def Known (scancode : Nat) : Prop :=
  (0x00 < scancode ∧ scancode < 0x3b) ∨ scancode = altRMake ∨ scancode = ctrlRMake

instance (scancode : Nat) : Decidable (Known scancode) := inferInstanceAs (Decidable (_ ∨ _))

/-- What a whole scan code does: the flags after it, and the character for `kbd_buf`. -/
def decodeScan (m : Mods) (scancode : Nat) : Mods × Option UInt8 :=
  if scancode &&& 0x0080 ≠ 0 then
    (m.released (scancode &&& 0xff7f), none)
  else if Known scancode then
    let index := scancode &&& 0x00ff
    let chars := keymap.getD index (0, 0)
    let curChar := if shiftOf m scancode then chars.2 else chars.1
    if curChar ≠ 0 then (m, some (ctrlChar m curChar)) else (m.pressed index, none)
  else
    (m, none)

def scanOf (ext : Bool) (n : Nat) : Nat := if ext then 0xe000 ||| n else n

def decode (m : Mods) (byte : UInt8) : Mods × Option UInt8 :=
  if byte.toNat = 0xe0 then
    ({ m with extScancode := true }, none)
  else
    decodeScan { m with extScancode := false } (scanOf m.extScancode byte.toNat)

structure Kbd where
  mods : Mods
  kbdBuf : Ioqueue

/-- A character for a full buffer is dropped. -/
def kbdPut (ioq : Ioqueue) (byte : UInt8) : Ioqueue :=
  if ioqFull ioq then ioq
  else { ioq with buf := update ioq.buf ioq.head byte, head := nextPos ioq.head }

def intrKeyboardHandler (k : Kbd) (byte : UInt8) : Kbd :=
  ⟨(decode k.mods byte).1, (decode k.mods byte).2.elim k.kbdBuf (kbdPut k.kbdBuf)⟩

def keyboardInit : Kbd := ⟨⟨false, false, false, false, false⟩, ⟨fun _ => 0, 0, 0⟩⟩

def run (bytes : List UInt8) : Kbd := bytes.foldl intrKeyboardHandler keyboardInit

/-- A key by its make code.  The break code of 0x60 would be the byte that announces an extended key. -/
structure Key where
  ext : Bool
  code : Fin 128
  code_ne : code ≠ 0x60
  deriving DecidableEq

inductive Event
  | press (k : Key)
  | release (k : Key)

def Key.announce (k : Key) : List UInt8 := if k.ext then [0xe0] else []

def Key.byte (k : Key) : UInt8 := UInt8.ofNat k.code

def Event.bytes : Event → List UInt8
  | .press k => k.announce ++ [k.byte]
  | .release k => k.announce ++ [k.byte ||| 0x80]

def bytes (es : List Event) : List UInt8 := es.flatMap Event.bytes

def Event.hold (h : Key → Bool) : Event → Key → Bool
  | .press k => update h k true
  | .release k => update h k false

def held (es : List Event) : Key → Bool := es.foldl Event.hold (fun _ => false)

/-- A key repeats while it is down, and only a key that is down is released. -/
inductive Stream : List Event → Prop
  | nil : Stream []
  | press {es : List Event} (h : Stream es) (k : Key) : Stream (es ++ [.press k])
  | release {es : List Event} (h : Stream es) {k : Key} (hk : held es k = true) : Stream (es ++ [.release k])

def ctrlL : Key := ⟨false, 0x1d, by decide⟩
def ctrlR : Key := ⟨true, 0x1d, by decide⟩
def shiftL : Key := ⟨false, 0x2a, by decide⟩
def shiftR : Key := ⟨false, 0x36, by decide⟩
def altL : Key := ⟨false, 0x38, by decide⟩
def altR : Key := ⟨true, 0x38, by decide⟩
def capsLock : Key := ⟨false, 0x3a, by decide⟩

def Event.isCaps : Event → Bool
  | .press k => k == capsLock
  | .release _ => false

structure Agrees (es : List Event) (m : Mods) : Prop where
  ctrl : m.ctrlStatus = (held es ctrlL || held es ctrlR)
  shift : m.shiftStatus = (held es shiftL || held es shiftR)
  alt : m.altStatus = (held es altL || held es altR)
  caps : m.capsLockStatus = decide (es.countP Event.isCaps % 2 = 1)

structure Tracks (es : List Event) : Prop where
  mods : ∀ p, p <+: es → Agrees p (run (bytes p)).mods
  ext : ∀ b, b <+: bytes es → (run b).mods.extScancode = (b.getLast? == some 0xe0)

def Key.twin (k : Key) : Option Key :=
  if k = ctrlL then some ctrlR else if k = ctrlR then some ctrlL
  else if k = shiftL then some shiftR else if k = shiftR then some shiftL
  else if k = altL then some altR else if k = altR then some altL
  else none

def Apart (es : List Event) : Prop :=
  ∀ p k k', p ++ [.release k] <+: es → k.twin = some k' → held p k' = false

section Bytes

variable {m : Mods} {es : List Event}

@[simp] theorem Mods.released_ext (m : Mods) (c : Nat) : (m.released c).extScancode = m.extScancode := by
  unfold Mods.released
  split_ifs <;> rfl

@[simp] theorem Mods.pressed_ext (m : Mods) (c : Nat) : (m.pressed c).extScancode = m.extScancode := by
  unfold Mods.pressed
  split_ifs <;> rfl

theorem decode_ext (m : Mods) (b : UInt8) : (decode m b).1.extScancode = (b == 0xe0) := by
  have hb : b.toNat = 0xe0 ↔ b = 0xe0 := UInt8.toNat_inj (b := 0xe0)
  unfold decode
  by_cases h : b = 0xe0
  · rw [if_pos (hb.mpr h), h]
    rfl
  · rw [if_neg (fun hc => h (hb.mp hc)), beq_eq_false_iff_ne.mpr h]
    unfold decodeScan
    dsimp only
    split_ifs <;> simp

def feed (m : Mods) (bs : List UInt8) : Mods := bs.foldl (fun m b => (decode m b).1) m

theorem run_mods (bs : List UInt8) : (run bs).mods = feed keyboardInit.mods bs :=
  (List.foldl_hom Kbd.mods (fun _ _ => rfl)).symm

theorem feed_append (m : Mods) (bs cs : List UInt8) : feed m (bs ++ cs) = feed (feed m bs) cs := List.foldl_append

theorem feed_ext (hm : m.extScancode = false) (bs : List UInt8) :
    (feed m bs).extScancode = (bs.getLast? == some 0xe0) := by
  induction bs using List.reverseRecOn with
  | nil => exact hm
  | append_singleton bs b ih =>
    rw [feed_append, List.getLast?_append, List.getLast?_singleton, Option.some_or]
    exact decode_ext _ b

def Event.track (m : Mods) : Event → Mods
  | .press k =>
    { m with
      ctrlStatus := m.ctrlStatus || (k == ctrlL || k == ctrlR)
      shiftStatus := m.shiftStatus || (k == shiftL || k == shiftR)
      altStatus := m.altStatus || (k == altL || k == altR)
      capsLockStatus := m.capsLockStatus ^^ k == capsLock }
  | .release k =>
    { m with
      ctrlStatus := m.ctrlStatus && !(k == ctrlL || k == ctrlR)
      shiftStatus := m.shiftStatus && !(k == shiftL || k == shiftR)
      altStatus := m.altStatus && !(k == altL || k == altR) }

theorem keymap_char : ∀ i < 0x3b, ∀ shift : Bool,
    (if shift then (keymap.getD i (0, 0)).2 else (keymap.getD i (0, 0)).1) ≠ 0 →
      i ≠ 0x1d ∧ i ≠ 0x2a ∧ i ≠ 0x36 ∧ i ≠ 0x38 ∧ i ≠ 0x3a := by
  decide

theorem Mods.pressed_of_char (m : Mods) {i : Nat} (hi : i < 0x3b)
    (h : i ≠ 0x1d ∧ i ≠ 0x2a ∧ i ≠ 0x36 ∧ i ≠ 0x38 ∧ i ≠ 0x3a) : m.pressed i = m := by
  obtain ⟨hc, hl, hr, ha, hcaps⟩ := h
  have hctrl : ¬(i = ctrlLMake ∨ i = ctrlRMake) := by simp only [ctrlLMake, ctrlRMake]; omega
  have hshift : ¬(i = shiftLMake ∨ i = shiftRMake) := by simp only [shiftLMake, shiftRMake]; omega
  have halt : ¬(i = altLMake ∨ i = altRMake) := by simp only [altLMake, altRMake]; omega
  rw [Mods.pressed, if_neg hctrl, if_neg hshift, if_neg halt, if_neg (show ¬i = capsLockMake from hcaps)]

theorem Known.index_lt {scancode : Nat} (h : Known scancode) : scancode &&& 0x00ff < 0x3b := by
  rcases h with ⟨-, h⟩ | rfl | rfl
  · exact lt_of_le_of_lt Nat.and_le_left h
  · decide
  · decide

theorem decodeScan_make {n : Nat} (h : n &&& 0x0080 = 0) :
    (decodeScan m n).1 = if Known n then m.pressed (n &&& 0x00ff) else m := by
  rw [decodeScan, if_neg (not_not_intro h)]
  by_cases hk : Known n
  · rw [if_pos hk, if_pos hk]
    dsimp only
    by_cases hc : (if shiftOf m n then (keymap.getD (n &&& 0x00ff) (0, 0)).2 else
        (keymap.getD (n &&& 0x00ff) (0, 0)).1) ≠ 0
    · rw [if_pos hc]
      exact (m.pressed_of_char hk.index_lt (keymap_char _ hk.index_lt _ hc)).symm
    · rw [if_neg hc]
  · rw [if_neg hk, if_neg hk]

theorem decodeScan_break {n : Nat} (h : n &&& 0x0080 ≠ 0) : (decodeScan m n).1 = m.released (n &&& 0xff7f) := by
  rw [decodeScan, if_pos h]

theorem feed_announce (hm : m.extScancode = false) (k : Key) : feed m k.announce = { m with extScancode := k.ext } := by
  obtain ⟨ctrl, shift, alt, caps, ext⟩ := m
  obtain rfl : ext = false := hm
  obtain ⟨x, c, h⟩ := k
  cases x <;> rfl

theorem make_codes : ∀ (x : Bool) (c : Fin 128) (h : c ≠ 0x60),
    (UInt8.ofNat c).toNat ≠ 0xe0 ∧ scanOf x (UInt8.ofNat c).toNat &&& 0x0080 = 0 ∧
    (let n := scanOf x (UInt8.ofNat c).toNat
     let i := n &&& 0x00ff
     let k : Key := ⟨x, c, h⟩
     (decide (Known n) && (i == ctrlLMake || i == ctrlRMake)) = (k == ctrlL || k == ctrlR) ∧
     (decide (Known n) && (i == shiftLMake || i == shiftRMake)) = (k == shiftL || k == shiftR) ∧
     (decide (Known n) && (i == altLMake || i == altRMake)) = (k == altL || k == altR) ∧
     (decide (Known n) && i == capsLockMake) = (k == capsLock)) := by
  decide

theorem break_codes : ∀ (x : Bool) (c : Fin 128) (h : c ≠ 0x60),
    (UInt8.ofNat c ||| 0x80).toNat ≠ 0xe0 ∧ scanOf x (UInt8.ofNat c ||| 0x80).toNat &&& 0x0080 ≠ 0 ∧
    (let i := scanOf x (UInt8.ofNat c ||| 0x80).toNat &&& 0xff7f
     let k : Key := ⟨x, c, h⟩
     (i == ctrlLMake || i == ctrlRMake) = (k == ctrlL || k == ctrlR) ∧
     (i == shiftLMake || i == shiftRMake) = (k == shiftL || k == shiftR) ∧
     (i == altLMake || i == altRMake) = (k == altL || k == altR)) := by
  decide

theorem Mods.pressed_eq (m : Mods) (i : Nat) : m.pressed i =
    { m with
      ctrlStatus := m.ctrlStatus || (i == ctrlLMake || i == ctrlRMake)
      shiftStatus := m.shiftStatus || (i == shiftLMake || i == shiftRMake)
      altStatus := m.altStatus || (i == altLMake || i == altRMake)
      capsLockStatus := m.capsLockStatus ^^ i == capsLockMake } := by
  unfold Mods.pressed
  split_ifs with hctrl hshift halt hcaps
  · rcases hctrl with rfl | rfl <;> simp [ctrlLMake, ctrlRMake, shiftLMake, shiftRMake, altLMake, altRMake, capsLockMake]
  · rcases hshift with rfl | rfl <;> simp [ctrlLMake, ctrlRMake, shiftLMake, shiftRMake, altLMake, altRMake, capsLockMake]
  · rcases halt with rfl | rfl <;> simp [ctrlLMake, ctrlRMake, shiftLMake, shiftRMake, altLMake, altRMake, capsLockMake]
  · subst hcaps
    simp [ctrlLMake, ctrlRMake, shiftLMake, shiftRMake, altLMake, altRMake, capsLockMake]
  · rw [not_or] at hctrl hshift halt
    simp only [beq_eq_false_iff_ne.mpr hctrl.1, beq_eq_false_iff_ne.mpr hctrl.2, beq_eq_false_iff_ne.mpr hshift.1,
      beq_eq_false_iff_ne.mpr hshift.2, beq_eq_false_iff_ne.mpr halt.1, beq_eq_false_iff_ne.mpr halt.2,
      beq_eq_false_iff_ne.mpr hcaps, Bool.or_false, Bool.xor_false]

theorem Mods.released_eq (m : Mods) (i : Nat) : m.released i =
    { m with
      ctrlStatus := m.ctrlStatus && !(i == ctrlLMake || i == ctrlRMake)
      shiftStatus := m.shiftStatus && !(i == shiftLMake || i == shiftRMake)
      altStatus := m.altStatus && !(i == altLMake || i == altRMake) } := by
  unfold Mods.released
  split_ifs with hctrl hshift halt
  · rcases hctrl with rfl | rfl <;> simp [ctrlLMake, ctrlRMake, shiftLMake, shiftRMake, altLMake, altRMake]
  · rcases hshift with rfl | rfl <;> simp [ctrlLMake, ctrlRMake, shiftLMake, shiftRMake, altLMake, altRMake]
  · rcases halt with rfl | rfl <;> simp [ctrlLMake, ctrlRMake, shiftLMake, shiftRMake, altLMake, altRMake]
  · rw [not_or] at hctrl hshift halt
    simp only [beq_eq_false_iff_ne.mpr hctrl.1, beq_eq_false_iff_ne.mpr hctrl.2, beq_eq_false_iff_ne.mpr hshift.1,
      beq_eq_false_iff_ne.mpr hshift.2, beq_eq_false_iff_ne.mpr halt.1, beq_eq_false_iff_ne.mpr halt.2,
      Bool.or_false, Bool.not_false, Bool.and_true]

theorem Mods.ite_pressed (m : Mods) (c : Prop) [Decidable c] (i : Nat) : (if c then m.pressed i else m) =
    { m with
      ctrlStatus := m.ctrlStatus || (decide c && (i == ctrlLMake || i == ctrlRMake))
      shiftStatus := m.shiftStatus || (decide c && (i == shiftLMake || i == shiftRMake))
      altStatus := m.altStatus || (decide c && (i == altLMake || i == altRMake))
      capsLockStatus := m.capsLockStatus ^^ (decide c && i == capsLockMake) } := by
  by_cases hc : c
  · simp only [if_pos hc, m.pressed_eq, decide_eq_true hc, Bool.true_and]
  · simp only [if_neg hc, decide_eq_false hc, Bool.false_and, Bool.or_false, Bool.xor_false]

theorem decode_press {k : Key} (hm : m.extScancode = k.ext) :
    (decode m k.byte).1 = (Event.press k).track { m with extScancode := false } := by
  obtain ⟨hb, hmake, hctrl, hshift, halt, hcaps⟩ := make_codes k.ext k.code k.code_ne
  rw [decode, Key.byte, if_neg hb, hm, decodeScan_make hmake, Mods.ite_pressed]
  exact Mods.mk.injEq .. ▸ ⟨congrArg (m.ctrlStatus || ·) hctrl, congrArg (m.shiftStatus || ·) hshift,
    congrArg (m.altStatus || ·) halt, congrArg (m.capsLockStatus ^^ ·) hcaps, rfl⟩

theorem decode_release {k : Key} (hm : m.extScancode = k.ext) :
    (decode m (k.byte ||| 0x80)).1 = (Event.release k).track { m with extScancode := false } := by
  obtain ⟨hb, hbreak, hctrl, hshift, halt⟩ := break_codes k.ext k.code k.code_ne
  rw [decode, Key.byte, if_neg hb, hm, decodeScan_break hbreak, Mods.released_eq]
  exact Mods.mk.injEq .. ▸ ⟨congrArg (m.ctrlStatus && !·) hctrl, congrArg (m.shiftStatus && !·) hshift,
    congrArg (m.altStatus && !·) halt, rfl, rfl⟩

theorem feed_event (hm : m.extScancode = false) (e : Event) : feed m e.bytes = e.track m := by
  have hreset : ∀ k : Key, { { m with extScancode := k.ext } with extScancode := false } = m := by
    intro k
    obtain ⟨ctrl, shift, alt, caps, ext⟩ := m
    exact Mods.mk.injEq .. ▸ ⟨rfl, rfl, rfl, rfl, hm.symm⟩
  cases e with
  | press k =>
    rw [Event.bytes, feed_append, feed_announce hm]
    exact (decode_press rfl).trans (congrArg (Event.press k).track (hreset k))
  | release k =>
    rw [Event.bytes, feed_append, feed_announce hm]
    exact (decode_release rfl).trans (congrArg (Event.release k).track (hreset k))

theorem Event.track_ext (m : Mods) (e : Event) : (e.track m).extScancode = m.extScancode := by
  cases e <;> rfl

theorem feed_bytes_ext (hm : m.extScancode = false) (es : List Event) : (feed m (bytes es)).extScancode = false := by
  induction es generalizing m with
  | nil => exact hm
  | cons e es ih =>
    rw [bytes, List.flatMap_cons, feed_append, feed_event hm]
    exact ih ((e.track_ext m).trans hm)

theorem run_snoc (es : List Event) (e : Event) : (run (bytes (es ++ [e]))).mods = e.track (run (bytes es)).mods := by
  rw [run_mods, run_mods, bytes, List.flatMap_append, List.flatMap_singleton, feed_append]
  exact feed_event (feed_bytes_ext rfl es) e

theorem held_snoc (es : List Event) (e : Event) : held (es ++ [e]) = e.hold (held es) :=
  List.foldl_append

end Bytes

section Keys

variable {es p : List Event} {m : Mods} {h : Key → Bool} {k a b : Key}

theorem update_press (h : Key → Bool) (k a b : Key) :
    (update h k true a || update h k true b) = ((h a || h b) || (k == a || k == b)) := by
  by_cases ha : k = a
  · subst ha
    simp
  · by_cases hb : k = b
    · subst hb
      simp
    · simp [update_of_ne (Ne.symm ha), update_of_ne (Ne.symm hb), ha, hb]

theorem update_release (ha : k = a → h b = false) (hb : k = b → h a = false) :
    (update h k false a || update h k false b) = ((h a || h b) && !(k == a || k == b)) := by
  by_cases hka : k = a
  · subst hka
    by_cases hab : b = k
    · subst hab
      simp
    · simp [update_of_ne hab, ha rfl]
  · by_cases hkb : k = b
    · subst hkb
      simp [update_of_ne (Ne.symm hka), hb rfl]
    · simp [update_of_ne (Ne.symm hka), update_of_ne (Ne.symm hkb), hka, hkb]

theorem Agrees.press (ha : Agrees es m) (k : Key) : Agrees (es ++ [.press k]) ((Event.press k).track m) where
  ctrl := by
    rw [held_snoc, Event.hold, update_press, ← ha.ctrl]
    rfl
  shift := by
    rw [held_snoc, Event.hold, update_press, ← ha.shift]
    rfl
  alt := by
    rw [held_snoc, Event.hold, update_press, ← ha.alt]
    rfl
  caps := by
    change (m.capsLockStatus ^^ k == capsLock) = _
    rw [ha.caps, List.countP_append, List.countP_singleton, Event.isCaps]
    cases k == capsLock with
    | false => simp
    | true =>
      rcases Nat.mod_two_eq_zero_or_one (es.countP Event.isCaps) with h | h <;>
        simp [h, Nat.add_mod]

def Lone (h : Key → Bool) (k : Key) : Prop := ∀ k', k.twin = some k' → h k' = false

theorem Agrees.release (ha : Agrees es m) (hl : Lone (held es) k) :
    Agrees (es ++ [.release k]) ((Event.release k).track m) where
  ctrl := by
    rw [held_snoc, Event.hold, update_release, ← ha.ctrl]
    · rfl
    · rintro rfl
      exact hl ctrlR (by decide)
    · rintro rfl
      exact hl ctrlL (by decide)
  shift := by
    rw [held_snoc, Event.hold, update_release, ← ha.shift]
    · rfl
    · rintro rfl
      exact hl shiftR (by decide)
    · rintro rfl
      exact hl shiftL (by decide)
  alt := by
    rw [held_snoc, Event.hold, update_release, ← ha.alt]
    · rfl
    · rintro rfl
      exact hl altR (by decide)
    · rintro rfl
      exact hl altL (by decide)
  caps := by
    rw [List.countP_append, List.countP_singleton]
    exact ha.caps

theorem Agrees.lone (ha : Agrees (es ++ [.release k]) ((Event.release k).track m)) : Lone (held es) k := by
  have hctrl := ha.ctrl
  have hshift := ha.shift
  have halt := ha.alt
  rw [held_snoc] at hctrl hshift halt
  intro k' hk'
  rw [Key.twin] at hk'
  split_ifs at hk' with h₁ h₂ h₃ h₄ h₅ h₆ <;> obtain rfl := Option.some.inj hk'
  · subst h₁
    simpa [Event.track, Event.hold, update_apply, show ctrlR ≠ ctrlL by decide] using hctrl
  · subst h₂
    simpa [Event.track, Event.hold, update_apply, show ctrlL ≠ ctrlR by decide] using hctrl
  · subst h₃
    simpa [Event.track, Event.hold, update_apply, show shiftR ≠ shiftL by decide] using hshift
  · subst h₄
    simpa [Event.track, Event.hold, update_apply, show shiftL ≠ shiftR by decide] using hshift
  · subst h₅
    simpa [Event.track, Event.hold, update_apply, show altR ≠ altL by decide] using halt
  · subst h₆
    simpa [Event.track, Event.hold, update_apply, show altL ≠ altR by decide] using halt

theorem Stream.init {e : Event} (h : Stream (es ++ [e])) : Stream es := by
  generalize hl : es ++ [e] = l at h
  cases h with
  | nil => exact absurd hl (by simp)
  | press h k => exact (List.append_inj' hl rfl).1 ▸ h
  | release h hk => exact (List.append_inj' hl rfl).1 ▸ h

theorem agrees_of_apart (hs : Stream es) (hap : Apart es) : Agrees es (run (bytes es)).mods := by
  induction hs with
  | nil => exact ⟨rfl, rfl, rfl, rfl⟩
  | press hs k ih =>
    rw [run_snoc]
    exact (ih fun p k k' hp => hap p k k' (hp.trans (List.prefix_append _ _))).press k
  | release hs hk ih =>
    rw [run_snoc]
    exact (ih fun p k k' hp => hap p k k' (hp.trans (List.prefix_append _ _))).release
      fun k' hk' => hap _ _ k' (List.prefix_refl _) hk'

theorem apart_nil : Apart [] := by
  intro p k k' hp
  exact absurd (List.prefix_nil.mp hp) (by simp)

theorem Apart.press (h : Apart es) (k : Key) : Apart (es ++ [.press k]) := by
  intro p q k' hp
  rcases List.prefix_concat_iff.mp hp with heq | hp
  · exact absurd (List.append_inj' heq rfl).2 (by simp)
  · exact h p q k' hp

theorem Apart.release (h : Apart es) (hl : Lone (held es) k) : Apart (es ++ [.release k]) := by
  intro p q k' hp
  rcases List.prefix_concat_iff.mp hp with heq | hp
  · obtain ⟨rfl, hq⟩ := List.append_inj' heq rfl
    obtain rfl : q = k := by simpa using hq
    exact hl k'
  · exact h p q k' hp

theorem Stream.of_prefix (hs : Stream es) (hp : p <+: es) : Stream p := by
  obtain ⟨r, rfl⟩ := hp
  induction r using List.reverseRecOn with
  | nil => rwa [List.append_nil] at hs
  | append_singleton r e ih =>
    rw [← List.append_assoc] at hs
    exact ih hs.init

theorem keyboard_tracks_iff (hs : Stream es) : Tracks es ↔ Apart es := by
  constructor
  · intro ht p k k' hp hk'
    have ha := ht.mods _ hp
    rw [run_snoc] at ha
    exact ha.lone k' hk'
  · intro hap
    refine ⟨fun p hp => ?_, fun b _ => ?_⟩
    · exact agrees_of_apart (hs.of_prefix hp) fun q k k' hq => hap q k k' (hq.trans hp)
    · rw [run_mods]
      exact feed_ext rfl b

def keyA : Key := ⟨false, 0x1e, by decide⟩

def typedA : List Event := [.press shiftL, .press keyA, .release keyA, .release shiftL]

theorem stream_typedA : Stream typedA :=
  ((((Stream.nil).press shiftL).press keyA).release (k := keyA) (by decide)).release (k := shiftL) (by decide)

theorem typedA_tracks : Tracks typedA := by
  refine (keyboard_tracks_iff stream_typedA).mpr ?_
  have hshift : Lone (held [.press shiftL, .press keyA, .release keyA]) shiftL := by
    intro k' hk'
    obtain rfl := Option.some.inj (hk'.symm.trans (by decide : shiftL.twin = some shiftR))
    decide
  have hkey : Lone (held [.press shiftL, .press keyA]) keyA := by
    intro k' hk'
    exact absurd (hk'.symm.trans (by decide : keyA.twin = none)) (by simp)
  exact (((apart_nil.press shiftL).press keyA).release hkey).release hshift

def bothShifts : List Event := [.press shiftL, .press shiftR, .release shiftL]

theorem both_shifts_lost : Stream bothShifts ∧ held bothShifts shiftR = true ∧
    (run (bytes bothShifts)).mods.shiftStatus = false :=
  ⟨(((Stream.nil).press shiftL).press shiftR).release (k := shiftL) (by decide), by decide, by decide⟩

end Keys

end TrueOs.Keyboard
