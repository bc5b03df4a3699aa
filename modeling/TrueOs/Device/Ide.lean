import TrueOs.Fs.State

/-! `device/ide.c`: transfers of any number of sectors by commands of at most 256.

The number of sectors of a command goes through eight bits, where 0 stands for 256. -/

namespace TrueOs.Ide

open Function (update update_self update_of_ne update_eq_self)
open Prog Fs

structure Cmd where
  write : Bool
  lba : Nat
  sectCnt : UInt8
  moved : Nat
  deriving DecidableEq

def sectors (sectCnt : UInt8) : Nat := if sectCnt = 0 then 256 else sectCnt.toNat

/-- The registers of a channel and the drives on it.  The drive is busy for `delay n` looks at its status after command
number `n`; `pos` is the next byte of the transfer, and the last command stands first in `cmds`. -/
structure Channel where
  sectCnt : UInt8
  lbaL : UInt8
  lbaM : UInt8
  lbaH : UInt8
  device : UInt8
  disks : Bool → Buf
  delay : Nat → Nat
  polls : Nat
  pos : Nat
  cmds : List Cmd

namespace Channel

def slave (c : Channel) : Bool := c.device &&& 0x10 != 0

def lba (c : Channel) : Nat :=
  c.lbaL.toNat + c.lbaM.toNat * 2 ^ 8 + c.lbaH.toNat * 2 ^ 16 + (c.device &&& 0x0f).toNat * 2 ^ 24

def command (c : Channel) (write : Bool) : Channel :=
  { c with
    cmds := ⟨write, c.lba, c.sectCnt, 0⟩ :: c.cmds
    polls := c.delay c.cmds.length
    pos := 512 * c.lba }

def advance (c : Channel) (n : Nat) : Channel :=
  { c with
    pos := c.pos + n
    cmds := c.cmds.modifyHead (fun cmd => { cmd with moved := cmd.moved + n }) }

end Channel

/-- `BIT_DEV_MBS | BIT_DEV_LBA`, and `BIT_DEV_DEV` for the second drive. -/
def regDevice (slave : Bool) : UInt8 := 0xa0 ||| 0x40 ||| if slave then 0x10 else 0

def selectDisk (slave : Bool) : Prog Channel Buf Unit := modify (fun c => { c with device := regDevice slave })

/-- `outb` takes the low byte. -/
def selectSector (slave : Bool) (lba : Nat) (secCnt : UInt8) : Prog Channel Buf Unit := do
  assert (lba ≤ maxLba)
  modify (fun c => { c with
    sectCnt := secCnt
    lbaL := UInt8.ofNat lba
    lbaM := UInt8.ofNat (lba >>> 8)
    lbaH := UInt8.ofNat (lba >>> 16)
    device := regDevice slave ||| UInt8.ofNat (lba >>> 24) })

def cmdOut (write : Bool) : Prog Channel Buf Unit := modify (fun c => c.command write)

def inbStatus : Prog Channel Buf UInt8 := do
  let polls := (← get).polls
  modify (fun c => { c with polls := c.polls - 1 })
  return if polls = 0 then 0x48 else 0x80

/-- `time_limit -= 10 >= 0` takes one away. -/
def busyWait : (timeLimit : Nat) → Prog Channel Buf Bool
  | 0 => return false
  | timeLimit + 1 => do
    if timeLimit = 0 then
      return false
    else if (← inbStatus) &&& 0x80 = 0 then
      return (← inbStatus) &&& 0x08 != 0
    else
      busyWait timeLimit

/-- `insw` of the bytes of `sec_cnt` sectors to `buf + off`. -/
def readFromSector (buf : Buf) (off : Nat) (secCnt : UInt8) : Prog Channel Buf Buf := do
  let sizeInByte := if secCnt = 0 then 256 * 512 else secCnt.toNat * 512
  let c ← get
  modify (fun c => c.advance sizeInByte)
  return buf.splice off sizeInByte ((c.disks c.slave).slice c.pos sizeInByte)

/-- `outsw` of the bytes of `sec_cnt` sectors from `buf + off`. -/
def write2sector (buf : Buf) (off : Nat) (secCnt : UInt8) : Prog Channel Buf Unit := do
  let sizeInByte := if secCnt = 0 then 256 * 512 else secCnt.toNat * 512
  modify (fun c => { c with
    disks := update c.disks c.slave ((c.disks c.slave).splice c.pos sizeInByte (buf.slice off sizeInByte)) })
  modify (fun c => c.advance sizeInByte)

def secsOp (secCnt secsDone : Nat) : Nat := if add32 secsDone 256 ≤ secCnt then 256 else secCnt - secsDone

/-- What both loops do up to the transfer.  The thread sleeps until the interrupt of the drive. -/
def issue (write slave : Bool) (lba secsOp : Nat) : Prog Channel Buf Unit := do
  selectSector slave lba (UInt8.ofNat secsOp)
  cmdOut write
  if ← busyWait 30000 then
    return ()
  else
    halt .assert

def readLoop (slave : Bool) (lba secCnt : Nat) : (fuel secsDone : Nat) → Buf → Prog Channel Buf Buf
  | 0, _, _ => halt .loop
  | fuel + 1, secsDone, buf => do
    if secsDone < secCnt then
      let op := secsOp secCnt secsDone
      issue false slave (add32 lba secsDone) op
      let buf ← readFromSector buf (secsDone * 512) (UInt8.ofNat op)
      readLoop slave lba secCnt fuel (add32 secsDone op) buf
    else
      return buf

def writeLoop (slave : Bool) (lba secCnt : Nat) (buf : Buf) : (fuel secsDone : Nat) → Prog Channel Buf Unit
  | 0, _ => halt .loop
  | fuel + 1, secsDone => do
    if secsDone < secCnt then
      let op := secsOp secCnt secsDone
      issue true slave (add32 lba secsDone) op
      write2sector buf (secsDone * 512) (UInt8.ofNat op)
      writeLoop slave lba secCnt buf fuel (add32 secsDone op)
    else
      return ()

/-- Every turn moves a sector, so the loops have turns enough. -/
def ideRead (slave : Bool) (lba : Nat) (buf : Buf) (secCnt : Nat) : Prog Channel Buf Buf := do
  assert (lba ≤ maxLba)
  assert (0 < secCnt)
  selectDisk slave
  readLoop slave lba secCnt (secCnt + 1) 0 buf

def ideWrite (slave : Bool) (lba : Nat) (buf : Buf) (secCnt : Nat) : Prog Channel Buf Unit := do
  assert (lba ≤ maxLba)
  assert (0 < secCnt)
  selectDisk slave
  writeLoop slave lba secCnt buf (secCnt + 1) 0

/-- The commands cover the sectors from `lba` on in order, each once, by 1 to 256 sectors, and move their bytes. -/
structure Covers (write : Bool) (lba secCnt : Nat) (cmds : List Cmd) : Prop where
  sectors : cmds.flatMap (fun c => List.range' c.lba (sectors c.sectCnt)) = List.range' lba secCnt
  each : ∀ c ∈ cmds, c.write = write ∧ 1 ≤ Ide.sectors c.sectCnt ∧ Ide.sectors c.sectCnt ≤ 256 ∧
    c.sectCnt = UInt8.ofNat (Ide.sectors c.sectCnt) ∧ c.moved = 512 * Ide.sectors c.sectCnt

section Issue

variable {c : Channel} {slave write : Bool} {lba n : Nat}

theorem toNat_ofNat_shift (n k : Nat) : (UInt8.ofNat (n >>> k)).toNat = n / 2 ^ k % 2 ^ 8 := by
  rw [UInt8.toNat_ofNat', Nat.shiftRight_eq_div_pow]

def selected (c : Channel) (slave : Bool) (lba n : Nat) : Channel :=
  { c with
    sectCnt := UInt8.ofNat n
    lbaL := UInt8.ofNat lba
    lbaM := UInt8.ofNat (lba >>> 8)
    lbaH := UInt8.ofNat (lba >>> 16)
    device := regDevice slave ||| UInt8.ofNat (lba >>> 24) }

theorem shift_24 (h : lba ≤ maxLba) : lba >>> 24 = 0 := by
  rw [Nat.shiftRight_eq_div_pow]
  have : lba ≤ 163839 := h
  omega

theorem selected_device (c : Channel) (slave : Bool) (n : Nat) (h : lba ≤ maxLba) :
    (selected c slave lba n).device = regDevice slave := by
  change regDevice slave ||| UInt8.ofNat (lba >>> 24) = _
  rw [shift_24 h]
  cases slave <;> rfl

theorem selected_lba (c : Channel) (slave : Bool) (n : Nat) (h : lba ≤ maxLba) : (selected c slave lba n).lba = lba := by
  have hdev : (regDevice slave &&& 0x0f).toNat = 0 := by cases slave <;> rfl
  rw [Channel.lba, selected_device c slave n h, hdev]
  change (UInt8.ofNat lba).toNat + (UInt8.ofNat (lba >>> 8)).toNat * 2 ^ 8 +
    (UInt8.ofNat (lba >>> 16)).toNat * 2 ^ 16 + 0 * 2 ^ 24 = lba
  rw [toNat_ofNat_shift, toNat_ofNat_shift, UInt8.toNat_ofNat']
  have : lba ≤ 163839 := h
  omega

theorem selected_slave (c : Channel) (slave : Bool) (n : Nat) (h : lba ≤ maxLba) :
    (selected c slave lba n).slave = slave := by
  rw [Channel.slave, selected_device c slave n h]
  cases slave <;> rfl

theorem run_busyWait (limit : Nat) (h : c.polls + 2 ≤ limit) :
    ((busyWait limit).on c).run = .ok (true, { c with polls := 0 }) := by
  induction limit generalizing c with
  | zero => omega
  | succ limit ih =>
    rw [busyWait, if_neg (by omega)]
    cases hp : c.polls with
    | zero =>
      have hread : (inbStatus.on c).run = .ok (0x48, { c with polls := 0 }) := by
        change Except.ok (if c.polls = 0 then _ else _, { c with polls := c.polls - 1 }) = _
        rw [hp]
        rfl
      have hagain : (inbStatus.on { c with polls := 0 }).run = .ok (0x48, { c with polls := 0 }) := rfl
      rw [run_seq hread, if_pos (by decide), run_seq hagain]
      rfl
    | succ p =>
      have hread : (inbStatus.on c).run = .ok (0x80, { c with polls := p }) := by
        change Except.ok (if c.polls = 0 then _ else _, { c with polls := c.polls - 1 }) = _
        rw [hp]
        rfl
      rw [run_seq hread, if_neg (by decide)]
      exact ih (c := { c with polls := p }) (by change p + 2 ≤ limit; omega)

def issued (c : Channel) (write slave : Bool) (lba n : Nat) : Channel :=
  { (selected c slave lba n).command write with polls := 0 }

theorem run_issue (h : lba ≤ maxLba) (hd : ∀ k, c.delay k < 29999) :
    ((issue write slave lba n).on c).run = .ok ((), issued c write slave lba n) := by
  have hsel : ((selectSector slave lba (UInt8.ofNat n)).on c).run = .ok ((), selected c slave lba n) := by
    rw [selectSector, run_seq (run_assert (decide_eq_true h) c)]
    rfl
  have hcmd : ((cmdOut write).on (selected c slave lba n)).run = .ok ((), (selected c slave lba n).command write) := rfl
  have hwait := run_busyWait (c := (selected c slave lba n).command write) 30000 (by
    have := hd c.cmds.length
    change c.delay c.cmds.length + 2 ≤ 30000
    omega)
  rw [issue, run_seq hsel, run_seq hcmd, run_seq hwait, if_pos rfl]
  rfl

end Issue

section Chunk

variable {c : Channel} {slave write : Bool} {lba secCnt done k n : Nat} {buf : Buf} {cs : List Cmd}

theorem sectors_ofNat (h₁ : 1 ≤ k) (h₂ : k ≤ 256) : sectors (UInt8.ofNat k) = k := by
  by_cases hk : k = 256
  · subst hk
    rfl
  · have hnat : (UInt8.ofNat k).toNat = k := by
      rw [UInt8.toNat_ofNat']
      exact Nat.mod_eq_of_lt (by omega)
    have hne : UInt8.ofNat k ≠ 0 := fun h => by
      rw [h] at hnat
      change 0 = k at hnat
      omega
    rw [sectors, if_neg hne, hnat]

theorem size_eq (x : UInt8) : (if x = 0 then 256 * 512 else x.toNat * 512) = 512 * sectors x := by
  rw [sectors]
  split <;> omega

theorem secsOp_spec (hn : secCnt ≤ 163840) (hd : done < secCnt) :
    1 ≤ secsOp secCnt done ∧ secsOp secCnt done ≤ 256 ∧ done + secsOp secCnt done ≤ secCnt := by
  rw [secsOp, add32_of_lt (by omega)]
  split <;> omega

theorem covers_nil (write : Bool) (lba : Nat) : Covers write lba 0 [] := by
  refine ⟨rfl, fun c hc => ?_⟩
  cases hc

theorem Covers.cons (h : Covers write (lba + k) n cs) (h₁ : 1 ≤ k) (h₂ : k ≤ 256) :
    Covers write lba (k + n) (⟨write, lba, UInt8.ofNat k, 512 * k⟩ :: cs) := by
  have hsec := sectors_ofNat h₁ h₂
  refine ⟨?_, fun c hc => ?_⟩
  · rw [List.flatMap_cons, h.sectors, hsec]
    exact List.range'_append_1
  · rcases List.mem_cons.mp hc with rfl | hc
    · rw [hsec]
      exact ⟨rfl, h₁, h₂, rfl, rfl⟩
    · exact h.each c hc

def afterChunk (c : Channel) (write slave : Bool) (lba k : Nat) : Channel :=
  (issued c write slave lba k).advance (512 * k)

theorem afterChunk_cmds (h : lba ≤ maxLba) :
    (afterChunk c write slave lba k).cmds = ⟨write, lba, UInt8.ofNat k, 512 * k⟩ :: c.cmds := by
  change [Cmd.mk write (selected c slave lba k).lba (UInt8.ofNat k) (0 + 512 * k)] ++ c.cmds = _
  rw [selected_lba c slave k h, Nat.zero_add]
  rfl

theorem run_readFromSector (h : lba ≤ maxLba) (h₁ : 1 ≤ k) (h₂ : k ≤ 256) (off : Nat) :
    ((readFromSector buf off (UInt8.ofNat k)).on (issued c false slave lba k)).run =
      .ok (buf.splice off (512 * k) ((c.disks slave).slice (512 * lba) (512 * k)), afterChunk c false slave lba k) := by
  have hslave : (issued c false slave lba k).slave = slave := selected_slave c slave k h
  have hpos : (issued c false slave lba k).pos = 512 * lba := congrArg (512 * ·) (selected_lba c slave k h)
  rw [readFromSector, size_eq, sectors_ofNat h₁ h₂, run_seq (a := issued c false slave lba k) rfl, hslave, hpos]
  rfl

theorem run_write2sector (h : lba ≤ maxLba) (h₁ : 1 ≤ k) (h₂ : k ≤ 256) (off : Nat) :
    ((write2sector buf off (UInt8.ofNat k)).on (issued c true slave lba k)).run =
      .ok ((), { afterChunk c true slave lba k with
        disks := update c.disks slave ((c.disks slave).splice (512 * lba) (512 * k) (buf.slice off (512 * k))) }) := by
  have hslave : (issued c true slave lba k).slave = slave := selected_slave c slave k h
  have hpos : (issued c true slave lba k).pos = 512 * lba := congrArg (512 * ·) (selected_lba c slave k h)
  rw [write2sector, size_eq, sectors_ofNat h₁ h₂, run_seq (a := ()) rfl]
  change Except.ok ((), { afterChunk c true slave lba k with
    disks := update c.disks (issued c true slave lba k).slave ((c.disks (issued c true slave lba k).slave).splice
      (issued c true slave lba k).pos (512 * k) (buf.slice off (512 * k))) }) = _
  rw [hslave, hpos]

end Chunk

section Loops

variable {c : Channel} {slave : Bool} {lba secCnt done : Nat} {buf : Buf}

theorem readLoop_turn (fuel : Nat) (hlt : done < secCnt) (hend : lba + secCnt ≤ 163840) (hd : ∀ k, c.delay k < 29999) :
    ((readLoop slave lba secCnt (fuel + 1) done buf).on c).run =
      ((readLoop slave lba secCnt fuel (done + secsOp secCnt done) (buf.splice (512 * done) (512 * secsOp secCnt done)
        ((c.disks slave).slice (512 * (lba + done)) (512 * secsOp secCnt done)))).on
          (afterChunk c false slave (lba + done) (secsOp secCnt done))).run := by
  obtain ⟨h₁, h₂, h₃⟩ := secsOp_spec (by omega) hlt
  have hlba : lba + done ≤ maxLba := by
    change lba + done ≤ 163839
    omega
  rw [readLoop, if_pos hlt]
  dsimp only
  rw [add32_of_lt (show lba + done < 2 ^ 32 by omega), add32_of_lt (show done + secsOp secCnt done < 2 ^ 32 by omega),
    run_seq (run_issue hlba hd), run_seq (run_readFromSector hlba h₁ h₂ _), Nat.mul_comm done 512]

theorem writeLoop_turn (fuel : Nat) (hlt : done < secCnt) (hend : lba + secCnt ≤ 163840) (hd : ∀ k, c.delay k < 29999) :
    ((writeLoop slave lba secCnt buf (fuel + 1) done).on c).run =
      ((writeLoop slave lba secCnt buf fuel (done + secsOp secCnt done)).on
        { afterChunk c true slave (lba + done) (secsOp secCnt done) with
          disks := update c.disks slave ((c.disks slave).splice (512 * (lba + done))
            (512 * secsOp secCnt done) (buf.slice (512 * done) (512 * secsOp secCnt done))) }).run := by
  obtain ⟨h₁, h₂, h₃⟩ := secsOp_spec (by omega) hlt
  have hlba : lba + done ≤ maxLba := by
    change lba + done ≤ 163839
    omega
  rw [writeLoop, if_pos hlt]
  dsimp only
  rw [add32_of_lt (show lba + done < 2 ^ 32 by omega), add32_of_lt (show done + secsOp secCnt done < 2 ^ 32 by omega),
    run_seq (run_issue hlba hd), run_seq (run_write2sector hlba h₁ h₂ _), Nat.mul_comm done 512]

def Issued (write : Bool) (lba n : Nat) (c c' : Channel) : Prop :=
  c'.delay = c.delay ∧ ∃ cs, c'.cmds = cs.reverse ++ c.cmds ∧ Covers write lba n cs

theorem issued_refl (write : Bool) (lba : Nat) (c : Channel) : Issued write lba 0 c c :=
  ⟨rfl, [], rfl, covers_nil write lba⟩

theorem Issued.chunk {write : Bool} {k n : Nat} {d c' : Channel} (h : Issued write (lba + k) n d c') (h₁ : 1 ≤ k)
    (h₂ : k ≤ 256) (hdelay : d.delay = c.delay)
    (hcmds : d.cmds = ⟨write, lba, UInt8.ofNat k, 512 * k⟩ :: c.cmds) : Issued write lba (k + n) c c' := by
  obtain ⟨hd, cs, hcs, hcov⟩ := h
  refine ⟨hd.trans hdelay, _, ?_, hcov.cons h₁ h₂⟩
  rw [hcs, hcmds, List.reverse_cons, List.append_assoc]
  rfl

theorem splice_sectors (d e : Buf) (a b n m : Nat) :
    (d.splice (512 * a) (512 * n) (e.slice (512 * b) (512 * n))).splice (512 * (a + n)) (512 * m)
      (e.slice (512 * (b + n)) (512 * m)) = d.splice (512 * a) (512 * (n + m)) (e.slice (512 * b) (512 * (n + m))) := by
  simp only [Nat.mul_add]
  exact Buf.splice_slice_append d e (512 * a) (512 * b) (512 * n) (512 * m)

theorem splice_none (d e : Buf) (a b : Nat) : d.splice a (512 * 0) (e.slice b (512 * 0)) = d :=
  funext fun _ => Buf.splice_of_not_mem (by omega)

theorem run_readLoop (fuel : Nat) (buf : Buf) (hfuel : secCnt - done < fuel) (hdone : done ≤ secCnt)
    (hend : lba + secCnt ≤ 163840) (hd : ∀ k, c.delay k < 29999) : ∃ c',
      ((readLoop slave lba secCnt fuel done buf).on c).run = .ok (buf.splice (512 * done) (512 * (secCnt - done))
        ((c.disks slave).slice (512 * (lba + done)) (512 * (secCnt - done))), c') ∧
      c'.disks = c.disks ∧ Issued false (lba + done) (secCnt - done) c c' := by
  induction fuel generalizing done buf c with
  | zero => omega
  | succ fuel ih =>
    by_cases hlt : done < secCnt
    · obtain ⟨h₁, h₂, h₃⟩ := secsOp_spec (by omega) hlt
      rw [readLoop_turn fuel hlt hend hd]
      generalize secsOp secCnt done = k at h₁ h₂ h₃
      have hleft : secCnt - (done + k) < fuel := by omega
      obtain ⟨c', hrun, hdisks, hiss⟩ := ih (c := afterChunk c false slave (lba + done) k)
        (buf.splice (512 * done) (512 * k) ((c.disks slave).slice (512 * (lba + done)) (512 * k))) hleft h₃ hd
      have hsum : secCnt - done = k + (secCnt - (done + k)) := by omega
      rw [← Nat.add_assoc] at hrun hiss
      rw [hsum, ← splice_sectors]
      refine ⟨c', hrun, hdisks, ?_⟩
      exact hiss.chunk h₁ h₂ rfl (afterChunk_cmds (show lba + done ≤ 163839 by omega))
    · obtain rfl : done = secCnt := by omega
      refine ⟨c, ?_, rfl, ?_⟩
      · rw [readLoop, if_neg hlt, Nat.sub_self]
        rw [splice_none]
        rfl
      · rw [Nat.sub_self]
        exact issued_refl false (lba + done) c

theorem run_writeLoop (fuel : Nat) (hfuel : secCnt - done < fuel) (hdone : done ≤ secCnt) (hend : lba + secCnt ≤ 163840)
    (hd : ∀ k, c.delay k < 29999) : ∃ c', ((writeLoop slave lba secCnt buf fuel done).on c).run = .ok ((), c') ∧
      c'.disks = update c.disks slave ((c.disks slave).splice (512 * (lba + done)) (512 * (secCnt - done))
        (buf.slice (512 * done) (512 * (secCnt - done)))) ∧ Issued true (lba + done) (secCnt - done) c c' := by
  induction fuel generalizing done c with
  | zero => omega
  | succ fuel ih =>
    by_cases hlt : done < secCnt
    · obtain ⟨h₁, h₂, h₃⟩ := secsOp_spec (by omega) hlt
      rw [writeLoop_turn fuel hlt hend hd]
      generalize secsOp secCnt done = k at h₁ h₂ h₃
      have hleft : secCnt - (done + k) < fuel := by omega
      obtain ⟨c', hrun, hdisks, hiss⟩ := ih (c := { afterChunk c true slave (lba + done) k with
        disks := update c.disks slave ((c.disks slave).splice (512 * (lba + done)) (512 * k)
          (buf.slice (512 * done) (512 * k))) }) hleft h₃ hd
      have hsum : secCnt - done = k + (secCnt - (done + k)) := by omega
      dsimp only at hdisks
      rw [← Nat.add_assoc] at hdisks hiss
      rw [hsum]
      refine ⟨c', hrun, ?_, ?_⟩
      · rw [hdisks, update_self, Function.update_idem, splice_sectors]
      · exact hiss.chunk h₁ h₂ rfl (afterChunk_cmds (show lba + done ≤ 163839 by omega))
    · obtain rfl : done = secCnt := by omega
      refine ⟨c, ?_, ?_, ?_⟩
      · rw [writeLoop, if_neg hlt]
        rfl
      · rw [Nat.sub_self, splice_none, update_eq_self]
      · rw [Nat.sub_self]
        exact issued_refl true (lba + done) c

end Loops

section Transfers

variable {c : Channel} {slave : Bool} {lba n : Nat}

/-- The commands that `c'` has seen after `c`. -/
def Commands (write : Bool) (lba n : Nat) (c c' : Channel) : Prop :=
  ∃ cs, c'.cmds = cs.reverse ++ c.cmds ∧ Covers write lba n cs

theorem run_ideRead (hn : 1 ≤ n) (hend : lba + n ≤ 163840) (hd : ∀ k, c.delay k < 29999) (buf : Buf) : ∃ c',
    ((ideRead slave lba buf n).on c).run =
      .ok (buf.splice 0 (512 * n) ((c.disks slave).slice (512 * lba) (512 * n)), c') ∧
    c'.disks = c.disks ∧ c'.delay = c.delay ∧ Commands false lba n c c' := by
  have hlba : lba ≤ maxLba := show lba ≤ 163839 by omega
  obtain ⟨c', hrun, hdisks, hdelay, hcmds⟩ := run_readLoop (c := { c with device := regDevice slave }) (n + 1) buf
    (show n - 0 < n + 1 by omega) (Nat.zero_le n) hend hd
  refine ⟨c', ?_, hdisks, hdelay, hcmds⟩
  rw [ideRead, run_seq (run_assert (decide_eq_true hlba) c),
    run_seq (run_assert (decide_eq_true (show 0 < n from hn)) c), run_seq (a := ()) rfl]
  exact hrun

theorem run_ideWrite (hn : 1 ≤ n) (hend : lba + n ≤ 163840) (hd : ∀ k, c.delay k < 29999) (buf : Buf) : ∃ c',
    ((ideWrite slave lba buf n).on c).run = .ok ((), c') ∧
    c'.disks = update c.disks slave ((c.disks slave).splice (512 * lba) (512 * n) (buf.slice 0 (512 * n))) ∧
    c'.delay = c.delay ∧ Commands true lba n c c' := by
  have hlba : lba ≤ maxLba := show lba ≤ 163839 by omega
  obtain ⟨c', hrun, hdisks, hdelay, hcmds⟩ := run_writeLoop (c := { c with device := regDevice slave }) (n + 1)
    (show n - 0 < n + 1 by omega) (Nat.zero_le n) hend hd
  refine ⟨c', ?_, hdisks, hdelay, hcmds⟩
  rw [ideWrite, run_seq (run_assert (decide_eq_true hlba) c),
    run_seq (run_assert (decide_eq_true (show 0 < n from hn)) c), run_seq (a := ()) rfl]
  exact hrun

/-- A read puts sector `lba + k` at `buf + 512 * k` and nothing else anywhere. -/
def ReadsAll (slave : Bool) (lba n : Nat) (buf : Buf) (c : Channel) : Prop :=
  ∃ buf' c', ((ideRead slave lba buf n).on c).run = .ok (buf', c') ∧ c'.disks = c.disks ∧ Commands false lba n c c' ∧
    (∀ k < n, ∀ j < 512, buf' (512 * k + j) = c.disks slave (512 * (lba + k) + j)) ∧
    ∀ i, 512 * n ≤ i → buf' i = buf i

/-- A write puts `buf + 512 * k` into sector `lba + k`, and the sectors are read back as they were written. -/
def WritesAll (slave : Bool) (lba n : Nat) (buf : Buf) (c : Channel) : Prop :=
  ∃ c', ((ideWrite slave lba buf n).on c).run = .ok ((), c') ∧ Commands true lba n c c' ∧
    (∀ k < n, ∀ j < 512, c'.disks slave (512 * (lba + k) + j) = buf (512 * k + j)) ∧
    (∀ i, i < 512 * lba ∨ 512 * (lba + n) ≤ i → c'.disks slave i = c.disks slave i) ∧
    c'.disks (!slave) = c.disks (!slave) ∧
    ∀ into, ∃ back c'', ((ideRead slave lba into n).on c').run = .ok (back, c'') ∧ ∀ i < 512 * n, back i = buf i

theorem ide_transfers (hn : 1 ≤ n) (hend : lba + n - 1 ≤ maxLba) (hd : ∀ k, c.delay k < 29999) (slave : Bool) (buf : Buf) :
    ReadsAll slave lba n buf c ∧ WritesAll slave lba n buf c := by
  have hend' : lba + n ≤ 163840 := by
    have : lba + n - 1 ≤ 163839 := hend
    omega
  constructor
  · obtain ⟨c', hrun, hdisks, -, hcmds⟩ := run_ideRead hn hend' hd buf
    refine ⟨_, c', hrun, hdisks, hcmds, fun k hk j hj => ?_, fun i hi => ?_⟩
    · rw [Buf.splice_of_mem (by omega) (by omega), Buf.slice_of_lt (by omega)]
      congr 1
      omega
    · exact Buf.splice_of_not_mem (Or.inr (by omega))
  · obtain ⟨c', hrun, hdisks, hdelay, hcmds⟩ := run_ideWrite hn hend' hd buf
    have hdisk : c'.disks slave = (c.disks slave).splice (512 * lba) (512 * n) (buf.slice 0 (512 * n)) := by
      rw [hdisks, update_self]
    refine ⟨c', hrun, hcmds, fun k hk j hj => ?_, fun i hi => ?_, ?_, fun into => ?_⟩
    · rw [hdisk, Buf.splice_of_mem (by omega) (by omega), Buf.slice_of_lt (by omega)]
      congr 1
      omega
    · rw [hdisk, Buf.splice_of_not_mem (by omega)]
    · rw [hdisks, update_of_ne (by cases slave <;> decide)]
    · obtain ⟨c'', hback, -⟩ := run_ideRead (c := c') hn hend' (fun k => hdelay ▸ hd k) into
      refine ⟨_, c'', hback, fun i hi => ?_⟩
      rw [Buf.splice_of_mem (by omega) (by omega), hdisk, Buf.slice_splice_self, Buf.slice_of_lt (by omega),
        Buf.slice_of_lt (by omega)]
      congr 1
      omega

def idle : Channel := ⟨0, 0, 0, 0, 0, fun _ _ => 0, fun _ => 0, 0, 0, []⟩

/-- Two chunks, the first of 256 sectors. -/
theorem ide_transfers_300 : ReadsAll false 5 300 (fun _ => 1) idle ∧ WritesAll false 5 300 (fun _ => 1) idle :=
  ide_transfers (by decide) (by decide) (fun _ => show 0 < 29999 by decide) false (fun _ => 1)

theorem ideRead_refines (hn : 1 ≤ n) (hend : lba + n ≤ 163840) (hd : ∀ k, c.delay k < 29999) (s : Fs)
    (hs : s.vol.disk = c.disks slave) : ∃ buf c', ((ideRead slave lba (fun _ => 0) n).on c).run = .ok (buf, c') ∧
      ((Fs.ideRead lba n).on s).run = .ok (buf, s) := by
  have hlba : lba ≤ maxLba := show lba ≤ 163839 by omega
  obtain ⟨c', hrun, -⟩ := run_ideRead hn hend hd fun _ => 0
  refine ⟨_, c', hrun, ?_⟩
  have hbuf : Buf.splice (fun _ => 0) 0 (512 * n) ((c.disks slave).slice (512 * lba) (512 * n)) =
      (c.disks slave).slice (512 * lba) (512 * n) := by
    funext i
    by_cases hi : i < 512 * n
    · rw [Buf.splice_of_mem (by omega) (by omega), Nat.sub_zero]
    · rw [Buf.splice_of_not_mem (Or.inr (by omega)), Buf.slice_of_le (by omega)]
  rw [hbuf, ← hs, Fs.ideRead, run_seq (run_assert (decide_eq_true hlba) s),
    run_seq (run_assert (decide_eq_true (show 0 < n from hn)) s)]
  rfl

theorem ideWrite_refines (hn : 1 ≤ n) (hend : lba + n ≤ 163840) (hd : ∀ k, c.delay k < 29999) (buf : Buf) (s : Fs)
    (hs : s.vol.disk = c.disks slave) : ∃ c' t, ((ideWrite slave lba buf n).on c).run = .ok ((), c') ∧
      ((Fs.ideWrite lba n fun _ => buf).on s).run = .ok ((), t) ∧ t.vol.disk = c'.disks slave := by
  have hlba : lba ≤ maxLba := show lba ≤ 163839 by omega
  obtain ⟨c', hrun, hdisks, -⟩ := run_ideWrite hn hend hd buf
  refine ⟨c', { s with vol.disk := s.vol.disk.splice (512 * lba) (512 * n) buf }, hrun, ?_, ?_⟩
  · rw [Fs.ideWrite, run_seq (run_assert (decide_eq_true hlba) s), run_seq (run_assert (decide_eq_true (show 0 < n from hn)) s)]
    rfl
  · rw [hdisks, update_self, ← hs]
    funext i
    change Buf.splice _ _ _ _ i = _
    by_cases hi : 512 * lba ≤ i ∧ i < 512 * lba + 512 * n
    · rw [Buf.splice_of_mem hi.1 hi.2, Buf.splice_of_mem hi.1 hi.2, Buf.slice_of_lt (by omega), Nat.zero_add]
    · rw [Buf.splice_of_not_mem (by omega), Buf.splice_of_not_mem (by omega)]

end Transfers

end TrueOs.Ide
