import TrueOs.Fs.Tracked

/-! Without their blocks the tracked calls are the calls of `fs/` again. -/

namespace TrueOs.Fs.Tracked

open Prog Mm

variable {pf : PoolFlags}

theorem erases_withBuf {α γ : Type} {f : α → γ} {c : Prog (Fs × Blocks) Buf α} {d : Prog Fs Buf γ}
    (h : Erases f c d) : Erases f (withBuf pf c) d :=
  erases_note fun _ => h.after fun _ => erases_note fun _ => erases_pure rfl

theorem erases_sysFree {α : Type} {f : α → α} {c : Prog (Fs × Blocks) Buf α} {d : Prog Fs Buf α} {b : Block}
    (h : Erases f c d) : Erases f (c >>= fun a => sysFree b pf >>= fun _ => pure a) d :=
  h.after fun _ => erases_note fun _ => erases_pure rfl

theorem erases_get {α γ : Type} {f : α → γ} {k : Fs → Prog (Fs × Blocks) Buf α} {d : Prog Fs Buf γ}
    (h : ∀ s, Erases f (k s) d) : Erases f (lift get >>= k) d := fun s => h s.1 s

section Inode

theorem erases_inodeOpen (inodeNo : Nat) : Erases id (inodeOpen pf inodeNo) (Fs.inodeOpen inodeNo) := by
  refine erases_get fun s => ?_
  cases s.mem.find inodeNo with
  | some p => exact erases_lift _
  | none => exact erases_withBuf ((erases_lift _).after fun p => erases_note fun _ => erases_pure rfl)

theorem getInode_inodeClose (p : Nat) : (getInode p >>= fun _ => Fs.inodeClose p) = Fs.inodeClose p := by
  refine congrArg Prog.mk (funext fun s => ?_)
  simp only [Fs.inodeClose, getInode, bind_on, get_on, Res.bind]
  cases hp : s.mem.inodes p with
  | none => rfl
  | some i => simp only [pure_on, Res.bind, hp]

theorem erases_inodeClose (p : Nat) : Erases id (inodeClose p) (Fs.inodeClose p) := by
  rw [← getInode_inodeClose]
  refine (erases_lift (getInode p)).bind fun i => (erases_lift _).after fun _ => ?_
  split
  · exact erases_last fun _ => rfl
  · exact erases_pure rfl

theorem erases_inodeRelease (inodeNo : Nat) :
    Erases id (inodeRelease pf inodeNo) (Fs.inodeRelease inodeNo) := by
  simp only [inodeRelease, Fs.inodeRelease, lift_bind, bind_assoc]
  refine (erases_inodeOpen inodeNo).bind fun p => ?_
  refine (erases_lift _).bind fun i => (erases_lift _).bind fun _ => (erases_lift _).bind fun _ => ?_
  refine (erases_lift _).bind fun _ => (erases_lift _).bind fun _ => ?_
  exact (erases_withBuf (erases_lift _)).bind fun _ => erases_inodeClose p

end Inode

section Dir

theorem erases_dirOpen (inodeNo : Nat) : Erases Dir.ref (dirOpen pf inodeNo) (Fs.dirOpen inodeNo) :=
  erases_note fun _ => (erases_inodeOpen inodeNo).bind fun _ => erases_pure rfl

theorem erases_dirClose (d : Dir) : Erases id (dirClose pf d) (Fs.dirClose d.ref) := by
  cases d with
  | root => exact erases_pure rfl
  | heap k p => exact (erases_inodeClose p).after fun _ => erases_last fun _ => rfl

theorem erases_searchDirEntry (d : Dir) (name : List UInt8) :
    Erases id (searchDirEntry pf d name) (Fs.searchDirEntry d.ref name) :=
  erases_withBuf (erases_withBuf (erases_lift _))

theorem erases_dirRemove (parent child : Dir) :
    Erases id (dirRemove pf parent child) (Fs.dirRemove parent.ref child.ref) := by
  simp only [dirRemove, Fs.dirRemove, lift_bind, lift_pure, bind_assoc, pure_bind]
  refine (erases_lift _).bind fun p => (erases_lift _).bind fun i => (erases_lift _).bind fun _ => ?_
  refine erases_withBuf ((erases_lift _).bind fun _ => ?_)
  exact (erases_inodeRelease _).bind fun _ => erases_pure rfl

end Dir

section Path

def eraseFound (r : Int × PathSearchRecord) : Int × Fs.PathSearchRecord := (r.1, r.2.erase)

theorem erases_searchLoop (turns : Nat) (r : PathSearchRecord) (name : List UInt8) (sub : Option (List UInt8))
    (parentInodeNo : Nat) (dirE : DirEntry) :
    Erases eraseFound (searchLoop pf turns r name sub parentInodeNo dirE)
      (Fs.searchLoop turns r.erase name sub parentInodeNo dirE) := by
  induction turns generalizing r name sub parentInodeNo dirE with
  | zero => exact erases_halt _
  | succ turns ih =>
    simp only [searchLoop, Fs.searchLoop, lift_bind, lift_pure, bind_assoc, pure_bind]
    refine Erases.ite ?_ ?_
    · exact (erases_dirClose _).bind fun _ => (erases_dirOpen _).bind fun _ => erases_pure rfl
    · refine (erases_lift _).bind fun _ => (erases_lift _).bind fun _ => ?_
      refine (erases_searchDirEntry _ _).bind fun e => ?_
      cases e with
      | none => exact erases_pure rfl
      | some e =>
        refine (erases_lift _).bind fun next => Erases.ite ?_ (Erases.ite ?_ ?_)
        · refine (erases_lift _).bind fun p => (erases_lift _).bind fun i => ?_
          exact (erases_dirClose _).bind fun _ => (erases_dirOpen _).bind fun _ => ih _ _ _ _ _
        · exact erases_pure rfl
        · exact ih _ _ _ _ _

theorem erases_searchFile (dirE : DirEntry) (path : List UInt8) :
    Erases eraseFound (searchFile pf dirE path) (Fs.searchFile dirE path) := by
  simp only [searchFile, Fs.searchFile, lift_bind, bind_assoc]
  refine Erases.ite (erases_pure rfl) ?_
  refine (erases_lift _).bind fun _ => (erases_lift _).bind fun next => ?_
  exact erases_searchLoop _ _ _ _ _ _

end Path

section File

theorem erases_fileInstall (cur : Nat) (d : Dir) (name : List UInt8) (flag inodeNo fdIdx : Nat) :
    Erases id (fileInstall pf cur d name flag inodeNo fdIdx)
      (Fs.fileInstall cur d.ref name flag inodeNo fdIdx) := by
  simp only [fileInstall, Fs.fileInstall, lift_bind, bind_assoc]
  refine (erases_lift _).bind fun p => erases_note fun _ => (erases_lift _).bind fun _ => ?_
  refine (erases_lift _).bind fun e => (erases_lift _).bind fun synced => Erases.ite ?_ ?_
  · simp only [← lift_bind]
    exact erases_lift _
  · refine (erases_lift _).bind fun _ => (erases_lift _).bind fun _ => erases_note fun _ => ?_
    exact (erases_lift _).bind fun _ => erases_pure rfl

theorem erases_fileCreate (cur : Nat) (d : Dir) (name : List UInt8) (flag : Nat) :
    Erases id (fileCreate pf cur d name flag) (Fs.fileCreate cur d.ref name flag) := by
  simp only [fileCreate, Fs.fileCreate]
  refine erases_note fun _ => (erases_lift _).bind fun r => ?_
  cases r with
  | none => exact erases_pure rfl
  | some inodeNo =>
    refine (erases_lift _).bind fun r => ?_
    cases r with
    | none =>
      exact (erases_withBuf (erases_lift _)).bind fun _ => erases_note fun _ => erases_pure rfl
    | some fdIdx => exact erases_sysFree (erases_fileInstall _ _ _ _ _ _)

theorem erases_fileOpen (cur inodeNo flag : Nat) :
    Erases id (fileOpen pf cur inodeNo flag) (Fs.fileOpen cur inodeNo flag) := by
  simp only [fileOpen, Fs.fileOpen]
  refine (erases_lift _).bind fun r => ?_
  cases r with
  | none => exact erases_pure rfl
  | some fdIdx => exact (erases_inodeOpen inodeNo).bind fun p => erases_lift _

theorem erases_fileClose (g : Nat) : Erases id (fileClose g) (Fs.fileClose g) := by
  simp only [fileClose, Fs.fileClose, lift_bind, lift_pure, bind_assoc, pure_bind]
  refine (erases_lift _).bind fun p => (erases_lift _).bind fun i => (erases_lift _).bind fun _ => ?_
  refine (erases_inodeClose p).bind fun _ => (erases_lift _).bind fun s => ?_
  exact (erases_lift _).bind fun _ => erases_pure rfl

theorem erases_fileWrite (g : Nat) (buf : Buf) (count : Nat) :
    Erases id (fileWrite pf g buf count) (Fs.fileWrite g buf count) := by
  simp only [fileWrite, Fs.fileWrite, writeData]
  refine (erases_lift _).bind fun p => (erases_lift _).bind fun i => Erases.ite (erases_pure rfl) ?_
  refine erases_note fun _ => erases_note fun _ => (erases_lift _).bind fun b => Erases.ite (erases_pure rfl) ?_
  refine (erases_lift _).bind fun r => ?_
  cases r with
  | none => exact erases_pure rfl
  | some blocks =>
    simp only [lift_bind, bind_assoc]
    refine (erases_lift _).bind fun i => (erases_lift _).bind fun s => (erases_lift _).bind fun _ => ?_
    refine (erases_lift _).bind fun _ => (erases_lift _).bind fun i => (erases_lift _).bind fun _ => ?_
    exact erases_note fun _ => erases_note fun _ => erases_pure rfl

theorem erases_fileRead (g count : Nat) : Erases id (fileRead pf g count) (Fs.fileRead g count) := by
  simp only [fileRead, Fs.fileRead, lift_bind, bind_assoc]
  refine (erases_lift _).bind fun p => (erases_lift _).bind fun i => (erases_lift _).bind fun s => ?_
  refine Erases.ite (erases_pure rfl) ?_
  simp only [← lift_bind]
  exact erases_withBuf (erases_withBuf (erases_lift _))

end File

section Calls

theorem erases_closing {α : Type} (d : Dir) (a : α) :
    Erases id (dirClose pf d >>= fun _ => pure a) (Fs.dirClose d.ref >>= fun _ => pure a) :=
  (erases_dirClose d).bind fun _ => erases_pure rfl

theorem erases_sysOpen (stack : Stack) (cur : Nat) (path : List UInt8) (flags : Nat) :
    Erases id (sysOpen pf stack cur path flags) (Fs.sysOpen stack cur path flags) := by
  simp only [sysOpen, Fs.sysOpen, lift_bind, bind_assoc]
  cases path.getLast? with
  | none => exact erases_halt _
  | some c =>
    refine Erases.ite (erases_pure rfl) ?_
    refine (erases_lift _).bind fun _ => (erases_lift _).bind fun depth => ?_
    refine (erases_searchFile _ _).bind fun r => Erases.ite (erases_closing _ _) ?_
    refine (erases_lift _).bind fun depth' => ?_
    refine Erases.ite (erases_closing _ _) (Erases.ite (erases_closing _ _) (Erases.ite (erases_closing _ _) ?_))
    refine Erases.ite ?_ (erases_fileOpen _ _ _)
    exact (erases_fileCreate _ _ _ _).bind fun _ => erases_closing _ _

theorem erases_sysClose (cur : Nat) (fd : Int) : Erases id (sysClose cur fd) (Fs.sysClose cur fd) := by
  simp only [sysClose, Fs.sysClose]
  refine Erases.ite ?_ (erases_pure rfl)
  refine (erases_lift _).bind fun g => (erases_lift _).bind fun b => Erases.ite (erases_lift _) ?_
  exact (erases_fileClose g).bind fun _ => (erases_lift _).bind fun _ => erases_pure rfl

theorem erases_sysUnlink (stack : Stack) (path : List UInt8) :
    Erases id (sysUnlink pf stack path) (Fs.sysUnlink stack path) := by
  simp only [sysUnlink, Fs.sysUnlink]
  refine (erases_lift _).bind fun _ => (erases_searchFile _ _).bind fun r => (erases_lift _).bind fun _ => ?_
  refine Erases.ite (erases_closing _ _) (Erases.ite (erases_closing _ _) ?_)
  refine (erases_lift _).bind fun s => Erases.ite (erases_closing _ _) ?_
  refine Erases.bind_assoc (f := id) (erases_withBuf ?_) fun _ => erases_closing _ _
  exact (erases_lift _).bind fun _ => erases_inodeRelease _

theorem erases_sysMkdir (stack : Stack) (path : List UInt8) :
    Erases id (sysMkdir pf stack path) (Fs.sysMkdir stack path) := by
  simp only [sysMkdir, Fs.sysMkdir]
  refine erases_withBuf ((erases_searchFile _ _).bind fun r => Erases.ite (erases_closing _ _) ?_)
  refine (erases_lift _).bind fun _ => (erases_lift _).bind fun _ => Erases.ite (erases_closing _ _) ?_
  refine Erases.ite (erases_halt _) ?_
  rw [makeDir_eq]
  exact (erases_lift _).bind fun _ => erases_closing _ _

theorem erases_sysOpendir (stack : Stack) (path : List UInt8) :
    Erases (Option.map Dir.ref) (sysOpendir pf stack path) (Fs.sysOpendir stack path) := by
  simp only [sysOpendir, Fs.sysOpendir]
  refine (erases_lift _).bind fun _ => Erases.ite (erases_pure rfl) ?_
  refine (erases_searchFile _ _).bind fun r => Erases.ite ?_ ?_
  · refine (erases_dirOpen _).bind fun d => (erases_dirClose _).bind fun _ => erases_pure rfl
  · exact (erases_dirClose _).bind fun _ => erases_pure rfl

theorem erases_sysRmdir (stack : Stack) (path : List UInt8) :
    Erases id (sysRmdir pf stack path) (Fs.sysRmdir stack path) := by
  simp only [sysRmdir, Fs.sysRmdir]
  refine (erases_searchFile _ _).bind fun r => (erases_lift _).bind fun _ => ?_
  refine Erases.ite (erases_closing _ _) (Erases.ite (erases_closing _ _) ?_)
  refine (erases_dirOpen _).bind fun d => (erases_lift _).bind fun b => ?_
  refine Erases.ite ?_ ?_
  · exact (erases_dirRemove _ _).bind fun _ => (erases_dirClose d).bind fun _ => erases_closing _ _
  · exact (erases_dirClose d).bind fun _ => erases_closing _ _

theorem erases_sysChdir (stack : Stack) (cur : Nat) (path : List UInt8) :
    Erases id (sysChdir pf stack cur path) (Fs.sysChdir stack cur path) := by
  simp only [sysChdir, Fs.sysChdir]
  refine (erases_searchFile _ _).bind fun r => Erases.ite ?_ (erases_closing _ _)
  exact (erases_lift _).bind fun _ => erases_closing _ _

theorem erases_sysStat (stack : Stack) (path : List UInt8) :
    Erases id (sysStat pf stack path) (Fs.sysStat stack path) := by
  simp only [sysStat, Fs.sysStat]
  refine Erases.ite (erases_lift _) ((erases_searchFile _ _).bind fun r => Erases.ite ?_ (erases_closing _ _))
  refine (erases_inodeOpen _).bind fun p => (erases_lift _).bind fun i => ?_
  exact (erases_inodeClose p).bind fun _ => erases_closing _ _

end Calls

section Cwd

theorem erases_getParentDirInodeNr (child : Nat) :
    Erases id (getParentDirInodeNr pf child) (Fs.getParentDirInodeNr child) := by
  simp only [getParentDirInodeNr, Fs.getParentDirInodeNr, lift_bind, lift_pure, bind_assoc, pure_bind]
  refine (erases_inodeOpen _).bind fun p => (erases_lift _).bind fun i => (erases_lift _).bind fun s => ?_
  refine (erases_lift _).bind fun _ => (erases_inodeClose p).bind fun _ => (erases_lift _).bind fun b => ?_
  exact (erases_lift _).bind fun _ => erases_pure rfl

theorem erases_getChildDirName (parent child : Nat) (path : List UInt8) :
    Erases id (getChildDirName pf parent child path) (Fs.getChildDirName parent child path) := by
  simp only [getChildDirName, Fs.getChildDirName]
  refine (erases_inodeOpen _).bind fun p => (erases_lift _).bind fun i => (erases_lift _).bind fun all => ?_
  exact (erases_inodeClose p).bind fun _ => erases_lift _

theorem erases_ascend (turns child : Nat) (path : List UInt8) :
    Erases id (ascend pf turns child path) (Fs.ascend turns child path) := by
  induction turns generalizing child path with
  | zero => exact erases_halt _
  | succ turns ih =>
    refine Erases.ite (erases_pure rfl) ((erases_getParentDirInodeNr _).bind fun parent => ?_)
    refine (erases_getChildDirName _ _ _).bind fun r => ?_
    cases r with
    | none => exact erases_pure rfl
    | some path => exact ih _ _

theorem erases_cwdPath (size child : Nat) : Erases id (cwdPath pf size child) (Fs.cwdPath size child) := by
  refine (erases_ascend _ _ _).bind fun r => ?_
  cases r with
  | none => exact erases_pure rfl
  | some path => exact erases_lift _

theorem erases_sysGetcwd (cur size : Nat) : Erases id (sysGetcwd pf cur size) (Fs.sysGetcwd cur size) := by
  refine erases_note fun _ => (erases_lift _).bind fun s => (erases_lift _).bind fun _ => Erases.ite ?_ ?_
  · exact (erases_lift _).bind fun _ => erases_pure rfl
  · exact erases_sysFree (erases_cwdPath _ _)

end Cwd

end TrueOs.Fs.Tracked
