import TrueOs.Fs.File

/-! The path functions of `fs/fs.c`.  A path is the list of its characters, without
the terminating zero. -/

namespace TrueOs.Fs

open Prog

def slash : UInt8 := 47

/-- The next component, and the path from there on unless it is used up. -/
def pathParse (pathname : List UInt8) : List UInt8 × Option (List UInt8) :=
  let rest := pathname.dropWhile (· == slash)
  let tail := rest.dropWhile (· != slash)
  (rest.takeWhile (· != slash), if tail = [] then none else some tail)

/-- Sixteen characters fit the buffer that `path_parse` stores through. -/
def storeName (name : List UInt8) : Prog Fs Buf Unit :=
  if name.length ≤ maxFileNameLen then return () else halt .fault

/-- The loop of `path_depth_cnt`, which only looks at `name[0]`. -/
def depthLoop : (turns : Nat) → (name0 : UInt8) → (p : Option (List UInt8)) → (depth : Nat) →
    Prog Fs Buf Nat
  | 0, _, _, _ => halt .loop
  | turns + 1, name0, p, depth => do
    if name0 = 0 then
      return depth
    else
      match p with
      | none => depthLoop turns 0 none (depth + 1)
      | some p =>
        storeName (pathParse p).1
        depthLoop turns ((pathParse p).1.headD 0) (pathParse p).2 (depth + 1)

/-- `name` is the local buffer as the call finds it: it is not initialised, and an
empty component leaves it so. -/
def pathDepthCnt (name : Buf) (pathname : List UInt8) : Prog Fs Buf Nat := do
  storeName (pathParse pathname).1
  depthLoop (pathname.length + 2) ((pathParse pathname).1.headD (name 0)) (pathParse pathname).2 0

structure PathSearchRecord where
  searchedPath : List UInt8
  parentDir : DirRef
  fileType : Nat

/-- Sixteen characters leave no room for the zero behind them. -/
def terminated (name : List UInt8) : Prog Fs Buf Unit :=
  if name.length < maxFileNameLen then return () else halt .fault

def nextName : Option (List UInt8) → Prog Fs Buf (List UInt8 × Option (List UInt8))
  | none => return ([], none)
  | some subPath => do
    storeName (pathParse subPath).1
    return pathParse subPath

/-- The loop of `search_file`.  An entry that is neither a directory nor a file is
passed over. -/
def searchLoop : (turns : Nat) → (r : PathSearchRecord) → (name : List UInt8) →
    (subPath : Option (List UInt8)) → (parentInodeNo : Nat) → (dirE : DirEntry) →
    Prog Fs Buf (Int × PathSearchRecord)
  | 0, _, _, _, _, _ => halt .loop
  | turns + 1, r, name, subPath, parentInodeNo, dirE => do
    if name = [] then
      dirClose r.parentDir
      let parentDir ← dirOpen parentInodeNo
      return (int32 dirE.iNo, ⟨r.searchedPath, parentDir, ftDirectory⟩)
    else
      assert (r.searchedPath.length < maxPathLen)
      terminated name
      let r : PathSearchRecord := { r with searchedPath := r.searchedPath ++ slash :: name }
      match ← searchDirEntry r.parentDir name with
      | none => return (-1, r)
      | some dirE =>
        let next ← nextName subPath
        if dirE.fType = ftDirectory then
          let parentInodeNo := (← getInode (← r.parentDir.inode)).iNo
          dirClose r.parentDir
          let parentDir ← dirOpen dirE.iNo
          searchLoop turns { r with parentDir := parentDir } next.1 next.2 parentInodeNo dirE
        else if dirE.fType = ftRegular then
          return (int32 dirE.iNo, { r with fileType := ftRegular })
        else
          searchLoop turns r next.1 next.2 parentInodeNo dirE

def isRootPath (pathname : List UInt8) : Bool :=
  pathname == [slash] || pathname == slash :: dot || pathname == slash :: dotdot

/-- `dirE` is what the local `dir_e` holds before anything is stored in it. -/
def searchFile (dirE : DirEntry) (pathname : List UInt8) : Prog Fs Buf (Int × PathSearchRecord) := do
  if isRootPath pathname then
    return (0, ⟨[], .root, ftDirectory⟩)
  else
    assert (pathname.head? = some slash ∧ 1 < pathname.length ∧ pathname.length < maxPathLen)
    let next ← nextName (some pathname)
    searchLoop (pathname.length + 1) ⟨[], .root, ftUnknown⟩ next.1 next.2 0 dirE

/-- `strrchr(pathname, '/') + 1`. -/
def afterSlash (pathname : List UInt8) : List UInt8 :=
  (pathname.reverse.takeWhile (· != slash)).reverse

end TrueOs.Fs
