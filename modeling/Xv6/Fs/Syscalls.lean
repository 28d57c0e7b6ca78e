import Xv6.Fs.System

/-! `create` of `kernel/sysfile.c`, and the part of `exec` that concerns files. A path that is not in
the user's memory, or too long, is given as `none`. -/

namespace Xv6.Fs

/-- The most bytes that `filewrite` writes in one transaction. -/
abbrev writeMax : Nat := (maxOpBlocks - 1 - 1 - 2) / 2 * bsize

section Calls

variable (sb : Superblock)

/-- `ip->nlink += by` and `iupdate(ip)`. -/
def addLink (i : Slot) (by_ : Int16) : M Unit := do
  modify fun s => s.setDin i { s.din i with nlink := (s.din i).nlink + by_ }
  iupdate sb i

/-- The names `.` and `..`. -/
abbrev dot : Name := [46]

abbrev dotdot : Name := [46, 46]

/-- The label `fail` of `create`: the new inode is given up. -/
def createFail (ip dp : Slot) : M (Option Slot) := do
  modify fun s => s.setDin ip { s.din ip with nlink := 0 }
  iupdate sb ip
  iunlockput sb ip
  iunlockput sb dp
  return none

/-- The entries `.` and `..` of a new directory; the result says whether both were written. -/
def createDots (ip dp : Slot) : M Bool := do
  let r ← dirlink sb ip dot ((← get).itable ip).inum
  if r < 0 then return false
  else
    let r ← dirlink sb ip dotdot ((← get).itable dp).inum
    return !(r < 0)

/-- `create` from the `ialloc` on. -/
def createNew (dp : Slot) (name : Name) (type major minor : Int16) : M (Option Slot) := do
  match ← ialloc sb type with
  | none =>
    iunlockput sb dp
    return none
  | some ip =>
    ilock sb ip
    modify fun s => s.setDin ip { s.din ip with major := major, minor := minor, nlink := 1 }
    iupdate sb ip
    let dots ← if type = tDir then createDots sb ip dp else pure true
    if !dots then createFail sb ip dp
    else
      let r ← dirlink sb dp name ((← get).itable ip).inum
      if r < 0 then createFail sb ip dp
      else
        if type = tDir then addLink sb dp 1
        iunlockput sb dp
        return some ip

/-- `create`; the result is locked. -/
def create (path : Path) (type major minor : Int16) : M (Option Slot) := do
  match ← nameiparent sb path with
  | none => return none
  | some (dp, name) =>
    ilock sb dp
    match ← dirlookup sb dp name with
    | some (ip, _) =>
      iunlockput sb dp
      ilock sb ip
      let found := ((← get).din ip).type
      if type = tFile ∧ (found = tFile ∨ found = tDevice) then return some ip
      else
        iunlockput sb ip
        return none
    | none => createNew sb dp name type major minor

/-- The calls of `readi` by `exec`. -/
def execReads (ip : Slot) : List (UInt32 × UInt32) → M Unit
  | [] => return
  | (off, n) :: reads => do
    let _ ← readi sb ip (fun _ _ => true) off n
    execReads ip reads

/-- The part of `exec` that concerns files: the program is read with `reads`. -/
def exec (path : Option Path) (reads : List (UInt32 × UInt32)) : M Int := do
  match path with
  | none => return -1
  | some path =>
    match ← namei sb path with
    | none => return -1
    | some ip =>
      ilock sb ip
      execReads sb ip reads
      iunlockput sb ip
      return 0

end Calls

end Xv6.Fs
