import Xv6.Lib.Bytes

/-! The constants of `kernel/param.h` and `kernel/fs.h` that the model uses, and the contents of a
disk block. -/

namespace Xv6

abbrev maxOpBlocks : Nat := 10

/-- The most data blocks in the log, and the length of the block array of a log header. -/
abbrev logSize : Nat := maxOpBlocks * 3

/-- The device of the root file system, the one block device there is. -/
abbrev rootdev : Nat := 1

abbrev nbuf : Nat := maxOpBlocks * 3

instance : NeZero nbuf := ⟨by decide⟩

abbrev ninode : Nat := 50

instance : NeZero ninode := ⟨by decide⟩

abbrev ndirect : Nat := 12

instance (priority := high) : NeZero (ndirect + 1) := ⟨by decide⟩

abbrev bsize : Nat := 1024

abbrev nindirect : Nat := bsize / 4

abbrev maxFile : Nat := ndirect + nindirect

abbrev ipb : Nat := bsize / 64

abbrev bpb : Nat := bsize * 8

abbrev rootino : Nat := 1

abbrev dirsiz : Nat := 14

/-- The limits on processes, on open files of one process and of all, on device numbers, and on the
length of a path. -/
abbrev nproc : Nat := 64

instance : NeZero nproc := ⟨by decide⟩

abbrev nofile : Nat := 16

abbrev nfile : Nat := 100

instance : NeZero nfile := ⟨by decide⟩

abbrev ndev : Nat := 10

/-- The contents of a disk block, and of the `data` of a buffer. -/
abbrev Block : Type := Fin bsize → UInt8

abbrev Disk : Type := Nat → Block

/-- A process, by its slot in the process table or, where any number may run, by any number. -/
abbrev Pid : Type := Nat

/-- A C `int` that is stored as the 32-bit word `w`. -/
def asInt (w : UInt32) : Int := if w.toNat < 2 ^ 31 then w.toNat else (w.toNat : Int) - 2 ^ 32

end Xv6
