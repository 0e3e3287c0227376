import Mathlib.Tactic.Common

/-!
# Kernel Faults

How a kernel path can end without returning. A call of `panic` halts the machine; a
path that waits for a lock or for the log is `blocked` until another process moves; and
a C expression without a defined value (an array read past its end, a read of an
uninitialised array element) makes the rest of the path `undefined`. A path is `excluded`
when a result only speaks about paths that do not take some branch, and it takes it.
-/

namespace Xv6

/-- The calls of `panic` in the modelled functions, one constructor for each message. -/
inductive Panic
  /-- `log_write`: "too big a transaction" -/
  | tooBigTransaction
  /-- `log_write`: "write outside of trans" -/
  | writeOutsideTrans
  /-- `balloc`: "balloc: out of blocks" -/
  | outOfBlocks
  /-- `bfree`: "freeing free block" -/
  | freeingFreeBlock
  /-- `ialloc`: "ialloc: no inodes" -/
  | iallocNoInodes
  /-- `iget`: "iget: no inodes" -/
  | igetNoInodes
  /-- `ilock`: "ilock" -/
  | ilock
  /-- `ilock`: "ilock: no type" -/
  | ilockNoType
  /-- `iunlock`: "iunlock" -/
  | iunlock
  /-- `iput`: "iput busy" -/
  | iputBusy
  /-- `bmap`: "bmap: out of range" -/
  | bmapOutOfRange
  /-- `dirlookup`: "dirlookup not DIR" -/
  | dirlookupNotDir
  /-- `dirlookup` and `dirlink`: "dirlink read" -/
  | dirlinkRead
  /-- `dirlink`: "dirlink" -/
  | dirlink
  /-- `isdirempty`: "isdirempty: readi" -/
  | isdirempty
  /-- `sys_unlink`: "unlink: nlink < 1" -/
  | unlinkNlink
  /-- `sys_unlink`: "unlink: writei" -/
  | unlinkWritei
  /-- `create`: "create dots" -/
  | createDots
  /-- `create`: "create: dirlink" -/
  | createDirlink
  /-- `filedup`: "filedup" -/
  | filedup
  /-- `fileclose`: "fileclose" -/
  | fileclose
  /-- `fileread`: "fileread" -/
  | fileread
  /-- `filewrite`: "filewrite" -/
  | filewrite
  /-- `filewrite`: "short filewrite" -/
  | shortFilewrite
  /-- `loaduvm`: "loaduvm: addr must be page aligned" -/
  | loaduvmAligned
  /-- `loaduvm`: "loaduvm: address should exist" -/
  | loaduvmExist
  deriving DecidableEq, Repr

/-- A kernel path that does not return. -/
inductive Fault
  | panic (p : Panic)
  | blocked
  | undefined
  | excluded
  deriving DecidableEq, Repr

end Xv6
