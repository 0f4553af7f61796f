import Xv6.Proc.Struct

/-!
# Open files and the working directory of a process with threads

The threads of a process share `p->ofile` and `p->cwd`, and no lock protects them.  This is the
part of `exit`, `sys_close`, `sys_dup` and `sys_chdir` that uses them, with `fileclose`, `filedup`,
`idup`, `iget` and `iput` on the reference counts of `ftable` and `itable`.  Each read and each
write of a slot is one step, and so is each critical section of a counter; between two steps any
other thread may run.

Other processes hold references too (`ext` and `iext` count them) and use only those.  What a
path leads to, and whether an inode has links left, are choices of the step.
-/

namespace Xv6

open Function

instance : NeZero NOFILE := ⟨by decide⟩

/-- A file descriptor. -/
abbrev Fd := Fin NOFILE

/-- Index of a `struct file` in `ftable`. -/
abbrev FileId := Fin NFILE

/-- Index of a `struct inode` in `itable`. -/
abbrev InodeId := Fin NINODE

namespace Files

/-- A position in one of the calls, with the local variables that are still used. -/
inductive Place
  | user -- Outside the calls
  | exitTest (fd : Fd) -- `exit`: `if(p->ofile[fd])`
  | exitLoad (fd : Fd) -- `exit`: `f = p->ofile[fd]`
  | exitZero (fd : Fd) (f : Option FileId) -- `exit`: `p->ofile[fd] = 0`, after `fileclose(f)`
  | exitCwd -- `exit`: the read of `p->cwd`
  | exitZeroCwd (old : Option InodeId) -- `exit`: `p->cwd = 0`, after `iput(old)`
  | exited -- `exit` is done with the files
  | closeZero (fd : Fd) (f : FileId) -- `sys_close`: `ofile[fd] = 0`
  /-- `sys_dup`: `if(p->ofile[k] == 0)` in `fdalloc`; `src` is the descriptor given. -/
  | dupScan (f : FileId) (src k : Fd)
  | dupStore (f : FileId) (src k : Fd) -- `sys_dup`: `p->ofile[k] = f` in `fdalloc`
  | filedup (f : FileId) (src k : Fd) -- `sys_dup`: `filedup(f)`
  | idup (ip : Option InodeId) -- `sys_chdir`: `idup` on the working directory, in `namex`
  | ilock (ip : InodeId) -- `sys_chdir`: `ilock(ip)`, in `namex` or after `namei`
  | locked (ip : InodeId) -- `sys_chdir`: with the inode locked
  | chdirCwd (ip : InodeId) -- `sys_chdir`: the read of `p->cwd`
  /-- `sys_chdir`: `p->cwd = ip`, after `iput(old)`. -/
  | chdirStore (old : Option InodeId) (ip : InodeId)
  deriving DecidableEq, Repr

/-- The next step of a thread: at a place, or in a function that returns to one. -/
inductive Pc
  | here (k : Place)
  | fileclose (f : Option FileId) (k : Place) -- `fileclose`: the critical section of `ftable.lock`
  | iunlockput (ip : InodeId) (k : Place) -- `iunlockput`: the check of `iunlock`
  | iput (ip : Option InodeId) (k : Place) -- `iput`: the critical section of `itable.lock`
  /-- `iput`: the second critical section, after the inode has been truncated. -/
  | itrunc (ip : InodeId) (k : Place)
  deriving DecidableEq, Repr

/-- A panic, or a use of a null pointer. -/
inductive Fault
  | fileclose
  | filedup
  | ilock
  | iunlock
  | null
  deriving DecidableEq, Repr

/-- The system calls, and `exit`, which a killed thread also makes in `usertrap`. -/
inductive Call
  | exit
  | close (fd : Fd)
  | dup (fd : Fd)
  | chdir (root : Option InodeId) -- The root directory, if the path is absolute
  deriving DecidableEq, Repr

/-- What a step of a thread leaves open. -/
inductive Act
  | go
  | call (c : Call)
  | next (ip : InodeId) -- The next directory on the path
  | missing -- There is none, or the inode is not a directory
  | found -- The path ends in this directory
  | put (unlinked : Bool) -- In `iput`: whether the inode is valid and has no links
  deriving DecidableEq, Repr

/-- What the other processes do to the counters. -/
inductive Outside
  /-- `filealloc` for a file on this inode, or for a pipe. -/
  | filealloc (f : FileId) (ip : Option InodeId)
  | filedup (f : FileId)
  | fileclose (f : FileId)
  | iget (i : InodeId) -- `iget` or `idup`
  | iput (i : InodeId)
  deriving DecidableEq, Repr

inductive Event
  | thread (t : ThreadId) (a : Act)
  | other (o : Outside)
  deriving DecidableEq, Repr

structure State where
  ofile : Fd → Option FileId
  cwd : Option InodeId
  ref : FileId → ℤ -- `ref` of each file
  ip : FileId → Option InodeId -- The inode of a file of type `FD_INODE` or `FD_DEVICE`
  iref : InodeId → ℤ -- `ref` of each inode
  ext : FileId → ℕ -- References that other processes hold
  iext : InodeId → ℕ
  pc : ThreadId → Pc
  fault : Option Fault

/-- The descriptor after `fd`. -/
def nextFd (fd : Fd) : Option Fd := if h : fd.val + 1 < NOFILE then some ⟨fd.val + 1, h⟩ else none

/-- The next turn of the loop in `exit`. -/
def exitNext (fd : Fd) : Place :=
  match nextFd fd with
  | some fd' => .exitTest fd'
  | none => .exitCwd

/-- The next turn of the loop in `fdalloc`; without a free slot `sys_dup` fails. -/
def dupNext (f : FileId) (src k : Fd) : Place :=
  match nextFd k with
  | some k' => .dupScan f src k'
  | none => .user

namespace State

variable (s : State) (t : ThreadId)

def goto (p : Pc) : State := { s with pc := update s.pc t p }

def stop (e : Fault) : State := { s with fault := some e }

def setOfile (fd : Fd) (v : Option FileId) : State :=
  { s with ofile := update s.ofile fd v }

def setRef (f : FileId) (n : ℤ) : State := { s with ref := update s.ref f n }

def setIref (i : InodeId) (n : ℤ) : State := { s with iref := update s.iref i n }

/-- `iget` finds the inode in the entry `i`, or recycles that entry, which is free. -/
def iget (i : InodeId) : Option State :=
  if 0 ≤ s.iref i then some (s.setIref i (s.iref i + 1)) else none

/-- The first step of a call. -/
def callStep : Call → Option State
  | .exit => some (s.goto t (.here (.exitTest 0)))
  | .close fd =>
    match s.ofile fd with
    | none => some s
    | some f => some (s.goto t (.here (.closeZero fd f)))
  | .dup fd =>
    match s.ofile fd with
    | none => some s
    | some f => some (s.goto t (.here (.dupScan f fd 0)))
  | .chdir none => some (s.goto t (.here (.idup s.cwd)))
  | .chdir (some root) => do
    let s ← s.iget root
    some (s.goto t (.here (.ilock root)))

/-- The next step at a place. -/
def placeStep : Place → Act → Option State
  | .user, .call c => s.callStep t c
  | .exitTest fd, .go =>
    some (s.goto t (.here (if (s.ofile fd).isNone then exitNext fd else .exitLoad fd)))
  | .exitLoad fd, .go => some (s.goto t (.fileclose (s.ofile fd) (.exitZero fd (s.ofile fd))))
  | .exitZero fd _, .go => some ((s.setOfile fd none).goto t (.here (exitNext fd)))
  | .exitCwd, .go => some (s.goto t (.iput s.cwd (.exitZeroCwd s.cwd)))
  | .exitZeroCwd _, .go => some ({ s with cwd := none }.goto t (.here .exited))
  | .closeZero fd f, .go => some ((s.setOfile fd none).goto t (.fileclose (some f) .user))
  | .dupScan f src k, .go =>
    some (s.goto t (.here (if (s.ofile k).isNone then .dupStore f src k else dupNext f src k)))
  | .dupStore f src k, .go =>
    some ((s.setOfile k (some f)).goto t (.here (.filedup f src k)))
  | .filedup f _ _, .go =>
    if s.ref f < 1 then some (s.stop .filedup)
    else some ((s.setRef f (s.ref f + 1)).goto t (.here .user))
  | .idup none, .go => some (s.stop .null)
  | .idup (some i), .go => some ((s.setIref i (s.iref i + 1)).goto t (.here (.ilock i)))
  | .ilock i, .go =>
    if s.iref i < 1 then some (s.stop .ilock) else some (s.goto t (.here (.locked i)))
  | .locked i, .next j => do
    let s ← s.iget j
    some (s.goto t (.iunlockput i (.ilock j)))
  | .locked i, .missing => some (s.goto t (.iunlockput i .user))
  | .locked i, .found =>
    if s.iref i < 1 then some (s.stop .iunlock) else some (s.goto t (.here (.chdirCwd i)))
  | .chdirCwd i, .go => some (s.goto t (.iput s.cwd (.chdirStore s.cwd i)))
  | .chdirStore _ i, .go => some ({ s with cwd := some i }.goto t (.here .user))
  | _, _ => none

/-- `fileclose`: with the last reference the file is freed, and its inode is put. -/
def filecloseStep (f : FileId) (k : Place) : State :=
  if s.ref f < 1 then s.stop .fileclose
  else if 1 < s.ref f then (s.setRef f (s.ref f - 1)).goto t (.here k)
  else
    { s.setRef f 0 with ip := update s.ip f none }.goto t
      (match s.ip f with
      | none => .here k
      | some i => .iput (some i) k)

/-- The next step of thread `t`. -/
def threadStep (a : Act) : Option State :=
  match s.pc t, a with
  | .here k, a => s.placeStep t k a
  | .fileclose none _, .go => some (s.stop .null)
  | .fileclose (some f) k, .go => some (s.filecloseStep t f k)
  | .iunlockput i k, .go =>
    if s.iref i < 1 then some (s.stop .iunlock) else some (s.goto t (.iput (some i) k))
  | .iput none _, .put _ => some (s.stop .null)
  | .iput (some i) k, .put unlinked =>
    if s.iref i = 1 ∧ unlinked = true then some (s.goto t (.itrunc i k))
    else some ((s.setIref i (s.iref i - 1)).goto t (.here k))
  | .itrunc i k, .go => some ((s.setIref i (s.iref i - 1)).goto t (.here k))
  | _, _ => none

/-- Another process gives up one of its references to a file. -/
def dropFile (f : FileId) : State :=
  let s' := { s.setRef f (s.ref f - 1) with ext := update s.ext f (s.ext f - 1) }
  if 1 < s.ref f then s'
  else
    { s' with
      ip := update s.ip f none
      iext := match s.ip f with
        | none => s.iext
        | some i => update s.iext i (s.iext i + 1) }

/-- A step of another process, which uses the references it holds. -/
def otherStep : Outside → Option State
  | .filealloc f none =>
    if s.ref f = 0 then
      some { s.setRef f 1 with ext := update s.ext f (s.ext f + 1) }
    else none
  | .filealloc f (some i) =>
    if s.ref f = 0 ∧ 0 < s.iext i then
      some { s.setRef f 1 with
        ext := update s.ext f (s.ext f + 1)
        ip := update s.ip f (some i)
        iext := update s.iext i (s.iext i - 1) }
    else none
  | .filedup f =>
    if 0 < s.ext f then
      some { s.setRef f (s.ref f + 1) with ext := update s.ext f (s.ext f + 1) }
    else none
  | .fileclose f => if 0 < s.ext f then some (s.dropFile f) else none
  | .iget i => do
    let s' ← s.iget i
    some { s' with iext := update s.iext i (s.iext i + 1) }
  | .iput i =>
    if 0 < s.iext i then
      some { s.setIref i (s.iref i - 1) with iext := update s.iext i (s.iext i - 1) }
    else none

/-- A step of the system; after a panic there is none. -/
def step (s : State) (e : Event) : Option State :=
  if s.fault.isSome then none
  else
    match e with
    | .thread t a => s.threadStep t a
    | .other o => s.otherStep o

end State

end Files
end Xv6
