import Xv6.File.Descriptors
import Xv6.Lib.Outcome
import Xv6.Lib.Run

/-!
# The file table (`kernel/file.c`, `kernel/pipe.c` and the calls of `kernel/sysfile.c`)

`filealloc`, `filedup` and `fileclose`, `pipealloc` and `pipeclose`, and the calls that create and
drop references to open files: `open`, `dup`, `close`, `pipe`, `fork` and `exit`, with the paths on
which they fail.  Processes have one thread, and the calls run one at a time.

What a path leads to, whether there is memory for a process, and whether `copyout` succeeds are
choices of the call.  Inodes are left out.  `allocs` and `frees` count how often each page was
allocated for a pipe, and freed by `pipeclose`.
-/

namespace Xv6

open Function List

namespace Ftable

/-- `type` of `struct file`. -/
inductive FdType
  | none
  | pipe
  | inode
  | device
  deriving DecidableEq, Repr

/-- `struct file`. -/
structure File where
  type : FdType
  ref : ℤ
  readable : Bool
  writable : Bool
  pipe : ℕ -- The page with the `struct pipe`
  ip : ℕ -- The number of the inode
  off : UInt
  major : ℤ
  deriving DecidableEq, Repr

/-- The part of `struct pipe` that says which ends are open. -/
structure Pipe where
  readopen : ℤ
  writeopen : ℤ
  deriving DecidableEq, Repr

/-- What `sys_open` has found: the inode, whether it is a device, and `omode`. -/
structure Target where
  ip : ℕ
  isDevice : Bool
  major : ℤ
  omode : UInt
  deriving DecidableEq, Repr

inductive Panic
  | filedup -- `panic("filedup")`
  | fileclose -- `panic("fileclose")`
  | initExiting -- `panic("init exiting")`
  deriving DecidableEq, Repr

def O_WRONLY : UInt := 1

def O_RDWR : UInt := 2

end Ftable

/-- The file table, the descriptors of the processes, the pipes, and the free pages. -/
structure Ftable where
  file : FileId → Ftable.File
  ofile : ProcId → Fd → Option FileId
  pipe : ℕ → Ftable.Pipe -- The pipe in a page
  freelist : List ℕ -- `kmem.freelist`
  held : List ℕ -- The pages that other parts of the kernel have allocated
  state : ProcId → ProcState
  initproc : ProcId
  allocs : ℕ → ℕ
  frees : ℕ → ℕ

namespace Ftable

variable (s : Ftable)

def setFile (f : FileId) (x : File) : Ftable := { s with file := update s.file f x }

/-- `p->ofile[fd] = v`. -/
def setFd (p : ProcId) (fd : Fd) (v : Option FileId) : Ftable :=
  { s with ofile := update s.ofile p (update (s.ofile p) fd v) }

/-! ### `kernel/file.c` -/

/-- `filealloc`. -/
def filealloc : Option FileId × Ftable :=
  match (finRange NFILE).find? fun f => (s.file f).ref = 0 with
  | none => (none, s)
  | some f => (some f, s.setFile f { s.file f with ref := 1 })

/-- `filedup`. -/
def filedup (f : FileId) : Except Panic Ftable :=
  if (s.file f).ref < 1 then .error .filedup
  else .ok (s.setFile f { s.file f with ref := (s.file f).ref + 1 })

/-- `kfree` of the page of a pipe fills it with ones. -/
def freePipe (pg : ℕ) : Ftable :=
  { s with
    freelist := pg :: s.freelist
    pipe := update s.pipe pg ⟨0x01010101, 0x01010101⟩
    frees := update s.frees pg (s.frees pg + 1) }

/-- One end is marked as closed. -/
def Pipe.close (pi : Pipe) (writable : Bool) : Pipe :=
  if writable then { pi with writeopen := 0 } else { pi with readopen := 0 }

/-- `pipeclose`. -/
def pipeclose (pg : ℕ) (writable : Bool) : Ftable :=
  let pi := (s.pipe pg).close writable
  let s := { s with pipe := update s.pipe pg pi }
  if pi.readopen = 0 ∧ pi.writeopen = 0 then s.freePipe pg else s

/-- `fileclose`.  The `iput` for an inode or a device is not part of the model. -/
def fileclose (f : FileId) : Except Panic Ftable :=
  let ff := s.file f
  if ff.ref < 1 then .error .fileclose
  else if ff.ref - 1 > 0 then .ok (s.setFile f { ff with ref := ff.ref - 1 })
  else
    let s := s.setFile f { ff with ref := 0, type := .none }
    match ff.type with
    | .pipe => .ok (s.pipeclose ff.pipe ff.writable)
    | .inode | .device | .none => .ok s

/-! ### `kernel/pipe.c` -/

/-- `if(*f) fileclose(*f)`. -/
def closeIf : Option FileId → Except Panic Ftable
  | none => .ok s
  | some f => s.fileclose f

/-- `bad:` of `pipealloc`.  No page has been allocated there. -/
def pipeBad (f0 f1 : Option FileId) : Except Panic (Option (FileId × FileId) × Ftable) :=
  (s.closeIf f0).bind fun s => (s.closeIf f1).map fun s => (none, s)

/-- `pipealloc`, once it has two files and a page. -/
def pipeInit (f0 f1 : FileId) (pg : ℕ) : Ftable :=
  let s := { s with
    pipe := update s.pipe pg ⟨1, 1⟩
    allocs := update s.allocs pg (s.allocs pg + 1) }
  let s := s.setFile f0
    { s.file f0 with type := .pipe, readable := true, writable := false, pipe := pg }
  s.setFile f1 { s.file f1 with type := .pipe, readable := false, writable := true, pipe := pg }

/-- `pipealloc`. -/
def pipealloc : Except Panic (Option (FileId × FileId) × Ftable) :=
  match s.filealloc with
  | (none, s) => s.pipeBad none none
  | (some f0, s) =>
    match s.filealloc with
    | (none, s) => s.pipeBad (some f0) none
    | (some f1, s) =>
      match s.freelist with
      | [] => s.pipeBad (some f0) (some f1)
      | pg :: rest => .ok (some (f0, f1), { s with freelist := rest }.pipeInit f0 f1 pg)

/-! ### System calls

A call returns `none` for -1. -/

/-- `argfd`, with the argument of the call. -/
def argfd (p : ProcId) (fd : ℤ) : Option (Fd × FileId) :=
  if h : 0 ≤ fd ∧ fd < NOFILE then
    let fd : Fd := ⟨fd.toNat, by omega⟩
    (s.ofile p fd).map fun f => (fd, f)
  else none

/-- `fdalloc`. -/
def fdalloc (p : ProcId) (f : FileId) : Option Fd × Ftable :=
  match (finRange NOFILE).find? fun fd => s.ofile p fd = none with
  | none => (none, s)
  | some fd => (some fd, s.setFd p fd (some f))

/-- What a call returns, and the state afterwards. -/
abbrev Return := Except Panic (Option ℕ × Ftable)

/-- `sys_dup`. -/
def sysDup (p : ProcId) (fd : ℤ) : Return :=
  match s.argfd p fd with
  | none => .ok (none, s)
  | some (_, f) =>
    match s.fdalloc p f with
    | (none, s) => .ok (none, s)
    | (some fd, s) => (s.filedup f).map fun s => (some fd.val, s)

/-- `sys_close`. -/
def sysClose (p : ProcId) (fd : ℤ) : Return :=
  match s.argfd p fd with
  | none => .ok (none, s)
  | some (fd, f) => ((s.setFd p fd none).fileclose f).map fun s => (some 0, s)

/-- The end of `sys_open`: the file is filled in. -/
def openFile (f : FileId) (x : Target) : Ftable :=
  let ff := s.file f
  let ff := if x.isDevice then { ff with type := .device, major := x.major }
    else { ff with type := .inode, off := 0 }
  s.setFile f { ff with
    ip := x.ip
    readable := x.omode &&& O_WRONLY = 0
    writable := x.omode &&& O_WRONLY ≠ 0 ∨ x.omode &&& O_RDWR ≠ 0 }

/-- `sys_open`; without a target it fails before `filealloc`. -/
def sysOpen (p : ProcId) : Option Target → Return
  | none => .ok (none, s)
  | some x =>
    if x.isDevice ∧ (x.major < 0 ∨ x.major ≥ NDEV) then .ok (none, s)
    else
      match s.filealloc with
      | (none, s) => .ok (none, s)
      | (some f, s) =>
        match s.fdalloc p f with
        | (none, s) => (s.fileclose f).map fun s => (none, s)
        | (some fd, s) => .ok (some fd.val, s.openFile f x)

/-- The last lines of `sys_pipe` when it fails. -/
def unpipe (rf wf : FileId) : Return :=
  (s.fileclose rf).bind fun s => (s.fileclose wf).map fun s => (none, s)

/-- `sys_pipe`; the arguments say whether the calls of `copyout` succeed. -/
def sysPipe (p : ProcId) (out0 out1 : Bool) : Return :=
  s.pipealloc.bind fun
    | (none, s) => .ok (none, s)
    | (some (rf, wf), s) =>
      match s.fdalloc p rf with
      | (none, s) => s.unpipe rf wf
      | (some fd0, s) =>
        match s.fdalloc p wf with
        | (none, s) => (s.setFd p fd0 none).unpipe rf wf
        | (some fd1, s) =>
          if out0 && out1 then .ok (some 0, s)
          else ((s.setFd p fd0 none).setFd p fd1 none).unpipe rf wf

/-- The loop of `fork` over the descriptors. -/
def forkFiles (p q : ProcId) : List Fd → Ftable → Except Panic Ftable
  | [], s => .ok s
  | fd :: fds, s =>
    match s.ofile p fd with
    | none => forkFiles p q fds s
    | some f => (s.filedup f).bind fun s => forkFiles p q fds (s.setFd q fd (some f))

/-- `fork`; `mem` says whether there is memory for the child.  The slot of the child stands for the
pid that is returned. -/
def fork (p : ProcId) (mem : Bool) : Return :=
  match (finRange NPROC).find? fun q => s.state q = .unused with
  | none => .ok (none, s)
  | some q =>
    -- without memory the slot is `UNUSED` again
    if mem then
      let s := { s with state := update s.state q .used }
      (forkFiles p q (finRange NOFILE) s).map fun s =>
        (some q.val, { s with state := update s.state q .runnable })
    else .ok (none, s)

/-- The loop of `exit` over the descriptors. -/
def exitFiles (p : ProcId) : List Fd → Ftable → Except Panic Ftable
  | [], s => .ok s
  | fd :: fds, s =>
    match s.ofile p fd with
    | none => exitFiles p fds s
    | some f => (s.fileclose f).bind fun s => exitFiles p fds (s.setFd p fd none)

/-- `exit`. -/
def exit (p : ProcId) : Return :=
  if p = s.initproc then .error .initExiting
  else
    (exitFiles p (finRange NOFILE) s).map fun s =>
      (some 0, { s with state := update s.state p .zombie })

/-! ### Sequences of calls -/

inductive Act
  | open (p : ProcId) (x : Option Target)
  | dup (p : ProcId) (fd : ℤ)
  | close (p : ProcId) (fd : ℤ)
  | pipe (p : ProcId) (out0 out1 : Bool)
  | fork (p : ProcId) (mem : Bool)
  | exit (p : ProcId)
  | reap (q : ProcId) -- `wait` frees the slot of a child
  | kalloc -- Another part of the kernel allocates a page
  | kfree (pg : ℕ) -- Another part of the kernel frees a page of its own
  deriving DecidableEq, Repr

/-- The process makes calls. -/
def Alive (p : ProcId) : Prop := s.state p ≠ .unused ∧ s.state p ≠ .zombie

instance (p : ProcId) : Decidable (s.Alive p) := by
  unfold Alive
  infer_instance

def Enabled : Act → Prop
  | .open p _ | .dup p _ | .close p _ | .pipe p _ _ | .fork p _ | .exit p => s.Alive p
  | .reap q => s.state q = .zombie
  | .kalloc => s.freelist ≠ []
  | .kfree pg => pg ∈ s.held

instance (a : Act) : Decidable (s.Enabled a) := by
  unfold Enabled
  split <;> infer_instance

def exec : Act → Return
  | .open p x => s.sysOpen p x
  | .dup p fd => s.sysDup p fd
  | .close p fd => s.sysClose p fd
  | .pipe p out0 out1 => s.sysPipe p out0 out1
  | .fork p mem => s.fork p mem
  | .exit p => s.exit p
  | .reap q => .ok (some 0, { s with state := update s.state q .unused })
  | .kalloc =>
    .ok (some 0, { s with
      freelist := s.freelist.tail
      held := s.freelist.take 1 ++ s.held })
  | .kfree pg =>
    .ok (some 0, { s with
      freelist := pg :: s.freelist
      held := s.held.erase pg })

def step (s : Ftable) (a : Act) : Option Ftable :=
  if s.Enabled a then (s.exec a).toOption.map Prod.snd else none

end Ftable
end Xv6
