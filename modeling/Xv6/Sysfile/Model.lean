import Xv6.Dir.Slots
import Xv6.File.Table

/-!
# File-system calls (`kernel/sysfile.c`, and the inode and path functions of `kernel/fs.c`)

`open`, `close`, `link`, `unlink`, `mkdir`, `mknod` and `chdir`, with `namex`, `create`,
`dirlookup`, `dirlink`, `ialloc`, `iget`, `ilock`, `iput` and what else they use.  The calls run one
at a time.

An inode is its fields and its contents: entries if it is a directory, bytes if it is a file.  Every
change of an inode in memory is followed by `iupdate`, so there is one copy of each inode.  There is
one device.  The blocks of the disk are left out: a call that finds no free block does not return.
-/

namespace Xv6

open Function

namespace Sysfile

/-- `type` of an inode. -/
inductive NodeType
  | free
  | dir
  | file
  | device
  deriving DecidableEq, Repr

/-- An inode and its contents. -/
structure Node where
  type : NodeType
  major : BitVec 16
  minor : BitVec 16
  nlink : BitVec 16
  slots : Slots
  bytes : List Byte
  deriving DecidableEq

/-- Why a call does not return. -/
inductive Stop
  | iget -- `panic("iget: no inodes")`
  | ilock -- `panic("ilock")`
  | noType -- `panic("ilock: no type")`
  | iunlock -- `panic("iunlock")`
  | ialloc -- `panic("ialloc: no inodes")`
  | notDir -- `panic("dirlookup not DIR")`
  | dirlink -- `panic("dirlink")`
  | unlink -- `panic("unlink: nlink < 1")`
  | create -- `panic("create dots")` or `panic("create: dirlink")`
  | file (e : Ftable.Panic) -- A panic of `kernel/file.c`
  | deadlock -- The caller waits for a lock that it holds
  deriving DecidableEq, Repr

/-- The inode number of the root directory. -/
def ROOTINO : ℕ := 1

/-- Entries that fit into a directory: `MAXFILE * BSIZE / sizeof(struct dirent)`. -/
def maxSlots : ℕ := MAXFILE * BSIZE / 16

def O_CREATE : UInt := 0x200

def O_TRUNC : UInt := 0x400

/-- The names `.` and `..`. -/
def dot : Name := key (Str.ofList [46])

def dotdot : Name := key (Str.ofList [46, 46])

end Sysfile

/-- The inodes, the inode table, and what the processes have open. -/
structure Sysfile where
  node : ℕ → Sysfile.Node
  ref : ℕ → ℕ
  valid : ℕ → Bool
  locked : ℕ → Bool -- The inodes whose lock the caller holds
  ops : ℕ -- `log.outstanding`: calls of `begin_op` without `end_op`
  cwd : ProcId → ℕ
  files : Ftable

namespace Sysfile

section

variable (ninodes : ℕ) (s : Sysfile)

def setNode (i : ℕ) (x : Node) : Sysfile := { s with node := update s.node i x }

def setRef (i n : ℕ) : Sysfile := { s with ref := update s.ref i n }

def beginOp : Sysfile := { s with ops := s.ops + 1 }

def endOp : Sysfile := { s with ops := s.ops - 1 }

/-- `iget`. -/
def iget (i : ℕ) : Except Stop Sysfile :=
  if 0 < s.ref i then .ok (s.setRef i (s.ref i + 1))
  else if (List.range ninodes).countP (fun j => 0 < s.ref j) < NINODE then
    .ok { s.setRef i 1 with valid := update s.valid i false }
  else .error .iget

/-- `idup`. -/
def idup (i : ℕ) : Sysfile := s.setRef i (s.ref i + 1)

/-- `ilock`. -/
def ilock (i : ℕ) : Except Stop Sysfile :=
  if s.ref i < 1 then .error .ilock
  else if s.locked i then .error .deadlock
  else if ¬ s.valid i ∧ (s.node i).type = .free then .error .noType
  else .ok { s with
    locked := update s.locked i true
    valid := update s.valid i true }

/-- `iunlock`. -/
def iunlock (i : ℕ) : Except Stop Sysfile :=
  if ¬ s.locked i ∨ s.ref i < 1 then .error .iunlock
  else .ok { s with locked := update s.locked i false }

/-- `iput`. -/
def iput (i : ℕ) : Except Stop Sysfile :=
  if s.ref i = 1 ∧ s.valid i ∧ (s.node i).nlink = 0 then
    if s.locked i then .error .deadlock
    else
      .ok { s.setNode i { s.node i with type := .free, slots := [], bytes := [] } with
        valid := update s.valid i false
        ref := update s.ref i (s.ref i - 1) }
  else .ok (s.setRef i (s.ref i - 1))

/-- `iunlockput`. -/
def iunlockput (i : ℕ) : Except Stop Sysfile := do
  let s ← s.iunlock i
  s.iput i

/-- `ialloc`. -/
def ialloc (type : NodeType) : Except Stop (ℕ × Sysfile) :=
  match (List.range ninodes).find? fun i => 0 < i ∧ (s.node i).type = .free with
  | none => .error .ialloc
  | some i => ((s.setNode i ⟨type, 0, 0, 0, [], []⟩).iget ninodes i).map fun s => (i, s)

end

section

variable (ninodes : ℕ) (s : Sysfile)

/-- `dirlookup`: a reference to the inode under the name, and the index of the entry. -/
def dirlookup (dp : ℕ) (n : Name) : Except Stop (Option (ℕ × ℕ) × Sysfile) :=
  if (s.node dp).type ≠ .dir then .error .notDir
  else
    match (s.node dp).slots.index n with
    | none => .ok (none, s)
    | some k => do
      let i := ((s.node dp).slots.getD k .zero).inum
      let s ← s.iget ninodes i
      .ok (some (i, k), s)

/-- `dirlink`; `false` if the name is present. -/
def dirlink (dp : ℕ) (n : Name) (inum : ℕ) : Except Stop (Bool × Sysfile) := do
  let r ← s.dirlookup ninodes dp n
  match r with
  | (some (i, _), s) =>
    let s ← s.iput i
    .ok (false, s)
  | (none, s) =>
    if maxSlots ≤ (s.node dp).slots.room then .error .dirlink
    else .ok (true, s.setNode dp { s.node dp with slots := (s.node dp).slots.link n inum })

/-- The loop of `namex`, with the elements of the path that are left. -/
def namexLoop (parent : Bool) : List Name → ℕ → Sysfile →
    Except Stop (Option (ℕ × Name) × Sysfile)
  | [], ip, s =>
    if parent then do
      let s ← s.iput ip
      .ok (none, s)
    else .ok (some (ip, dot), s)
  | n :: rest, ip, s => do
    let s ← s.ilock ip
    if (s.node ip).type ≠ .dir then
      let s ← s.iunlockput ip
      .ok (none, s)
    else if parent ∧ rest = [] then
      let s ← s.iunlock ip
      .ok (some (ip, n), s)
    else
      let r ← s.dirlookup ninodes ip n
      match r with
      | (none, s) =>
        let s ← s.iunlockput ip
        .ok (none, s)
      | (some (next, _), s) =>
        let s ← s.iunlockput ip
        namexLoop parent rest next s

/-- Where `namex` starts. -/
def namexStart (p : ProcId) (path : List Byte) : Except Stop (ℕ × Sysfile) :=
  if path.head? = some slash then (s.iget ninodes ROOTINO).map fun s => (ROOTINO, s)
  else .ok (s.cwd p, s.idup (s.cwd p))

/-- `namex`. -/
def namex (p : ProcId) (path : List Byte) (parent : Bool) :
    Except Stop (Option (ℕ × Name) × Sysfile) := do
  let (ip, s) ← s.namexStart ninodes p path
  namexLoop ninodes parent (names path) ip s

/-- `namei`. -/
def namei (p : ProcId) (path : List Byte) : Except Stop (Option ℕ × Sysfile) :=
  (s.namex ninodes p path false).map fun r => (r.1.map Prod.fst, r.2)

/-- `nameiparent`. -/
def nameiparent (p : ProcId) (path : List Byte) : Except Stop (Option (ℕ × Name) × Sysfile) :=
  s.namex ninodes p path true

/-- `dirlink`, with a panic if the name is present. -/
def mustLink (dp : ℕ) (n : Name) (inum : ℕ) : Except Stop Sysfile := do
  let r ← s.dirlink ninodes dp n inum
  match r with
  | (true, s) => .ok s
  | (false, _) => .error .create

/-- The part of `create` for a new directory: `dp->nlink++` and the entries `.` and `..`. -/
def makeDots (dp ip : ℕ) : NodeType → Except Stop Sysfile
  | .dir => do
    let s := s.setNode dp { s.node dp with nlink := (s.node dp).nlink + 1 }
    let s ← s.mustLink ninodes ip dot ip
    s.mustLink ninodes ip dotdot dp
  | _ => .ok s

/-- `create`, when the name is not present in `dp`, which is locked. -/
def createIn (dp : ℕ) (n : Name) (type : NodeType) (major minor : BitVec 16) :
    Except Stop (ℕ × Sysfile) := do
  let (ip, s) ← s.ialloc ninodes type
  let s ← s.ilock ip
  let s := s.setNode ip { s.node ip with major := major, minor := minor, nlink := 1 }
  let s ← s.makeDots ninodes dp ip type
  let s ← s.mustLink ninodes dp n ip
  let s ← s.iunlockput dp
  .ok (ip, s)

/-- `create`: the inode is returned locked. -/
def create (p : ProcId) (path : List Byte) (type : NodeType) (major minor : BitVec 16) :
    Except Stop (Option ℕ × Sysfile) := do
  let r ← s.nameiparent ninodes p path
  match r with
  | (none, s) => .ok (none, s)
  | (some (dp, n), s) =>
    let s ← s.ilock dp
    let r ← s.dirlookup ninodes dp n
    match r with
    | (some (ip, _), s) =>
      let s ← s.iunlockput dp
      let s ← s.ilock ip
      if type = .file ∧ ((s.node ip).type = .file ∨ (s.node ip).type = .device) then
        .ok (some ip, s)
      else
        let s ← s.iunlockput ip
        .ok (none, s)
    | (none, s) =>
      let (ip, s) ← s.createIn ninodes dp n type major minor
      .ok (some ip, s)

end

section

variable (ninodes : ℕ) (s : Sysfile)

/-- What a call returns, `none` for -1, and the state afterwards. -/
abbrev Return := Except Stop (Option ℕ × Sysfile)

/-- `end_op`, and -1. -/
def fail : Return := .ok (none, s.endOp)

/-- `iunlockput`, `end_op`, and -1. -/
def failPut (ip : ℕ) : Return := do
  let s ← s.iunlockput ip
  s.fail

/-- The end of `sys_open`, with the inode locked. -/
def openInode (p : ProcId) (ip : ℕ) (omode : UInt) : Return := do
  let x : Ftable.Target :=
    ⟨ip, (s.node ip).type = .device, (s.node ip).major.toInt, omode⟩
  let (r, files) ← (s.files.sysOpen p (some x)).mapError Stop.file
  let s := { s with files := files }
  match r with
  | none => s.failPut ip
  | some fd =>
    let s :=
      if omode &&& O_TRUNC ≠ 0 ∧ (s.node ip).type = .file then
        s.setNode ip { s.node ip with bytes := [] }
      else s
    let s ← s.iunlock ip
    .ok (some fd, s.endOp)

/-- `sys_open`; the path is `none` if `argstr` fails. -/
def sysOpen (p : ProcId) (path : Option (List Byte)) (omode : UInt) : Return :=
  match path with
  | none => .ok (none, s)
  | some path =>
    if omode &&& O_CREATE ≠ 0 then do
      let r ← s.beginOp.create ninodes p path .file 0 0
      match r with
      | (none, s) => s.fail
      | (some ip, s) => s.openInode p ip omode
    else do
      let r ← s.beginOp.namei ninodes p path
      match r with
      | (none, s) => s.fail
      | (some ip, s) =>
        let s ← s.ilock ip
        if (s.node ip).type = .dir ∧ omode ≠ 0 then s.failPut ip
        else s.openInode p ip omode

/-- `sys_close`, with the `iput` of `fileclose`. -/
def sysClose (p : ProcId) (fd : ℤ) : Return :=
  match s.files.argfd p fd with
  | none => .ok (none, s)
  | some (_, f) => do
    let ff := s.files.file f
    let (r, files) ← (s.files.sysClose p fd).mapError Stop.file
    let s := { s with files := files }
    if ff.ref = 1 ∧ (ff.type = .inode ∨ ff.type = .device) then
      let s ← s.beginOp.iput ff.ip
      .ok (r, s.endOp)
    else .ok (r, s)

/-- `bad:` of `sys_link`. -/
def unlinkBack (ip : ℕ) : Return := do
  let s ← s.ilock ip
  let s := s.setNode ip { s.node ip with nlink := (s.node ip).nlink - 1 }
  s.failPut ip

/-- `sys_link`. -/
def sysLink (p : ProcId) (old new : Option (List Byte)) : Return :=
  match old, new with
  | some old, some new => do
    let r ← s.beginOp.namei ninodes p old
    match r with
    | (none, s) => s.fail
    | (some ip, s) =>
      let s ← s.ilock ip
      if (s.node ip).type = .dir then s.failPut ip
      else
        let s := s.setNode ip { s.node ip with nlink := (s.node ip).nlink + 1 }
        let s ← s.iunlock ip
        let r ← s.nameiparent ninodes p new
        match r with
        | (none, s) => s.unlinkBack ip
        | (some (dp, n), s) =>
          let s ← s.ilock dp
          let (ok, s) ← s.dirlink ninodes dp n ip
          let s ← s.iunlockput dp
          if ok then
            let s ← s.iput ip
            .ok (some 0, s.endOp)
          else s.unlinkBack ip
  | _, _ => .ok (none, s)

/-- `isdirempty`. -/
def isdirempty (dp : ℕ) : Bool := ((s.node dp).slots.drop 2).all fun e => e.inum = 0

/-- `sys_unlink`, when the entry `k` of `dp` that names `ip` is removed. -/
def unlinkEntry (dp ip k : ℕ) : Return := do
  let s := s.setNode dp { s.node dp with slots := (s.node dp).slots.put k .zero }
  let s :=
    if (s.node ip).type = .dir then
      s.setNode dp { s.node dp with nlink := (s.node dp).nlink - 1 }
    else s
  let s ← s.iunlockput dp
  let s := s.setNode ip { s.node ip with nlink := (s.node ip).nlink - 1 }
  let s ← s.iunlockput ip
  .ok (some 0, s.endOp)

/-- `sys_unlink`. -/
def sysUnlink (p : ProcId) (path : Option (List Byte)) : Return :=
  match path with
  | none => .ok (none, s)
  | some path => do
    let r ← s.beginOp.nameiparent ninodes p path
    match r with
    | (none, s) => s.fail
    | (some (dp, n), s) =>
      let s ← s.ilock dp
      if n = dot ∨ n = dotdot then s.failPut dp
      else
        let r ← s.dirlookup ninodes dp n
        match r with
        | (none, s) => s.failPut dp
        | (some (ip, k), s) =>
          let s ← s.ilock ip
          if (s.node ip).nlink.toInt < 1 then .error .unlink
          else if (s.node ip).type = .dir ∧ ¬ s.isdirempty ip then
            let s ← s.iunlockput ip
            s.failPut dp
          else s.unlinkEntry dp ip k

/-- `sys_mkdir` and `sys_mknod`. -/
def sysMake (p : ProcId) (path : Option (List Byte)) (type : NodeType) (major minor : BitVec 16) :
    Return :=
  match path with
  | none => s.beginOp.fail
  | some path => do
    let r ← s.beginOp.create ninodes p path type major minor
    match r with
    | (none, s) => s.fail
    | (some ip, s) =>
      let s ← s.iunlockput ip
      .ok (some 0, s.endOp)

/-- `sys_mkdir`. -/
def sysMkdir (p : ProcId) (path : Option (List Byte)) : Return := s.sysMake ninodes p path .dir 0 0

/-- `sys_mknod`. -/
def sysMknod (p : ProcId) (path : Option (List Byte)) (major minor : BitVec 16) : Return :=
  s.sysMake ninodes p path .device major minor

/-- `sys_chdir`. -/
def sysChdir (p : ProcId) (path : Option (List Byte)) : Return :=
  match path with
  | none => s.beginOp.fail
  | some path => do
    let r ← s.beginOp.namei ninodes p path
    match r with
    | (none, s) => s.fail
    | (some ip, s) =>
      let s ← s.ilock ip
      if (s.node ip).type ≠ .dir then s.failPut ip
      else
        let s ← s.iunlock ip
        let s ← s.iput (s.cwd p)
        .ok (some 0, { s.endOp with cwd := update s.cwd p ip })

end

/-! ### Sequences of calls -/

inductive Act
  | open (p : ProcId) (path : Option (List Byte)) (omode : UInt)
  | close (p : ProcId) (fd : ℤ)
  | link (p : ProcId) (old new : Option (List Byte))
  | unlink (p : ProcId) (path : Option (List Byte))
  | mkdir (p : ProcId) (path : Option (List Byte))
  | mknod (p : ProcId) (path : Option (List Byte)) (major minor : BitVec 16)
  | chdir (p : ProcId) (path : Option (List Byte))
  deriving DecidableEq, Repr

def exec (ninodes : ℕ) (s : Sysfile) : Act → Return
  | .open p path omode => s.sysOpen ninodes p path omode
  | .close p fd => s.sysClose p fd
  | .link p old new => s.sysLink ninodes p old new
  | .unlink p path => s.sysUnlink ninodes p path
  | .mkdir p path => s.sysMkdir ninodes p path
  | .mknod p path major minor => s.sysMknod ninodes p path major minor
  | .chdir p path => s.sysChdir ninodes p path

/-- The process of a call. -/
def Act.proc : Act → ProcId
  | .open p _ _ | .close p _ | .link p _ _ | .unlink p _ | .mkdir p _ | .mknod p _ _ _
  | .chdir p _ => p

def step (ninodes : ℕ) (s : Sysfile) (a : Act) : Option Sysfile :=
  if s.files.Alive a.proc then (s.exec ninodes a).toOption.map Prod.snd else none

end Sysfile
end Xv6
