import Xv6.Lib.Dlist
import Xv6.Lib.Run
import Xv6.Param

/-!
# The buffer cache (`kernel/bio.c`)

The buffers, the list of them in order of use, and the calls of any number of threads.  What a
thread does with `bcache.lock` is one step; taking the sleep-lock of a buffer is another, and so is
a transfer to or from the disk.  `virtio_disk_rw` does not look at `b->dev`: there is one disk.

`pins` and `written` are not in the source: the pins that have not been taken back, and the last
data that was put into a buffer since it was recycled for its block.
-/

namespace Xv6

open Function

namespace Bio

abbrev BufId := Fin NBUF

/-- A node of the list: a buffer, or `none` for `bcache.head`. -/
abbrev Node := Option BufId

/-- What a buffer is for: `b->dev` and `b->blockno`. -/
structure Key where
  dev : BitVec 32
  blockno : BitVec 32
  deriving DecidableEq, Repr

/-- `struct buf`, without its lock and its links. -/
structure Buf (D : Type) where
  valid : Bool
  key : Key
  refcnt : ℕ
  data : D

/-- Where a thread stands. -/
inductive Pos
  | user -- Outside of the cache
  | lockWait (b : BufId) (k : Key) -- `bget`: `acquiresleep(&b->lock)`
  | got (b : BufId) (k : Key) -- `bread`: `if(!b->valid)`
  | read (b : BufId) (k : Key) -- `bread`: `virtio_disk_rw(b, 0)`
  | filled (b : BufId) (k : Key) -- `bread`: `b->valid = 1`
  | write (b : BufId) -- `bwrite`: `virtio_disk_rw(b, 1)`
  | released (b : BufId) -- `brelse`, after `releasesleep(&b->lock)`
  deriving DecidableEq

inductive Panic
  | noBuffers -- `panic("bget: no buffers")`
  | bwrite -- `panic("bwrite")`
  | brelse -- `panic("brelse")`
  | runaway -- A loop over the list goes on for more than `NBUF` turns
  deriving DecidableEq, Repr

end Bio

open Bio in
/-- `bcache`, with threads of type `T` and blocks of type `D`. -/
structure Bcache (T D : Type) where
  buf : BufId → Buf D
  link : Dlist.Links Node
  locked : BufId → Option T -- The thread that has the sleep-lock
  disk : BitVec 32 → D
  pos : T → Pos
  pins : BufId → ℕ
  written : BufId → Option D

namespace Bcache

open Bio

inductive Act (T D : Type)
  | bread (t : T) (k : Key)
  | go (t : T) -- The next step of a thread
  | bwrite (t : T) (b : BufId)
  | brelse (t : T) (b : BufId)
  | bpin (t : T) (b : BufId)
  | bunpin (t : T) (b : BufId)
  | store (t : T) (b : BufId) (d : D) -- A thread that has the lock changes `b->data`

variable {T D : Type}

/-- The links after `binit`. -/
def binit : Dlist.Links Node :=
  (List.finRange NBUF).foldl (fun k b => k.insert none (some b)) ⟨fun _ => none, fun _ => none⟩

/-- After `binit`, with what is in memory and on the disk. -/
def start (data : BufId → D) (disk : BitVec 32 → D) : Bcache T D where
  buf b := ⟨false, ⟨0, 0⟩, 0, data b⟩
  link := binit
  locked _ := none
  disk := disk
  pos _ := .user
  pins _ := 0
  written _ := none

/-- A loop over the list, from the head along `link`. -/
def find (link : Node → Node) (p : BufId → Bool) : Option (Option BufId) :=
  (Dlist.scan link none (fun x => x.any p) (NBUF + 1) (link none)).map Option.join

variable [DecidableEq T]

def goto (s : Bcache T D) (t : T) (p : Pos) : Bcache T D :=
  { s with pos := update s.pos t p }

def setBuf (s : Bcache T D) (b : BufId) (v : Buf D) : Bcache T D :=
  { s with buf := update s.buf b v }

/-- `bget`, up to `acquiresleep`. -/
def bget (s : Bcache T D) (t : T) (k : Key) : Except Panic (Bcache T D) :=
  match find s.link.next fun b => (s.buf b).key = k with
  | none => .error .runaway
  | some (some b) =>
    .ok ((s.setBuf b { s.buf b with refcnt := (s.buf b).refcnt + 1 }).goto t (.lockWait b k))
  | some none =>
    match find s.link.prev fun b => (s.buf b).refcnt = 0 with
    | none => .error .runaway
    | some (some b) =>
      .ok ({ s.setBuf b ⟨false, k, 1, (s.buf b).data⟩ with
        written := update s.written b none }.goto t (.lockWait b k))
    | some none => .error .noBuffers

/-- The end of `brelse`, with `bcache.lock`. -/
def release (s : Bcache T D) (t : T) (b : BufId) : Bcache T D :=
  let n := (s.buf b).refcnt - 1
  let s := (s.setBuf b { s.buf b with refcnt := n }).goto t .user
  if n = 0 then { s with link := (s.link.unlink (some b)).insert none (some b) } else s

/-- The next step of a thread; `none` if it cannot make one. -/
def go (s : Bcache T D) (t : T) : Option (Bcache T D) :=
  match s.pos t with
  | .user => none
  | .lockWait b k =>
    if s.locked b = none then
      some ({ s with locked := update s.locked b (some t) }.goto t (.got b k))
    else none
  | .got b k => some (s.goto t (if (s.buf b).valid then .user else .read b k))
  | .read b k =>
    some ((s.setBuf b { s.buf b with data := s.disk (s.buf b).key.blockno }).goto t (.filled b k))
  | .filled b _ => some ((s.setBuf b { s.buf b with valid := true }).goto t .user)
  | .write b =>
    some ({ s with
      disk := update s.disk (s.buf b).key.blockno (s.buf b).data }.goto t .user)
  | .released b => some (s.release t b)

/-- A step: the state afterwards, `none` if it is not enabled, or a panic. -/
def exec (s : Bcache T D) : Act T D → Except Panic (Option (Bcache T D))
  | .bread t k => if s.pos t = .user then (s.bget t k).map some else .ok none
  | .go t => .ok (s.go t)
  | .bwrite t b =>
    if s.pos t ≠ .user then .ok none
    else if s.locked b ≠ some t then .error .bwrite
    else .ok (some (s.goto t (.write b)))
  | .brelse t b =>
    if s.pos t ≠ .user then .ok none
    else if s.locked b ≠ some t then .error .brelse
    else .ok (some ({ s with locked := update s.locked b none }.goto t (.released b)))
  | .bpin t b =>
    .ok (if s.pos t = .user then
      some { s.setBuf b { s.buf b with refcnt := (s.buf b).refcnt + 1 } with
        pins := update s.pins b (s.pins b + 1) }
    else none)
  | .bunpin t b =>
    .ok (if s.pos t = .user then
      some { s.setBuf b { s.buf b with refcnt := (s.buf b).refcnt - 1 } with
        pins := update s.pins b (s.pins b - 1) }
    else none)
  | .store t b d =>
    .ok (if s.pos t = .user ∧ s.locked b = some t then
      some { s.setBuf b { s.buf b with data := d } with
        written := update s.written b (some d) }
    else none)

def step (s : Bcache T D) (a : Act T D) : Option (Bcache T D) := (s.exec a).toOption.join

/-- Only pins that were made are taken back. -/
def Releases (s : Bcache T D) : Act T D → Prop
  | .bunpin _ b => 0 < s.pins b
  | _ => True

end Bcache
end Xv6
