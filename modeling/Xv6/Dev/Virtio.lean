import Xv6.Lib.Ring
import Xv6.Lib.Run
import Xv6.Param
import Xv6.Vm.UserMem

/-!
# The virtio disk driver (`kernel/virtio_disk.c`)

`virtio_disk_rw`, by any number of threads, `virtio_disk_intr` and the device.  A step of a thread
goes from one `sleep` or lock operation to the next; a step of the interrupt handler is one turn of
its loop.  `sleep` gives back the lock and puts the thread to sleep in one step.

At any moment the device may take the next head of a chain from the avail ring, or complete one that
it has taken, with status 0.  What the descriptors say about memory (`addr`, `len`, `ops`) is read
by the device only and left out.

A call is made for a buffer that no other call is made for at the time: callers hold its lock.
-/

namespace Xv6

open Function

/-- Number of descriptors. -/
def NUM : ℕ := 8

namespace Virtio

/-- `VRING_DESC_F_NEXT`. -/
def descNext : BitVec 16 := 1

/-- `VRING_DESC_F_WRITE`. -/
def descWrite : BitVec 16 := 2

/-- `struct virtq_desc`. -/
structure Desc where
  flags : BitVec 16
  next : ℕ
  deriving DecidableEq, Repr

/-- `disk.info[i]`. -/
structure Info (B : Type) where
  b : Option B
  status : Byte

/-- The descriptors of a request: `idx` of `virtio_disk_rw`. -/
structure Chain where
  i0 : ℕ
  i1 : ℕ
  i2 : ℕ
  deriving DecidableEq, Repr

def Chain.list (c : Chain) : List ℕ := [c.i0, c.i1, c.i2]

/-- Where a thread stands in `virtio_disk_rw`. -/
inductive Pos (B : Type)
  | idle
  | call (b : B) (write : Bool) -- `acquire(&disk.vdisk_lock)`
  | alloc (b : B) (write : Bool) -- `alloc3_desc`, with the lock
  | allocSleep (b : B) (write : Bool) -- Sleeping on `&disk.free[0]`
  | allocWoken (b : B) (write : Bool) -- Woken up, before `sleep` takes the lock again
  | wait (b : B) (c : Chain) -- `while(b->disk == 1)`, with the lock
  | waitSleep (b : B) (c : Chain) -- Sleeping on `b`
  | waitWoken (b : B) (c : Chain) -- Woken up, before `sleep` takes the lock again
  deriving DecidableEq

/-- Who has the lock: a call, or the interrupt handler. -/
inductive Holder (T : Type)
  | call (t : T)
  | intr
  deriving DecidableEq

inductive Panic
  | freeDesc1 -- `panic("free_desc 1")`
  | freeDesc2 -- `panic("free_desc 2")`
  | status -- `panic("virtio_disk_intr status")`
  | null -- A write through a null `struct buf`
  deriving DecidableEq, Repr

end Virtio

open Virtio in
/-- `disk`, with the threads of type `T`, the buffers of type `B`, and the device. -/
structure Virtio (T B : Type) where
  desc : ℕ → Desc
  free : ℕ → Bool
  avail : ℕ → ℕ -- `avail->ring` and `avail->idx`
  availIdx : BitVec 16
  used : ℕ → ℕ -- `used->ring[].id` and `used->idx`
  usedIdx : BitVec 16
  seen : BitVec 16 -- `disk.used_idx`
  info : ℕ → Info B
  disk : B → Bool -- `b->disk`
  lock : Option (Holder T)
  pos : T → Pos B
  devIdx : BitVec 16 -- How far the device has looked in the avail ring
  taken : List ℕ -- The heads that the device has taken and not completed
  completed : T → Bool -- The device has completed the request of the thread

namespace Virtio

inductive Act (T B : Type)
  | virtioDiskRw (t : T) (b : B) (write : Bool)
  | go (t : T) -- The next step of a thread
  | intr -- An interrupt: `virtio_disk_intr` up to its loop
  | handle -- The next step of the handler
  | take -- The device takes a head from the avail ring
  | complete (head : ℕ) -- The device completes the chain with this head
  | rouse (t : T) -- A thread is made runnable from outside

variable {T B : Type}

/-- After `virtio_disk_init`, or later when nothing is in flight: the rings are empty. -/
def start (a u : BitVec 16) : Virtio T B where
  desc _ := ⟨0, 0⟩
  free _ := true
  avail _ := 0
  availIdx := a
  used _ := 0
  usedIdx := u
  seen := u
  info _ := ⟨none, 0⟩
  disk _ := false
  lock := none
  pos _ := .idle
  devIdx := a
  taken := []
  completed _ := false

/-- The buffer of a call. -/
def Pos.buf : Pos B → Option B
  | .idle => none
  | .call b _ | .alloc b _ | .allocSleep b _ | .allocWoken b _ => some b
  | .wait b _ | .waitSleep b _ | .waitWoken b _ => some b

/-- The request of a call, once the device has been told. -/
def Pos.flight : Pos B → Option (B × Chain)
  | .wait b c | .waitSleep b c | .waitWoken b c => some (b, c)
  | _ => none

/-- What `wakeup(&disk.free[0])` does to a thread. -/
def Pos.wakeFree : Pos B → Pos B
  | .allocSleep b write => .allocWoken b write
  | p => p

/-- What `wakeup(b)` does to a thread. -/
def Pos.wakeBuf [DecidableEq B] (b : B) : Pos B → Pos B
  | .waitSleep b' c => if b' = b then .waitWoken b' c else .waitSleep b' c
  | p => p

/-! ### Descriptors -/

/-- `alloc_desc`. -/
def allocDesc (s : Virtio T B) : Option (ℕ × Virtio T B) :=
  ((List.range NUM).find? s.free).map fun i =>
    (i, { s with free := update s.free i false })

/-- `free_desc`. -/
def freeDesc (s : Virtio T B) (i : ℕ) : Except Panic (Virtio T B) :=
  if NUM ≤ i then .error .freeDesc1
  else if s.free i then .error .freeDesc2
  else .ok
    { s with
      desc := update s.desc i ⟨0, 0⟩
      free := update s.free i true
      pos := fun t => (s.pos t).wakeFree }

/-- `free_chain`.  A descriptor is freed in every turn, so `NUM` bounds the number of turns. -/
def freeChain : ℕ → Virtio T B → ℕ → Except Panic (Virtio T B)
  | 0, s, _ => .ok s
  | turns + 1, s, i =>
    let d := s.desc i
    (s.freeDesc i).bind fun s =>
      if d.flags &&& descNext ≠ 0 then freeChain turns s d.next else .ok s

/-- `alloc3_desc`. -/
def alloc3Desc (s : Virtio T B) : Except Panic (Option Chain × Virtio T B) :=
  match s.allocDesc with
  | none => .ok (none, s)
  | some (i0, s) =>
    match s.allocDesc with
    | none => (s.freeDesc i0).map fun s => (none, s)
    | some (i1, s) =>
      match s.allocDesc with
      | none => (s.freeDesc i0).bind fun s => (s.freeDesc i1).map fun s => (none, s)
      | some (i2, s) => .ok (some ⟨i0, i1, i2⟩, s)

/-! ### The driver -/

variable [DecidableEq T] [DecidableEq B]

def goto (s : Virtio T B) (t : T) (p : Pos B) : Virtio T B :=
  { s with pos := update s.pos t p }

/-- The descriptors of a request are written, and the device is told. -/
def publish (s : Virtio T B) (t : T) (b : B) (write : Bool) (c : Chain) : Virtio T B :=
  let desc := update s.desc c.i0 ⟨descNext, c.i1⟩
  let desc := update desc c.i1 ⟨(if write then 0 else descWrite) ||| descNext, c.i2⟩
  let desc := update desc c.i2 ⟨descWrite, 0⟩
  { s with
    desc := desc
    info := update s.info c.i0 ⟨some b, 0xff⟩
    disk := update s.disk b true
    avail := update s.avail (s.availIdx.toNat % NUM) c.i0
    availIdx := s.availIdx + 1
    completed := update s.completed t false }.goto t (.wait b c)

/-- The end of `virtio_disk_rw`. -/
def finish (s : Virtio T B) (t : T) (c : Chain) : Except Panic (Virtio T B) :=
  (freeChain NUM { s with info := update s.info c.i0 ⟨none, (s.info c.i0).status⟩ }
    c.i0).map fun s => { s with lock := none }.goto t .idle

/-- `acquire(&disk.vdisk_lock)` by a call. -/
def acquire (s : Virtio T B) (t : T) (p : Pos B) : Option (Virtio T B) :=
  if s.lock.isNone then some ({ s with lock := some (.call t) }.goto t p) else none

/-- The next step of a thread; `none` if it cannot make one. -/
def go (s : Virtio T B) (t : T) : Except Panic (Option (Virtio T B)) :=
  match s.pos t with
  | .call b write => .ok (s.acquire t (.alloc b write))
  | .alloc b write =>
    s.alloc3Desc.map fun r =>
      match r.1 with
      | some c => some (r.2.publish t b write c)
      | none => some ({ r.2 with lock := none }.goto t (.allocSleep b write))
  | .allocWoken b write => .ok (s.acquire t (.alloc b write))
  | .wait b c =>
    if s.disk b then .ok (some ({ s with lock := none }.goto t (.waitSleep b c)))
    else (s.finish t c).map some
  | .waitWoken b c => .ok (s.acquire t (.wait b c))
  | _ => .ok none

/-- A turn of the loop of `virtio_disk_intr`, or its end. -/
def handle (s : Virtio T B) : Except Panic (Virtio T B) :=
  if s.seen = s.usedIdx then .ok { s with lock := none }
  else
    let id := s.used (s.seen.toNat % NUM)
    if (s.info id).status ≠ 0 then .error .status
    else
      match (s.info id).b with
      | none => .error .null
      | some b => .ok
        { s with
          disk := update s.disk b false
          pos := fun t => (s.pos t).wakeBuf b
          seen := s.seen + 1 }

/-! ### The device -/

def take (s : Virtio T B) : Option (Virtio T B) :=
  if s.devIdx = s.availIdx then none
  else some
    { s with
      devIdx := s.devIdx + 1
      taken := s.avail (s.devIdx.toNat % NUM) :: s.taken }

/-- The status byte of a chain is that of its head. -/
def complete (s : Virtio T B) (head : ℕ) : Option (Virtio T B) :=
  if head ∈ s.taken then some
    { s with
      info := update s.info head ⟨(s.info head).b, 0⟩
      used := update s.used (s.usedIdx.toNat % NUM) head
      usedIdx := s.usedIdx + 1
      taken := s.taken.erase head
      completed := fun t =>
        if (s.pos t).flight.map (fun r => r.2.i0) = some head then true else s.completed t }
  else none

/-- A step: the state afterwards, `none` if it is not enabled, or a panic. -/
def exec (s : Virtio T B) : Act T B → Except Panic (Option (Virtio T B))
  | .virtioDiskRw t b write =>
    .ok (if s.pos t = .idle then some (s.goto t (.call b write)) else none)
  | .go t => s.go t
  | .intr => .ok (if s.lock.isNone then some { s with lock := some .intr } else none)
  | .handle => if s.lock = some .intr then s.handle.map some else .ok none
  | .take => .ok s.take
  | .complete head => .ok (s.complete head)
  | .rouse t =>
    .ok (match s.pos t with
      | .allocSleep b write => some (s.goto t (.allocWoken b write))
      | .waitSleep b c => some (s.goto t (.waitWoken b c))
      | _ => none)

def step (s : Virtio T B) (a : Act T B) : Option (Virtio T B) := (s.exec a).toOption.join

/-- Callers hold the lock of the buffer: no other call is made for it. -/
def OwnBuffer (s : Virtio T B) : Act T B → Prop
  | .virtioDiskRw _ b _ => ∀ u, (s.pos u).buf ≠ some b
  | _ => True

end Virtio
end Xv6
