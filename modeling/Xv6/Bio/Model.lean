import Xv6.Linked.Ring
import Xv6.Log.Model

/-! The buffer cache (`kernel/bio.c`).

A buffer is a record in memory, on a ring through `bcache.head`. What `bget`, `brelse`,
`bpin` and `bunpin` do while they hold `bcache.lock` is one function each. Buffers are
objects of the slab cache `buf_cache`: the address that `kmem_cache_alloc` returns is an
argument, and `live` and `freed` record what was allocated and freed. There is one disk;
`virtio_disk_rw` looks at the block number only. -/
namespace Xv6.Bio
open Function (update)
open Linked

def nbuf : ℕ := Log.maxOpBlocks * 3

abbrev Block := ℕ → ℕ

structure Buf where
  /-- The data was read from disk. -/
  valid : Bool
  dev : ℕ
  blockno : ℕ
  /-- The process that has the sleep lock, if it is locked. -/
  lock : Option ℕ
  refcnt : ℕ
  data : Block

namespace Buf

/-- A buffer after `memset` and `initsleeplock`. -/
def zero : Buf := ⟨false, 0, 0, none, 0, fun _ => 0⟩

def ref (buf : Buf) : Buf := {buf with refcnt := buf.refcnt + 1}

def unref (buf : Buf) : Buf := {buf with refcnt := buf.refcnt - 1}

/-- For another block, with one reference. -/
def assign (dev blockno : ℕ) (buf : Buf) : Buf :=
  {buf with dev := dev, blockno := blockno, valid := false, refcnt := 1}

def setLock (lock : Option ℕ) (buf : Buf) : Buf := {buf with lock := lock}

def setData (data : Block) (buf : Buf) : Buf := {buf with data := data}

def fill (disk : ℕ → Block) (buf : Buf) : Buf :=
  {buf with valid := true, data := disk buf.blockno}

end Buf

inductive Panic where
  | bufCache | binitAlloc | bgetNoMemory | bwrite | brelse
  deriving DecidableEq, Repr

inductive Stop where
  | panic (p : Panic)
  | diverges
  deriving DecidableEq, Repr

structure Bcache where
  links : Links ℕ
  bufs : ℕ → Buf
  count : ℕ
  disk : ℕ → Block
  /-- The buffers that were allocated and not freed. -/
  live : List ℕ
  /-- The buffers that were freed, as they were then. -/
  freed : List Buf

namespace Bcache

variable (head : ℕ)

def setBuf (c : Bcache) (b : ℕ) (f : Buf → Buf) : Bcache :=
  {c with bufs := update c.bufs b (f (c.bufs b))}

/-- A buffer just allocated goes to the front. -/
def insert (c : Bcache) (b : ℕ) (buf : Buf) : Bcache :=
  {c with
    links := c.links.insertAfter head b
    bufs := update c.bufs b buf
    live := b :: c.live}

/-- The loop of `binit`, over what `kmem_cache_alloc` returns. -/
def binitLoop : List ℕ → Bcache → Except Stop Bcache
  | [], c => .ok c
  | b :: allocs, c =>
    if b = 0 then .error (.panic .binitAlloc) else binitLoop allocs (c.insert head b .zero)

def binit (bufCache : ℕ) (allocs : List ℕ) (c : Bcache) : Except Stop Bcache := do
  let links := ⟨update c.links.next head head, update c.links.prev head head⟩
  if bufCache = 0 then .error (.panic .bufCache)
  else
    let c ← binitLoop head allocs {c with links := links}
    return {c with count := nbuf}

/-- `bget` up to the sleep lock: the buffer to lock. -/
def bget (dev blockno alloc : ℕ) (c : Bcache) : Except Stop (ℕ × Bcache) :=
  -- Is the block already cached?
  match search c.links.next head (fun b => (c.bufs b).dev = dev ∧ (c.bufs b).blockno = blockno)
      loopFuel (c.links.next head) with
  | none => .error .diverges
  | some (some b) => .ok (b, c.setBuf b Buf.ref)
  | some none =>
    -- Recycle the least recently used unused buffer.
    match search c.links.prev head (fun b => (c.bufs b).refcnt = 0) loopFuel (c.links.prev head) with
    | none => .error .diverges
    | some (some b) =>
      .ok (b, c.setBuf b (Buf.assign dev blockno))
    | some none =>
      -- Grow the cache.
      if alloc = 0 then .error (.panic .bgetNoMemory)
      else
        .ok (alloc, {c.insert head alloc (Buf.zero.assign dev blockno) with count := c.count + 1})

def fill (b : ℕ) (c : Bcache) : Bcache :=
  if (c.bufs b).valid then c
  else c.setBuf b (Buf.fill c.disk)

def write (b : ℕ) (c : Bcache) : Bcache :=
  {c with disk := update c.disk (c.bufs b).blockno (c.bufs b).data}

/-- The loop of `brelse` takes `t` off the ring and frees it. -/
def free (t : ℕ) (c : Bcache) : Bcache :=
  {c with
    links := c.links.unlink t
    count := c.count - 1
    live := c.live.erase t
    freed := c.freed ++ [c.bufs t]}

/-- The loop of `brelse`, which frees the least recently used buffers beyond `NBUF`. -/
def shrink (b : ℕ) : ℕ → Bcache → Except Stop Bcache
  | 0, _ => .error .diverges
  | fuel + 1, c =>
    if c.count > nbuf then
      let t := c.links.prev head
      if t = head ∨ t = b ∨ (c.bufs t).refcnt ≠ 0 then .ok c else shrink b fuel (c.free t)
    else .ok c

/-- `brelse` after the sleep lock is released. -/
def brelse (b : ℕ) (c : Bcache) : Except Stop Bcache :=
  let c := c.setBuf b Buf.unref
  if (c.bufs b).refcnt = 0 then
    shrink head b loopFuel {c with links := (c.links.unlink b).insertAfter head b}
  else .ok c

def bpin (b : ℕ) (c : Bcache) : Bcache := c.setBuf b Buf.ref

def bunpin (b : ℕ) (c : Bcache) : Bcache := c.setBuf b Buf.unref

end Bcache

/-! ### Processes -/

inductive Pc where
  | running
  /-- In `bget`, waiting for the sleep lock. -/
  | waiting (b : ℕ)
  /-- In `bread`, with the lock. -/
  | reading (b : ℕ)
  /-- In `brelse`, without the lock. -/
  | releasing (b : ℕ)
  deriving DecidableEq

/-- The buffer that a process has a reference to, but not the lock of. -/
def Pc.target : Pc → Option ℕ
  | .waiting b | .releasing b => some b
  | .running | .reading _ => none

structure Sys where
  cache : Bcache
  pc : ℕ → Pc
  /-- How often each buffer was pinned and not unpinned. -/
  pins : ℕ → ℕ

inductive Event where
  | bget (p dev blockno alloc : ℕ)
  | acquiresleep (p : ℕ)
  | fill (p : ℕ)
  | modify (p b : ℕ) (data : Block)
  | bwrite (p b : ℕ)
  /-- The first half of `brelse`. -/
  | releasesleep (p b : ℕ)
  /-- The second half. -/
  | brelse (p : ℕ)
  | bpin (p b : ℕ)
  | bunpin (p b : ℕ)

namespace Sys

variable (head : ℕ)

def start (c : Bcache) : Sys := ⟨c, fun _ => .running, fun _ => 0⟩

def goto (s : Sys) (p : ℕ) (pc : Pc) : Sys := {s with pc := update s.pc p pc}

def withCache (s : Sys) (c : Bcache) : Sys := {s with cache := c}

def step (s : Sys) : Event → Except Stop Sys
  | .bget p dev blockno alloc => do
    let (b, c) ← Bcache.bget head dev blockno alloc s.cache
    return (s.withCache c).goto p (.waiting b)
  | .acquiresleep p =>
    match s.pc p with
    | .waiting b =>
      if (s.cache.bufs b).lock = none then
        .ok ((s.withCache (s.cache.setBuf b (Buf.setLock (some p)))).goto p (.reading b))
      else .ok s
    | _ => .ok s
  | .fill p =>
    match s.pc p with
    | .reading b => .ok ((s.withCache (s.cache.fill b)).goto p .running)
    | _ => .ok s
  | .modify _ b data => .ok (s.withCache (s.cache.setBuf b (Buf.setData data)))
  | .bwrite p b =>
    if (s.cache.bufs b).lock = some p then .ok (s.withCache (s.cache.write b))
    else .error (.panic .bwrite)
  | .releasesleep p b =>
    if (s.cache.bufs b).lock = some p then
      .ok ((s.withCache (s.cache.setBuf b (Buf.setLock none))).goto p (.releasing b))
    else .error (.panic .brelse)
  | .brelse p =>
    match s.pc p with
    | .releasing b => do
      let c ← Bcache.brelse head b s.cache
      return (s.withCache c).goto p .running
    | _ => .ok s
  | .bpin _ b =>
    .ok {s with cache := s.cache.bpin b, pins := update s.pins b (s.pins b + 1)}
  | .bunpin _ b =>
    .ok {s with cache := s.cache.bunpin b, pins := update s.pins b (s.pins b - 1)}

def Holds (s : Sys) (p b : ℕ) : Prop :=
  s.pc p = .running ∧ b ∈ s.cache.live ∧ (s.cache.bufs b).lock = some p
deriving Decidable

/-- What `kmem_cache_alloc` may return: null, or an object that is not in use. -/
def Fresh (s : Sys) (alloc : ℕ) : Prop :=
  alloc ≠ 0 → alloc ≠ head ∧ alloc ∉ s.cache.live ∧ alloc < 2 ^ 64
deriving Decidable

/-- Processes are numbered below `n`; they change, write, release and pin buffers that they
hold, and unpin buffers that are pinned. -/
def allowed (n : ℕ) (s : Sys) : Event → Prop
  | .bget p _ _ alloc => p < n ∧ s.pc p = .running ∧ s.Fresh head alloc
  | .acquiresleep p | .fill p | .brelse p => p < n
  | .modify p b _ | .bwrite p b | .releasesleep p b | .bpin p b => p < n ∧ s.Holds p b
  | .bunpin p b => p < n ∧ 0 < s.pins b

instance (n : ℕ) (s : Sys) : ∀ e, Decidable (s.allowed head n e)
  | .bget _ _ _ _ => inferInstanceAs (Decidable (_ ∧ _))
  | .acquiresleep _ | .fill _ | .brelse _ => inferInstanceAs (Decidable (_ < _))
  | .modify _ _ _ | .bwrite _ _ | .releasesleep _ _ | .bpin _ _ | .bunpin _ _ =>
    inferInstanceAs (Decidable (_ ∧ _))

end Sys

/-- `n` processes that use buffers, in any order. -/
def buffers (head n : ℕ) : Protocol Stop Sys Event := ⟨Sys.step head, Sys.allowed head n⟩

instance (head n : ℕ) (s : Sys) (e : Event) : Decidable ((buffers head n).allowed s e) :=
  inferInstanceAs (Decidable (s.allowed head n e))

end Xv6.Bio
