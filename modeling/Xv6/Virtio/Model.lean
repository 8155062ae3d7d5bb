import Xv6.Machine.Basic
import Xv6.Machine.Run

/-! The disk driver and the disk (`kernel/virtio_disk.c`).

The driver and the disk share descriptors and two rings: in `avail` the driver puts the first
descriptor of each request, in `used` the disk puts it back when it is done. Processes and the
interrupt handler run the driver under `vdisk_lock`. The disk runs on its own, so that the driver is
cut into steps wherever the disk could see a difference. A process that sleeps may be woken at any
time. A caller holds the lock of its buffer (`bread` and `bwrite`).

Requests are numbered, and an entry of a ring carries the number, which neither side reads. -/
namespace Xv6.Virtio

open Function (update)

def num : ℕ := 8

/-- The indices of the rings are `uint16`. -/
def next16 (idx : ℕ) : ℕ := (idx + 1) % 2 ^ 16

/-- What a descriptor points to. -/
inductive Addr where
  | null
  | op (i : ℕ)
  | data (b : ℕ)
  | status (i : ℕ)
  deriving DecidableEq, Repr

def descNext : ℕ := 1

def descWrite : ℕ := 2

structure Desc where
  addr : Addr
  len : ℕ
  flags : ℕ
  next : ℕ
  deriving DecidableEq

structure Op where
  write : Bool
  sector : ℕ
  deriving DecidableEq

/-- An entry of a ring: the first descriptor, and the request it belongs to. -/
structure Entry where
  id : ℕ
  number : ℕ
  deriving DecidableEq, Repr

/-- A call of `virtio_disk_rw` that has descriptors. -/
structure Request where
  b : ℕ
  idx0 : ℕ
  idx1 : ℕ
  idx2 : ℕ
  number : ℕ
  deriving DecidableEq

def Request.chain (r : Request) : List ℕ := [r.idx0, r.idx1, r.idx2]

def Request.desc0 (r : Request) : Desc := ⟨.op r.idx0, 16, descNext, r.idx1⟩

def Request.desc1 (r : Request) (write : Bool) : Desc :=
  ⟨.data r.b, 1024, (if write then 0 else descWrite) ||| descNext, r.idx2⟩

def Request.desc2 (r : Request) : Desc := ⟨.status r.idx0, 1, descWrite, 0⟩

def Request.entry (r : Request) : Entry := ⟨r.idx0, r.number⟩

/-- Where a process is in `virtio_disk_rw`. -/
inductive Pc where
  | idle
  /-- Before `acquire`, or asleep until there are free descriptors. -/
  | entering (b : ℕ) (write : Bool)
  | allocating (b : ℕ) (write : Bool)
  /-- Before the descriptors are written. -/
  | formatting (r : Request) (write : Bool)
  /-- Before `avail->idx` is incremented. -/
  | publishing (r : Request)
  /-- Before `b->disk` is tested. -/
  | waiting (r : Request)
  | sleeping (r : Request)
  deriving DecidableEq

inductive Holder where
  | proc (p : ℕ)
  | intr
  deriving DecidableEq

/-- The two rings, and how far each side has come in them. -/
structure Rings where
  availRing : ℕ → Entry
  availIdx : ℕ
  /-- How far the disk has looked in `avail`. -/
  deviceIdx : ℕ
  /-- The requests the disk works on. -/
  pending : List Entry
  usedRing : ℕ → Entry
  usedIdx : ℕ
  /-- `disk.used_idx`: how far the driver has looked in `used`. -/
  seenIdx : ℕ
  /-- What was put in `avail`, what the disk took from it, what the disk has finished and what
  the driver has seen of that, all in order. -/
  published : List Entry
  taken : List Entry
  finished : List Entry
  handled : List Entry

structure State where
  rings : Rings
  desc : ℕ → Desc
  free : ℕ → Bool
  infoBuf : ℕ → ℕ
  infoStatus : ℕ → ℕ
  ops : ℕ → Op
  blockno : ℕ → ℕ
  disk : ℕ → Bool
  /-- Who holds the lock of a buffer. -/
  locked : ℕ → Option ℕ
  lock : Option Holder
  pc : ℕ → Pc
  count : ℕ
  returned : List ℕ

/-! ### The rings -/

namespace Rings

/-- The driver writes the next entry of `avail`. -/
def stage (g : Rings) (e : Entry) : Rings := {g with availRing := update g.availRing (g.availIdx % num) e}

def publish (g : Rings) (e : Entry) : Rings :=
  {g with availIdx := next16 g.availIdx, published := g.published ++ [e]}

/-- The disk looks at the next entry of `avail`. -/
def take (g : Rings) : Rings :=
  if g.deviceIdx ≠ g.availIdx then
    let e := g.availRing (g.deviceIdx % num)
    {g with deviceIdx := next16 g.deviceIdx, pending := e :: g.pending, taken := g.taken ++ [e]}
  else g

def complete (g : Rings) (e : Entry) : Rings :=
  {g with
    usedRing := update g.usedRing (g.usedIdx % num) e
    usedIdx := next16 g.usedIdx
    pending := g.pending.erase e
    finished := g.finished ++ [e]}

def see (g : Rings) (e : Entry) : Rings := {g with seenIdx := next16 g.seenIdx, handled := g.handled ++ [e]}

end Rings

inductive Stop where
  | panic (message : String)
  | nullPointer
  | diverges
  deriving DecidableEq, Repr

namespace State

def goto (s : State) (p : ℕ) (pc : Pc) : State := {s with pc := update s.pc p pc}

/-! ### Descriptors -/

def allocDesc (s : State) : Option (ℕ × State) :=
  match (List.range num).find? s.free with
  | some i => some (i, {s with free := update s.free i false})
  | none => none

def freeDesc (i : ℕ) (s : State) : Except Stop State :=
  if i ≥ num then .error (.panic "free_desc 1")
  else if s.free i then .error (.panic "free_desc 2")
  else .ok {s with desc := update s.desc i ⟨.null, 0, 0, 0⟩, free := update s.free i true}

/-- The descriptors allocated so far are freed again. -/
def freeAll : List ℕ → State → Except Stop State
  | [], s => .ok s
  | i :: is, s => do
    let s ← s.freeDesc i
    freeAll is s

/-- The loop of `alloc3_desc`: `n` more descriptors after `idx`. -/
def allocLoop : ℕ → List ℕ → State → Except Stop (Option (List ℕ) × State)
  | 0, idx, s => .ok (some idx, s)
  | n + 1, idx, s =>
    match s.allocDesc with
    | some (i, s) => allocLoop n (idx ++ [i]) s
    | none => do
      let s ← freeAll idx s
      return (none, s)

def freeChain : ℕ → ℕ → State → Except Stop State
  | 0, _, _ => .error .diverges
  | fuel + 1, i, s => do
    let flag := (s.desc i).flags
    let nxt := (s.desc i).next
    let s ← s.freeDesc i
    if flag &&& descNext ≠ 0 then freeChain fuel nxt s else .ok s

/-! ### `virtio_disk_rw` -/

/-- `alloc3_desc`; without descriptors the process sleeps. -/
def alloc (s : State) (p b : ℕ) (write : Bool) : Except Stop State := do
  match ← allocLoop 3 [] s with
  | (some [i, j, k], s) => return {s with count := s.count + 1}.goto p (.formatting ⟨b, i, j, k, s.count⟩ write)
  | (_, s) => return {s with lock := none}.goto p (.entering b write)

/-- The three descriptors and the bookkeeping are written, and the entry in `avail`. -/
def format (s : State) (p : ℕ) (r : Request) (write : Bool) : State :=
  let s := {s with ops := update s.ops r.idx0 ⟨write, s.blockno r.b * 2 % 2 ^ 32⟩}
  let s := {s with desc := update s.desc r.idx0 r.desc0}
  let s := {s with desc := update s.desc r.idx1 (r.desc1 write)}
  let s := {s with infoStatus := update s.infoStatus r.idx0 0xff}
  let s := {s with desc := update s.desc r.idx2 r.desc2}
  let s := {s with disk := update s.disk r.b true, infoBuf := update s.infoBuf r.idx0 r.b}
  let s := {s with rings := s.rings.stage r.entry}
  s.goto p (.publishing r)

def publish (s : State) (p : ℕ) (r : Request) : State :=
  {s with rings := s.rings.publish r.entry}.goto p (.waiting r)

/-- `while(b->disk == 1) sleep(b, &disk.vdisk_lock)`, once around, and what comes after it. -/
def test (s : State) (p : ℕ) (r : Request) : Except Stop State :=
  if s.disk r.b then .ok ({s with lock := none}.goto p (.sleeping r))
  else do
    let s := {s with infoBuf := update s.infoBuf r.idx0 0}
    let s ← freeChain loopFuel r.idx0 s
    return {s with lock := none, returned := r.number :: s.returned}.goto p .idle

/-! ### The interrupt handler -/

def intrLoop (s : State) : Except Stop State :=
  if s.rings.seenIdx ≠ s.rings.usedIdx then
    let e := s.rings.usedRing (s.rings.seenIdx % num)
    if s.infoStatus e.id ≠ 0 then .error (.panic "virtio_disk_intr status")
    else
      let b := s.infoBuf e.id
      if b = 0 then .error .nullPointer
      else .ok {s with disk := update s.disk b false, rings := s.rings.see e}
  else .ok {s with lock := none}

/-! ### The disk -/

/-- Where the last descriptor of a chain wants the status. -/
def statusAddr (s : State) (id : ℕ) : Addr := (s.desc (s.desc (s.desc id).next).next).addr

def setStatus (s : State) : Addr → State
  | .status i => {s with infoStatus := update s.infoStatus i 0}
  | _ => s

def complete (s : State) (e : Entry) : State :=
  let s := s.setStatus (s.statusAddr e.id)
  {s with rings := s.rings.complete e}

end State

/-! ### Interleavings -/

inductive Call where
  /-- A process takes the lock of a buffer, or gives it back. -/
  | lockBuf (p b : ℕ)
  | unlockBuf (p b : ℕ)
  | virtioDiskRw (p b : ℕ) (write : Bool)
  /-- A process gets `vdisk_lock`, from `acquire` or from `sleep`. -/
  | acquire (p : ℕ)
  /-- A process that has the lock goes on. -/
  | go (p : ℕ)
  /-- An interrupt: the handler gets the lock. -/
  | intr
  | goIntr
  | take
  | complete (e : Entry)

def Pc.entered : Pc → Pc
  | .entering b write => .allocating b write
  | .sleeping r => .waiting r
  | pc => pc

/-- The process is before `acquire`, or in `sleep`. -/
def Pc.wantsLock : Pc → Bool
  | .entering _ _ | .sleeping _ => true
  | _ => false

def Pc.hasLock : Pc → Bool
  | .allocating _ _ | .formatting _ _ | .publishing _ | .waiting _ => true
  | _ => false

def State.go (s : State) (p : ℕ) : Except Stop State :=
  match s.pc p with
  | .allocating b write => s.alloc p b write
  | .formatting r write => .ok (s.format p r write)
  | .publishing r => .ok (s.publish p r)
  | .waiting r => s.test p r
  | _ => .ok s

def step (s : State) : Call → Except Stop State
  | .lockBuf p b => .ok {s with locked := update s.locked b (some p)}
  | .unlockBuf _ b => .ok {s with locked := update s.locked b none}
  | .virtioDiskRw p b write => .ok (s.goto p (.entering b write))
  | .acquire p => .ok ({s with lock := some (.proc p)}.goto p (s.pc p).entered)
  | .go p => s.go p
  | .intr => .ok {s with lock := some .intr}
  | .goIntr => s.intrLoop
  | .take => .ok {s with rings := s.rings.take}
  | .complete e => .ok (s.complete e)

/-- A lock is taken when it is free, a process calls with a buffer it has locked, and the disk
finishes what it has taken. -/
def allowed (s : State) : Call → Prop
  | .lockBuf p b => b ≠ 0 ∧ s.locked b = none ∧ s.pc p = .idle
  | .unlockBuf p b => s.locked b = some p ∧ s.pc p = .idle
  | .virtioDiskRw p b _ => s.locked b = some p ∧ s.pc p = .idle
  | .acquire p => s.lock = none ∧ (s.pc p).wantsLock = true
  | .go p => (s.pc p).hasLock = true
  | .intr => s.lock = none
  | .goIntr => s.lock = some .intr
  | .take => True
  | .complete e => e ∈ s.rings.pending

def driver : Protocol Stop State Call := ⟨step, allowed⟩

def Rings.init : Rings := ⟨fun _ => ⟨0, 0⟩, 0, 0, [], fun _ => ⟨0, 0⟩, 0, 0, [], [], [], []⟩

def init (blockno : ℕ → ℕ) : State where
  rings := .init
  desc _ := ⟨.null, 0, 0, 0⟩
  free i := i < num
  infoBuf _ := 0
  infoStatus _ := 0
  ops _ := ⟨false, 0⟩
  blockno := blockno
  disk _ := false
  locked _ := none
  lock := none
  pc _ := .idle
  count := 0
  returned := []

end Xv6.Virtio
