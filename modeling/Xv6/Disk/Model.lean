import Xv6.Bio.Coherent
import Xv6.Log.Crash
import Xv6.Log.GroupCommit

/-! The buffer cache and the log together.

Processes read, change and release buffers, and run operations. What they have changed
they give to `log_write` or to `bwrite` before they release it. The process whose `end_op`
finds no other operation commits: it calls `bread`, `bwrite`, `bunpin` and `brelse` as
`write_log`, `write_head` and `install_trans` do, one call after another, while other
processes go on. There is one device. -/
namespace Xv6.Disk
open Function (update)
open Bio
open Log (Stage)

/-- The two buffers that the commit works with: `to`, `lbuf` and `buf`, and `from` and
`dbuf`. -/
inductive Reg where
  | lbuf | dbuf
  deriving DecidableEq

/-- The calls of `write_log`, `write_head` and `install_trans`. -/
inductive Call where
  | bread (r : Reg) (blockno : ℕ)
  | memmove (dst src : Reg)
  /-- `write_head` copies `log.lh` to the buffer. -/
  | putHead (r : Reg)
  | bwrite (r : Reg)
  | bunpin (r : Reg)
  | brelse (r : Reg)
  deriving DecidableEq

def writeLog (start tail b : ℕ) : List Call :=
  [.bread .lbuf (start + tail + 1), .bread .dbuf b, .memmove .lbuf .dbuf, .bwrite .lbuf, .brelse .dbuf,
    .brelse .lbuf]

def writeHead (start : ℕ) : List Call :=
  [.bread .lbuf start, .putHead .lbuf, .bwrite .lbuf, .brelse .lbuf]

def installTrans (start tail b : ℕ) : List Call :=
  [.bread .lbuf (start + tail + 1), .bread .dbuf b, .memmove .dbuf .lbuf, .bwrite .dbuf, .bunpin .dbuf,
    .brelse .lbuf, .brelse .dbuf]

def calls (start : ℕ) (lh : List ℕ) : Stage → List Call
  | .writeLog tail =>
    match lh[tail]? with
    | some b => writeLog start tail b
    | none => []
  | .writeHead => writeHead start
  | .installTrans tail =>
    match lh[tail]? with
    | some b => installTrans start tail b
    | none => []
  | .test | .erase | .finish => []

/-- What a commit calls after a stage. `log.lh.n = 0` is before the second `write_head`. -/
def callsAfter (start : ℕ) (lh : List ℕ) : Stage → List Call
  | .erase => writeHead start
  | .finish => []
  | stage => calls start lh (stage.next lh.length)

inductive Stop where
  | bio (e : Bio.Stop)
  | log (e : Log.Panic)
  deriving DecidableEq

structure Sys where
  bio : Watched
  log : Log.Sys
  /-- What a commit has still to call in its stage. -/
  todo : ℕ → List Call
  reg : ℕ → Reg → ℕ
  /-- What was released last for each block, but for releases by commits. -/
  home : ℕ → Block

inductive Event where
  | bread (p blockno alloc : ℕ)
  | acquiresleep (p : ℕ)
  | fill (p : ℕ)
  | modify (p b : ℕ) (data : Block)
  | bwrite (p b : ℕ)
  | logWrite (p b : ℕ)
  /-- The first half of `brelse`. -/
  | releasesleep (p b : ℕ)
  /-- The second half. -/
  | brelse (p : ℕ)
  | beginOp (p : ℕ)
  | endOp (p : ℕ)
  /-- A commit has done all calls of its stage. -/
  | next (p : ℕ)
  | call (p alloc : ℕ)

namespace Sys

variable (head dev start n : ℕ)

def use (s : Sys) (e : Bio.Event) : Except Stop Sys :=
  match s.bio.step head e with
  | .ok bio => .ok {s with bio := bio}
  | .error e => .error (.bio e)

def advance (s : Sys) (e : Log.Event) : Except Stop Sys :=
  match s.log.step e with
  | .ok log => .ok {s with log := log}
  | .error e => .error (.log e)

def buf (s : Sys) (b : ℕ) : Buf := s.bio.sys.cache.bufs b

/-- `log_write`, with `bpin` for a block that is new to the log. -/
def logWrite (s : Sys) (p b : ℕ) : Except Stop Sys :=
  match Log.logWrite (s.buf b).blockno s.log.log with
  | .error e => .error (.log e)
  | .ok (new, _) => do
    let s ← s.advance (.logWrite p (s.buf b).blockno)
    let s ← if new then s.use head (.bpin p b) else .ok s
    return {s with bio := s.bio.log b}

/-- The register gets the buffer that `bget` has found. -/
def setReg (s : Sys) (p : ℕ) (r : Reg) : Sys :=
  match s.bio.sys.pc p with
  | .waiting b => {s with reg := update s.reg p (update (s.reg p) r b)}
  | _ => s

def doCall (s : Sys) (p alloc : ℕ) : Call → Except Stop Sys
  | .bread r blockno => do
    let s ← s.use head (.bget p dev blockno alloc)
    return s.setReg p r
  | .memmove dst src => s.use head (.modify p (s.reg p dst) (s.buf (s.reg p src)).data)
  | .putHead r => s.use head (.modify p (s.reg p r) (Log.writeHead s.log.log.lh (s.buf (s.reg p r)).data))
  | .bwrite r => s.use head (.bwrite p (s.reg p r))
  | .bunpin r => s.use head (.bunpin p (s.reg p r))
  | .brelse r => s.use head (.releasesleep p (s.reg p r))

def setTodo (s : Sys) (p : ℕ) (todo : List Call) : Sys := {s with todo := update s.todo p todo}

def step (s : Sys) : Event → Except Stop Sys
  | .bread p blockno alloc => s.use head (.bget p dev blockno alloc)
  | .acquiresleep p => s.use head (.acquiresleep p)
  | .fill p => s.use head (.fill p)
  | .modify p b data => s.use head (.modify p b data)
  | .bwrite p b => s.use head (.bwrite p b)
  | .logWrite p b => s.logWrite head p b
  | .releasesleep p b => do
    let s' ← s.use head (.releasesleep p b)
    return {s' with home := update s.home (s.buf b).blockno (s.buf b).data}
  | .brelse p => s.use head (.brelse p)
  | .beginOp p => s.advance (.beginOp p)
  | .endOp p => s.advance (.endOp p)
  | .next p =>
    match s.log.pc p with
    | .commit stage => do
      let s' ← s.advance (.next p)
      return s'.setTodo p (callsAfter start s.log.log.lh stage)
    | _ => .ok s
  | .call p alloc =>
    match s.todo p with
    | [] => .ok s
    | c :: cs => do
      let s' ← s.doCall head dev p alloc c
      return s'.setTodo p cs

/-- A process that is neither in `begin_op` nor in `commit`. -/
def Client (s : Sys) (p : ℕ) : Prop := s.log.pc p ≠ .asleep ∧ (s.log.pc p).stage = none
deriving Decidable

/-- Processes are numbered below `n`. They change buffers that they hold, release what
they have not changed or have saved, and call `log_write` in an operation. -/
def allowed (s : Sys) : Event → Prop
  | .bread p blockno alloc => s.Client p ∧ s.bio.sys.allowed head n (.bget p dev blockno alloc)
  | .acquiresleep p | .fill p | .brelse p => p < n
  | .modify p b _ | .bwrite p b => s.Client p ∧ p < n ∧ s.bio.sys.Holds p b
  | .releasesleep p b => s.Client p ∧ p < n ∧ s.bio.sys.Holds p b ∧ s.bio.mark b ≠ .dirty
  | .logWrite p b => s.log.allowed (.logWrite p (s.buf b).blockno) ∧ p < n ∧ s.bio.sys.Holds p b
  | .beginOp p => s.log.allowed (.beginOp p) ∧ p < n ∧ s.bio.sys.pc p = .running
  | .endOp p => s.log.allowed (.endOp p) ∧ p < n ∧ s.bio.sys.pc p = .running
  | .next p => s.log.allowed (.next p) ∧ p < n ∧ s.bio.sys.pc p = .running ∧ s.todo p = []
  | .call p alloc => p < n ∧ s.bio.sys.pc p = .running ∧ s.bio.sys.Fresh head alloc

end Sys

/-- `n` processes that use the cache and the log of a device, in any order. -/
def processes (head dev start n : ℕ) : Protocol Stop Sys Event :=
  ⟨Sys.step head dev start, Sys.allowed head dev n⟩

instance (head dev start n : ℕ) (s : Sys) : ∀ e, Decidable ((processes head dev start n).allowed s e)
  | .bread .. | .modify .. | .bwrite .. | .releasesleep .. | .logWrite .. | .beginOp .. | .endOp .. | .next ..
  | .call .. => inferInstanceAs (Decidable (_ ∧ _))
  | .acquiresleep .. | .fill .. | .brelse .. => inferInstanceAs (Decidable (_ < _))

/-- A cache that nobody uses and that has nothing but what is on the disk, as `initlog`
leaves it. -/
structure Clean (head dev : ℕ) (c : Bcache) (xs : List ℕ) : Prop where
  cached : Cached head c xs
  unique : Unique c.bufs xs
  unused : ∀ b ∈ xs, (c.bufs b).refcnt = 0 ∧ (c.bufs b).lock = none
  data : ∀ b ∈ xs, (c.bufs b).dev = dev → (c.bufs b).valid = true →
    (c.bufs b).data = c.disk (c.bufs b).blockno

def Sys.start (c : Bcache) : Sys :=
  ⟨⟨.start c, c.disk, fun _ => .free, fun _ => 0⟩, .start, fun _ => [], fun _ _ => 0, c.disk⟩

/-- `bread` is about to return the buffer of the block that it was asked for, with the
data that was released last. -/
def Reads (dev : ℕ) (s : Sys) : Prop :=
  ∀ p b, s.bio.sys.pc p = .reading b →
    let buf := (s.bio.sys.cache.fill b).bufs b
    buf.dev = dev ∧ buf.blockno = s.bio.asked p ∧ buf.data = s.bio.view (s.bio.asked p)

/-- Processes change only blocks outside of the log, and logged ones only in an
operation. They end an operation without buffers. -/
def Sys.Disciplined (start : ℕ) (s : Sys) : Event → Prop
  | .modify p b _ =>
    Log.Machine.Home start (s.buf b).blockno ∧ ((s.log.pc p).logged.isSome ∨ (s.buf b).blockno ∉ s.log.log.lh)
  | .logWrite _ b => Log.Machine.Home start (s.buf b).blockno
  | .endOp p => ∀ b ∈ s.bio.sys.cache.live, (s.buf b).lock ≠ some p
  | .bread .. | .acquiresleep .. | .fill .. | .bwrite .. | .releasesleep .. | .brelse .. | .beginOp .. | .next ..
  | .call .. => True

instance (start : ℕ) (s : Sys) : ∀ e, Decidable (s.Disciplined start e)
  | .modify .. => inferInstanceAs (Decidable (_ ∧ _))
  | .logWrite .. => inferInstanceAs (Decidable (Log.Machine.Home ..))
  | .endOp p => inferInstanceAs (Decidable (∀ b ∈ s.bio.sys.cache.live, (s.buf b).lock ≠ some p))
  | .bread .. | .acquiresleep .. | .fill .. | .bwrite .. | .releasesleep .. | .brelse .. | .beginOp .. | .next ..
  | .call .. => inferInstanceAs (Decidable True)

end Xv6.Disk
