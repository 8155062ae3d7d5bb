import Xv6.Machine.Run
import Xv6.Machine.Basic
import Xv6.Queue.Ring

/-! Readers and writers of a pipe (`kernel/pipe.c`).

Any number of processes call `pipewrite` and `piperead`. One turn of a loop is a step, made with the
lock of the pipe held; a process that sleeps goes on once it has the lock again, for whatever reason
it was woken up. Whether `copyin` and `copyout` succeed, and whether the process is killed, is given
with the turn. The pipe is a first-in first-out queue (`processes_fifo`) from `stored`, what writers
have put in, to `delivered`, what readers have taken out. -/
namespace Xv6.Pipe.Fifo
open Function (update)

def pipesize : ℕ := 512

inductive Pc where
  /-- Neither in `pipewrite` nor in `piperead`. -/
  | running
  /-- Before `acquire` in `pipewrite`, or in `sleep`: `i` of `n` bytes are written. -/
  | writeWait (n : ℤ) (i : ℕ)
  | writing (n : ℤ) (i : ℕ)
  /-- Before `acquire` in `piperead`, or in `sleep`. -/
  | readWait (n : ℤ)
  | waiting (n : ℤ)
  | reading (n : ℤ) (i : ℕ)
  deriving DecidableEq

structure Return where
  proc : ℕ
  write : Bool
  value : ℤ
  /-- How many bytes it has stored or delivered. -/
  moved : ℕ
  deriving DecidableEq

structure Sys where
  data : ℕ → UInt8
  nread : ℕ
  nwrite : ℕ
  readopen : Bool
  writeopen : Bool
  lock : Option ℕ
  pc : ℕ → Pc
  stored : List UInt8
  delivered : List UInt8
  /-- How many bytes a process has moved in its current call. -/
  moved : ℕ → ℕ
  /-- The calls that have returned, the latest first. -/
  returned : List Return

inductive Event where
  | pipewrite (p : ℕ) (n : ℤ)
  | piperead (p : ℕ) (n : ℤ)
  | acquire (p : ℕ)
  /-- A turn of the loop of `pipewrite`; `ch` is what `copyin` gets, if it succeeds. -/
  | write (p : ℕ) (killed : Bool) (ch : Option UInt8)
  /-- A turn of one of the loops of `piperead`; `copied` says whether `copyout` succeeds. -/
  | read (p : ℕ) (killed copied : Bool)
  | pipeclose (writable : Bool)

namespace Sys

def goto (s : Sys) (p : ℕ) (pc : Pc) : Sys := {s with pc := update s.pc p pc}

def start (s : Sys) (p : ℕ) (pc : Pc) : Sys := {s with moved := update s.moved p 0}.goto p pc

def finish (s : Sys) (p : ℕ) (write : Bool) (value : ℤ) : Sys :=
  {s with lock := none, returned := ⟨p, write, value, s.moved p⟩ :: s.returned}.goto p .running

def sleep (s : Sys) (p : ℕ) (pc : Pc) : Sys := {s with lock := none}.goto p pc

def store (s : Sys) (p : ℕ) (ch : UInt8) : Sys :=
  {s with
    data := update s.data (s.nwrite % pipesize) ch
    nwrite := uint32 (s.nwrite + 1)
    stored := s.stored ++ [ch]
    moved := update s.moved p (s.moved p + 1)}

/-- `pi->nread++`, after `copyout` of `pi->data[pi->nread % PIPESIZE]`. -/
def take (s : Sys) (p : ℕ) : Sys :=
  {s with
    nread := uint32 (s.nread + 1)
    delivered := s.delivered ++ [s.data (s.nread % pipesize)]
    moved := update s.moved p (s.moved p + 1)}

def write (s : Sys) (p : ℕ) (n : ℤ) (i : ℕ) (killed : Bool) (ch : Option UInt8) : Sys :=
  if i < n then
    if s.readopen = false ∨ killed then s.finish p true (-1)
    else if s.nwrite = uint32 (s.nread + pipesize) then s.sleep p (.writeWait n i)
    else
      match ch with
      | none => s.finish p true i
      | some ch => (s.store p ch).goto p (.writing n (i + 1))
  else s.finish p true i

def wait (s : Sys) (p : ℕ) (n : ℤ) (killed : Bool) : Sys :=
  if s.nread = s.nwrite ∧ s.writeopen then
    if killed then s.finish p false (-1) else s.sleep p (.readWait n)
  else s.goto p (.reading n 0)

def read (s : Sys) (p : ℕ) (n : ℤ) (i : ℕ) (copied : Bool) : Sys :=
  if i < n then
    if s.nread = s.nwrite then s.finish p false i
    else if copied then (s.take p).goto p (.reading n (i + 1))
    else s.finish p false (if i = 0 then -1 else i)
  else s.finish p false i

def step (s : Sys) : Event → Except Empty Sys
  | .pipewrite p n => .ok (s.start p (.writeWait n 0))
  | .piperead p n => .ok (s.start p (.readWait n))
  | .acquire p =>
    match s.pc p with
    | .writeWait n i => .ok ({s with lock := some p}.goto p (.writing n i))
    | .readWait n => .ok ({s with lock := some p}.goto p (.waiting n))
    | _ => .ok s
  | .write p killed ch =>
    match s.pc p with
    | .writing n i => .ok (s.write p n i killed ch)
    | _ => .ok s
  | .read p killed copied =>
    match s.pc p with
    | .waiting n => .ok (s.wait p n killed)
    | .reading n i => .ok (s.read p n i copied)
    | _ => .ok s
  | .pipeclose writable => .ok (if writable then {s with writeopen := false} else {s with readopen := false})

/-- Who may make a step: a process outside of the calls, or the one that has the lock. -/
def allowed (s : Sys) : Event → Prop
  | .pipewrite p _ | .piperead p _ => s.pc p = .running
  | .acquire _ | .pipeclose _ => s.lock = none
  | .write p _ _ | .read p _ _ => s.lock = some p

/-- A pipe that `pipealloc` has just set up. What is in `data` is arbitrary. -/
def boot (data : ℕ → UInt8) : Sys :=
  ⟨data, 0, 0, true, true, none, fun _ => .running, [], [], fun _ => 0, []⟩

def count (s : Sys) : ℕ := uint32 (s.nwrite - s.nread)

def contents (s : Sys) : List UInt8 := (List.range s.count).map fun k : ℕ => s.data (uint32 (s.nread + k) % pipesize)

end Sys

/-- Processes that read and write in any order. -/
def processes : Protocol Empty Sys Event := ⟨Sys.step, Sys.allowed⟩

instance (s : Sys) : ∀ e, Decidable (processes.allowed s e)
  | .pipewrite .. | .piperead .. | .acquire .. | .pipeclose .. | .write .. | .read .. =>
    inferInstanceAs (Decidable (_ = _))

/-! ### The queue -/

/-- How many bytes a call has moved, as far as the process knows. -/
def Pc.count : Pc → Option ℕ
  | .running => none
  | .writeWait _ i | .writing _ i | .reading _ i => some i
  | .readWait _ | .waiting _ => some 0

variable {p q i : ℕ} {n value : ℤ} {s s' : Sys} {e : Event} {pc : Pc} {killed copied : Bool} {ch : Option UInt8}

structure Inv (s : Sys) : Prop where
  queue : ∃ pending, Queue.Ring pipesize (2 ^ 32) s.data s.nread s.nwrite s.delivered pending ∧
    s.stored = s.delivered ++ pending
  moved : ∀ p i, (s.pc p).count = some i → s.moved p = i
  returned : ∀ r ∈ s.returned, 0 ≤ r.value → r.value = r.moved

namespace Inv

theorem moved_update (h : Inv s) {m : ℕ} (hpc : s'.pc = update s.pc p pc)
    (hmoved : s'.moved = update s.moved p m) (hcount : ∀ i, pc.count = some i → m = i) :
    ∀ q i, (s'.pc q).count = some i → s'.moved q = i := by
  rw [hpc, hmoved]
  grind [Fifo.Inv.moved]

theorem goto (h : Inv s) (hpc : s'.pc = update s.pc p pc)
    (hcount : ∀ i, pc.count = some i → s.moved p = i) (hdata : s'.data = s.data) (hnread : s'.nread = s.nread)
    (hnwrite : s'.nwrite = s.nwrite) (hstored : s'.stored = s.stored) (hdelivered : s'.delivered = s.delivered)
    (hmoved : s'.moved = s.moved) (hreturned : ∀ r ∈ s'.returned, 0 ≤ r.value → r.value = r.moved) : Inv s' := by
  refine ⟨?_, h.moved_update (m := s.moved p) hpc ?_ hcount, hreturned⟩
  · grind [Fifo.Inv.queue]
  · rw [hmoved, Function.update_eq_self]

theorem start (h : Inv s) (hcount : pc.count = some 0) : Inv (s.start p pc) := by
  refine ⟨h.queue, h.moved_update rfl rfl fun i hi => ?_, h.returned⟩
  exact Option.some.inj (hcount.symm.trans hi)

theorem finish {write : Bool} (h : Inv s) (hvalue : 0 ≤ value → value = s.moved p) : Inv (s.finish p write value) := by
  refine h.goto rfl nofun rfl rfl rfl rfl rfl rfl fun r hr => ?_
  rcases List.mem_cons.mp hr with rfl | hr
  · exact hvalue
  · exact h.returned r hr

theorem sleep (h : Inv s) (hp : pc.count = (s.pc p).count) : Inv (s.sleep p pc) :=
  h.goto rfl (fun i hi => h.moved p i (hp ▸ hi)) rfl rfl rfl rfl rfl rfl h.returned

theorem full_iff {pending : List UInt8}
    (h : Queue.Ring pipesize (2 ^ 32) s.data s.nread s.nwrite s.delivered pending) :
    s.nwrite = uint32 (s.nread + pipesize) ↔ pending.length = pipesize := by
  have hmod : uint32 (s.nread + pipesize) = (s.nread + pipesize) % 2 ^ 32 := uint32_natCast (s.nread + pipesize)
  rw [hmod]
  exact h.full_iff (by decide)

theorem store {ch : UInt8} (h : Inv s) (hp : (s.pc p).count = some i) (hroom : s.nwrite ≠ uint32 (s.nread + pipesize)) :
    Inv ((s.store p ch).goto p (.writing n (i + 1))) := by
  obtain ⟨pending, hring, hstored⟩ := h.queue
  have hlt : pending.length < pipesize := lt_of_le_of_ne hring.bound (mt (full_iff hring).mpr hroom)
  have hmod : uint32 (s.nwrite + 1) = (s.nwrite + 1) % 2 ^ 32 := uint32_natCast (s.nwrite + 1)
  refine ⟨⟨pending ++ [ch], ?_, ?_⟩, h.moved_update rfl rfl fun j hj => ?_, h.returned⟩
  · have hpush := hring.push (by decide) hlt ch
    rw [← hmod] at hpush
    exact hpush
  · show s.stored ++ [ch] = s.delivered ++ (pending ++ [ch])
    rw [hstored, List.append_assoc]
  · rw [h.moved p i hp]
    exact Option.some.inj hj

theorem take (h : Inv s) (hp : (s.pc p).count = some i) (hsome : s.nread ≠ s.nwrite) :
    Inv ((s.take p).goto p (.reading n (i + 1))) := by
  obtain ⟨pending, hring, hstored⟩ := h.queue
  have hmod : uint32 (s.nread + 1) = (s.nread + 1) % 2 ^ 32 := uint32_natCast (s.nread + 1)
  cases pending with
  | nil => exact absurd ((hring.empty_iff (by decide)).mpr rfl) hsome
  | cons b pending =>
    have hhead : s.data (s.nread % pipesize) = b := hring.head (by decide)
    refine ⟨⟨pending, ?_, ?_⟩, h.moved_update rfl rfl fun j hj => ?_, h.returned⟩
    · have hpop := hring.pop
      rw [← hmod, ← hhead] at hpop
      exact hpop
    · show s.stored = s.delivered ++ [s.data (s.nread % pipesize)] ++ pending
      grind
    · rw [h.moved p i hp]
      exact Option.some.inj hj

theorem write (h : Inv s) (hp : s.pc p = .writing n i) : Inv (s.write p n i killed ch) := by
  have hcount : (s.pc p).count = some i := by rw [hp]; rfl
  have hall : Inv (s.finish p true i) := h.finish fun _ => by rw [h.moved p i hcount]
  unfold Sys.write
  split
  case isTrue =>
    split
    case isTrue => exact h.finish fun hneg => absurd hneg (by decide)
    case isFalse =>
      split
      case isTrue => exact h.sleep hcount.symm
      grind [Fifo.Inv.store]
  case isFalse => exact hall

theorem wait (h : Inv s) (hp : s.pc p = .waiting n) : Inv (s.wait p n killed) := by
  have hcount : (s.pc p).count = some 0 := by rw [hp]; rfl
  unfold Sys.wait
  split
  case isTrue =>
    split
    case isTrue => exact h.finish fun hneg => absurd hneg (by decide)
    case isFalse => exact h.sleep hcount.symm
  case isFalse =>
    refine h.goto rfl (fun i hi => ?_) rfl rfl rfl rfl rfl rfl h.returned
    rw [h.moved p 0 hcount]
    exact Option.some.inj hi

theorem read (h : Inv s) (hp : s.pc p = .reading n i) : Inv (s.read p n i copied) := by
  have hcount : (s.pc p).count = some i := by rw [hp]; rfl
  grind [Fifo.Inv.finish, Fifo.Inv.moved, Fifo.Inv.take, Sys.read]

theorem step (h : Inv s) (hs : s.step e = .ok s') : Inv s' := by
  cases e with
  | pipewrite p n | piperead p n =>
    cases hs
    exact h.start rfl
  | acquire p =>
    rw [Sys.step] at hs
    split at hs <;> cases hs
    case h_1 n i hp =>
      have hcount : (s.pc p).count = some i := by rw [hp]; rfl
      exact h.goto rfl (fun j hj => h.moved p j (hcount.trans hj)) rfl rfl rfl rfl rfl rfl h.returned
    case h_2 n hp =>
      have hcount : (s.pc p).count = some 0 := by rw [hp]; rfl
      exact h.goto rfl (fun j hj => h.moved p j (hcount.trans hj)) rfl rfl rfl rfl rfl rfl h.returned
    case h_3 => exact h
  | write p killed ch =>
    rw [Sys.step] at hs
    grind [Fifo.Inv.write]
  | read p killed copied =>
    rw [Sys.step] at hs
    grind [Fifo.Inv.wait, Fifo.Inv.read]
  | pipeclose writable =>
    cases hs
    split <;> exact ⟨h.queue, h.moved, h.returned⟩

theorem boot (data : ℕ → UInt8) : Inv (.boot data) :=
  ⟨⟨[], .nil data, rfl⟩, nofun, nofun⟩

end Inv

/-! ### Runs -/

/-- A loss-free bounded first-in first-out queue. -/
structure Queued (s : Sys) : Prop where
  bound : s.count ≤ pipesize
  /-- What was delivered is what was stored, in order, up to what is still in the ring. -/
  order : s.stored = s.delivered ++ s.contents
  /-- A byte whose `copyout` fails stays in the ring. -/
  kept : ∀ p killed n i, s.pc p = .reading n i → i < n → s.nread ≠ s.nwrite →
    ∃ s', s.step (.read p killed false) = .ok s' ∧ s'.delivered = s.delivered ∧ s'.contents = s.contents
  /-- A call that returns a number has moved that many bytes. -/
  returned : ∀ r ∈ s.returned, 0 ≤ r.value → r.value = r.moved

theorem count_eq {pending : List UInt8}
    (h : Queue.Ring pipesize (2 ^ 32) s.data s.nread s.nwrite s.delivered pending) : s.count = pending.length := by
  have hread : s.nread < 2 ^ 32 := by
    rw [h.nread]
    exact Nat.mod_lt _ (by decide)
  rw [← h.length_eq (by decide), ← uint32_natCast]
  unfold Sys.count uint32
  omega

theorem Inv.queued (h : Inv s) : Queued s := by
  obtain ⟨pending, hring, hstored⟩ := h.queue
  have hcount := count_eq hring
  constructor
  case bound =>
    rw [hcount]
    exact hring.bound
  case order =>
    rw [hstored, Sys.contents, hcount]
    congr 1
    refine (hring.contents (by decide)).trans (List.map_congr_left fun k _ => ?_)
    rw [← uint32_natCast]
    rfl
  case kept =>
    intro p killed n i hp hi hsome
    refine ⟨s.read p n i false, ?_, ?_⟩
    · rw [Sys.step, hp]
    · rw [Sys.read, if_pos hi, if_neg hsome]
      exact ⟨rfl, rfl⟩
  case returned => exact h.returned

/-- **A pipe is a loss-free bounded queue**, however readers and writers interleave. -/
theorem processes_fifo {data : ℕ → UInt8} {es : List Event} (hp : processes.Proper (.boot data) es) :
    ∃ s, processes.run (.boot data) es = .ok s ∧ Queued s := by
  refine Outcome.total.mp ((Protocol.run_outcome (E := fun _ => False) (fun e _ s h _ => ?_) (Inv.boot data) hp).mono
    fun _ h => h.queued)
  show Outcome _ (s.step e) _
  cases hs : s.step e with
  | error err => exact err.elim
  | ok s' => exact h.step hs

/-- A writer stores two bytes, a reader takes one and fails to copy the other. -/
def oneByte : List Event :=
  [.pipewrite 0 2, .acquire 0, .write 0 false (some 97), .write 0 false (some 98), .write 0 false none, .piperead 1 2,
    .acquire 1, .read 1 false true, .read 1 false true, .read 1 false false]

theorem processes_fifo_oneByte :
    ∃ s, processes.run (.boot fun _ => 0) oneByte = .ok s ∧ s.delivered = [97] ∧ s.contents = [98] ∧
      s.returned = [⟨1, false, 1, 1⟩, ⟨0, true, 2, 2⟩] ∧ Queued s := by
  have hproper : processes.Proper (.boot fun _ => 0) oneByte := by decide +kernel
  have hsees : (processes.run (.boot fun _ => 0) oneByte).toOption.map
      (fun s => (s.delivered, s.contents, s.returned)) =
        some ([97], [98], [⟨1, false, 1, 1⟩, ⟨0, true, 2, 2⟩]) := by decide +kernel
  obtain ⟨s, hs, hqueued⟩ := processes_fifo hproper
  rw [hs] at hsees
  obtain ⟨hdelivered, hrest⟩ := Prod.mk.inj (Option.some.inj hsees)
  obtain ⟨hcontents, hreturned⟩ := Prod.mk.inj hrest
  exact ⟨s, hs, hdelivered, hcontents, hreturned, hqueued⟩

end Xv6.Pipe.Fifo
