import Xv6.Machine.Run
import Xv6.Vm.Proc

/-! The process table under many processes (`kernel/proc.c`).

A process is a slot of the table, and its kernel thread. What `kfork`, `kexit` and `kwait` do under
`wait_lock`, and `kfork` under the lock of the new slot, is one step each. The loop of `allocproc`
takes one slot's lock after another, so that other processes go on between its turns. Whether `kfork`
gets memory, and whether `kwait` can copy the exit status to the caller, is given with the step. -/
namespace Xv6.Proc
open Function (update)
open Vm (ProcState)

inductive Chan where
  | proc (p : ℕ)
  | other (addr : ℕ)
  deriving DecidableEq

/-- A call that kills processes. -/
inductive Cause where
  | kkill (pid : ℤ)
  | setkilled
  deriving DecidableEq

structure Slot where
  state : ProcState
  pid : ℤ
  parent : Option ℕ
  chan : Option Chan
  killed : ℤ
  xstate : ℤ
  /-- The number of the process: how many were created before it. -/
  born : ℕ
  /-- Calls that kill processes, since this one was created: `kkill` by anyone for anyone,
  and `setkilled` for this process. -/
  causes : List Cause

def Slot.zero : Slot := ⟨.unused, 0, none, none, 0, 0, 0, []⟩

/-- `allocproc` has found a slot. It leaves the other fields as they are. -/
def Slot.alloc (pid : ℤ) (born : ℕ) (slot : Slot) : Slot :=
  {slot with pid := pid, state := .used, born := born, causes := []}

def Slot.free (slot : Slot) : Slot :=
  {slot with state := .unused, pid := 0, parent := none, chan := none, killed := 0, xstate := 0}

inductive Pc where
  /-- Outside of the calls below, or before a call. -/
  | running
  /-- In `allocproc`, at a slot. -/
  | scanning (i : ℕ)
  /-- In `kfork`, before it sets the parent of the new process. -/
  | linking (np : ℕ) (pid : ℤ)
  /-- In `kfork`, before it makes the new process runnable. -/
  | starting (np : ℕ) (pid : ℤ)
  /-- In `kwait`, in `sleep`. -/
  | waiting
  deriving DecidableEq

structure Reaped where
  born : ℕ
  pid : ℤ
  xstate : ℤ
  /-- The process that has called `kwait`. -/
  waiter : ℕ
  deriving DecidableEq

structure Sys where
  slots : ℕ → Slot
  nextpid : ℤ
  initproc : ℕ
  pc : ℕ → Pc
  /-- How many processes were created. -/
  births : ℕ
  /-- What calls of `kwait` have returned, the latest first. -/
  reaped : List Reaped

inductive Panic where
  | initExiting
  deriving DecidableEq

inductive Event where
  | kfork (p : ℕ)
  /-- The next turn of `allocproc`; `memory` says whether `kfork` gets the memory it asks
  for. -/
  | scan (p : ℕ) (memory : Bool)
  | link (p : ℕ)
  | start (p : ℕ)
  | kexit (p : ℕ) (status : ℤ)
  /-- A turn of the loop of `kwait`; `copied` says whether `copyout` succeeds. -/
  | kwait (p addr : ℕ) (copied : Bool)
  | kkill (p : ℕ) (pid : ℤ)
  | setkilled (p : ℕ)
  | schedule (p : ℕ)
  | yield (p : ℕ)
  /-- `sleep`, but for that of `kwait`. -/
  | sleep (p : ℕ) (chan : Chan)
  | wakeup (p : ℕ) (chan : Chan)

namespace Sys

def setSlot (s : Sys) (i : ℕ) (f : Slot → Slot) : Sys :=
  {s with slots := update s.slots i (f (s.slots i))}

def mapSlots (s : Sys) (f : ℕ → Slot → Slot) : Sys := {s with slots := fun i => f i (s.slots i)}

def goto (s : Sys) (p : ℕ) (pc : Pc) : Sys := {s with pc := update s.pc p pc}

/-- `allocpid`, and the rest of `kfork` under the lock of the slot that was found. -/
def found (s : Sys) (p i : ℕ) (memory : Bool) : Sys :=
  let s' := {s with nextpid := int32 (s.nextpid + 1), births := s.births + 1}.setSlot i
    (Slot.alloc s.nextpid s.births)
  if memory then s'.goto p (.linking i s.nextpid) else (s'.setSlot i Slot.free).goto p .running

def scan (s : Sys) (p i : ℕ) (memory : Bool) : Sys :=
  if i < nproc then
    if (s.slots i).state = .unused then s.found p i memory else s.goto p (.scanning (i + 1))
  else s.goto p .running

/-- `wakeup` visits every slot but that of its caller. -/
def wakeup (s : Sys) (p : ℕ) (chan : Chan) : Sys :=
  s.mapSlots fun i slot =>
    if i ≠ p ∧ slot.state = .sleeping ∧ slot.chan = some chan then {slot with state := .runnable} else slot

/-- `reparent` gives the children of `p` to `initproc`. -/
def reparent (s : Sys) (p : ℕ) : Sys :=
  let s' := s.mapSlots fun _ slot => if slot.parent = some p then {slot with parent := some s.initproc} else slot
  if ∃ i < nproc, (s.slots i).parent = some p then s'.wakeup p (.proc s.initproc) else s'

def wakeupParent (s : Sys) (p : ℕ) : Sys :=
  match (s.slots p).parent with
  | some parent => s.wakeup p (.proc parent)
  | none => s

def kexit (s : Sys) (p : ℕ) (status : ℤ) : Except Panic Sys :=
  if p = s.initproc then .error .initExiting
  else .ok (((s.reparent p).wakeupParent p).setSlot p fun slot => {slot with xstate := status, state := .zombie})

/-- What one turn of the loop of `kwait` does. -/
inductive Wait where
  /-- It returns the number of the process in a slot, and its exit status. -/
  | reap (i : ℕ)
  /-- `copyout` fails. -/
  | fault
  | noChildren
  | killed
  | sleep
  deriving DecidableEq

def wait (s : Sys) (p addr : ℕ) (copied : Bool) : Wait :=
  match (List.range nproc).find? fun i => (s.slots i).parent = some p ∧ (s.slots i).state = .zombie with
  | some i => if addr ≠ 0 ∧ copied = false then .fault else .reap i
  | none =>
    if ¬ ∃ i < nproc, (s.slots i).parent = some p then .noChildren
    else if (s.slots p).killed ≠ 0 then .killed
    else .sleep

def kwait (s : Sys) (p addr : ℕ) (copied : Bool) : Sys :=
  match s.wait p addr copied with
  | .reap i =>
    let slot := s.slots i
    ({s with reaped := ⟨slot.born, slot.pid, slot.xstate, p⟩ :: s.reaped}.setSlot i Slot.free).goto p .running
  | .fault | .noChildren | .killed => s.goto p .running
  | .sleep => (s.setSlot p fun slot => {slot with state := .sleeping, chan := some (.proc p)}).goto p .waiting

def victim (s : Sys) (pid : ℤ) : Option ℕ := (List.range nproc).find? fun i => (s.slots i).pid = pid

/-- `kkill` returns 0 if it finds a slot, else -1. -/
def kkill (s : Sys) (pid : ℤ) : ℤ × Sys :=
  let s' := s.mapSlots fun _ slot => {slot with causes := .kkill pid :: slot.causes}
  match s.victim pid with
  | some i =>
    (0, s'.setSlot i fun slot =>
      {slot with killed := 1, state := if slot.state = .sleeping then .runnable else slot.state})
  | none => (-1, s')

def step (s : Sys) : Event → Except Panic Sys
  | .kfork p => .ok (s.goto p (.scanning 0))
  | .scan p memory =>
    match s.pc p with
    | .scanning i => .ok (s.scan p i memory)
    | _ => .ok s
  | .link p =>
    match s.pc p with
    | .linking np pid => .ok ((s.setSlot np fun slot => {slot with parent := some p}).goto p (.starting np pid))
    | _ => .ok s
  | .start p =>
    match s.pc p with
    | .starting np _ => .ok ((s.setSlot np fun slot => {slot with state := .runnable}).goto p .running)
    | _ => .ok s
  | .kexit p status => s.kexit p status
  | .kwait p addr copied => .ok (s.kwait p addr copied)
  | .kkill _ pid => .ok (s.kkill pid).2
  | .setkilled p => .ok (s.setSlot p fun slot => {slot with killed := 1, causes := .setkilled :: slot.causes})
  | .schedule p => .ok (s.setSlot p fun slot => {slot with state := .running})
  | .yield p => .ok (s.setSlot p fun slot => {slot with state := .runnable})
  | .sleep p chan => .ok (s.setSlot p fun slot => {slot with state := .sleeping, chan := some chan})
  | .wakeup p chan => .ok (s.wakeup p chan)

/-- The process runs, and is not in one of the calls. -/
def Free (s : Sys) (p : ℕ) : Prop := p < nproc ∧ (s.slots p).state = .running ∧ s.pc p = .running
deriving Decidable

/-- Only running processes make steps, and the scheduler takes runnable ones. `initproc`
does not exit. -/
def allowed (s : Sys) : Event → Prop
  | .kfork p | .kkill p _ | .setkilled p | .sleep p _ | .wakeup p _ => s.Free p
  | .kexit p _ => s.Free p ∧ p ≠ s.initproc
  | .scan p _ | .link p | .start p | .yield p => p < nproc ∧ (s.slots p).state = .running
  | .kwait p _ _ => p < nproc ∧ (s.slots p).state = .running ∧ (s.pc p = .running ∨ s.pc p = .waiting)
  | .schedule p => p < nproc ∧ (s.slots p).state = .runnable

/-- The table after `procinit` and `userinit`: the first slot has `initproc`. -/
def boot : Sys where
  slots := update (fun _ => .zero) 0 {Slot.zero.alloc 1 0 with state := .runnable}
  nextpid := 2
  initproc := 0
  pc := fun _ => .running
  births := 1
  reaped := []

end Sys

/-- Processes that fork, exit, wait and kill each other in any order. -/
def processes : Protocol Panic Sys Event := ⟨Sys.step, Sys.allowed⟩

instance (s : Sys) : ∀ e, Decidable (processes.allowed s e)
  | .kfork .. | .kkill .. | .setkilled .. | .sleep .. | .wakeup .. => inferInstanceAs (Decidable (Sys.Free ..))
  | .kexit .. | .scan .. | .link .. | .start .. | .yield .. | .kwait .. | .schedule .. =>
    inferInstanceAs (Decidable (_ ∧ _))

end Xv6.Proc
