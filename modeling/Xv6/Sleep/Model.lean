import Xv6.Machine.Run
import Xv6.Vm.Proc

/-! `sleep`, `wakeup` and the scheduler (`kernel/proc.c`).

Every `acquire` and `release` is a step, and so is every switch between a process and the
scheduler of a CPU, which hands over the lock of the process. A step that takes a lock
can be made when the lock is free. Processes also yield, exit, are created and killed, so
that all that changes `p->state` takes part. The condition locks that processes pass to
`sleep` are numbered. -/
namespace Xv6.Sleep
open Function (update)
open Vm (ProcState)

/-- Who holds the lock of a process. -/
inductive Holder where
  | proc (p : ℕ)
  | cpu (c : ℕ)
  deriving DecidableEq

structure Slot where
  state : ProcState
  chan : ℕ
  lock : Option Holder
  deriving DecidableEq

inductive Pc where
  /-- Outside of the calls below. -/
  | running
  /-- In `sleep`, before `acquire(&p->lock)`. -/
  | sleepAcquire (chan lk : ℕ)
  /-- Before `release(lk)`. -/
  | sleepRelease (chan lk : ℕ)
  /-- Before it sets `p->chan` and `p->state`. -/
  | sleepSet (chan lk : ℕ)
  /-- Before the switch to the scheduler. -/
  | sleepSwitch (chan lk : ℕ)
  /-- Switched away, in `sleep`. -/
  | asleep (chan lk : ℕ)
  /-- Back from the scheduler, before `release(&p->lock)`. -/
  | resumed (chan lk : ℕ)
  /-- Before `acquire(lk)`. -/
  | reacquire (chan lk : ℕ)
  /-- In `wakeup`, at a slot, before `acquire`. -/
  | waking (chan i : ℕ)
  | wakingHeld (chan i : ℕ)
  /-- In `kkill`, at a slot that has the pid or not, before `acquire`. -/
  | killing (i : ℕ) (found : Bool)
  | killingHeld (i : ℕ) (found : Bool)
  | yieldAcquire
  | yieldSwitch
  /-- Switched away in `yield`, or not yet run. -/
  | yielded
  | yieldResumed
  | exitAcquire
  | exitSwitch
  /-- There is no process, or it has exited. -/
  | dead
  deriving DecidableEq

inductive Cpu where
  | looking (i : ℕ)
  | holding (i : ℕ)
  /-- Switched to a process. -/
  | running (p : ℕ)
  /-- Back from a process, before `release`. -/
  | back (p : ℕ)
  deriving DecidableEq

structure Sys where
  slots : ℕ → Slot
  pc : ℕ → Pc
  cpus : ℕ → Cpu
  /-- The process that holds a condition lock. -/
  cond : ℕ → Option ℕ
  /-- How many condition locks a process holds. -/
  noff : ℕ → ℕ

inductive Panic where
  /-- `sched` is called with a lock held other than that of the process. -/
  | schedLocks
  deriving DecidableEq

inductive Event where
  | acquire (p lk : ℕ)
  | release (p lk : ℕ)
  | sleep (p chan lk : ℕ)
  | wakeup (p chan : ℕ)
  | kkill (p i : ℕ) (found : Bool)
  | yield (p : ℕ)
  | exit (p : ℕ)
  /-- A process goes on in one of the calls; `c` is the CPU that it runs on. -/
  | next (p c : ℕ)
  | sched (c : ℕ)
  /-- `freeproc`, for a process that has exited. -/
  | reap (i : ℕ)
  | spawn (i : ℕ)

/-- Where a process that the scheduler switches to goes on. -/
def Pc.resume : Pc → Pc
  | .asleep chan lk => .resumed chan lk
  | .yielded => .yieldResumed
  | pc => pc

namespace Sys

def setSlot (s : Sys) (i : ℕ) (f : Slot → Slot) : Sys :=
  {s with slots := update s.slots i (f (s.slots i))}

def goto (s : Sys) (p : ℕ) (pc : Pc) : Sys := {s with pc := update s.pc p pc}

def setCpu (s : Sys) (c : ℕ) (cpu : Cpu) : Sys := {s with cpus := update s.cpus c cpu}

def lock (s : Sys) (i : ℕ) (holder : Holder) : Sys := s.setSlot i fun slot => {slot with lock := some holder}

def takeCond (s : Sys) (p lk : ℕ) : Sys :=
  {s with cond := update s.cond lk (some p), noff := update s.noff p (s.noff p + 1)}

def releaseCond (s : Sys) (p lk : ℕ) : Sys :=
  {s with cond := update s.cond lk none, noff := update s.noff p (s.noff p - 1)}

/-- `sched`: the scheduler of the CPU goes on, and has the lock of the process now. -/
def switch (s : Sys) (p c : ℕ) (pc : Pc) (f : Slot → Slot) : Except Panic Sys :=
  if s.noff p = 0 then
    .ok (((s.setSlot p fun slot => {f slot with lock := some (.cpu c)}).goto p pc).setCpu c (.back p))
  else .error .schedLocks

def next (n : ℕ) (s : Sys) (p c : ℕ) : Except Panic Sys :=
  match s.pc p with
  | .sleepAcquire chan lk => .ok ((s.lock p (.proc p)).goto p (.sleepRelease chan lk))
  | .sleepRelease chan lk => .ok ((s.releaseCond p lk).goto p (.sleepSet chan lk))
  | .sleepSet chan lk =>
    .ok ((s.setSlot p fun slot => {slot with chan := chan, state := .sleeping}).goto p (.sleepSwitch chan lk))
  | .sleepSwitch chan lk => s.switch p c (.asleep chan lk) id
  | .resumed chan lk =>
    .ok ((s.setSlot p fun slot => {slot with chan := 0, lock := none}).goto p (.reacquire chan lk))
  | .reacquire _ lk => .ok ((s.takeCond p lk).goto p .running)
  | .waking chan i =>
    if i < n then
      if i = p then .ok (s.goto p (.waking chan (i + 1)))
      else .ok ((s.lock i (.proc p)).goto p (.wakingHeld chan i))
    else .ok (s.goto p .running)
  | .wakingHeld chan i =>
    .ok ((s.setSlot i fun slot =>
      {slot with
        state := if slot.state = .sleeping ∧ slot.chan = chan then .runnable else slot.state
        lock := none}).goto p (.waking chan (i + 1)))
  | .killing i found => .ok ((s.lock i (.proc p)).goto p (.killingHeld i found))
  | .killingHeld i found =>
    .ok ((s.setSlot i fun slot =>
      {slot with
        state := if found ∧ slot.state = .sleeping then .runnable else slot.state
        lock := none}).goto p .running)
  | .yieldAcquire => .ok ((s.lock p (.proc p)).goto p .yieldSwitch)
  | .yieldSwitch => s.switch p c .yielded fun slot => {slot with state := .runnable}
  | .yieldResumed => .ok ((s.setSlot p fun slot => {slot with lock := none}).goto p .running)
  | .exitAcquire => .ok ((s.lock p (.proc p)).goto p .exitSwitch)
  | .exitSwitch => s.switch p c .dead fun slot => {slot with state := .zombie}
  | .running | .asleep _ _ | .yielded | .dead => .ok s

def sched (n : ℕ) (s : Sys) (c : ℕ) : Sys :=
  match s.cpus c with
  | .looking i => if i < n then (s.lock i (.cpu c)).setCpu c (.holding i) else s.setCpu c (.looking 0)
  | .holding i =>
    if (s.slots i).state = .runnable then
      ((s.setSlot i fun slot => {slot with state := .running, lock := some (.proc i)}).goto
        i (s.pc i).resume).setCpu c (.running i)
    else (s.setSlot i fun slot => {slot with lock := none}).setCpu c (.looking (i + 1))
  | .running _ => s
  | .back p => (s.setSlot p fun slot => {slot with lock := none}).setCpu c (.looking (p + 1))

def step (n : ℕ) (s : Sys) : Event → Except Panic Sys
  | .acquire p lk => .ok (s.takeCond p lk)
  | .release p lk => .ok (s.releaseCond p lk)
  | .sleep p chan lk => .ok (s.goto p (.sleepAcquire chan lk))
  | .wakeup p chan => .ok (s.goto p (.waking chan 0))
  | .kkill p i found => .ok (s.goto p (.killing i found))
  | .yield p => .ok (s.goto p .yieldAcquire)
  | .exit p => .ok (s.goto p .exitAcquire)
  | .next p c => s.next n p c
  | .sched c => .ok (s.sched n c)
  | .reap i => .ok (s.setSlot i fun slot => {slot with state := .unused})
  | .spawn i => .ok ((s.setSlot i fun slot => {slot with state := .runnable}).goto i .yielded)

/-- The lock that the next step of a process takes is free, and the CPU that it gives up
is its own. -/
def Ready (n : ℕ) (s : Sys) (p c : ℕ) : Pc → Prop
  | .sleepAcquire _ _ | .yieldAcquire | .exitAcquire => (s.slots p).lock = none
  | .reacquire _ lk => s.cond lk = none
  | .waking _ i => i < n → i ≠ p → (s.slots i).lock = none
  | .killing i _ => (s.slots i).lock = none
  | .sleepSwitch _ _ | .yieldSwitch | .exitSwitch => s.cpus c = .running p
  | .running | .sleepRelease _ _ | .sleepSet _ _ | .asleep _ _ | .resumed _ _ | .wakingHeld _ _ | .killingHeld _ _
  | .yielded | .yieldResumed | .dead => True

/-- The lock that the next step of a scheduler takes is free. -/
def ReadyCpu (n : ℕ) (s : Sys) : Cpu → Prop
  | .looking i => i < n → (s.slots i).lock = none
  | .holding _ | .running _ | .back _ => True

def allowed (n : ℕ) (s : Sys) : Event → Prop
  | .acquire p lk => s.pc p = .running ∧ s.cond lk = none
  | .release p lk => s.pc p = .running ∧ s.cond lk = some p
  | .sleep p _ lk => p < n ∧ s.pc p = .running ∧ s.cond lk = some p
  | .wakeup p _ | .kkill p _ _ | .yield p | .exit p => s.pc p = .running
  | .next p c => s.Ready n p c (s.pc p)
  | .sched c => s.ReadyCpu n (s.cpus c)
  | .reap i => (s.slots i).lock = none ∧ (s.slots i).state = .zombie
  | .spawn i => i < n ∧ (s.slots i).lock = none ∧ (s.slots i).state = .unused

instance (n : ℕ) (s : Sys) (p c : ℕ) : ∀ pc, Decidable (s.Ready n p c pc)
  | .sleepAcquire _ _ | .yieldAcquire | .exitAcquire | .reacquire _ _ | .killing _ _ | .sleepSwitch _ _ | .yieldSwitch
  | .exitSwitch => inferInstanceAs (Decidable (_ = _))
  | .waking _ i => inferInstanceAs (Decidable (i < n → i ≠ p → (s.slots i).lock = none))
  | .running | .sleepRelease _ _ | .sleepSet _ _ | .asleep _ _ | .resumed _ _ | .wakingHeld _ _ | .killingHeld _ _
  | .yielded | .yieldResumed | .dead => .isTrue trivial

instance (n : ℕ) (s : Sys) : ∀ cpu, Decidable (s.ReadyCpu n cpu)
  | .looking i => inferInstanceAs (Decidable (i < n → (s.slots i).lock = none))
  | .holding _ | .running _ | .back _ => .isTrue trivial

def boot : Sys where
  slots := update (fun _ => ⟨.unused, 0, none⟩) 0 ⟨.runnable, 0, none⟩
  pc := update (fun _ => .dead) 0 .yielded
  cpus := fun _ => .looking 0
  cond := fun _ => none
  noff := fun _ => 0

end Sys

/-- Any interleaving of the steps of processes and schedulers, over `n` slots. -/
def processes (n : ℕ) : Protocol Panic Sys Event := ⟨Sys.step n, Sys.allowed n⟩

instance (n : ℕ) (s : Sys) : ∀ e, Decidable ((processes n).allowed s e)
  | .acquire .. | .release .. | .sleep .. | .reap .. | .spawn .. => inferInstanceAs (Decidable (_ ∧ _))
  | .wakeup .. | .kkill .. | .yield .. | .exit .. => inferInstanceAs (Decidable (_ = _))
  | .next .. => inferInstanceAs (Decidable (Sys.Ready ..))
  | .sched .. => inferInstanceAs (Decidable (Sys.ReadyCpu ..))

end Xv6.Sleep
