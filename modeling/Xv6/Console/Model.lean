import Xv6.Machine.Run
import Xv6.Machine.Basic

/-! Console input (`kernel/console.c`).

The interrupt handler appends characters to a ring, edits the line that is being typed, and
commits it; any number of processes read what is committed. A reader holds the lock of the
console until it returns or sleeps, so that what it does up to then is one step. It goes on
from `sleep` at any time, whoever woke it up. Copies to the reader's buffer succeed.

`World` is a console of some kind with its readers: `ring` is the one of the source. -/
namespace Xv6.Console
open Function (update)

def inputBufSize : ℕ := 128

def control (x : Char) : UInt8 := x.toUInt8 - '@'.toUInt8

def newline : UInt8 := '\n'.toUInt8

def carriageReturn : UInt8 := '\r'.toUInt8

def delete : UInt8 := 0x7f

def backspace : ℕ := 0x100

/-- `struct console`, and what was given to `consputc`. -/
structure Cons where
  buf : ℕ → UInt8
  /-- Read index -/
  r : ℕ
  /-- Write index -/
  w : ℕ
  /-- Edit index -/
  e : ℕ
  echo : List ℕ

/-! ### The interrupt handler -/

def Cons.erase (s : Cons) : Cons := {s with e := uint32 (s.e - 1), echo := s.echo ++ [backspace]}

def Cons.put (s : Cons) (c : UInt8) : Cons :=
  {s with
    echo := s.echo ++ [c.toNat]
    buf := update s.buf (s.e % inputBufSize) c
    e := uint32 (s.e + 1)}

def killLoop : ℕ → Cons → Result Cons
  | 0, _ => .error .diverges
  | fuel + 1, s =>
    if s.e ≠ s.w ∧ s.buf (uint32 (s.e - 1) % inputBufSize) ≠ newline then killLoop fuel s.erase
    else .ok s

def consoleintr (c : UInt8) (s : Cons) : Result Cons :=
  -- `procdump` only prints.
  if c = control 'P' then .ok s
  else if c = control 'U' then killLoop loopFuel s
  else if c = control 'H' ∨ c = delete then .ok (if s.e ≠ s.w then s.erase else s)
  else if c ≠ 0 ∧ uint32 (s.e - s.r) < inputBufSize then
    let c := if c = carriageReturn then newline else c
    let s := s.put c
    .ok (if c = newline ∨ c = control 'D' ∨ uint32 (s.e - s.r) = inputBufSize then {s with w := s.e}
      else s)
  else .ok s

/-! ### Reading -/

/-- How a reader gives the lock back. -/
inductive Turn where
  /-- The call returns; `eof` says whether it has taken a `^D`. -/
  | returns (value : ℤ) (eof : Bool)
  /-- The call sleeps with `n` bytes left to read. -/
  | sleeps (n : ℕ)
  deriving DecidableEq

/-- The loop of `consoleread`, with the bytes that are copied to the reader. -/
def readLoop (killed : Bool) (target : ℕ) : ℕ → Cons → List UInt8 × Cons × Turn
  | 0, s => ([], s, .returns target false)
  | n + 1, s =>
    if s.r = s.w then ([], s, if killed then .returns (-1) false else .sleeps (n + 1))
    else
      let c := s.buf (s.r % inputBufSize)
      let s := {s with r := uint32 (s.r + 1)}
      if c = control 'D' then
        if n + 1 < target then
          -- The `^D` is left for the next read.
          ([], {s with r := uint32 (s.r - 1)}, .returns (target - (n + 1)) false)
        else ([], s, .returns (target - (n + 1)) true)
      else if c = newline then ([c], s, .returns (target - n) false)
      else
        let (cs, s, turn) := readLoop killed target n s
        (c :: cs, s, turn)

/-! ### Readers -/

/-- A console of some kind. -/
structure Device (σ : Type) where
  intr : UInt8 → σ → Result σ
  read : Bool → ℕ → ℕ → σ → List UInt8 × σ × Turn

def ring : Device Cons := ⟨consoleintr, readLoop⟩

inductive Reader where
  | idle
  /-- In `sleep`, with `n` of `target` bytes left; it has got the others. -/
  | sleeping (target n : ℕ) (got : List UInt8)
  deriving DecidableEq

/-- A call of `consoleread` that has returned. -/
structure Return where
  proc : ℕ
  bytes : List UInt8
  value : ℤ
  eof : Bool
  deriving DecidableEq

structure World (σ : Type) where
  console : σ
  readers : ℕ → Reader
  killed : ℕ → Bool
  /-- Who got which byte. -/
  delivered : List (ℕ × UInt8)
  /-- The calls that have returned, the latest first. -/
  returned : List Return

inductive Call where
  | intr (c : UInt8)
  /-- A process calls `consoleread`. A negative `n` is as good as 0. -/
  | read (p : ℕ) (n : ℤ)
  /-- A process goes on from `sleep`. -/
  | wake (p : ℕ)
  | kill (p : ℕ)

namespace World

variable {σ : Type}

def start (s : σ) : World σ := ⟨s, fun _ => .idle, fun _ => false, [], []⟩

/-- Process `p` has the lock, until it returns or sleeps. -/
def turn (D : Device σ) (w : World σ) (p target n : ℕ) (got : List UInt8) : World σ :=
  let (bytes, s, turn) := D.read (w.killed p) target n w.console
  let w := {w with console := s, delivered := w.delivered ++ bytes.map (p, ·)}
  match turn with
  | .returns value eof =>
    {w with
      readers := update w.readers p .idle
      returned := ⟨p, got ++ bytes, value, eof⟩ :: w.returned}
  | .sleeps n => {w with readers := update w.readers p (.sleeping target n (got ++ bytes))}

def step (D : Device σ) (w : World σ) : Call → Result (World σ)
  | .intr c => do
    let s ← D.intr c w.console
    return {w with console := s}
  | .read p n =>
    match w.readers p with
    | .idle => .ok (w.turn D p n.toNat n.toNat [])
    | .sleeping .. => .ok w
  | .wake p =>
    match w.readers p with
    | .idle => .ok w
    | .sleeping target n got => .ok (w.turn D p target n got)
  | .kill p => .ok {w with killed := update w.killed p true}

end World

/-- Calls of processes, and characters, in any order. -/
def calls {σ : Type} (D : Device σ) : Protocol Fault (World σ) Call := ⟨World.step D, fun _ _ => True⟩

end Xv6.Console
