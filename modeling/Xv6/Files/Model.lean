import Xv6.Machine.Basic
import Xv6.Machine.Run

/-! Open files (`kernel/file.c`, the calls of `kernel/sysfile.c` on descriptors, the ends of a pipe in
`kernel/pipe.c`, and what `kfork` and `kexit` do with descriptors).

A file, a pipe and the buffer of a pipe are objects that are allocated and given back. What the
allocator returns is given with the call: an address that is not in use, or `0`. The use or the free of
an object that is not allocated ends the run, and so does a panic. Calls are atomic. The inode of a
file belongs to another model. -/
namespace Xv6.Files

open Function (update)

def nofile : ℕ := 16

def ndev : ℤ := 10

/-- `FD_NONE`, `FD_PIPE`, `FD_INODE`, `FD_DEVICE`. -/
inductive Kind where
  | none
  | pipe
  | inode
  | device
  deriving DecidableEq, Repr

structure File where
  type : Kind
  ref : ℕ
  readable : Bool
  writable : Bool
  pipe : ℕ
  ip : ℕ
  off : ℕ
  major : ℤ
  deriving DecidableEq

/-- `struct pipe`, but for the lock and what is in the buffer. -/
structure Pipe where
  data : ℕ
  nread : ℕ
  nwrite : ℕ
  readopen : Bool
  writeopen : Bool
  deriving DecidableEq

/-- What is allocated. -/
inductive Object where
  | file (f : ℕ)
  | pipe (pi : ℕ)
  | buffer (data : ℕ)
  deriving DecidableEq, Repr

inductive Event where
  | alloc (o : Object)
  | free (o : Object)
  deriving DecidableEq, Repr

inductive Stop where
  | panic (message : String)
  /-- An object is used or given back that is not allocated. -/
  | notLive (o : Object)
  deriving DecidableEq, Repr

structure State where
  file : ℕ → Option File
  pipe : ℕ → Option Pipe
  buffer : ℕ → Bool
  pipeCache : Bool
  /-- `proc[p].ofile[fd]`; `0` is a free slot. -/
  ofile : ℕ → ℕ → ℕ
  /-- The processes that make calls. -/
  used : ℕ → Bool
  /-- What was allocated and given back, the latest first. -/
  log : List Event

namespace State

def live (s : State) : Object → Bool
  | .file f => (s.file f).isSome
  | .pipe pi => (s.pipe pi).isSome
  | .buffer data => s.buffer data

def setFile (s : State) (f : ℕ) (x : File) : State := {s with file := update s.file f (some x)}

def setPipe (s : State) (pi : ℕ) (x : Pipe) : State := {s with pipe := update s.pipe pi (some x)}

def setSlot (s : State) (p fd f : ℕ) : State := {s with ofile := update s.ofile p (update (s.ofile p) fd f)}

def note (s : State) (e : Event) : State := {s with log := e :: s.log}

/-- The object is not allocated any more. -/
def drop (s : State) : Object → State
  | .file f => {s with file := update s.file f none}
  | .pipe pi => {s with pipe := update s.pipe pi none}
  | .buffer data => {s with buffer := update s.buffer data false}

def release (s : State) (o : Object) : Except Stop State :=
  if s.live o then .ok ((s.drop o).note (.free o)) else .error (.notLive o)

end State

/-! ### Files and pipes -/

/-- `memset(f, 0, sizeof(*f)); f->ref = 1`. -/
def File.new : File := ⟨.none, 1, false, false, 0, 0, 0, 0⟩

/-- `filealloc`, when `kmem_cache_alloc` returns `f`. -/
def filealloc (f : ℕ) (s : State) : State :=
  if f = 0 then s else (s.setFile f .new).note (.alloc (.file f))

def filedup (f : ℕ) (s : State) : Except Stop State :=
  match s.file f with
  | none => .error (.notLive (.file f))
  | some x =>
    if x.ref < 1 then .error (.panic "filedup")
    else .ok (s.setFile f {x with ref := x.ref + 1})

def Pipe.close (x : Pipe) (writable : Bool) : Pipe :=
  if writable then {x with writeopen := false} else {x with readopen := false}

def pipeclose (pi : ℕ) (writable : Bool) (s : State) : Except Stop State :=
  match s.pipe pi with
  | none => .error (.notLive (.pipe pi))
  | some x =>
    let x := x.close writable
    let s := s.setPipe pi x
    if x.readopen = false ∧ x.writeopen = false then do
      let s ← s.release (.buffer x.data)
      s.release (.pipe pi)
    else .ok s

/-- What a file that is gone referred to; an inode is put back in another model. -/
def closeObject (ff : File) (s : State) : Except Stop State :=
  if ff.type = .pipe then pipeclose ff.pipe ff.writable s else .ok s

def fileclose (f : ℕ) (s : State) : Except Stop State :=
  match s.file f with
  | none => .error (.notLive (.file f))
  | some ff =>
    if ff.ref < 1 then .error (.panic "fileclose")
    else if ff.ref - 1 > 0 then .ok (s.setFile f {ff with ref := ff.ref - 1})
    else do
      let s := s.setFile f {ff with ref := 0, type := .none}
      let s ← closeObject ff s
      s.release (.file f)

/-- What the allocators and `copyout` answer to one `pipe` call. -/
structure Answers where
  /-- Of the first `filealloc`. -/
  f0 : ℕ
  /-- Of the second. -/
  f1 : ℕ
  /-- `kmem_cache_create` returns a cache. -/
  cache : Bool
  /-- Of `kmem_cache_alloc`. -/
  pi : ℕ
  /-- Of `kmalloc`. -/
  data : ℕ
  /-- Whether each `copyout` succeeds. -/
  copyout0 : Bool
  copyout1 : Bool
  deriving DecidableEq

def badPipe (pi : ℕ) (s : State) : Except Stop State :=
  if pi = 0 then .ok s
  else
    match s.pipe pi with
    | none => .error (.notLive (.pipe pi))
    | some x => do
      let s ← if x.data = 0 then .ok s else s.release (.buffer x.data)
      if s.pipeCache then s.release (.pipe pi) else .ok s

def badFile (f : ℕ) (s : State) : Except Stop State := if f = 0 then .ok s else fileclose f s

/-- The end of `pipealloc` when something failed. -/
def bad (pi f0 f1 : ℕ) (s : State) : Except Stop (Bool × State) := do
  let s ← badPipe pi s
  let s ← badFile f0 s
  let s ← badFile f1 s
  return (false, s)

/-- `kmem_cache_alloc` gives a pipe, whose fields hold anything but for `data`, which is set next. -/
def allocPipe (a : Answers) (s : State) : State :=
  (s.setPipe a.pi ⟨a.data, 0, 0, true, true⟩).note (.alloc (.pipe a.pi))

def allocBuffer (a : Answers) (s : State) : State :=
  {s with buffer := update s.buffer a.data true}.note (.alloc (.buffer a.data))

/-- The fields of the files; those of the pipe have these values already. -/
def pipeFields (a : Answers) (s : State) : State :=
  let s := s.setFile a.f0 {File.new with type := .pipe, readable := true, writable := false, pipe := a.pi}
  s.setFile a.f1 {File.new with type := .pipe, readable := false, writable := true, pipe := a.pi}

/-- The part of `pipealloc` that has files and a cache. -/
def pipeFrom (a : Answers) (s : State) : Except Stop (Bool × State) :=
  if a.pi = 0 then bad 0 a.f0 a.f1 s
  else
    let s := allocPipe a s
    if a.data = 0 then bad a.pi a.f0 a.f1 s
    else .ok (true, pipeFields a (allocBuffer a s))

/-- Returns whether there is a pipe, whose ends are then `a.f0` and `a.f1`. -/
def pipealloc (a : Answers) (s : State) : Except Stop (Bool × State) :=
  let s := filealloc a.f0 s
  if a.f0 = 0 then bad 0 0 0 s
  else
    let s := filealloc a.f1 s
    if a.f1 = 0 then bad 0 a.f0 0 s
    else if s.pipeCache = false ∧ a.cache = false then bad 0 a.f0 a.f1 s
    else pipeFrom a {s with pipeCache := true}

/-! ### Descriptors -/

def argfd (p : ℕ) (fd : ℤ) (s : State) : Option (ℕ × ℕ) :=
  if fd < 0 ∨ fd ≥ nofile ∨ s.ofile p fd.toNat = 0 then none
  else some (fd.toNat, s.ofile p fd.toNat)

def fdalloc (p f : ℕ) (s : State) : Option (ℕ × State) :=
  match (List.range nofile).find? fun fd => s.ofile p fd = 0 with
  | none => none
  | some fd => some (fd, s.setSlot p fd f)

def sysDup (p : ℕ) (fd : ℤ) (s : State) : Except Stop (ℤ × State) :=
  match argfd p fd s with
  | none => .ok (-1, s)
  | some (_, f) =>
    match fdalloc p f s with
    | none => .ok (-1, s)
    | some (fd, s) => do return (fd, ← filedup f s)

def sysClose (p : ℕ) (fd : ℤ) (s : State) : Except Stop (ℤ × State) :=
  match argfd p fd s with
  | none => .ok (-1, s)
  | some (fd, f) => do return (0, ← fileclose f (s.setSlot p fd 0))

/-- `T_DIR`, `T_FILE`, `T_DEVICE`. -/
inductive InodeType where
  | dir
  | file
  | device
  deriving DecidableEq, Repr

/-- What `sys_open` reads of an inode. -/
structure Inode where
  ip : ℕ
  type : InodeType
  major : ℤ
  deriving DecidableEq

def has (omode flag : ℕ) : Bool := omode &&& flag ≠ 0

def oWronly : ℕ := 0x001

def oRdwr : ℕ := 0x002

def oCreate : ℕ := 0x200

/-- The fields of a file that `sys_open` fills in. -/
def openFields (ip : Inode) (omode : ℕ) : File :=
  let f : File := if ip.type = .device then {File.new with type := .device, major := ip.major}
    else {File.new with type := .inode, off := 0}
  {f with
    ip := ip.ip
    readable := !has omode oWronly
    writable := has omode oWronly || has omode oRdwr}

/-- `sys_open`, when `create` or `namei` gives `inode` and `kmem_cache_alloc` gives `f`. -/
def sysOpen (p omode : ℕ) (inode : Option Inode) (f : ℕ) (s : State) : Except Stop (ℤ × State) :=
  match inode with
  | none => .ok (-1, s)
  | some ip =>
    if ¬ has omode oCreate ∧ ip.type = .dir ∧ omode ≠ 0 then .ok (-1, s)
    else if ip.type = .device ∧ (ip.major < 0 ∨ ip.major ≥ ndev) then .ok (-1, s)
    else
      let s := filealloc f s
      if f = 0 then .ok (-1, s)
      else
        match fdalloc p f s with
        | none => do return (-1, ← fileclose f s)
        | some (fd, s) => .ok (fd, s.setFile f (openFields ip omode))

/-- `sys_pipe` fails with a pipe at hand. -/
def closeBoth (a : Answers) (s : State) : Except Stop (ℤ × State) := do
  let s ← fileclose a.f0 s
  let s ← fileclose a.f1 s
  return (-1, s)

def pipeDescriptors (p : ℕ) (a : Answers) (s : State) : Except Stop (ℤ × State) :=
  match fdalloc p a.f0 s with
  | none => closeBoth a s
  | some (fd0, s) =>
    match fdalloc p a.f1 s with
    | none => closeBoth a (s.setSlot p fd0 0)
    | some (fd1, s) =>
      if a.copyout0 = false ∨ a.copyout1 = false then closeBoth a ((s.setSlot p fd0 0).setSlot p fd1 0)
      else .ok (0, s)

def sysPipe (p : ℕ) (a : Answers) (s : State) : Except Stop (ℤ × State) := do
  let (ok, s) ← pipealloc a s
  if ok then pipeDescriptors p a s else return (-1, s)

def forkLoop (p np : ℕ) : List ℕ → State → Except Stop State
  | [], s => .ok s
  | fd :: fds, s => do
    let s ← if s.ofile p fd = 0 then .ok s
      else (·.setSlot np fd (s.ofile p fd)) <$> filedup (s.ofile p fd) s
    forkLoop p np fds s

/-- `kfork`, when `child` is the process it gets, with its memory. -/
def kfork (p : ℕ) (child : Option ℕ) (s : State) : Except Stop (ℤ × State) :=
  match child with
  | none => .ok (-1, s)
  | some np => do
    let s ← forkLoop p np (List.range nofile) s
    return (np, {s with used := update s.used np true})

def exitLoop (p : ℕ) : List ℕ → State → Except Stop State
  | [], s => .ok s
  | fd :: fds, s => do
    let s ← if s.ofile p fd = 0 then .ok s
      else (·.setSlot p fd 0) <$> fileclose (s.ofile p fd) s
    exitLoop p fds s

def kexit (p : ℕ) (s : State) : Except Stop (ℤ × State) := do
  let s ← exitLoop p (List.range nofile) s
  return (0, {s with used := update s.used p false})

/-! ### Runs -/

inductive Call where
  | sysOpen (p omode : ℕ) (inode : Option Inode) (f : ℕ)
  | sysDup (p : ℕ) (fd : ℤ)
  | sysPipe (p : ℕ) (a : Answers)
  | kfork (p : ℕ) (child : Option ℕ)
  | sysClose (p : ℕ) (fd : ℤ)
  | kexit (p : ℕ)

def Call.proc : Call → ℕ
  | .sysOpen p _ _ _ | .sysDup p _ | .sysPipe p _ | .kfork p _ | .sysClose p _ | .kexit p => p

def call (s : State) : Call → Except Stop (ℤ × State)
  | .sysOpen p omode inode f => sysOpen p omode inode f s
  | .sysDup p fd => sysDup p fd s
  | .sysPipe p a => sysPipe p a s
  | .kfork p child => kfork p child s
  | .sysClose p fd => sysClose p fd s
  | .kexit p => kexit p s

/-- An address that an allocator may return: none of the objects in use has it. -/
def Unused (s : State) (a : ℕ) (o : ℕ → Object) : Prop := a = 0 ∨ s.live (o a) = false

/-- The allocators give what is not in use, and `allocproc` a process that is not. -/
def Answered (s : State) : Call → Prop
  | .sysOpen _ _ _ f => Unused s f .file
  | .sysPipe _ a => Unused s a.f0 .file ∧ Unused s a.f1 .file ∧ (a.f1 = 0 ∨ a.f1 ≠ a.f0) ∧
      Unused s a.pi .pipe ∧ Unused s a.data .buffer
  | .kfork _ child => ∀ np ∈ child, np < nproc ∧ s.used np = false
  | .sysDup _ _ | .sysClose _ _ | .kexit _ => True

def calls : Protocol Stop State Call where
  step s c := Prod.snd <$> call s c
  allowed s c := c.proc < nproc ∧ s.used c.proc = true ∧ Answered s c

def boot : State := ⟨fun _ => none, fun _ => none, fun _ => false, false, fun _ _ => 0, fun p => p = 0, []⟩

end Xv6.Files
