import Xv6.Vm.Pagetable

/-! Processes and their memory (`kernel/proc.c`, `kernel/sysproc.c`).

A process is a slot of the process table. The state has what these calls read and write of
a slot: open files, the working directory and the name are in `Task`, and the kernel stack's
contents are left out. -/
namespace Xv6.Vm

inductive ProcState where
  | unused | used | sleeping | runnable | running | zombie
  deriving DecidableEq, Repr

structure Proc where
  state : ProcState
  killed : ℤ
  xstate : ℤ
  pid : ℤ
  parent : Option ℕ
  sz : ℕ
  pagetable : ℕ
  trapframe : ℕ

def Proc.zero : Proc := ⟨.unused, 0, 0, 0, none, 0, 0, 0⟩

structure Os where
  mem : Memory
  /-- The slab and buddy allocators. -/
  slab : Slab.Kmem
  kernelPagetable : ℕ
  proc : ℕ → Proc
  nextpid : ℤ
  initproc : ℕ

def Os.setProc (s : Os) (p : ℕ) (f : Proc → Proc) : Os :=
  {s with proc := Function.update s.proc p (f (s.proc p))}

/-! ### Page tables of processes -/

def procPagetable (L : Linker) (frame : ℕ) (m : Memory) : Except Stop (ℕ × Memory) := do
  let (table, m) := uvmcreate m
  if table = 0 then return (0, m)
  let (result, m) ← mappages table trampoline pgsize L.trampolineCode (pteR ||| pteX) m
  if result < 0 then
    let m ← uvmfree L table 0 m
    return (0, m)
  let (result, m) ← mappages table trapframe pgsize frame (pteR ||| pteW) m
  if result < 0 then
    let m ← uvmunmap L table trampoline 1 false m
    let m ← uvmfree L table 0 m
    return (0, m)
  return (table, m)

def procFreepagetable (L : Linker) (table sz : ℕ) (m : Memory) : Except Stop Memory := do
  let m ← uvmunmap L table trampoline 1 false m
  let m ← uvmunmap L table trapframe 1 false m
  uvmfree L table sz m

def freeproc (L : Linker) (p : ℕ) (s : Os) : Except Stop Os := do
  let pr := s.proc p
  let m ← if pr.trapframe ≠ 0 then pageKfree L pr.trapframe s.mem else pure s.mem
  let m ← if pr.pagetable ≠ 0 then procFreepagetable L pr.pagetable pr.sz m else pure m
  return {s with mem := m}.setProc p fun _ => .zero

/-- The slot found, with its lock, or none. -/
def allocproc (L : Linker) (s : Os) : Except Stop (Option ℕ × Os) :=
  match (List.range nproc).find? fun p => (s.proc p).state = .unused with
  | none => .ok (none, s)
  | some p => do
    let s := {s with nextpid := int32 (s.nextpid + 1)}.setProc p fun pr =>
      {pr with pid := s.nextpid, state := .used}
    let (frame, m) := kalloc s.mem
    let s := {s with mem := m}.setProc p fun pr => {pr with trapframe := frame}
    if frame = 0 then
      let s ← freeproc L p s
      return (none, s)
    let (table, m) ← procPagetable L frame s.mem
    let s := {s with mem := m}.setProc p fun pr => {pr with pagetable := table}
    if table = 0 then
      let s ← freeproc L p s
      return (none, s)
    return (some p, s)

def userinit (L : Linker) (s : Os) : Except Stop Os := do
  let (found, s) ← allocproc L s
  match found with
  | none => .error (.fault .nullPointer)
  | some p => return {s with initproc := p}.setProc p fun pr => {pr with state := .runnable}

/-! ### Growing, forking, exiting and waiting -/

def growproc (L : Linker) (p : ℕ) (n : ℤ) (s : Os) : Except Stop (ℤ × Os) := do
  let pr := s.proc p
  if 0 < n then
    if trapframe < uint64 (pr.sz + n) then return (-1, s)
    let (sz, m) ← uvmalloc L pr.pagetable pr.sz (uint64 (pr.sz + n)) pteW s.mem
    if sz = 0 then return (-1, {s with mem := m})
    return (0, {s with mem := m}.setProc p fun pr => {pr with sz := sz})
  else if n < 0 then
    let (sz, m) ← uvmdealloc L pr.pagetable pr.sz (uint64 (pr.sz + n)) s.mem
    return (0, {s with mem := m}.setProc p fun pr => {pr with sz := sz})
  else return (0, s)

def sbrkEager : ℤ := 1

def sysSbrk (L : Linker) (p : ℕ) (n t : ℤ) (s : Os) : Except Stop (ℤ × Os) := do
  let addr := (s.proc p).sz
  if t = sbrkEager ∨ n < 0 then
    let (result, s) ← growproc L p n s
    if result < 0 then return (-1, s)
    return (addr, s)
  else
    if uint64 (addr + n) < addr then return (-1, s)
    if trapframe < uint64 (addr + n) then return (-1, s)
    return (addr, s.setProc p fun pr => {pr with sz := uint64 (addr + n)})

/-- The child with a copy of the memory of `p`, or none. -/
def forkMemory (L : Linker) (p : ℕ) (s : Os) : Except Stop (Option ℕ × Os) := do
  let (found, s) ← allocproc L s
  match found with
  | none => return (none, s)
  | some np =>
    let (result, m) ← uvmcopy L (s.proc p).pagetable (s.proc np).pagetable (s.proc p).sz s.mem
    let s := {s with mem := m}
    if result < 0 then
      let s ← freeproc L np s
      return (none, s)
    let s := s.setProc np fun pr =>
      {pr with sz := (s.proc p).sz, parent := some p, state := .runnable}
    return (some np, s)

def kfork (L : Linker) (p : ℕ) (s : Os) : Except Stop (ℤ × Os) := do
  let (child, s) ← forkMemory L p s
  match child with
  | none => return (-1, s)
  | some np => return ((s.proc np).pid, s)

def reparent (p : ℕ) (s : Os) : Os :=
  {s with proc := fun q =>
    if q < nproc ∧ (s.proc q).parent = some p then {s.proc q with parent := some s.initproc}
    else s.proc q}

def kexit (p : ℕ) (status : ℤ) (s : Os) : Except Stop Os :=
  if p = s.initproc then .error (.panic .initExiting)
  else .ok ((reparent p s).setProc p fun pr => {pr with xstate := status, state := .zombie})

end Xv6.Vm
