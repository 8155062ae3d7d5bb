import Xv6.Vm.Copy

/-! Replacing a process's memory by a program (`kernel/exec.c`).

A file is its size and its bytes; a read from it returns what `readi` returns when every
block can be read. What the program's memory holds is loaded as in the source. -/
namespace Xv6.Vm

structure File where
  size : ℕ
  byte : ℕ → ℕ

/-- The bytes read; fewer than `n` at the end of the file. -/
def readi (f : File) (off n : ℕ) : List ℕ :=
  let off := uint32 off
  if f.size < off ∨ uint32 (off + n) < off then []
  else (List.range (min n (f.size - off))).map fun i => f.byte (off + i)

/-- The number in `n` bytes from `i` on, lowest first. -/
def field (bytes : List ℕ) (i n : ℕ) : ℕ :=
  ((List.range n).map fun j => (bytes[i + j]?).getD 0 * 2 ^ (8 * j)).sum

def elfMagic : ℕ := 0x464C457F

def sizeofElfhdr : ℕ := 64

def sizeofProghdr : ℕ := 56

structure Proghdr where
  type : ℕ
  flags : ℕ
  off : ℕ
  vaddr : ℕ
  filesz : ℕ
  memsz : ℕ

def Proghdr.ofBytes (b : List ℕ) : Proghdr :=
  ⟨field b 0 4, field b 4 4, field b 8 8, field b 16 8, field b 32 8, field b 40 8⟩

def elfProgLoad : ℕ := 1

def flags2perm (flags : ℕ) : ℕ :=
  (if flags &&& 1 ≠ 0 then pteX else 0) ||| if flags &&& 2 ≠ 0 then pteW else 0

/-- Loads `n` pages of a segment; false where a read is short. -/
def loadsegLoop (table : ℕ) (f : File) (va offset sz : ℕ) :
    ℕ → ℕ → Memory → Except Stop (Bool × Memory)
  | 0, _, m => .ok (true, m)
  | n + 1, i, m =>
    let pa := walkaddr table (uint64 (va + i)) m
    if pa = 0 then .error (.panic .loadseg)
    else
      let count := min pgsize (sz - i)
      let read := readi f (offset + i) count
      let m := m.writeBytes pa 0 read
      if read.length ≠ count then .ok (false, m)
      else loadsegLoop table f va offset sz n (i + pgsize) m

def loadseg (table va : ℕ) (f : File) (offset sz : ℕ) (m : Memory) : Except Stop (Bool × Memory) :=
  let sz := uint32 sz
  loadsegLoop table f va (uint32 offset) sz ((sz + pgsize - 1) / pgsize) 0 m

/-- Loads `n` program headers from `off` on: whether all went well, and the size so far. -/
def loadLoop (L : Linker) (table : ℕ) (f : File) :
    ℕ → ℕ → ℕ → Memory → Except Stop (Bool × ℕ × Memory)
  | 0, _, sz, m => .ok (true, sz, m)
  | n + 1, off, sz, m => do
    let read := readi f off sizeofProghdr
    if read.length ≠ sizeofProghdr then return (false, sz, m)
    let ph := Proghdr.ofBytes read
    let off := uint32 (off + sizeofProghdr)
    if ph.type ≠ elfProgLoad then loadLoop L table f n off sz m
    else if ph.memsz < ph.filesz then return (false, sz, m)
    else if uint64 (ph.vaddr + ph.memsz) < ph.vaddr then return (false, sz, m)
    else if ph.vaddr % pgsize ≠ 0 then return (false, sz, m)
    else
      let (sz1, m) ←
        uvmalloc L table sz (uint64 (ph.vaddr + ph.memsz)) (flags2perm ph.flags) m
      if sz1 = 0 then return (false, sz, m)
      let (ok, m) ← loadseg table ph.vaddr f ph.off ph.filesz m
      if ok = false then return (false, sz1, m)
      loadLoop L table f n off sz1 m

def userstack : ℕ := 1

def maxarg : ℕ := 32

/-- Copies the argument strings to the stack: their addresses and the stack pointer, or none
where there is no room. -/
def pushArgs (p table stackbase : ℕ) :
    List (List ℕ) → ℕ → ℕ → List ℕ → Os → Except Stop (Option (List ℕ × ℕ) × Os)
  | [], _, sp, ustack, s => .ok (some (ustack, sp), s)
  | arg :: args, argc, sp, ustack, s => do
    if maxarg ≤ argc then return (none, s)
    let sp := uint64 (sp - (arg.length + 1 : ℤ))
    let sp := sp - sp % 16
    if sp < stackbase then return (none, s)
    let (result, s) ← copyout p table sp (arg ++ [0]) s
    if result < 0 then return (none, s)
    pushArgs p table stackbase args (argc + 1) sp (ustack ++ [sp]) s

def longBytes (x : ℕ) : List ℕ := (List.range 8).map fun i => x / 2 ^ (8 * i) % 2 ^ 8

/-- The stack of the new image: the stack pointer, or none where something is missing, and the
size so far. -/
def buildStack (L : Linker) (p table : ℕ) (argv : List (List ℕ)) (sz : ℕ) (s : Os) :
    Except Stop (Option ℕ × ℕ × Os) := do
  let sz := pgroundup sz
  let (sz1, m) ← uvmalloc L table sz (uint64 (sz + (userstack + 1) * pgsize)) pteW s.mem
  if sz1 = 0 then return (none, sz, {s with mem := m})
  let m ← uvmclear table (sz1 - (userstack + 1) * pgsize) m
  let stackbase := sz1 - userstack * pgsize
  let (pushed, s) ← pushArgs p table stackbase argv 0 sz1 [] {s with mem := m}
  match pushed with
  | none => return (none, sz1, s)
  | some (ustack, sp) =>
    let sp := uint64 (sp - ((argv.length + 1) * 8 : ℤ))
    let sp := sp - sp % 16
    if sp < stackbase then return (none, sz1, s)
    let (result, s) ← copyout p table sp ((ustack ++ [0]).flatMap longBytes) s
    return (if 0 ≤ result then some sp else none, sz1, s)

/-- The memory of `p` is replaced by a program: its entry point and the stack pointer, or none
where the program cannot be loaded. -/
def execImage (L : Linker) (p : ℕ) (file : Option File) (argv : List (List ℕ)) (s : Os) :
    Except Stop (Option (ℕ × ℕ) × Os) :=
  match file with
  | none => .ok (none, s)
  | some f => do
    let elf := readi f 0 sizeofElfhdr
    if elf.length ≠ sizeofElfhdr then return (none, s)
    if field elf 0 4 ≠ elfMagic then return (none, s)
    let (table, m) ← procPagetable L (s.proc p).trapframe s.mem
    let s := {s with mem := m}
    if table = 0 then return (none, s)
    let (ok, sz, m) ← loadLoop L table f (field elf 56 2) (field elf 32 8) 0 s.mem
    let s := {s with mem := m}
    if ok = false then
      let m ← procFreepagetable L table sz s.mem
      return (none, {s with mem := m})
    let oldsz := (s.proc p).sz
    let (stack, sz, s) ← buildStack L p table argv sz s
    match stack with
    | none =>
      let m ← procFreepagetable L table sz s.mem
      return (none, {s with mem := m})
    | some sp =>
      let oldtable := (s.proc p).pagetable
      let s := s.setProc p fun pr => {pr with pagetable := table, sz := sz}
      let m ← procFreepagetable L oldtable oldsz s.mem
      return (some (field elf 24 8, sp), {s with mem := m})

def kexec (L : Linker) (p : ℕ) (file : Option File) (argv : List (List ℕ)) (s : Os) :
    Except Stop (ℤ × Os) := do
  let (image, s) ← execImage L p file argv s
  return (if image.isSome then argv.length else -1, s)

end Xv6.Vm
