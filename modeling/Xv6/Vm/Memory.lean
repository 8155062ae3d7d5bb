import Xv6.Machine.Outcome
import Xv6.Slab.Model

/-! Physical pages (`kernel/kalloc.c`).

The memory of the kernel is one map for each use a page is put to: `next` for pages on the
free list, `ptes` for pages of page tables, `bytes` for pages of user memory. A call that
does not return has met a panic, or a fault of the slab allocator below. -/
namespace Xv6.Vm
open Function
open Buddy (blockSize)

/-- The panics of `kalloc.c`, `vm.c`, `exec.c` and `proc.c`. -/
inductive Panic where
  | pageKfree | kvmmap | walk | mappagesVa | mappagesSizeAligned | mappagesSize | remap
  | uvmunmap | freewalk | uvmclear | loadseg | kalloc | initExiting
  deriving DecidableEq, Repr

inductive Stop where
  | panic (p : Panic)
  | fault (f : Fault)
  deriving DecidableEq, Repr

def liftFault {α : Type} : Result α → Except Stop α
  | .ok a => .ok a
  | .error f => .error (.fault f)

@[simp] theorem returns_bind {α β : Type} (a : α) (f : α → Except Stop β) :
    ((Except.ok a : Except Stop α) >>= f) = f a := rfl

@[simp] theorem stops_bind {α β : Type} (e : Stop) (f : α → Except Stop β) :
    ((Except.error e : Except Stop α) >>= f) = .error e := rfl

@[simp] theorem pure_returns {α : Type} (a : α) : (pure a : Except Stop α) = .ok a := rfl

/-! ### Layout -/

def pgsize : ℕ := 4096

def kernbase : ℕ := 0x80000000

def phystop : ℕ := kernbase + 128 * 1024 * 1024

def maxva : ℕ := 2 ^ 38

def trampoline : ℕ := maxva - pgsize

def trapframe : ℕ := trampoline - pgsize

def slabReservedBlocks : ℕ := 1024

/-- Where the reserved blocks for the slab allocator start. -/
def slabMem : ℕ := phystop - slabReservedBlocks * blockSize

def pgroundup (sz : ℕ) : ℕ := uint64 (sz + pgsize - 1) / pgsize * pgsize

def pgrounddown (a : ℕ) : ℕ := a / pgsize * pgsize

/-- What the linker decides: the ends of the kernel's code and of the kernel, and where the
trampoline code is. -/
structure Linker where
  etext : ℕ
  kernelEnd : ℕ
  trampolineCode : ℕ
  etext_aligned : etext % pgsize = 0
  kernbase_lt : kernbase < etext
  etext_le : etext ≤ kernelEnd
  kernelEnd_le : kernelEnd ≤ slabMem
  code_aligned : trampolineCode % pgsize = 0
  kernbase_le : kernbase ≤ trampolineCode
  code_lt : trampolineCode < etext

/-! ### The page allocator -/

structure Memory where
  freelist : ℕ
  next : ℕ → ℕ
  ptes : ℕ → ℕ → ℕ
  bytes : ℕ → ℕ → ℕ

def memset (page c : ℕ) (m : Memory) : Memory :=
  {m with
    ptes := update m.ptes page fun _ => c * 0x0101010101010101
    bytes := update m.bytes page fun _ => c}

def pageKfree (L : Linker) (pa : ℕ) (m : Memory) : Except Stop Memory :=
  if pa % pgsize ≠ 0 ∨ pa < L.kernelEnd ∨ phystop ≤ pa then .error (.panic .pageKfree)
  else
    let m := memset pa 1 m
    .ok {m with next := update m.next pa m.freelist, freelist := pa}

def kalloc (m : Memory) : ℕ × Memory :=
  if m.freelist = 0 then (0, m)
  else (m.freelist, memset m.freelist 5 {m with freelist := m.next m.freelist})

def freePages (L : Linker) : ℕ → ℕ → Memory → Except Stop Memory
  | 0, _, m => .ok m
  | n + 1, p, m => do
    let m ← pageKfree L p m
    freePages L n (p + pgsize) m

/-- The loop runs while a whole page is left before the end. -/
def freerange (L : Linker) (paStart paEnd : ℕ) (m : Memory) : Except Stop Memory :=
  let p := pgroundup paStart
  freePages L ((paEnd - p) / pgsize) p m

def kinit (L : Linker) (m : Memory) : Except Stop Memory :=
  freerange L L.kernelEnd (phystop - slabReservedBlocks * blockSize) m

end Xv6.Vm
