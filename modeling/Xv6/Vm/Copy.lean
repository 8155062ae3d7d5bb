import Xv6.Vm.Proc

/-! Copying between user memory and the kernel, and page faults (`kernel/vm.c`), with the
calls that hand memory over: `wait` and `kmem_init` (`kernel/proc.c`, `kernel/sysproc.c`). -/
namespace Xv6.Vm
open Buddy (blockSize)

/-- Allocates the page of a lazily grown process in which `va` is; 0 if it cannot. A page
that cannot be mapped goes to `kfree` of the slab allocator, as in the source. -/
def vmfault (p table va : ℕ) (s : Os) : Except Stop (ℕ × Os) := do
  if (s.proc p).sz ≤ va then return (0, s)
  let va := pgrounddown va
  if ← ismapped table va s.mem then return (0, s)
  let (mem, m) := kalloc s.mem
  if mem = 0 then return (0, {s with mem := m})
  let (result, m) ←
    mappages (s.proc p).pagetable va pgsize mem (pteW ||| pteU ||| pteR) (memset mem 0 m)
  let s := {s with mem := m}
  if result ≠ 0 then
    let k ← liftFault (Slab.kfree mem s.slab)
    return (0, {s with slab := k})
  return (mem, s)

/-- The physical page of a user address, faulted in when it is missing, or 0. -/
def userPage (p table va0 : ℕ) (s : Os) : Except Stop (ℕ × Os) :=
  let pa0 := walkaddr table va0 s.mem
  if pa0 = 0 then vmfault p table va0 s else .ok (pa0, s)

def Memory.writeBytes (m : Memory) (page start : ℕ) (src : List ℕ) : Memory :=
  {m with bytes := Function.update m.bytes page fun i =>
    if start ≤ i then (src[i - start]?).getD (m.bytes page i) else m.bytes page i}

def copyoutLoop (p table : ℕ) : ℕ → ℕ → List ℕ → Os → Except Stop (ℤ × Os)
  | _, _, [], s => .ok (0, s)
  | 0, _, _ :: _, _ => .error (.fault .diverges)
  | fuel + 1, dstva, src, s => do
    let va0 := pgrounddown dstva
    if maxva ≤ va0 then return (-1, s)
    let (pa0, s) ← userPage p table va0 s
    if pa0 = 0 then return (-1, s)
    let (low, _) ← walk table va0 false s.mem
    if low = 0 then .error (.fault .nullPointer)
    else if s.mem.ptes low (px 0 va0) &&& pteW = 0 then return (-1, s)
    else
      let n := min (pgsize - (dstva - va0)) src.length
      let s := {s with mem := s.mem.writeBytes pa0 (dstva - va0) (src.take n)}
      copyoutLoop p table fuel (va0 + pgsize) (src.drop n) s

def copyout (p table dstva : ℕ) (src : List ℕ) (s : Os) : Except Stop (ℤ × Os) :=
  copyoutLoop p table src.length dstva src s

/-! ### Handing over memory -/

/-- Maps the pages from `va` to `stop` of the caller into the kernel's page table. -/
def donateLoop (table kernel stop : ℕ) : ℕ → ℕ → Memory → Except Stop (ℤ × Memory)
  | 0, _, _ => .error (.fault .diverges)
  | fuel + 1, va, m =>
    if va < stop then do
      let pa := walkaddr table va m
      if pa = 0 then return (-1, m)
      if ← ismapped kernel va m then donateLoop table kernel stop fuel (uint64 (va + pgsize)) m
      else
        let (result, m) ← mappages kernel va pgsize pa (pteR ||| pteW) m
        if result ≠ 0 then return (-1, m)
        donateLoop table kernel stop fuel (uint64 (va + pgsize)) m
    else .ok (0, m)

def sysKmemInit (p space : ℕ) (blockNum : ℤ) (s : Os) : Except Stop (ℤ × Os) := do
  let stop := uint64 (space + blockNum * blockSize)
  let (result, m) ←
    donateLoop (s.proc p).pagetable s.kernelPagetable stop loopFuel (pgrounddown space) s.mem
  let s := {s with mem := m}
  if result ≠ 0 then return (-1, s)
  let k ← liftFault (Slab.kmemInit space blockNum s.slab)
  return (0, {s with slab := k})

end Xv6.Vm
