import Xv6.Vm.Memory

/-! Page tables and user memory (`kernel/vm.c`).

A page table is the address of its root page. `walk` follows two levels of entries to a
page of the lowest level, whose entry at `px 0 va` is the one for `va`. -/
namespace Xv6.Vm

open Function

/-! ### Entries -/

def pteV : ℕ := 1

def pteR : ℕ := 2

def pteW : ℕ := 4

def pteX : ℕ := 8

def pteU : ℕ := 16

def pa2pte (pa : ℕ) : ℕ := pa >>> 12 <<< 10

def pte2pa (pte : ℕ) : ℕ := pte >>> 10 <<< 12

def pteFlags (pte : ℕ) : ℕ := pte &&& 0x3FF

def px (level va : ℕ) : ℕ := va >>> (12 + 9 * level) &&& 0x1FF

def valid (pte : ℕ) : Bool := pte &&& pteV ≠ 0

/-- `*pte & (PTE_R|PTE_W|PTE_X)`: the entry is not for a page of the table. -/
def leaf (pte : ℕ) : Bool := pte &&& (pteR ||| pteW ||| pteX) ≠ 0

def user (pte : ℕ) : Bool := pte &&& pteU ≠ 0

def Memory.setPte (m : Memory) (table i pte : ℕ) : Memory :=
  {m with ptes := update m.ptes table (update (m.ptes table) i pte)}

/-! ### Walking -/

/-- The page of the lowest level for `va`, or null. -/
def walkLoop (alloc : Bool) (va : ℕ) : ℕ → ℕ → Memory → ℕ × Memory
  | 0, table, m => (table, m)
  | level + 1, table, m =>
    let pte := m.ptes table (px (level + 1) va)
    if valid pte then walkLoop alloc va level (pte2pa pte) m
    else if alloc then
      let (page, m) := kalloc m
      if page = 0 then (0, m)
      else
        let m := (memset page 0 m).setPte table (px (level + 1) va) (pa2pte page ||| pteV)
        walkLoop alloc va level page m
    else (0, m)

def walk (table va : ℕ) (alloc : Bool) (m : Memory) : Except Stop (ℕ × Memory) :=
  if maxva ≤ va then .error (.panic .walk) else .ok (walkLoop alloc va 2 table m)

/-- The entry for `va`, which is not valid where a page of the table is missing. -/
def entry (table va : ℕ) (m : Memory) : ℕ :=
  let low := (walkLoop false va 2 table m).1
  if low = 0 then 0 else m.ptes low (px 0 va)

def walkaddr (table va : ℕ) (m : Memory) : ℕ :=
  if maxva ≤ va then 0
  else
    let pte := entry table va m
    if valid pte && user pte then pte2pa pte else 0

def ismapped (table va : ℕ) (m : Memory) : Except Stop Bool :=
  if maxva ≤ va then .error (.panic .walk) else .ok (valid (entry table va m))

/-- Maps `n` pages; -1 when a page for the table is missing. -/
def mapLoop (table perm : ℕ) : ℕ → ℕ → ℕ → Memory → Except Stop (ℤ × Memory)
  | 0, _, _, m => .ok (0, m)
  | n + 1, a, pa, m => do
    let (low, m) ← walk table a true m
    if low = 0 then return (-1, m)
    if valid (m.ptes low (px 0 a)) then .error (.panic .remap)
    else
      let m := m.setPte low (px 0 a) (pa2pte pa ||| perm ||| pteV)
      mapLoop table perm n (a + pgsize) (pa + pgsize) m

def mappages (table va size pa perm : ℕ) (m : Memory) : Except Stop (ℤ × Memory) :=
  if va % pgsize ≠ 0 then .error (.panic .mappagesVa)
  else if size % pgsize ≠ 0 then .error (.panic .mappagesSizeAligned)
  else if size = 0 then .error (.panic .mappagesSize)
  else mapLoop table perm (size / pgsize) va pa m

def uvmcreate (m : Memory) : ℕ × Memory :=
  let (table, m) := kalloc m
  if table = 0 then (0, m) else (table, memset table 0 m)

/-! ### User memory -/

def unmapLoop (L : Linker) (table : ℕ) (doFree : Bool) : ℕ → ℕ → Memory → Except Stop Memory
  | 0, _, m => .ok m
  | n + 1, a, m => do
    let (low, m) ← walk table a false m
    if low = 0 ∨ valid (m.ptes low (px 0 a)) = false then
      unmapLoop L table doFree n (a + pgsize) m
    else
      let m ← if doFree then pageKfree L (pte2pa (m.ptes low (px 0 a))) m else pure m
      unmapLoop L table doFree n (a + pgsize) (m.setPte low (px 0 a) 0)

def uvmunmap (L : Linker) (table va npages : ℕ) (doFree : Bool) (m : Memory) :
    Except Stop Memory :=
  if va % pgsize ≠ 0 then .error (.panic .uvmunmap) else unmapLoop L table doFree npages va m

def uvmdealloc (L : Linker) (table oldsz newsz : ℕ) (m : Memory) : Except Stop (ℕ × Memory) :=
  if oldsz ≤ newsz then .ok (oldsz, m)
  else if pgroundup newsz < pgroundup oldsz then do
    let npages := uint64 (int32 ((pgroundup oldsz - pgroundup newsz) / pgsize : ℕ))
    let m ← uvmunmap L table (pgroundup newsz) npages true m
    return (newsz, m)
  else .ok (newsz, m)

/-- Allocates and maps `n` pages from `a` on; 0 when one is missing. -/
def allocLoop (L : Linker) (table oldsz newsz xperm : ℕ) :
    ℕ → ℕ → Memory → Except Stop (ℕ × Memory)
  | 0, _, m => .ok (newsz, m)
  | n + 1, a, m =>
    let (mem, m) := kalloc m
    if mem = 0 then do
      let (_, m) ← uvmdealloc L table a oldsz m
      return (0, m)
    else do
      let (result, m) ← mappages table a pgsize mem (pteR ||| pteU ||| xperm) (memset mem 0 m)
      if result ≠ 0 then
        let m ← pageKfree L mem m
        let (_, m) ← uvmdealloc L table a oldsz m
        return (0, m)
      else allocLoop L table oldsz newsz xperm n (a + pgsize) m

def uvmalloc (L : Linker) (table oldsz newsz xperm : ℕ) (m : Memory) :
    Except Stop (ℕ × Memory) :=
  if newsz < oldsz then .ok (oldsz, m)
  else
    let oldsz := pgroundup oldsz
    allocLoop L table oldsz newsz xperm ((newsz - oldsz + pgsize - 1) / pgsize) oldsz m

/-- Frees what the entries of a page-table page point to. -/
def freeEntries (free : ℕ → Memory → Except Stop Memory) (table : ℕ) :
    List ℕ → Memory → Except Stop Memory
  | [], m => .ok m
  | i :: is, m =>
    let pte := m.ptes table i
    if valid pte && !leaf pte then do
      let m ← free (pte2pa pte) m
      freeEntries free table is (m.setPte table i 0)
    else if valid pte then .error (.panic .freewalk)
    else freeEntries free table is m

def freewalk (L : Linker) : ℕ → ℕ → Memory → Except Stop Memory
  | 0, _, _ => .error (.fault .diverges)
  | fuel + 1, table, m => do
    let m ← freeEntries (freewalk L fuel) table (List.range 512) m
    pageKfree L table m

def uvmfree (L : Linker) (table sz : ℕ) (m : Memory) : Except Stop Memory := do
  let m ← if 0 < sz then uvmunmap L table 0 (pgroundup sz / pgsize) true m else pure m
  freewalk L loopFuel table m

def copyLoop (L : Linker) (old new : ℕ) : ℕ → ℕ → Memory → Except Stop (ℤ × Memory)
  | 0, _, m => .ok (0, m)
  | n + 1, i, m => do
    let (low, m) ← walk old i false m
    if low = 0 ∨ valid (m.ptes low (px 0 i)) = false then copyLoop L old new n (i + pgsize) m
    else
      let pte := m.ptes low (px 0 i)
      let (mem, m) := kalloc m
      if mem = 0 then
        let m ← uvmunmap L new 0 (i / pgsize) true m
        return (-1, m)
      else
        let m := {m with bytes := update m.bytes mem (m.bytes (pte2pa pte))}
        let (result, m) ← mappages new i pgsize mem (pteFlags pte) m
        if result ≠ 0 then
          let m ← pageKfree L mem m
          let m ← uvmunmap L new 0 (i / pgsize) true m
          return (-1, m)
        else copyLoop L old new n (i + pgsize) m

def uvmcopy (L : Linker) (old new sz : ℕ) (m : Memory) : Except Stop (ℤ × Memory) :=
  copyLoop L old new ((sz + pgsize - 1) / pgsize) 0 m

def uvmclear (table va : ℕ) (m : Memory) : Except Stop Memory := do
  let (low, m) ← walk table va false m
  if low = 0 then .error (.panic .uvmclear)
  else
    let pte := m.ptes low (px 0 va)
    return m.setPte low (px 0 va) (pte - (pte &&& pteU))

end Xv6.Vm
