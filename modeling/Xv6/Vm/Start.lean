import Xv6.Slab.Safety
import Xv6.Vm.Exec
import Xv6.Vm.Fork

/-! Booting (`kernel/main.c`): what `main` does with memory, and the state in which the first
process starts.

Until then pages only leave the free list: `FreePages L m` says that the list links pages of the
page allocator, and all that `main` does keeps it (`boot_fresh`), beside making the kernel's page
table (`KernelOnly`). A state without processes is sound (`Fresh.sound`). -/
namespace Xv6.Vm
open Function
open Linked

/-! ### The kernel's page table -/

def uart0 : ℕ := 0x10000000

def virtio0 : ℕ := 0x10001000

def plic : ℕ := 0x0c000000

def kstack (p : ℕ) : ℕ := trampoline - (p + 1) * 2 * pgsize

def kvmmap (table va pa sz perm : ℕ) (m : Memory) : Except Stop Memory := do
  let (result, m) ← mappages table va sz pa perm m
  if result ≠ 0 then .error (.panic .kvmmap) else return m

/-- Maps a kernel stack for each of the processes `ps`. -/
def procMapstacks (table : ℕ) : List ℕ → Memory → Except Stop Memory
  | [], m => .ok m
  | p :: ps, m => do
    let (pa, m) := kalloc m
    if pa = 0 then .error (.panic .kalloc)
    else
      let m ← kvmmap table (kstack p) pa pgsize (pteR ||| pteW) m
      procMapstacks table ps m

def kvmmake (L : Linker) (m : Memory) : Except Stop (ℕ × Memory) :=
  let (table, m) := kalloc m
  if table = 0 then .error (.fault .nullPointer)
  else do
    let m := memset table 0 m
    let m ← kvmmap table uart0 uart0 pgsize (pteR ||| pteW) m
    let m ← kvmmap table virtio0 virtio0 pgsize (pteR ||| pteW) m
    let m ← kvmmap table plic plic 0x4000000 (pteR ||| pteW) m
    let m ← kvmmap table kernbase kernbase (L.etext - kernbase) (pteR ||| pteX) m
    let m ← kvmmap table L.etext L.etext (phystop - L.etext) (pteR ||| pteW) m
    let m ← kvmmap table trampoline L.trampolineCode pgsize (pteR ||| pteX) m
    let m ← procMapstacks table (List.range nproc) m
    return (table, m)

/-- The state after booting; memory holds anything before. -/
def boot (L : Linker) (m : Memory) (k : Slab.Kmem) : Except Stop Os := do
  let m ← kinit L {m with freelist := 0}
  let k ← liftFault (Slab.kmemInit slabMem slabReservedBlocks k.zeroed)
  let (kernel, m) ← kvmmake L m
  userinit L ⟨m, k, kernel, fun _ => .zero, 1, 0⟩

/-! ### Free pages -/

variable {L : Linker} {m m' : Memory} {s s' : Os} {own : ℕ → Owner} {T U : Set ℕ} {E : Stop → Prop}

def PoolPage (L : Linker) (x : ℕ) : Prop := x % pgsize = 0 ∧ L.kernelEnd ≤ x ∧ x < slabMem
deriving Decidable

def FreePages (L : Linker) (m : Memory) : Prop :=
  ∃ xs, Chain m.next m.freelist xs ∧ ∀ x ∈ xs, PoolPage L x

/-- No process, and the pages that are left. -/
structure Fresh (L : Linker) (s : Os) : Prop where
  pages : FreePages L s.mem
  slots : ∀ p, s.proc p = .zero

open Classical in
theorem Fresh.sound (h : Fresh L s) : ∃ own, Sound L s own ∅ ∅ := by
  obtain ⟨xs, hxs, hpage⟩ := h.pages
  have hfree : ∀ x, (if x ∈ xs then Owner.free else .other) = .free ↔ x ∈ xs := by
    intro x
    split <;> simp_all
  refine ⟨fun x => if x ∈ xs then .free else .other, ?_, fun p => .inl (h.slots p), ?_, ?_⟩
  · refine ⟨⟨xs, hxs, fun x => (hfree x).symm⟩, fun {x} hx => ?_, fun hr => hr.elim, fun hr => hr.elim,
      fun {x r} hx => ?_, fun hr => hr.elim, le_rfl, fun hr => hr.elim, fun {x r va} hx => ?_,
      fun hr => hr.elim⟩
    · by_cases hmem : x ∈ xs
      · exact hpage x hmem
      · exact absurd (if_neg hmem) hx
    all_goals split at hx <;> cases hx
  all_goals
    intro p q h0
    rw [h.slots p] at h0
    exact absurd rfl h0

/-! ### Small machines -/

def Linker.small : Linker where
  etext := kernbase + pgsize
  kernelEnd := kernbase + 2 * pgsize
  trampolineCode := kernbase
  etext_aligned := by decide
  kernbase_lt := by decide
  etext_le := by decide
  kernelEnd_le := by decide
  code_aligned := by decide
  kernbase_le := by decide
  code_lt := by decide

def smallPage (i : ℕ) : ℕ := kernbase + (i + 2) * pgsize

/-- The `n` pages after the kernel are free. -/
def Memory.small (n : ℕ) : Memory where
  freelist := smallPage 0
  next x := if x < smallPage (n - 1) then x + pgsize else 0
  ptes _ _ := 0
  bytes _ _ := 0

def Os.small (n : ℕ) : Os := ⟨.small n, Slab.blank, 0, fun _ => .zero, 1, 0⟩

theorem freePages_small : ∀ n < 16, FreePages .small (.small (n + 1)) := fun n hn =>
  ⟨(List.range (n + 1)).map smallPage, by decide +revert, by decide +revert⟩

theorem fresh_small : ∀ n < 16, Fresh .small (.small (n + 1)) := fun n hn => ⟨freePages_small n hn, fun _ => rfl⟩

/-! ### The first process -/

theorem Sound.userinit_spec (h : Sound L s own T U) (hinit : userinit L s = .ok s') :
    s'.kernelPagetable = s.kernelPagetable ∧
      ∃ own' r, r ∉ T ∧ Sound L s' own' (insert r T) (insert r U) := by
  have hall := h.allocproc_spec (E := fun _ => True)
  unfold userinit at hinit
  cases hfound : allocproc L s with
  | error e =>
    rw [hfound] at hinit
    cases hinit
  | ok res =>
    rw [hfound] at hinit hall
    obtain ⟨found, s1⟩ := res
    rcases hall with ⟨hnone, _⟩ | ⟨p, r, frame, m1, own1, _, _, heq, hspawn⟩
    · obtain rfl : found = none := hnone
      cases hinit
    · obtain ⟨rfl, rfl⟩ : found = some p ∧ s1 = allocated s p frame r m1 := Prod.mk.inj heq
      cases hinit
      refine ⟨rfl, own1, r, h.owned.free_notMem hspawn.root_fresh,
        h.spawn (p := p) {newProc s.nextpid frame r with state := .runnable} hspawn nofun
          (Nat.zero_le _) ?_⟩
      simp only [Os.setProc, allocated, update_self, update_idem]

/-! ### Booting -/

/-- The kernel's page table is the only one. -/
def KernelOnly (L : Linker) (r : ℕ) (m : Memory) : Prop := ∃ own, Owned L m own {r} ∅

theorem Owned.freePages (h : Owned L m own T U) : FreePages L m := by
  obtain ⟨F, hF, hfree⟩ := h.list
  refine ⟨F, hF, fun x hx => h.page ?_⟩
  rw [(hfree x).mp hx]
  nofun

theorem Owned.mapLoop_kernel {r : ℕ} (h : Owned L m own T U) (hr : r ∈ T) (hfix : r ∉ U) (n : ℕ)
    {a : ℕ} (hal : a % pgsize = 0) (pa perm : ℕ) :
    Outcome (fun _ => True) (mapLoop r perm n a pa m) fun res => ∃ own', Owned L res.2 own' T U := by
  induction n generalizing a pa m own with
  | zero => exact ⟨own, h⟩
  | succ n ih =>
    unfold mapLoop walk
    by_cases ha : maxva ≤ a
    · rw [if_pos ha]
      trivial
    obtain ⟨low, m1, own1, heq, hext, -, hlow⟩ := h.walk_spec hr a
    rw [if_neg ha, heq]
    dsimp only [returns_bind]
    split
    · exact ⟨own1, hext.owned⟩
    rename_i h0
    split
    · trivial
    refine ih (hext.owned.setFixed hr (fun hu => absurd hu hfix)
      (maxva_lt_sv39 (not_le.mp ha)) hal (hlow.resolve_left h0) fun hu => absurd hu hfix) ?_ _
    rw [Nat.add_mod_right, hal]

namespace KernelOnly

variable {r : ℕ}

theorem kvmmap (h : KernelOnly L r m) (va pa sz perm : ℕ) :
    Outcome (fun _ => True) (kvmmap r va pa sz perm m) (KernelOnly L r) := by
  obtain ⟨own, h⟩ := h
  unfold Vm.kvmmap mappages
  split
  · trivial
  rename_i hal
  split
  · trivial
  split
  · trivial
  refine (h.mapLoop_kernel (Set.mem_singleton r) (Set.notMem_empty r) _ (not_not.mp hal) pa perm).bind ?_
  rintro ⟨result, m'⟩ hm'
  dsimp only
  split
  · trivial
  · exact hm'

theorem procMapstacks (h : KernelOnly L r m) (ps : List ℕ) :
    Outcome (fun _ => True) (procMapstacks r ps m) (KernelOnly L r) := by
  induction ps generalizing m with
  | nil => exact h
  | cons p ps ih =>
    obtain ⟨own, h⟩ := h
    unfold Vm.procMapstacks
    rcases h.kalloc_spec with hnull | ⟨x, m', hk, -, hx, -, -, h'⟩
    · rw [hnull]
      trivial
    · rw [hk]
      dsimp only
      rw [if_neg hx]
      exact (kvmmap ⟨_, h'⟩ ..).bind fun m' hm' => ih hm'

end KernelOnly

namespace FreePages

theorem owned (h : FreePages L m) : ∃ own, Owned L m own ∅ ∅ := by
  obtain ⟨own, hsound⟩ := Fresh.sound (s := ⟨m, Slab.blank, 0, fun _ => .zero, 1, 0⟩) ⟨h, fun _ => rfl⟩
  exact ⟨own, hsound.owned⟩

theorem kvmmake (h : FreePages L m) :
    Outcome (fun _ => True) (kvmmake L m) fun res => KernelOnly L res.1 res.2 := by
  obtain ⟨own, hown⟩ := h.owned
  unfold Vm.kvmmake
  -- Lengths as they are: the unifier would count down from `etext`.
  generalize L.etext - kernbase = text
  generalize phystop - L.etext = rest
  rcases hown.kalloc_spec with hnull | ⟨r, m', hk, -, hr, -, -, h'⟩
  · rw [hnull]
    trivial
  rw [hk]
  dsimp only
  rw [if_neg hr]
  have hheld : update own r Owner.held r = .held := update_self ..
  have hroot := (h'.fill hheld 0).newRoot hheld (fun j => by
    show update m'.ptes r _ r j = 0
    rw [update_self, Nat.zero_mul]) le_rfl (Set.empty_subset _)
  rw [insert_empty_eq] at hroot
  have h₀ : KernelOnly L r (memset r 0 m') := ⟨_, hroot⟩
  refine (h₀.kvmmap ..).bind fun m1 h1 => ?_
  refine (h1.kvmmap ..).bind fun m2 h2 => ?_
  refine (h2.kvmmap ..).bind fun m3 h3 => ?_
  refine (h3.kvmmap ..).bind fun m4 h4 => ?_
  refine (h4.kvmmap ..).bind fun m₅ h₅ => ?_
  refine (h₅.kvmmap ..).bind fun m₆ h₆ => ?_
  exact (h₆.procMapstacks _).bind fun m₇ h₇ => h₇

theorem freePages {n p : ℕ} (h : FreePages L m) (hal : p % pgsize = 0) (hlo : L.kernelEnd ≤ p)
    (hhi : p + n * pgsize ≤ slabMem) (hnew : ∀ xs, Chain m.next m.freelist xs → ∀ x ∈ xs, x < p) :
    Outcome (fun _ => False) (freePages L n p m) (FreePages L) := by
  induction n generalizing p m with
  | zero => exact h
  | succ n ih =>
    obtain ⟨xs, hxs, hpage⟩ := h
    have hend := next_page p n
    have hpos : 0 < pgsize := by decide
    have hlt : p < slabMem := by omega
    have hok : ¬ (p % pgsize ≠ 0 ∨ p < L.kernelEnd ∨ phystop ≤ p) := by
      unfold slabMem at hlt
      omega
    have hp0 : p ≠ 0 := by
      have := Owned.kernelEnd_pos L
      omega
    have hpush := hxs.push hp0 fun hm => Nat.lt_irrefl p (hnew xs hxs p hm)
    unfold Vm.freePages pageKfree
    rw [if_neg hok]
    refine ih (p := p + pgsize) ⟨p :: xs, hpush, fun x hx => ?_⟩ (by rw [Nat.add_mod_right, hal])
      (by omega) (by omega) fun ys hys x hx => ?_
    · rcases List.mem_cons.mp hx with rfl | hx
      · exact ⟨hal, hlo, hlt⟩
      · exact hpage x hx
    · rw [hys.unique hpush] at hx
      grind

theorem kinit (m : Memory) :
    Outcome (fun _ => True) (kinit L {m with freelist := 0}) (FreePages L) := by
  have hend := L.kernelEnd_le
  have htop : slabMem ≤ trapframe := by decide
  have hlow := hend.trans htop
  have hsum : pgroundup L.kernelEnd + (slabMem - pgroundup L.kernelEnd) / pgsize * pgsize ≤ slabMem := by
    have hround := pgroundup_mono hend htop
    rw [pgroundup_of_aligned htop (by decide)] at hround
    have hdiv := Nat.div_mul_le_self (slabMem - pgroundup L.kernelEnd) pgsize
    omega
  have hnil : Chain m.next 0 [] := rfl
  refine (freePages (m := {m with freelist := 0}) ⟨[], rfl, by simp⟩ (pgroundup_mod hlow)
    (le_pgroundup hlow) hsum fun xs hxs x hx => ?_).imp fun _ h => h.elim
  cases hxs.unique hnil
  cases hx

end FreePages

theorem boot_fresh {k : Slab.Kmem} (h : boot L m k = .ok s) :
    ∃ s0, Fresh L s0 ∧ KernelOnly L s0.kernelPagetable s0.mem ∧ userinit L s0 = .ok s := by
  have hinit : Outcome (fun _ => True) (boot L m k) fun s =>
      ∃ s0, Fresh L s0 ∧ KernelOnly L s0.kernelPagetable s0.mem ∧ userinit L s0 = .ok s := by
    unfold boot
    refine (FreePages.kinit m).bind fun m1 h1 => ?_
    cases liftFault (Slab.kmemInit slabMem slabReservedBlocks k.zeroed) with
    | error e => trivial
    | ok k' =>
      refine h1.kvmmake.bind fun ⟨kernel, m2⟩ h2 => ?_
      have hfresh : Fresh L ⟨m2, k', kernel, fun _ => .zero, 1, 0⟩ := by
        obtain ⟨own, hown⟩ := h2
        exact ⟨hown.freePages, fun _ => rfl⟩
      dsimp only
      cases hs : userinit L ⟨m2, k', kernel, fun _ => .zero, 1, 0⟩ with
      | error e => trivial
      | ok s' => exact ⟨_, hfresh, h2, hs⟩
  rw [h] at hinit
  exact hinit

end Xv6.Vm
