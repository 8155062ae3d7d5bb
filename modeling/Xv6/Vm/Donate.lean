import Xv6.Vm.Isolation
import Xv6.Vm.Map

/-! Memory that a process hands to the slab allocator (`sys_kmem_init`).

The call maps the pages of a range of the caller into the kernel's page table, at the same
addresses, and lets the allocator use the range. A page at which the kernel's table already has an
entry is skipped, whatever the entry is (`donateLoop_skips`), and a range that wraps around has no
pages (`sysKmemInit_wraps`). Otherwise the kernel sees the caller's pages (`Seen`) while the page
tables are apart (`Apart`), as they are after booting (`boot_settled`) and stay. -/
namespace Xv6.Vm
open Linked Radix
open Buddy (blockSize)

variable {L : Linker} {m m1 m' : Memory} {s s' : Os} {own : ℕ → Owner} {T U : Set ℕ}
  {r kernel stop va p space : ℕ} {n : ℤ}

def readable (pte : ℕ) : Bool := pte &&& pteR ≠ 0

/-- The kernel's entry for `va` is to the page that the page table `r` has there. -/
structure Matches (r kernel va : ℕ) (m : Memory) : Prop where
  same : pte2pa (entry kernel va m) = pte2pa (entry r va m)
  readable : readable (entry kernel va m) = true
  writable : writable (entry kernel va m) = true

/-- A user page of the page table `r`, which the kernel sees at the same address. -/
structure Seen (r kernel va : ℕ) (m : Memory) : Prop extends Matches r kernel va m where
  below : va < maxva
  mapped : valid (entry r va m) = true
  user : user (entry r va m) = true
  kernel : valid (entry kernel va m) = true

/-- The entries that the kernel already has for pages of the caller are to these pages. -/
def Agrees (r kernel lo stop : ℕ) (m : Memory) : Prop :=
  ∀ va < maxva, va % pgsize = 0 → lo ≤ va → va < stop → valid (entry kernel va m) = true →
    walkaddr r va m ≠ 0 → Matches r kernel va m

/-! ### The loop -/

/-- What became of the pages from `va` to `stop`. -/
structure Donated (L : Linker) (T U : Set ℕ) (r kernel va stop : ℕ) (own : ℕ → Owner) (m : Memory)
    (res : ℤ × Memory) : Prop where
  extended : ∃ own', Extends L T U kernel ∅ own m own' res.2
  others : ∀ q ∈ T, q ≠ kernel → ∀ a < sv39, entry q a res.2 = entry q a m
  kept : ∀ a < sv39, valid (entry kernel a m) = true → entry kernel a res.2 = entry kernel a m
  seen : Agrees r kernel va stop m → res.1 = 0 → ∀ a, a % pgsize = 0 → va ≤ a → a < stop →
    Seen r kernel a res.2

theorem Donated.refl {result : ℤ} (h : Owned L m own T U) (hres : stop ≤ va ∨ result ≠ 0) :
    Donated L T U r kernel va stop own m (result, m) := by
  refine ⟨⟨own, .refl h⟩, fun _ _ _ _ _ => rfl, fun _ _ _ => rfl, fun _ h0 a _ hle hlt => ?_⟩
  grind

theorem walkaddr_ne_zero (h : walkaddr r va m ≠ 0) : va < maxva ∧ valid (entry r va m) = true ∧
    user (entry r va m) = true ∧ walkaddr r va m = pte2pa (entry r va m) := by
  have hlt : ¬ maxva ≤ va := fun hle => h (if_pos hle)
  have hwalk : walkaddr r va m =
      if valid (entry r va m) && user (entry r va m) then pte2pa (entry r va m) else 0 := if_neg hlt
  grind

theorem Donated.cons {res : ℤ × Memory} {own1 : ℕ → Owner} (hr : r ∈ T) (hne : r ≠ kernel) (hk : kernel ∈ T)
    (hal : va % pgsize = 0) (hpage : walkaddr r va m ≠ 0)
    (hext : Extends L T U kernel ∅ own m own1 m1) (helse : SameElse T kernel va (va + pgsize) m m1)
    (hkept : ∀ a < sv39, valid (entry kernel a m) = true → entry kernel a m1 = entry kernel a m)
    (hvalid : valid (entry kernel va m1) = true)
    (hmatch : Agrees r kernel va stop m → va < stop → Matches r kernel va m1)
    (h : Donated L T U r kernel (va + pgsize) stop own1 m1 res) :
    Donated L T U r kernel va stop own m res := by
  obtain ⟨hlt, hmapped, huser, -⟩ := walkaddr_ne_zero hpage
  have hothers : ∀ q ∈ T, q ≠ kernel → ∀ a < sv39, entry q a m1 = entry q a m :=
    fun q hq hqk a ha => helse q hq a ha (.inl hqk)
  refine ⟨h.extended.imp fun _ => hext.trans, fun q hq hqk a ha => (h.others q hq hqk a ha).trans (hothers q hq hqk a ha),
    fun a ha hv => ?_, fun hagree h0 a haa hle hstop => ?_⟩
  · rw [h.kept a ha (by rw [hkept a ha hv]; exact hv), hkept a ha hv]
  by_cases hva : a = va
  · subst hva
    have hsv := maxva_lt_sv39 hlt
    have hm := hmatch hagree hstop
    have huser1 := hothers r hr hne a hsv
    refine ⟨⟨?_, ?_, ?_⟩, hlt, ?_, ?_, ?_⟩
    · rw [h.kept a hsv hvalid, h.others r hr hne a hsv]
      exact hm.same
    · rw [h.kept a hsv hvalid]
      exact hm.readable
    · rw [h.kept a hsv hvalid]
      exact hm.writable
    · grind [Donated.others]
    · rw [h.others r hr hne a hsv, huser1]
      exact huser
    · rw [h.kept a hsv hvalid]
      exact hvalid
  · have hnext : va + pgsize ≤ a := by
      unfold pgsize at *
      omega
    refine h.seen (fun b hb hbal hble hbstop hbv hbw => ?_) h0 a haa hnext hstop
    -- The entries for the pages after `va` are what they were.
    have hker := helse kernel hk b (maxva_lt_sv39 hb) (.inr (.inr hble))
    have hent := hothers r hr hne b (maxva_lt_sv39 hb)
    have hwalk : walkaddr r b m1 = walkaddr r b m := by
      unfold walkaddr
      rw [hent]
    rw [hker] at hbv
    rw [hwalk] at hbw
    obtain ⟨hsame, hread, hwrite⟩ := hagree b hb hbal (by omega) hbstop hbv hbw
    exact ⟨by rw [hker, hent, hsame], by rw [hker, hread], by rw [hker, hwrite]⟩

theorem readable_pteFlags {pte : ℕ} : readable (pteFlags pte) = readable pte := by
  unfold readable pteFlags
  rw [Nat.and_assoc]
  rfl

theorem writable_pteFlags {pte : ℕ} : writable (pteFlags pte) = writable pte := by
  unfold writable pteFlags
  rw [Nat.and_assoc]
  rfl

theorem matches_mkPte (hent : entry kernel va m = mkPte (pte2pa (entry r va m)) (pteR ||| pteW)) :
    Matches r kernel va m := by
  have hpage : pte2pa (entry r va m) % pgsize = 0 := by
    unfold pte2pa
    rw [Nat.shiftLeft_eq]
    exact Nat.mul_mod_left ..
  refine ⟨by rw [hent, pte2pa_mkPte hpage (by decide)], ?_, ?_⟩
  · rw [← readable_pteFlags, hent, pteFlags_mkPte (by decide)]
    decide
  · rw [← writable_pteFlags, hent, pteFlags_mkPte (by decide)]
    decide

namespace Owned

/-- The loop maps the caller's pages, and skips those that the kernel's page table has. -/
theorem donateLoop_spec (h : Owned L m own T U) (hk : kernel ∈ T) (hku : kernel ∉ U) (hr : r ∈ U)
    (stop fuel : ℕ) (hal : va % pgsize = 0) :
    Outcome (fun _ => True) (donateLoop r kernel stop fuel va m)
      (Donated L T U r kernel va stop own m) := by
  have hne : r ≠ kernel := fun heq => hku (heq ▸ hr)
  induction fuel generalizing va m own with
  | zero => trivial
  | succ fuel ih =>
    unfold donateLoop
    by_cases hlt : va < stop
    swap
    · rw [if_neg hlt]
      exact .refl h (.inl (not_lt.mp hlt))
    rw [if_pos hlt]
    by_cases hpage : walkaddr r va m = 0
    · rw [if_pos hpage]
      exact .refl h (.inr (by decide))
    rw [if_neg hpage]
    obtain ⟨hva, -, -, hpa⟩ := walkaddr_ne_zero hpage
    have hnext : uint64 (va + pgsize) = va + pgsize := by
      grind [uint64_of_lt, maxva, pgsize]
    have hal' : (va + pgsize) % pgsize = 0 := by rw [Nat.add_mod_right, hal]
    unfold ismapped
    rw [if_neg hva.not_ge, hnext]
    dsimp only [returns_bind]
    by_cases hv : valid (entry kernel va m) = true
    · rw [if_pos hv]
      refine (ih h hal').mono fun res hres => ?_
      exact .cons (h.sub hr) hne hk hal hpage (.refl h) .refl (fun _ _ _ => rfl) hv
        (fun hagree hstop => hagree va hva hal le_rfl hstop hv hpage) hres
    · rw [if_neg hv]
      refine (h.mapFixed hk (fun hu => absurd hu hku) hva hal (Bool.not_eq_true _ ▸ hv)
        fun hu => absurd hu hku).bind ?_
      rintro ⟨result, m1⟩ ⟨⟨own1, hext⟩, ⟨h0, hset⟩ | ⟨h0, hsame⟩⟩
      · obtain rfl : result = 0 := h0
        rw [if_neg (not_not.mpr rfl)]
        refine (ih hext.owned hal').mono fun res hres => ?_
        have hself : entry kernel va m1 = mkPte (walkaddr r va m) (pteR ||| pteW) := by
          rw [hset kernel hk va (maxva_lt_sv39 hva), if_pos ⟨rfl, rfl⟩]
        have huser : entry r va m1 = entry r va m := by
          rw [hset r (h.sub hr) va (maxva_lt_sv39 hva), if_neg fun hc => hne hc.1]
        refine .cons (h.sub hr) hne hk hal hpage hext (hset.others hal) (fun a ha hva' => ?_)
          (by rw [hself]; exact valid_mkPte) (fun _ _ => matches_mkPte ?_) hres
        · rw [hset kernel hk a ha, if_neg]
          grind [entry_of_page]
        · rw [hself, huser, hpa]
      · obtain rfl : result = -1 := h0
        dsimp only
        rw [if_pos (by decide)]
        exact ⟨⟨own1, hext⟩, fun q hq _ a ha => hsame q hq a ha, fun a ha _ => hsame kernel hk a ha,
          fun _ hc => absurd (show (-1 : ℤ) = 0 from hc) (by decide)⟩

end Owned

/-- Pages that the kernel's page table has, of whatever process, are left as they are. -/
theorem donateLoop_skips (fuel : ℕ) (hfuel : stop ≤ va + fuel * pgsize) (hal : va % pgsize = 0)
    (hpages : ∀ a, a % pgsize = 0 → va ≤ a → a < stop →
      walkaddr r a m ≠ 0 ∧ valid (entry kernel a m) = true) :
    donateLoop r kernel stop (fuel + 1) va m = .ok (0, m) := by
  induction fuel generalizing va with
  | zero =>
    unfold donateLoop
    rw [if_neg (by omega)]
  | succ fuel ih =>
    unfold donateLoop
    by_cases hlt : va < stop
    swap
    · rw [if_neg hlt]
    obtain ⟨hpage, hv⟩ := hpages va hal le_rfl hlt
    have hva := (walkaddr_ne_zero hpage).1
    have hnext : uint64 (va + pgsize) = va + pgsize := by
      grind [uint64_of_lt, maxva, pgsize]
    unfold ismapped
    rw [if_pos hlt, if_neg hva.not_ge, hnext]
    dsimp only [returns_bind]
    rw [if_neg hpage, if_pos hv]
    grind [Nat.add_mod_right]

/-! ### The system call -/

/-- The pages are there, and `kmem_init` is called; memory is then `m'`. -/
def CallsKmemInit (p space : ℕ) (blockNum : ℤ) (s : Os) (m' : Memory) : Prop :=
  donateLoop (s.proc p).pagetable s.kernelPagetable (uint64 (space + blockNum * blockSize)) loopFuel
    (pgrounddown space) s.mem = .ok (0, m')

theorem Owned.sysKmemInit_spec (h : Owned L s.mem own T U) (hk : s.kernelPagetable ∈ T)
    (hku : s.kernelPagetable ∉ U) (hp : (s.proc p).pagetable ∈ U) (space : ℕ) (n : ℤ) :
    Outcome (fun _ => True) (sysKmemInit p space n s) fun out => ∃ res k,
      Donated L T U (s.proc p).pagetable s.kernelPagetable (pgrounddown space)
        (uint64 (space + n * blockSize)) own s.mem res ∧
      (out.1 = 0 → res.1 = 0) ∧ out.2 = {s with mem := res.2, slab := k} := by
  unfold sysKmemInit
  refine (h.donateLoop_spec hk hku hp _ loopFuel (pgrounddown_mod space)).bind fun res hres => ?_
  dsimp only
  split
  · exact ⟨res, s.slab, hres, fun hc => absurd (show (-1 : ℤ) = 0 from hc) (by decide), rfl⟩
  · rename_i h0
    cases liftFault (Slab.kmemInit space n s.slab) with
    | error e => trivial
    | ok k => exact ⟨res, k, hres, fun _ => not_not.mp h0, rfl⟩

/-- The kernel's page table and those of the processes are page tables, without pages in common. -/
def Apart (L : Linker) (s : Os) : Prop :=
  ∃ own T U, Owned L s.mem own T U ∧ s.kernelPagetable ∈ T ∧ s.kernelPagetable ∉ U ∧
    ∀ p, Started s p → (s.proc p).pagetable ∈ U

theorem Settled.apart (h : Settled L s) : Apart L s := by
  obtain ⟨own, T, U, h, hk, hku⟩ := h
  exact ⟨own, T, U, h.owned, hk, hku, fun _ hp => (h.started hp).root⟩

theorem KernelOnly.settled {s₀ : Os} (h : KernelOnly L s₀.kernelPagetable s₀.mem)
    (hslots : ∀ p, s₀.proc p = .zero) (hinit : userinit L s₀ = .ok s) : Settled L s := by
  obtain ⟨own, hown⟩ := h
  have hnone : ∀ {q : ℕ}, (s₀.proc q).pagetable = 0 ∧ (s₀.proc q).trapframe = 0 := fun {q} => by
    rw [hslots q]
    exact ⟨rfl, rfl⟩
  have hsound : Sound L s₀ own {s₀.kernelPagetable} ∅ :=
    ⟨hown, fun q => .inl (hslots q), fun h0 _ => absurd hnone.1 h0, fun h0 _ => absurd hnone.2 h0⟩
  obtain ⟨hker, own', r, hr, h'⟩ := hsound.userinit_spec hinit
  refine ⟨own', _, _, h', ?_⟩
  grind

theorem boot_settled {k : Slab.Kmem} (h : boot L m k = .ok s) : Settled L s := by
  obtain ⟨s₀, hfresh, hkernel, hinit⟩ := boot_fresh h
  exact hkernel.settled hfresh.slots hinit

/-- Calls of `sys_kmem_init`, and what else happens between them. -/
inductive Donation where
  | kmemInit (p space : ℕ) (blockNum : ℤ)
  | others (s : Os)

def donate (s : Os) : Donation → Except Stop Os
  | .kmemInit p space blockNum => do
    let (_, s) ← sysKmemInit p space blockNum s
    return s
  | .others s' => .ok s'

/-- A process that is running makes the call, with any arguments. Between two calls page tables of
processes become any other ones; the kernel's maps what it did. -/
def mayDonate (L : Linker) (s : Os) : Donation → Prop
  | .kmemInit p space blockNum =>
    Started s p ∧ space < 2 ^ 64 ∧ -2 ^ 31 ≤ blockNum ∧ blockNum < 2 ^ 31
  | .others s' => Apart L s' ∧ s'.kernelPagetable = s.kernelPagetable ∧
      ∀ va < sv39, entry s.kernelPagetable va s'.mem = entry s.kernelPagetable va s.mem

def donations (L : Linker) : Protocol Stop Os Donation := ⟨donate, mayDonate L⟩

namespace Apart

theorem kmemInit (h : Apart L s) (hp : Started s p) (space : ℕ) (n : ℤ) :
    Outcome (fun _ => True) (donate s (.kmemInit p space n)) (Apart L) := by
  obtain ⟨own, T, U, hown, hk, hku, hproc⟩ := h
  refine (hown.sysKmemInit_spec hk hku (hproc p hp) space n).bind ?_
  rintro ⟨result, s'⟩ ⟨res, k, hdonated, -, hs'⟩
  obtain rfl : s' = {s with mem := res.2, slab := k} := hs'
  obtain ⟨own', hext⟩ := hdonated.extended
  exact ⟨own', T, U, hext.owned, hk, hku, hproc⟩

theorem donate {c : Donation} (h : Apart L s) (hc : mayDonate L s c) :
    Outcome (fun _ => True) (donate s c) (Apart L) := by
  cases c with
  | kmemInit p space n => exact h.kmemInit hc.1 space n
  | others s' => exact hc.1

end Apart

/-- **The kernel sees the caller's pages.** After booting the page tables are apart. From any such
state, after any calls of `sys_kmem_init`, let the range of a call not wrap around. If `kmem_init` is
then called, the kernel's page table maps each page of the range to the caller's, to read and write,
exactly if the entries that it already had in the range were to the caller's pages. -/
theorem sysKmemInit_sees : (∀ m k s, boot L m k = .ok s → Apart L s) ∧
    ∀ s₀, Apart L s₀ → ∀ cs s, (donations L).Proper s₀ cs → (donations L).run s₀ cs = .ok s →
      ∀ p space n m', Started s p → 1 ≤ n → space + n * blockSize < 2 ^ 64 →
        CallsKmemInit p space n s m' →
        (Agrees (s.proc p).pagetable s.kernelPagetable (pgrounddown space) (space + n * blockSize) s.mem ↔
          ∀ va, va % pgsize = 0 → pgrounddown space ≤ va → va < space + n * blockSize →
            Seen (s.proc p).pagetable s.kernelPagetable va m') := by
  refine ⟨fun m k s hboot => (boot_settled hboot).apart, ?_⟩
  intro s₀ h₀ cs s hproper hrun p space n m' hp _ hwrap hcall
  have hinv := Protocol.run_outcome (I := Apart L) (fun _ _ _ hI hc => hI.donate hc) h₀ hproper
  rw [hrun] at hinv
  obtain ⟨own, T, U, hown, hk, hku, hproc⟩ := hinv
  have hstop : uint64 ((space : ℤ) + (n : ℤ) * (blockSize : ℕ)) = space + n * blockSize := by
    exact_mod_cast uint64_of_lt hwrap
  unfold CallsKmemInit at hcall
  rw [hstop] at hcall
  have hloop := hown.donateLoop_spec hk hku (hproc p hp) (space + n * blockSize) loopFuel
    (pgrounddown_mod space)
  rw [hcall] at hloop
  refine ⟨fun hagree => hloop.seen hagree rfl, fun hseen va hva hal hlo hhi hv _ => ?_⟩
  -- Neither entry has changed.
  have hsv := maxva_lt_sv39 hva
  obtain ⟨hsame, hread, hwrite⟩ := (hseen va hal hlo hhi).toMatches
  rw [hloop.kept va hsv hv] at hsame hread hwrite
  rw [hloop.others _ (hown.sub (hproc p hp)) (fun heq => hku (heq ▸ hproc p hp)) va hsv] at hsame
  exact ⟨hsame, hread, hwrite⟩

/-- A few pages, one of them an empty page table of the kernel. -/
def Os.withKernel : Os :=
  ⟨(uvmcreate (.small 12)).2, Slab.blank, (uvmcreate (.small 12)).1, fun _ => .zero, 1, 0⟩

theorem kernelOnly_small : KernelOnly .small Os.withKernel.kernelPagetable Os.withKernel.mem := by
  obtain ⟨own, hown⟩ := (freePages_small 11 (by decide)).owned
  unfold Os.withKernel
  rcases hown.uvmcreate_spec with hnull | ⟨r, m, hr, -, -, -, -, -, howned⟩
  · have hroom : (uvmcreate (.small 12)).1 ≠ 0 := by decide +kernel
    exact absurd (by rw [hnull]) hroom
  · have hroot := howned ∅ le_rfl (Set.empty_subset _)
    rw [insert_empty_eq] at hroot
    rw [hr]
    exact ⟨_, hroot⟩

/-- The kernel has an empty page table, and process 0 a page at address 0, which it hands over. -/
theorem sysKmemInit_sees_small :
    ∃ s m', Apart .small s ∧ Started s 0 ∧ CallsKmemInit 0 0 (1 : ℕ) s m' ∧
      Seen (s.proc 0).pagetable s.kernelPagetable 0 m' := by
  have hsees : ∃ s₁, userinit .small .withKernel = .ok s₁ ∧
      (changes .small).Proper s₁ [.sbrk 0 4096 sbrkEager] ∧
      ∃ s, (changes .small).run s₁ [.sbrk 0 4096 sbrkEager] = .ok s ∧
        (Started s 0 ∧ valid (entry s.kernelPagetable 0 s.mem) = false) ∧
        ∃ call, donateLoop (s.proc 0).pagetable s.kernelPagetable 4096 loopFuel 0 s.mem = .ok call ∧
          call.1 = 0 := by
    decide +kernel
  obtain ⟨s₁, hinit, hproper, s, hrun, ⟨hp, hnone⟩, ⟨call, m'⟩, hcall, h0⟩ := hsees
  obtain rfl : call = 0 := h0
  have hapart := ((kernelOnly_small.settled (fun _ => rfl) hinit).run hproper hrun).apart
  have hcalls : CallsKmemInit 0 0 (1 : ℕ) s m' := by
    have hstop : uint64 (((0 : ℕ) : ℤ) + ((1 : ℕ) : ℤ) * (blockSize : ℕ)) = 4096 := by decide
    unfold CallsKmemInit
    rw [hstop]
    exact hcall
  refine ⟨s, m', hapart, hp, hcalls, ?_⟩
  refine (sysKmemInit_sees.2 s hapart [] s trivial rfl 0 0 1 m' hp le_rfl (by decide) hcalls).mp ?_ 0 rfl
    (by decide) (by decide)
  intro va _ hal _ hlt hv
  have hzero : va = 0 := by
    unfold pgsize blockSize at *
    omega
  rw [hzero] at hv
  exact absurd (hv.symm.trans hnone) (by decide)

/-- For a page at the end of the address space the sum is 0: `kmem_init` is called in every state,
and no process can have the page. -/
theorem sysKmemInit_wraps :
    ∃ space, space < 2 ^ 64 ∧ ∀ (p : ℕ) (s : Os), CallsKmemInit p space 1 s s.mem ∧
      walkaddr (s.proc p).pagetable space s.mem = 0 ∧
      ¬ Seen (s.proc p).pagetable s.kernelPagetable space s.mem := by
  refine ⟨2 ^ 64 - pgsize, by decide, fun p s => ⟨?_, if_pos (by decide), fun hseen => ?_⟩⟩
  · have hsum : uint64 (((2 ^ 64 - pgsize : ℕ) : ℤ) + 1 * (blockSize : ℕ)) = 0 := by decide
    obtain ⟨fuel, hfuel⟩ : ∃ fuel, loopFuel = fuel + 1 := ⟨2 ^ 64 - 1, by decide⟩
    unfold CallsKmemInit
    rw [hsum, hfuel]
    exact donateLoop_skips fuel (Nat.zero_le _) (by decide) fun a _ _ hlt => absurd hlt (Nat.not_lt_zero a)
  · exact absurd hseen.below (by decide)

end Xv6.Vm
