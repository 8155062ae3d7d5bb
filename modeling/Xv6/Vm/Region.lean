import Xv6.Vm.Donate

/-! The pages of the slab allocator over whole runs.

`lending` are the calls that change the memory of processes, with any page faults, and
`sys_kmem_init`. A process that gives a region to `kmem_init` keeps its pages mapped, and the kernel
does not know that it must not free them. `Lent` records beside the state which pages `kmem_init` was
given last and by whom. Only a call that frees such a page, or gives a page that is not the caller's,
makes two owners of a page (`Follows.apart`). -/
namespace Xv6.Vm
open Buddy (blockSize)

/-- A state, the physical pages of the region that `kmem_init` was given last, and the process that
gave it; none for `main`. -/
structure Lent where
  os : Os
  region : Set ℕ
  donor : Option ℕ

/-- The state after booting: `main` has given the memory from `slabMem` on. -/
def Lent.start (s : Os) : Lent := ⟨s, {x | slabMem ≤ x}, none⟩

/-- The physical pages that the kernel has for the `n` blocks from `space` on. -/
def backing (space : ℕ) (n : ℤ) (s : Os) : Set ℕ :=
  {x | ∃ a < maxva, space ≤ a ∧ (a : ℤ) < space + n * blockSize ∧
    valid (entry s.kernelPagetable a s.mem) = true ∧ pte2pa (entry s.kernelPagetable a s.mem) = x}

inductive Call where
  | change (c : Change)
  | kmemInit (p space : ℕ) (blockNum : ℤ)

def Lent.step (L : Linker) (w : Lent) : Call → Except Stop Lent
  | .change c => do
    let s ← change L w.os c
    return {w with os := s}
  | .kmemInit p space n => do
    let res ← sysKmemInit p space n w.os
    return if res.1 = 0 then ⟨res.2, backing space n res.2, some p⟩ else {w with os := res.2}

def Lent.allowed (w : Lent) : Call → Prop
  | .change c => mayCall w.os c
  | .kmemInit p space n => Started w.os p ∧ space < 2 ^ 64 ∧ -2 ^ 31 ≤ n ∧ n < 2 ^ 31

def lending (L : Linker) : Protocol Stop Lent Call := ⟨Lent.step L, Lent.allowed⟩

/-- The process has the page at a user address. -/
def Maps (s : Os) (p x : ℕ) : Prop :=
  (s.proc p).state ≠ .unused ∧ ∃ va < trapframe, va % pgsize = 0 ∧
    valid (entry (s.proc p).pagetable va s.mem) = true ∧ pte2pa (entry (s.proc p).pagetable va s.mem) = x

/-- No page of the region is free, or mapped by a process other than the one that gave it. -/
def Lent.Apart (w : Lent) : Prop :=
  ∀ x ∈ w.region, ¬ OnFreeList w.os.mem x ∧ ∀ p, w.donor ≠ some p → ¬ Maps w.os p x

/-- The call frees no page of the region; if it gives a new one, then no page that is free or another
process's. -/
def Lent.Spares (L : Linker) (w : Lent) : Call → Prop
  | .change c => Outcome (fun _ => True) (change L w.os c) fun s => ∀ x ∈ w.region, ¬ OnFreeList s.mem x
  | .kmemInit p space n => Outcome (fun _ => True) (sysKmemInit p space n w.os) fun res =>
      res.1 = 0 → Lent.Apart ⟨res.2, backing space n res.2, some p⟩

/-! ### Steps -/

variable {L : Linker} {s s' : Os} {own own' : ℕ → Owner} {T U T' U' : Set ℕ} {p x : ℕ} {w w' : Lent}
  {c : Call}

theorem Owned.root_ne_zero {m : Memory} {r : ℕ} (h : Owned L m own T U) (hr : r ∈ T) :
    own r = .table r ∧ r ≠ 0 :=
  have htable := (h.nodes hr).mp Radix.root_mem_nodes
  ⟨htable, h.ne_zero (table_ne_other htable)⟩

theorem Sound.maps_iff (h : Sound L s own T U) :
    Maps s p x ↔ ∃ va, own x = .user (s.proc p).pagetable va := by
  constructor
  · rintro ⟨hp, va, hva, hal, hv, rfl⟩
    exact ⟨va, h.owned.mapped (h.live hp).root hva hal hv⟩
  · rintro ⟨va, hx⟩
    obtain ⟨hr, hva, hal, hv, hpa⟩ := h.owned.user hx
    refine ⟨fun hunused => ?_, va, hva, hal, hv, hpa⟩
    rcases h.slot p with hzero | hlive
    · refine (h.owned.root_ne_zero (h.owned.sub hr)).2 ?_
      rw [hzero]
      rfl
    · exact hlive.started hunused

namespace Follows

theorem maps (h : Follows L s s') (hx : ¬ OnFreeList s.mem x) (hp : Maps s' p x) : Maps s p x := by
  obtain ⟨own, T, U, own', T', U', hsound, hmoves, -⟩ := h
  obtain ⟨va, hva⟩ := hmoves.sound.maps_iff.mp hp
  rw [hsound.owned.onFreeList_iff] at hx
  have hsame : own x = .user (s'.proc p).pagetable va := by
    rw [← hmoves.passes x hx (by rw [hva]; nofun), hva]
  obtain ⟨htable, h0⟩ := hsound.owned.root_ne_zero (hsound.owned.sub (hsound.owned.user hsame).1)
  rcases hmoves.tables p with heq | hfree | hzero
  · exact hsound.maps_iff.mpr ⟨va, heq ▸ hsame⟩
  · cases hfree.symm.trans htable
  · exact absurd hzero h0

theorem apart (h : Follows L w.os s) (ha : w.Apart) (hfree : ∀ x ∈ w.region, ¬ OnFreeList s.mem x) :
    Lent.Apart {w with os := s} := fun x hx =>
  ⟨hfree x hx, fun p hp hmaps => (ha x hx).2 p hp (h.maps (ha x hx).1 hmaps)⟩

end Follows

namespace Settled

theorem slabMem (h : Settled L s) (hx : slabMem ≤ x) : ¬ OnFreeList s.mem x ∧ ¬ Maps s p x := by
  obtain ⟨own, T, U, h, -⟩ := h
  have hother : own x = .other := by
    by_contra hpage
    exact absurd (h.owned.page hpage).2.2 hx.not_gt
  rw [h.owned.onFreeList_iff, h.maps_iff, hother]
  simp

theorem kmemInit (h : Settled L s) (hp : Started s p) (space : ℕ) {n : ℤ} (hn : n < 2 ^ 31) :
    Outcome (fun _ => True) (sysKmemInit p space n s) fun res => Follows L s res.2 ∧
      (∀ x, OnFreeList res.2.mem x → OnFreeList s.mem x) ∧
      (Agrees (s.proc p).pagetable s.kernelPagetable (pgrounddown space) (uint64 (space + n * blockSize))
        s.mem → res.1 = 0 → Lent.Apart ⟨res.2, backing space n res.2, some p⟩) := by
  obtain ⟨own, T, U, h, hk, hku⟩ := h
  have hlive := h.started hp
  refine (h.owned.sysKmemInit_spec hk hku hlive.root space n).mono ?_
  rintro ⟨result, s'⟩ ⟨res, k, hdonated, h0, hs'⟩
  obtain rfl : s' = {s with mem := res.2, slab := k} := hs'
  obtain ⟨own', hext⟩ := hdonated.extended
  have hsound : Sound L {s with mem := res.2, slab := k} own' T U := by
    refine h.transfer rfl hext.owned (fun q hq => hdonated.others q (h.owned.sub hq) ?_) (fun x hx => ?_)
      fun x r va => hext.grows.user
    · rintro rfl
      exact hku hq
    · rw [hext.grows.keeps (by rw [hx]; nofun), hx]
  refine ⟨⟨own, T, U, own', T, U, h, ⟨hsound, rfl, le_rfl, fun x hx _ => hext.grows.keeps hx,
    fun _ => .inl rfl⟩, hk, hku⟩, fun x => ?_, fun hagree hres => ?_⟩
  · rw [h.owned.onFreeList_iff, hsound.owned.onFreeList_iff]
    intro hx
    rcases hext.grows x with hsame | ⟨hfree, -⟩
    · exact hsame.symm.trans hx
    · exact hfree
  · rintro x ⟨a, hmax, hlo, hhi, -, rfl⟩
    have hle := pgrounddown_le a
    have hstop : a < uint64 (space + n * blockSize) := by
      obtain ⟨stop, hsum⟩ := Int.eq_ofNat_of_zero_le (Int.natCast_nonneg a |>.trans hhi.le)
      unfold maxva blockSize at *
      rw [hsum, uint64_of_lt (by omega)]
      omega
    have hseen := hdonated.seen hagree (h0 hres) (pgrounddown a) (pgrounddown_mod a)
      (Nat.mul_le_mul_right _ (Nat.div_le_div_right hlo)) (hle.trans_lt hstop)
    have hlive' := hsound.started hp
    have hlow := hlive'.layout.below (maxva_lt_sv39 hseen.below) hseen.mapped hseen.user
    have hown := hsound.owned.mapped hlive.root hlow (pgrounddown_mod a) hseen.mapped
    rw [← hseen.same, ← entry_of_page (pgrounddown_page a)] at hown
    rw [hsound.owned.onFreeList_iff, hown]
    refine ⟨nofun, fun q hq hmaps => ?_⟩
    obtain ⟨va, hva⟩ := hsound.maps_iff.mp hmaps
    rw [hown] at hva
    cases hsound.tables (hsound.pagetable_ne_zero hlive') (Owner.user.inj hva).1
    exact hq rfl

end Settled

namespace Lent

/-- In a run: until a process gives a region, it is that of `main`. -/
def Good (L : Linker) (w : Lent) : Prop :=
  Settled L w.os ∧ (w.donor = none → w.region = {x | slabMem ≤ x})

theorem Good.step (h : w.Good L) (hc : w.allowed c) :
    Outcome (fun _ => True) (w.step L c) (Good L) := by
  cases c with
  | change c => exact (h.1.change hc).bind fun s hs => ⟨hs.settled, h.2⟩
  | kmemInit p space n =>
    refine (h.1.kmemInit hc.1 space hc.2.2.2).bind fun res ⟨hs, _⟩ => ?_
    split
    · exact ⟨hs.settled, nofun⟩
    · exact ⟨hs.settled, h.2⟩

theorem spares_iff (h : Settled L w.os) (hc : w.allowed c) (ha : w.Apart) :
    w.Spares L c ↔ Outcome (fun _ => True) (w.step L c) Lent.Apart := by
  cases c with
  | change c =>
    rw [step, Outcome.bind_pure]
    exact ⟨fun hs => ((h.change hc).and hs).mono fun s ⟨hf, hs⟩ => hf.apart ha hs,
      fun hs => hs.mono fun s hs x hx => (hs x hx).1⟩
  | kmemInit p space n =>
    rw [step, Outcome.bind_pure]
    refine ⟨fun hs => ((h.kmemInit hc.1 space hc.2.2.2).and hs).mono ?_,
      fun hs => hs.mono fun res hs h0 => by rwa [if_pos h0] at hs⟩
    rintro res ⟨⟨hf, hfree, -⟩, hs⟩
    split
    · exact hs ‹_›
    · exact hf.apart ha fun x hx hfreed => (ha x hx).1 (hfree x hfreed)

end Lent

/-- **The allocators have no page in common.** Booting leads to a settled state. From any such state, in
a run of any calls: at no point is a page of the region given last free, or mapped by a process that
did not give it, exactly if no call frees a page of that region or gives one that is free or another
process's. The memory that `main` gives is never freed, and `sys_kmem_init` gives the caller's pages
where the kernel's page table has no others. -/
theorem slab_pages_apart : (∀ m k s, boot L m k = .ok s → Settled L s) ∧
    ∀ s, Settled L s → ∀ cs, (lending L).Proper (.start s) cs →
      ((∀ ds w, ds <+: cs → (lending L).run (.start s) ds = .ok w → w.Apart) ↔
        ((lending L).restrict (Lent.Spares L)).Proper (.start s) cs) ∧
      ∀ w, (lending L).Reaches (.start s) w →
        (w.donor = none → ∀ c, mayCall w.os c → w.Spares L (.change c)) ∧
        ∀ p space n, w.allowed (.kmemInit p space n) →
          Agrees (w.os.proc p).pagetable w.os.kernelPagetable (pgrounddown space)
            (uint64 (space + n * blockSize)) w.os.mem → w.Spares L (.kmemInit p space n) := by
  refine ⟨fun m k s hboot => boot_settled hboot, fun s h cs hproper => ⟨?_, fun w hreach => ?_⟩⟩
  · refine Protocol.run_stays_iff (I := Lent.Good L) (fun w c w' hw hc => (hw.step hc).of_ok)
      (fun w c hw hc ha => (Lent.spares_iff hw.1 hc ha).trans Outcome.iff_forall) ⟨h, fun _ => rfl⟩
      (fun x hx => ?_) hproper
    exact ⟨(h.slabMem (p := 0) hx).1, fun p _ => (h.slabMem hx).2⟩
  · have hw := hreach.keeps (I := Lent.Good L) (fun w c hw hc => hw.step hc) ⟨h, fun _ => rfl⟩
    refine ⟨fun hdonor c hc => (hw.1.change hc).mono fun s' hs' x hx => ?_, fun p space n hc hagree => ?_⟩
    · rw [hw.2 hdonor] at hx
      exact (hs'.settled.slabMem (p := 0) hx).1
    · exact (hw.1.kmemInit hc.1 space hc.2.2.2).mono fun res hres => hres.2.2 hagree

/-- Process 0 gives its page at address 4096. -/
theorem slab_pages_apart_small : ∃ s, Settled .small s ∧
    ∃ w x, (lending .small).run (.start s) [.kmemInit 0 4096 1] = .ok w ∧ x ∈ w.region ∧ w.Apart := by
  have hgives : ∃ s₁, userinit .small .withKernel = .ok s₁ ∧
      (changes .small).Proper s₁ [.sbrk 0 8192 0, .fault 0 4096] ∧
      ∃ s, (changes .small).run s₁ [.sbrk 0 8192 0, .fault 0 4096] = .ok s ∧
        (Started s 0 ∧ valid (entry s.kernelPagetable 4096 s.mem) = false) ∧
        ∃ r, sysKmemInit 0 4096 1 s = .ok r ∧
          r.1 = 0 ∧ valid (entry r.2.kernelPagetable 4096 r.2.mem) = true := by decide +kernel
  obtain ⟨s₁, hinit, hchanges, s, hrun, ⟨hp, hnone⟩, ⟨result, s₂⟩, hgive, h0, hv⟩ := hgives
  obtain rfl : result = 0 := h0
  have h := (kernelOnly_small.settled (fun _ => rfl) hinit).run hchanges hrun
  have hrun' : (lending .small).run (.start s) [.kmemInit 0 4096 1] = .ok ⟨s₂, backing 4096 1 s₂, some 0⟩ := by
    refine Protocol.run_cons [] ?_
    unfold lending Lent.step Lent.start
    dsimp only
    rw [hgive]
    rfl
  have hproper : (lending .small).Proper (.start s) [.kmemInit 0 4096 1] :=
    ⟨⟨hp, by decide, by decide, by decide⟩, fun _ _ => trivial⟩
  obtain ⟨hiff, hspares⟩ := slab_pages_apart.2 s h _ hproper
  have hgiven : (Lent.start s).Spares .small (.kmemInit 0 4096 1) := by
    refine (hspares _ (.refl _)).2 0 4096 1 hproper.1 fun va _ hal hlo hhi hv _ => ?_
    have hva : va = 4096 := by
      have hlow : pgrounddown 4096 = 4096 := by decide
      have hstop : uint64 (((4096 : ℕ) : ℤ) + 1 * (blockSize : ℕ)) = 8192 := by decide
      unfold pgsize at hal
      omega
    rw [hva] at hv
    cases hv.symm.trans hnone
  exact ⟨s, h, _, _, hrun', ⟨4096, by decide, le_rfl, by decide, hv, rfl⟩,
    hiff.mpr ⟨⟨hproper.1, hgiven⟩, fun _ _ => trivial⟩ _ _ List.prefix_rfl hrun'⟩

/-- A process gives its page at address 4096 to `kmem_init` and then shrinks. The page is the first on
the free list, and the kernel still maps it where the only block of the slab allocator is. -/
theorem donated_page_freed : ∃ s₁, userinit .small .withKernel = .ok s₁ ∧
      ∃ s₂, (changes .small).run s₁ [.sbrk 0 8192 0, .fault 0 4096] = .ok s₂ ∧
        ∃ r₃, sysKmemInit 0 4096 1 s₂ = .ok r₃ ∧ r₃.1 = 0 ∧
          ∃ s₄, (changes .small).run r₃.2 [.sbrk 0 (-4096) 0] = .ok s₄ ∧
            s₄.slab.buddy.memoryStart = 4096 ∧ s₄.slab.buddy.freeList 0 = 4096 ∧
            s₄.mem.freelist ≠ 0 ∧ valid (entry s₄.kernelPagetable 4096 s₄.mem) = true ∧
            s₄.mem.freelist = pte2pa (entry s₄.kernelPagetable 4096 s₄.mem) := by
  decide +kernel

end Xv6.Vm
