import Xv6.Vm.Bound

/-! What a page fault does with the page that it takes. -/
namespace Xv6.Vm
open Function
open Linked Radix

variable {L : Linker} {s s' : Os} {p : ℕ}

/-- **What a page fault does with free pages.** Unless a page for the page table is missing, it returns,
the slab allocator is as before, and each page that was free is free or belongs to the process. If one
is missing, it returns 0 at most, and a page that was free is neither free nor does it belong to the
process. -/
theorem vmfault_pages (h : Consistent L s) (hp : Started s p) (va : ℕ) :
    (¬ NoTablePage p va s → ∃ mem s', vmfault p (s.proc p).pagetable va s = .ok (mem, s') ∧ s'.slab = s.slab ∧
      ∀ x, OnFreeList s.mem x → OnFreeList s'.mem x ∨ OfProcess s' p x) ∧
    (NoTablePage p va s → ∀ mem s', vmfault p (s.proc p).pagetable va s = .ok (mem, s') → mem = 0 ∧
      ∃ x, OnFreeList s.mem x ∧ ¬ OnFreeList s'.mem x ∧ ¬ OfProcess s' p x) := by
  obtain ⟨own, T, U, h⟩ := h
  have hlive := h.started hp
  rcases h.vmfault_cases hlive va with ⟨hroom, heq⟩ | ⟨_, hroom, mem, own', m', heq, hf⟩ |
      ⟨hmissing, mem, own', m', hu, heq⟩
  · exact ⟨fun _ => ⟨0, s, heq, rfl, fun x hx => .inl hx⟩, fun hmissing => absurd hmissing hroom⟩
  · refine ⟨fun _ => ⟨mem, _, heq, rfl, fun x hx => ?_⟩, fun hmissing => absurd hmissing hroom⟩
    have howned : Owned L ({s with mem := m'} : Os).mem own' T U := hf.extended.owned
    rw [h.owned.onFreeList_iff] at hx
    rw [howned.onFreeList_iff, howned.ofProcess_iff hlive.root]
    rcases hf.extended.grows x with hsame | ⟨_, htable | ⟨a, -, huser⟩⟩
    · exact .inl (hsame.trans hx)
    · exact .inr (.inr (.inl htable))
    · exact .inr (.inr (.inr ⟨a, huser⟩))
  · refine ⟨fun hroom => absurd hmissing hroom, fun _ r s' hr => ?_⟩
    rw [heq] at hr
    cases hk : liftFault (Slab.kfree mem s.slab) with
    | error e =>
      rw [hk] at hr
      cases hr
    | ok k =>
      rw [hk] at hr
      cases hr
      have howned : Owned L ({s with mem := m', slab := k} : Os).mem own' T U := hu.owned
      refine ⟨rfl, mem, h.owned.onFreeList_iff.mpr hu.fresh, ?_, ?_⟩
      · rw [howned.onFreeList_iff, hu.held]
        simp
      · rw [howned.ofProcess_iff hlive.root, hu.held]
        rintro (hframe | htable | ⟨a, huser⟩)
        · have hheld := hlive.frame
          rw [← show mem = (s.proc p).trapframe from hframe, hu.fresh] at hheld
          cases hheld
        · cases htable
        · cases huser

theorem vmfault_pages_small : ∃ s, Consistent .small s ∧ Started s 0 ∧ ¬ NoTablePage 0 0 s ∧
    ∃ mem s', vmfault 0 (s.proc 0).pagetable 0 s = .ok (mem, s') ∧ s'.slab = s.slab ∧
      ∀ x, OnFreeList s.mem x → OnFreeList s'.mem x ∨ OfProcess s' 0 x := by
  have hsees : ∃ s₀, userinit .small (.small 8) = .ok s₀ ∧ (changes .small).Proper s₀ [.sbrk 0 4096 0] ∧
      ∃ s, (changes .small).run s₀ [.sbrk 0 4096 0] = .ok s ∧ Started s 0 ∧ ¬ NoTablePage 0 0 s := by
    decide +kernel
  obtain ⟨s₀, hinit, hproper, s, hrun, hp, hroom⟩ := hsees
  have hc := changes_consistent (fresh_small 7 (by decide)) hinit hproper hrun
  exact ⟨s, hc, hp, hroom, (vmfault_pages hc hp 0).1 hroom⟩

/-- The bytes before the last page are an address with zeros. -/
def Os.stray : Os :=
  {Os.small 8 with slab := {Slab.blank with objects := ⟨fun _ => 0, fun _ => kernbase⟩}}

/-- The last free page is taken for the fault, and is on no list afterwards. -/
theorem vmfault_loses_page : ∃ s₀, userinit .small .stray = .ok s₀ ∧
    ∃ s, (changes .small).run s₀ [.sbrk 0 4096 1, .sbrk 0 0x200000 0] = .ok s ∧
      Started s 0 ∧ NoTablePage 0 0x200000 s ∧ s.mem.freelist = smallPage 7 ∧
      ∃ r, vmfault 0 (s.proc 0).pagetable 0x200000 s = .ok r ∧ r.1 = 0 ∧ r.2.mem.freelist = 0 := by
  decide +kernel

end Xv6.Vm
