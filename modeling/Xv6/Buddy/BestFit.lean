import Xv6.Buddy.Partition

/-! Which block `buddy_alloc` takes.

The lists hold the maximal aligned runs of free pages. A request therefore finds a block on some
list exactly if there is a run for it (`exists_run_iff`), and it takes the first block of the first
list that has one; the upper halves it does not need go to the lists below. -/
namespace Xv6.Buddy
open Aligned Linked

variable {m start i j k l : ℕ} {w : World}

namespace FreeLists

theorem split_eq (i order : ℕ) (found : ℕ) (L : FreeLists) (l : ℕ) :
    split i order found L l = if order ≤ l ∧ l < found then (i + 2 ^ l) :: L l else L l := by
  induction found generalizing L with
  | zero => simp [split]
  | succ found ih =>
    unfold split
    by_cases hlt : found + 1 > order
    · rw [if_pos hlt, ih]
      by_cases hl : l = found
      · subst hl
        have hle : order ≤ l := by omega
        simp [push, hle]
      · have hiff : l < found ↔ l < found + 1 := by omega
        simp [push, hl, hiff]
    grind

end FreeLists

/-- There is an aligned run of `2 ^ k` free pages exactly if a list of that order or a higher one
has a block. -/
theorem exists_run_iff {F : Finset ℕ} {L : FreeLists} (hc : FreeLists.Canonical F L) (k : ℕ) :
    (∃ i, 2 ^ k ∣ i ∧ block i k ⊆ F) ↔ ∃ j, k ≤ j ∧ L j ≠ [] := by
  constructor
  · intro ⟨i, hdvd, hsub⟩
    have hmem := first_mem_block i k
    obtain ⟨i', j, hlarge, hi⟩ := exists_largest (hsub hmem)
    have hle : k ≤ j := by
      grind [Aligned.Largest.not_subset]
    exact ⟨j, hle, List.ne_nil_of_mem (hc.mem.mpr hlarge)⟩
  · intro ⟨j, hle, hne⟩
    obtain ⟨i, hi⟩ := List.exists_mem_of_ne_nil _ hne
    have hlarge := hc.mem.mp hi
    have hpow := Nat.pow_le_pow_right (n := 2) (by decide) hle
    have hsub : block i k ⊆ block i j := by
      grind [Aligned.mem_block]
    exact ⟨i, (pow_dvd_pow 2 hle).trans hlarge.aligned, hsub.trans hlarge.subset⟩

theorem Managed.run_iff (h : Managed m start w) (k : ℕ) :
    (∃ i, 2 ^ k ∣ i ∧ ∀ q ∈ block i k, PageFree m start w.live q) ↔ ∃ j, k ≤ j ∧ w.state.freeList j ≠ 0 := by
  obtain ⟨F, L, -, hcan, hF, hchain⟩ := h.lists
  have hsub : ∀ i, block i k ⊆ F ↔ ∀ q ∈ block i k, PageFree m start w.live q := fun i =>
    forall_congr' fun q => imp_congr_right fun _ => h.pageFree_iff hF q
  have hne : ∀ j, w.state.freeList j ≠ 0 ↔ L j ≠ [] := by
    intro j
    rw [Ne, chain_isEmpty (hchain j), List.map_eq_nil_iff]
  simp only [← hsub, hne]
  exact exists_run_iff hcan k

/-- The lists of `s` from head to tail, as addresses. -/
def Lists (s : State) (A : ℕ → List ℕ) : Prop := ∀ l, Chain s.next (s.freeList l) (A l)

/-- A request of order `k` is served from list `j`. -/
structure Takes (s : State) (k j : ℕ) (s' : State) : Prop where
  le : k ≤ j
  found : s.freeList j ≠ 0
  first : ∀ l, k ≤ l → l < j → s.freeList l = 0
  chains : ∃ A, Lists s A
  lists : ∀ A, Lists s A → Lists s' fun l =>
    if l = j then (A j).tail
    else if k ≤ l ∧ l < j then (s.freeList j + 2 ^ l * blockSize) :: A l
    else A l
  freeBlocks : s'.freeBlocks = s.freeBlocks - 2 ^ k

theorem Managed.alloc_takes {n : ℤ} (h : Managed m start w) (h1 : 1 ≤ n) (hn : n ≤ 2 ^ 30)
    (hfound : ∃ j, order n ≤ j ∧ w.state.freeList j ≠ 0) :
    ∃ j s', buddyAlloc n w.state = .ok (w.state.freeList j, s') ∧ Takes w.state (order n) j s' := by
  obtain ⟨F, hinv, -⟩ := h.ledger.inv
  obtain ⟨L, hrep, hcan⟩ := hinv.lists
  obtain ⟨hj, hne⟩ := Nat.find_spec hfound
  have hfirst : ∀ l, order n ≤ l → l < Nat.find hfound → w.state.freeList l = 0 := by
    intro l hl hlt
    by_contra hnull
    exact Nat.find_min hfound hlt ⟨hl, hnull⟩
  generalize Nat.find hfound = j at hj hne hfirst
  have hjm : j < w.state.maxOrder := not_le.mp fun hle => hne (h.above j hle)
  have hempty : ∀ l, order n ≤ l → l < j → L l = [] := by
    grind [Inv.head_eq_zero]
  obtain ⟨i, rest, hL⟩ := List.exists_cons_of_ne_nil fun hnil => hne ((Inv.head_eq_zero hrep hjm).mpr hnil)
  obtain ⟨s', hcall, hrep', -, hstable, hfree⟩ := hinv.buddyAlloc_first hrep hcan h1 hn hj hempty hL
  have hhead : w.state.freeList j = addr w.state.memoryStart i := by
    have hchain := hrep.chain j hjm
    rw [hL] at hchain
    exact hchain.1
  have hchains : ∃ A, Lists w.state A := by
    obtain ⟨-, L, -, -, -, hchain⟩ := h.lists
    exact ⟨_, hchain⟩
  refine ⟨j, s', hhead ▸ hcall, hj, hne, hfirst, hchains, fun A hA l => ?_, hfree⟩
  dsimp only
  by_cases hl : l < w.state.maxOrder
  · have hAl : ∀ l < w.state.maxOrder, A l = (L l).map (addr w.state.memoryStart) := fun l hl =>
      (hA l).unique (hrep.chain l hl)
    have hchain := hrep'.chain l (hstable.maxOrder ▸ hl)
    rw [hstable.memoryStart, FreeLists.split_eq] at hchain
    rw [hAl l hl, hAl j hjm, hhead, hL]
    by_cases hlj : l = j
    · subst hlj
      simpa [FreeLists.drop, hL] using hchain
    · have haddr : addr w.state.memoryStart i + 2 ^ l * blockSize = addr w.state.memoryStart (i + 2 ^ l) := by
        unfold addr
        ring
      rw [if_neg hlj, haddr]
      split at hchain
      · simpa [FreeLists.drop, hlj, *] using hchain
      · simpa [FreeLists.drop, hlj, *] using hchain
  · -- Not one of the lists in use.
    have hle := not_lt.mp hl
    have hnull := h.above l hle
    rw [if_neg (by omega), if_neg (by omega), (chain_isEmpty (hA l)).mp hnull, hstable.above l hle, hnull]
    rfl

/-- **The smallest block that will do.** After `buddy_init` over `2 ^ m` blocks and any proper
calls, `buddy_alloc` returns null exactly if there is no aligned run of free pages for the request. Else
it takes the first block of the first list that has one, puts the upper halves on the lists below,
and leaves the other lists as they are. -/
theorem buddyAlloc_bestFit {m : ℕ} (hm : m ≤ 13) (r : Region (2 ^ m)) (memory : ℕ → ℕ) :
    ∃ s, buddyInit r.start (2 ^ m) (State.zeroed memory) = .ok s ∧
      ∀ cs, calls.Proper ⟨s, []⟩ cs → ∃ w, calls.run ⟨s, []⟩ cs = .ok w ∧
        ∀ n : ℤ, 1 ≤ n → n ≤ 2 ^ 30 → ∃ k, log2Ceil n = .ok k ∧ ∃ p s', buddyAlloc n w.state = .ok (p, s') ∧
          (p = 0 ↔ ¬ ∃ i, 2 ^ k ∣ i ∧ ∀ q ∈ block i k, PageFree m r.start w.live q) ∧
          (p = 0 → s' = w.state) ∧ (p ≠ 0 → ∃ j, p = w.state.freeList j ∧ Takes w.state k j s') := by
  obtain ⟨s, hs, hms⟩ := managed_init hm r memory
  refine ⟨s, hs, fun cs hp => ?_⟩
  obtain ⟨w, hw, h⟩ := managed_run hms hp
  refine ⟨w, hw, fun n h1 hn => ⟨order n, log2Ceil_eq hn, ?_⟩⟩
  have hrun := h.run_iff (order n)
  by_cases hfound : ∃ j, order n ≤ j ∧ w.state.freeList j ≠ 0
  · obtain ⟨j, s', hcall, htakes⟩ := h.alloc_takes h1 hn hfound
    exact ⟨_, s', hcall, iff_of_false htakes.found (not_not.mpr (hrun.mpr hfound)),
      fun hnull => absurd hnull htakes.found, fun _ => ⟨j, rfl, htakes⟩⟩
  · have hnull : ∀ l, order n ≤ l → w.state.freeList l = 0 := by
      intro l hl
      by_contra hne
      exact hfound ⟨l, hl, hne⟩
    rcases h.alloc_none h1 hn hnull with hcall | ⟨hmax, -, -⟩
    · exact ⟨0, w.state, hcall, iff_of_true rfl (mt hrun.mp hfound), fun _ => rfl, fun hne => absurd rfl hne⟩
    · exact (h.faults.mpr hmax).elim

/-- After `sampleCalls`, two pages are taken from the block of four pages before the one that is held. -/
theorem buddyAlloc_bestFit_boot :
    ∃ s w s', buddyInit bootRegion.start (2 ^ 10) (State.zeroed fun _ => 0) = .ok s ∧
      calls.run ⟨s, []⟩ sampleCalls = .ok w ∧ buddyAlloc 2 w.state = .ok (bootRegion.start, s') ∧
      ∃ j, bootRegion.start = w.state.freeList j ∧ Takes w.state 1 j s' := by
  have htakes : ∃ s, buddyInit bootRegion.start (2 ^ 10) (State.zeroed fun _ => 0) = .ok s ∧
      calls.Proper ⟨s, []⟩ sampleCalls ∧ ∃ w, calls.run ⟨s, []⟩ sampleCalls = .ok w ∧
        ∃ r, buddyAlloc 2 w.state = .ok r ∧ r.1 = bootRegion.start := by
    decide +kernel
  obtain ⟨s, hs, hproper, w, hw, ⟨p, s₁⟩, hcall, hp⟩ := htakes
  obtain rfl : p = bootRegion.start := hp
  obtain ⟨s', hs', hruns⟩ := buddyAlloc_bestFit (m := 10) (by decide) bootRegion fun _ => 0
  cases hs.symm.trans hs'
  obtain ⟨w', hw', hall⟩ := hruns _ hproper
  cases hw.symm.trans hw'
  obtain ⟨k, hk, p, s', hcall', -, -, hsome⟩ := hall 2 (by decide) (by decide)
  cases hcall.symm.trans hcall'
  obtain rfl : k = 1 := (Except.ok.inj ((log2Ceil_eq (by decide)).symm.trans hk)).symm.trans (by decide)
  exact ⟨s, w, s₁, hs, hw, hcall, hsome (by decide)⟩

end Xv6.Buddy
