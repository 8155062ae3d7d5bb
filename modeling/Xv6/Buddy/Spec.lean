import Xv6.Buddy.Refine

/-! What the allocator's calls do to the set of free pages.

`Inv U F s`: the allocator manages the pages `U`, of which `F` are free, and its
lists are canonical for `F`. An allocation that finds a block takes an aligned
run of pages out of `F` (`Inv.buddyAlloc_found`), an aligned run that is not free
can be put back (`Inv.buddyFree`), and both always return. Callers need nothing
else about the lists. -/
namespace Xv6.Buddy
open Aligned Linked FreeLists

/-- The allocator manages the pages `U` and the pages `F` are free. -/
structure Inv (U F : Finset ℕ) (s : State) : Prop where
  lists : ∃ L, Rep s L ∧ Canonical F L
  subset : F ⊆ U
  order_lt : ∀ {i k : ℕ}, 2 ^ k ∣ i → block i k ⊆ U → k < s.maxOrder
  fits : ∀ i ∈ U, 0 < addr s.memoryStart i ∧ addr s.memoryStart (i + 1) ≤ 2 ^ 64
  freeBlocks : s.freeBlocks = F.card

namespace Inv

variable {U F : Finset ℕ} {s : State} {i k : ℕ} {n : ℤ}

theorem limit (h : Inv U F s) : s.maxOrder ≤ maxOrderLimit := h.lists.choose_spec.1.limit

theorem addr_lt (h : Inv U F s) (hi : i ∈ U) : addr s.memoryStart i < 2 ^ 64 := by
  have hfit := (h.fits i hi).2
  unfold addr blockSize at *
  omega

theorem order_lt_of_mem {L : FreeLists} (h : Inv U F s) (hc : Canonical F L) (hi : i ∈ L k) :
    k < s.maxOrder :=
  h.order_lt (hc.mem.mp hi).aligned ((hc.mem.mp hi).subset.trans h.subset)

theorem head_eq_zero {L : FreeLists} (hr : Rep s L) (hk : k < s.maxOrder) :
    s.freeList k = 0 ↔ L k = [] := by
  rw [chain_isEmpty (hr.chain k hk), List.map_eq_nil_iff]

/-! ### Allocation -/

/-- An allocation that finds a block on list `j`, the first one with a block, takes
its first block, and gives back all but the pages asked for. -/
theorem buddyAlloc_first {L : FreeLists} {j : ℕ} {rest : List ℕ} (h : Inv U F s) (hr : Rep s L)
    (hc : Canonical F L) (h1 : 1 ≤ n) (hn : n ≤ 2 ^ 30) (hj : order n ≤ j)
    (hmin : ∀ l, order n ≤ l → l < j → L l = []) (hL : L j = i :: rest) :
    ∃ s', buddyAlloc n s = .ok (addr s.memoryStart i, s') ∧
      Rep s' (FreeLists.split i (order n) j (L.drop j i)) ∧
      Canonical (F \ block i (order n)) (FreeLists.split i (order n) j (L.drop j i)) ∧
      Stable s s' ∧ s'.freeBlocks = s.freeBlocks - 2 ^ order n := by
  have hi : i ∈ L j := hL ▸ List.mem_cons_self ..
  have hlarge := hc.mem.mp hi
  have hjm : j < s.maxOrder := h.order_lt_of_mem hc hi
  have hlim := h.limit
  have hempty : ∀ l, order n ≤ l → l < j →
      l ≤ s.maxOrder ∧ l < maxOrderLimit ∧ s.freeList l = 0 := fun l hl hlj =>
    ⟨by omega, by omega, (head_eq_zero hr (by omega)).mpr (hmin l hl hlj)⟩
  have hhead : s.freeList j = addr s.memoryStart i := by
    have hchain := hr.chain j hjm
    rw [hL] at hchain
    exact hchain.1
  have hne : s.freeList j ≠ 0 := hhead ▸ hr.addr_ne_zero hjm hi
  have hfind : findOrder s loopFuel (order n) = .ok j :=
    findOrder_eq hj hempty (.inr ⟨by omega, by omega, hne⟩) (by
      unfold maxOrderLimit at hlim
      unfold loopFuel
      omega)
  obtain ⟨s1, hs1, hrep1, hkeep1⟩ := hr.removeFromList hjm hi
  have hcan1 := hc.drop hi
  -- The halves lie in the block that was taken, so none of them is on a list.
  have hhalf : ∀ t, t < j → i + 2 ^ t ∈ block i j := fun t ht => by
    have := Nat.pow_lt_pow_right (a := 2) (by decide) ht
    grind [Aligned.mem_block]
  have hnew : ∀ t, t < j → ∀ l < s1.maxOrder, i + 2 ^ t ∉ L.drop j i l := fun t ht l _ hmem =>
    (Finset.mem_sdiff.mp (hcan1.mem_pages hmem)).2 (hhalf t ht)
  have hfits : ∀ t, t < j → addr s1.memoryStart (i + 2 ^ t) < 2 ^ 64 := fun t ht => by
    rw [hkeep1.memoryStart]
    exact h.addr_lt (h.subset (hlarge.subset (hhalf t ht)))
  obtain ⟨s2, hs2, hrep2, hkeep2⟩ := hrep1.splitLoop (order n)
    (by rw [hkeep1.maxOrder]; omega) hnew
    (by rw [hkeep1.memoryStart]; exact hr.addr_ne_zero hjm hi) hfits
  rw [hkeep1.memoryStart] at hs2
  have hkeep := hkeep1.trans hkeep2
  have hcan2 := hcan1.split (order n) hlarge.aligned Finset.disjoint_sdiff hj
  have hsub : block i (order n) ⊆ block i j := fun q hq => by
    grind [Aligned.mem_block]
  have hpages : F \ block i j ∪ block i j \ block i (order n) = F \ block i (order n) := by
    ext q
    have := @hsub q
    have := @hlarge.subset q
    grind
  rw [hpages] at hcan2
  refine ⟨{s2 with freeBlocks := s2.freeBlocks - 2 ^ order n}, ?_,
    ⟨hrep2.limit, hrep2.chain, hrep2.apart, hrep2.fits⟩, hcan2,
    ⟨hkeep.maxOrder, hkeep.memoryStart, hkeep.totalBlocks, hkeep.above⟩, by rw [← hkeep.freeBlocks]⟩
  unfold buddyAlloc
  rw [if_neg (by omega), log2Ceil_eq hn]
  simp only [ok_bind, if_neg (show ¬ order n > s.maxOrder by omega), hfind,
    if_neg (show ¬ j > s.maxOrder by omega), hr.head_eq hjm, hhead, hs1, hs2, pure_eq_ok]

theorem buddyAlloc_found {l : ℕ} (h : Inv U F s) (h1 : 1 ≤ n) (hn : n ≤ 2 ^ 30)
    (hl : order n ≤ l) (hlm : l < s.maxOrder) (hne : s.freeList l ≠ 0) :
    ∃ i s', buddyAlloc n s = .ok (addr s.memoryStart i, s') ∧ 2 ^ order n ∣ i ∧
      block i (order n) ⊆ F ∧ Inv U (F \ block i (order n)) s' ∧ Stable s s' := by
  obtain ⟨L, hr, hc⟩ := h.lists
  -- The first list with a block.
  have hex : ∃ j, order n ≤ j ∧ L j ≠ [] := ⟨l, hl, fun h0 => hne ((head_eq_zero hr hlm).mpr h0)⟩
  obtain ⟨hj, hLj⟩ := Nat.find_spec hex
  have hmin : ∀ t, order n ≤ t → t < Nat.find hex → L t = [] := fun t ht hlt => by
    by_contra h0
    exact Nat.find_min hex hlt ⟨ht, h0⟩
  obtain ⟨i, rest, hL⟩ := List.exists_cons_of_ne_nil hLj
  obtain ⟨s', hs', hrep, hcan, hst, hfree⟩ := h.buddyAlloc_first hr hc h1 hn hj hmin hL
  have hlarge := hc.mem.mp (show i ∈ L (Nat.find hex) from hL ▸ List.mem_cons_self ..)
  have hsub : block i (order n) ⊆ F := fun q hq => hlarge.subset (by
    have := Nat.pow_le_pow_right (n := 2) (by decide) hj
    simp only [mem_block] at hq ⊢
    omega)
  refine ⟨i, s', hs', (pow_dvd_pow 2 hj).trans hlarge.aligned, hsub, ?_, hst⟩
  refine ⟨⟨_, hrep, hcan⟩, Finset.sdiff_subset.trans h.subset,
    fun ha hb => hst.maxOrder ▸ h.order_lt ha hb, ?_, ?_⟩
  · rw [hst.memoryStart]
    exact h.fits
  · have hle := Finset.card_le_card hsub
    rw [card_block] at hle
    rw [hfree, h.freeBlocks, Finset.card_sdiff_of_subset hsub, card_block]
    push_cast [Nat.cast_sub hle]
    rfl

/-- An allocation that finds nothing returns null, unless the entry after the lists
in use holds something or is past the array. -/
theorem buddyAlloc_none (hn : n ≤ 2 ^ 30)
    (hempty : ∀ l, order n ≤ l → l ≤ s.maxOrder → l < maxOrderLimit ∧ s.freeList l = 0) :
    buddyAlloc n s = .ok (0, s) := by
  unfold buddyAlloc
  split
  · rfl
  · rw [log2Ceil_eq hn]
    simp only [ok_bind]
    split
    · rfl
    · have hfind : findOrder s loopFuel (order n) = .ok (s.maxOrder + 1) := by
        refine findOrder_eq (by omega) (fun l hl hlt => ?_) (.inl (by omega)) ?_
        · exact ⟨by omega, hempty l hl (by omega)⟩
        · grind [maxOrderLimit, loopFuel]
      rw [hfind]
      simp

theorem buddyAlloc_tooLarge (hn : n ≤ 2 ^ 30) (hbig : s.maxOrder < order n) :
    buddyAlloc n s = .ok (0, s) := by
  unfold buddyAlloc
  split
  · rfl
  · rw [log2Ceil_eq hn]
    simp only [ok_bind, if_pos hbig, pure_eq_ok]

/-- With the largest `max_order`, an allocation that finds nothing reads past the array. -/
theorem buddyAlloc_outOfBounds (h1 : 1 ≤ n) (hn : n ≤ 2 ^ 30) (hm : s.maxOrder = maxOrderLimit)
    (hk : order n ≤ maxOrderLimit)
    (hempty : ∀ l, order n ≤ l → l < maxOrderLimit → s.freeList l = 0) :
    buddyAlloc n s = .error (.outOfBounds maxOrderLimit) := by
  have hfind := findOrder_outOfBounds loopFuel hm hk hempty (by
    unfold maxOrderLimit loopFuel
    omega)
  unfold buddyAlloc
  rw [if_neg (by omega), log2Ceil_eq hn]
  simp only [ok_bind, if_neg (show ¬ order n > s.maxOrder by omega), hfind, error_bind]

/-! ### Freeing -/

theorem buddyFree (h : Inv U F s) (h1 : 1 ≤ n) (hn : n ≤ 2 ^ 30) (hi : 2 ^ order n ∣ i)
    (hU : block i (order n) ⊆ U) (hd : Disjoint (block i (order n)) F) :
    ∃ s', buddyFree (addr s.memoryStart i) n s = .ok s' ∧ Inv U (F ∪ block i (order n)) s' ∧
      Stable s s' := by
  obtain ⟨L, hr, hc⟩ := h.lists
  have hlim := h.limit
  have hk : order n < s.maxOrder := h.order_lt hi hU
  have hpos := (h.fits i (hU (first_mem_block i (order n)))).1
  have hpage := h.addr_lt (hU (first_mem_block i (order n)))
  obtain ⟨s1, hs1, hrep1, hkeep1⟩ := hr.mergeLoop loopFuel hi hpage
    (show order n + (s.maxOrder - order n) = s.maxOrder by omega) (by
      unfold maxOrderLimit at hlim
      unfold loopFuel
      omega)
  rcases hm : merge (s.maxOrder - order n) i (order n) L with ⟨i', k', L'⟩
  rw [hm] at hs1 hrep1
  obtain ⟨F', hcan, hi', hd', hu, hend⟩ := hc.merge _ hi hd hm
  -- The merged block is one of the managed pages' blocks, so its order is in use.
  have hU' : block i' k' ⊆ U := by
    have hsub : block i' k' ⊆ F ∪ block i (order n) := hu ▸ Finset.subset_union_right
    exact hsub.trans (Finset.union_subset h.subset hU)
  have hk' : k' < s.maxOrder := h.order_lt hi' hU'
  have hsib : sibling i' k' ∉ L' k' := hend.resolve_right (by omega)
  have hnew : ∀ l < s1.maxOrder, i' ∉ L' l := fun l _ hmem =>
    Finset.disjoint_left.mp hd' (first_mem_block i' k') (hcan.mem_pages hmem)
  have hpage' := h.fits i' (hU' (first_mem_block i' k'))
  have hlt' := h.addr_lt (hU' (first_mem_block i' k'))
  obtain ⟨s2, hs2, hrep2, hkeep2⟩ := hrep1.addToList (k := k') (i := i')
    (by rw [hkeep1.maxOrder]; exact hk') hnew
    (by rw [hkeep1.memoryStart]; exact hpage'.1.ne')
    (by rw [hkeep1.memoryStart]; exact hlt')
  rw [hkeep1.memoryStart] at hs2
  have hkeep := hkeep1.trans hkeep2
  have hcan2 := hcan.push hi' hd' hsib
  rw [hu] at hcan2
  refine ⟨{s2 with freeBlocks := s2.freeBlocks + 2 ^ order n}, ?_, ?_,
    ⟨hkeep.maxOrder, hkeep.memoryStart, hkeep.totalBlocks, hkeep.above⟩⟩
  · unfold Buddy.buddyFree
    rw [if_neg (by omega), log2Ceil_eq hn]
    simp only [ok_bind, hs1, hs2, pure_eq_ok]
  · refine ⟨⟨_, ⟨hrep2.limit, hrep2.chain, hrep2.apart, hrep2.fits⟩, hcan2⟩,
      Finset.union_subset h.subset hU, fun ha hb => hkeep.maxOrder ▸ h.order_lt ha hb, ?_, ?_⟩
    · show ∀ i ∈ U, 0 < addr s2.memoryStart i ∧ addr s2.memoryStart (i + 1) ≤ 2 ^ 64
      rw [hkeep.memoryStart]
      exact h.fits
    · show s2.freeBlocks + 2 ^ order n = _
      rw [hkeep.freeBlocks, h.freeBlocks, Finset.card_union_of_disjoint hd.symm, card_block]
      push_cast
      rfl

end Inv

end Xv6.Buddy
