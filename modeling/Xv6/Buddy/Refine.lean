import Xv6.Buddy.FreeLists
import Xv6.Buddy.Order

/-! The linked lists in memory are the free lists.

`Rep s L` says that the chain from `free_list[k]` visits the blocks `L k`, for
every order `k` the allocator uses. Each list operation of the code then does to
memory what its counterpart does to `L`, and always returns: the loops over a
list stop because the list ends. `Keeps` lists what none of them touches. -/
namespace Xv6.Buddy
open Function
open Aligned Linked

/-- What no call but `buddy_init` changes. -/
structure Stable (s s' : State) : Prop where
  maxOrder : s'.maxOrder = s.maxOrder
  memoryStart : s'.memoryStart = s.memoryStart
  totalBlocks : s'.totalBlocks = s.totalBlocks
  above : ∀ k, s.maxOrder ≤ k → s'.freeList k = s.freeList k

/-- What the list operations leave alone. -/
structure Keeps (s s' : State) : Prop extends Stable s s' where
  freeBlocks : s'.freeBlocks = s.freeBlocks

theorem Stable.refl (s : State) : Stable s s := ⟨rfl, rfl, rfl, fun _ _ => rfl⟩

theorem Stable.trans {s s' s'' : State} (h : Stable s s') (h' : Stable s' s'') : Stable s s'' :=
  ⟨h'.maxOrder.trans h.maxOrder, h'.memoryStart.trans h.memoryStart,
    h'.totalBlocks.trans h.totalBlocks,
    fun k hk => (h'.above k (h.maxOrder ▸ hk)).trans (h.above k hk)⟩

theorem Keeps.refl (s : State) : Keeps s s := ⟨.refl s, rfl⟩

theorem Keeps.trans {s s' s'' : State} (h : Keeps s s') (h' : Keeps s' s'') : Keeps s s'' :=
  ⟨h.toStable.trans h'.toStable, h'.freeBlocks.trans h.freeBlocks⟩

structure Rep (s : State) (L : FreeLists) : Prop where
  limit : s.maxOrder ≤ maxOrderLimit
  chain : ∀ k < s.maxOrder, Chain s.next (s.freeList k) ((L k).map (addr s.memoryStart))
  apart : ∀ {k l i : ℕ}, k < s.maxOrder → l < s.maxOrder → i ∈ L k → i ∈ L l → k = l
  fits : ∀ {k i : ℕ}, k < s.maxOrder → i ∈ L k → addr s.memoryStart i < 2 ^ 64

namespace Rep

variable {s : State} {L : FreeLists} {i k l : ℕ}

section
variable (h : Rep s L)
include h

section
variable (hk : k < s.maxOrder)
include hk

theorem nodup : (L k).Nodup :=
  (h.chain k hk).nodup.of_map _

theorem addr_ne_zero (hi : i ∈ L k) : addr s.memoryStart i ≠ 0 :=
  (h.chain k hk).ne_zero _ (List.mem_map_of_mem hi)

theorem head_eq : s.head k = .ok (s.freeList k) :=
  if_pos (lt_of_lt_of_le hk h.limit)

theorem length_lt : ((L k).map (addr s.memoryStart)).length < loopFuel := by
  have hsub : (L k).toFinset ⊆ Finset.range (2 ^ 52) := by
    intro i hi
    have := h.fits hk (List.mem_toFinset.mp hi)
    unfold addr blockSize at this
    rw [Finset.mem_range]
    omega
  have hcard := Finset.card_le_card hsub
  grind [Rep.nodup, List.toFinset_card_of_nodup, Finset.card_range, List.length_map, loopFuel]

theorem addr_mem_map (hl : l < s.maxOrder) (hi : i ∈ L k) :
    addr s.memoryStart i ∈ (L l).map (addr s.memoryStart) ↔ l = k := by
  grind [addr_injective, Rep.apart, List.mem_map_of_injective]

theorem removeFromList (hi : i ∈ L k) :
    ∃ s', removeFromList (addr s.memoryStart i) k s = .ok s' ∧ Rep s' (L.drop k i) ∧
      Keeps s s' := by
  have hc := h.chain k hk
  have hmem : addr s.memoryStart i ∈ (L k).map (addr s.memoryStart) := List.mem_map_of_mem hi
  have hlim : k < maxOrderLimit := lt_of_lt_of_le hk h.limit
  have hdrop : ∀ {l j : ℕ}, j ∈ L.drop k i l → j ∈ L l := by
    intro l j hj
    by_cases hlk : l = k
    · subst hlk
      exact List.mem_of_mem_erase (by simpa [FreeLists.drop] using hj)
    · simpa [FreeLists.drop, hlk] using hj
  by_cases hhead : s.freeList k = addr s.memoryStart i
  · -- The block is first on its list.
    obtain ⟨rest, hrest⟩ : ∃ rest, L k = i :: rest := by
      cases hL : L k with
      | nil => simp [hL] at hi
      | cons j rest =>
        rw [hL] at hc
        rw [hhead] at hc
        exact ⟨rest, by rw [addr_injective _ hc.1]⟩
    refine ⟨{s with freeList := update s.freeList k (s.next (addr s.memoryStart i))},
      by simp [Buddy.removeFromList, h.head_eq hk, hhead, State.setHead, hlim], ?_, ?_⟩
    · refine ⟨h.limit, fun l hl => ?_, fun hl hl' hj hj' => h.apart hl hl' (hdrop hj) (hdrop hj'),
        fun hl hj => h.fits hl (hdrop hj)⟩
      by_cases hlk : l = k
      · subst hlk
        rw [hrest] at hc
        simpa [FreeLists.drop, hrest] using hc.2.2
      · simpa [FreeLists.drop, hlk] using h.chain l hl
    · exact ⟨⟨rfl, rfl, rfl, fun l hl => update_of_ne (by omega) _ _⟩, rfl⟩
  · obtain ⟨a, ha, hwalk, hchain⟩ := hc.unlink hmem hhead (h.length_lt hk)
    have ha0 : a ≠ 0 := hc.ne_zero a ha
    refine ⟨{s with next := update s.next a (s.next (addr s.memoryStart i))},
      by simp [Buddy.removeFromList, h.head_eq hk, hhead, hwalk, ha0], ?_, ?_⟩
    · refine ⟨h.limit, fun l hl => ?_, fun hl hl' hj hj' => h.apart hl hl' (hdrop hj) (hdrop hj'),
        fun hl hj => h.fits hl (hdrop hj)⟩
      by_cases hlk : l = k
      · subst hlk
        simpa [FreeLists.drop, List.map_erase (addr_injective _)] using hchain
      · obtain ⟨j, hj, rfl⟩ := List.mem_map.mp ha
        have hnot := mt (h.addr_mem_map hk hl hj).mp hlk
        simpa [FreeLists.drop, hlk] using (h.chain l hl).update_of_notMem hnot _
    · exact ⟨⟨rfl, rfl, rfl, fun _ _ => rfl⟩, rfl⟩

theorem addToList (hnew : ∀ l < s.maxOrder, i ∉ L l)
    (hpos : addr s.memoryStart i ≠ 0) (hfit : addr s.memoryStart i < 2 ^ 64) :
    ∃ s', addToList (addr s.memoryStart i) k s = .ok s' ∧ Rep s' (L.push k i) ∧ Keeps s s' := by
  have hlim : k < maxOrderLimit := lt_of_lt_of_le hk h.limit
  have hpush : ∀ {l j : ℕ}, j ∈ L.push k i l ↔ (l = k ∧ j = i) ∨ j ∈ L l := by
    intro l j
    by_cases hlk : l = k
    · subst hlk
      simp [FreeLists.push]
    · simp [FreeLists.push, hlk]
  have hnot : ∀ l < s.maxOrder, addr s.memoryStart i ∉ (L l).map (addr s.memoryStart) :=
    fun l hl hmem => hnew l hl ((List.mem_map_of_injective (addr_injective _)).mp hmem)
  refine ⟨{s with
      freeList := update s.freeList k (addr s.memoryStart i)
      next := update s.next (addr s.memoryStart i) (s.freeList k)},
    by simp [Buddy.addToList, h.head_eq hk, State.setHead, hlim], ?_, ?_⟩
  · refine ⟨h.limit, fun l hl => ?_, fun hl hl' hj hj' => ?_, fun hl hj => ?_⟩
    · by_cases hlk : l = k
      · subst hlk
        simpa [FreeLists.push] using (h.chain l hl).push hpos (hnot l hl)
      · simpa [FreeLists.push, hlk] using (h.chain l hl).update_of_notMem (hnot l hl) _
    · grind [Rep.apart]
    · grind [Rep.fits]
  · exact ⟨⟨rfl, rfl, rfl, fun l hl => update_of_ne (by omega) _ _⟩, rfl⟩

theorem isBlockFree (hi : 2 ^ k ∣ i) (hfit : addr s.memoryStart i < 2 ^ 64) :
    isBlockFree (getBuddy (addr s.memoryStart i) k s) k s = .ok (decide (sibling i k ∈ L k)) := by
  have hlim : k < 52 := lt_of_lt_of_le (lt_of_lt_of_le hk h.limit) (by decide)
  have hwalk := walk_chain (fun next => getBuddy (addr s.memoryStart i) k s == next)
    (h.chain k hk) (h.length_lt hk)
  have hfound : ((((L k).map (addr s.memoryStart)).find?
      (fun next => getBuddy (addr s.memoryStart i) k s == next)).getD 0 != 0) =
      decide (sibling i k ∈ L k) := by
    cases hfind : ((L k).map (addr s.memoryStart)).find?
      (fun next => getBuddy (addr s.memoryStart i) k s == next) with
    | none =>
      have hnone := List.find?_eq_none.mp hfind
      have : sibling i k ∉ L k := by
        intro hs
        refine hnone _ (List.mem_map_of_mem hs) ?_
        rw [beq_iff_eq]
        exact (getBuddy_eq_addr hi hlim hfit (h.fits hk hs)).mpr rfl
      simp [this]
    | some p =>
      obtain ⟨j, hj, rfl⟩ := List.mem_map.mp (List.mem_of_find?_eq_some hfind)
      have heq := List.find?_some hfind
      rw [beq_iff_eq, getBuddy_eq_addr hi hlim hfit (h.fits hk hj)] at heq
      grind [Rep.addr_ne_zero]
  unfold Buddy.isBlockFree
  rw [if_neg hk.not_ge, h.head_eq hk]
  simp only [ok_bind, hwalk, pure_eq_ok, hfound]

end

end

/-! ### Loops -/

theorem splitLoop (order : ℕ) {found : ℕ} (h : Rep s L) (hf : found ≤ s.maxOrder)
    (hnew : ∀ t, t < found → ∀ l < s.maxOrder, i + 2 ^ t ∉ L l)
    (hpos : addr s.memoryStart i ≠ 0)
    (hfit : ∀ t, t < found → addr s.memoryStart (i + 2 ^ t) < 2 ^ 64) :
    ∃ s', splitLoop (addr s.memoryStart i) order found s = .ok s' ∧
      Rep s' (FreeLists.split i order found L) ∧ Keeps s s' := by
  induction found generalizing s L with
  | zero => exact ⟨s, rfl, h, .refl s⟩
  | succ found ih =>
    unfold Buddy.splitLoop FreeLists.split
    by_cases hlt : found + 1 > order
    · have hhalf : (addr s.memoryStart i + 2 ^ found * blockSize) % 2 ^ 64 =
          addr s.memoryStart (i + 2 ^ found) := by
        have hsum : addr s.memoryStart i + 2 ^ found * blockSize =
            addr s.memoryStart (i + 2 ^ found) := by
          unfold addr
          ring
        rw [hsum]
        exact Nat.mod_eq_of_lt (hfit found (Nat.lt_succ_self found))
      have hpos' : addr s.memoryStart (i + 2 ^ found) ≠ 0 :=
        Nat.ne_of_gt (lt_of_lt_of_le (Nat.pos_of_ne_zero hpos) (addr_mono _ (Nat.le_add_right _ _)))
      obtain ⟨s1, hs1, hrep, hkeep⟩ := h.addToList (k := found) hf
        (hnew found (Nat.lt_succ_self found)) hpos' (hfit found (Nat.lt_succ_self found))
      have hnew1 : ∀ t, t < found → ∀ l < s1.maxOrder,
          i + 2 ^ t ∉ L.push found (i + 2 ^ found) l := by
        intro t ht l hl
        have hold := hnew t (by omega) l (hkeep.maxOrder ▸ hl)
        have hpow : 2 ^ t < 2 ^ found := Nat.pow_lt_pow_right (by decide) ht
        by_cases hlf : l = found
        · subst hlf
          simp [FreeLists.push, hold]
          omega
        · simpa [FreeLists.push, hlf] using hold
      obtain ⟨s2, hs2, hrep2, hkeep2⟩ := ih hrep (by rw [hkeep.maxOrder]; omega) hnew1
        (by rw [hkeep.memoryStart]; exact hpos)
        (fun t ht => by rw [hkeep.memoryStart]; exact hfit t (by omega))
      rw [hkeep.memoryStart] at hs2
      rw [if_pos hlt, if_pos hlt, hhalf, hs1]
      exact ⟨s2, hs2, hrep2, hkeep.trans hkeep2⟩
    · rw [if_neg hlt, if_neg hlt]
      exact ⟨s, rfl, h, .refl s⟩

theorem mergeLoop (fuel : ℕ) {n : ℕ} (h : Rep s L) (hi : 2 ^ k ∣ i)
    (hfit : addr s.memoryStart i < 2 ^ 64) (hn : k + n = s.maxOrder) (hf : n < fuel) :
    ∃ s', mergeLoop fuel (addr s.memoryStart i) k s =
        .ok (addr s.memoryStart (FreeLists.merge n i k L).1, (FreeLists.merge n i k L).2.1, s') ∧
      Rep s' (FreeLists.merge n i k L).2.2 ∧ Keeps s s' := by
  induction n generalizing s L i k fuel with
  | zero =>
    obtain ⟨f, rfl⟩ := Nat.exists_eq_add_one.mpr hf
    refine ⟨s, ?_, h, .refl s⟩
    unfold Buddy.mergeLoop
    rw [if_neg (by omega)]
    rfl
  | succ n ih =>
    obtain ⟨f, rfl⟩ := Nat.exists_eq_add_one.mpr (Nat.zero_lt_of_lt hf)
    have hk : k < s.maxOrder := by omega
    have hlim : k < 52 := lt_of_lt_of_le (lt_of_lt_of_le hk h.limit) (by decide)
    unfold Buddy.mergeLoop FreeLists.merge
    rw [if_pos hk]
    by_cases hs : sibling i k ∈ L k
    · have hbuddy : getBuddy (addr s.memoryStart i) k s = addr s.memoryStart (sibling i k) :=
        (getBuddy_eq_addr hi hlim hfit (h.fits hk hs)).mpr rfl
      obtain ⟨s1, hs1, hrep, hkeep⟩ := h.removeFromList hk hs
      have hparent : getParent (addr s.memoryStart i) k s1 = addr s.memoryStart (parent i k) := by
        rw [← hkeep.memoryStart]
        exact getParent_addr hi (by omega) (by rw [hkeep.memoryStart]; exact hfit)
      have hfit' : addr s.memoryStart (parent i k) < 2 ^ 64 :=
        lt_of_le_of_lt (addr_mono _ (Nat.div_mul_le_self i _)) hfit
      obtain ⟨s2, hs2, hrep2, hkeep2⟩ := ih f hrep (parent_dvd i k)
        (by rw [hkeep.memoryStart]; exact hfit') (by rw [hkeep.maxOrder]; omega)
        (show n < f by omega)
      rw [hkeep.memoryStart] at hs2
      have hfree := h.isBlockFree hk hi hfit
      rw [hbuddy, decide_eq_true hs] at hfree
      refine ⟨s2, ?_, by rw [if_pos hs]; exact hrep2, hkeep.trans hkeep2⟩
      rw [if_pos hs]
      simp only [hbuddy, hfree, ok_bind, if_true, hs1, hparent, hs2]
    · refine ⟨s, ?_, by rw [if_neg hs]; exact h, .refl s⟩
      rw [if_neg hs]
      simp only [h.isBlockFree hk hi hfit, decide_eq_false hs, ok_bind, Bool.false_eq_true, if_false,
        pure_eq_ok]

end Rep

theorem findOrder_eq {s : State} {j k fuel : ℕ} (hkj : k ≤ j)
    (hempty : ∀ l, k ≤ l → l < j → l ≤ s.maxOrder ∧ l < maxOrderLimit ∧ s.freeList l = 0)
    (hstop : s.maxOrder < j ∨ j ≤ s.maxOrder ∧ j < maxOrderLimit ∧ s.freeList j ≠ 0)
    (hf : j - k < fuel) : findOrder s fuel k = .ok j := by
  induction fuel generalizing k with
  | zero => omega
  | succ fuel ih =>
    unfold findOrder
    rcases Nat.lt_or_ge k j with hlt | hge
    · obtain ⟨hle, hlim, h0⟩ := hempty k le_rfl hlt
      rw [if_pos hle]
      simp only [State.head, if_pos hlim, ok_bind, h0, if_true]
      exact ih hlt (fun l hl hlj => hempty l (by omega) hlj) (by omega)
    · obtain rfl : k = j := Nat.le_antisymm hkj hge
      rcases hstop with hgt | ⟨hle, hlim, hne⟩
      · rw [if_neg hgt.not_ge]
        rfl
      · rw [if_pos hle]
        simp only [State.head, if_pos hlim, ok_bind, if_neg hne, pure_eq_ok]

theorem findOrder_outOfBounds (fuel : ℕ) {s : State} {k : ℕ} (hm : s.maxOrder = maxOrderLimit)
    (hk : k ≤ maxOrderLimit) (hempty : ∀ l, k ≤ l → l < maxOrderLimit → s.freeList l = 0)
    (hf : maxOrderLimit - k < fuel) :
    findOrder s fuel k = .error (.outOfBounds maxOrderLimit) := by
  induction fuel generalizing k with
  | zero => omega
  | succ fuel ih =>
    unfold findOrder
    rw [if_pos (hm ▸ hk)]
    rcases Nat.lt_or_ge k maxOrderLimit with hlt | hge
    · simp only [State.head, if_pos hlt, ok_bind, hempty k le_rfl hlt, if_true]
      exact ih hlt (fun l hl hlj => hempty l (by omega) hlj) (by omega)
    · obtain rfl : k = maxOrderLimit := Nat.le_antisymm hk hge
      simp only [State.head, if_neg (Nat.lt_irrefl _), error_bind]

end Xv6.Buddy
