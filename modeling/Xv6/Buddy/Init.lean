import Xv6.Buddy.Spec

/-! What `buddy_init` establishes.

For a number of blocks that is a power of two the region becomes one free block
(`buddyInit_two_pow`). For other numbers the loop puts one block on the lists for
each binary digit, the next one eight block sizes after the last, because it adds
bytes to a pointer to 8-byte records. Those blocks are still aligned, apart and of
the right total (`buddyInit_accepts`), only not inside the region. -/
namespace Xv6.Buddy
open Aligned Linked FreeLists
open Nat (log log_pow)

/-- `MAXVA`: the kernel uses no address from here on. -/
def maxVa : ℕ := 2 ^ 38

/-- Memory for `n` blocks: not at the null address, and below `MAXVA`. -/
structure Region (n : ℕ) where
  start : ℕ
  start_pos : 0 < start
  fits : addr start n ≤ maxVa

theorem Region.addr_le {n : ℕ} (r : Region n) {i : ℕ} (hi : i < n) :
    0 < addr r.start i ∧ addr r.start (i + 1) ≤ 2 ^ 64 := by
  have hpos := r.start_pos
  have hfit := r.fits
  unfold addr blockSize maxVa at *
  omega

/-- The state that the loop of `buddy_init` starts from. -/
def cleared (space : ℕ) (n : ℤ) (s : State) : State :=
  {s with
    totalBlocks := n
    freeBlocks := n
    maxOrder := order n + 1
    freeList := fun k => if k < order n + 1 then 0 else s.freeList k
    memoryStart := space}

variable {s : State} {n : ℤ} {space : ℕ}

theorem buddyInit_eq (h1 : 1 ≤ n) (hm : order n < maxOrderLimit) :
    buddyInit space n s = initLoop loopFuel space n (order n + 1) (cleared space n s) := by
  have hn : n ≤ 2 ^ 30 := order_le.mp (le_trans hm.le (by decide))
  unfold buddyInit
  rw [if_neg (by omega), log2Ceil_eq hn]
  simp only [ok_bind, if_neg (show ¬ order n + 1 > maxOrderLimit by omega)]
  rfl

theorem buddyInit_rejects (hn : n ≤ 2 ^ 30) (h : n < 1 ∨ maxOrderLimit ≤ order n) :
    buddyInit space n s = .ok s := by
  unfold buddyInit
  split
  · rfl
  · rw [log2Ceil_eq hn]
    simp only [ok_bind, pure_eq_ok]
    rw [if_pos (by omega)]

theorem cleared_rep (space : ℕ) (s : State) (hm : order n < maxOrderLimit) :
    Rep (cleared space n s) (fun _ => []) := by
  refine ⟨hm, fun k hk => ?_, fun _ _ hi => absurd hi List.not_mem_nil,
    fun _ hi => absurd hi List.not_mem_nil⟩
  exact if_pos hk

theorem canonical_empty : Canonical ∅ (fun _ => []) := by
  refine ⟨fun {k i} => ?_, fun _ => List.nodup_nil⟩
  simp only [List.not_mem_nil, false_iff]
  exact fun h => block_ne_empty i k (Finset.subset_empty.mp h.subset)

theorem fitOrder_eq {r o : ℕ} (hr : 1 ≤ r) (ho : log 2 r ≤ o) : fitOrder r o = log 2 r := by
  induction o with
  | zero => exact (Nat.le_zero.mp ho).symm
  | succ o ih =>
    unfold fitOrder
    have hcast : ((2 : ℤ) ^ (o + 1) > r) ↔ r < 2 ^ (o + 1) := by
      rw [gt_iff_lt]
      exact_mod_cast Iff.rfl
    by_cases h : r < 2 ^ (o + 1)
    · rw [if_pos (hcast.mpr h)]
      have := (Nat.log_lt_iff_lt_pow (by decide) (by omega)).mpr h
      exact ih (by omega)
    · rw [if_neg (fun hgt => h (hcast.mp hgt))]
      have := Nat.le_log_of_pow_le (b := 2) (by decide) (not_lt.mp h)
      omega

/-- The loop of `buddy_init` with `r` blocks to go at block `c`: it adds `r` pages,
the next after the last by eight times the size of the one before. -/
theorem initLoop_spec (fuel : ℕ) {c r b o : ℕ} {s : State} {F : Finset ℕ} {L : FreeLists} (hr : Rep s L)
    (hc : Canonical F L) (hF : F ⊆ Finset.range c) (hb : r < 2 ^ b) (hdvd : 2 ^ (b + 3) ∣ c)
    (hbm : b ≤ s.maxOrder) (hbo : b ≤ o + 1) (hfuel : r < fuel) (hpos : 0 < s.memoryStart)
    (hfit : addr s.memoryStart (c + 8 * r) < 2 ^ 64) :
    ∃ s' L' F', initLoop fuel (addr s.memoryStart c) r o s = .ok s' ∧ Rep s' L' ∧
      Canonical F' L' ∧ F'.card = F.card + r ∧ F' ⊆ Finset.range (c + 8 * r) ∧ Keeps s s' := by
  induction fuel generalizing c r b o s F L with
  | zero => omega
  | succ fuel ih =>
    unfold initLoop
    rcases Nat.eq_zero_or_pos r with rfl | hr1
    · exact ⟨s, L, F, rfl, hr, hc, rfl, hF, .refl s⟩
    · -- The largest power of two in `r`, and what is left.
      have hlog : log 2 r < b := (Nat.log_lt_iff_lt_pow (by decide) (by omega)).mpr hb
      have hk := fitOrder_eq hr1 (show log 2 r ≤ o by omega)
      have hle : 2 ^ log 2 r ≤ r := Nat.pow_log_le_self 2 (by omega)
      have hlt : r < 2 ^ (log 2 r + 1) := Nat.lt_pow_succ_log_self (by decide) r
      generalize log 2 r = k at hlog hk hle hlt
      have hdvd3 : 2 ^ (k + 3) ∣ c := (pow_dvd_pow 2 (by omega)).trans hdvd
      have hdvd1 : 2 ^ (k + 1) ∣ c := (pow_dvd_pow 2 (by omega)).trans hdvd
      have hdvd0 : 2 ^ k ∣ c := (pow_dvd_pow 2 (by omega)).trans hdvd
      have hnotF : ∀ q, c ≤ q → q ∉ F := fun q hq hmem => by
        have := Finset.mem_range.mp (hF hmem)
        omega
      have hdisj : Disjoint (block c k) F := Finset.disjoint_left.mpr fun q hq =>
        hnotF q (mem_block.mp hq).1
      have hsib : sibling c k ∉ L k := fun hmem => by
        rw [sibling_of_dvd hdvd1] at hmem
        exact hnotF _ (Nat.le_add_right _ _) (hc.mem_pages hmem)
      have hnew : ∀ l < s.maxOrder, c ∉ L l := fun l _ hmem => hnotF c le_rfl (hc.mem_pages hmem)
      have hc64 : addr s.memoryStart c < 2 ^ 64 :=
        lt_of_le_of_lt (addr_mono _ (Nat.le_add_right _ _)) hfit
      have hc0 : addr s.memoryStart c ≠ 0 := by
        unfold addr
        omega
      obtain ⟨s1, hs1, hrep1, hkeep1⟩ := hr.addToList (show k < s.maxOrder by omega) hnew hc0 hc64
      have hpow : 2 ^ (k + 3) = 8 * 2 ^ k := by rw [pow_add]; ring
      have hnext : (addr s.memoryStart c + 2 ^ k * blockSize * sizeofBuddyBlock) % 2 ^ 64 =
          addr s1.memoryStart (c + 2 ^ (k + 3)) := by
        have hsum : addr s.memoryStart c + 2 ^ k * blockSize * sizeofBuddyBlock =
            addr s.memoryStart (c + 2 ^ (k + 3)) := by
          unfold addr sizeofBuddyBlock
          rw [hpow]
          ring
        rw [hkeep1.memoryStart, hsum]
        exact Nat.mod_eq_of_lt (lt_of_le_of_lt (addr_mono _ (by omega)) hfit)
      have hrest : ((r : ℤ) - 2 ^ k) = ((r - 2 ^ k : ℕ) : ℤ) := by
        push_cast [Nat.cast_sub hle]
        rfl
      have hsub : F ∪ block c k ⊆ Finset.range (c + 2 ^ (k + 3)) := by
        intro q hq
        rw [Finset.mem_range]
        rcases Finset.mem_union.mp hq with hq | hq
        · have := Finset.mem_range.mp (hF hq)
          omega
        · have := mem_block.mp hq
          omega
      obtain ⟨s2, L2, F2, hs2, hrep2, hcan2, hcard, hrange, hkeep2⟩ := ih (b := k) (o := k) hrep1
        (hc.push hdvd0 hdisj hsib) hsub (by rw [pow_succ] at hlt; omega)
        (Nat.dvd_add hdvd3 dvd_rfl) (by rw [hkeep1.maxOrder]; omega) (by omega)
        (show r - 2 ^ k < fuel by have := Nat.two_pow_pos k; omega)
        (by rw [hkeep1.memoryStart]; exact hpos)
        (by
          rw [hkeep1.memoryStart]
          exact lt_of_le_of_lt (addr_mono _ (by omega)) hfit)
      refine ⟨s2, L2, F2, ?_, hrep2, hcan2, ?_, ?_, hkeep1.trans hkeep2⟩
      · rw [if_pos (by omega)]
        simp only [hk, hs1, ok_bind, hnext]
        rw [show ((2 ^ k : ℕ) : ℤ) = 2 ^ k by norm_cast, hrest]
        exact hs2
      · rw [hcard, Finset.card_union_of_disjoint hdisj.symm, card_block]
        omega
      · refine hrange.trans (Finset.range_subset_range.mpr ?_)
        omega

theorem initLoop_returns (fuel : ℕ) {c r o : ℕ} {s : State} (hr : r < 2 ^ maxOrderLimit)
    (ho : log 2 r ≤ o) (hf : r < fuel) : ∃ s', initLoop fuel c r o s = .ok s' := by
  induction fuel generalizing c r o s with
  | zero => omega
  | succ fuel ih =>
    unfold initLoop
    rcases Nat.eq_zero_or_pos r with rfl | hr1
    · exact ⟨s, rfl⟩
    · have hlog : log 2 r < maxOrderLimit := (Nat.log_lt_iff_lt_pow (by decide) (by omega)).mpr hr
      have hk := fitOrder_eq hr1 ho
      have hle : 2 ^ log 2 r ≤ r := Nat.pow_log_le_self 2 (by omega)
      have hmono := Nat.log_mono_right (b := 2) (Nat.sub_le r (2 ^ log 2 r))
      generalize log 2 r = k at hlog hk hle hmono
      have hpos := Nat.two_pow_pos k
      have hrest : ((r : ℤ) - (2 ^ k : ℕ)) = ((r - 2 ^ k : ℕ) : ℤ) := by omega
      rw [if_pos (by omega)]
      simp only [hk, addToList, State.head, State.setHead, if_pos hlog, ok_bind, hrest]
      exact ih (by omega) hmono (by omega)

theorem buddyInit_returns (h1 : 1 ≤ n) (hm : order n < maxOrderLimit) :
    ∃ s', buddyInit space n s = .ok s' := by
  obtain ⟨r, rfl⟩ := Int.eq_ofNat_of_zero_le (show 0 ≤ n by omega)
  have hle : (r : ℤ) ≤ 2 ^ order r := order_le.mp le_rfl
  have hpow : r ≤ 2 ^ order r := by exact_mod_cast hle
  have hlt : r < 2 ^ maxOrderLimit :=
    lt_of_le_of_lt hpow (Nat.pow_lt_pow_right (by decide) hm)
  rw [buddyInit_eq h1 hm]
  refine initLoop_returns loopFuel hlt ?_ (hlt.trans (by decide))
  exact (Nat.log_mono_right hpow).trans (by rw [log_pow (by decide)]; omega)

/-- Every number of blocks that `buddy_init` accepts gives that many free pages, in
aligned blocks on the lists. -/
theorem buddyInit_accepts (h1 : 1 ≤ n) (hm : order n < maxOrderLimit) (hpos : 0 < space)
    (hfit : addr space (8 * n.toNat) < 2 ^ 64) :
    ∃ s' U, buddyInit space n s = .ok s' ∧ Inv U U s' ∧ (U.card : ℤ) = n ∧
      s'.maxOrder = order n + 1 ∧ s'.memoryStart = space ∧ s'.totalBlocks = n ∧
      ∀ k, order n < k → s'.freeList k = s.freeList k := by
  have hn : n ≤ 2 ^ order n := order_le.mp le_rfl
  have hpow : (2 : ℤ) ^ (order n + 1) = 2 ^ order n * 2 := pow_succ ..
  have hpos2 : (0 : ℤ) < 2 ^ order n := by positivity
  have hcast : ((n.toNat : ℕ) : ℤ) = n := by omega
  have hb : n.toNat < 2 ^ (order n + 1) := by
    have : ((n.toNat : ℕ) : ℤ) < 2 ^ (order n + 1) := by omega
    exact_mod_cast this
  have hsmall : 2 ^ order n ≤ 2 ^ 14 :=
    Nat.pow_le_pow_right (by decide) (Nat.le_of_lt_succ hm)
  obtain ⟨s', L, U, hs', hrep, hcan, hcard, hrange, hkeep⟩ :=
    initLoop_spec loopFuel (c := 0) (r := n.toNat) (b := order n + 1) (o := order n + 1)
      (cleared_rep space s hm) canonical_empty (by simp) hb (dvd_zero _)
      le_rfl (by omega)
      (by
        unfold loopFuel
        rw [pow_succ] at hb
        omega)
      hpos (by rw [zero_add]; exact hfit)
  have hU : U.card = n.toNat := by simpa using hcard
  refine ⟨s', U, ?_, ⟨⟨L, hrep, hcan⟩, subset_rfl, fun {i k} _ hb => ?_, fun i hi => ?_, ?_⟩,
    by rw [hU, hcast], hkeep.maxOrder, hkeep.memoryStart, hkeep.totalBlocks, fun k hk => ?_⟩
  · rw [buddyInit_eq h1 hm, ← hs', hcast]
    simp [addr, cleared]
  · -- A block of pages is no larger than the whole of them.
    have hle := Finset.card_le_card hb
    rw [card_block, hU] at hle
    have : 2 ^ k < 2 ^ (order n + 1) := by omega
    have hlt := (Nat.pow_lt_pow_iff_right (by decide)).mp this
    rw [hkeep.maxOrder]
    exact hlt
  · have hlt := Finset.mem_range.mp (hrange hi)
    rw [hkeep.memoryStart]
    constructor
    · exact lt_of_lt_of_le hpos (Nat.le_add_right _ _)
    · exact le_trans (addr_mono _ (show i + 1 ≤ 8 * n.toNat by omega)) hfit.le
  · rw [hkeep.freeBlocks, hU, hcast]
    rfl
  · rw [hkeep.above k (by show order n + 1 ≤ k; omega)]
    exact if_neg (by omega)

theorem order_two_pow (m : ℕ) : order (2 ^ m) = m := by
  have hcast : ((2 : ℤ) ^ m).toNat = 2 ^ m := by
    rw [show (2 : ℤ) ^ m = ((2 ^ m : ℕ) : ℤ) by norm_cast, Int.toNat_natCast]
  unfold order
  rw [hcast]
  exact Nat.clog_pow 2 m (by decide)

theorem buddyInit_two_pow_eq {m : ℕ} (hm : m < maxOrderLimit) (space : ℕ) (s : State) :
    buddyInit space (2 ^ m) s = addToList space m (cleared space (2 ^ m) s) := by
  have ho := order_two_pow m
  have hpos2 : (0 : ℤ) < 2 ^ m := by positivity
  have hfitm : fitOrder (2 ^ m) (m + 1) = m := by
    have := fitOrder_eq (r := 2 ^ m) (o := m + 1) (Nat.two_pow_pos m)
      (by rw [log_pow (by decide)]; omega)
    rw [log_pow (by decide)] at this
    exact_mod_cast this
  obtain ⟨f, hf⟩ : ∃ f, loopFuel = f + 2 := ⟨2 ^ 64 - 2, rfl⟩
  rw [buddyInit_eq (by omega) (ho.symm ▸ hm), ho, hf, initLoop, if_pos (by omega)]
  simp only [hfitm]
  cases addToList space m (cleared space (2 ^ m) s) with
  | error e => rfl
  | ok s' =>
    rw [ok_bind, show ((2 ^ m : ℕ) : ℤ) = 2 ^ m by norm_cast, sub_self, initLoop, if_neg (lt_irrefl 0)]

theorem buddyInit_two_pow {m : ℕ} (hm : m < maxOrderLimit) (r : Region (2 ^ m)) (s : State) :
    ∃ s', buddyInit r.start (2 ^ m) s = .ok s' ∧ Inv (block 0 m) (block 0 m) s' ∧
      s'.maxOrder = m + 1 ∧ s'.memoryStart = r.start ∧
      ∀ k, m < k → s'.freeList k = s.freeList k := by
  have ho := order_two_pow m
  have hm' : order (2 ^ m) < maxOrderLimit := ho.symm ▸ hm
  have hfit : ∀ i ∈ block 0 m, 0 < addr r.start i ∧ addr r.start (i + 1) ≤ 2 ^ 64 := fun i hi =>
    r.addr_le (by simpa using hi)
  have hrep := cleared_rep r.start s hm'
  obtain ⟨s', hs', hrep', hkeep⟩ := hrep.addToList (k := m) (i := 0)
    (by show m < order (2 ^ m) + 1; omega) (fun _ _ => List.not_mem_nil)
    (Nat.ne_of_gt (hfit 0 (first_mem_block 0 m)).1)
    (lt_of_lt_of_le (show addr r.start 0 < addr r.start 1 by unfold addr blockSize; omega)
      (hfit 0 (first_mem_block 0 m)).2)
  have hcan := canonical_empty.push (k := m) (i := 0) (dvd_zero _)
    (Finset.disjoint_empty_right _) List.not_mem_nil
  rw [Finset.empty_union] at hcan
  refine ⟨s', ?_, ⟨⟨_, hrep', hcan⟩, subset_rfl, fun {i k} _ hb => ?_, ?_, ?_⟩, ?_,
    hkeep.memoryStart, fun k hk => ?_⟩
  · have hstart : addr (cleared r.start (2 ^ m) s).memoryStart 0 = r.start := by
      simp [addr, cleared]
    rw [buddyInit_two_pow_eq hm, ← hs', hstart]
  · have hle := Finset.card_le_card hb
    rw [card_block, card_block] at hle
    have := (Nat.pow_le_pow_iff_right (by decide)).mp hle
    rw [hkeep.maxOrder]
    show k < order (2 ^ m) + 1
    omega
  · rw [hkeep.memoryStart]
    exact hfit
  · rw [hkeep.freeBlocks, card_block]
    simp [cleared]
  · rw [hkeep.maxOrder]
    show order (2 ^ m) + 1 = m + 1
    rw [ho]
  · rw [hkeep.above k (by show order (2 ^ m) + 1 ≤ k; omega)]
    exact if_neg (by omega)

end Xv6.Buddy
