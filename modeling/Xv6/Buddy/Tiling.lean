import Mathlib.Order.CompletePartialOrder
import Xv6.Buddy.Partition

/-! The free lists that `buddy_init` leaves.

They should hold one block for each binary digit of the number of blocks, one after another from
the largest (`OnePerDigit`); these would tile the region (`OnePerDigit.tiles`). The loop adds bytes
to a pointer to 8-byte records instead, so that the second block is already outside the region
(`buddyInit_leaves_region`): they tile the region only for a power of two (`buddyInit_tiles`). -/
namespace Xv6.Buddy
open Function
open Aligned Linked
open Nat (log)

variable {space n k l p q m : ℕ} {s s' : State}

/-- One block for each digit of `n`, behind those of the larger digits. -/
def OnePerDigit (space n : ℕ) (s : State) : Prop :=
  ∀ k < maxOrderLimit, Chain s.next (s.freeList k)
    (if n.testBit k then [addr space (parent n k)] else [])

def bytes (p k : ℕ) : Set ℕ := Set.Ico p (p + 2 ^ k * blockSize)

/-- The free blocks are apart, aligned and inside the region, and leave nothing of it. -/
structure Tiles (space n : ℕ) (s : State) : Prop where
  disjoint : ∀ {k l p q}, k < maxOrderLimit → l < maxOrderLimit → Listed s k p → Listed s l q →
    (k, p) ≠ (l, q) → Disjoint (bytes p k) (bytes q l)
  aligned : ∀ {k p}, k < maxOrderLimit → Listed s k p →
    space ≤ p ∧ 2 ^ k * blockSize ∣ p - space
  inside : ∀ {k p}, k < maxOrderLimit → Listed s k p → bytes p k ⊆ Set.Ico space (addr space n)
  covers : ∀ x ∈ Set.Ico space (addr space n), ∃ k p, k < maxOrderLimit ∧ Listed s k p ∧ x ∈ bytes p k

namespace OnePerDigit

theorem listed_iff (h : OnePerDigit space n s) (hk : k < maxOrderLimit) :
    Listed s k p ↔ n.testBit k ∧ p = addr space (parent n k) := by
  constructor
  · rintro ⟨xs, hxs, hmem⟩
    rw [hxs.unique (h k hk)] at hmem
    grind
  · rintro ⟨hbit, rfl⟩
    have hchain := h k hk
    rw [if_pos hbit] at hchain
    exact ⟨_, hchain, List.mem_singleton_self _⟩

theorem mem_bytes_addr {x i : ℕ} :
    x ∈ bytes (addr space i) k ↔ space ≤ x ∧ (x - space) / blockSize ∈ block i k := by
  rw [mem_block]
  unfold bytes addr blockSize
  grind

theorem tiles (h : OnePerDigit space n s) (hn : n < 2 ^ maxOrderLimit) : Tiles space n s := by
  refine ⟨fun {k l p q} hk hl hp hq hne => ?_, fun {k p} hk hp => ?_, fun {k p} hk hp x hx => ?_,
    fun x hx => ?_⟩
  · obtain ⟨hbk, rfl⟩ := (h.listed_iff hk).mp hp
    obtain ⟨hbl, rfl⟩ := (h.listed_iff hl).mp hq
    grind [Aligned.digit_unique, OnePerDigit.mem_bytes_addr]
  · obtain ⟨_, rfl⟩ := (h.listed_iff hk).mp hp
    refine ⟨Nat.le_add_right .., ?_⟩
    rw [addr, Nat.add_sub_cancel_left]
    exact Nat.mul_dvd_mul_right (dvd_parent n k) blockSize
  · obtain ⟨hbit, rfl⟩ := (h.listed_iff hk).mp hp
    have hend := addr_mono space (digit_end_le hbit)
    have hstart : space ≤ addr space (parent n k) := Nat.le_add_right ..
    have hsum : addr space (parent n k) + 2 ^ k * blockSize = addr space (parent n k + 2 ^ k) := by
      unfold addr
      ring
    exact ⟨hstart.trans hx.1, (hsum ▸ hx.2).trans_le hend⟩
  · have hpage : (x - space) / blockSize < n := by
      obtain ⟨hlo, hhi⟩ := hx
      unfold addr blockSize at *
      omega
    obtain ⟨k, hbit, hmem⟩ := exists_digit hpage
    have hk : k < maxOrderLimit := by
      have hle := (Nat.ge_two_pow_of_testBit hbit).trans_lt hn
      exact (Nat.pow_lt_pow_iff_right (by decide)).mp hle
    exact ⟨k, _, hk, (h.listed_iff hk).mpr ⟨hbit, rfl⟩, mem_bytes_addr.mpr ⟨hx.1, hmem⟩⟩

end OnePerDigit

/-! ### What the loop leaves -/

theorem addToList_heads {c : ℕ} (h : addToList c k s = .ok s') :
    s'.freeList = update s.freeList k c := by
  unfold addToList State.head State.setHead at h
  by_cases hk : k < maxOrderLimit
  · rw [if_pos hk, ok_bind, if_pos hk] at h
    cases h
    rfl
  · rw [if_neg hk] at h
    cases h

theorem chunk_apart {size : ℕ} (hpos : 0 < size) (hsize : size ≤ 2 ^ 14) :
    (space + size * blockSize * sizeofBuddyBlock) % 2 ^ 64 ≠ addr space size := by
  unfold addr blockSize sizeofBuddyBlock
  omega

/-- The loop puts the first block at `c` on the list of its order, the next one eight times its size
further on, and leaves the lists of larger orders alone. -/
theorem initLoop_heads (fuel : ℕ) {c r o : ℕ} {s s' : State} (hr : 1 ≤ r) (ho : log 2 r ≤ o)
    (h : initLoop fuel c r o s = .ok s') :
    s'.freeList (log 2 r) = c ∧ (∀ k, log 2 r < k → s'.freeList k = s.freeList k) ∧
      (2 ^ log 2 r < r → s'.freeList (log 2 (r - 2 ^ log 2 r)) =
        (c + 2 ^ log 2 r * blockSize * sizeofBuddyBlock) % 2 ^ 64) := by
  induction fuel generalizing c r o s with
  | zero => cases h
  | succ fuel ih =>
    have hle : 2 ^ log 2 r ≤ r := Nat.pow_log_le_self 2 (by omega)
    have hlt : r < 2 ^ (log 2 r + 1) := Nat.lt_pow_succ_log_self (by decide) r
    rw [initLoop, if_pos (by omega)] at h
    simp only [fitOrder_eq hr ho] at h
    generalize log 2 r = k at *
    have hrest : ((r : ℤ) - (2 ^ k : ℕ)) = ((r - 2 ^ k : ℕ) : ℤ) := by omega
    cases hadd : addToList c k s with
    | error e =>
      rw [hadd] at h
      cases h
    | ok s1 =>
      rw [hadd, ok_bind, hrest] at h
      have hlists := addToList_heads hadd
      rcases Nat.eq_zero_or_pos (r - 2 ^ k) with hzero | hpos
      · -- Nothing is left, and the loop ends here.
        rw [hzero] at h
        cases fuel with
        | zero => cases h
        | succ fuel =>
          rw [initLoop, if_neg (by simp)] at h
          cases h
          rw [hlists]
          exact ⟨update_self .., fun l hl => update_of_ne (by omega) .., fun hmore => by omega⟩
      · have hlog : log 2 (r - 2 ^ k) < k := by
          refine (Nat.log_lt_iff_lt_pow (by decide) (by omega)).mpr ?_
          rw [pow_succ] at hlt
          omega
        obtain ⟨hhead, habove, -⟩ := ih hpos hlog.le h
        refine ⟨?_, fun l hl => ?_, fun _ => hhead⟩
        · rw [habove k hlog, hlists, update_self]
        · rw [habove l (by omega), hlists, update_of_ne (by omega)]

theorem buddyInit_heads (h1 : 1 ≤ n) (hn : order n < maxOrderLimit) (h : buddyInit space n s = .ok s') :
    s'.freeList (log 2 n) = space ∧ (2 ^ log 2 n < n →
      s'.freeList (log 2 (n - 2 ^ log 2 n)) =
        (space + 2 ^ log 2 n * blockSize * sizeofBuddyBlock) % 2 ^ 64) := by
  have hpow : n ≤ 2 ^ order n := by exact_mod_cast order_le.mp (le_refl (order n))
  have hlog : log 2 n ≤ order n + 1 :=
    (Nat.log_mono_right hpow).trans (by rw [Nat.log_pow (by decide)]; omega)
  rw [buddyInit_eq (by omega) hn] at h
  obtain ⟨hhead, -, hsecond⟩ := initLoop_heads loopFuel h1 hlog h
  exact ⟨hhead, hsecond⟩

/-- The block of a digit of `n` is where the loop put it only if it is not at the null address, and
there is no other digit. -/
theorem OnePerDigit.two_pow (h1 : 1 ≤ n) (hn : order n < maxOrderLimit)
    (hs : buddyInit space n s = .ok s') (h : OnePerDigit space n s') : space ≠ 0 ∧ ∃ m, n = 2 ^ m := by
  obtain ⟨hhead, hsecond⟩ := buddyInit_heads h1 hn hs
  have hpow : n ≤ 2 ^ order n := by exact_mod_cast order_le.mp (le_refl (order n))
  have hle : 2 ^ log 2 n ≤ n := Nat.pow_log_le_self 2 (by omega)
  have hlt : n < 2 ^ (log 2 n + 1) := Nat.lt_pow_succ_log_self (by decide) n
  have hm : log 2 n < maxOrderLimit :=
    (Nat.log_mono_right hpow).trans_lt (by rwa [Nat.log_pow (by decide)])
  generalize log 2 n = m at *
  have hchain : ∀ k < maxOrderLimit, n.testBit k → s'.freeList k = addr space (parent n k) ∧ s'.freeList k ≠ 0 := by
    intro k hk hbit
    have hk := h k hk
    rw [if_pos hbit] at hk
    exact ⟨hk.1, hk.1 ▸ hk.2.1⟩
  refine ⟨?_, m, ?_⟩
  · have hbit : n.testBit m := by
      rw [Nat.testBit_eq_decide_div_mod_eq, decide_eq_true_iff, Nat.div_eq_of_lt_le (k := 1) (by omega)
        (by rw [pow_succ] at hlt; omega)]
    exact hhead ▸ (hchain m hm hbit).2
  · by_contra hne
    have hmore : 2 ^ m < n := by omega
    -- The second block should start where the first one ends.
    obtain ⟨r, rfl⟩ : ∃ r, n = 2 ^ m + r := ⟨n - 2 ^ m, by omega⟩
    have hr : r < 2 ^ m := by
      rw [pow_succ] at hlt
      omega
    have hsecond := hsecond hmore
    rw [Nat.add_sub_cancel_left] at hsecond
    have hle' : 2 ^ log 2 r ≤ r := Nat.pow_log_le_self 2 (by omega)
    have hlt' : r < 2 ^ (log 2 r + 1) := Nat.lt_pow_succ_log_self (by decide) r
    have hkm : log 2 r < m := (Nat.log_lt_iff_lt_pow (by decide) (by omega)).mpr hr
    generalize log 2 r = k at *
    obtain ⟨d, hd⟩ : 2 ^ (k + 1) ∣ 2 ^ m := pow_dvd_pow 2 hkm
    have hdiv : (2 ^ m + r) / 2 ^ (k + 1) * 2 ^ (k + 1) = 2 ^ m := by
      rw [hd, Nat.mul_add_div (Nat.two_pow_pos _), Nat.div_eq_of_lt hlt', Nat.add_zero, Nat.mul_comm]
    have hbit : (2 ^ m + r).testBit k := by
      rw [Nat.testBit_two_pow_add_gt hkm, Nat.testBit_eq_decide_div_mod_eq, decide_eq_true_iff,
        Nat.div_eq_of_lt_le (k := 1) (by omega) (by rw [pow_succ] at hlt'; omega)]
    obtain ⟨haddr, -⟩ := hchain k (hkm.trans hm) hbit
    have hsize : 2 ^ m ≤ 2 ^ 14 := Nat.pow_le_pow_right (by decide) (Nat.le_of_lt_succ hm)
    rw [hsecond, parent, hdiv] at haddr
    exact chunk_apart (Nat.two_pow_pos m) hsize haddr

theorem buddyInit_two_pow_digits (hspace : space ≠ 0) (hm : m < maxOrderLimit) (memory : ℕ → ℕ) :
    ∃ s, buddyInit space ((2 ^ m : ℕ) : ℤ) (.zeroed memory) = .ok s ∧ OnePerDigit space (2 ^ m) s ∧
      s.freeBlocks = ((2 ^ m : ℕ) : ℤ) := by
  have hcast : ((2 ^ m : ℕ) : ℤ) = 2 ^ m := by norm_cast
  rw [hcast, buddyInit_two_pow_eq hm, addToList, State.head, if_pos hm, ok_bind, State.setHead, if_pos hm]
  refine ⟨_, rfl, fun k _ => ?_, rfl⟩
  rw [Nat.testBit_two_pow]
  by_cases hmk : m = k
  · subst hmk
    have hzero : parent (2 ^ m) m = 0 := by
      rw [parent, Nat.div_eq_of_lt (Nat.pow_lt_pow_right (by decide) (Nat.lt_succ_self m)), Nat.zero_mul]
    have haddr : addr space 0 = space := by simp [addr]
    simp only [decide_true, if_true, hzero, haddr]
    refine ⟨update_self .., hspace, (update_self ..).trans ?_⟩
    simp [cleared, State.zeroed]
  · simp only [hmk, decide_false, Bool.false_eq_true, if_false]
    refine (update_of_ne (Ne.symm hmk) ..).trans ?_
    simp [cleared, State.zeroed]

/-- **Exactly the powers of two.** For every number of blocks that it accepts `buddy_init` returns. The
lists hold one block for each digit, and so tile the region, exactly when there is one digit only and
the region is not at the null address. -/
theorem buddyInit_tiles (h1 : 1 ≤ n) (hn : order n < maxOrderLimit) (memory : ℕ → ℕ) :
    ∃ s, buddyInit space n (.zeroed memory) = .ok s ∧
      ((OnePerDigit space n s ∧ Tiles space n s ∧ s.freeBlocks = n) ↔ space ≠ 0 ∧ ∃ m, n = 2 ^ m) := by
  obtain ⟨s, hs⟩ : ∃ s, buddyInit space n (.zeroed memory) = .ok s := buddyInit_returns (by omega) hn
  refine ⟨s, hs, fun h => h.1.two_pow h1 hn hs, ?_⟩
  rintro ⟨hne, m, rfl⟩
  have hm : m < maxOrderLimit := by
    rwa [show ((2 ^ m : ℕ) : ℤ) = 2 ^ m by norm_cast, order_two_pow] at hn
  obtain ⟨s', hs', hdigits, hfree⟩ := buddyInit_two_pow_digits hne hm memory
  cases hs.symm.trans hs'
  exact ⟨hdigits, hdigits.tiles (Nat.pow_lt_pow_right (by decide) hm), hfree⟩

theorem buddyInit_tiles_boot : ∃ s, buddyInit 0x87c00000 (1024 : ℕ) (.zeroed fun _ => 0) = .ok s ∧
      OnePerDigit 0x87c00000 1024 s ∧ Tiles 0x87c00000 1024 s ∧ s.freeBlocks = (1024 : ℕ) := by
  obtain ⟨s, hs, hiff⟩ := @buddyInit_tiles 0x87c00000 1024 (by decide) (by decide) fun _ => 0
  exact ⟨s, hs, hiff.mpr ⟨by decide, 10, rfl⟩⟩

/-- With three blocks the second chunk is put eight times as far as it should be, outside the
region. -/
theorem buddyInit_leaves_region :
    ∃ s, buddyInit 0x87c00000 (3 : ℕ) (.zeroed fun _ => 0) = .ok s ∧ order (3 : ℕ) < maxOrderLimit ∧
      Listed s 0 (addr 0x87c00000 16) ∧ ¬ OnePerDigit 0x87c00000 3 s ∧ ¬ Tiles 0x87c00000 3 s := by
  have hsees : ∃ s, buddyInit 0x87c00000 (3 : ℕ) (.zeroed fun _ => 0) = .ok s ∧
      s.freeList 0 = addr 0x87c00000 16 ∧ s.next (addr 0x87c00000 16) = 0 := by decide
  obtain ⟨s, hs, hhead, hnext⟩ := hsees
  have hlisted : Listed s 0 (addr 0x87c00000 16) :=
    ⟨[addr 0x87c00000 16], ⟨hhead, by decide, hnext⟩, List.mem_singleton_self _⟩
  refine ⟨s, hs, by decide, hlisted, fun hdigits => ?_, fun htiles => ?_⟩
  · obtain ⟨_, heq⟩ := (hdigits.listed_iff (by decide)).mp hlisted
    exact absurd heq (by decide)
  · have hbyte : addr 0x87c00000 16 ∈ bytes (addr 0x87c00000 16) 0 := ⟨le_rfl, by decide⟩
    exact absurd (htiles.inside (by decide) hlisted hbyte).2 (by decide)

end Xv6.Buddy
