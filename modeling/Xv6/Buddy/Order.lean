import Mathlib.Data.Nat.Log
import Xv6.Buddy.Model
import Xv6.Aligned.Block

/-! Orders and addresses of blocks.

`log2_ceil` doubles a 32-bit `int` until it reaches its argument. Up to `2 ^ 30`
that computes the least order whose block is large enough (`log2Ceil_eq`); past
it the doubled value wraps to a negative number and then stays at zero, and the
loop never ends (`log2Ceil_diverges`). -/
namespace Xv6.Buddy
open Aligned

/-- The order of a request for `n` blocks: the least `k` with `n ≤ 2 ^ k`. -/
def order (n : ℤ) : ℕ := Nat.clog 2 n.toNat

theorem order_le {n : ℤ} {k : ℕ} : order n ≤ k ↔ n ≤ 2 ^ k := by
  simp [Nat.clog_le_iff_le_pow, order]

theorem two_pow_order_lt {n : ℤ} (h : 1 ≤ n) : 2 ^ order n < 2 * n := by
  cases hk : order n with
  | zero =>
    rw [pow_zero]
    omega
  | succ k =>
    have hlt : 2 ^ k < n := lt_of_not_ge fun hle => absurd (order_le.mpr hle) (by omega)
    rw [pow_succ]
    omega

theorem int32_two_pow {r : ℕ} (h : r < 30) : int32 (2 ^ r * 2) = 2 ^ (r + 1) := by
  have hle : (2 : ℤ) ^ (r + 1) ≤ 2 ^ 30 := pow_le_pow_right₀ (by decide) (by omega)
  grind [int32]

theorem log2CeilLoop_eq {x : ℤ} (hx : order x ≤ 30) {r fuel : ℕ} (hr : r ≤ order x)
    (hf : order x - r < fuel) : log2CeilLoop x fuel (2 ^ r) r = .ok (order x) := by
  induction fuel generalizing r with
  | zero => omega
  | succ fuel ih =>
    unfold log2CeilLoop
    by_cases h : (2 : ℤ) ^ r < x
    · have hlt : r < order x := by
        by_contra hge
        exact absurd (order_le.mp (not_lt.mp hge)) (by omega)
      rw [if_pos h, int32_two_pow (by omega)]
      exact ih hlt (by omega)
    · have hge : order x ≤ r := order_le.mpr (by omega)
      rw [if_neg h, Nat.le_antisymm hr hge]

theorem log2Ceil_eq {n : ℤ} (h : n ≤ 2 ^ 30) : log2Ceil n = .ok (order n) := by
  have h30 : order n ≤ 30 := order_le.mpr h
  unfold log2Ceil
  split
  · rename_i h1
    have h0 : order n ≤ 0 := order_le.mpr (by omega)
    rw [Nat.le_zero.mp h0]
  · have := log2CeilLoop_eq h30 (Nat.zero_le _) (show order n - 0 < loopFuel by
      unfold loopFuel; omega)
    simpa using this

def PowerValue (power : ℤ) : Prop := power = 0 ∨ power = -2 ^ 31 ∨ ∃ r ≤ 30, power = 2 ^ r

theorem PowerValue.double {power : ℤ} (h : PowerValue power) : PowerValue (int32 (power * 2)) := by
  rcases h with rfl | rfl | ⟨r, hr, rfl⟩
  · exact .inl (by decide)
  · exact .inl (by decide)
  · rcases Nat.lt_or_ge r 30 with h30 | h30
    · rw [int32_two_pow h30]
      exact .inr (.inr ⟨r + 1, h30, rfl⟩)
    · rw [Nat.le_antisymm hr h30]
      exact .inr (.inl (by decide))

theorem PowerValue.le {power : ℤ} (h : PowerValue power) : power ≤ 2 ^ 30 := by
  rcases h with rfl | rfl | ⟨r, hr, rfl⟩
  · decide
  · decide
  · exact pow_le_pow_right₀ (by decide) hr

theorem log2CeilLoop_diverges {x power : ℤ} (hx : 2 ^ 30 < x) (hp : PowerValue power)
    (fuel r : ℕ) : log2CeilLoop x fuel power r = .error .diverges := by
  induction fuel generalizing power r with
  | zero => rfl
  | succ fuel ih =>
    unfold log2CeilLoop
    rw [if_pos (lt_of_le_of_lt hp.le hx)]
    exact ih hp.double (r + 1)

theorem log2Ceil_diverges {n : ℤ} (h : 2 ^ 30 < n) : log2Ceil n = .error .diverges := by
  unfold log2Ceil
  rw [if_neg (by omega)]
  exact log2CeilLoop_diverges h (.inr (.inr ⟨0, by decide, rfl⟩)) _ _

/-! ### Addresses -/

/-- The address of block `i` of the region at `start`. -/
def addr (start : ℕ) (i : ℕ) : ℕ := start + i * blockSize

theorem addr_mono (start : ℕ) {i j : ℕ} (h : i ≤ j) : addr start i ≤ addr start j :=
  Nat.add_le_add_left (Nat.mul_le_mul_right _ h) _

theorem addr_injective (start : ℕ) : Function.Injective (addr start) := by
  intro i j h
  unfold addr blockSize at h
  omega

theorem blockIndex_addr {s : State} {i : ℕ} (hi : addr s.memoryStart i < 2 ^ 64) :
    blockIndex (addr s.memoryStart i) s = i := by
  have hsub : ((addr s.memoryStart i : ℕ) : ℤ) - s.memoryStart = (i : ℤ) * blockSize := by
    unfold addr
    push_cast
    ring
  unfold blockIndex
  rw [hsub, Int.mul_tdiv_cancel _ (by decide)]
  apply uint64_of_lt
  unfold addr blockSize at hi
  omega

theorem getBuddy_addr {s : State} {i k : ℕ} (hi : 2 ^ k ∣ i)
    (hfit : addr s.memoryStart i < 2 ^ 64) :
    getBuddy (addr s.memoryStart i) k s = addr s.memoryStart (sibling i k) % 2 ^ 64 := by
  unfold getBuddy
  rw [blockIndex_addr hfit, xor_eq_sibling hi]
  rfl

theorem getParent_addr {s : State} {i k : ℕ} (hi : 2 ^ k ∣ i) (hk : k < 64)
    (hfit : addr s.memoryStart i < 2 ^ 64) :
    getParent (addr s.memoryStart i) k s = addr s.memoryStart (parent i k) := by
  have hi64 : i < 2 ^ 64 := by
    unfold addr blockSize at hfit
    omega
  have hlt : addr s.memoryStart (parent i k) < 2 ^ 64 :=
    lt_of_le_of_lt (addr_mono _ (Nat.div_mul_le_self i _)) hfit
  unfold getParent
  rw [blockIndex_addr hfit, and_not_eq_parent hi hk hi64]
  exact Nat.mod_eq_of_lt hlt

theorem getBuddy_eq_addr {s : State} {i j k : ℕ} (hi : 2 ^ k ∣ i) (hk : k < 52)
    (hfit : addr s.memoryStart i < 2 ^ 64) (hj : addr s.memoryStart j < 2 ^ 64) :
    getBuddy (addr s.memoryStart i) k s = addr s.memoryStart j ↔ sibling i k = j := by
  have hsib : sibling i k < 2 ^ 52 := by
    rw [← xor_eq_sibling hi]
    refine Nat.xor_lt_two_pow ?_ (Nat.pow_lt_pow_right (by decide) hk)
    unfold addr blockSize at hfit
    omega
  rw [getBuddy_addr hi hfit]
  grind [addr, blockSize]

end Xv6.Buddy
