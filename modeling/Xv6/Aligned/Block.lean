import Mathlib.Data.Nat.Bitwise
import Mathlib.Order.Interval.Finset.Nat
import Mathlib.Tactic.Linarith
import Mathlib.Tactic.Ring

/-! Aligned blocks of natural numbers.

A block of order `k` is a run of `2 ^ k` consecutive numbers; it is aligned when its first number is a
multiple of `2 ^ k`. Two aligned blocks are nested or disjoint (`block_subset_of_mem`), and one of
order `k + 1` is the disjoint union of an aligned block of order `k` and its `sibling`
(`block_parent_eq`). Programs find siblings and parents with exclusive-or and masking
(`xor_eq_sibling`, `and_not_eq_parent`). -/
namespace Xv6.Aligned

variable {i j k l p : ℕ}

def block (i k : ℕ) : Finset ℕ := Finset.Ico i (i + 2 ^ k)

@[simp] theorem mem_block : p ∈ block i k ↔ i ≤ p ∧ p < i + 2 ^ k := by
  simp [block]

theorem block_subset_iff {m : ℕ} : block i k ⊆ block 0 m ↔ i + 2 ^ k ≤ 2 ^ m := by
  constructor
  · intro h
    have hpos := Nat.two_pow_pos k
    have := h (show i + 2 ^ k - 1 ∈ block i k by simp only [mem_block]; omega)
    simp only [mem_block] at this
    omega
  grind [mem_block]

@[simp] theorem card_block (i k : ℕ) : (block i k).card = 2 ^ k := by
  simp [block]

theorem first_mem_block (i k : ℕ) : i ∈ block i k := by
  have := Nat.two_pow_pos k
  simp [this]

/-- Where the aligned block of order `k + 1` around `i` starts. -/
def parent (i k : ℕ) : ℕ := i / 2 ^ (k + 1) * 2 ^ (k + 1)

/-- Where the other half of the aligned block of order `k + 1` around `i` starts. -/
def sibling (i k : ℕ) : ℕ := if 2 ^ (k + 1) ∣ i then i + 2 ^ k else i - 2 ^ k

theorem parent_dvd (i k : ℕ) : 2 ^ (k + 1) ∣ parent i k := Dvd.intro_left _ rfl

/-! ### Nested or disjoint -/

theorem block_subset_of_mem (hi : 2 ^ k ∣ i) (hj : 2 ^ l ∣ j) (hkl : k ≤ l)
    (hp : p ∈ block i k) (hq : p ∈ block j l) : block i k ⊆ block j l := by
  obtain ⟨a, rfl⟩ := hi
  obtain ⟨c, hc⟩ := pow_dvd_pow 2 hkl
  obtain ⟨b, rfl⟩ := (Dvd.intro c hc.symm).trans hj
  simp only [mem_block, hc] at hp hq
  have hba : b < a + 1 := Nat.lt_of_mul_lt_mul_left (a := 2 ^ k) (by rw [mul_add]; omega)
  have hab : a < b + c := Nat.lt_of_mul_lt_mul_left (a := 2 ^ k) (by rw [mul_add]; omega)
  have hlow : 2 ^ k * b ≤ 2 ^ k * a := Nat.mul_le_mul_left _ (by omega)
  have hhigh : 2 ^ k * (a + 1) ≤ 2 ^ k * (b + c) := Nat.mul_le_mul_left _ (by omega)
  grind [mem_block, mul_add]

theorem eq_of_mem_block (hi : 2 ^ k ∣ i) (hj : 2 ^ k ∣ j) (hp : p ∈ block i k)
    (hq : p ∈ block j k) : i = j := by
  have h₁ := block_subset_of_mem hi hj le_rfl hp hq (first_mem_block i k)
  have h2 := block_subset_of_mem hj hi le_rfl hq hp (first_mem_block j k)
  simp only [mem_block] at h₁ h2
  omega

theorem block_ne_empty (i k : ℕ) : block i k ≠ ∅ :=
  Finset.ne_empty_of_mem (first_mem_block i k)

/-! ### Siblings and parents -/

theorem sibling_dvd (hi : 2 ^ k ∣ i) : 2 ^ k ∣ sibling i k := by
  unfold sibling
  split
  · exact Nat.dvd_add hi dvd_rfl
  · exact Nat.dvd_sub hi dvd_rfl

/-- An aligned start is a multiple of the next power of two, or one half-step past one. -/
theorem aligned_cases (hi : 2 ^ k ∣ i) :
    (2 ^ (k + 1) ∣ i ∧ parent i k = i ∧ sibling i k = i + 2 ^ k) ∨
      (¬ 2 ^ (k + 1) ∣ i ∧ parent i k + 2 ^ k = i ∧ sibling i k = parent i k) := by
  obtain ⟨a, rfl⟩ := hi
  have hpos := Nat.two_pow_pos k
  have hdvd : 2 ^ (k + 1) ∣ 2 ^ k * a ↔ 2 ∣ a := by
    rw [pow_succ]
    exact Nat.mul_dvd_mul_iff_left hpos
  have hdiv : 2 ^ k * a / 2 ^ (k + 1) = a / 2 := by
    rw [pow_succ]
    exact Nat.mul_div_mul_left _ _ hpos
  unfold parent sibling
  rw [hdiv]
  by_cases h : 2 ∣ a
  · left
    refine ⟨hdvd.mpr h, ?_, if_pos (hdvd.mpr h)⟩
    calc a / 2 * 2 ^ (k + 1) = 2 ^ k * (a / 2 * 2) := by ring
      _ = 2 ^ k * a := by rw [Nat.div_mul_cancel h]
  · right
    have hsum : a / 2 * 2 ^ (k + 1) + 2 ^ k = 2 ^ k * a := by
      calc a / 2 * 2 ^ (k + 1) + 2 ^ k = 2 ^ k * (2 * (a / 2) + 1) := by ring
        _ = 2 ^ k * a := by congr 1; omega
    grind

theorem parent_of_dvd (hi : 2 ^ (k + 1) ∣ i) : parent i k = i := Nat.div_mul_cancel hi

theorem sibling_of_dvd (hi : 2 ^ (k + 1) ∣ i) : sibling i k = i + 2 ^ k := if_pos hi

section
variable (hi : 2 ^ k ∣ i)
include hi

theorem block_parent_eq : block (parent i k) (k + 1) = block i k ∪ block (sibling i k) k := by
  have hpow : 2 ^ (k + 1) = 2 ^ k + 2 ^ k := by rw [pow_succ]; ring
  grind [aligned_cases, mem_block]

theorem disjoint_sibling : Disjoint (block i k) (block (sibling i k) k) := by
  rw [Finset.disjoint_left]
  intro p hp hq
  rcases aligned_cases hi with ⟨_, h, hs⟩ | ⟨_, h, hs⟩ <;>
    simp only [mem_block, hs] at hp hq <;> omega

theorem block_subset_parent : block i k ⊆ block (parent i k) (k + 1) := by
  grind [block_parent_eq]

theorem sibling_subset_parent : block (sibling i k) k ⊆ block (parent i k) (k + 1) := by
  grind [block_parent_eq]

theorem parent_sibling : parent (sibling i k) k = parent i k := by
  grind [sibling_dvd, sibling_subset_parent, first_mem_block, eq_of_mem_block, parent_dvd, block_subset_parent]

theorem parent_subset_of_mem (hj : 2 ^ l ∣ j) (hkl : k < l)
    (hp : p ∈ block i k) (hq : p ∈ block j l) : block (parent i k) (k + 1) ⊆ block j l :=
  block_subset_of_mem (parent_dvd i k) hj hkl (block_subset_parent hi hp) hq

end

/-! ### What the bit operations compute -/

theorem mul_two_pow_xor (a k : ℕ) : (2 ^ k * a) ^^^ 2 ^ k = 2 ^ k * (a ^^^ 1) := by
  apply Nat.eq_of_testBit_eq
  intro n
  rw [Nat.testBit_xor, Nat.testBit_two_pow_mul, Nat.testBit_two_pow_mul, Nat.testBit_xor,
    Nat.testBit_two_pow]
  by_cases h : k ≤ n
  · by_cases hn : n = k
    · subst hn
      simp
    · have h1 : Nat.testBit 1 (n - k) = false := by
        rw [← Nat.pow_zero 2, Nat.testBit_two_pow]
        simp
        omega
      simp [h, h1, Ne.symm hn]
  · simp [h, show k ≠ n by omega]

theorem xor_eq_sibling (hi : 2 ^ k ∣ i) : i ^^^ 2 ^ k = sibling i k := by
  obtain ⟨a, rfl⟩ := hi
  have hdvd : 2 ^ (k + 1) ∣ 2 ^ k * a ↔ 2 ∣ a := by
    rw [pow_succ]
    exact Nat.mul_dvd_mul_iff_left (Nat.two_pow_pos k)
  rw [mul_two_pow_xor]
  unfold sibling
  by_cases h : 2 ∣ a
  · rw [if_pos (hdvd.mpr h), Nat.xor_one_of_even (even_iff_two_dvd.mpr h), mul_add, mul_one]
  · have hodd : Odd a := Nat.not_even_iff_odd.mp (fun he => h (even_iff_two_dvd.mp he))
    rw [if_neg (fun hd => h (hdvd.mp hd)), Nat.xor_one_of_odd hodd, Nat.mul_sub, mul_one]

theorem and_not_eq_parent {w : ℕ} (hi : 2 ^ k ∣ i) (hk : k < w) (hw : i < 2 ^ w) :
    i &&& (2 ^ w - (2 ^ k + 1)) = parent i k := by
  apply Nat.eq_of_testBit_eq
  intro n
  rw [Nat.testBit_and, Nat.testBit_two_pow_sub_succ (Nat.pow_lt_pow_right (by decide) hk),
    Nat.testBit_two_pow]
  unfold parent
  rw [mul_comm, Nat.testBit_two_pow_mul, ← Nat.shiftRight_eq_div_pow, Nat.testBit_shiftRight]
  by_cases hn : k + 1 ≤ n
  · have hadd : k + 1 + (n - (k + 1)) = n := by omega
    rw [hadd]
    by_cases hnw : n < w
    · simp [hn, hnw, show k ≠ n by omega]
    · have hbit : i.testBit n = false :=
        Nat.testBit_lt_two_pow (lt_of_lt_of_le hw (Nat.pow_le_pow_right (by decide) (by omega)))
      simp [hbit]
  · obtain ⟨a, rfl⟩ := hi
    grind

/-! ### Binary digits

A number is the sum of its binary digits. Laid out one after another, the largest first,
blocks of these sizes are aligned and tile the numbers below it: the block for digit `k` starts
at the sum of the larger digits, which is `parent n k` (`exists_digit`, `digit_unique`). -/

variable {n a : ℕ}

/-- The larger digits sum to the largest multiple of `2 ^ (k + 1)` that is not above `n`. -/
theorem le_parent (hdvd : 2 ^ (k + 1) ∣ a) (hle : a ≤ n) : a ≤ parent n k := by
  obtain ⟨b, rfl⟩ := hdvd
  rw [parent, Nat.mul_comm]
  exact Nat.mul_le_mul_right _ ((Nat.le_div_iff_mul_le (Nat.two_pow_pos _)).mpr (by rwa [Nat.mul_comm]))

theorem dvd_parent (n k : ℕ) : 2 ^ k ∣ parent n k :=
  (pow_dvd_pow 2 (Nat.le_succ k)).trans (parent_dvd n k)

theorem digit_end_le (h : n.testBit k) : parent n k + 2 ^ k ≤ n := by
  have hsplit := Nat.div_add_mod' n (2 ^ (k + 1))
  have hbit : (n % 2 ^ (k + 1)).testBit k = true := by
    grind
  have hle := Nat.ge_two_pow_of_testBit hbit
  unfold parent
  omega

theorem digit_before (h : n.testBit k) (hlk : l < k) : parent n k + 2 ^ k ≤ parent n l := by
  have hpow : 2 ^ (l + 1) ∣ 2 ^ k := pow_dvd_pow 2 hlk
  exact le_parent (Nat.dvd_add (hpow.trans (dvd_parent n k)) hpow) (digit_end_le h)

theorem digit_unique (hk : n.testBit k) (hl : n.testBit l) (hpk : p ∈ block (parent n k) k)
    (hpl : p ∈ block (parent n l) l) : k = l := by
  rw [mem_block] at hpk hpl
  rcases Nat.lt_trichotomy k l with hlt | heq | hlt
  · have := digit_before hl hlt
    omega
  · exact heq
  · have := digit_before hk hlt
    omega

theorem exists_digit (h : p < n) : ∃ k, n.testBit k ∧ p ∈ block (parent n k) k := by
  induction n using Nat.strongRecOn generalizing p with
  | ind n ih =>
    by_cases hhalf : p / 2 < n / 2
    · obtain ⟨k, hk, hmem⟩ := ih (n / 2) (by omega) hhalf
      have hdiv : n / 2 / 2 ^ (k + 1) = n / 2 ^ (k + 1 + 1) := by
        rw [Nat.div_div_eq_div_mul, pow_succ 2 (k + 1), Nat.mul_comm]
      have hpar : parent n (k + 1) = 2 * parent (n / 2) k := by
        rw [parent, parent, hdiv, pow_succ 2 (k + 1)]
        ring
      refine ⟨k + 1, by rwa [Nat.testBit_succ], ?_⟩
      grind [mem_block, pow_succ]
    · refine ⟨0, ?_, ?_⟩
      · grind
      · rw [mem_block, parent]
        norm_num
        omega

end Xv6.Aligned
