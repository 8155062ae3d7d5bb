import Mathlib.Tactic.Ring

/-! Bytes in memory.

A piece of memory is a function from indices to bytes. `copy` writes a run of bytes, `le` reads a
little-endian number and `putLe` writes one, and a bitmap is read with `bit` and written with
`setBit` and `clearBit`. What is read after a write is what was written there, and elsewhere what
was there before. -/
namespace Xv6

open Function

abbrev Bytes := ℕ → UInt8

namespace Bytes

variable {data data' src : Bytes} {pos i j m n v : ℕ}

/-! ### Runs of bytes -/

/-- `m` bytes of `src` are written to `data` from `pos` on. -/
def copy (data : Bytes) (pos m : ℕ) (src : Bytes) : Bytes := fun j =>
  if pos ≤ j ∧ j < pos + m then src (j - pos) else data j

theorem copy_inside (h : pos ≤ j) (h' : j < pos + m) : copy data pos m src j = src (j - pos) :=
  if_pos ⟨h, h'⟩

theorem copy_outside (h : j < pos ∨ pos + m ≤ j) : copy data pos m src j = data j := by
  apply if_neg
  omega

@[simp] theorem copy_zero (data : Bytes) (pos : ℕ) (src : Bytes) : copy data pos 0 src = data := by
  funext j
  apply copy_outside
  omega

theorem copy_copy (data : Bytes) (pos m n : ℕ) (src : Bytes) :
    copy (copy data pos m src) (pos + m) n (fun j => src (m + j)) = copy data pos (m + n) src := by
  funext j
  unfold copy
  by_cases hlow : pos ≤ j ∧ j < pos + m
  · rw [if_neg (by omega), if_pos hlow, if_pos (by omega)]
  · by_cases hhigh : pos + m ≤ j ∧ j < pos + m + n
    · have hindex : m + (j - (pos + m)) = j - pos := by omega
      rw [if_pos hhigh, if_pos (by omega), ← hindex]
    · rw [if_neg hhigh, if_neg hlow, if_neg (by omega)]

theorem copy_congr {src' : Bytes} (h : ∀ j < m, src j = src' j) :
    copy data pos m src = copy data pos m src' := by
  funext j
  unfold copy
  split
  · apply h
    omega
  · rfl

/-! ### Numbers -/

/-- The little-endian number of the `n` bytes from `pos` on. -/
def le (data : Bytes) (pos : ℕ) : ℕ → ℕ
  | 0 => 0
  | n + 1 => (data pos).toNat + 256 * le data (pos + 1) n

def ofNat (v : ℕ) : Bytes := fun j => UInt8.ofNat (v / 256 ^ j)

/-- `v` is written as a little-endian number of `n` bytes. -/
def putLe (data : Bytes) (pos n v : ℕ) : Bytes := copy data pos n (ofNat v)

theorem le_congr (h : ∀ j, pos ≤ j → j < pos + n → data j = data' j) : le data pos n = le data' pos n := by
  induction n generalizing pos with
  | zero => rfl
  | succ n ih =>
    unfold le
    rw [h pos (by omega) (by omega), ih]
    intro j hj hj'
    exact h j (by omega) (by omega)

theorem le_ofNat (v n : ℕ) (h : ∀ j < n, data (pos + j) = ofNat v j) : le data pos n = v % 256 ^ n := by
  induction n generalizing pos v with
  | zero => simp [le, Nat.mod_one]
  | succ n ih =>
    have hfirst : (data pos).toNat = v % 256 := by
      have hzero := h 0 (by omega)
      rw [Nat.add_zero] at hzero
      simp [hzero, ofNat]
    have hrest : le data (pos + 1) n = v / 256 % 256 ^ n := by
      apply ih
      intro j hj
      have hnext := h (j + 1) (by omega)
      rw [show pos + 1 + j = pos + (j + 1) by omega, hnext]
      unfold ofNat
      rw [Nat.div_div_eq_div_mul, pow_succ, mul_comm]
    unfold le
    rw [hfirst, hrest, pow_succ, mul_comm (256 ^ n), Nat.mod_mul]

theorem le_putLe (h : v < 256 ^ n) : le (putLe data pos n v) pos n = v := by
  have hread : le (putLe data pos n v) pos n = v % 256 ^ n := by
    apply le_ofNat
    intro j hj
    unfold putLe
    rw [copy_inside (by omega) (by omega)]
    congr 1
    omega
  rw [hread, Nat.mod_eq_of_lt h]

theorem le_putLe_of_apart (h : i + m ≤ pos ∨ pos + n ≤ i) :
    le (putLe data pos n v) i m = le data i m := by
  apply le_congr
  intro j hj hj'
  apply copy_outside
  omega

theorem le_zero (h : ∀ j, data j = 0) (pos n : ℕ) : le data pos n = 0 := by
  induction n generalizing pos with
  | zero => rfl
  | succ n ih => simp [le, h, ih]

/-! ### Bits -/

def mask (k : ℕ) : UInt8 := UInt8.ofNat (2 ^ k)

def bit (data : Bytes) (i : ℕ) : Prop := data (i / 8) &&& mask (i % 8) ≠ 0
deriving Decidable

def setBit (data : Bytes) (i : ℕ) : Bytes :=
  update data (i / 8) (data (i / 8) ||| mask (i % 8))

def clearBit (data : Bytes) (i : ℕ) : Bytes :=
  update data (i / 8) (data (i / 8) &&& ~~~ mask (i % 8))

theorem mask_toBitVec {k : ℕ} (hk : k < 8) : (mask k).toBitVec = BitVec.twoPow 8 k := by
  have hlt : 2 ^ k < 2 ^ 8 := Nat.pow_lt_pow_right (by decide) hk
  apply BitVec.eq_of_toNat_eq
  simp [mask, BitVec.toNat_twoPow]

theorem and_mask_ne_zero {x : UInt8} {k : ℕ} (hk : k < 8) :
    x &&& mask k ≠ 0 ↔ x.toBitVec.getLsbD k = true := by
  rw [ne_eq, ← UInt8.toBitVec_inj, UInt8.toBitVec_and, mask_toBitVec hk]
  constructor
  · intro h
    by_contra hbit
    apply h
    apply BitVec.eq_of_getLsbD_eq
    intro l hl
    by_cases hlk : k = l
    · subst hlk
      simp [hbit]
    · simp [hlk]
  · intro hbit h
    have hk' : (x.toBitVec &&& BitVec.twoPow 8 k).getLsbD k = false := by
      rw [h]
      simp
    rw [BitVec.getLsbD_and, BitVec.getLsbD_twoPow, hbit] at hk'
    simp [hk] at hk'

theorem bit_iff : bit data i ↔ (data (i / 8)).toBitVec.getLsbD (i % 8) = true :=
  and_mask_ne_zero (Nat.mod_lt _ (by decide))

@[simp] theorem bit_setBit : bit (setBit data i) j ↔ j = i ∨ bit data j := by
  have hi : i % 8 < 8 := Nat.mod_lt _ (by decide)
  have hj : j % 8 < 8 := Nat.mod_lt _ (by decide)
  rw [bit_iff, bit_iff]
  unfold setBit
  by_cases hbyte : j / 8 = i / 8
  · rw [hbyte, update_self, UInt8.toBitVec_or, mask_toBitVec hi, BitVec.getLsbD_or,
      BitVec.getLsbD_twoPow]
    have heq : i % 8 = j % 8 ↔ j = i := by omega
    simp [hi, hj, heq, or_comm]
  · have hne : j ≠ i := fun h => hbyte (by rw [h])
    rw [update_of_ne hbyte]
    simp [hne]

@[simp] theorem bit_clearBit : bit (clearBit data i) j ↔ j ≠ i ∧ bit data j := by
  have hi : i % 8 < 8 := Nat.mod_lt _ (by decide)
  have hj : j % 8 < 8 := Nat.mod_lt _ (by decide)
  rw [bit_iff, bit_iff]
  unfold clearBit
  by_cases hbyte : j / 8 = i / 8
  · rw [hbyte, update_self, UInt8.toBitVec_and, UInt8.toBitVec_not, mask_toBitVec hi,
      BitVec.getLsbD_and, BitVec.getLsbD_not, BitVec.getLsbD_twoPow]
    have heq : i % 8 = j % 8 ↔ j = i := by omega
    simp [hi, hj, heq, and_comm]
  · have hne : j ≠ i := fun h => hbyte (by rw [h])
    rw [update_of_ne hbyte]
    simp [hne]

end Bytes

end Xv6
