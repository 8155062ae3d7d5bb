import Mathlib.Data.Nat.Bitwise
import Xv6.Radix.Tree
import Xv6.Vm.Pagetable

/-! What page-table entries say, and where the entry for an address is. -/
namespace Xv6.Vm
open Function
open Radix

variable {m m' : Memory} {table va pa perm pte x i : ℕ}

/-! ### Entries -/

/-- A page with its flags, as `mappages` and `walk` write it. -/
def mkPte (pa perm : ℕ) : ℕ := pa2pte pa ||| perm ||| pteV

theorem valid_iff : valid pte = true ↔ pte % 2 = 1 := by
  unfold valid pteV
  grind

@[simp] theorem valid_mkPte : valid (mkPte pa perm) = true := by
  have hbit : (mkPte pa perm).testBit 0 = true := by
    rw [mkPte, Nat.testBit_or]
    exact Bool.or_eq_true_iff.mpr (.inr rfl)
  rwa [Nat.testBit_zero, decide_eq_true_iff, ← valid_iff] at hbit

@[simp] theorem valid_zero : valid 0 = false := rfl

theorem pte2pa_mkPte (hpa : pa % pgsize = 0) (hperm : perm < 2 ^ 10) :
    pte2pa (mkPte pa perm) = pa := by
  have hflags : (perm ||| pteV) >>> 10 = 0 := by
    rw [Nat.shiftRight_eq_div_pow]
    exact Nat.div_eq_of_lt (Nat.or_lt_two_pow hperm (by decide))
  unfold pte2pa mkPte pa2pte
  rw [Nat.or_assoc, Nat.shiftRight_or_distrib, hflags, Nat.or_zero, Nat.shiftLeft_shiftRight]
  rw [Nat.shiftRight_eq_div_pow, Nat.shiftLeft_eq]
  exact Nat.div_mul_cancel (Nat.dvd_of_mod_eq_zero hpa)

theorem leaf_mkPte (h : leaf perm = true) : leaf (mkPte pa perm) = true := by
  unfold leaf mkPte at *
  rw [decide_eq_true_iff] at *
  intro hzero
  rw [Nat.and_or_distrib_right, Nat.and_or_distrib_right, Nat.or_eq_zero_iff,
    Nat.or_eq_zero_iff] at hzero
  exact h hzero.1.2

theorem pteFlags_lt (pte : ℕ) : pteFlags pte < 2 ^ 10 :=
  Nat.and_lt_two_pow pte (by decide)

theorem pteFlags_mkPte (hperm : perm < 2 ^ 10) : pteFlags (mkPte pa perm) = perm ||| pteV := by
  have hlt : perm ||| pteV < 2 ^ 10 := Nat.or_lt_two_pow hperm (by decide)
  have hmask : (0x3FF : ℕ) = 2 ^ 10 - 1 := rfl
  unfold pteFlags mkPte pa2pte
  rw [Nat.or_assoc, Nat.shiftLeft_eq, hmask, Nat.and_two_pow_sub_one_eq_mod, Nat.or_mod_two_pow,
    Nat.mul_mod_left, Nat.zero_or, Nat.mod_eq_of_lt hlt]

theorem pteFlags_valid (h : valid pte = true) : pteFlags pte ||| pteV = pteFlags pte := by
  have hodd : pteFlags pte % 2 = 1 := by
    have hmask : (0x3FF : ℕ) = 2 ^ 10 - 1 := rfl
    have hpte := valid_iff.mp h
    rw [pteFlags, hmask, Nat.and_two_pow_sub_one_eq_mod]
    omega
  refine Nat.eq_of_testBit_eq fun i => ?_
  rw [Nat.testBit_or]
  cases i with
  | zero => rw [Nat.testBit_zero, hodd]; rfl
  | succ i =>
    simp [pteV, Nat.testBit_succ, Bool.or_false]

theorem leaf_mkPte_zero : leaf (mkPte pa 0) = false := by
  have hflags : leaf (pteFlags (mkPte pa 0)) = false := by
    rw [pteFlags_mkPte (by decide)]
    rfl
  unfold leaf pteFlags at *
  rwa [Nat.and_assoc] at hflags

/-! ### Indices -/

theorem px_eq (level : ℕ) : px level va = va / 2 ^ (12 + 9 * level) % 512 := by
  rw [px, Nat.shiftRight_eq_div_pow, show (0x1FF : ℕ) = 2 ^ 9 - 1 from rfl,
    Nat.and_two_pow_sub_one_eq_mod]

theorem px_lt (level : ℕ) : px level va < 512 := by
  grind [px_eq]

/-- The path from the root to the page of the lowest level for `va`. -/
def path (va : ℕ) : List ℕ := [px 2 va, px 1 va]

/-- The addresses that three indices tell apart. `MAXVA` is half as much. -/
def sv39 : ℕ := 2 ^ 39

theorem maxva_lt_sv39 (h : va < maxva) : va < sv39 := h.trans (by decide)

theorem next_page (a n : ℕ) : a + pgsize + n * pgsize = a + (n + 1) * pgsize := by
  rw [Nat.succ_mul]
  omega

theorem trapframe_lt_maxva (h : va < trapframe) : va < maxva := by
  unfold trapframe trampoline at h
  omega

theorem trapframe_lt_sv39 (h : va < trapframe) : va < sv39 :=
  maxva_lt_sv39 (trapframe_lt_maxva h)

theorem page_eq_of_px {va' : ℕ} (h : va < sv39) (h' : va' < sv39) (hpath : path va = path va')
    (h0 : px 0 va = px 0 va') : va / pgsize = va' / pgsize := by
  simp only [path, List.cons.injEq, and_true, px_eq] at hpath h0
  unfold sv39 pgsize at *
  omega

theorem px_of_page {va' : ℕ} (h : va' / pgsize = va / pgsize) (level : ℕ) :
    px level va' = px level va := by
  have hsplit : (2 : ℕ) ^ (12 + 9 * level) = pgsize * 2 ^ (9 * level) := Nat.pow_add ..
  rw [px_eq, px_eq, hsplit, ← Nat.div_div_eq_div_mul, ← Nat.div_div_eq_div_mul, h]

theorem path_of_page {va' : ℕ} (h : va' / pgsize = va / pgsize) : path va' = path va := by
  rw [path, path, px_of_page h, px_of_page h]

/-! ### Lookup -/

def child (m : Memory) (x i : ℕ) : Option ℕ :=
  if i < 512 ∧ valid (m.ptes x i) = true then some (pte2pa (m.ptes x i)) else none

theorem child_some (hi : i < 512) (hv : valid (m.ptes x i) = true) :
    child m x i = some (pte2pa (m.ptes x i)) := if_pos ⟨hi, hv⟩

theorem child_none (hv : ¬ valid (m.ptes x i) = true) : child m x i = none :=
  if_neg fun hc => hv hc.2

theorem setPte_of_ne {y j : ℕ} (h : ¬ (y = x ∧ j = i)) :
    (m.setPte x i pte).ptes y j = m.ptes y j := by
  show update m.ptes x _ y j = _
  by_cases hy : y = x
  · subst hy
    rw [update_self, update_of_ne fun hj => h ⟨rfl, hj⟩]
  · rw [update_of_ne hy]

theorem child_setPte_ne {y j : ℕ} (h : y ≠ x ∨ j ≠ i) :
    child (m.setPte x i pte) y j = child m y j := by
  grind [setPte_of_ne, child]

theorem setPte_self : (m.setPte x i pte).ptes x i = pte := by
  show update m.ptes x (update (m.ptes x) i pte) x i = pte
  rw [update_self, update_self]

/-- Without allocating, `walk` changes nothing and finds what is at the end of the path. -/
theorem walkLoop_false :
    walkLoop false va 2 table m = ((lookup (child m) table (path va)).getD 0, m) := by
  unfold path
  by_cases h2 : valid (m.ptes table (px 2 va)) = true
  · have hc2 : child m table (px 2 va) = some (pte2pa (m.ptes table (px 2 va))) :=
      child_some (px_lt 2) h2
    rw [lookup_cons_some hc2, walkLoop, if_pos h2]
    by_cases h1 : valid (m.ptes (pte2pa (m.ptes table (px 2 va))) (px 1 va)) = true
    · rw [lookup_cons_some (child_some (px_lt 1) h1), walkLoop, if_pos h1]
      rfl
    · rw [lookup_cons_none (child_none h1), walkLoop, if_neg h1]
      rfl
  · rw [lookup_cons_none (child_none h2), walkLoop, if_neg h2]
    rfl

theorem entry_of_lookup (hlow : lookup (child m) table (path va) = some x) (hx : x ≠ 0) :
    entry table va m = m.ptes x (px 0 va) := by
  unfold entry
  rw [walkLoop_false, hlow]
  exact if_neg hx

theorem entry_of_lookup_none (hlow : lookup (child m) table (path va) = none) :
    entry table va m = 0 := by
  unfold entry
  rw [walkLoop_false, hlow]
  rfl

theorem entry_eq_of_valid (h : valid (entry table va m) = true) :
    ∃ low, low ≠ 0 ∧ lookup (child m) table (path va) = some low ∧
      entry table va m = m.ptes low (px 0 va) := by
  cases hlow : lookup (child m) table (path va) with
  | none =>
    rw [entry_of_lookup_none hlow] at h
    exact absurd h (by decide)
  | some low =>
    by_cases h0 : low = 0
    · have hzero : entry table va m = 0 := by
        unfold entry
        rw [walkLoop_false, hlow, h0]
        rfl
      rw [hzero] at h
      exact absurd h (by decide)
    · exact ⟨low, h0, rfl, entry_of_lookup hlow h0⟩

end Xv6.Vm
