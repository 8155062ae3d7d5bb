import Mathlib.Algebra.BigOperators.Intervals
import Mathlib.Algebra.Order.BigOperators.Group.Finset

/-! Memory cut into blocks of different sizes.

`Tiles unit B size M`: the blocks that start at the addresses of `B`, each of `size` units of
`unit` bytes, are apart and make up the memory `M`. A block may be added in new memory, two
neighbours may become one, and one may be cut in two; the sum of the sizes grows by what is
added only. -/
namespace Xv6.Blocks

open Finset

structure Tiles (unit : ℕ) (B : Finset ℕ) (size : ℕ → ℕ) (M : Set ℕ) : Prop where
  pos : ∀ b ∈ B, 0 < size b
  apart : ∀ a ∈ B, ∀ b ∈ B, a < b → a + unit * size a ≤ b
  cover : ∀ m, m ∈ M ↔ ∃ b ∈ B, b ≤ m ∧ m < b + unit * size b

variable {unit : ℕ} {B : Finset ℕ} {size size' : ℕ → ℕ} {M : Set ℕ} {a b n : ℕ}

namespace Tiles

theorem congr (h : Tiles unit B size M) (he : ∀ b ∈ B, size' b = size b) : Tiles unit B size' M where
  pos b hb := by
    rw [he b hb]
    exact h.pos b hb
  apart a ha b hb hlt := by
    rw [he a ha]
    exact h.apart a ha b hb hlt
  cover m := by
    grind [Tiles.cover]

theorem disjoint (h : Tiles unit B size M) (ha : a ∈ B) (hb : b ∈ B) (hne : a ≠ b) :
    a + unit * size a ≤ b ∨ b + unit * size b ≤ a :=
  (lt_or_gt_of_ne hne).imp (h.apart a ha b hb) (h.apart b hb a ha)

theorem add_size_le_sum (ha : a ∈ B) (hb : b ∈ B) (hne : a ≠ b) : size a + size b ≤ ∑ c ∈ B, size c := by
  rw [← sum_pair hne]
  exact sum_le_sum_of_subset (insert_subset ha (singleton_subset_iff.mpr hb))

theorem card_le_sum (h : Tiles unit B size M) : B.card ≤ ∑ c ∈ B, size c := by
  rw [card_eq_sum_ones]
  exact sum_le_sum fun b hb => h.pos b hb

section Add

theorem add (h : Tiles unit B size M) (hn : 0 < n) (hend : ∀ b ∈ B, b < a ∧ b + unit * size b ≤ a)
    (ha : size' a = n) (he : ∀ b ∈ B, size' b = size b) :
    Tiles unit (insert a B) size' (M ∪ {m | a ≤ m ∧ m < a + unit * n}) where
  pos b hb := by
    rcases mem_insert.mp hb with rfl | hb
    · rw [ha]
      exact hn
    · rw [he b hb]
      exact h.pos b hb
  apart b hb c hc hlt := by
    rcases mem_insert.mp hb with rfl | hbB
    · grind
    · rw [he b hbB]
      rcases mem_insert.mp hc with rfl | hcB
      · exact (hend b hbB).2
      · exact h.apart b hbB c hcB hlt
  cover m := by
    simp only [Set.mem_union, Set.mem_ofPred_eq, h.cover m, mem_insert, exists_eq_or_imp, ha]
    rw [or_comm]
    refine or_congr Iff.rfl (exists_congr fun b => and_congr_right fun hb => ?_)
    rw [he b hb]

theorem sum_add (hnot : a ∉ B) (ha : size' a = n) (he : ∀ b ∈ B, size' b = size b) :
    ∑ c ∈ insert a B, size' c = (∑ c ∈ B, size c) + n := by
  rw [sum_insert hnot, ha, sum_congr rfl he, Nat.add_comm]

end Add

section Merge

variable (ha : a ∈ B) (hb : b ∈ B) (hnext : a + unit * size a = b) (hsum : size' a = size a + size b)
  (he : ∀ c ∈ B, c ≠ a → c ≠ b → size' c = size c)

include ha hb hnext hsum he

theorem merge (h : Tiles unit B size M) (hne : a ≠ b) : Tiles unit (B.erase b) size' M := by
  have hend : a + unit * size' a = b + unit * size b := by
    rw [hsum, Nat.mul_add, ← Nat.add_assoc, hnext]
  have hlt : a < b := by
    refine lt_of_le_of_ne ?_ hne
    grind
  refine ⟨fun c hc => ?_, fun c hc d hd hcd => ?_, fun m => ?_⟩
  · grind [Tiles.pos]
  · obtain ⟨hcb, hcB⟩ := mem_erase.mp hc
    obtain ⟨hdb, hdB⟩ := mem_erase.mp hd
    by_cases hca : c = a
    · subst hca
      rw [hend]
      refine h.apart b hb d hdB (lt_of_le_of_ne ?_ (Ne.symm hdb))
      rw [← hnext]
      exact h.apart c hcB d hdB hcd
    · rw [he c hcB hca hcb]
      exact h.apart c hcB d hdB hcd
  grind [Tiles.cover]

omit hnext in
theorem sum_merge (hne : a ≠ b) : ∑ c ∈ B.erase b, size' c = ∑ c ∈ B, size c := by
  have hae : a ∈ B.erase b := mem_erase.mpr ⟨hne, ha⟩
  have hrest : ∑ c ∈ (B.erase b).erase a, size' c = ∑ c ∈ (B.erase b).erase a, size c := by
    refine sum_congr rfl fun c hc => ?_
    grind
  grind [add_sum_erase]

end Merge

section Split

variable {k : ℕ} (ha : a ∈ B) (hunit : 0 < unit) (hk : 0 < k) (hn : 0 < n) (hsize : size a = k + n)
  (hb : b = a + unit * k)

include ha hunit hk hn hsize hb

theorem split_notMem (h : Tiles unit B size M) : b ∉ B := by
  intro hmem
  have hpos : 0 < unit * k := Nat.mul_pos hunit hk
  have hpos' : 0 < unit * n := Nat.mul_pos hunit hn
  have hle := h.apart a ha b hmem (by omega)
  rw [hsize, Nat.mul_add] at hle
  omega

variable (hka : size' a = k) (hnb : size' b = n) (he : ∀ c ∈ B, c ≠ a → size' c = size c)

include hka hnb he

theorem split (h : Tiles unit B size M) : Tiles unit (insert b B) size' M := by
  have hend : a + unit * size a = b + unit * n := by
    rw [hsize, Nat.mul_add, hb, Nat.add_assoc]
  have hpos : 0 < unit * k := Nat.mul_pos hunit hk
  refine ⟨fun c hc => ?_, fun c hc d hd hcd => ?_, fun m => ?_⟩
  · grind [Tiles.pos]
  · rcases mem_insert.mp hc with rfl | hcB
    · rcases mem_insert.mp hd with rfl | hdB
      · exact absurd hcd (lt_irrefl _)
      · rw [hnb, ← hend]
        exact h.apart a ha d hdB (by omega)
    · by_cases hca : c = a
      · subst hca
        rw [hka]
        rcases mem_insert.mp hd with rfl | hdB
        · exact hb.ge
        · have hle := h.apart c ha d hdB hcd
          omega
      · rw [he c hcB hca]
        rcases mem_insert.mp hd with rfl | hdB
        · rcases h.disjoint hcB ha hca with hle | hle <;> omega
        · exact h.apart c hcB d hdB hcd
  · rw [h.cover m]
    grind

theorem sum_split (h : Tiles unit B size M) : ∑ c ∈ insert b B, size' c = ∑ c ∈ B, size c := by
  have hrest : ∑ c ∈ B.erase a, size' c = ∑ c ∈ B.erase a, size c := by
    refine sum_congr rfl fun c hc => ?_
    obtain ⟨hca, hcB⟩ := mem_erase.mp hc
    exact he c hcB hca
  grind [Tiles.split_notMem, sum_insert, add_sum_erase]

end Split

end Tiles

end Xv6.Blocks
