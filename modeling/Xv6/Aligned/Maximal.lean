import Mathlib.Algebra.Order.BigOperators.Group.Finset
import Xv6.Aligned.Block

/-! The maximal aligned blocks of a finite set.

An aligned block inside a set `F` is maximal when the aligned block twice its size around it is not
inside `F`. The maximal blocks of `F` are pairwise disjoint (`Largest.disjoint`) and cover it
(`exists_largest`), so they are a function of `F` alone. Taking one out of `F` removes that block and
no other (`largest_sdiff`), and putting a block back whose sibling is not inside `F` adds that block
and no other (`largest_union`). -/
namespace Xv6.Aligned
open Finset (disjoint_left subset_sdiff not_disjoint_iff mem_union subset_empty)

variable {F : Finset ℕ} {i j k l p m : ℕ}

/-- The aligned block of order `k` at `i` is a maximal one of `F`. -/
structure Largest (F : Finset ℕ) (i k : ℕ) : Prop where
  aligned : 2 ^ k ∣ i
  subset : block i k ⊆ F
  parent : ¬ block (parent i k) (k + 1) ⊆ F

theorem Largest.not_subset (h : Largest F i k) (hj : 2 ^ l ∣ j) (hkl : k < l)
    (hp : p ∈ block i k) (hq : p ∈ block j l) : ¬ block j l ⊆ F :=
  fun hs => h.parent ((parent_subset_of_mem h.aligned hj hkl hp hq).trans hs)

theorem Largest.eq_of_mem (hi : Largest F i k) (hj : Largest F j l) (hp : p ∈ block i k)
    (hq : p ∈ block j l) : i = j ∧ k = l := by
  have hkl : k = l := by
    by_contra hne
    rcases Nat.lt_or_gt_of_ne hne with h | h
    · exact hi.not_subset hj.aligned h hp hq hj.subset
    · exact hj.not_subset hi.aligned h hq hp hi.subset
  subst hkl
  exact ⟨eq_of_mem_block hi.aligned hj.aligned hp hq, rfl⟩

theorem Largest.disjoint (hi : Largest F i k) (hj : Largest F j l) (hne : (i, k) ≠ (j, l)) :
    Disjoint (block i k) (block j l) := by
  grind [Largest.eq_of_mem, disjoint_left]

theorem exists_largest (hp : p ∈ F) : ∃ i k, Largest F i k ∧ p ∈ block i k := by
  -- The aligned block of order `k` around `p`, for the last `k` at which it is inside `F`.
  let around (k : ℕ) : ℕ := p / 2 ^ k * 2 ^ k
  have haround : ∀ k, p ∈ block (around k) k := fun k => by
    have := Nat.div_add_mod' p (2 ^ k)
    have := Nat.mod_lt p (Nat.two_pow_pos k)
    simp only [mem_block, around]
    omega
  have hbounded : ∃ k, ¬ block (around k) k ⊆ F := by
    refine ⟨F.card, fun hs => ?_⟩
    have := Finset.card_le_card hs
    rw [card_block] at this
    exact absurd (Nat.lt_two_pow_self (n := F.card)) (by omega)
  have hzero : block (around 0) 0 ⊆ F := by
    intro q hq
    simp only [mem_block, around, pow_zero, Nat.div_one, mul_one] at hq
    rwa [show q = p by omega]
  have hspec := Nat.find_spec hbounded
  have hmin := fun k => Nat.find_min (m := k) hbounded
  obtain ⟨k, hk⟩ : ∃ k, Nat.find hbounded = k + 1 := by
    refine Nat.exists_eq_succ_of_ne_zero (fun h0 => ?_)
    rw [h0] at hspec
    exact hspec hzero
  have hdvd : 2 ^ k ∣ around k := Dvd.intro_left _ rfl
  refine ⟨around k, k, ⟨hdvd, ?_, ?_⟩, haround k⟩
  · by_contra hs
    exact hmin k (by omega) hs
  · intro hs
    have hparent : parent (around k) k = around (k + 1) :=
      eq_of_mem_block (parent_dvd _ _) (Dvd.intro_left _ rfl)
        (block_subset_parent hdvd (haround k)) (haround (k + 1))
    grind

theorem largest_sibling_iff (hi : 2 ^ k ∣ i) (hd : Disjoint (block i k) F) :
    Largest F (sibling i k) k ↔ block (sibling i k) k ⊆ F := by
  refine ⟨fun h => h.subset, fun h => ⟨sibling_dvd hi, h, fun hp => ?_⟩⟩
  rw [parent_sibling hi] at hp
  exact disjoint_left.mp hd (first_mem_block i k)
    (hp (block_subset_parent hi (first_mem_block i k)))

/-! ### Taking a block out and putting one in -/

theorem largest_sdiff (h : Largest F i k) :
    Largest (F \ block i k) j l ↔ Largest F j l ∧ (j, l) ≠ (i, k) := by
  constructor
  · intro ⟨ha, hs, hp⟩
    obtain ⟨hF, hd⟩ := subset_sdiff.mp hs
    refine ⟨⟨ha, hF, fun hpF => ?_⟩, ?_⟩
    · by_cases hdp : Disjoint (block (parent j l) (l + 1)) (block i k)
      · exact hp (subset_sdiff.mpr ⟨hpF, hdp⟩)
      · obtain ⟨q, hq, hqi⟩ := not_disjoint_iff.mp hdp
        rcases Nat.lt_or_ge k (l + 1) with hkl | hkl
        · exact h.not_subset (parent_dvd j l) hkl hqi hq hpF
        · have hsub := block_subset_of_mem (parent_dvd j l) h.aligned hkl hq hqi
          have hj := first_mem_block j l
          exact disjoint_left.mp hd hj (hsub (block_subset_parent ha hj))
    grind [first_mem_block]
  · intro ⟨hj, hne⟩
    refine ⟨hj.aligned, subset_sdiff.mpr ⟨hj.subset, hj.disjoint h hne⟩, fun hp => ?_⟩
    exact hj.parent (hp.trans Finset.sdiff_subset)

theorem largest_union (hi : 2 ^ k ∣ i) (hd : Disjoint (block i k) F)
    (hsib : ¬ block (sibling i k) k ⊆ F) :
    Largest (F ∪ block i k) j l ↔ Largest F j l ∨ (j, l) = (i, k) := by
  -- Nothing aligned around the block and larger than it is inside the new set:
  -- it would contain the sibling, which the new block does not meet.
  have hlarge : ∀ {b n q : ℕ}, 2 ^ n ∣ b → k < n → q ∈ block i k → q ∈ block b n →
      ¬ block b n ⊆ F ∪ block i k := by
    intro b n q hb hkn hq hqb hs
    apply hsib
    intro x hx
    have hxF := hs (parent_subset_of_mem hi hb hkn hq hqb (sibling_subset_parent hi hx))
    exact (mem_union.mp hxF).resolve_right
      (fun hxi => disjoint_left.mp (disjoint_sibling hi) hxi hx)
  have hinF : ∀ {b n : ℕ}, block b n ⊆ F ∪ block i k → Disjoint (block b n) (block i k) →
      block b n ⊆ F := fun hs hdb q hq =>
    (mem_union.mp (hs hq)).resolve_right (disjoint_left.mp hdb hq)
  constructor
  · intro ⟨ha, hs, hp⟩
    by_cases hdb : Disjoint (block j l) (block i k)
    · exact .inl ⟨ha, hinF hs hdb, fun h => hp (h.trans Finset.subset_union_left)⟩
    · obtain ⟨q, hq, hqi⟩ := not_disjoint_iff.mp hdb
      rcases Nat.lt_trichotomy l k with hlk | rfl | hlk
      · exact absurd ((parent_subset_of_mem ha hi hlk hq hqi).trans Finset.subset_union_right) hp
      · exact .inr (by rw [eq_of_mem_block ha hi hq hqi])
      · exact absurd hs (hlarge ha hlk hqi hq)
  · rintro (h | h)
    · refine ⟨h.aligned, h.subset.trans Finset.subset_union_left, fun hp => ?_⟩
      have hdj : Disjoint (block j l) (block i k) := (hd.mono_right h.subset).symm
      by_cases hdb : Disjoint (block (parent j l) (l + 1)) (block i k)
      · exact h.parent (hinF hp hdb)
      · obtain ⟨q, hq, hqi⟩ := not_disjoint_iff.mp hdb
        rcases Nat.lt_or_ge k (l + 1) with hkl | hkl
        · exact hlarge (parent_dvd j l) hkl hqi hq hp
        · have hsub := block_subset_of_mem (parent_dvd j l) hi hkl hq hqi
          have hj := first_mem_block j l
          exact disjoint_left.mp hdj hj (hsub (block_subset_parent h.aligned hj))
    · obtain ⟨rfl, rfl⟩ := Prod.mk.inj h
      exact ⟨hi, Finset.subset_union_right, hlarge (parent_dvd _ _) (Nat.lt_succ_self _)
        (first_mem_block _ _) (block_subset_parent hi (first_mem_block _ _))⟩

theorem largest_block (hi : 2 ^ k ∣ i) : Largest (block i k) j l ↔ (j, l) = (i, k) := by
  have hempty : ¬ block (sibling i k) k ⊆ (∅ : Finset ℕ) := by
    rw [subset_empty]
    exact block_ne_empty _ _
  have hnone : ¬ Largest (∅ : Finset ℕ) j l := fun h =>
    block_ne_empty j l (subset_empty.mp h.subset)
  have h := largest_union (F := ∅) (j := j) (l := l) hi (Finset.disjoint_empty_right _) hempty
  rwa [Finset.empty_union, or_iff_right hnone] at h

/-! ### Counting -/

theorem sum_largest (L : Finset (ℕ × ℕ)) (hL : ∀ b, b ∈ L ↔ Largest F b.1 b.2) :
    ∑ b ∈ L, 2 ^ b.2 = F.card := by
  have hF : F = L.biUnion (fun b => block b.1 b.2) := by
    ext p
    rw [Finset.mem_biUnion]
    constructor
    · intro hp
      obtain ⟨i, k, h, hpi⟩ := exists_largest hp
      exact ⟨(i, k), (hL (i, k)).mpr h, hpi⟩
    · rintro ⟨b, hb, hpb⟩
      exact ((hL b).mp hb).subset hpb
  have hdisj : ∀ a ∈ L, ∀ b ∈ L, a ≠ b → Disjoint (block a.1 a.2) (block b.1 b.2) :=
    fun a ha b hb hne => ((hL a).mp ha).disjoint ((hL b).mp hb) hne
  conv_rhs => rw [hF, Finset.card_biUnion hdisj]
  simp only [card_block]

end Xv6.Aligned
