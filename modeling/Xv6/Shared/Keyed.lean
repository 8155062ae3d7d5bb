import Mathlib.Algebra.BigOperators.Group.Finset.Piecewise
import Mathlib.Algebra.Order.BigOperators.Group.Finset

/-! A table of counted references.

Each of `n` slots is for a key and has a number of references, and slots that have references are for
different keys (`Keyed`). Then the references to a key are those of one slot. A slot takes or gives up
references (`total_count`), or is made to be for another key when it has none (`total_recycle`). -/
namespace Xv6.Shared
open Function

variable {κ : Type*} [DecidableEq κ] {n p q c : ℕ} {key key' : ℕ → κ} {count count' : ℕ → ℕ} {k : κ}

def Keyed (n : ℕ) (key : ℕ → κ) (count : ℕ → ℕ) : Prop :=
  ∀ p < n, ∀ q < n, 0 < count p → 0 < count q → key p = key q → p = q

def total (n : ℕ) (key : ℕ → κ) (count : ℕ → ℕ) (k : κ) : ℕ :=
  ∑ p ∈ Finset.range n, if key p = k then count p else 0

theorem total_pos : 0 < total n key count k ↔ ∃ p < n, 0 < count p ∧ key p = k := by
  unfold total
  rw [Finset.sum_pos_iff]
  grind

theorem total_eq_count (hp : p < n) (h : ∀ q < n, 0 < count q → key q = key p → q = p) :
    total n key count (key p) = count p := by
  unfold total
  rw [Finset.sum_eq_single p]
  · exact if_pos rfl
  · grind
  grind

theorem Keyed.total_eq (h : Keyed n key count) (hp : p < n) (hpos : 0 < count p) :
    total n key count (key p) = count p :=
  total_eq_count hp fun q hq hq0 hkey => h q hq p hp hq0 hpos hkey

theorem total_other (hk : key p ≠ k) (hk' : key' p ≠ k) (hkey : ∀ q, q ≠ p → key' q = key q)
    (hcount : ∀ q, q ≠ p → count' q = count q) : total n key' count' k = total n key count k := by
  apply Finset.sum_congr rfl
  grind

theorem Keyed.total_count (h : Keyed n key count) (hp : p < n) (hpos : 0 < count p) :
    total n key (update count p c) = update (total n key count) (key p) c := by
  have hcount : ∀ q, q ≠ p → update count p c q = count q := fun q hq => update_of_ne hq ..
  funext k
  by_cases hk : k = key p
  · subst hk
    rw [update_self, total_eq_count hp, update_self]
    intro q hq hq0 hkey
    by_contra hne
    rw [hcount q hne] at hq0
    exact hne (h q hq p hp hq0 hpos hkey)
  · rw [update_of_ne hk]
    exact total_other (Ne.symm hk) (Ne.symm hk) (fun _ _ => rfl) hcount

omit [DecidableEq κ] in
theorem Keyed.setCount (h : Keyed n key count) (hpos : 0 < count p) : Keyed n key (update count p c) := by
  have hold : ∀ q, 0 < update count p c q → 0 < count q := by
    grind
  intro q hq r hr hq0 hr0 hkey
  exact h q hq r hr (hold q hq0) (hold r hr0) hkey

omit [DecidableEq κ] in
theorem Keyed.recycle (h : Keyed n key count) (hnone : ∀ q < n, 0 < count q → key q ≠ k) :
    Keyed n (update key p k) (update count p c) := by
  intro q hq r hr hq0 hr0 hkey
  by_cases hqp : q = p
  · grind
  · rw [update_of_ne hqp] at hq0 hkey
    by_cases hrp : r = p
    · grind
    · rw [update_of_ne hrp] at hr0 hkey
      exact h q hq r hr hq0 hr0 hkey

theorem total_recycle (hp : p < n) (hempty : count p = 0) (hnone : ∀ q < n, 0 < count q → key q ≠ k) :
    total n (update key p k) (update count p c) =
      update (total n key count) k c := by
  have hkey : ∀ q, q ≠ p → update key p k q = key q := fun q hq => update_of_ne hq ..
  have hcount : ∀ q, q ≠ p → update count p c q = count q := fun q hq => update_of_ne hq ..
  funext l
  by_cases hl : l = k
  · grind [total_eq_count, update_self]
  · rw [update_of_ne hl]
    apply Finset.sum_congr rfl
    grind

/-! ### Slots in use -/

def inUse (n : ℕ) (count : ℕ → ℕ) : Finset ℕ := (Finset.range n).filter fun p => 0 < count p

theorem mem_inUse : p ∈ inUse n count ↔ p < n ∧ 0 < count p := by
  simp [inUse]

/-- The keys that have references. -/
theorem mem_image_inUse : k ∈ (inUse n count).image key ↔ 0 < total n key count k := by
  simp only [Finset.mem_image, mem_inUse, total_pos, and_assoc]

/-- There are as many of them as slots in use. -/
theorem Keyed.card_image (h : Keyed n key count) : ((inUse n count).image key).card = (inUse n count).card := by
  apply Finset.card_image_of_injOn
  intro p hp q hq heq
  obtain ⟨hp, hp0⟩ := mem_inUse.mp hp
  obtain ⟨hq, hq0⟩ := mem_inUse.mp hq
  exact h p hp q hq hp0 hq0 heq

/-- A key that gets its first reference takes a slot. -/
theorem Keyed.card_inUse_insert (h : Keyed n key count) (h' : Keyed n key' count')
    (hpos : ∀ l, 0 < total n key' count' l ↔ 0 < total n key count l ∨ l = k) :
    (inUse n count').card = (inUse n count).card + if 0 < total n key count k then 0 else 1 := by
  have himage : (inUse n count').image key' = insert k ((inUse n count).image key) := by
    ext l
    rw [Finset.mem_insert, mem_image_inUse, mem_image_inUse, hpos, or_comm]
  rw [← h'.card_image, himage, ← h.card_image]
  split
  · rw [Finset.insert_eq_of_mem (mem_image_inUse.mpr ‹_›), Nat.add_zero]
  · rw [Finset.card_insert_of_notMem (mem_image_inUse.not.mpr ‹_›)]

theorem Keyed.card_inUse_le (h' : Keyed n key' count') {l : List κ}
    (htotal : ∀ k, total n key' count' k ≤ total n key count k + l.count k) :
    (inUse n count').card ≤ (inUse n count).card + l.length := by
  have hsub : (inUse n count').image key' ⊆ (inUse n count).image key ∪ l.toFinset := by
    intro k hk
    have hle := htotal k
    rw [mem_image_inUse] at hk
    rw [Finset.mem_union, mem_image_inUse, List.mem_toFinset, ← List.count_pos_iff]
    omega
  calc (inUse n count').card
    _ = ((inUse n count').image key').card := h'.card_image.symm
    _ ≤ ((inUse n count).image key ∪ l.toFinset).card := Finset.card_le_card hsub
    _ ≤ ((inUse n count).image key).card + l.toFinset.card := Finset.card_union_le ..
    _ ≤ (inUse n count).card + l.length := Nat.add_le_add Finset.card_image_le l.toFinset_card_le

theorem exists_free (h : (inUse n count).card < n) : ∃ p < n, count p = 0 := by
  by_contra hnone
  push Not at hnone
  have hall : inUse n count = Finset.range n := by
    apply Finset.filter_true_of_mem
    grind
  grind

end Xv6.Shared
