import Xv6.Aligned.Maximal

/-! Free lists as lists of block numbers.

What the allocator does to its lists, without memory: `push` and `drop` one block, `split` a block that
was taken down to the order asked for, and `merge` a block that comes back with its siblings. The lists
are `Canonical` for a set of free pages when they hold exactly its maximal aligned blocks, each once.
Every operation keeps that, whatever the order of the calls: coalescing is complete. -/
namespace Xv6.Buddy
open Function
open Aligned

/-- The blocks on the list of each order, first to last. -/
abbrev FreeLists := ℕ → List ℕ

namespace FreeLists

variable {F : Finset ℕ} {L : FreeLists} {i k : ℕ}

def push (L : FreeLists) (k i : ℕ) : FreeLists := update L k (i :: L k)

def drop (L : FreeLists) (k i : ℕ) : FreeLists := update L k ((L k).erase i)

/-- Push the upper halves of the block at `i`, from order `found` down to `order`. -/
def split (i order : ℕ) : ℕ → FreeLists → FreeLists
  | 0, L => L
  | found + 1, L =>
    if found + 1 > order then split i order found (L.push found (i + 2 ^ found)) else L

/-- Join the block at `i` of order `k` with its sibling as long as that is on its
list, at most `n` times: where it starts in the end, its order, and the lists. -/
def merge : ℕ → ℕ → ℕ → FreeLists → ℕ × ℕ × FreeLists
  | 0, i, k, L => (i, k, L)
  | n + 1, i, k, L =>
    if sibling i k ∈ L k then merge n (parent i k) (k + 1) (L.drop k (sibling i k)) else (i, k, L)

/-- The lists hold the maximal blocks of `F`. -/
structure Canonical (F : Finset ℕ) (L : FreeLists) : Prop where
  mem : ∀ {k i : ℕ}, i ∈ L k ↔ Largest F i k
  nodup : ∀ k, (L k).Nodup

theorem Canonical.mem_pages (h : Canonical F L) (hk : i ∈ L k) : i ∈ F :=
  (h.mem.mp hk).subset (first_mem_block i k)

theorem Canonical.drop (h : Canonical F L) (hi : i ∈ L k) :
    Canonical (F \ block i k) (L.drop k i) := by
  refine ⟨fun {l j} => ?_, fun l => ?_⟩
  · rw [largest_sdiff (h.mem.mp hi), ← h.mem]
    by_cases hl : l = k
    · subst hl
      simp [FreeLists.drop, (h.nodup l).mem_erase_iff, and_comm]
    · simp [FreeLists.drop, hl]
  · by_cases hl : l = k
    · subst hl
      simpa [FreeLists.drop] using (h.nodup l).erase i
    · simpa [FreeLists.drop, update_of_ne hl] using h.nodup l

theorem Canonical.push (h : Canonical F L) (hi : 2 ^ k ∣ i) (hd : Disjoint (block i k) F)
    (hs : sibling i k ∉ L k) : Canonical (F ∪ block i k) (L.push k i) := by
  rw [h.mem, largest_sibling_iff hi hd] at hs
  have hnew : i ∉ L k := fun hik =>
    Finset.disjoint_left.mp hd (first_mem_block i k) (h.mem_pages hik)
  refine ⟨fun {l j} => ?_, fun l => ?_⟩
  · rw [largest_union hi hd hs, ← h.mem]
    by_cases hl : l = k
    · subst hl
      simp [FreeLists.push, or_comm]
    · simp [FreeLists.push, hl]
  · by_cases hl : l = k
    · subst hl
      simpa [FreeLists.push] using ⟨hnew, h.nodup l⟩
    · simpa [FreeLists.push, update_of_ne hl] using h.nodup l

theorem block_succ_eq (h : 2 ^ (k + 1) ∣ i) :
    block i (k + 1) = block i k ∪ block (i + 2 ^ k) k := by
  have hi : 2 ^ k ∣ i := (pow_dvd_pow 2 (Nat.le_succ k)).trans h
  have := block_parent_eq hi
  rwa [parent_of_dvd h, sibling_of_dvd h] at this

theorem Canonical.split (order : ℕ) {found : ℕ} (h : Canonical F L) (hi : 2 ^ found ∣ i)
    (hd : Disjoint (block i found) F) (ho : order ≤ found) :
    Canonical (F ∪ block i found \ block i order) (split i order found L) := by
  induction found generalizing F L with
  | zero =>
    rw [Nat.le_zero.mp ho, Finset.sdiff_self, Finset.union_empty]
    exact h
  | succ found ih =>
    unfold FreeLists.split
    by_cases hlt : found + 1 > order
    · rw [if_pos hlt]
      have hlow : 2 ^ found ∣ i := (pow_dvd_pow 2 (Nat.le_succ found)).trans hi
      have hhigh : 2 ^ found ∣ i + 2 ^ found := Nat.dvd_add hlow dvd_rfl
      have hsib : sibling (i + 2 ^ found) found = i := by
        rcases aligned_cases hhigh with ⟨hdvd, _, _⟩ | ⟨_, hp, hs⟩
        · have := (Nat.dvd_add_right hi).mp hdvd
          exact absurd (Nat.le_of_dvd (Nat.two_pow_pos _) this)
            (Nat.not_le_of_lt (Nat.pow_lt_pow_right (by decide) (Nat.lt_succ_self found)))
        · omega
      have heq := block_succ_eq hi
      rw [heq, Finset.disjoint_union_left] at hd
      have hpush := h.push hhigh hd.2 (by
        rw [hsib]
        exact fun hmem =>
          Finset.disjoint_left.mp hd.1 (first_mem_block i found) (h.mem_pages hmem))
      have hdisj : Disjoint (block i found) (block (i + 2 ^ found) found) := by
        have := disjoint_sibling hhigh
        grind
      have hrest := ih hpush hlow (Finset.disjoint_union_right.mpr ⟨hd.1, hdisj⟩) (by omega)
      -- The upper half does not meet the part that stays taken.
      have hsub : block i order ⊆ block i found := fun q hq => by
        have := Nat.pow_le_pow_right (n := 2) (by decide) (show order ≤ found by omega)
        simp only [mem_block] at hq ⊢
        omega
      grind [Finset.union_sdiff_distrib, Finset.sdiff_eq_self_of_disjoint, Finset.union_assoc, Finset.union_comm]
    · have heq : order = found + 1 := by omega
      rw [if_neg hlt, heq, Finset.sdiff_self, Finset.union_empty]
      exact h

/-- What merging leaves: lists canonical for some pages, apart from a block that
together with them makes up the pages there were, and whose sibling is not listed
unless the merging ran out of orders. -/
theorem Canonical.merge (n : ℕ) (h : Canonical F L) (hi : 2 ^ k ∣ i)
    (hd : Disjoint (block i k) F) {i' k' : ℕ} {L' : FreeLists}
    (hm : merge n i k L = (i', k', L')) :
    ∃ F', Canonical F' L' ∧ 2 ^ k' ∣ i' ∧ Disjoint (block i' k') F' ∧
      F' ∪ block i' k' = F ∪ block i k ∧ (sibling i' k' ∉ L' k' ∨ k' = k + n) := by
  induction n generalizing F L i k with
  | zero =>
    cases hm
    exact ⟨F, h, hi, hd, rfl, .inr rfl⟩
  | succ n ih =>
    unfold FreeLists.merge at hm
    by_cases hs : sibling i k ∈ L k
    · rw [if_pos hs] at hm
      have hsub : block (sibling i k) k ⊆ F := (h.mem.mp hs).subset
      have hparent := block_parent_eq hi
      have hdisj : Disjoint (block (parent i k) (k + 1)) (F \ block (sibling i k) k) := by
        rw [hparent, Finset.disjoint_union_left]
        exact ⟨hd.mono_right Finset.sdiff_subset, Finset.disjoint_sdiff⟩
      obtain ⟨F', hF', hi', hd', hu, hend⟩ := ih (h.drop hs) (parent_dvd i k) hdisj hm
      refine ⟨F', hF', hi', hd', ?_, ?_⟩
      · grind [Finset.sdiff_union_of_subset]
      · rcases hend with hend | hend
        · exact .inl hend
        · exact .inr (by omega)
    · rw [if_neg hs] at hm
      cases hm
      exact ⟨F, h, hi, hd, rfl, .inl hs⟩

end FreeLists

end Xv6.Buddy
