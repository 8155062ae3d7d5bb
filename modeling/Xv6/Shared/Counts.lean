import Mathlib.Data.Finset.Card

/-! Counted references.

Slots refer to objects, and each object carries the number of the slots that refer to it; an
object without a count is not there. `Counted` holds when the counts are right and no slot refers
to an object that is not there. A slot takes a reference or drops it together with its count
(`Counted.enter`, `Counted.leave`). -/
namespace Xv6.Shared

open Function

variable {ι α : Type*} [DecidableEq α] {S : Finset ι} {slot slot' : ι → Option α}
  {count count' : α → Option ℕ} {i : ι} {a b : α} {n : ℕ}

def referrers (S : Finset ι) (slot : ι → Option α) (a : α) : Finset ι := S.filter fun i => slot i = some a

structure Counted (S : Finset ι) (slot : ι → Option α) (count : α → Option ℕ) : Prop where
  eq : ∀ a n, count a = some n → n = (referrers S slot a).card
  pos : ∀ a n, count a = some n → 0 < n
  live : ∀ i ∈ S, ∀ a, slot i = some a → (count a).isSome

@[simp] theorem mem_referrers : i ∈ referrers S slot a ↔ i ∈ S ∧ slot i = some a := Finset.mem_filter

namespace Counted

theorem isSome_iff (h : Counted S slot count) (a : α) : (count a).isSome ↔ ∃ i ∈ S, slot i = some a := by
  constructor
  · intro hsome
    obtain ⟨n, hn⟩ := Option.isSome_iff_exists.mp hsome
    have hpos := h.pos a n hn
    rw [h.eq a n hn] at hpos
    obtain ⟨i, hi⟩ := Finset.card_pos.mp hpos
    exact ⟨i, mem_referrers.mp hi⟩
  grind [Counted.live]

theorem card_eq (h : Counted S slot count) (a : α) : (referrers S slot a).card = (count a).getD 0 := by
  cases hc : count a with
  | some n => exact (h.eq a n hc).symm
  | none =>
    refine Finset.card_eq_zero.mpr (Finset.eq_empty_of_forall_notMem fun i hi => ?_)
    grind [Counted.live, mem_referrers]

end Counted

variable [DecidableEq ι]

theorem referrers_update_self (hi : i ∈ S) :
    referrers S (update slot i (some a)) a = insert i (referrers S slot a) := by
  ext j
  by_cases hj : j = i
  · simp [hj, hi]
  · simp [hj]

theorem referrers_update_ne {o : Option α} (h : o ≠ some b) :
    referrers S (update slot i o) b = (referrers S slot b).erase i := by
  ext j
  by_cases hj : j = i
  · simp [hj, h]
  · simp [hj]

namespace Counted

theorem enter (h : Counted S slot count) (hi : i ∈ S) (hfree : slot i = none)
    (hslot : slot' = update slot i (some a)) (ha : count' a = some ((count a).getD 0 + 1))
    (hcount : ∀ b, b ≠ a → count' b = count b) : Counted S slot' count' := by
  have hnot : ∀ b, i ∉ referrers S slot b := fun b hmem => by
    grind [mem_referrers]
  have hother : ∀ b, b ≠ a → referrers S slot' b = referrers S slot b := fun b hb => by
    rw [hslot, referrers_update_ne (by simpa using Ne.symm hb), Finset.erase_eq_of_notMem (hnot b)]
  refine ⟨fun b n hn => ?_, fun b n hn => ?_, fun j hj b hb => ?_⟩
  · by_cases hba : b = a
    · grind [referrers_update_self, Counted.card_eq, Finset.card_insert_of_notMem]
    grind [Counted.eq]
  · by_cases hba : b = a
    · grind
    · exact h.pos b n ((hcount b hba).symm.trans hn)
  · by_cases hba : b = a
    · rw [hba, ha]
      rfl
    · rw [hcount b hba]
      have hji : j ≠ i := by
        rintro rfl
        rw [hslot, update_self] at hb
        exact hba (Option.some.inj hb).symm
      rw [hslot, update_of_ne hji] at hb
      exact h.live j hj b hb

theorem leave (h : Counted S slot count) (hi : i ∈ S) (hold : slot i = some a) (hn : count a = some n)
    (hslot : slot' = update slot i none) (ha : count' a = if n = 1 then none else some (n - 1))
    (hcount : ∀ b, b ≠ a → count' b = count b) : Counted S slot' count' := by
  have hmem : i ∈ referrers S slot a := mem_referrers.mpr ⟨hi, hold⟩
  have hcard : (referrers S slot' a).card = n - 1 := by
    rw [hslot, referrers_update_ne (by simp), Finset.card_erase_of_mem hmem, ← h.eq a n hn]
  have hother : ∀ b, b ≠ a → referrers S slot' b = referrers S slot b := fun b hb => by
    grind [referrers_update_ne, mem_referrers, Finset.erase_eq_of_notMem]
  refine ⟨fun b m hm => ?_, fun b m hm => ?_, fun j hj b hb => ?_⟩
  · by_cases hba : b = a
    · grind
    · rw [hother b hba]
      exact h.eq b m ((hcount b hba).symm.trans hm)
  · by_cases hba : b = a
    · subst hba
      rw [ha] at hm
      have hpos := h.pos b n hn
      grind
    · exact h.pos b m ((hcount b hba).symm.trans hm)
  · by_cases hba : b = a
    · subst hba
      -- Another slot still refers to the object, so that this was not the last one.
      have hpos := Finset.card_pos.mpr ⟨j, mem_referrers.mpr ⟨hj, hb⟩⟩
      rw [hcard] at hpos
      rw [ha, if_neg (by omega)]
      rfl
    · rw [hcount b hba]
      have hji : j ≠ i := by
        rintro rfl
        rw [hslot, update_self] at hb
        cases hb
      rw [hslot, update_of_ne hji] at hb
      exact h.live j hj b hb

end Counted

end Xv6.Shared
