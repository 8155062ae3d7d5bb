import Mathlib.Logic.Function.Basic
import Mathlib.Data.Nat.Notation

/-! Blocks and the places that hold them.

A place holds the number of a block, or zero. Under `Owners place used` no block is held in two
places, and the blocks in use are exactly those that are held, so that nothing in use is lost and
nothing held is free. -/
namespace Xv6.Blocks
open Function

structure Owners {ι : Type} (place : ι → ℕ) (used : ℕ → Prop) : Prop where
  once : ∀ p q, place p = place q → place p ≠ 0 → p = q
  used : ∀ b, used b ↔ b ≠ 0 ∧ ∃ p, place p = b

namespace Owners

variable {ι : Type} {place place' : ι → ℕ} {used used' : ℕ → Prop} {p q : ι} {b : ℕ}

theorem used_place (h : Owners place used) (hp : place p ≠ 0) : used (place p) :=
  (h.used _).mpr ⟨hp, p, rfl⟩

theorem congr (h : Owners place used) (hp : ∀ p, place' p = place p) (hu : ∀ b, used' b ↔ used b) :
    Owners place' used' := by
  obtain rfl : place' = place := funext hp
  obtain rfl : used' = used := funext fun b => propext (hu b)
  exact h

variable [DecidableEq ι]

theorem take (h : Owners place used) (hp : place p = 0) (hb : ¬ used b) (h0 : b ≠ 0) :
    Owners (update place p b) fun c => c = b ∨ used c := by
  have hfree : ∀ q, place q ≠ b := by
    intro q hq
    exact hb (hq ▸ h.used_place (hq ▸ h0))
  constructor
  · intro q r heq hne
    by_cases hq : q = p
    · grind
    · rw [update_of_ne hq] at heq hne
      by_cases hr : r = p
      · grind
      · rw [update_of_ne hr] at heq
        exact h.once q r heq hne
  · intro c
    constructor
    · rintro (rfl | hc)
      · exact ⟨h0, p, update_self ..⟩
      · obtain ⟨hc0, q, rfl⟩ := (h.used c).mp hc
        refine ⟨hc0, q, update_of_ne ?_ _ _⟩
        grind
    · rintro ⟨hc0, q, rfl⟩
      by_cases hq : q = p
      · grind
      · right
        rw [update_of_ne hq] at hc0 ⊢
        exact h.used_place hc0

omit [DecidableEq ι] in
theorem drop (h : Owners place used) {Q : ι → Prop} (hin : ∀ p, Q p → place' p = 0)
    (hout : ∀ p, ¬ Q p → place' p = place p) :
    Owners place' fun c => used c ∧ ∀ p, Q p → place p ≠ c := by
  have hsome : ∀ p, place' p ≠ 0 → place' p = place p ∧ ¬ Q p := by
    grind
  constructor
  · intro p q heq hne
    obtain ⟨hp, _⟩ := hsome p hne
    obtain ⟨hq, _⟩ := hsome q (heq ▸ hne)
    exact h.once p q (by rw [← hp, ← hq, heq]) (hp ▸ hne)
  · intro c
    constructor
    · rintro ⟨hc, hnone⟩
      obtain ⟨hc0, p, hp⟩ := (h.used c).mp hc
      refine ⟨hc0, p, (hout p fun hQ => hnone p hQ hp).trans hp⟩
    · rintro ⟨hc0, p, rfl⟩
      obtain ⟨hp, hQ⟩ := hsome p hc0
      refine ⟨hp ▸ h.used_place (hp ▸ hc0), fun q hq heq => ?_⟩
      exact hQ (h.once q p (heq.trans hp) (by rw [heq]; exact hc0) ▸ hq)

end Owners

end Xv6.Blocks
