import Mathlib.Data.List.Basic
import Mathlib.Data.List.Find
import Mathlib.Order.MinMax

/-! Finite maps kept in an array.

Each slot of the array is empty or has a key and a value. If no key is in two slots (`Distinct`), then
the array is a finite map, and `lookup` is that map. To fill an empty slot, or one behind the last,
with a new key is to extend the map, and to empty a slot is to restrict it. -/
namespace Xv6.Assoc
open Function

variable {κ ν : Type*} {e e' : ℕ → Option (κ × ν)} {n m i j : ℕ} {k l : κ} {v : ν}

def Distinct (e : ℕ → Option (κ × ν)) (n : ℕ) : Prop :=
  ∀ i < n, ∀ j < n, ∀ k v w, e i = some (k, v) → e j = some (k, w) → i = j

def Absent (e : ℕ → Option (κ × ν)) (n : ℕ) (k : κ) : Prop := ∀ i < n, ∀ v, e i ≠ some (k, v)

variable [DecidableEq κ]

def find (e : ℕ → Option (κ × ν)) (n : ℕ) (k : κ) : Option ℕ :=
  (List.range n).find? fun i => (e i).any fun x => x.1 = k

def lookup (e : ℕ → Option (κ × ν)) (n : ℕ) (k : κ) : Option ν := (find e n k).bind fun i => (e i).map Prod.snd

theorem any_key {o : Option (κ × ν)} : (o.any fun x => decide (x.1 = k)) = true ↔ ∃ v, o = some (k, v) := by
  rw [Option.any_eq_true]
  grind

theorem find_eq_none : find e n k = none ↔ Absent e n k := by
  unfold find Absent
  rw [List.find?_eq_none]
  constructor
  · grind
  · intro h i hi hany
    obtain ⟨v, hv⟩ := any_key.mp hany
    exact h i (List.mem_range.mp hi) v hv

theorem find_some (h : find e n k = some i) : i < n ∧ ∃ v, e i = some (k, v) := by
  have hany := List.find?_some h
  exact ⟨List.mem_range.mp (List.mem_of_find?_eq_some h), any_key.mp hany⟩

theorem find_first (h : Absent e i k) (hi : i < n) (hv : e i = some (k, v)) : find e n k = some i := by
  unfold find
  rw [List.find?_range_eq_some]
  refine ⟨any_key.mpr ⟨v, hv⟩, List.mem_range.mpr hi, fun j hj => ?_⟩
  rw [Bool.not_eq_true', ← Bool.not_eq_true, any_key]
  rintro ⟨w, hw⟩
  exact h j hj w hw

theorem find_eq_some (h : Distinct e n) : find e n k = some i ↔ i < n ∧ ∃ v, e i = some (k, v) := by
  constructor
  · exact find_some
  · rintro ⟨hi, v, hv⟩
    cases hfind : find e n k with
    | none => exact absurd hv (find_eq_none.mp hfind i hi v)
    | some j =>
      obtain ⟨hj, w, hw⟩ := find_some hfind
      rw [h j hj i hi k w v hw hv]

theorem lookup_eq_some (h : Distinct e n) : lookup e n k = some v ↔ ∃ i < n, e i = some (k, v) := by
  unfold lookup
  constructor
  · intro hv
    obtain ⟨i, hi, hv⟩ := Option.bind_eq_some_iff.mp hv
    obtain ⟨hlt, w, hw⟩ := find_some hi
    grind
  · rintro ⟨i, hi, hv⟩
    rw [(find_eq_some h).mpr ⟨hi, v, hv⟩, Option.bind_some, hv]
    rfl

theorem lookup_eq_none : lookup e n k = none ↔ Absent e n k := by
  rw [← find_eq_none]
  unfold lookup
  cases hfind : find e n k with
  | none => simp
  | some i =>
    obtain ⟨-, v, hv⟩ := find_some hfind
    simp [hv]

omit [DecidableEq κ] in
theorem Distinct.congr (h : Distinct e n) (he : ∀ i < n, e' i = e i) : Distinct e' n := by
  intro i hi j hj k v w hv hw
  rw [he i hi] at hv
  rw [he j hj] at hw
  exact h i hi j hj k v w hv hw

theorem find_congr (he : ∀ i < n, e' i = e i) (k : κ) : find e' n k = find e n k := by
  apply List.find?_congr
  grind

theorem lookup_congr (he : ∀ i < n, e' i = e i) (k : κ) : lookup e' n k = lookup e n k := by
  unfold lookup
  rw [find_congr he]
  cases hfind : find e n k with
  | none => rfl
  | some i => rw [Option.bind_some, Option.bind_some, he i (find_some hfind).1]

/-! ### Changing a slot -/

omit [DecidableEq κ] in
theorem Distinct.set (h : Distinct e n) (hk : Absent e n k) (hm : ∀ j < m, j < n ∨ j = i) :
    Distinct (update e i (some (k, v))) m := by
  have hcases : ∀ j < m, ∀ l w, update e i (some (k, v)) j = some (l, w) →
      j = i ∧ l = k ∨ j ≠ i ∧ j < n ∧ e j = some (l, w) := by
    intro j hj l w hw
    by_cases hji : j = i
    · grind
    · grind
  intro a ha b hb l x y hx hy
  rcases hcases a ha l x hx with ⟨hai, hlk⟩ | ⟨-, ha, hx⟩
  · rcases hcases b hb l y hy with ⟨hbi, -⟩ | ⟨-, hb, hy⟩
    · rw [hai, hbi]
    · exact absurd (hlk ▸ hy) (hk b hb y)
  · rcases hcases b hb l y hy with ⟨-, hlk⟩ | ⟨-, hb, hy⟩
    · exact absurd (hlk ▸ hx) (hk a ha x)
    · exact h a ha b hb l x y hx hy

theorem lookup_set (h : Distinct e n) (hk : Absent e n k) (hi : i < n → e i = none)
    (hm : ∀ j, j < m ↔ j < n ∨ j = i) (l : κ) :
    lookup (update e i (some (k, v))) m l = if l = k then some v else lookup e n l := by
  have hset : Distinct (update e i (some (k, v))) m := h.set hk fun j hj => (hm j).mp hj
  by_cases hl : l = k
  · rw [if_pos hl, hl, lookup_eq_some hset]
    exact ⟨i, (hm i).mpr (.inr rfl), update_self ..⟩
  · rw [if_neg hl]
    apply Option.ext
    intro w
    rw [lookup_eq_some hset, lookup_eq_some h]
    constructor
    · grind
    · rintro ⟨j, hj, hw⟩
      have hji : j ≠ i := by
        grind
      exact ⟨j, (hm j).mpr (.inl hj), by rw [update_of_ne hji, hw]⟩

omit [DecidableEq κ] in
theorem Distinct.clear (h : Distinct e n) (hm : ∀ j < m, j < n ∨ j = i) :
    Distinct (update e i none) m := by
  have hold : ∀ j < m, ∀ x, update e i none j = some x → j < n ∧ e j = some x := by
    grind
  intro a ha b hb k x y hx hy
  obtain ⟨ha, hx⟩ := hold a ha _ hx
  obtain ⟨hb, hy⟩ := hold b hb _ hy
  exact h a ha b hb k x y hx hy

end Xv6.Assoc
