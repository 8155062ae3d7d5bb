import Mathlib.Data.List.Basic
import Mathlib.Data.Nat.ModEq

/-! A queue in a ring, with counters that are never reset.

Elements are written at `nwrite % size` and read at `nread % size`, and each counter is
incremented modulo `m`. The counters stand for the numbers of elements written and read
so far, however often they have wrapped around: `size` divides `m`, so that a wrap does
not lose the place in the ring, and is smaller, so that a full ring and an empty one
differ. -/
namespace Xv6.Queue

open Function

variable {β : Type}

/-- The ring has had the elements `ys` taken out of it, and holds `zs`. -/
structure Ring (size m : ℕ) (data : ℕ → β) (nread nwrite : ℕ) (ys zs : List β) : Prop where
  bound : zs.length ≤ size
  nread : nread = ys.length % m
  nwrite : nwrite = (ys.length + zs.length) % m
  data : ∀ k (h : k < zs.length), data ((ys.length + k) % size) = zs[k]

namespace Ring

variable {size m nread nwrite : ℕ} {data : ℕ → β} {ys zs : List β} {b : β}

theorem nil (data : ℕ → β) : Ring size m data 0 0 [] [] :=
  ⟨Nat.zero_le _, (Nat.zero_mod m).symm, (Nat.zero_mod m).symm, nofun⟩

/-- Counters that differ by less than `m` are equal only if they are equal modulo `m`. -/
theorem mod_eq_iff {a k l : ℕ} (hk : k < m) (hl : l < m) : (a + k) % m = (a + l) % m ↔ k = l := by
  refine ⟨fun h => ?_, fun h => by rw [h]⟩
  have hmod : k % m = l % m := Nat.ModEq.add_left_cancel' a h
  grind [Nat.mod_eq_of_lt]

section
variable (h : Ring size m data nread nwrite ys zs)
include h

theorem full_iff (hlt : size < m) : nwrite = (nread + size) % m ↔ zs.length = size := by
  rw [h.nread, h.nwrite, Nat.mod_add_mod, mod_eq_iff (h.bound.trans_lt hlt) hlt]

theorem empty_iff (hlt : size < m) : nread = nwrite ↔ zs = [] := by
  have hzero : ys.length % m = (ys.length + 0) % m := rfl
  rw [h.nread, h.nwrite, hzero, mod_eq_iff (Nat.zero_lt_of_lt hlt) (h.bound.trans_lt hlt), eq_comm, List.length_eq_zero_iff]

theorem length_eq (hlt : size < m) : (nwrite + (m - nread)) % m = zs.length := by
  have hle : ys.length % m ≤ m := (Nat.mod_lt _ (Nat.zero_lt_of_lt hlt)).le
  have hdiv := Nat.div_add_mod ys.length m
  calc (nwrite + (m - nread)) % m
      = (ys.length + zs.length + (m - ys.length % m)) % m := by rw [h.nread, h.nwrite, Nat.mod_add_mod]
    _ = (zs.length + m * (ys.length / m + 1)) % m := by
        grind
    _ = zs.length := by rw [Nat.add_mul_mod_self_left, Nat.mod_eq_of_lt (h.bound.trans_lt hlt)]

theorem contents (hdvd : size ∣ m) :
    zs = (List.range zs.length).map fun k => data ((nread + k) % m % size) := by
  refine List.ext_getElem (by simp) fun k hk _ => ?_
  rw [List.getElem_map, List.getElem_range, h.nread, Nat.mod_mod_of_dvd _ hdvd, Nat.add_mod, Nat.mod_mod_of_dvd _ hdvd,
    ← Nat.add_mod, h.data k hk]

theorem stage (hdvd : size ∣ m) (hroom : zs.length < size) (b : β) :
    Ring size m (update data (nwrite % size) b) nread nwrite ys zs := by
  have hplace : nwrite % size = (ys.length + zs.length) % size := by rw [h.nwrite, Nat.mod_mod_of_dvd _ hdvd]
  refine ⟨h.bound, h.nread, h.nwrite, fun k hk => ?_⟩
  -- two places less than `size` apart are different
  have hne : (ys.length + k) % size ≠ (ys.length + zs.length) % size := fun heq =>
    hk.ne ((mod_eq_iff (hk.trans hroom) hroom).mp heq)
  rw [hplace, update_of_ne hne]
  exact h.data k hk

theorem publish (hdvd : size ∣ m) (hroom : zs.length < size)
    (hb : data (nwrite % size) = b) : Ring size m data nread ((nwrite + 1) % m) ys (zs ++ [b]) := by
  have hplace : nwrite % size = (ys.length + zs.length) % size := by rw [h.nwrite, Nat.mod_mod_of_dvd _ hdvd]
  constructor
  case bound =>
    rw [List.length_append]
    exact hroom
  case nread => exact h.nread
  case nwrite =>
    rw [h.nwrite, Nat.mod_add_mod, List.length_append]
    rfl
  grind [Ring.data]

theorem push (hdvd : size ∣ m) (hroom : zs.length < size) (b : β) :
    Ring size m (update data (nwrite % size) b) nread ((nwrite + 1) % m) ys (zs ++ [b]) :=
  (h.stage hdvd hroom b).publish hdvd hroom (update_self ..)

end

theorem head (h : Ring size m data nread nwrite ys (b :: zs)) (hdvd : size ∣ m) : data (nread % size) = b := by
  have hfirst := h.data 0 (Nat.succ_pos _)
  rw [h.nread, Nat.mod_mod_of_dvd _ hdvd]
  exact hfirst

theorem pop (h : Ring size m data nread nwrite ys (b :: zs)) :
    Ring size m data ((nread + 1) % m) nwrite (ys ++ [b]) zs := by
  have hlen : (ys ++ [b]).length = ys.length + 1 := List.length_append
  constructor
  case bound => exact (Nat.le_succ _).trans h.bound
  case nread => rw [h.nread, Nat.mod_add_mod, hlen]
  case nwrite =>
    rw [h.nwrite, hlen, List.length_cons]
    congr 1
    omega
  case data =>
    intro k hk
    have hnext := h.data (k + 1) (Nat.succ_lt_succ hk)
    grind

section
variable (h : Ring size m data nread nwrite ys (zs ++ [b]))
include h

theorem nwrite_pred (hm : 0 < m) : (nwrite + (m - 1)) % m = (ys.length + zs.length) % m := by
  have hsum : ys.length + (zs ++ [b]).length + (m - 1) = ys.length + zs.length + m := by
    grind
  rw [h.nwrite, Nat.mod_add_mod, hsum, Nat.add_mod_right]

theorem last (hdvd : size ∣ m) (hm : 0 < m) : data ((nwrite + (m - 1)) % m % size) = b := by
  rw [h.nwrite_pred hm, Nat.mod_mod_of_dvd _ hdvd, h.data zs.length (by simp)]
  simp

theorem unpush (hm : 0 < m) : Ring size m data nread ((nwrite + (m - 1)) % m) ys zs := by
  have hlen : (zs ++ [b]).length = zs.length + 1 := List.length_append
  constructor
  case bound => exact (Nat.le_of_lt (hlen ▸ Nat.lt_succ_self _)).trans h.bound
  case nread => exact h.nread
  case nwrite => exact h.nwrite_pred hm
  case data =>
    intro k hk
    rw [h.data k (by omega), List.getElem_append_left hk]

end

end Ring

end Xv6.Queue
