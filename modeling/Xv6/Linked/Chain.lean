import Mathlib.Algebra.Notation.Defs
import Mathlib.Data.List.Nodup

/-! Singly linked lists in a memory.

A memory of links is a function `next` from nodes to nodes, with `0` for the null link.
`Chain next head xs`: following links from `head` visits exactly the nodes `xs`, in order, and ends at
null. Such a list cannot meet itself (`Chain.nodup`), is determined by its head (`Chain.unique`), and
depends on the links of its own nodes only (`Chain.congr`). Programs search lists with the loop `walk`;
`walk_chain` says where it stops. -/
namespace Xv6.Linked
open Function

variable {α : Type*} [Zero α] {next next' : α → α} {head x : α} {xs ys : List α}

/-- Following `next` from `head` visits `xs` and ends at null. -/
def Chain (next : α → α) : α → List α → Prop
  | head, [] => head = 0
  | head, x :: xs => head = x ∧ x ≠ 0 ∧ Chain next (next x) xs

@[simp] theorem chain_nil : Chain next head [] ↔ head = 0 := Iff.rfl

@[simp] theorem chain_cons :
    Chain next head (x :: xs) ↔ head = x ∧ x ≠ 0 ∧ Chain next (next x) xs := Iff.rfl

instance decidableChain [DecidableEq α] : ∀ (head : α) (xs : List α), Decidable (Chain next head xs)
  | head, [] => inferInstanceAs (Decidable (head = 0))
  | head, x :: xs =>
    have := decidableChain (next x) xs
    inferInstanceAs (Decidable (head = x ∧ x ≠ 0 ∧ Chain next (next x) xs))

theorem chain_zero : Chain next 0 xs ↔ xs = [] := by
  cases xs with
  | nil => simp
  | cons x xs =>
    simp only [chain_cons, reduceCtorEq, iff_false]
    grind

theorem Chain.ne_zero (h : Chain next head xs) : ∀ x ∈ xs, x ≠ 0 := by
  induction xs generalizing head with
  | nil => simp
  | cons y xs ih =>
    obtain ⟨_, hy, hxs⟩ := h
    grind

theorem Chain.congr (h : Chain next head xs) (he : ∀ x ∈ xs, next' x = next x) :
    Chain next' head xs := by
  induction xs generalizing head with
  | nil => exact h
  | cons y xs ih =>
    obtain ⟨hh, hy, hxs⟩ := h
    refine ⟨hh, hy, ?_⟩
    grind

theorem Chain.unique (hx : Chain next head xs) (hy : Chain next head ys) : xs = ys := by
  induction xs generalizing head ys with
  | nil =>
    grind [chain_nil, chain_zero]
  | cons x xs ih =>
    obtain ⟨rfl, hne, hxs⟩ := hx
    cases ys with
    | nil => exact absurd hy hne
    | cons y ys =>
      obtain ⟨rfl, _, hys⟩ := hy
      rw [ih hxs hys]

section
variable (h : Chain next head xs)
include h

theorem Chain.suffix (hx : x ∈ xs) : ∃ ys, Chain next x (x :: ys) ∧ ys.length < xs.length := by
  induction xs generalizing head with
  | nil => cases hx
  | cons y xs ih =>
    obtain ⟨rfl, hy, hxs⟩ := h
    rcases List.mem_cons.mp hx with rfl | hx
    · exact ⟨xs, ⟨rfl, hy, hxs⟩, Nat.lt_succ_self _⟩
    grind

theorem Chain.nodup : xs.Nodup := by
  induction xs generalizing head with
  | nil => exact List.nodup_nil
  | cons y xs ih =>
    obtain ⟨rfl, hy, hxs⟩ := h
    refine List.nodup_cons.mpr ⟨fun hmem => ?_, ih hxs⟩
    -- A second visit to `head` would start the same, longer list again.
    obtain ⟨ys, hys, hlt⟩ := hxs.suffix hmem
    have heq := (show Chain next head (head :: xs) from ⟨rfl, hy, hxs⟩).unique hys
    grind

theorem Chain.head_mem (hne : head ≠ 0) : head ∈ xs := by
  cases xs with
  | nil => exact absurd h hne
  | cons y xs => exact h.1 ▸ List.mem_cons_self ..

theorem Chain.head_eq : head = xs.head?.getD 0 := by
  cases xs with
  | nil => exact h
  | cons y xs => exact h.1

theorem chain_isEmpty : head = 0 ↔ xs = [] := by
  constructor
  · rintro rfl
    exact chain_zero.mp h
  · rintro rfl
    exact h

end

section Updates
variable [DecidableEq α]

theorem Chain.push (h : Chain next head xs) (hx : x ≠ 0) (hmem : x ∉ xs) :
    Chain (update next x head) x (x :: xs) := by
  refine ⟨rfl, hx, ?_⟩
  grind [Chain.congr, update_self]

theorem Chain.update_of_notMem (h : Chain next head xs) (hx : x ∉ xs) (y : α) :
    Chain (update next x y) head xs :=
  h.congr fun z hz => update_of_ne (by rintro rfl; exact hx hz) _ _

/-! ### Searching -/

/-- Follow links from `p` to the first node that satisfies `stop`, or to null.
`none` when that takes more than the given number of steps. -/
def walk (next : α → α) (stop : α → Bool) : ℕ → α → Option α
  | 0, _ => none
  | fuel + 1, p => if p = 0 ∨ stop p = true then some p else walk next stop fuel (next p)

theorem walk_chain (stop : α → Bool) {fuel : ℕ} (h : Chain next head xs)
    (hf : xs.length < fuel) : walk next stop fuel head = some ((xs.find? stop).getD 0) := by
  induction xs generalizing head fuel with
  | nil =>
    obtain ⟨f, rfl⟩ := Nat.exists_eq_add_one.mpr hf
    simp [walk, chain_nil.mp h]
  | cons y xs ih =>
    obtain ⟨rfl, hy, hxs⟩ := h
    obtain ⟨f, rfl⟩ := Nat.exists_eq_add_one.mpr (Nat.zero_lt_of_lt hf)
    grind [walk]

theorem Chain.unlink {fuel : ℕ} (h : Chain next head xs) (hx : x ∈ xs) (hne : head ≠ x)
    (hf : xs.length < fuel) :
    ∃ a ∈ xs, walk next (fun p => next p == x) fuel head = some a ∧
      Chain (update next a (next x)) head (xs.erase x) := by
  induction xs generalizing head fuel with
  | nil => cases hx
  | cons y xs ih =>
    have hnodup := h.nodup
    obtain ⟨rfl, hy, hxs⟩ := h
    obtain ⟨f, rfl⟩ := Nat.exists_eq_add_one.mpr (Nat.zero_lt_of_lt hf)
    have hmem : x ∈ xs := (List.mem_cons.mp hx).resolve_left (Ne.symm hne)
    have herase : (head :: xs).erase x = head :: xs.erase x := List.erase_cons_tail (by simpa using hne)
    obtain ⟨hhead, hnd⟩ := List.nodup_cons.mp hnodup
    by_cases hnext : next head = x
    · -- `head` is the predecessor: the rest of the list starts with `x`.
      obtain ⟨zs, rfl⟩ : ∃ zs, xs = x :: zs := by
        cases xs with
        | nil => cases hmem
        | cons z zs => exact ⟨zs, by rw [← hnext, hxs.1]⟩
      obtain ⟨_, _, hzs⟩ := hxs
      refine ⟨head, List.mem_cons_self .., by simp [walk, hnext], ?_⟩
      rw [herase, List.erase_cons_head]
      refine ⟨rfl, hy, ?_⟩
      grind [Chain.update_of_notMem, update_self]
    · obtain ⟨a, ha, hwalk, hchain⟩ := ih hxs hmem hnext (by simpa using hf)
      refine ⟨a, List.mem_cons_of_mem _ ha, by simp [walk, hy, hnext, hwalk], ?_⟩
      have hah : head ≠ a := fun h => hhead (h ▸ ha)
      rw [herase]
      refine ⟨rfl, hy, ?_⟩
      rwa [update_of_ne hah]

end Updates

end Xv6.Linked
