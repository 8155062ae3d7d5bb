import Mathlib.Data.Option.Basic
import Mathlib.Data.Set.Basic
import Mathlib.Tactic.Common

/-! Trees of nodes in a memory.

A memory of nodes is a function `child` from a node and an index to the node there, if
any. `lookup child root is` follows the indices `is` from `root`. The nodes at depth at
most `d` are a tree when no node is reached along two paths (`IsTree`). What is found then
depends on the inner nodes only (`lookup_congr`), and hanging a fresh node without children
into a tree adds one path and changes no other (`IsTree.lookup_setChild`). -/
namespace Xv6.Radix
open Function

variable {ν ι : Type*} {child child' : ν → ι → Option ν} {root x y z : ν} {i j : ι}
  {is js : List ι} {d : ℕ}

def lookup (child : ν → ι → Option ν) : ν → List ι → Option ν
  | x, [] => some x
  | x, i :: is => (child x i).bind fun y => lookup child y is

@[simp] theorem lookup_nil : lookup child x [] = some x := rfl

theorem lookup_cons_some (h : child x i = some y) :
    lookup child x (i :: is) = lookup child y is := by
  rw [lookup, h]
  rfl

theorem lookup_cons_none (h : child x i = none) : lookup child x (i :: is) = none := by
  rw [lookup, h]
  rfl

theorem lookup_append :
    lookup child x (is ++ js) = (lookup child x is).bind fun y => lookup child y js := by
  induction is generalizing x with
  | nil => rfl
  | cons i is ih =>
    cases h : child x i with
    | none => rw [List.cons_append, lookup_cons_none h, lookup_cons_none h]; rfl
    | some y => rw [List.cons_append, lookup_cons_some h, lookup_cons_some h, ih]

def Nodes (child : ν → ι → Option ν) (root : ν) (d : ℕ) : Set ν :=
  {x | ∃ is : List ι, is.length ≤ d ∧ lookup child root is = some x}

/-- No node at depth at most `d` is reached along two paths. -/
def IsTree (child : ν → ι → Option ν) (root : ν) (d : ℕ) : Prop :=
  ∀ ⦃is js : List ι⦄ ⦃x : ν⦄, is.length ≤ d → js.length ≤ d → lookup child root is = some x →
    lookup child root js = some x → is = js

theorem root_mem_nodes : root ∈ Nodes child root d := ⟨[], Nat.zero_le d, rfl⟩

theorem nodes_child (h : child root i = some y) : Nodes child y d ⊆ Nodes child root (d + 1) := by
  rintro x ⟨is, hd, hx⟩
  exact ⟨i :: is, Nat.succ_le_succ hd, (lookup_cons_some h).trans hx⟩

theorem lookup_congr (hin : ∀ is x, is.length < d → lookup child root is = some x →
    child' x = child x) (hd : is.length ≤ d) : lookup child' root is = lookup child root is := by
  induction is generalizing root d with
  | nil => rfl
  | cons i is ih =>
    obtain ⟨d, rfl⟩ := Nat.exists_eq_add_one.mpr (Nat.zero_lt_of_lt hd)
    have hroot := hin [] root (Nat.succ_pos d) rfl
    cases h : child root i with
    | none => rw [lookup_cons_none h, lookup_cons_none (by rw [hroot, h])]
    | some y =>
      rw [lookup_cons_some h, lookup_cons_some (by rw [hroot, h])]
      refine ih (fun js x hjs hx => ?_) (Nat.le_of_succ_le_succ hd)
      exact hin (i :: js) x (Nat.succ_lt_succ hjs) ((lookup_cons_some h).trans hx)

namespace IsTree

section
variable (h : IsTree child root (d + 1))
include h

theorem below (hc : child root i = some y) : IsTree child y d := by
  intro is js x his hjs hx hy
  have heq := @h (i :: is) (i :: js) x (Nat.succ_le_succ his) (Nat.succ_le_succ hjs)
    ((lookup_cons_some hc).trans hx) ((lookup_cons_some hc).trans hy)
  exact List.tail_eq_of_cons_eq heq

theorem root_notMem (hc : child root i = some y) : root ∉ Nodes child y d := by
  rintro ⟨is, hd, hx⟩
  cases @h [] (i :: is) root (Nat.zero_le _) (Nat.succ_le_succ hd) rfl
    ((lookup_cons_some hc).trans hx)

theorem disjoint_below (hi : child root i = some y)
    (hj : child root j = some z) (hne : i ≠ j) (hx : x ∈ Nodes child y d) :
    x ∉ Nodes child z d := by
  obtain ⟨is, his, hx⟩ := hx
  rintro ⟨js, hjs, hx'⟩
  have heq := @h (i :: is) (j :: js) x (Nat.succ_le_succ his) (Nat.succ_le_succ hjs)
    ((lookup_cons_some hi).trans hx) ((lookup_cons_some hj).trans hx')
  exact hne (List.head_eq_of_cons_eq heq)

end

end IsTree

/-! ### Hanging in a node -/

variable [DecidableEq ν] [DecidableEq ι]

def setChild (child : ν → ι → Option ν) (x : ν) (i : ι) (y : ν) : ν → ι → Option ν :=
  update child x (update (child x) i (some y))

theorem setChild_self : setChild child x i y x i = some y := by
  rw [setChild, update_self, update_self]

theorem setChild_index (h : j ≠ i) : setChild child x i y x j = child x j := by
  rw [setChild, update_self, update_of_ne h]

theorem setChild_node (h : z ≠ x) : setChild child x i y z = child z :=
  update_of_ne h ..

theorem lookup_setChild_of_notMem (h : x ∉ Nodes child root d) (hd : js.length ≤ d) :
    lookup (setChild child x i y) root js = lookup child root js := by
  refine lookup_congr (fun is z his hz => setChild_node ?_) hd
  rintro rfl
  exact h ⟨is, his.le, hz⟩

/-- A fresh node `y` without children, hung in at the end of the path `is`: the path to it is
new and all others are as before. -/
theorem IsTree.lookup_setChild (h : IsTree child root d) (hx : lookup child root is = some x)
    (his : is.length < d) (hi : child x i = none) (hy : y ∉ Nodes child root d)
    (hleaf : ∀ j, child y j = none) (hjs : js.length ≤ d) :
    lookup (setChild child x i y) root js =
      if js = is ++ [i] then some y else lookup child root js := by
  induction is generalizing root js d with
  | nil =>
    cases hx
    obtain ⟨d, rfl⟩ := Nat.exists_eq_add_one.mpr his
    cases js with
    | nil => rfl
    | cons j js =>
      by_cases hj : j = i
      · subst hj
        have hyx : y ≠ x := fun heq => hy (heq ▸ root_mem_nodes)
        rw [lookup_cons_some setChild_self, lookup_cons_none hi]
        cases js with
        | nil => exact (if_pos rfl).symm
        | cons k js =>
          have hk : setChild child x j y y k = none := by rw [setChild_node hyx, hleaf]
          rw [lookup_cons_none hk, if_neg (by simp)]
      · rw [if_neg (by simp [hj])]
        cases hz : child x j with
        | none => rw [lookup_cons_none hz, lookup_cons_none (by rw [setChild_index hj, hz])]
        | some z =>
          rw [lookup_cons_some hz, lookup_cons_some (by rw [setChild_index hj, hz])]
          exact lookup_setChild_of_notMem (h.root_notMem hz) (Nat.le_of_succ_le_succ hjs)
  | cons a is ih =>
    obtain ⟨d, rfl⟩ := Nat.exists_eq_add_one.mpr (Nat.zero_lt_of_lt his)
    cases hw : child root a with
    | none => cases (lookup_cons_none hw).symm.trans hx
    | some w =>
      have hxw := (lookup_cons_some hw).symm.trans hx
      have hxmem : x ∈ Nodes child w d := ⟨is, Nat.le_of_lt (Nat.lt_of_succ_lt_succ his), hxw⟩
      have hne : root ≠ x := fun heq => h.root_notMem hw (heq ▸ hxmem)
      cases js with
      | nil => rfl
      | cons j js =>
        have hrow := (setChild_node hne : setChild child x i y root = child root)
        cases hz : child root j with
        | none =>
          rw [lookup_cons_none hz, lookup_cons_none (by rw [hrow, hz]), if_neg]
          grind
        | some z =>
          rw [lookup_cons_some hz, lookup_cons_some (by rw [hrow, hz])]
          have hd := Nat.le_of_succ_le_succ hjs
          by_cases hj : j = a
          · subst hj
            cases hz.symm.trans hw
            rw [ih (h.below hz) hxw (Nat.lt_of_succ_lt_succ his)
              (fun hmem => hy (nodes_child hz hmem)) hd]
            simp only [List.cons_append, List.cons.injEq, true_and]
          · rw [if_neg (by simp [hj])]
            exact lookup_setChild_of_notMem (h.disjoint_below hw hz (Ne.symm hj) hxmem) hd

theorem IsTree.nodes_setChild (h : IsTree child root d) (hx : lookup child root is = some x)
    (his : is.length < d) (hi : child x i = none) (hy : y ∉ Nodes child root d)
    (hleaf : ∀ j, child y j = none) :
    z ∈ Nodes (setChild child x i y) root d ↔ z = y ∨ z ∈ Nodes child root d := by
  have hlook : ∀ {js : List ι}, js.length ≤ d → lookup (Radix.setChild child x i y) root js =
      if js = is ++ [i] then some y else lookup child root js :=
    h.lookup_setChild hx his hi hy hleaf
  have hlen : (is ++ [i]).length ≤ d := by
    grind
  constructor
  · rintro ⟨js, hjs, hz⟩
    rw [hlook hjs] at hz
    split at hz
    · exact .inl (Option.some.inj hz).symm
    · exact .inr ⟨js, hjs, hz⟩
  · rintro (rfl | ⟨js, hjs, hz⟩)
    · exact ⟨is ++ [i], hlen, (hlook hlen).trans (if_pos rfl)⟩
    · refine ⟨js, hjs, (hlook hjs).trans ?_⟩
      rw [if_neg, hz]
      grind [lookup_append, lookup_cons_none]

theorem IsTree.setChild (h : IsTree child root d) (hx : lookup child root is = some x)
    (his : is.length < d) (hi : child x i = none) (hy : y ∉ Nodes child root d)
    (hleaf : ∀ j, child y j = none) : IsTree (Radix.setChild child x i y) root d := by
  intro js ks z hjs hks hz hz'
  rw [h.lookup_setChild hx his hi hy hleaf hjs] at hz
  rw [h.lookup_setChild hx his hi hy hleaf hks] at hz'
  split at hz <;> split at hz'
  case isTrue.isTrue hj hk => exact hj.trans hk.symm
  case isTrue.isFalse => exact absurd ⟨ks, hks, Option.some.inj hz ▸ hz'⟩ hy
  case isFalse.isTrue => exact absurd ⟨js, hjs, Option.some.inj hz' ▸ hz⟩ hy
  case isFalse.isFalse => exact h hjs hks hz hz'

end Xv6.Radix
