import Mathlib.Data.List.Chain
import Xv6.Linked.Double

/-! Circular doubly linked lists.

`Ring K h xs`: from the head `h`, which is a record itself, the links visit `xs` and come
back to `h`, and every `prev` points to the record before. `Links.insertAfter` and
`Links.unlink` are the stores that put a record behind another and take one out; no case
needs a test. A search goes round from the head, forwards or backwards. -/
namespace Xv6.Linked
open Function

variable {α : Type*} {K K' : Links α} {h x a b : α} {xs : List α}

def Links.Adj (K : Links α) (a b : α) : Prop := K.next a = b ∧ K.prev b = a

structure Ring (K : Links α) (h : α) (xs : List α) : Prop where
  nodup : (h :: xs).Nodup
  chain : (h :: (xs ++ [h])).IsChain K.Adj

namespace Ring

theorem not_mem (r : Ring K h xs) : h ∉ xs := (List.nodup_cons.mp r.nodup).1

theorem nodup_tail (r : Ring K h xs) : xs.Nodup := (List.nodup_cons.mp r.nodup).2

theorem prev_head (r : Ring K h (xs ++ [x])) : K.prev h = x := by
  have hlast := r.chain
  rw [show h :: (xs ++ [x] ++ [h]) = (h :: xs) ++ (x :: [h]) by simp, List.isChain_append] at hlast
  exact (List.isChain_cons_cons.mp hlast.2.1).1.2

theorem prev_head_nil (r : Ring K h []) : K.prev h = h :=
  (List.isChain_cons_cons.mp r.chain).1.2

theorem neighbours (r : Ring K h xs) (hx : x ∈ xs) :
    K.Adj (K.prev x) x ∧ K.Adj x (K.next x) ∧ ∃ ys zs, xs = ys ++ x :: zs ∧
      (h :: ys).IsChain K.Adj ∧ (zs ++ [h]).IsChain K.Adj ∧ (h :: ys).getLast? = some (K.prev x) ∧
      (zs ++ [h]).head? = some (K.next x) := by
  obtain ⟨ys, zs, rfl⟩ := List.append_of_mem hx
  have hc := r.chain
  rw [show h :: (ys ++ x :: zs ++ [h]) = (h :: ys) ++ (x :: (zs ++ [h])) by simp,
    List.isChain_append] at hc
  obtain ⟨hleft, hright, hjoin⟩ := hc
  obtain ⟨a, ha⟩ : ∃ a, (h :: ys).getLast? = some a := ⟨_, List.getLast?_cons⟩
  obtain ⟨b, hb⟩ : ∃ b, (zs ++ [h]).head? = some b := by
    cases zs <;> simp
  have hax : K.Adj a x := hjoin a ha x (by simp)
  have hxb : K.Adj x b := (List.isChain_cons.mp hright).1 b hb
  refine ⟨?_, ?_, ys, zs, rfl, hleft, (List.isChain_cons.mp hright).2, ?_, ?_⟩
  · rwa [hax.2]
  · rwa [hxb.1]
  · rw [ha, hax.2]
  · rw [hb, hxb.1]

end Ring

/-! ### Searching -/

/-- Go on from `p` until a record satisfies `stop`, or to the head `h`. `none` when that
takes more than the given number of steps. -/
def search [DecidableEq α] (step : α → α) (h : α) (stop : α → Bool) : ℕ → α → Option (Option α)
  | 0, _ => none
  | fuel + 1, p =>
    if p = h then some none
    else if stop p = true then some (some p)
    else search step h stop fuel (step p)

section Search
variable [DecidableEq α] {step : α → α} {stop : α → Bool} {fuel : ℕ} {p : α}

theorem search_eq (hx : h ∉ xs) (hc : (p :: xs ++ [h]).IsChain fun a b => step a = b)
    (hf : xs.length < fuel) : search step h stop fuel (step p) = some (xs.find? stop) := by
  induction xs generalizing p fuel with
  | nil =>
    obtain ⟨f, rfl⟩ := Nat.exists_eq_add_one.mpr hf
    grind [search]
  | cons y xs ih =>
    obtain ⟨f, rfl⟩ := Nat.exists_eq_add_one.mpr (Nat.zero_lt_of_lt hf)
    obtain ⟨hp, hrest⟩ := List.isChain_cons_cons.mp hc
    have hne : y ≠ h := fun heq => hx (heq ▸ List.mem_cons_self ..)
    rw [hp, search, if_neg hne]
    grind

theorem Ring.search_next (r : Ring K h xs) (hf : xs.length < fuel) :
    search K.next h stop fuel (K.next h) = some (xs.find? stop) :=
  search_eq r.not_mem (r.chain.imp fun _ _ hab => hab.1) hf

theorem Ring.search_prev (r : Ring K h xs) (hf : xs.length < fuel) :
    search K.prev h stop fuel (K.prev h) = some (xs.reverse.find? stop) := by
  have hback : (h :: xs.reverse ++ [h]).IsChain fun a b => K.prev a = b := by
    have hrev := List.isChain_reverse.mpr (r.chain.imp fun _ _ hab => hab.2)
    simpa using hrev
  exact search_eq (by simpa using r.not_mem) hback (by simpa using hf)

end Search

/-! ### Inserting and unlinking -/

variable [DecidableEq α]

def Links.insertAfter (K : Links α) (h x : α) : Links α :=
  let next := update K.next x (K.next h)
  let prev := update K.prev x h
  { next := update next h x, prev := update prev (next h) x }

def Links.unlink (K : Links α) (x : α) : Links α :=
  let prev := update K.prev (K.next x) (K.prev x)
  { next := update K.next (prev x) (K.next x), prev := prev }

theorem Links.unlink_prev_self : (K.unlink x).prev x = K.prev x := by
  show update K.prev (K.next x) (K.prev x) x = K.prev x
  grind

namespace Ring

theorem adj_unlink (hp : K.Adj (K.prev x) x) (hn : K.Adj x (K.next x)) (hab : K.Adj a b) (ha : a ≠ x)
    (hb : b ≠ x) : (K.unlink x).Adj a b := by
  constructor
  · show update K.next ((K.unlink x).prev x) (K.next x) a = b
    rw [Links.unlink_prev_self, update_of_ne, hab.1]
    exact fun heq => hb (hab.1.symm.trans (heq ▸ hp.1))
  · show update K.prev (K.next x) (K.prev x) b = a
    rw [update_of_ne, hab.2]
    exact fun heq => ha (hab.2.symm.trans (heq ▸ hn.2))

theorem adj_unlink_self : (K.unlink x).Adj (K.prev x) (K.next x) := by
  constructor
  · show update K.next ((K.unlink x).prev x) (K.next x) (K.prev x) = K.next x
    rw [Links.unlink_prev_self, update_self]
  · exact update_self ..

theorem unlink (r : Ring K h xs) (hx : x ∈ xs) : Ring (K.unlink x) h (xs.erase x) := by
  obtain ⟨hp, hn, ys, zs, rfl, hleft, hright, hlast, hhead⟩ := r.neighbours hx
  have hnd := r.nodup
  have hxh : h ≠ x := fun heq => r.not_mem (heq ▸ hx)
  have hys : x ∉ ys := fun hmem =>
    (List.nodup_append.mp r.nodup_tail).2.2 x hmem x (List.mem_cons_self ..) rfl
  have hzs : x ∉ zs := (List.nodup_cons.mp (List.nodup_append.mp r.nodup_tail).2.1).1
  have herase : (ys ++ x :: zs).erase x = ys ++ zs := by
    rw [List.erase_append_right _ hys, List.erase_cons_head]
  rw [herase]
  refine ⟨?_, ?_⟩
  · grind
  · rw [show h :: (ys ++ zs ++ [h]) = (h :: ys) ++ (zs ++ [h]) by simp, List.isChain_append]
    refine ⟨?_, ?_, fun a ha b hb => ?_⟩
    · refine List.IsChain.imp_of_mem_imp (fun a b ha hb hab => adj_unlink hp hn hab ?_ ?_) hleft
      · rintro rfl
        exact (List.mem_cons.mp ha).elim (fun heq => hxh heq.symm) hys
      · rintro rfl
        exact (List.mem_cons.mp hb).elim (fun heq => hxh heq.symm) hys
    · refine List.IsChain.imp_of_mem_imp (fun a b ha hb hab => adj_unlink hp hn hab ?_ ?_) hright
      · rintro rfl
        exact (List.mem_append.mp ha).elim hzs fun heq => hxh (List.mem_singleton.mp heq).symm
      · rintro rfl
        exact (List.mem_append.mp hb).elim hzs fun heq => hxh (List.mem_singleton.mp heq).symm
    grind [Ring.adj_unlink_self]

theorem insertAfter (r : Ring K h xs) (hx : x ∉ h :: xs) : Ring (K.insertAfter h x) h (x :: xs) := by
  obtain ⟨hxh, hxs⟩ := not_or.mp (fun hor => hx (List.mem_cons.mpr hor))
  obtain ⟨hfirst, hrest⟩ := List.isChain_cons.mp r.chain
  obtain ⟨c, hc⟩ : ∃ c, (xs ++ [h]).head? = some c := by cases xs <;> simp
  have hadj : K.Adj h c := hfirst c hc
  have hxc : x ≠ c := by
    grind
  have hnext : (K.insertAfter h x).next = update (update K.next x c) h x := by
    rw [← hadj.1]
    rfl
  have hprev : (K.insertAfter h x).prev = update (update K.prev x h) c x := by
    show update (update K.prev x h) (update K.next x (K.next h) h) x = _
    rw [update_of_ne (fun heq => hxh heq.symm), hadj.1]
  -- Records behind `h` that are next to each other stay so.
  have hkeep : ∀ {a b}, K.Adj a b → a ≠ h → a ≠ x → b ≠ x → (K.insertAfter h x).Adj a b := by
    intro a b hab hah hax hbx
    have hbc : b ≠ c := fun heq => hah (hab.2.symm.trans (heq ▸ hadj.2))
    constructor
    · rw [hnext, update_of_ne hah, update_of_ne hax, hab.1]
    · rw [hprev, update_of_ne hbc, update_of_ne hbx, hab.2]
  have hne : ∀ {a}, a ∈ xs → a ≠ h ∧ a ≠ x := fun ha =>
    ⟨fun heq => r.not_mem (heq ▸ ha), fun heq => hxs (heq ▸ ha)⟩
  refine ⟨?_, ?_⟩
  · grind [Ring.nodup_tail, Ring.not_mem]
  · show (h :: x :: (xs ++ [h])).IsChain _
    refine List.isChain_cons_cons.mpr ⟨⟨?_, ?_⟩, List.isChain_cons.mpr ⟨fun b hb => ⟨?_, ?_⟩, ?_⟩⟩
    · rw [hnext, update_self]
    · rw [hprev, update_of_ne hxc, update_self]
    · rw [hnext, update_of_ne hxh, update_self]
      exact Option.some.inj (hc.symm.trans hb)
    · rw [hprev, ← Option.some.inj (hc.symm.trans hb), update_self]
    · obtain ⟨hxs', _, hlast⟩ := List.isChain_append.mp hrest
      refine List.isChain_append.mpr ⟨?_, List.isChain_singleton h, fun a ha b hb => ?_⟩
      · exact List.IsChain.imp_of_mem_imp
          (fun a b ha hb hab => hkeep hab (hne ha).1 (hne ha).2 (hne hb).2) hxs'
      · grind

end Ring

end Xv6.Linked
